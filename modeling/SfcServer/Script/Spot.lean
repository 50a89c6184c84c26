import SfcServer.Script.Tree

/-!
# Places in a script

A script is read from left to right.  A place in it is an offset together with what is
left of the script from there; the two always agree, so a reader that only steps from
place to place can neither leave the script nor lose count of it.
-/

namespace SfcServer
namespace Script

structure Spot (source : Text) where
  offset : Nat
  rest : Text
  drop_eq : source.drop offset = rest
  offset_le : offset ≤ source.length

namespace Spot

variable {source : Text}

def first (source : Text) : Spot source :=
  ⟨0, source, rfl, Nat.zero_le _⟩

theorem offset_lt {s : Spot source} {c : Char} {rest : Text} (h : s.rest = c :: rest) :
    s.offset < source.length := by
  have hlen : (source.drop s.offset).length = (c :: rest).length := by
    rw [s.drop_eq, h]
  rw [List.length_drop, List.length_cons] at hlen
  omega

theorem drop_succ_eq {s : Spot source} {c : Char} {rest : Text} (h : s.rest = c :: rest) :
    source.drop (s.offset + 1) = rest := by
  rw [← List.drop_drop, s.drop_eq, h]
  rfl

def next (s : Spot source) : Spot source :=
  match h : s.rest with
  | [] => s
  | _ :: rest => ⟨s.offset + 1, rest, drop_succ_eq h, offset_lt h⟩

def drop (s : Spot source) : Nat -> Spot source
  | 0 => s
  | n + 1 => s.next.drop n

theorem offset_le_next (s : Spot source) : s.offset ≤ s.next.offset := by
  unfold next
  split
  · exact Nat.le_refl _
  · exact Nat.le_succ _

theorem offset_le_drop (s : Spot source) (n : Nat) : s.offset ≤ (s.drop n).offset := by
  induction n generalizing s with
  | zero => exact Nat.le_refl _
  | succ n ih => exact Nat.le_trans s.offset_le_next (ih s.next)

end Spot

/-! ## Parts of a script -/

structure Part (source : Text) where
  start : Spot source
  stop : Spot source
  start_le_stop : start.offset ≤ stop.offset

namespace Part

variable {source : Text}

def ofLength (start : Spot source) (n : Nat) : Part source :=
  ⟨start, start.drop n, start.offset_le_drop n⟩

def text (p : Part source) : Text :=
  p.start.rest.take (p.stop.offset - p.start.offset)

def node (p : Part source) (kind : String) (children : List SyntaxNode) : SyntaxNode where
  kind := kind
  start := p.start.offset
  stop := p.stop.offset
  children := children

def leaf (p : Part source) (kind : String) : SyntaxNode :=
  p.node kind []

def token (p : Part source) : SyntaxNode :=
  .token (String.ofList p.text) p.start.offset p.stop.offset

end Part
end Script
end SfcServer
