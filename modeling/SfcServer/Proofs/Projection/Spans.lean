import SfcServer.Proofs.Offset.Lines
import SfcServer.Proofs.Projection.Script
import SfcServer.Proofs.Template.Location

/-!
# Spans of the projected script

A projected script is the script section of a document with the render method inserted, and the
render method spells out the expressions of the template.  So each of its parts but the code
around expressions stands in the document as well.  A span in one of those parts is carried over
to a range that holds the same text there, the separator of a loop apart.
-/

namespace SfcServer

/-!
# Expressions without a text
-/

namespace Expression

theorem ofAttribute_otherwise {name : Text} {value : Option Token} {nameStop : Nat}
    {x : Expression} (h : ofAttribute name value nameStop = some x)
    (hkind : x.kind = .otherwise) : x.text = [] := by
  unfold ofAttribute at h
  split at h
  · cases h
    rfl
  · rename_i hname
    rcases Option.map_eq_some_iff.mp h with ⟨token, _, hx⟩
    rw [← hx] at hkind
    exact absurd hkind hname

theorem readToken_otherwise {reading : TagReading} {token : Token} {x : Expression}
    (h : x ∈ (readToken reading token).1) (hkind : x.kind = .otherwise) : x.text = [] := by
  rcases mem_readToken h with ⟨_, _, hcontent⟩ | ⟨_, name, value, nameStop, hattribute⟩
  · rw [ofContent_kind hcontent] at hkind
    cases hkind
  · exact ofAttribute_otherwise hattribute hkind

theorem readTokens_otherwise {reading : TagReading} {tokens : List Token} {x : Expression}
    (h : x ∈ readTokens reading tokens) (hkind : x.kind = .otherwise) : x.text = [] := by
  induction tokens generalizing reading with
  | nil =>
      cases h
  | cons token rest ih =>
      rcases List.mem_append.mp h with hfirst | hrest
      · exact readToken_otherwise hfirst hkind
      · exact ih hrest

end Expression

theorem Document.otherwise_text {text : Text} {template : Element} {x : Expression}
    (htemplate : (Document.ofText text).template? = some template)
    (hx : x ∈ template.expressions text) (hkind : x.kind = .otherwise) : x.text = [] := by
  rcases Element.mem_expressions_iff.mp hx with ⟨e, he, hown⟩
  rcases Document.recorded_of_preorder htemplate he with ⟨hrecorded, hchildren⟩
  rcases Element.own_readBetween hrecorded hchildren hown with ⟨_, hfirst | ⟨_, _, hlater⟩⟩
  · exact Expression.readTokens_otherwise hfirst.read hkind
  · exact Expression.readTokens_otherwise hlater.read hkind

namespace Projection

def rangeOf (p : Projection) (text : Text) (start length : Int) : Range :=
  (Lines.ofText text).rangeOf (p.toDocument start) (p.toDocument start + length)

def placeOf (p : Projection) (text : Text) (template : Element) (x : Expression) : Nat :=
  p.bodyStart + (Fragment.upTo x (template.fragments text)).length

/-- A range holds what the projected script holds in a span, if that lies in a part of both. -/
structure Delimits (p : Projection) (text : Text) (start length : Nat) (r : Range) : Prop where
  before : start < p.insertion -> start + length ≤ p.insertion ->
    Lines.textIn text r = p.text.slice start (start + length)
  behind : p.renderStop ≤ start -> start + length ≤ p.text.length ->
    Lines.textIn text r = p.text.slice start (start + length)
  expression : forall template x k, (Document.ofText text).template? = some template ->
    x ∈ template.expressions text -> start = p.placeOf text template x + k ->
    k + length ≤ x.text.length ->
    Lines.textIn text r = x.text.slice k (k + length) ∧
      exists written, x.ReadsAs written ∧
        p.text.slice start (start + length) = written.slice k (k + length)

/-!
# Spans of one part
-/

variable {p : Projection} {text part written : Text} {place source k length : Nat}

theorem textIn_rangeOf (h : text.StandsAt source part) (hlength : k + length ≤ part.length)
    (hmoved : p.toDocument (place + k : Nat) = (source + k : Nat)) :
    Lines.textIn text (p.rangeOf text (place + k : Nat) length) = part.slice k (k + length) := by
  have hbounds := h.le
  rw [rangeOf, hmoved, ← Int.natCast_add,
    Lines.textIn_rangeOf text (Nat.le_add_right _ _) (by omega)]
  exact h.slice_part hlength

theorem textIn_rangeOf_zero (p : Projection) (text : Text) (start : Int) :
    Lines.textIn text (p.rangeOf text start 0) = [] := by
  rw [rangeOf, Int.add_zero]
  exact Lines.textIn_rangeOf_self text _

/-- A part that stands in the document and in the projected script, where it is moved to. -/
theorem textIn_rangeOf_part (hscript : p.text.StandsAt place part)
    (h : text.StandsAt source part) (hlength : k + length ≤ part.length)
    (hmoved : p.toDocument (place + k : Nat) = (source + k : Nat)) :
    Lines.textIn text (p.rangeOf text (place + k : Nat) length) =
      p.text.slice (place + k) (place + k + length) := by
  rw [textIn_rangeOf h hlength hmoved, hscript.slice_part hlength]

/-!
# The script section
-/

section Built

variable {uri : Text} {component : Option Component} {version : Nat}

/-- The content of the script section, unless there is none, stands in the document. -/
theorem content_standsAt
    (hbuild : build? uri text (Document.ofText text) component version = some p)
    (hcontent : 0 < (text.slice p.scriptStart p.scriptStop).length) :
    text.StandsAt p.scriptStart (text.slice p.scriptStart p.scriptStop) := by
  rcases build?_eq_some hbuild with ⟨_, script, _, hscript, _, hstop, _⟩
  have hrecorded := ((Document.ofText_laid text).mem (List.mem_of_find?_eq_some hscript)).1
  have hbounds := hrecorded.content_le
  have htext := hrecorded.stop_le
  have hlast : p.scriptStop ≤ text.length := by omega
  rw [Text.length_slice text _ _ hlast] at hcontent
  exact Text.StandsAt.slice text (by omega) hlast

variable (hbuild : build? uri text (Document.ofText text) component version = some p)
  (hinsertion : p.insertion ≤ (text.slice p.scriptStart p.scriptStop).length)

include hbuild hinsertion

theorem textIn_before {start : Nat} (hstart : start < p.insertion)
    (hstop : start + length ≤ p.insertion) :
    Lines.textIn text (p.rangeOf text start length) = p.text.slice start (start + length) := by
  rcases build?_eq_some hbuild with ⟨_, _, _, _, _, _, hwhole, _⟩
  have hcontent := content_standsAt hbuild (by omega)
  rw [← List.take_append_drop p.insertion (text.slice p.scriptStart p.scriptStop)] at hcontent
  have hscript : p.text.StandsAt 0
      ((text.slice p.scriptStart p.scriptStop).take p.insertion) := by
    rw [hwhole, List.append_assoc]
    exact ⟨[], _, rfl, rfl⟩
  have hmoved : p.toDocument (0 + start : Nat) = (p.scriptStart + start : Nat) := by
    rw [Nat.zero_add, toDocument, if_pos (Int.ofNat_lt.mpr hstart), Int.natCast_add]
  have hlength : start + length ≤
      ((text.slice p.scriptStart p.scriptStop).take p.insertion).length := by
    rw [List.length_take]
    omega
  have hspan := textIn_rangeOf_part hscript hcontent.left hlength hmoved
  rwa [Nat.zero_add] at hspan

theorem textIn_behind {start : Nat} (hstart : p.renderStop ≤ start)
    (hstop : start + length ≤ p.text.length) :
    Lines.textIn text (p.rangeOf text start length) = p.text.slice start (start + length) := by
  rcases build?_eq_some hbuild with ⟨_, _, _, _, _, _, hwhole, _⟩
  rcases Nat.eq_zero_or_pos length with hnone | hsome
  · subst hnone
    rw [Nat.add_zero, Text.slice_of_le _ (Nat.le_refl _)]
    exact textIn_rangeOf_zero p text start
  · obtain ⟨k, hk⟩ : exists k, start = p.renderStop + k := ⟨start - p.renderStop, by omega⟩
    subst hk
    have hrender : p.renderStop = p.insertion + p.render.length := rfl
    have hfront : ((text.slice p.scriptStart p.scriptStop).take p.insertion).length =
        p.insertion := by
      rw [List.length_take, Nat.min_eq_left hinsertion]
    have hsize := congrArg List.length hwhole
    simp only [List.length_append, hfront, List.length_drop] at hsize
    have hcontent := content_standsAt hbuild (by omega)
    rw [← List.take_append_drop p.insertion (text.slice p.scriptStart p.scriptStop)] at hcontent
    have hrest := hcontent.right
    rw [hfront] at hrest
    have hscript : p.text.StandsAt p.renderStop
        ((text.slice p.scriptStart p.scriptStop).drop p.insertion) := by
      refine ⟨_, [], by rw [List.append_nil]; exact hwhole, ?_⟩
      rw [List.length_append, hfront, hrender]
    have hmoved : p.toDocument (p.renderStop + k : Nat) =
        (p.scriptStart + p.insertion + k : Nat) := by
      rw [hrender, Nat.add_right_comm, toDocument_behind (Nat.le_add_right _ _), Nat.add_assoc]
    exact textIn_rangeOf_part hscript hrest (by rw [List.length_drop]; omega) hmoved

/-!
# Expressions
-/

theorem textIn_expression {template : Element} {x : Expression}
    (htemplate : (Document.ofText text).template? = some template)
    (hx : x ∈ template.expressions text) (hlength : k + length ≤ x.text.length) :
    Lines.textIn text (p.rangeOf text (p.placeOf text template x + k : Nat) length) =
        x.text.slice k (k + length) ∧
      p.text.slice (p.placeOf text template x + k) (p.placeOf text template x + k + length) =
        x.spelled.slice k (k + length) := by
  by_cases hkind : x.kind = .otherwise
  · -- An `else` leaves no mark, but its text is empty, and so is every span in it.
    have hnone := Document.otherwise_text htemplate hx hkind
    rw [hnone, List.length_nil] at hlength
    have hzero : length = 0 := by omega
    subst hzero
    simp only [Nat.add_zero, Text.slice_of_le _ (Nat.le_refl _)]
    exact ⟨textIn_rangeOf_zero p text _, trivial⟩
  · have hrenders := build?_renders hbuild htemplate
    have hsequenced := Document.template_sequenced htemplate
    rcases hrenders.spelled_upTo hsequenced hx hkind rfl with ⟨after, hspell, hoffsets⟩
    have hspelled := x.length_spelled
    constructor
    · exact textIn_rangeOf (hsequenced.mem hx).2.2.stands hlength
        (hoffsets k (by omega)).2.2
    · exact (hrenders.stands hinsertion hspell).slice_part (by omega)

/-- Every span of the projected script is carried over to a range that delimits it. -/
theorem rangeOf_delimits (start length : Nat) :
    p.Delimits text start length (p.rangeOf text start length) where
  before := textIn_before hbuild hinsertion
  behind := textIn_behind hbuild hinsertion
  expression := by
    intro template x k htemplate hx hstart hlength
    subst hstart
    rcases textIn_expression hbuild hinsertion htemplate hx hlength with ⟨hrange, hscript⟩
    exact ⟨hrange, x.spelled, x.readsAs_spelled, hscript⟩

end Built
end Projection
end SfcServer
