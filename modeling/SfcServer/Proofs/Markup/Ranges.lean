import Mathlib.Data.List.Chain
import SfcServer.Proofs.Markup.DocumentLayout
import SfcServer.Proofs.Markup.Finding
import SfcServer.Proofs.Markup.Rescan

/-!
# Scanning a range

A scan of a range comes to an end, and its tokens tile the range.  At most of its turns the
scanner takes a token; at the others it only changes its mode, and looks at the same text
again.  A change of mode without a token goes down in rank, so after two of them in a row a
token is taken.

Elements begin and end at places that the scan of the whole text passes.  So the range of an
element, and the range up to the end of its content, are scanned to the same tokens as in the
whole text.
-/

namespace SfcServer

/-- How many turns without a token may come after each other from a mode on. -/
def ScanMode.rank : ScanMode -> Nat
  | .content => 0
  | .inTag _ => 1
  | .inEndTag => 1
  | .rawBody _ => 1
  | .afterOpen => 2
  | .afterName _ => 2
  | .beforeValue _ => 2

theorem ScanMode.rank_le (mode : ScanMode) : mode.rank ≤ 2 := by
  cases mode <;> simp [rank]

namespace ScanStep

def switch? : ScanMode -> Char -> Text -> Option ScanMode
  | .content, _, _ => none
  | .afterOpen, c, _ => if isTagNameChar c then none else some (.inTag none)
  | .inTag _, c, _ => if c = '<' then some .content else none
  | .afterName body, c, _ => if Text.isBlank c ∨ c = '=' then none else some (.inTag body)
  | .beforeValue body, c, _ =>
    if Text.isBlank c ∨ c = Text.doubleQuote ∨ c = Text.singleQuote ∨ isUnquotedValueChar c then
      none
    else some (.inTag body)
  | .inEndTag, c, _ => if c = '<' then some .content else none
  | .rawBody element, c, rest => if element.closesAt (c :: rest) then some .content else none

/-- The turns from a mode and an offset to the end of a text, their number, and the tokens. -/
inductive Turns : ScanMode -> Nat -> Text -> Nat -> List Token -> Prop where
  | finish (mode : ScanMode) (offset : Nat) : Turns mode offset [] 0 []
  | switch {mode after : ScanMode} {offset count : Nat} {c : Char} {rest : Text}
      {tokens : List Token} :
      switch? mode c rest = some after ->
      Turns after offset (c :: rest) count tokens ->
      Turns mode offset (c :: rest) (count + 1) tokens
  | take {mode : ScanMode} {offset count : Nat} {c : Char} {rest : Text} {tokens : List Token} :
      switch? mode c rest = none ->
      Turns (next mode c rest).mode (offset + 1 + (next mode c rest).extra)
        (rest.drop (next mode c rest).extra) count tokens ->
      Turns mode offset (c :: rest) (count + 1) ((next mode c rest).token c rest offset :: tokens)

theorem inTag_open (body : Option RawElement) (rest : Text) :
    inTag body '<' rest = content '<' rest := by
  have hblank : Text.isBlank '<' = false := by decide
  simp [inTag, hblank]

/-- A turn without a token leaves the next token as it is, and goes down in rank. -/
theorem switch?_eq_some {mode after : ScanMode} {c : Char} {rest : Text}
    (h : switch? mode c rest = some after) :
    next mode c rest = next after c rest ∧ after.rank < mode.rank := by
  cases mode with
  | content =>
      cases h
  | afterOpen =>
      rw [switch?] at h
      split at h
      · cases h
      · rename_i hname
        cases h
        constructor
        · simp only [next, afterOpen, if_neg hname]
        · decide
  | inTag body =>
      rw [switch?] at h
      split at h
      · rename_i hopen
        cases h
        subst hopen
        constructor
        · exact inTag_open body rest
        · exact Nat.zero_lt_one
      · cases h
  | afterName body =>
      rw [switch?] at h
      split at h
      · cases h
      · rename_i hnone
        rw [not_or] at hnone
        cases h
        constructor
        · simp only [next, afterName, if_neg hnone.1, if_neg hnone.2]
        · exact Nat.one_lt_two
  | beforeValue body =>
      rw [switch?] at h
      split at h
      · cases h
      · rename_i hnone
        rw [not_or, ← or_assoc, not_or] at hnone
        cases h
        constructor
        · simp only [next, beforeValue, if_neg hnone.1, if_neg hnone.2.1, if_neg hnone.2.2]
        · exact Nat.one_lt_two
  | inEndTag =>
      rw [switch?] at h
      split at h
      · rename_i hopen
        cases h
        subst hopen
        constructor
        · rfl
        · exact Nat.zero_lt_one
      · cases h
  | rawBody element =>
      rw [switch?] at h
      split at h
      · rename_i hcloses
        cases h
        constructor
        · simp only [next, rawBody, if_pos hcloses]
        · exact Nat.zero_lt_one
      · cases h

theorem Turns.reach (mode : ScanMode) {c : Char} {rest : Text} {offset count : Nat}
    {tokens : List Token}
    (h : Turns (next mode c rest).mode (offset + 1 + (next mode c rest).extra)
      (rest.drop (next mode c rest).extra) count tokens) :
    exists silent, silent ≤ mode.rank ∧
      Turns mode offset (c :: rest) (count + 1 + silent)
        ((next mode c rest).token c rest offset :: tokens) := by
  cases hswitch : switch? mode c rest with
  | none =>
      exact ⟨0, Nat.zero_le _, Turns.take hswitch h⟩
  | some after =>
      -- The text is the same for the new mode, so the rank carries the recursion.
      rcases switch?_eq_some hswitch with ⟨hnext, hrank⟩
      rw [hnext] at h ⊢
      rcases Turns.reach after h with ⟨silent, hsilent, hturns⟩
      exact ⟨silent + 1, Nat.lt_of_le_of_lt hsilent hrank, Turns.switch hswitch hturns⟩
termination_by mode.rank

end ScanStep

/-- The tokens of a scan are taken in at most three turns for each character. -/
theorem scanFrom_turns (mode : ScanMode) (offset : Nat) (t : Text) :
    exists count, count ≤ 3 * t.length ∧
      ScanStep.Turns mode offset t count (scanFrom mode offset t) := by
  fun_induction scanFrom mode offset t with
  | case1 mode offset =>
      exact ⟨0, Nat.zero_le _, ScanStep.Turns.finish mode offset⟩
  | case2 mode offset c rest step ih =>
      rcases ih with ⟨count, hcount, hturns⟩
      rcases ScanStep.Turns.reach mode hturns with ⟨silent, hsilent, hall⟩
      refine ⟨count + 1 + silent, ?_, hall⟩
      have hrank := mode.rank_le
      rw [List.length_drop] at hcount
      rw [List.length_cons]
      omega

/-!
# Tiles
-/

namespace Tiled

variable {offset : Nat} {t : Text} {tokens : List Token}

theorem head?_offset (h : Tiled offset t tokens) {token : Token}
    (hhead : tokens.head? = some token) : token.offset = offset := by
  cases h with
  | done offset =>
      cases hhead
  | token _ _ =>
      cases hhead
      rfl

theorem isChain (h : Tiled offset t tokens) :
    tokens.IsChain fun a b => b.offset = a.stop := by
  induction h with
  | done offset =>
      exact List.isChain_nil
  | token _ htiled ih =>
      apply List.isChain_cons.mpr
      constructor
      · intro next hnext
        exact htiled.head?_offset hnext
      · exact ih

theorem exists_head? (h : Tiled offset t tokens) (ht : t ≠ []) :
    exists token, tokens.head? = some token ∧ token.offset = offset := by
  cases h with
  | done offset =>
      exact absurd rfl ht
  | token _ _ =>
      exact ⟨_, rfl, rfl⟩

theorem exists_getLast? (h : Tiled offset t tokens) (ht : t ≠ []) :
    exists token, tokens.getLast? = some token ∧ token.stop = offset + t.length := by
  induction h with
  | done offset =>
      exact absurd rfl ht
  | token _ htiled ih =>
      rename_i kind first rest offset tokens _
      rw [List.length_append, ← Nat.add_assoc]
      cases htiled with
      | done _ =>
          exact ⟨_, rfl, rfl⟩
      | token hnext _ =>
          rename_i next more later _
          rcases ih (List.append_ne_nil_of_left_ne_nil hnext more) with ⟨token, hlast, hstop⟩
          refine ⟨token, ?_, hstop⟩
          rw [List.getLast?_cons_cons]
          exact hlast

end Tiled

/-!
# Scans between two offsets
-/

theorem text_of_mem_scan {t : Text} {start stop : Nat} (hstart : start ≤ stop)
    (hstop : stop ≤ t.length) {token : Token} (h : token ∈ scan t start stop) :
    token.text ≠ [] ∧ token.text = t.slice token.offset token.stop := by
  rcases (scan_tiled t start stop).mem h with ⟨before, after, hpart, hoffset, hnonempty⟩
  constructor
  · exact hnonempty
  · have hslice := Text.StandsAt.slice t hstart hstop
    rw [hpart, List.append_assoc] at hslice
    have hstands := hslice.right.left
    rw [← hoffset] at hstands
    exact hstands.eq_slice

theorem scan_min (t : Text) (start stop : Nat) :
    scan t start (min stop t.length) = scan t start stop := by
  rw [scan, scan, Text.slice, Text.slice, ← List.take_eq_take_min]

def scanBound (t : Text) (stop : Option Int) : Nat :=
  (min (stop.getD t.length) t.length).toNat

theorem scan_bound (t : Text) (start : Nat) (stop : Option Int) :
    scan t start (scanBound t stop) = scan t start (stop.getD t.length).toNat := by
  have hbound : scanBound t stop = min (stop.getD t.length).toNat t.length := by
    unfold scanBound
    omega
  rw [hbound, scan_min]

/-- Tokens that cover a text between two offsets without gap, overlap or loss. -/
structure Tiles (t : Text) (start stop : Nat) (tokens : List Token) : Prop where
  first : exists token, tokens.head? = some token ∧ token.offset = start
  adjacent : tokens.IsChain fun a b => b.offset = a.stop
  texts : forall token, token ∈ tokens ->
    token.text ≠ [] ∧ token.text = t.slice token.offset token.stop
  last : exists token, tokens.getLast? = some token ∧ token.stop = stop

/--
A scan is over after at most three turns for each character of its range, and its tokens
tile the range.
-/
theorem scan_tiles (t : Text) (start : Nat) (stop : Option Int) :
    (exists count, count ≤ 3 * (scanBound t stop - start) ∧
      ScanStep.Turns .content start (t.slice start (scanBound t stop)) count
        (scan t start (stop.getD t.length).toNat)) ∧
    (start < scanBound t stop ->
      Tiles t start (scanBound t stop) (scan t start (stop.getD t.length).toNat)) := by
  have hbound : scanBound t stop ≤ t.length := by
    unfold scanBound
    omega
  have hlength := t.length_slice start (scanBound t stop) hbound
  rw [← scan_bound]
  constructor
  · rw [← hlength]
    exact scanFrom_turns .content start (t.slice start (scanBound t stop))
  · intro hlt
    have htiled := scan_tiled t start (scanBound t stop)
    have hnonempty : t.slice start (scanBound t stop) ≠ [] := by
      apply List.ne_nil_of_length_pos
      rw [hlength]
      exact Nat.sub_pos_of_lt hlt
    constructor
    · exact htiled.exists_head? hnonempty
    · exact htiled.isChain
    · intro token hmem
      exact text_of_mem_scan (Nat.le_of_lt hlt) hbound hmem
    · rcases htiled.exists_getLast? hnonempty with ⟨token, hlast, hstop⟩
      rw [hlength, Nat.add_sub_cancel' (Nat.le_of_lt hlt)] at hstop
      exact ⟨token, hlast, hstop⟩

/-- A stray quote, an end tag that is broken off, and a tag that is never closed. -/
def strayText : Text :=
  "<p \"a =</ '<b".toList

theorem scan_tiles_stray :
    1 < scanBound strayText (some 12) ∧
      Tiles strayText 1 (scanBound strayText (some 12)) (scan strayText 1 12) :=
  ⟨by decide, (scan_tiles strayText 1 (some 12)).2 (by decide)⟩

/-!
# Ranges of elements
-/

/-- The scan of a range takes the tokens of the text that begin there, in the same order. -/
theorem Reaches.scan_eq_filter {t : Text} {start stop : Nat} (h : Reaches t .content start)
    (hcut : Cut t stop) (hle : start ≤ stop) :
    scan t start stop =
      (tokensOf t).filter fun token => start ≤ token.offset && token.offset < stop := by
  rcases h.split with ⟨before, htokens, hbefore⟩
  rcases h.scanFrom_slice hcut hle with ⟨back, hscan, hback⟩
  have hfront : before.filter (fun token => start ≤ token.offset && token.offset < stop) = [] := by
    apply List.filter_eq_nil_iff.mpr
    intro token hmem hinside
    have hbounds := hbefore.mem_bounds hmem
    simp only [List.length_take, Bool.and_eq_true, decide_eq_true_eq] at hbounds hinside
    omega
  have hlater : back.filter (fun token => start ≤ token.offset && token.offset < stop) = [] := by
    apply List.filter_eq_nil_iff.mpr
    intro token hmem hinside
    have hstop := hback token hmem
    simp only [Bool.and_eq_true, decide_eq_true_eq] at hinside
    omega
  have hpart : (scan t start stop).filter
      (fun token => start ≤ token.offset && token.offset < stop) = scan t start stop := by
    apply List.filter_eq_self.mpr
    intro token hmem
    have hinside := (h.mem_scan hcut).mp hmem
    simp only [Bool.and_eq_true, decide_eq_true_eq]
    exact hinside.2
  rw [htokens, hscan, List.filter_append, List.filter_append, hfront, hlater, List.nil_append,
    List.append_nil]
  exact hpart.symm

namespace Document

theorem laid_of_mem (t : Text) {e : Element}
    (he : e ∈ Element.preorderAll (ofText t).roots) :
    e.Recorded t ∧ Laid t (headStop t e.start) e.contentStop e.children := by
  rcases Element.mem_preorderAll.mp he with ⟨root, hroot, hinside⟩
  rcases Laid.of_preorder root (ofText_laid t) hroot hinside with ⟨_, _, _, hlaid, hmem⟩
  exact hlaid.mem hmem

theorem recorded_of_mem (t : Text) {e : Element}
    (he : e ∈ Element.preorderAll (ofText t).roots) : e.Recorded t :=
  (laid_of_mem t he).1

/--
The range of an element, and the range up to the end of its content, are scanned to the
tokens of the whole text that begin there.
-/
theorem element_scans_agree (t : Text) {e : Element}
    (he : e ∈ Element.preorderAll (ofText t).roots) :
    scan t e.start e.stop =
        (scan t 0 t.length).filter (fun token =>
          e.start ≤ token.offset && token.offset < e.stop) ∧
      scan t e.start e.contentStop =
        (scan t 0 t.length).filter (fun token =>
          e.start ≤ token.offset && token.offset < e.contentStop) := by
  have hrecorded := recorded_of_mem t he
  have hcontent := Nat.le_of_lt hrecorded.start_lt
  constructor
  · exact hrecorded.opens.reaches.scan_eq_filter hrecorded.cut_stop
      (Nat.le_trans hcontent hrecorded.content_le)
  · exact hrecorded.opens.reaches.scan_eq_filter hrecorded.cut_contentStop hcontent

end Document

/-- An element in an unclosed one; its end tag is broken off by a slash. -/
def slashedText : Text :=
  "<p><b>x</b /i>y</i>".toList

theorem element_scans_agree_slashed :
    exists e, e ∈ Element.preorderAll (Document.ofText slashedText).roots ∧
      e.contentStop = 7 ∧ e.stop = 11 ∧
      scan slashedText 3 11 = (scan slashedText 0 19).filter (fun token =>
        3 ≤ token.offset && token.offset < 11) ∧
      scan slashedText 3 7 = (scan slashedText 0 19).filter (fun token =>
        3 ≤ token.offset && token.offset < 7) := by
  have hfacts : (Element.preorderAll (Document.ofText slashedText).roots).any (fun e =>
      e.start = 3 ∧ e.contentStop = 7 ∧ e.stop = 11) = true := by
    decide +kernel
  rcases List.any_eq_true.mp hfacts with ⟨e, he, hplaces⟩
  rcases of_decide_eq_true hplaces with ⟨hstart, hcontent, hstop⟩
  have hscans := Document.element_scans_agree slashedText he
  rw [hstart, hcontent, hstop] at hscans
  exact ⟨e, he, hcontent, hstop, hscans⟩

end SfcServer
