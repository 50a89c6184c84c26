import SfcServer.Proofs.Markup.Ranges
import SfcServer.Proofs.Markup.StartTags

/-!
# Where elements and their tags stand

The offsets that an element records are those of its tags: a `<` and its name stand where it
begins, a `>` where its start tag ends, and a `</` where its end tag begins.  Elements follow
each other in the order in which their start tags are written, and begin in the content of the
element around them.

They need not end in it.  When an end tag is broken off, its element ends at the character that
breaks it off; a later name in the same end tag may then end the element around it where the end
tag begins.  This is the only way for an element to stop behind the one around it.
-/

namespace SfcServer

variable {t : Text} {e : Element}

/-!
# Tokens that end a start tag
-/

def TokenKind.endsHead : TokenKind -> Bool
  | .startTagClose | .startTagSelfClose => true
  | _ => false

namespace ScanStep

theorem Fresh.not_endsHead {kind : TokenKind} {mode : ScanMode} (h : Fresh kind mode) :
    kind.endsHead = false := by
  cases h <;> rfl

theorem inTag_closes (body : Option RawElement) {c : Char} {rest : Text}
    (h : (inTag body c rest).kind.endsHead = true) :
    (c :: rest)[(inTag body c rest).extra]? = some '>' := by
  revert h
  unfold inTag
  split
  · simp [TokenKind.endsHead]
  · split
    · rename_i hslash
      rcases List.head?_eq_some_iff.mp hslash.2 with ⟨more, hrest⟩
      simp [hrest]
    · split
      · rename_i hclose
        simp [hclose]
      · split
        · rw [(content_fresh c rest).not_endsHead]
          simp
        · split <;> simp [TokenKind.endsHead]

theorem next_closes {mode : ScanMode} {c : Char} {rest : Text}
    (h : (next mode c rest).kind.endsHead = true) :
    (c :: rest)[(next mode c rest).extra]? = some '>' := by
  have hcontent := (content_fresh c rest).not_endsHead
  revert h
  cases mode with
  | content =>
      simp [next, hcontent]
  | afterOpen =>
      simp only [next, afterOpen]
      split
      · simp [TokenKind.endsHead]
      · exact inTag_closes none
  | inTag body =>
      exact inTag_closes body
  | afterName body =>
      simp only [next, afterName]
      split
      · simp [TokenKind.endsHead]
      · split
        · simp [TokenKind.endsHead]
        · exact inTag_closes body
  | beforeValue body =>
      simp only [next, beforeValue]
      split
      · simp [TokenKind.endsHead]
      · split
        · simp [TokenKind.endsHead]
        · split
          · simp [TokenKind.endsHead]
          · exact inTag_closes body
  | inEndTag =>
      simp only [next, inEndTag]
      split
      · simp [TokenKind.endsHead]
      · split
        · simp [TokenKind.endsHead]
        · split
          · simp [TokenKind.endsHead]
          · split
            · simp [hcontent]
            · simp [TokenKind.endsHead]
  | rawBody element =>
      simp only [next, rawBody]
      split
      · simp [hcontent]
      · simp [TokenKind.endsHead]

end ScanStep

theorem getElem?_of_endsHead {token : Token} (hmem : token ∈ tokensOf t)
    (hkind : token.kind.endsHead = true) : t[token.stop - 1]? = some '>' := by
  rcases Passes.of_mem hmem with ⟨mode, c, rest, _, hdrop, htoken⟩
  have hlast : (c :: rest)[(ScanStep.next mode c rest).extra]? = some '>' := by
    apply ScanStep.next_closes
    rw [htoken] at hkind
    exact hkind
  have hstop : token.stop - 1 = token.offset + (ScanStep.next mode c rest).extra := by
    rw [htoken, ScanStep.token_stop]
    simp only [ScanStep.token_offset]
    omega
  rw [hstop, ← List.getElem?_drop, hdrop]
  exact hlast

theorem Reaches.not_endsHead {offset : Nat} (h : Reaches t .content offset) {token : Token}
    (hmem : token ∈ tokensOf t) (hoffset : token.offset = offset) :
    token.kind.endsHead = false := by
  have hbounds := (tokensOf_tiled t).mem_bounds hmem
  rcases drop_eq_cons (show offset < t.length by omega) with ⟨c, rest, hdrop⟩
  rw [token_unique hmem (h.token_mem hdrop) hoffset]
  exact (ScanStep.content_fresh c rest).not_endsHead

theorem Opens.mem_of_afterHead {start : Nat} (h : Opens t start) {token : Token}
    (hmem : token ∈ afterHead t start) : token ∈ tokensOf t := by
  apply h.reaches.mem
  exact List.mem_of_mem_tail ((List.dropWhile_suffix _).subset hmem)

/-!
# The tags of an element
-/

namespace Element
namespace Recorded

theorem head_closed (h : e.Recorded t) {stop : Nat} (hstop : e.startTagEnd = some stop) :
    exists token, token ∈ tokensOf t ∧ token.kind.endsHead = true ∧
      token.offset = headStop t e.start ∧ token.stop = stop ∧ stop ≤ e.contentStop := by
  rcases h.closes stop hstop with ⟨token, tokens, hafter, hkind, htoken⟩
  have hmem : token ∈ tokensOf t := by
    apply h.opens.mem_of_afterHead
    rw [hafter]
    exact List.mem_cons_self
  have hends : token.kind.endsHead = true := by
    rcases hkind with hkind | hkind <;> rw [hkind] <;> rfl
  have hoffset : token.offset = headStop t e.start := by
    rw [headStop, hafter]
  have hbefore : token.offset ≠ e.contentStop := by
    intro heq
    unfold contentStop at heq
    cases hend : e.endTagStart with
    | some start =>
        rw [hend] at heq
        have hsame := token_unique hmem (h.endTag start hend).opens heq
        rw [hsame] at hends
        cases hends
    | none =>
        rw [hend] at heq
        rcases h.ended with hreaches | ⟨other, hother, hunknown, hstands⟩
        · rw [hreaches.not_endsHead hmem heq] at hends
          cases hends
        · rw [token_unique hmem hother (heq.trans hstands.symm), hunknown] at hends
          cases hends
  refine ⟨token, hmem, hends, hoffset, htoken, ?_⟩
  have hhead := h.head_le
  rw [← htoken]
  exact h.cut_contentStop.stop_le token hmem (by omega)

theorem contentStart_le (h : e.Recorded t) : e.contentStart ≤ e.contentStop := by
  unfold contentStart
  cases hstop : e.startTagEnd with
  | none =>
      exact Nat.le_of_lt h.start_lt
  | some stop =>
      rcases h.head_closed hstop with ⟨_, _, _, _, _, hle⟩
      exact hle

end Recorded

/-- The tags of an element stand in a text where the element says. -/
structure TagsStand (t : Text) (e : Element) : Prop where
  named : e.tag ≠ []
  opening : t[e.start]? = some '<'
  name : t.slice (e.start + 1) (e.start + 1 + e.tag.length) = e.tag
  start_lt : e.start < e.stop
  stop_le : e.stop ≤ t.length
  startTag : forall stop, e.startTagEnd = some stop ->
    e.start + 1 + e.tag.length < stop ∧ stop ≤ e.stop ∧ t[stop - 1]? = some '>'
  endTag : forall start, e.endTagStart = some start ->
    t.slice start (start + 2) = ['<', '/'] ∧ e.contentStart ≤ start ∧ start ≤ e.stop

theorem Recorded.tagsStand (h : e.Recorded t) : e.TagsStand t := by
  have hname := (tokensOf_tiled t).mem_bounds h.name
  have hstart := h.start_lt
  have hcontent := h.content_le
  have hstop := h.stop_le
  have hread : forall token, token ∈ tokensOf t ->
      token.text ≠ [] ∧ token.text = t.slice token.offset token.stop := by
    intro token hmem
    exact text_of_mem_scan (Nat.zero_le _) (Nat.le_refl _) hmem
  constructor
  · exact (hread _ h.name).1
  · rcases h.opens.letter with ⟨d, rest, hdrop, _⟩
    rw [← Nat.add_zero e.start, ← List.getElem?_drop, hdrop]
    rfl
  · exact (hread _ h.name).2.symm
  · omega
  · exact hstop
  · intro stop hstop
    rcases h.head_closed hstop with ⟨token, hmem, hends, hoffset, htoken, hle⟩
    refine ⟨?_, Nat.le_trans hle hcontent, ?_⟩
    · have hbounds := (tokensOf_tiled t).mem_bounds hmem
      have hlt := h.opens.lt_headStop
      rcases (tokensOf_tiled t).separated hmem h.name with heq | hbefore | hbehind
      · rw [heq] at hends
        cases hends
      · simp only at hbefore
        omega
      · simp only [Token.stop] at hbehind
        omega
    · rw [← htoken]
      exact getElem?_of_endsHead hmem hends
  · intro start hend
    have hplace : e.contentStop = start := by
      rw [contentStop, hend]
      rfl
    refine ⟨?_, ?_, ?_⟩
    · exact (hread _ (h.endTag start hend).opens).2.symm
    · rw [← hplace]
      exact h.contentStart_le
    · rw [← hplace]
      exact hcontent

end Element

/-!
# The order of elements
-/

/-- Siblings that begin between two offsets and follow each other. -/
structure InOrder (low high : Nat) (es : List Element) : Prop where
  within : forall e, e ∈ es -> low ≤ e.start ∧ e.start < high
  apart : es.Pairwise fun left right => left.stop ≤ right.start

namespace Laid

variable {low high : Nat} {es : List Element}

theorem apart (h : Laid t low high es) :
    es.Pairwise fun left right => left.stop ≤ right.start := by
  induction h with
  | nil low high =>
      exact List.Pairwise.nil
  | cons _ _ _ _ hrest _ ihrest =>
      refine List.Pairwise.cons ?_ ihrest
      intro right hright
      exact hrest.low_le hright

theorem inOrder (h : Laid t low high es) : InOrder low high es := by
  constructor
  · intro e he
    have hstart := (h.mem he).1.start_lt
    exact ⟨h.low_le he, Nat.lt_of_lt_of_le hstart (h.le_high he)⟩
  · exact h.apart

/-- The start tags of elements, each before those inside of it, are written in this order. -/
theorem starts_ascend (h : Laid t low high es) :
    (Element.preorderAll es).Pairwise (fun a b => a.start < b.start) ∧
      forall e, e ∈ Element.preorderAll es -> low ≤ e.start ∧ e.start < e.contentStop ∧
        e.contentStop ≤ high := by
  induction h with
  | nil low high =>
      refine ⟨List.Pairwise.nil, ?_⟩
      intro e he
      cases he
  | cons hlow hhigh hrecorded hchildren hrest ihchildren ihrest =>
      rename_i low high root rest
      have hhead := hrecorded.opens.lt_headStop
      have hstart := hrecorded.start_lt
      have hcontent := hrecorded.content_le
      have hinside : forall e, e ∈ root.preorder -> root.start ≤ e.start ∧
          e.start < e.contentStop ∧ e.contentStop ≤ root.contentStop := by
        intro e he
        rw [Element.preorder_eq, ← Element.preorderAll_eq] at he
        rcases List.mem_cons.mp he with heq | hmem
        · rw [heq]
          exact ⟨Nat.le_refl _, hstart, Nat.le_refl _⟩
        · rcases ihchildren.2 e hmem with ⟨hbegin, hlt, hle⟩
          exact ⟨by omega, hlt, hle⟩
      rw [Element.preorderAll]
      constructor
      · rw [List.pairwise_append]
        refine ⟨?_, ihrest.1, ?_⟩
        · rw [Element.preorder_eq, ← Element.preorderAll_eq, List.pairwise_cons]
          refine ⟨?_, ihchildren.1⟩
          intro e he
          have hbegin := (ihchildren.2 e he).1
          omega
        · intro a ha b hb
          have hbefore := hinside a ha
          have hbehind := (ihrest.2 b hb).1
          omega
      · intro e he
        rcases List.mem_append.mp he with hroot | hmem
        · rcases hinside e hroot with ⟨hbegin, hlt, hle⟩
          exact ⟨by omega, hlt, by omega⟩
        · rcases ihrest.2 e hmem with ⟨hbegin, hlt, hle⟩
          exact ⟨by omega, hlt, hle⟩

end Laid

theorem Element.Recorded.inOrder (h : e.Recorded t)
    (hchildren : Laid t (headStop t e.start) e.contentStop e.children) :
    InOrder e.contentStart e.contentStop e.children := by
  have horder := hchildren.inOrder
  refine ⟨?_, horder.apart⟩
  intro c hc
  refine ⟨?_, (horder.within c hc).2⟩
  have hlow := (horder.within c hc).1
  unfold contentStart
  cases hstop : e.startTagEnd with
  | none =>
      exact Nat.le_of_lt (Nat.lt_of_lt_of_le h.opens.lt_headStop hlow)
  | some stop =>
      -- The token that ends the start tag is another one than the `<` of the child.
      rcases h.head_closed hstop with ⟨token, hmem, hends, hoffset, htoken, _⟩
      rw [Option.getD_some, ← htoken]
      rcases (tokensOf_tiled t).separated hmem (hchildren.mem hc).1.opens.open_mem with
        heq | hbefore | hbehind
      · rw [heq] at hends
        cases hends
      · exact hbefore
      · simp only [Token.stop, List.length_singleton] at hbehind
        omega

namespace Document

/--
The elements of a document stand in the text where they say, follow each other without
overlap, begin in the content of the element around them, and are listed in the order in which
they begin.
-/
theorem elements_placed (t : Text) :
    InOrder 0 (ofText t).size (ofText t).roots ∧
      (forall e, e ∈ Element.preorderAll (ofText t).roots ->
        e.TagsStand t ∧ InOrder e.contentStart e.contentStop e.children) ∧
      (Element.preorderAll (ofText t).roots).Pairwise (fun a b => a.start < b.start) := by
  have hlaid := ofText_laid t
  refine ⟨hlaid.inOrder, ?_, hlaid.starts_ascend.1⟩
  intro e he
  rcases laid_of_mem t he with ⟨hrecorded, hchildren⟩
  exact ⟨hrecorded.tagsStand, hrecorded.inOrder hchildren⟩

end Document

/-- An element whose end tag is broken off, in one that the same end tag leaves open. -/
def overhangText : Text :=
  "<a><c><b></b /a>".toList

theorem elements_placed_overhang :
    exists e, e ∈ Element.preorderAll (Document.ofText overhangText).roots ∧
      (e.start, e.startTagEnd, e.endTagStart) = (6, some 9, some 9) ∧
      e.TagsStand overhangText ∧ InOrder 9 9 e.children := by
  have hfacts : (Element.preorderAll (Document.ofText overhangText).roots).any (fun e =>
      (e.start, e.startTagEnd, e.endTagStart) = (6, some 9, some 9)) = true := by
    decide +kernel
  rcases List.any_eq_true.mp hfacts with ⟨e, he, hplaces⟩
  have hplaces := of_decide_eq_true hplaces
  have hstop : e.startTagEnd = some 9 := congrArg (·.2.1) hplaces
  have hend : e.endTagStart = some 9 := congrArg (·.2.2) hplaces
  rcases (Document.elements_placed overhangText).2.1 e he with ⟨hstand, horder⟩
  rw [Element.contentStart, Element.contentStop, hstop, hend] at horder
  exact ⟨e, he, hplaces, hstand, horder⟩

/-!
# Spans
-/

namespace Element.Recorded

/-- Only an element whose end tag is broken off stops behind the one around it. -/
theorem nested_iff {c : Element} (h : e.Recorded t) (hc : c ∈ e.children) (hchild : c.Recorded t) :
    c.stop ≤ e.stop ↔ ¬ c.Overhangs t e.stop := by
  constructor
  · intro hle hover
    rcases hover with ⟨hend, token, hmem, hkind, hoffset⟩
    have hcontent := hchild.content_le
    rw [contentStop, hend, Option.getD_some] at hcontent
    -- The `</` of its end tag would be the character that breaks the end tag off.
    have hsame := token_unique hmem (hchild.endTag e.stop hend).opens
      (hoffset.trans (Nat.le_antisymm hle hcontent))
    rw [hsame] at hkind
    cases hkind
  · intro hnot
    rcases h.nested c hc with hle | hover
    · exact hle
    · exact absurd hover hnot

end Element.Recorded

namespace Document

/--
Elements stop inside of their document, and inside of the element around them unless they
overhang it.
-/
theorem spans_nested_iff (t : Text) :
    (forall e, e ∈ (ofText t).roots -> e.stop ≤ (ofText t).size) ∧
      forall e c, e ∈ Element.preorderAll (ofText t).roots -> c ∈ e.children ->
        (c.stop ≤ e.stop ↔ ¬ c.Overhangs t e.stop) := by
  constructor
  · intro e he
    exact ((ofText_laid t).mem he).1.stop_le
  · intro e c he hc
    rcases laid_of_mem t he with ⟨hrecorded, hchildren⟩
    exact hrecorded.nested_iff hc (hchildren.mem hc).1

end Document

theorem spans_nested_iff_overhang :
    exists e c, e ∈ Element.preorderAll (Document.ofText overhangText).roots ∧ c ∈ e.children ∧
      (e.stop, c.stop) = (9, 13) ∧ c.Overhangs overhangText e.stop := by
  have hfacts : (Element.preorderAll (Document.ofText overhangText).roots).any (fun e =>
      e.children.any fun c => (e.stop, c.stop) = (9, 13)) = true := by
    decide +kernel
  rcases List.any_eq_true.mp hfacts with ⟨e, he, hinside⟩
  rcases List.any_eq_true.mp hinside with ⟨c, hc, hstops⟩
  have hstops := of_decide_eq_true hstops
  have hstop : e.stop = 9 := congrArg (·.1) hstops
  have hchild : c.stop = 13 := congrArg (·.2) hstops
  have hnested := (Document.spans_nested_iff overhangText).2 e c he hc
  refine ⟨e, c, he, hc, hstops, ?_⟩
  apply Classical.not_not.mp
  rw [← hnested]
  omega

/-- The inner element stops before the `/`, and the one around it before the `</`. -/
theorem overhang_not_nested :
    ¬ forall e c, e ∈ Element.preorderAll (Document.ofText overhangText).roots -> c ∈ e.children ->
      c.stop ≤ e.stop := by
  intro h
  have hfacts : (Element.preorderAll (Document.ofText overhangText).roots).all (fun e =>
      e.children.all fun c => c.stop ≤ e.stop) = true := by
    rw [List.all_eq_true]
    intro e he
    rw [List.all_eq_true]
    intro c hc
    exact decide_eq_true (h e c he hc)
  revert hfacts
  decide +kernel

end SfcServer
