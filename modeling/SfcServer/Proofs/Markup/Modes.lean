import SfcServer.Proofs.Markup.Tiling
import SfcServer.Proofs.Text.Ascii

/-!
# The modes of a scan

What a step takes depends on the mode the scanner stands in.  A step either starts
afresh, as it would outside of tags, or it is one of a few moves inside a start tag,
an end tag or a raw body.  Everything that is proved about the order of tokens goes
through this list of moves.
-/

namespace SfcServer

namespace ScanMode

/-- A start tag is being read, past its name; `body` is what the tag announced. -/
def InTag (body : Option RawElement) (mode : ScanMode) : Prop :=
  mode = .inTag body ∨ mode = .afterName body ∨ mode = .beforeValue body

theorem InTag.ne_afterOpen {body : Option RawElement} {mode : ScanMode} (h : mode.InTag body) :
    mode ≠ .afterOpen := by
  rcases h with h | h | h <;> simp [h]

def afterClose : Option RawElement -> ScanMode
  | some element => .rawBody element
  | none => .content

end ScanMode

namespace ScanStep

/-- What a step outside of tags takes, and the mode it leaves. -/
inductive Fresh : TokenKind -> ScanMode -> Prop where
  | comment : Fresh .comment .content
  | content : Fresh .content .content
  | startTagOpen : Fresh .startTagOpen .afterOpen
  | endTagOpen : Fresh .endTagOpen .inEndTag

/-- What a step inside a start tag takes where no blank and no `<` stands. -/
inductive InTag (body : Option RawElement) : TokenKind -> ScanMode -> Prop where
  | selfClose : InTag body .startTagSelfClose .content
  | close : InTag body .startTagClose (ScanMode.afterClose body)
  | attributeName : InTag body .attributeName (.afterName body)
  | unknown : InTag body .unknown (.inTag body)

/-- The moves of the scanner that do not start afresh, past the name of a start tag. -/
inductive Moves : ScanMode -> TokenKind -> ScanMode -> Prop where
  | tagBlank {mode : ScanMode} {body : Option RawElement} :
      mode.InTag body -> Moves mode .whitespace mode
  | tag {mode : ScanMode} {body : Option RawElement} {kind : TokenKind} {after : ScanMode} :
      mode.InTag body -> InTag body kind after -> Moves mode kind after
  | assign (body : Option RawElement) :
      Moves (.afterName body) .delimiterAssign (.beforeValue body)
  | value (body : Option RawElement) :
      Moves (.beforeValue body) .attributeValue (.inTag body)
  | endBlank : Moves .inEndTag .whitespace .inEndTag
  | endTag : Moves .inEndTag .endTag .inEndTag
  | endClose : Moves .inEndTag .endTagClose .content
  | endUnknown : Moves .inEndTag .unknown .inEndTag
  | raw (element : RawElement) : Moves (.rawBody element) .rawContent .content

theorem content_fresh (c : Char) (rest : Text) :
    Fresh (content c rest).kind (content c rest).mode := by
  unfold content
  split
  · split
    · exact Fresh.comment
    · exact Fresh.comment
    · exact Fresh.endTagOpen
    · split
      · exact Fresh.startTagOpen
      · exact Fresh.content
    · exact Fresh.content
  · exact Fresh.content

theorem inTag_cases (body : Option RawElement) {c : Char} (rest : Text)
    (hblank : Text.isBlank c = false) :
    inTag body c rest = content c rest ∨
      InTag body (inTag body c rest).kind (inTag body c rest).mode := by
  unfold inTag
  rw [if_neg (by simp [hblank])]
  split
  · exact Or.inr InTag.selfClose
  · split
    · cases body with
      | none =>
          exact Or.inr InTag.close
      | some element =>
          exact Or.inr InTag.close
    · split
      · exact Or.inl rfl
      · split
        · exact Or.inr InTag.attributeName
        · exact Or.inr InTag.unknown

theorem next_afterOpen {c : Char} (rest : Text) (hname : isTagNameChar c = true) :
    next .afterOpen c rest =
      ⟨.startTag, runLength isTagNameChar rest,
        .inTag (RawElement.ofTag? (c :: rest.take (runLength isTagNameChar rest)))⟩ := by
  simp only [next, afterOpen]
  rw [if_pos hname]

theorem next_cases {mode : ScanMode} (hmode : mode ≠ .afterOpen) (c : Char) (rest : Text) :
    next mode c rest = content c rest ∨
      Moves mode (next mode c rest).kind (next mode c rest).mode := by
  cases mode with
  | content =>
      exact Or.inl rfl
  | afterOpen =>
      exact absurd rfl hmode
  | inTag body =>
      have hmode : (ScanMode.inTag body).InTag body := Or.inl rfl
      cases hblank : Text.isBlank c with
      | true =>
          simp only [next, inTag, hblank, if_true]
          exact Or.inr (Moves.tagBlank hmode)
      | false =>
          rcases inTag_cases body rest hblank with hfresh | hmove
          · exact Or.inl hfresh
          · exact Or.inr (Moves.tag hmode hmove)
  | afterName body =>
      have hmode : (ScanMode.afterName body).InTag body := Or.inr (Or.inl rfl)
      simp only [next, afterName]
      cases hblank : Text.isBlank c with
      | true =>
          exact Or.inr (Moves.tagBlank hmode)
      | false =>
          rw [if_neg (by simp)]
          split
          · exact Or.inr (Moves.assign body)
          · rcases inTag_cases body rest hblank with hfresh | hmove
            · exact Or.inl hfresh
            · exact Or.inr (Moves.tag hmode hmove)
  | beforeValue body =>
      have hmode : (ScanMode.beforeValue body).InTag body := Or.inr (Or.inr rfl)
      simp only [next, beforeValue]
      cases hblank : Text.isBlank c with
      | true =>
          exact Or.inr (Moves.tagBlank hmode)
      | false =>
          rw [if_neg (by simp)]
          split
          · exact Or.inr (Moves.value body)
          · split
            · exact Or.inr (Moves.value body)
            · rcases inTag_cases body rest hblank with hfresh | hmove
              · exact Or.inl hfresh
              · exact Or.inr (Moves.tag hmode hmove)
  | inEndTag =>
      simp only [next, inEndTag]
      split
      · exact Or.inr Moves.endBlank
      · split
        · exact Or.inr Moves.endTag
        · split
          · exact Or.inr Moves.endClose
          · split
            · exact Or.inl rfl
            · exact Or.inr Moves.endUnknown
  | rawBody element =>
      simp only [next, rawBody]
      split
      · exact Or.inl rfl
      · exact Or.inr (Moves.raw element)

theorem content_startTagOpen {c : Char} {rest : Text}
    (h : (content c rest).kind = .startTagOpen) :
    c = '<' ∧ (content c rest).extra = 0 ∧
      exists d more, rest = d :: more ∧ Text.isLetter d = true := by
  unfold content at h ⊢
  split at h
  · rename_i hc
    subst hc
    refine ⟨rfl, ?_⟩
    split at h
    · cases h
    · cases h
    · cases h
    · rename_i d more _ _ _
      split at h
      · rename_i hletter
        exact ⟨by simp [hletter], d, more, rfl, hletter⟩
      · cases h
    · cases h
  · cases h

theorem content_endTagOpen {c : Char} {rest : Text}
    (h : (content c rest).kind = .endTagOpen) :
    c = '<' ∧ (content c rest).extra = 1 ∧ exists more, rest = '/' :: more := by
  unfold content at h ⊢
  split at h
  · rename_i hc
    subst hc
    refine ⟨rfl, ?_⟩
    split at h
    · cases h
    · cases h
    · rename_i more
      exact ⟨rfl, more, rfl⟩
    · split at h
      · cases h
      · cases h
    · cases h
  · cases h

end ScanStep

/-!
# Letters in tags
-/

def wideBlanks : List Nat :=
  [0x85, 0xA0, 0x1680, 0x2000, 0x2001, 0x2002, 0x2003, 0x2004, 0x2005, 0x2006, 0x2007, 0x2008,
   0x2009, 0x200A, 0x2028, 0x2029, 0x202F, 0x205F, 0x3000]

theorem wideBlanks_not_letters :
    forall n, n ∈ wideBlanks ->
      Text.letterRanges.any (fun (first, last) => first ≤ n && n ≤ last) = false := by
  decide +kernel

theorem isLetter_ascii {c : Char} (hascii : c.toNat < 128) (h : Text.isLetter c = true) :
    (65 ≤ c.toNat ∧ c.toNat ≤ 90) ∨ (97 ≤ c.toNat ∧ c.toNat ≤ 122) := by
  rw [Text.isLetter, if_pos hascii] at h
  exact (isAlpha_iff c).mp h

theorem isLetter_not_blank {c : Char} (h : Text.isLetter c = true) :
    Text.isBlank c = false := by
  cases hblank : Text.isBlank c with
  | false =>
      rfl
  | true =>
      exfalso
      simp only [Text.isBlank, Bool.or_eq_true, Bool.and_eq_true, decide_eq_true_eq,
        beq_iff_eq] at hblank
      by_cases hascii : c.toNat < 128
      · have hletter := isLetter_ascii hascii h
        omega
      · have hwide : c.toNat ∈ wideBlanks := by
          simp only [wideBlanks, List.mem_cons, List.not_mem_nil, or_false]
          omega
        rw [Text.isLetter, if_neg hascii, Text.inRanges] at h
        have hnone := wideBlanks_not_letters c.toNat hwide
        rw [hnone] at h
        cases h

theorem isLetter_ne {c d : Char} (h : Text.isLetter c = true) (hd : Text.isLetter d = false) :
    c ≠ d := by
  intro heq
  rw [heq, hd] at h
  cases h

theorem isTagNameChar_of_isLetter {c : Char} (h : Text.isLetter c = true) :
    isTagNameChar c = true := by
  have hne : forall d, Text.isLetter d = false -> (c == d) = false := by
    intro d hd
    exact beq_eq_false_iff_ne.mpr (isLetter_ne h hd)
  simp [isTagNameChar, isLetter_not_blank h, hne Text.doubleQuote (by decide),
    hne Text.singleQuote (by decide), hne Text.backtick (by decide), hne '=' (by decide),
    hne '<' (by decide), hne '>' (by decide), hne '/' (by decide)]

end SfcServer
