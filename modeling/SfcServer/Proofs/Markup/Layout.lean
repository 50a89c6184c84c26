import SfcServer.Markup.Document
import SfcServer.Proofs.Markup.Reach

/-!
# How elements lie in their text

Siblings follow each other, and the content of an element holds the content of the
elements inside of it.  The spans of elements need not be nested: an end tag that is
broken off may leave an inner element that stops behind its parent.  What is
nested is the span up to the end of the content, and that is what the template needs.
-/

namespace SfcServer

/-- The end tag of an element is broken off by a character that no end tag can hold. -/
def Element.EndsBroken (t : Text) (e : Element) : Prop :=
  exists token, token ∈ tokensOf t ∧ token.kind = .unknown ∧ token.offset = e.stop

theorem ScanStep.Fresh.not_inEndTag {kind : TokenKind} {mode : ScanMode}
    (h : ScanStep.Fresh kind mode) : kind.inEndTag = false := by
  cases h <;> rfl

def HeadNamed (t : Text) (start : Nat) (tag : Text) : Prop :=
  (⟨.startTag, tag, start + 1⟩ : Token) ∈ tokensOf t

/-- The `</` of an end tag stands at an offset. -/
def EndTagOpens (t : Text) (start : Nat) : Prop :=
  (⟨.endTagOpen, ['<', '/'], start⟩ : Token) ∈ tokensOf t

/-- An end tag begins at an offset and goes on up to another one. -/
structure EndTagSpans (t : Text) (start stop : Nat) : Prop where
  reaches : Reaches t .content start
  opens : EndTagOpens t start
  goesOn : forall token, token ∈ tokensOf t -> start < token.offset -> token.offset < stop ->
    token.kind.inEndTag = true

theorem EndTagSpans.ne_content {t : Text} {start stop : Nat} (h : EndTagSpans t start stop)
    {token : Token} (hmem : token ∈ tokensOf t) (hle : start ≤ token.offset)
    (hlt : token.offset < stop) : token.kind ≠ .content := by
  intro hkind
  rcases Nat.lt_or_eq_of_le hle with hbehind | heq
  · have hin := h.goesOn token hmem hbehind hlt
    rw [hkind] at hin
    cases hin
  · rw [token_unique hmem h.opens heq.symm] at hkind
    cases hkind

/--
An element stops behind the place where its end tag begins, because that end tag is broken
off; and it is there that the element around it stops.
-/
def Element.Overhangs (t : Text) (stop : Nat) (e : Element) : Prop :=
  e.endTagStart = some stop ∧ e.EndsBroken t

/-- What an element records of its text. -/
structure Element.Recorded (t : Text) (e : Element) : Prop where
  opens : Opens t e.start
  name : HeadNamed t e.start e.tag
  head_le : headStop t e.start ≤ e.contentStop
  content_le : e.contentStop ≤ e.stop
  stop_le : e.stop ≤ t.length
  named : forall token, token ∈ headTokens t e.start -> token.kind = .attributeName ->
    exists a, a ∈ e.attributes ∧ a.name = token.text
  closes : forall stop, e.startTagEnd = some stop ->
    exists token rest, afterHead t e.start = token :: rest ∧
      (token.kind = .startTagClose ∨ token.kind = .startTagSelfClose) ∧ token.stop = stop
  endTag : forall start, e.endTagStart = some start -> EndTagSpans t start e.stop
  selfClosed : forall token rest, afterHead t e.start = token :: rest ->
    token.kind = .startTagSelfClose -> e.stop = token.stop ∧ e.endTagStart = none
  nested : forall c, c ∈ e.children -> c.stop ≤ e.stop ∨ c.Overhangs t e.stop
  ended : Reaches t .content e.stop ∨ e.EndsBroken t

/-- Siblings that follow each other from `low` on, with contents that end by `high`. -/
inductive Laid (t : Text) : Nat -> Nat -> List Element -> Prop where
  | nil (low high : Nat) : Laid t low high []
  | cons {low high : Nat} {e : Element} {rest : List Element} :
      low ≤ e.start ->
      e.contentStop ≤ high ->
      e.Recorded t ->
      Laid t (headStop t e.start) e.contentStop e.children ->
      Laid t e.stop high rest ->
      Laid t low high (e :: rest)

def frontier (low : Nat) : List Element -> Nat
  | [] => low
  | e :: rest => frontier e.stop rest

@[simp] theorem frontier_snoc (low : Nat) (es : List Element) (e : Element) :
    frontier low (es ++ [e]) = e.stop := by
  induction es generalizing low with
  | nil =>
      rfl
  | cons first rest ih =>
      exact ih first.stop

theorem Opens.lt_headStop {t : Text} {start : Nat} (h : Opens t start) :
    start < headStop t start := by
  rcases h.letter with ⟨d, rest, hdrop, _⟩
  have hlength := congrArg List.length hdrop
  simp only [List.length_drop, List.length_cons] at hlength
  unfold headStop
  cases hafter : afterHead t start with
  | nil =>
      simp only
      omega
  | cons token tokens =>
      simp only
      have hmem : token ∈ scanFrom .afterOpen (start + 1) (t.drop (start + 1)) := by
        have hsuffix := List.dropWhile_suffix (fun token : Token => token.kind.inHead)
          |>.subset (show token ∈ afterHead t start by rw [hafter]; exact List.mem_cons_self)
        rw [h.scanFrom_eq] at hsuffix
        exact hsuffix
      have hbounds := (scanFrom_tiled _ _ _).mem_bounds hmem
      omega

namespace Laid

theorem mono {t : Text} {low high higher : Nat} {es : List Element} (h : Laid t low high es)
    (hle : high ≤ higher) : Laid t low higher es := by
  induction h with
  | nil low high =>
      exact Laid.nil low higher
  | cons hlow hhigh hrecorded hchildren hrest _ ihrest =>
      exact Laid.cons hlow (Nat.le_trans hhigh hle) hrecorded hchildren (ihrest hle)

theorem mem {t : Text} {low high : Nat} {es : List Element} (h : Laid t low high es)
    {e : Element} (he : e ∈ es) :
    e.Recorded t ∧ Laid t (headStop t e.start) e.contentStop e.children := by
  induction h with
  | nil low high =>
      cases he
  | cons _ _ hrecorded hchildren _ _ ihrest =>
      rcases List.mem_cons.mp he with heq | hmem
      · rw [heq]
        exact ⟨hrecorded, hchildren⟩
      · exact ihrest hmem

theorem le_high {t : Text} {low high : Nat} {es : List Element} (h : Laid t low high es)
    {e : Element} (he : e ∈ es) : e.contentStop ≤ high := by
  induction h with
  | nil low high =>
      cases he
  | cons _ hhigh _ _ _ _ ihrest =>
      rcases List.mem_cons.mp he with heq | hmem
      · rw [heq]
        exact hhigh
      · exact ihrest hmem

theorem le_frontier {t : Text} {low high : Nat} {es : List Element} (h : Laid t low high es) :
    low ≤ frontier low es ∧ forall e, e ∈ es -> e.stop ≤ frontier low es := by
  induction h with
  | nil low high =>
      refine ⟨Nat.le_refl _, ?_⟩
      intro e he
      cases he
  | cons hlow _ hrecorded _ _ _ ihrest =>
      have hstart := hrecorded.opens.lt_headStop
      have hhead := hrecorded.head_le
      have hcontent := hrecorded.content_le
      rcases ihrest with ⟨hstop, hstops⟩
      simp only [frontier]
      refine ⟨by omega, ?_⟩
      intro e he
      rcases List.mem_cons.mp he with heq | hmem
      · rw [heq]
        exact hstop
      · exact hstops e hmem

theorem snoc {t : Text} {low high : Nat} {es : List Element} {e : Element}
    (h : Laid t low high es) (hstart : frontier low es ≤ e.start) (hhigh : e.contentStop ≤ high)
    (hrecorded : e.Recorded t)
    (hchildren : Laid t (headStop t e.start) e.contentStop e.children) :
    Laid t low high (es ++ [e]) := by
  induction h with
  | nil low high =>
      exact Laid.cons hstart hhigh hrecorded hchildren (Laid.nil _ _)
  | cons hlow hnext hnextRecorded hnextChildren hrest _ ihrest =>
      exact Laid.cons hlow hnext hnextRecorded hnextChildren (ihrest hstart hhigh)

end Laid

end SfcServer
