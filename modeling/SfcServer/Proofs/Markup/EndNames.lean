import SfcServer.Proofs.Markup.DocumentLayout
import SfcServer.Proofs.Markup.Finding

/-!
# Names in end tags

An element that its end tag has closed has been named there: the end tag holds its name, up to
case, though other names, blanks and stray characters may stand before it.  The reader gives an
end tag to an element only when it meets such a name, and ends the element before it meets another
end tag; elements that are ended for another reason are not closed.
-/

namespace SfcServer

/-- A name in the end tag that begins at an offset, which is the name of an element up to case. -/
structure EndNamed (t : Text) (first stop : Nat) (tag : Text) (start : Nat) (name : Text) :
    Prop where
  written : (⟨.endTag, name, start⟩ : Token) ∈ tokensOf t
  behind : first < start
  le : start + name.length ≤ stop
  same : Text.lower name = Text.lower tag

def Element.CloseNamed (t : Text) (e : Element) : Prop :=
  e.closed = true -> forall first, e.endTagStart = some first ->
    exists start name, EndNamed t first e.stop e.tag start name

def AllNamed (t : Text) (es : List Element) : Prop :=
  forall e, e ∈ Element.preorderAll es -> e.CloseNamed t

namespace AllNamed

variable {t : Text} {es : List Element} {e : Element}

theorem nil (t : Text) : AllNamed t [] := by
  intro e he
  cases he

theorem snoc (hes : AllNamed t es) (he : e.CloseNamed t) (hinside : AllNamed t e.children) :
    AllNamed t (es ++ [e]) := by
  intro found hfound
  rcases Element.mem_preorderAll.mp hfound with ⟨root, hroot, hin⟩
  rcases List.mem_append.mp hroot with hold | hnew
  · exact hes found (Element.mem_preorderAll.mpr ⟨root, hold, hin⟩)
  · rw [List.mem_singleton.mp hnew] at hin
    rcases Element.mem_preorder hin with heq | ⟨c, hc, hinner⟩
    · rw [heq]
      exact he
    · exact hinside found (Element.mem_preorderAll.mpr ⟨c, hc, hinner⟩)

end AllNamed

/-!
# Open elements
-/

/-- What has been finished is named in its end tags, and none of what is open has met its own. -/
structure Unclosed (t : Text) (roots : List Element) (stack : List OpenElement) : Prop where
  finished : AllNamed t roots
  inside : forall e, e ∈ stack -> AllNamed t e.children
  unmet : forall e, e ∈ stack -> e.endTagStart = none

/-- An open element has met no end tag up to an offset, or one that names it. -/
def OpenElement.Met (t : Text) (offset : Nat) (e : OpenElement) : Prop :=
  forall first, e.endTagStart = some first ->
    exists start name, EndNamed t first offset e.tag start name

namespace OpenElement

variable {t : Text} {e : OpenElement} {offset later : Nat}

theorem Met.mono (h : e.Met t offset) (hle : offset ≤ later) : e.Met t later := by
  intro first hfirst
  rcases h first hfirst with ⟨start, name, hnamed⟩
  exact ⟨start, name, hnamed.written, hnamed.behind, Nat.le_trans hnamed.le hle, hnamed.same⟩

theorem Met.finish (h : e.Met t offset) : (e.finish offset).CloseNamed t :=
  fun _ => h

theorem met_of_unmet (h : e.endTagStart = none) : e.Met t offset := by
  intro first hfirst
  rw [h] at hfirst
  cases hfirst

theorem finish_abandoned (e : OpenElement) (t : Text) (stop : Nat) :
    ({ e with closed := false }.finish stop).CloseNamed t := by
  intro hclosed
  cases hclosed

end OpenElement

namespace Unclosed

variable {t : Text} {roots : List Element} {stack : List OpenElement} {r : TreeReader}

theorem attach {e : Element} (h : Unclosed t r.roots r.stack) (he : e.CloseNamed t)
    (hinside : AllNamed t e.children) :
    Unclosed t (r.attach e).roots (r.attach e).stack := by
  unfold TreeReader.attach
  cases hstack : r.stack with
  | nil =>
      rw [hstack] at h
      exact ⟨h.finished.snoc he hinside, h.inside, h.unmet⟩
  | cons top rest =>
      rw [hstack] at h
      have htop := h.inside top List.mem_cons_self
      have hunmet := h.unmet top List.mem_cons_self
      refine ⟨h.finished, ?_, ?_⟩
      · intro other hother
        rcases List.mem_cons.mp hother with rfl | hrest
        · exact htop.snoc he hinside
        · exact h.inside other (List.mem_cons_of_mem top hrest)
      · intro other hother
        rcases List.mem_cons.mp hother with rfl | hrest
        · exact hunmet
        · exact h.unmet other (List.mem_cons_of_mem top hrest)

theorem mapTop (h : Unclosed t r.roots r.stack) {f : OpenElement -> OpenElement}
    (hend : forall e, (f e).endTagStart = e.endTagStart)
    (hchildren : forall e, (f e).children = e.children) :
    Unclosed t (r.mapTop f).roots (r.mapTop f).stack := by
  cases hstack : r.stack with
  | nil =>
      rw [TreeReader.mapTop, hstack]
      exact h
  | cons top rest =>
      rw [TreeReader.mapTop_of_stack hstack]
      rw [hstack] at h
      refine ⟨h.finished, ?_, ?_⟩
      · intro other hother
        rcases List.mem_cons.mp hother with rfl | hrest
        · rw [hchildren]
          exact h.inside top List.mem_cons_self
        · exact h.inside other (List.mem_cons_of_mem top hrest)
      · intro other hother
        rcases List.mem_cons.mp hother with rfl | hrest
        · rw [hend]
          exact h.unmet top List.mem_cons_self
        · exact h.unmet other (List.mem_cons_of_mem top hrest)

/-- The innermost element is finished, when it is named in the end tag it has met. -/
theorem pop {top : OpenElement} {rest : List OpenElement} {stop : Nat}
    (hstack : r.stack = top :: rest) (hrest : Unclosed t r.roots rest)
    (hinside : AllNamed t top.children) (htop : (top.finish stop).CloseNamed t) :
    Unclosed t (r.pop stop).roots (r.pop stop).stack := by
  rw [TreeReader.pop_of_stack hstack]
  exact attach (r := { r with stack := rest }) hrest htop hinside

theorem tail {top : OpenElement} {rest : List OpenElement} (h : Unclosed t roots (top :: rest)) :
    Unclosed t roots rest where
  finished := h.finished
  inside := fun e he => h.inside e (List.mem_cons_of_mem top he)
  unmet := fun e he => h.unmet e (List.mem_cons_of_mem top he)

theorem pop_unmet (h : Unclosed t r.roots r.stack) (stop : Nat) :
    Unclosed t (r.pop stop).roots (r.pop stop).stack := by
  cases hstack : r.stack with
  | nil =>
      rw [TreeReader.pop, hstack]
      exact h
  | cons top rest =>
      rw [hstack] at h
      have hmet : top.Met t stop := OpenElement.met_of_unmet (h.unmet top List.mem_cons_self)
      exact pop hstack h.tail (h.inside top List.mem_cons_self) hmet.finish

end Unclosed

/-!
# Runs
-/

namespace TreeReader

variable {t : Text} {offset later : Nat} {r : TreeReader}

/-- The elements of a reader are named in the end tags they have met, before an offset. -/
inductive Named (t : Text) (offset : Nat) (r : TreeReader) : Prop where
  | unclosed : Unclosed t r.roots r.stack -> Named t offset r
  | closing {top : OpenElement} {rest : List OpenElement} :
      r.closing = true ->
      r.stack = top :: rest ->
      top.Met t offset ->
      AllNamed t top.children ->
      Unclosed t r.roots rest ->
      Named t offset r

theorem Named.mono (h : r.Named t offset) (hle : offset ≤ later) : r.Named t later := by
  cases h with
  | unclosed hunclosed =>
      exact Named.unclosed hunclosed
  | closing hclosing hstack hmet hinside hrest =>
      exact Named.closing hclosing hstack (hmet.mono hle) hinside hrest

theorem Named.finished (h : r.Named t offset) : AllNamed t r.roots := by
  cases h with
  | unclosed hunclosed =>
      exact hunclosed.finished
  | closing _ _ _ _ hrest =>
      exact hrest.finished

theorem Named.below (h : r.Named t offset) {top : OpenElement} {rest : List OpenElement}
    (hstack : r.stack = top :: rest) : AllNamed t top.children ∧ Unclosed t r.roots rest := by
  cases h with
  | unclosed hunclosed =>
      rw [hstack] at hunclosed
      exact ⟨hunclosed.inside top List.mem_cons_self, hunclosed.tail⟩
  | closing _ hcons _ hinside hrest =>
      rw [hstack] at hcons
      cases hcons
      exact ⟨hinside, hrest⟩

/-- Once the end tag at hand is over, no open element has met its own. -/
theorem Named.settle (h : r.Named t offset) :
    Unclosed t (r.settle offset).roots (r.settle offset).stack := by
  unfold TreeReader.settle
  cases h with
  | unclosed hunclosed =>
      split
      · exact hunclosed.pop_unmet offset
      · exact hunclosed
  | closing hclosing hstack hmet hinside hrest =>
      rw [if_pos hclosing]
      exact Unclosed.pop hstack hrest hinside hmet.finish

/-!
## The name of an end tag
-/

theorem attach_tags (r : TreeReader) (e : Element) :
    (r.attach e).stack.map (·.tag) = r.stack.map (·.tag) := by
  unfold attach
  cases hstack : r.stack <;> simp

theorem abandon_succ {top : OpenElement} {rest : List OpenElement}
    (hstack : r.stack = top :: rest) (stop n : Nat) :
    r.abandon stop (n + 1) =
      ({ r with stack := rest }.attach ({ top with closed := false }.finish stop)).abandon
        stop n := by
  rw [abandon, mapTop_of_stack hstack, pop_of_stack rfl]

theorem abandon_of_empty (hstack : r.stack = []) (stop n : Nat) : r.abandon stop n = r := by
  induction n with
  | zero =>
      rfl
  | succ n ih =>
      rw [abandon, mapTop, hstack]
      simp only [pop, hstack]
      exact ih

theorem abandon_tags (r : TreeReader) (stop n : Nat) :
    (r.abandon stop n).stack.map (·.tag) = (r.stack.map (·.tag)).drop n := by
  induction n generalizing r with
  | zero =>
      rfl
  | succ n ih =>
      cases hstack : r.stack with
      | nil =>
          rw [abandon_of_empty hstack, hstack]
          rfl
      | cons top rest =>
          rw [abandon_succ hstack, ih, attach_tags]
          rfl

theorem abandon_endTagStart (r : TreeReader) (stop n : Nat) :
    (r.abandon stop n).endTagStart = r.endTagStart := by
  induction n generalizing r with
  | zero =>
      rfl
  | succ n ih =>
      cases hstack : r.stack with
      | nil =>
          rw [abandon_of_empty hstack]
      | cons top rest =>
          rw [abandon_succ hstack, ih, attach_endTagStart]

theorem Named.abandon (h : r.Named t offset) (stop n : Nat) :
    (r.abandon stop n).Named t offset := by
  induction n generalizing r with
  | zero =>
      exact h
  | succ n ih =>
      cases hstack : r.stack with
      | nil =>
          rw [abandon_of_empty hstack]
          exact h
      | cons top rest =>
          rcases h.below hstack with ⟨hinside, hrest⟩
          rw [abandon_succ hstack]
          refine ih (Named.unclosed ?_)
          exact Unclosed.attach (r := { r with stack := rest }) hrest
            (top.finish_abandoned t stop) hinside

/-- An element that the name of an end tag closes is the one of that name. -/
theorem Named.closeNamed (h : r.Named t offset) {start : Nat} {name : Text}
    (hwritten : (⟨.endTag, name, start⟩ : Token) ∈ tokensOf t) (hbehind : r.endTagStart < start)
    (hle : start + name.length ≤ later) (hoffset : offset ≤ later) :
    (r.closeNamed name).Named t later := by
  unfold TreeReader.closeNamed
  split
  · exact h.mono hoffset
  · next depth hfound =>
      rcases List.findIdx?_eq_some_iff_getElem.mp hfound with ⟨hdepth, hsame, -⟩
      have htags := abandon_tags r r.endTagStart depth
      have hstart := abandon_endTagStart r r.endTagStart depth
      have hnamed := h.abandon r.endTagStart depth
      rw [List.drop_eq_getElem_cons (by rw [List.length_map]; exact hdepth), List.getElem_map]
        at htags
      cases hstack : (r.abandon r.endTagStart depth).stack with
      | nil =>
          rw [hstack] at htags
          cases htags
      | cons top rest =>
          rw [hstack, List.map_cons, List.cons.injEq] at htags
          rcases hnamed.below hstack with ⟨hinside, hrest⟩
          simp only [mapTop_of_stack hstack, hstart]
          refine Named.closing rfl rfl ?_ hinside hrest
          intro first hfirst
          cases hfirst
          refine ⟨start, name, hwritten, hbehind, hle, ?_⟩
          rw [htags.1]
          exact (of_decide_eq_true hsame).symm

/-!
## Steps
-/

/-- Every token leaves the elements named, if the name in an end tag stands behind its `</`. -/
theorem Named.step {token : Token} (h : r.Named t token.offset)
    (htoken : token.kind = .endTag -> token ∈ tokensOf t ∧ r.endTagStart < token.offset) :
    (r.step token).Named t token.stop := by
  have hle : token.offset ≤ token.stop := Nat.le_add_right _ _
  have hsettled := h.settle
  cases hkind : token.kind with
  | endTag =>
      rcases htoken hkind with ⟨hwritten, hbehind⟩
      have hname : (⟨.endTag, token.text, token.offset⟩ : Token) ∈ tokensOf t := by
        rw [← hkind]
        exact hwritten
      have hclosed : (r.closeNamed token.text).Named t token.stop :=
        h.closeNamed hname hbehind (Nat.le_refl _) hle
      simpa only [TreeReader.step, hkind] using hclosed
  | endTagClose =>
      simpa only [TreeReader.step, hkind] using Named.unclosed (h.mono hle).settle
  | whitespace =>
      simpa only [TreeReader.step, hkind] using h.mono hle
  | startTagOpen =>
      rw [step_startTagOpen r hkind]
      refine Named.unclosed ⟨hsettled.finished, ?_, ?_⟩
      · intro e he
        rcases List.mem_cons.mp he with rfl | hrest
        · exact AllNamed.nil t
        · exact hsettled.inside e hrest
      · intro e he
        rcases List.mem_cons.mp he with rfl | hrest
        · rfl
        · exact hsettled.unmet e hrest
  | endTagOpen =>
      rw [step_endTagOpen r hkind]
      exact Named.unclosed hsettled
  | startTag | attributeName =>
      simp only [TreeReader.step, hkind]
      exact Named.unclosed (hsettled.mapTop (fun _ => rfl) fun _ => rfl)
  | attributeValue =>
      simp only [TreeReader.step, hkind]
      split
      · exact Named.unclosed hsettled
      · exact Named.unclosed (hsettled.mapTop (fun _ => rfl) fun _ => rfl)
  | startTagSelfClose =>
      simp only [TreeReader.step, hkind]
      have hopen := hsettled.mapTop (r := { r.settle token.offset with valueOf := none })
        (f := fun e => { e with startTagEnd := some token.stop, closed := true })
        (fun _ => rfl) fun _ => rfl
      exact Named.unclosed (hopen.pop_unmet token.stop)
  | startTagClose =>
      simp only [TreeReader.step, hkind]
      have hopen := hsettled.mapTop (f := fun e => { e with startTagEnd := some token.stop })
        (fun _ => rfl) fun _ => rfl
      split
      · exact Named.unclosed hopen
      · split
        · have hvoid := Unclosed.mapTop
            (r := { (r.settle token.offset).mapTop
              (fun e => { e with startTagEnd := some token.stop }) with valueOf := none })
            hopen (f := fun e => { e with closed := true }) (fun _ => rfl) fun _ => rfl
          exact Named.unclosed (hvoid.pop_unmet token.stop)
        · exact Named.unclosed hopen
  | delimiterAssign | content | comment | rawContent | unknown =>
      simp only [TreeReader.step, hkind]
      exact Named.unclosed hsettled

theorem mode_of_endTag {mode : ScanMode} {c : Char} {rest : Text}
    (h : (ScanStep.next mode c rest).kind = .endTag) : mode = .inEndTag := by
  have hmoved {mode : ScanMode} (hmode : mode ≠ .afterOpen)
      (h : (ScanStep.next mode c rest).kind = .endTag) : mode = .inEndTag := by
    rcases ScanStep.next_cases hmode c rest with hfresh | hmove
    · have hkinds := ScanStep.content_fresh c rest
      rw [← hfresh, h] at hkinds
      cases hkinds
    · rw [h] at hmove
      generalize (ScanStep.next mode c rest).mode = after at hmove
      cases hmove with
      | tag _ hinside =>
          cases hinside
      | endTag =>
          rfl
  by_cases hopen : mode = .afterOpen
  · subst hopen
    by_cases hname : isTagNameChar c = true
    · rw [ScanStep.next_afterOpen rest hname] at h
      cases h
    · have hinTag : ScanStep.next .afterOpen c rest = ScanStep.next (.inTag none) c rest := by
        simp only [ScanStep.next, ScanStep.afterOpen, if_neg hname]
      rw [hinTag] at h
      cases hmoved (by intro hmode; cases hmode) h
  · exact hmoved hopen h

theorem named_run (t : Text) (mode : ScanMode) (offset : Nat) (text : Text) :
    forall r : TreeReader, r.Sound t mode offset -> r.Named t offset -> t.drop offset = text ->
      ((scanFrom mode offset text).foldl TreeReader.step r).Named t t.length := by
  fun_induction scanFrom mode offset text with
  | case1 mode offset =>
      intro r hsound h _
      exact h.mono hsound.reaches.le
  | case2 mode offset c rest step ih =>
      intro r hsound h hdrop
      refine ih _ (hsound.step hdrop) ?_ (Text.drop_step hdrop step.extra)
      have htoken : (step.token c rest offset).kind = .endTag ->
          step.token c rest offset ∈ tokensOf t ∧ r.endTagStart < offset := by
        intro hkind
        have hmode := mode_of_endTag hkind
        subst hmode
        exact ⟨hsound.reaches.token_mem hdrop, (hsound.endTag rfl).lt⟩
      have hnext := h.step htoken
      rw [ScanStep.token_stop] at hnext
      exact hnext

end TreeReader

namespace Document

theorem ofText_allNamed (t : Text) : AllNamed t (ofText t).roots := by
  have hstart : ({} : TreeReader).Named t 0 := by
    refine .unclosed ⟨AllNamed.nil t, ?_, ?_⟩
    · intro e he
      cases he
    · intro e he
      cases he
  have hrun := TreeReader.named_run t .content 0 t {} (TreeReader.sound_start t) hstart rfl
  have hscan : scan t 0 t.length = scanFrom .content 0 t := tokensOf_eq t
  have hsettled : TreeReader.Named t t.length _ := TreeReader.Named.unclosed hrun.settle
  simp only [ofText, hscan, TreeReader.finish]
  exact (hsettled.abandon t.length _).finished

end Document
end SfcServer
