import SfcServer.Proofs.Markup.Placement

/-!
# Raw bodies of elements

After the start tag of a script or a style the scanner takes everything up to the next end tag
of that name as one token.  It looks for the name up to a word boundary, while the reader of the
tokens closes an element by the whole name of the end tag.  An end tag such as `</script-x>` ends
the raw body but not the element, and what follows it is read as markup.  The content of an
element is raw exactly when it holds no such end tag.
-/

namespace SfcServer

variable {t : Text} {mode : ScanMode} {offset : Nat} {element : RawElement}

theorem RawElement.ofTag?_of_lower {tag : Text} (h : Text.lower tag = element.name) :
    RawElement.ofTag? tag = some element := by
  unfold RawElement.ofTag?
  cases element with
  | script =>
      simp [h]
  | style =>
      simp only [h]
      rfl

theorem RawElement.closesAt_before (element : RawElement) {t : Text} {i : Nat}
    (h : i < element.bodyLength t) : element.closesAt (t.drop i) = false := by
  induction t generalizing i with
  | nil =>
      cases h
  | cons c rest ih =>
      rw [bodyLength] at h
      split at h
      · cases h
      · rename_i hnot
        cases i with
        | zero =>
            exact Bool.eq_false_iff.mpr hnot
        | succ i =>
            exact ih (by omega)

/-!
# From the start tag into the body
-/

theorem ScanStep.next_inTag {body : Option RawElement} (h : mode.InTag body) (c : Char)
    (rest : Text) :
    ((next mode c rest).kind.inHead = true ∧ (next mode c rest).mode.InTag body) ∨
      ((next mode c rest).kind.inHead = false ∧ ((next mode c rest).kind = .startTagClose ->
        (next mode c rest).mode = ScanMode.afterClose body)) := by
  rcases next_cases h.ne_afterOpen c rest with hfresh | hmove
  · have hkinds := content_fresh c rest
    rw [hfresh]
    refine Or.inr ⟨TreeReader.fresh_not_inHead hkinds, ?_⟩
    intro hkind
    rw [hkind] at hkinds
    cases hkinds
  · generalize (next mode c rest).kind = kind at hmove ⊢
    generalize (next mode c rest).mode = after at hmove ⊢
    cases hmove with
    | tagBlank _ =>
        exact Or.inl ⟨rfl, h⟩
    | tag hmode hinside =>
        cases TreeReader.inTag_unique h hmode
        cases hinside with
        | selfClose =>
            exact Or.inr ⟨rfl, by simp⟩
        | close =>
            exact Or.inr ⟨rfl, fun _ => rfl⟩
        | attributeName =>
            exact Or.inl ⟨rfl, Or.inr (Or.inl rfl)⟩
        | unknown =>
            exact Or.inl ⟨rfl, Or.inl rfl⟩
    | assign other =>
        cases TreeReader.inTag_unique h (Or.inr (Or.inl rfl))
        exact Or.inl ⟨rfl, Or.inr (Or.inr rfl)⟩
    | value other =>
        cases TreeReader.inTag_unique h (Or.inr (Or.inr rfl))
        exact Or.inl ⟨rfl, Or.inl rfl⟩
    | endBlank | endTag | endClose | endUnknown | raw =>
        rcases h with h | h | h <;> cases h

/-- The `>` of a start tag leads into the body that its name announces. -/
theorem Reaches.afterClose {body : Option RawElement} (t : Text) (mode : ScanMode) (offset : Nat)
    (text : Text) :
    Reaches t mode offset -> mode.InTag body -> t.drop offset = text ->
      forall token tokens, (scanFrom mode offset text).dropWhile (·.kind.inHead) =
        token :: tokens -> token.kind = .startTagClose ->
        Reaches t (ScanMode.afterClose body) token.stop := by
  fun_induction scanFrom mode offset text with
  | case1 mode offset =>
      intro _ _ _ token tokens hrest
      cases hrest
  | case2 mode offset c rest step ih =>
      intro h hmode hdrop token tokens hrest hkind
      have hnext := h.next hdrop
      rw [List.dropWhile_cons] at hrest
      rcases ScanStep.next_inTag hmode c rest with ⟨hinside, hstays⟩ | ⟨hover, hclose⟩
      · rw [if_pos hinside] at hrest
        exact ih hnext hstays (Text.drop_step hdrop step.extra) token tokens hrest hkind
      · rw [if_neg (by simp [step, hover])] at hrest
        injection hrest with htoken _
        subst htoken
        rw [hclose hkind, ← ScanStep.token_stop] at hnext
        exact hnext

theorem Opens.reaches_body {start : Nat} {tag : Text} (h : Opens t start)
    (hname : HeadNamed t start tag) {token : Token} {tokens : List Token}
    (hafter : afterHead t start = token :: tokens) (hkind : token.kind = .startTagClose) :
    Reaches t (ScanMode.afterClose (RawElement.ofTag? tag)) token.stop := by
  rcases h.letter with ⟨d, rest, hdrop, hletter⟩
  have hopened := h.reaches.next hdrop
  rw [ScanStep.next_letter rest hletter] at hopened
  have hdrop' : t.drop (start + 1) = d :: rest := Text.drop_step hdrop 0
  have hread := ScanStep.next_afterOpen rest (isTagNameChar_of_isLetter hletter)
  have hinside := hopened.next hdrop'
  have htag := token_unique hname (hopened.token_mem hdrop') rfl
  rw [hread] at hinside htag
  injection htag with _ htag _
  rw [afterHead, h.scanFrom_eq, List.tail_cons, hdrop', scanFrom_cons, hread,
    List.dropWhile_cons_of_pos rfl] at hafter
  rw [htag]
  exact Reaches.afterClose t _ _ _ hinside (Or.inl rfl) (Text.drop_step hdrop' _) token tokens
    hafter hkind

/-!
# Raw content
-/

theorem Reaches.raw_token (h : Reaches t (.rawBody element) offset) (hlt : offset < t.length)
    (hopen : element.closesAt (t.drop offset) = false) :
    exists token, token ∈ tokensOf t ∧ token.kind = .rawContent ∧ token.offset = offset ∧
      token.stop = offset + element.bodyLength (t.drop offset) := by
  rcases drop_eq_cons hlt with ⟨c, rest, hdrop⟩
  rw [hdrop] at hopen ⊢
  have hstep : ScanStep.next (.rawBody element) c rest =
      ⟨.rawContent, element.bodyLength rest, .content⟩ := by
    simp [ScanStep.next, ScanStep.rawBody, hopen]
  refine ⟨_, h.token_mem hdrop, ?_, rfl, ?_⟩
  · rw [hstep]
    rfl
  · rw [ScanStep.token_stop, hstep, RawElement.bodyLength, if_neg (by simp [hopen]), Nat.add_assoc]

/-- No end tag of a raw element begins in raw content that stands at the start of its body. -/
theorem Reaches.closesAt_inside (h : Reaches t (.rawBody element) offset) {token : Token}
    (hmem : token ∈ tokensOf t) (hkind : token.kind = .rawContent)
    (hoffset : token.offset = offset) {i : Nat} (hle : offset ≤ i) (hlt : i < token.stop) :
    element.closesAt (t.drop i) = false := by
  have hbounds := (tokensOf_tiled t).mem_bounds hmem
  have hlength : offset < t.length := by omega
  cases hopen : element.closesAt (t.drop offset) with
  | true =>
      rcases drop_eq_cons hlength with ⟨c, rest, hdrop⟩
      have hfresh : ScanStep.next (.rawBody element) c rest = ScanStep.content c rest := by
        rw [hdrop] at hopen
        simp [ScanStep.next, ScanStep.rawBody, hopen]
      have hkinds := ScanStep.content_fresh c rest
      rw [token_unique hmem (h.token_mem hdrop) hoffset, ScanStep.token_kind, hfresh] at hkind
      rw [hkind] at hkinds
      cases hkinds
  | false =>
      rcases h.raw_token hlength hopen with ⟨raw, hraw, _, hsame, hstop⟩
      rw [token_unique hmem hraw (hoffset.trans hsame.symm), hstop] at hlt
      have hbefore := element.closesAt_before (t := t.drop offset)
        (show i - offset < element.bodyLength (t.drop offset) by omega)
      rw [List.drop_drop, Nat.add_sub_cancel' hle] at hbefore
      exact hbefore

theorem InOrder.eq_nil {place : Nat} {es : List Element} (h : InOrder place place es) :
    es = [] := by
  apply List.eq_nil_iff_forall_not_mem.mpr
  intro c hc
  exact Nat.lt_irrefl _ (Nat.lt_of_le_of_lt (h.within c hc).1 (h.within c hc).2)

namespace Element

variable {e : Element}

/-- An element holds no others, and its content is one token that is raw, or nothing. -/
def HoldsRaw (t : Text) (e : Element) : Prop :=
  e.children = [] ∧ (t.slice e.contentStart e.contentStop ≠ [] ->
    (⟨.rawContent, t.slice e.contentStart e.contentStop, e.contentStart⟩ : Token) ∈
      scan t 0 t.length)

/-- No end tag of a raw element, read up to a word boundary, begins in the content. -/
def FreeOf (element : RawElement) (t : Text) (e : Element) : Prop :=
  forall i, e.contentStart ≤ i -> i < e.contentStop -> element.closesAt (t.drop i) = false

namespace Recorded

/-- Behind its start tag, the body of a raw element is reached, or nothing is left of it. -/
theorem reaches_body (h : e.Recorded t) (hraw : Text.lower e.tag = element.name)
    (hhead : e.startTagEnd.isSome = true) :
    e.contentStop = e.contentStart ∨ Reaches t (.rawBody element) e.contentStart := by
  rcases Option.isSome_iff_exists.mp hhead with ⟨stop, hstop⟩
  rcases h.closes stop hstop with ⟨token, tokens, hafter, hkind, htoken⟩
  rw [contentStart, hstop, Option.getD_some, ← htoken]
  rcases hkind with hkind | hkind
  · have hbody := h.opens.reaches_body h.name hafter hkind
    rw [RawElement.ofTag?_of_lower hraw] at hbody
    exact Or.inr hbody
  · rcases h.selfClosed token tokens hafter hkind with ⟨hend, hnone⟩
    rw [contentStop, hnone, Option.getD_none]
    exact Or.inl hend

theorem raw_content (h : e.Recorded t) (hbody : Reaches t (.rawBody element) e.contentStart)
    (hlt : e.contentStart < e.contentStop) (hfree : e.FreeOf element t) :
    exists token, token ∈ tokensOf t ∧ token.kind = .rawContent ∧
      token.offset = e.contentStart ∧ token.stop = e.contentStop := by
  have hcut := h.cut_contentStop
  have hopen := hfree e.contentStart (Nat.le_refl _) hlt
  rcases hbody.raw_token (Nat.lt_of_lt_of_le hlt hcut.le) hopen with
    ⟨token, hmem, hkind, hoffset, hstop⟩
  refine ⟨token, hmem, hkind, hoffset, ?_⟩
  have hle : token.stop ≤ e.contentStop := by
    apply hcut.stop_le token hmem
    rw [hoffset]
    exact hlt
  rcases Nat.lt_or_eq_of_le hle with hbefore | heq
  · exfalso
    have hlength := hcut.le
    have hclosed := element.bodyLength_stop (t.drop e.contentStart)
    rw [List.drop_drop, ← hstop, List.drop_eq_nil_iff] at hclosed
    rcases hclosed with hover | hcloses
    · omega
    · rw [hfree token.stop (by omega) hbefore] at hcloses
      cases hcloses
  · exact heq

theorem freeOf_of_holdsRaw (h : e.Recorded t) (hraw : Text.lower e.tag = element.name)
    (hhead : e.startTagEnd.isSome = true) (hholds : e.HoldsRaw t) : e.FreeOf element t := by
  intro i hle hlt
  have hlength := Text.length_slice t e.contentStart e.contentStop h.cut_contentStop.le
  rcases h.reaches_body hraw hhead with hempty | hbody
  · omega
  · have hnonempty : t.slice e.contentStart e.contentStop ≠ [] := by
      apply List.ne_nil_of_length_pos
      omega
    apply hbody.closesAt_inside (hholds.2 hnonempty) rfl rfl hle
    simp only [Token.stop, hlength]
    omega

/-- Without such an end tag, the content is the whole of what the scanner takes. -/
theorem holdsRaw_of_freeOf (h : e.Recorded t)
    (hchildren : Laid t (headStop t e.start) e.contentStop e.children)
    (hraw : Text.lower e.tag = element.name) (hhead : e.startTagEnd.isSome = true)
    (hfree : e.FreeOf element t) : e.HoldsRaw t := by
  have horder := h.inOrder hchildren
  rcases Nat.lt_or_eq_of_le h.contentStart_le with hlt | heq
  · rcases h.reaches_body hraw hhead with hempty | hbody
    · omega
    · rcases h.raw_content hbody hlt hfree with ⟨token, hmem, hkind, hoffset, hstop⟩
      constructor
      · -- The `<` of a child would stand in the middle of the raw token.
        apply List.eq_nil_iff_forall_not_mem.mpr
        intro c hc
        have hwithin := horder.within c hc
        rcases (tokensOf_tiled t).separated hmem (hchildren.mem hc).1.opens.open_mem with
          heq | hbefore | hbehind
        · rw [heq] at hkind
          cases hkind
        · simp only at hbefore
          omega
        · simp only [Token.stop, List.length_singleton] at hbehind
          omega
      · intro _
        have htext := (text_of_mem_scan (Nat.zero_le _) (Nat.le_refl _) hmem).2
        rw [hoffset, hstop] at htext
        rw [← htext, ← hkind, ← hoffset]
        exact hmem
  · constructor
    · rw [← heq] at horder
      exact horder.eq_nil
    · intro hnonempty
      have hlength := Text.length_slice t e.contentStart e.contentStop h.cut_contentStop.le
      rw [heq, Nat.sub_self] at hlength
      rw [heq] at hnonempty
      exact absurd (List.eq_nil_of_length_eq_zero hlength) hnonempty

end Recorded

end Element

/--
A script or a style whose start tag is closed holds no elements and at most one token, a raw
one, exactly when nothing in its content is an end tag to the scanner.
-/
theorem Document.holdsRaw_iff (t : Text) {e : Element} {element : RawElement}
    (he : e ∈ Element.preorderAll (ofText t).roots) (hraw : Text.lower e.tag = element.name)
    (hhead : e.startTagEnd.isSome = true) : e.HoldsRaw t ↔ e.FreeOf element t := by
  rcases laid_of_mem t he with ⟨hrecorded, hchildren⟩
  exact ⟨hrecorded.freeOf_of_holdsRaw hraw hhead,
    hrecorded.holdsRaw_of_freeOf hchildren hraw hhead⟩

def scriptText : Text :=
  "<script>'</scripts>'</script>".toList

theorem holdsRaw_iff_scripts :
    exists e, e ∈ Element.preorderAll (Document.ofText scriptText).roots ∧
      e.tag = "script".toList ∧ (e.contentStart, e.contentStop) = (8, 20) ∧
      e.HoldsRaw scriptText := by
  have hfacts : (Element.preorderAll (Document.ofText scriptText).roots).any (fun e =>
      e.tag = "script".toList ∧ e.startTagEnd.isSome = true ∧
        (e.contentStart, e.contentStop) = (8, 20)) = true := by
    decide +kernel
  rcases List.any_eq_true.mp hfacts with ⟨e, he, hscript⟩
  rcases of_decide_eq_true hscript with ⟨htag, hhead, hplaces⟩
  have hstart : e.contentStart = 8 := congrArg (·.1) hplaces
  have hstop : e.contentStop = 20 := congrArg (·.2) hplaces
  have hraw : Text.lower e.tag = RawElement.script.name := by
    rw [htag]
    decide +kernel
  refine ⟨e, he, htag, hplaces, (Document.holdsRaw_iff scriptText he hraw hhead).mpr ?_⟩
  have hfree : forall i, i < 20 -> 8 ≤ i ->
      RawElement.script.closesAt (scriptText.drop i) = false := by
    decide +kernel
  intro i hle hlt
  rw [hstart] at hle
  rw [hstop] at hlt
  exact hfree i hlt hle

/-- The end tag of a longer name ends the raw body, and the script goes on with an element. -/
theorem script_holds_element :
    ¬ forall e, e ∈ Element.preorderAll
        (Document.ofText "<script>a</script-x><b></b></script>".toList).roots ->
      Text.lower e.tag = RawElement.script.name -> e.startTagEnd.isSome = true ->
        e.HoldsRaw "<script>a</script-x><b></b></script>".toList := by
  intro h
  have hfacts : (Element.preorderAll
      (Document.ofText "<script>a</script-x><b></b></script>".toList).roots).any (fun e =>
        Text.lower e.tag = RawElement.script.name ∧ e.startTagEnd.isSome = true ∧
          e.children.length = 1) = true := by
    decide +kernel
  rcases List.any_eq_true.mp hfacts with ⟨e, he, hscript⟩
  rcases of_decide_eq_true hscript with ⟨htag, hhead, hchild⟩
  rw [(h e he htag hhead).1] at hchild
  cases hchild

end SfcServer
