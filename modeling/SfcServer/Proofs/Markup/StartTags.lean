import SfcServer.Proofs.Markup.DocumentLayout
import SfcServer.Proofs.Markup.Finding
import SfcServer.Proofs.Markup.Rescan

/-!
# Start tags and their elements

The parts of a start tag stand in the head of the start tag they belong to, and every
start tag begins an element of the document, whatever becomes of the tags after it.
-/

namespace SfcServer

variable {t : Text} {mode : ScanMode} {offset : Nat} {c : Char} {rest : Text}

def ScanMode.ReadsHead (mode : ScanMode) : Prop :=
  mode = .afterOpen ∨ exists body, mode.InTag body

theorem ScanMode.not_readsHead_afterClose (body : Option RawElement) :
    ¬ (ScanMode.afterClose body).ReadsHead := by
  cases body <;> simp [ScanMode.afterClose, ScanMode.ReadsHead, ScanMode.InTag]

namespace ScanStep

theorem InTag.inHead {body : Option RawElement} {kind : TokenKind} (h : InTag body kind mode)
    (hreads : mode.ReadsHead) : kind.inHead = true := by
  cases h with
  | selfClose =>
      exact absurd hreads (ScanMode.not_readsHead_afterClose none)
  | close =>
      exact absurd hreads (ScanMode.not_readsHead_afterClose body)
  | attributeName =>
      rfl
  | unknown =>
      rfl

theorem next_readsHead (h : (next mode c rest).mode.ReadsHead) :
    next mode c rest = content c rest ∨
      (mode.ReadsHead ∧ (next mode c rest).kind.inHead = true) := by
  by_cases hmode : mode = .afterOpen
  · subst hmode
    simp only [next, afterOpen] at h ⊢
    split
    · exact Or.inr ⟨Or.inl rfl, rfl⟩
    · rename_i hname
      rw [if_neg hname] at h
      cases hblank : Text.isBlank c with
      | true =>
          refine Or.inr ⟨Or.inl rfl, ?_⟩
          simp [inTag, hblank, TokenKind.inHead]
      | false =>
          rcases inTag_cases none rest hblank with hfresh | hmove
          · exact Or.inl hfresh
          · exact Or.inr ⟨Or.inl rfl, hmove.inHead h⟩
  · rcases next_cases hmode c rest with hfresh | hmove
    · exact Or.inl hfresh
    · refine Or.inr ?_
      generalize (next mode c rest).kind = kind at hmove ⊢
      generalize (next mode c rest).mode = after at hmove h
      cases hmove with
      | tagBlank htag =>
          exact ⟨h, rfl⟩
      | tag htag hinside =>
          exact ⟨Or.inr ⟨_, htag⟩, hinside.inHead h⟩
      | assign body =>
          exact ⟨Or.inr ⟨body, Or.inr (Or.inl rfl)⟩, rfl⟩
      | value body =>
          exact ⟨Or.inr ⟨body, Or.inr (Or.inr rfl)⟩, rfl⟩
      | endBlank =>
          simp [ScanMode.ReadsHead, ScanMode.InTag] at h
      | endTag =>
          simp [ScanMode.ReadsHead, ScanMode.InTag] at h
      | endClose =>
          exact absurd h (ScanMode.not_readsHead_afterClose none)
      | endUnknown =>
          simp [ScanMode.ReadsHead, ScanMode.InTag] at h
      | raw element =>
          exact absurd h (ScanMode.not_readsHead_afterClose none)

end ScanStep

/-- The scan of a text passes an offset, and knows the start tag that it stands in. -/
structure Passes (t : Text) (mode : ScanMode) (offset : Nat) : Prop where
  reaches : Reaches t mode offset
  head : mode.ReadsHead ->
    exists start read, Opens t start ∧ HeadRead t mode offset start read

namespace Passes

theorem start (t : Text) : Passes t .content 0 where
  reaches := Reaches.start t
  head := by
    intro hreads
    exact absurd hreads (ScanMode.not_readsHead_afterClose none)

theorem next (h : Passes t mode offset) (hdrop : t.drop offset = c :: rest) :
    Passes t (ScanStep.next mode c rest).mode
      (offset + 1 + (ScanStep.next mode c rest).extra) where
  reaches := h.reaches.next hdrop
  head := by
    intro hreads
    rcases ScanStep.next_readsHead hreads with hfresh | ⟨hmode, hkind⟩
    · -- From outside, only the `<` of a start tag leads into one.
      have hreaches := h.reaches.fresh hdrop hfresh
      rw [hfresh] at hreads ⊢
      have hcases := ScanStep.content_fresh c rest
      generalize hkind : (ScanStep.content c rest).kind = kind at hcases
      generalize (ScanStep.content c rest).mode = after at hcases hreads ⊢
      cases hcases with
      | startTagOpen =>
          rcases ScanStep.content_startTagOpen hkind with ⟨hc, hextra, d, more, hrest, hletter⟩
          have hopens : Opens t offset := ⟨hreaches, d, more, by rw [hdrop, hc, hrest], hletter⟩
          rw [hextra]
          exact ⟨offset, [], hopens, HeadRead.opened hopens⟩
      | comment =>
          exact absurd hreads (ScanMode.not_readsHead_afterClose none)
      | content =>
          exact absurd hreads (ScanMode.not_readsHead_afterClose none)
      | endTagOpen =>
          simp [ScanMode.ReadsHead, ScanMode.InTag] at hreads
    · rcases h.head hmode with ⟨start, read, hopens, hread⟩
      exact ⟨start, _, hopens, hread.next hdrop hkind⟩

theorem of_mem_scanFrom (t : Text) (mode : ScanMode) (offset : Nat) (text : Text) :
    Passes t mode offset -> t.drop offset = text ->
      forall token, token ∈ scanFrom mode offset text ->
        exists mode c rest, Passes t mode token.offset ∧ t.drop token.offset = c :: rest ∧
          token = (ScanStep.next mode c rest).token c rest token.offset := by
  fun_induction scanFrom mode offset text with
  | case1 mode offset =>
      intro _ _ token hmem
      cases hmem
  | case2 mode offset c rest step ih =>
      intro h hdrop token hmem
      rcases List.mem_cons.mp hmem with heq | hlater
      · subst heq
        exact ⟨mode, c, rest, h, hdrop, rfl⟩
      · exact ih (h.next hdrop) (Text.drop_step hdrop step.extra) token hlater

theorem of_mem {token : Token} (hmem : token ∈ tokensOf t) :
    exists mode c rest, Passes t mode token.offset ∧ t.drop token.offset = c :: rest ∧
      token = (ScanStep.next mode c rest).token c rest token.offset := by
  rw [tokensOf_eq] at hmem
  exact of_mem_scanFrom t .content 0 t (start t) List.drop_zero token hmem

end Passes

/-!
# Attributes
-/

namespace ScanStep

theorem Fresh.ne_value {kind : TokenKind} (h : Fresh kind mode) : kind ≠ .attributeValue := by
  cases h <;> simp

theorem inTag_ne_value (body : Option RawElement) (c : Char) (rest : Text) :
    (inTag body c rest).kind ≠ .attributeValue := by
  cases hblank : Text.isBlank c with
  | true =>
      simp [inTag, hblank]
  | false =>
      rcases inTag_cases body rest hblank with hfresh | hmove
      · rw [hfresh]
        exact (content_fresh c rest).ne_value
      · intro hkind
        rw [hkind] at hmove
        cases hmove

/-- A value is taken only after a `=`, and a quote runs up to its like or to the end. -/
theorem next_attributeValue (h : (next mode c rest).kind = .attributeValue) :
    (exists body, mode = .beforeValue body) ∧
      (Attribute.isQuote c = true -> (next mode c rest).extra = quotedLength c rest) := by
  have hmode : exists body, mode = .beforeValue body := by
    by_cases hopen : mode = .afterOpen
    · subst hopen
      simp only [next, afterOpen] at h
      split at h
      · cases h
      · exact absurd h (inTag_ne_value none c rest)
    · rcases next_cases hopen c rest with hfresh | hmove
      · rw [hfresh] at h
        exact absurd h (content_fresh c rest).ne_value
      · rw [h] at hmove
        generalize (next mode c rest).mode = after at hmove
        cases hmove with
        | tag _ hinside =>
            cases hinside
        | value body =>
            exact ⟨body, rfl⟩
  refine ⟨hmode, ?_⟩
  rcases hmode with ⟨body, heq⟩
  subst heq
  intro hquote
  have hc : c = Text.doubleQuote ∨ c = Text.singleQuote := by
    simpa [Attribute.isQuote] using hquote
  have hblank : Text.isBlank c = false := by
    rcases hc with hc | hc <;> rw [hc] <;> decide
  simp [next, beforeValue, hblank, hc]

theorem Fresh.ne_attributeName {kind : TokenKind} (h : Fresh kind mode) :
    kind ≠ .attributeName := by
  cases h <;> simp

theorem next_attributeName (h : (next mode c rest).kind = .attributeName) : mode.ReadsHead := by
  by_cases hopen : mode = .afterOpen
  · exact Or.inl hopen
  · rcases next_cases hopen c rest with hfresh | hmove
    · rw [hfresh] at h
      exact absurd h (content_fresh c rest).ne_attributeName
    · rw [h] at hmove
      generalize (next mode c rest).mode = after at hmove
      cases hmove with
      | tag htag _ =>
          exact Or.inr ⟨_, htag⟩

end ScanStep

theorem HeadRead.mem {start : Nat} {read : List Token} (h : HeadRead t mode offset start read)
    (hdrop : t.drop offset = c :: rest)
    (hkind : (ScanStep.next mode c rest).kind.inHead = true) :
    (ScanStep.next mode c rest).token c rest offset ∈ headTokens t start := by
  unfold headTokens
  rw [h.tokens, List.tail_cons, List.takeWhile_append_of_pos h.inHead, hdrop, scanFrom_cons]
  apply List.mem_append_right
  rw [List.takeWhile_cons, ScanStep.token_kind, if_pos hkind]
  exact List.mem_cons_self

/-- What is only taken in a start tag stands in the head of one. -/
theorem mem_headTokens {token : Token} (hmem : token ∈ tokensOf t)
    (hhead : token.kind.inHead = true)
    (hreads : forall mode c rest, (ScanStep.next mode c rest).kind = token.kind ->
      mode.ReadsHead) : exists start, Opens t start ∧ token ∈ headTokens t start := by
  rcases Passes.of_mem hmem with ⟨mode, c, rest, hpasses, hdrop, htoken⟩
  have hkind : (ScanStep.next mode c rest).kind = token.kind := by
    rw [htoken]
    rfl
  rcases hpasses.head (hreads mode c rest hkind) with ⟨start, read, hopens, hread⟩
  refine ⟨start, hopens, ?_⟩
  rw [htoken]
  exact hread.mem hdrop (by rw [hkind]; exact hhead)

theorem value_mem_headTokens {token : Token} (hmem : token ∈ tokensOf t)
    (hkind : token.kind = .attributeValue) :
    exists start, Opens t start ∧ token ∈ headTokens t start := by
  refine mem_headTokens hmem (by rw [hkind]; rfl) ?_
  intro mode c rest hvalue
  rcases (ScanStep.next_attributeValue (hvalue.trans hkind)).1 with ⟨body, hmode⟩
  exact Or.inr ⟨body, by rw [hmode]; exact Or.inr (Or.inr rfl)⟩

theorem name_mem_headTokens {token : Token} (hmem : token ∈ tokensOf t)
    (hkind : token.kind = .attributeName) :
    exists start, Opens t start ∧ token ∈ headTokens t start := by
  refine mem_headTokens hmem (by rw [hkind]; rfl) ?_
  intro mode c rest hname
  exact ScanStep.next_attributeName (hname.trans hkind)

theorem getElem?_runLength {p : Char -> Bool} {t : Text} (h : runLength p t < t.length) :
    exists d, t[runLength p t]? = some d ∧ p d = false := by
  induction t with
  | nil =>
      cases h
  | cons c rest ih =>
      unfold runLength at h ih ⊢
      cases hc : p c with
      | true =>
          rw [List.takeWhile_cons_of_pos hc] at h ⊢
          simp only [List.length_cons, List.getElem?_cons_succ] at h ⊢
          exact ih (by omega)
      | false =>
          rw [List.takeWhile_cons_of_neg (by simp [hc])]
          exact ⟨c, rfl, hc⟩

/-- A value whose quote is never closed goes up to the end of the text. -/
theorem value_stop_eq {token : Token} (hmem : token ∈ tokensOf t)
    (hkind : token.kind = .attributeValue) {quote : Char} {more : Text}
    (htext : token.text = quote :: more) (hquote : Attribute.isQuote quote = true)
    (hlast : more.getLast? ≠ some quote) : token.stop = t.length := by
  rcases Passes.of_mem hmem with ⟨mode, c, rest, hpasses, hdrop, htoken⟩
  have hvalue : (ScanStep.next mode c rest).kind = .attributeValue := by
    rw [htoken] at hkind
    exact hkind
  rw [htoken] at htext
  injection htext with hc hmore
  subst hc
  have hextra := (ScanStep.next_attributeValue hvalue).2 hquote
  have hstop := ScanStep.token_stop mode c rest token.offset
  have hlength := congrArg List.length hdrop
  rw [List.length_drop, List.length_cons] at hlength
  rw [← htoken, hextra] at hstop
  rw [hextra] at hmore
  have hrun := runLength_le (· != c) rest
  rw [quotedLength] at hmore hstop
  split at hstop
  · rename_i hlt
    exfalso
    rw [if_pos hlt] at hmore
    apply hlast
    rcases getElem?_runLength hlt with ⟨d, hd, hquoted⟩
    have heq : d = c := by simpa using hquoted
    rw [← hmore, List.getLast?_take, if_neg (by omega), Nat.add_sub_cancel, hd, heq]
    rfl
  · omega

/-!
# Every start tag begins an element
-/

def Begins (es : List Element) (start : Nat) : Prop :=
  exists root e, root ∈ es ∧ e ∈ root.preorder ∧ e.start = start

theorem Begins.append {es more : List Element} {start : Nat} :
    Begins (es ++ more) start ↔ Begins es start ∨ Begins more start := by
  constructor
  · intro ⟨root, e, hroot, he, hstart⟩
    rcases List.mem_append.mp hroot with hleft | hright
    · exact Or.inl ⟨root, e, hleft, he, hstart⟩
    · exact Or.inr ⟨root, e, hright, he, hstart⟩
  · intro h
    rcases h with ⟨root, e, hroot, he, hstart⟩ | ⟨root, e, hroot, he, hstart⟩
    · exact ⟨root, e, List.mem_append_left _ hroot, he, hstart⟩
    · exact ⟨root, e, List.mem_append_right _ hroot, he, hstart⟩

def OpenElement.Begins (top : OpenElement) (start : Nat) : Prop :=
  top.start = start ∨ SfcServer.Begins top.children start

theorem OpenElement.Begins.finish {top : OpenElement} {start : Nat} (h : top.Begins start)
    (stop : Nat) : SfcServer.Begins [top.finish stop] start := by
  rcases h with heq | ⟨root, e, hroot, he, hstart⟩
  · exact ⟨top.finish stop, top.finish stop, List.mem_cons_self, Element.self_mem_preorder _, heq⟩
  · exact ⟨top.finish stop, e, List.mem_cons_self, Element.mem_preorder_of_child hroot he, hstart⟩

namespace TreeReader

def Begun (r : TreeReader) (start : Nat) : Prop :=
  SfcServer.Begins r.roots start ∨ exists top, top ∈ r.stack ∧ top.Begins start

variable {r : TreeReader} {start : Nat}

theorem begun_attach {e : Element} (h : r.Begun start ∨ SfcServer.Begins [e] start) :
    (r.attach e).Begun start := by
  unfold attach
  cases hstack : r.stack with
  | nil =>
      rcases h with (hroots | ⟨top, htop, _⟩) | he
      · exact Or.inl (Begins.append.mpr (Or.inl hroots))
      · rw [hstack] at htop
        cases htop
      · exact Or.inl (Begins.append.mpr (Or.inr he))
  | cons below rest =>
      rcases h with (hroots | ⟨top, htop, hbegins⟩) | he
      · exact Or.inl hroots
      · rw [hstack] at htop
        rcases List.mem_cons.mp htop with heq | hrest
        · subst heq
          refine Or.inr ⟨_, List.mem_cons_self, ?_⟩
          exact hbegins.imp_right fun hchild => Begins.append.mpr (Or.inl hchild)
        · exact Or.inr ⟨top, List.mem_cons_of_mem _ hrest, hbegins⟩
      · exact Or.inr ⟨_, List.mem_cons_self, Or.inr (Begins.append.mpr (Or.inr he))⟩

theorem Begun.pop (h : r.Begun start) (stop : Nat) : (r.pop stop).Begun start := by
  cases hstack : r.stack with
  | nil =>
      unfold TreeReader.pop
      rw [hstack]
      exact h
  | cons top rest =>
      rw [pop_of_stack hstack]
      apply begun_attach
      rcases h with hroots | ⟨other, hother, hbegins⟩
      · exact Or.inl (Or.inl hroots)
      · rw [hstack] at hother
        rcases List.mem_cons.mp hother with heq | hrest
        · subst heq
          exact Or.inr (hbegins.finish stop)
        · exact Or.inl (Or.inr ⟨other, hrest, hbegins⟩)

theorem Begun.mapTop (h : r.Begun start) {f : OpenElement -> OpenElement}
    (hf : forall e, (f e).start = e.start ∧ (f e).children = e.children) :
    (r.mapTop f).Begun start := by
  cases hstack : r.stack with
  | nil =>
      unfold TreeReader.mapTop
      rw [hstack]
      exact h
  | cons top rest =>
      rw [mapTop_of_stack hstack]
      rcases h with hroots | ⟨other, hother, hbegins⟩
      · exact Or.inl hroots
      · rw [hstack] at hother
        rcases List.mem_cons.mp hother with heq | hrest
        · subst heq
          refine Or.inr ⟨f other, List.mem_cons_self, ?_⟩
          unfold OpenElement.Begins
          rw [(hf other).1, (hf other).2]
          exact hbegins
        · exact Or.inr ⟨other, List.mem_cons_of_mem _ hrest, hbegins⟩

theorem Begun.abandon (h : r.Begun start) (stop n : Nat) : (r.abandon stop n).Begun start := by
  induction n generalizing r with
  | zero =>
      exact h
  | succ n ih =>
      apply ih
      apply Begun.pop
      exact h.mapTop fun _ => ⟨rfl, rfl⟩

theorem Begun.settle (h : r.Begun start) (stop : Nat) : (r.settle stop).Begun start := by
  unfold TreeReader.settle
  split
  · exact h.pop stop
  · exact h

theorem Begun.closeNamed (h : r.Begun start) (name : Text) : (r.closeNamed name).Begun start := by
  unfold TreeReader.closeNamed
  split
  · exact h
  · rename_i depth _
    exact (h.abandon r.endTagStart depth).mapTop fun _ => ⟨rfl, rfl⟩

theorem Begun.step (h : r.Begun start) (token : Token) : (r.step token).Begun start := by
  have hsettled := h.settle token.offset
  unfold TreeReader.step
  cases hkind : token.kind with
  | startTagOpen =>
      rcases hsettled with hroots | ⟨top, htop, hbegins⟩
      · exact Or.inl hroots
      · exact Or.inr ⟨top, List.mem_cons_of_mem _ htop, hbegins⟩
  | startTag =>
      exact hsettled.mapTop fun _ => ⟨rfl, rfl⟩
  | attributeName =>
      exact hsettled.mapTop fun _ => ⟨rfl, rfl⟩
  | attributeValue =>
      simp only
      split
      · exact hsettled
      · exact hsettled.mapTop fun _ => ⟨rfl, rfl⟩
  | startTagClose =>
      have hclosed : ((r.settle token.offset).mapTop fun e =>
          { e with startTagEnd := some token.stop }).Begun start :=
        hsettled.mapTop fun _ => ⟨rfl, rfl⟩
      simp only
      split
      · exact hclosed
      · split
        · apply Begun.pop
          refine Begun.mapTop ?_ fun _ => ⟨rfl, rfl⟩
          exact hclosed
        · exact hclosed
  | startTagSelfClose =>
      apply Begun.pop
      refine Begun.mapTop ?_ fun _ => ⟨rfl, rfl⟩
      exact hsettled
  | endTagOpen =>
      exact hsettled
  | endTag =>
      exact h.closeNamed token.text
  | endTagClose =>
      exact h.settle token.stop
  | delimiterAssign =>
      exact hsettled
  | content =>
      exact hsettled
  | comment =>
      exact hsettled
  | rawContent =>
      exact hsettled
  | whitespace =>
      exact h
  | unknown =>
      exact hsettled

theorem begun_startTagOpen (r : TreeReader) {token : Token} (hkind : token.kind = .startTagOpen) :
    (r.step token).Begun token.offset := by
  unfold TreeReader.step
  rw [hkind]
  exact Or.inr ⟨{ start := token.offset }, List.mem_cons_self, Or.inl rfl⟩

theorem begun_run (tokens : List Token) (r : TreeReader) :
    (r.Begun start ∨ exists token, token ∈ tokens ∧ token.kind = .startTagOpen ∧
      token.offset = start) -> (tokens.foldl TreeReader.step r).Begun start := by
  induction tokens generalizing r with
  | nil =>
      intro h
      rcases h with hbegun | ⟨token, hmem, _⟩
      · exact hbegun
      · cases hmem
  | cons first rest ih =>
      intro h
      rw [List.foldl_cons]
      apply ih
      rcases h with hbegun | ⟨token, hmem, hkind, hoffset⟩
      · exact Or.inl (hbegun.step first)
      · rcases List.mem_cons.mp hmem with heq | hlater
        · subst heq
          subst hoffset
          exact Or.inl (begun_startTagOpen r hkind)
        · exact Or.inr ⟨token, hlater, hkind, hoffset⟩

theorem length_abandon_stack (r : TreeReader) (stop n : Nat) :
    (r.abandon stop n).stack.length = r.stack.length - n := by
  induction n generalizing r with
  | zero =>
      rfl
  | succ n ih =>
      rw [TreeReader.abandon, ih]
      cases hstack : r.stack with
      | nil =>
          simp [TreeReader.mapTop, TreeReader.pop, hstack]
      | cons top rest =>
          rw [mapTop_of_stack hstack, pop_of_stack rfl, length_attach_stack]
          simp only [List.length_cons]
          omega

theorem Begun.finish (h : r.Begun start) (size : Nat) :
    SfcServer.Begins (r.finish size) start := by
  have hdone := (h.settle size).abandon size (r.settle size).stack.length
  have hlength := length_abandon_stack (r.settle size) size (r.settle size).stack.length
  rcases hdone with hroots | ⟨top, htop, _⟩
  · exact hroots
  · have hempty : ((r.settle size).abandon size (r.settle size).stack.length).stack = [] :=
      List.eq_nil_of_length_eq_zero (by omega)
    rw [hempty] at htop
    cases htop

end TreeReader

theorem Document.begins_of_startTagOpen {token : Token} (hmem : token ∈ tokensOf t)
    (hkind : token.kind = .startTagOpen) : Begins (Document.ofText t).roots token.offset := by
  apply TreeReader.Begun.finish
  exact TreeReader.begun_run _ _ (Or.inr ⟨token, hmem, hkind, rfl⟩)

theorem Opens.open_mem {start : Nat} (h : Opens t start) :
    (⟨.startTagOpen, ['<'], start⟩ : Token) ∈ tokensOf t := by
  apply h.reaches.mem
  rw [h.scanFrom_eq]
  exact List.mem_cons_self

theorem Document.start_le_elementAt {start : Nat} (hopens : Opens t start)
    (hstart : start < offset) (hstop : offset ≤ headStop t start) {e : Element}
    (he : (Document.ofText t).elementAt? offset = some e) : start ≤ e.start := by
  have hlaid := Document.ofText_laid t
  rcases Document.begins_of_startTagOpen hopens.open_mem rfl with
    ⟨root, other, hroot, hother, hsame⟩
  rcases Laid.of_preorder root hlaid hroot hother with ⟨_, _, es, hothers, hmem⟩
  have hhead := (hothers.mem hmem).1.head_le
  simp only at hsame
  rw [hsame] at hhead
  rcases Laid.start_le_innermost root hlaid hroot hother (by omega) (Nat.le_trans hstop hhead) with
    ⟨hcovers, hle⟩
  have hinnermost := hlaid.innermostOf_of_covers hroot hcovers
  rw [Document.elementAt?, hinnermost] at he
  cases he
  omega

end SfcServer
