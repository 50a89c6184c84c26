import SfcServer.Proofs.Markup.TreeSteps

/-!
# The elements of a document lie in order

The steps inside end tags and raw bodies complete the list of what a reader can meet.
Since every step keeps the reader sound, so does a whole run, and what is still open
at the end of the text ends there.
-/

namespace SfcServer
namespace TreeReader

variable {t : Text} {mode : ScanMode} {offset : Nat} {r : TreeReader} {c : Char} {rest : Text}

/-!
# In an end tag
-/

theorem EndTagRead.next {start : Nat} (h : EndTagRead t start offset)
    (hreaches : Reaches t .inEndTag offset) (hdrop : t.drop offset = c :: rest)
    (hkind : (ScanStep.next .inEndTag c rest).kind.inEndTag = true) :
    EndTagRead t start (offset + 1 + (ScanStep.next .inEndTag c rest).extra) where
  reaches := h.reaches
  opens := h.opens
  lt := by
    have hlt := h.lt
    omega
  goesOn := by
    intro token hmem hle hlt
    by_cases hbefore : token.offset < offset
    · exact h.goesOn token hmem hle hbefore
    · rw [hreaches.token_eq hdrop hmem (by omega) hlt, ScanStep.token_kind]
      exact hkind

theorem Sound.inEndTag_cases (h : r.Sound t .inEndTag offset) :
    (r.closing = false ∧ exists low, Stacked t r.endTagStart r.roots r.stack low ∧
      low ≤ offset) ∨
    (r.closing = true ∧ exists top below low, r.stack = top :: below ∧
      top.endTagStart = some r.endTagStart ∧ low ≤ offset ∧
      Stacked t r.endTagStart r.roots ({ top with endTagStart := none } :: below) low) := by
  cases h.standing with
  | between _ hclosing hstacked hlow =>
      exact Or.inl ⟨hclosing, _, by simpa [limit] using hstacked, hlow⟩
  | tag _ _ hpending _ _ =>
      rcases hpending.mode with ⟨hmode, _⟩ | hmode | hmode | hmode <;> cases hmode
  | closing hstack hclosing _ hend hstacked hlow =>
      exact Or.inr ⟨hclosing, _, _, _, hstack, hend, hlow, hstacked⟩

theorem Standing.later {later : Nat} (h : r.Standing t .inEndTag offset) (hle : offset ≤ later) :
    r.Standing t .inEndTag later := by
  cases h with
  | between hmode hclosing hstacked hlow =>
      exact Standing.between hmode hclosing (by simpa [limit] using hstacked)
        (Nat.le_trans hlow hle)
  | tag _ _ hpending _ _ =>
      rcases hpending.mode with ⟨hmode, _⟩ | hmode | hmode | hmode <;> cases hmode
  | closing hstack hclosing hmode hend hstacked hlow =>
      exact Standing.closing hstack hclosing hmode hend hstacked (Nat.le_trans hlow hle)

theorem Sound.step_endBlank (h : r.Sound t .inEndTag offset) (hdrop : t.drop offset = c :: rest)
    (hkind : (ScanStep.next .inEndTag c rest).kind = .whitespace)
    (hafter : (ScanStep.next .inEndTag c rest).mode = .inEndTag) :
    (r.step ((ScanStep.next .inEndTag c rest).token c rest offset)).Sound t
      (ScanStep.next .inEndTag c rest).mode
      (offset + 1 + (ScanStep.next .inEndTag c rest).extra) := by
  have hreaches := h.reaches.next hdrop
  have hstep : r.step ((ScanStep.next .inEndTag c rest).token c rest offset) = r := by
    simp only [step, ScanStep.token_kind, hkind]
  rw [hstep]
  rw [hafter] at hreaches ⊢
  refine ⟨hreaches, h.standing.later (by omega), ?_⟩
  intro _
  exact (h.endTag rfl).next h.reaches hdrop (by rw [hkind]; rfl)

theorem closeNamed_standing (hread : EndTagRead t r.endTagStart offset)
    (hle : offset ≤ t.length) (hstanding : r.Standing t .inEndTag offset) {low : Nat}
    (hsettling : r.Settling t r.endTagStart low) (hlow : low < offset) (name : Text) :
    (r.closeNamed name).Standing t .inEndTag offset ∧
      (r.closeNamed name).endTagStart = r.endTagStart := by
  unfold closeNamed
  split
  · exact ⟨hstanding, rfl⟩
  · rename_i depth hfound
    have hdepth : depth < r.stack.length := (List.findIdx?_eq_some_iff_getElem.mp hfound).1
    have hlt := hread.lt
    have hlate : forall e : Element, e.Recorded t -> e.contentStop ≤ r.endTagStart ->
        e.stop ≤ offset - 1 -> e.stop ≤ r.endTagStart ∨ e.Overhangs t r.endTagStart := by
      intro e he hcontent hstop
      exact hread.late hle he hcontent (by omega)
    rcases hsettling.abandon hread.reaches (by omega) hlate (show low ≤ offset - 1 by omega)
      (Nat.le_of_lt hdepth) with ⟨later, hafter, hlater, hlength, _, hstart⟩
    cases hstack : (r.abandon r.endTagStart depth).stack with
    | nil =>
        rw [hstack, List.length_nil] at hlength
        omega
    | cons top below =>
        rcases hafter.top hstack with ⟨_, hstacked⟩
        simp only [mapTop_of_stack hstack, hstart]
        have hlast : later ≤ offset := by omega
        refine ⟨Standing.closing rfl rfl rfl rfl ?_ hlast, trivial⟩
        exact hstacked.congr_top rfl rfl rfl rfl rfl rfl

theorem Sound.step_endTag (h : r.Sound t .inEndTag offset) (hdrop : t.drop offset = c :: rest)
    (hkind : (ScanStep.next .inEndTag c rest).kind = .endTag)
    (hafter : (ScanStep.next .inEndTag c rest).mode = .inEndTag) :
    (r.step ((ScanStep.next .inEndTag c rest).token c rest offset)).Sound t
      (ScanStep.next .inEndTag c rest).mode
      (offset + 1 + (ScanStep.next .inEndTag c rest).extra) := by
  have hreaches := h.reaches.next hdrop
  have hread := (h.endTag rfl).next h.reaches hdrop (by rw [hkind]; rfl)
  have hstep : r.step ((ScanStep.next .inEndTag c rest).token c rest offset) =
      r.closeNamed ((ScanStep.next .inEndTag c rest).token c rest offset).text := by
    simp only [step, ScanStep.token_kind, hkind]
  have hsettling : exists low, r.Settling t r.endTagStart low ∧ low ≤ offset := by
    rcases h.inEndTag_cases with ⟨_, low, hstacked, hlow⟩ |
      ⟨_, top, below, low, hstack, hend, hlow, hstacked⟩
    · exact ⟨low, Or.inl hstacked, hlow⟩
    · exact ⟨low, Or.inr ⟨top, below, hstack, hend, hread.opens, hstacked⟩, hlow⟩
  rcases hsettling with ⟨low, hsettling, hlow⟩
  rw [hstep]
  rw [hafter] at hreaches ⊢
  rcases closeNamed_standing hread hreaches.le (h.standing.later (by omega)) hsettling (by omega)
    ((ScanStep.next .inEndTag c rest).token c rest offset).text with ⟨hstanding, hstart⟩
  refine ⟨hreaches, hstanding, ?_⟩
  intro _
  rw [hstart]
  exact hread

/-- A stray character breaks an end tag off; the tag goes on, for no element. -/
theorem Sound.step_endUnknown (h : r.Sound t .inEndTag offset)
    (hdrop : t.drop offset = c :: rest)
    (hkind : (ScanStep.next .inEndTag c rest).kind = .unknown)
    (hafter : (ScanStep.next .inEndTag c rest).mode = .inEndTag) :
    (r.step ((ScanStep.next .inEndTag c rest).token c rest offset)).Sound t
      (ScanStep.next .inEndTag c rest).mode
      (offset + 1 + (ScanStep.next .inEndTag c rest).extra) := by
  have hreaches := h.reaches.next hdrop
  have hread := (h.endTag rfl).next h.reaches hdrop (by rw [hkind]; rfl)
  have hstep : r.step ((ScanStep.next .inEndTag c rest).token c rest offset) =
      r.settle offset := by
    simp only [step, ScanStep.token_kind, hkind, ScanStep.token_offset]
  rw [hstep]
  rw [hafter] at hreaches ⊢
  rcases h.inEndTag_cases with ⟨hclosing, _⟩ |
    ⟨hclosing, top, below, low, hstack, hend, hlow, hstacked⟩
  · rw [settle_of_not_closing hclosing]
    exact ⟨hreaches, h.standing.later (by omega), fun _ => hread⟩
  · have hbroken : (top.finish offset).EndsBroken t := ⟨_, h.reaches.token_mem hdrop, hkind, rfl⟩
    rcases settle_closing hstack hclosing hend hstacked (h.endTag rfl) hlow h.reaches.le
      (Or.inr hbroken) with ⟨hopen, hstart, hsettled⟩
    refine ⟨hreaches, ?_, ?_⟩
    · refine Standing.between (Or.inr (Or.inl rfl)) hopen ?_
        (show offset ≤ offset + 1 + (ScanStep.next .inEndTag c rest).extra by omega)
      simpa [limit, hstart] using hsettled
    · intro _
      rw [hstart]
      exact hread

theorem Sound.step_endClose (h : r.Sound t .inEndTag offset) (hdrop : t.drop offset = c :: rest)
    (hkind : (ScanStep.next .inEndTag c rest).kind = .endTagClose)
    (hafter : (ScanStep.next .inEndTag c rest).mode = .content) :
    (r.step ((ScanStep.next .inEndTag c rest).token c rest offset)).Sound t
      (ScanStep.next .inEndTag c rest).mode
      (offset + 1 + (ScanStep.next .inEndTag c rest).extra) := by
  have hreaches := h.reaches.next hdrop
  have hread := (h.endTag rfl).next h.reaches hdrop (by rw [hkind]; rfl)
  have hstep : r.step ((ScanStep.next .inEndTag c rest).token c rest offset) =
      r.settle (offset + 1 + (ScanStep.next .inEndTag c rest).extra) := by
    simp only [step, ScanStep.token_kind, hkind, ScanStep.token_stop]
  rw [hstep]
  rw [hafter] at hreaches ⊢
  have hlater : offset ≤ offset + 1 + (ScanStep.next .inEndTag c rest).extra := by omega
  generalize offset + 1 + (ScanStep.next .inEndTag c rest).extra = stop at hreaches hread hlater ⊢
  have hle : r.endTagStart ≤ stop := Nat.le_of_lt hread.lt
  refine ⟨hreaches, ?_, by intro hend; cases hend⟩
  rcases h.inEndTag_cases with ⟨hclosing, low, hstacked, hlow⟩ |
    ⟨hclosing, top, below, low, hstack, hend, hlow, hstacked⟩
  · rw [settle_of_not_closing hclosing]
    refine Standing.between (Or.inl rfl) hclosing ?_ (Nat.le_trans hlow hlater)
    simpa [limit] using hstacked.mono hle
  · rcases settle_closing hstack hclosing hend hstacked hread (Nat.le_trans hlow hlater)
      hreaches.le (Or.inl hreaches) with ⟨hopen, hstart, hsettled⟩
    refine Standing.between (Or.inl rfl) hopen ?_ (Nat.le_refl _)
    simpa [limit] using hsettled.mono hle

/-!
# Runs
-/

theorem Sound.step_raw {element : RawElement} (h : r.Sound t (.rawBody element) offset)
    (hdrop : t.drop offset = c :: rest)
    (hkind : (ScanStep.next (.rawBody element) c rest).kind = .rawContent)
    (hafter : (ScanStep.next (.rawBody element) c rest).mode = .content) :
    (r.step ((ScanStep.next (.rawBody element) c rest).token c rest offset)).Sound t
      (ScanStep.next (.rawBody element) c rest).mode
      (offset + 1 + (ScanStep.next (.rawBody element) c rest).extra) := by
  have hreaches := h.reaches.next hdrop
  rw [step_aside r (Or.inr (Or.inr hkind))]
  rw [hafter] at hreaches ⊢
  refine ⟨hreaches, ?_, by intro hend; cases hend⟩
  cases h.standing with
  | between _ hclosing hstacked hlow =>
      have hlater : offset ≤ offset + 1 + (ScanStep.next (.rawBody element) c rest).extra := by
        omega
      rw [settle_of_not_closing hclosing]
      refine Standing.between (Or.inl rfl) hclosing ?_ (Nat.le_trans hlow hlater)
      simpa [limit] using hstacked.mono (Nat.le_trans h.limit_le hlater)
  | tag _ _ hpending _ _ =>
      rcases hpending.mode with ⟨hmode, _⟩ | hmode | hmode | hmode <;> cases hmode
  | closing _ _ hmode _ _ _ =>
      cases hmode

theorem Sound.step (h : r.Sound t mode offset) (hdrop : t.drop offset = c :: rest) :
    (r.step ((ScanStep.next mode c rest).token c rest offset)).Sound t
      (ScanStep.next mode c rest).mode (offset + 1 + (ScanStep.next mode c rest).extra) := by
  by_cases hopen : mode = .afterOpen
  · subst hopen
    exact h.step_afterOpen hdrop
  · rcases ScanStep.next_cases hopen c rest with hfresh | hmove
    · exact h.step_fresh hdrop hfresh
    · generalize hkind : (ScanStep.next mode c rest).kind = kind at hmove
      generalize hafter : (ScanStep.next mode c rest).mode = after at hmove
      rw [← hafter]
      cases hmove with
      | tagBlank hmode =>
          exact h.step_plain hdrop hmode (by rw [hafter]; exact hmode) (Or.inl hkind)
      | tag hmode hinside =>
          cases hinside with
          | selfClose =>
              exact h.step_selfClose hdrop hmode hafter hkind
          | close =>
              exact h.step_close hdrop hmode hafter hkind
          | attributeName =>
              exact h.step_attributeName hdrop hmode
                (by rw [hafter]; exact Or.inr (Or.inl rfl)) hkind
          | unknown =>
              exact h.step_plain hdrop hmode (by rw [hafter]; exact Or.inl rfl)
                (Or.inr (Or.inl hkind))
      | assign body =>
          exact h.step_plain hdrop (Or.inr (Or.inl rfl))
            (by rw [hafter]; exact Or.inr (Or.inr rfl)) (Or.inr (Or.inr hkind))
      | value body =>
          exact h.step_attributeValue hdrop (Or.inr (Or.inr rfl))
            (by rw [hafter]; exact Or.inl rfl) hkind
      | endBlank =>
          exact h.step_endBlank hdrop hkind hafter
      | endTag =>
          exact h.step_endTag hdrop hkind hafter
      | endClose =>
          exact h.step_endClose hdrop hkind hafter
      | endUnknown =>
          exact h.step_endUnknown hdrop hkind hafter
      | raw element =>
          exact h.step_raw hdrop hkind hafter

theorem sound_run (t : Text) (mode : ScanMode) (offset : Nat) (text : Text) :
    forall r : TreeReader, r.Sound t mode offset -> t.drop offset = text ->
      exists last,
        ((scanFrom mode offset text).foldl TreeReader.step r).Sound t last t.length := by
  fun_induction scanFrom mode offset text with
  | case1 mode offset =>
      intro r h hdrop
      have hlength : offset = t.length :=
        Nat.le_antisymm h.reaches.le (List.drop_eq_nil_iff.mp hdrop)
      subst hlength
      exact ⟨mode, h⟩
  | case2 mode offset c rest step ih =>
      intro r h hdrop
      exact ih _ (h.step hdrop) (Text.drop_step hdrop step.extra)

theorem Sound.finish_laid (h : r.Sound t mode t.length) :
    Laid t 0 t.length (r.finish t.length) := by
  have hend : t.drop t.length = [] := List.drop_length
  have hsettled : exists low,
      Stacked t t.length (r.settle t.length).roots (r.settle t.length).stack low ∧
        low ≤ t.length := by
    cases h.standing with
    | between _ hclosing hstacked hlow =>
        rw [settle_of_not_closing hclosing]
        exact ⟨_, hstacked.mono h.limit_le, hlow⟩
    | tag hstack hclosing hpending hstacked hlow =>
        have hover : forall token, (scanFrom mode t.length (t.drop t.length)).head? = some token ->
            token.kind.inHead = false := by
          intro token htoken
          rw [hend, scanFrom_nil] at htoken
          cases htoken
        rcases pending_over hpending h.reaches.le hover with ⟨hheld, hstop, hafterHead⟩
        have hnotClosed : forall token tokens, scanFrom mode t.length (t.drop t.length) =
            token :: tokens -> token.kind ≠ .startTagSelfClose := by
          intro token tokens hafter
          rw [hend, scanFrom_nil] at hafter
          cases hafter
        rw [← hafterHead] at hnotClosed
        rw [settle_of_not_closing hclosing, hstack]
        refine ⟨_, hstacked.push hlow (Nat.le_of_eq hstop) ⟨hheld, hnotClosed⟩
          hpending.endTagStart (by rw [hpending.children]; exact Laid.nil _ _), ?_⟩
        rw [hpending.children]
        exact Nat.le_of_eq hstop
    | closing hstack hclosing hmode hend hstacked hlow =>
        rcases settle_closing hstack hclosing hend hstacked (h.endTag hmode) hlow (Nat.le_refl _)
          (Or.inl (Reaches.finish t .content)) with ⟨_, _, hsettled⟩
        exact ⟨_, hsettled.mono (Nat.le_of_lt (h.endTag hmode).lt), Nat.le_refl _⟩
  rcases hsettled with ⟨low, hstacked, hlow⟩
  rcases Settling.abandon (Reaches.finish t .content) (Nat.le_refl _)
    (fun c hc _ _ => Or.inl hc.stop_le) (Or.inl hstacked) hlow (Nat.le_refl _) with
    ⟨later, hafter, _, hlength, _, _⟩
  have hempty : ((r.settle t.length).abandon t.length (r.settle t.length).stack.length).stack =
      [] := List.eq_nil_of_length_eq_zero (by omega)
  rcases hafter with hstacked | ⟨top, below, hstack, _⟩
  · rw [hempty] at hstacked
    cases hstacked with
    | bottom hroots =>
        exact hroots
  · rw [hempty] at hstack
    cases hstack

end TreeReader

theorem Document.ofText_laid (t : Text) : Laid t 0 t.length (Document.ofText t).roots := by
  have hscan : scan t 0 t.length = scanFrom .content 0 t := tokensOf_eq t
  rcases TreeReader.sound_run t .content 0 t {} (TreeReader.sound_start t) List.drop_zero with
    ⟨last, hsound⟩
  simp only [Document.ofText, hscan]
  exact hsound.finish_laid

end SfcServer
