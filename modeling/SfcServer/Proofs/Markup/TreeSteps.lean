import SfcServer.Proofs.Markup.TreeRun

/-!
# Steps of the tree reader

Every step of the scanner keeps the reader sound, so the elements of a document lie in
its text in order.
-/

namespace SfcServer
namespace TreeReader

variable {t : Text} {mode : ScanMode} {offset : Nat} {r : TreeReader} {c : Char} {rest : Text}

/-!
# Outside of tags
-/

theorem fresh_not_inHead {kind : TokenKind} {after : ScanMode} (h : ScanStep.Fresh kind after) :
    kind.inHead = false := by
  cases h <;> rfl

/-- Where a scan starts afresh, no start tag and no end tag is left half read. -/
theorem Sound.settle_fresh (h : r.Sound t mode offset) (hdrop : t.drop offset = c :: rest)
    (hfresh : ScanStep.next mode c rest = ScanStep.content c rest) :
    (r.settle offset).closing = false ∧
      exists low, Stacked t offset (r.settle offset).roots (r.settle offset).stack low ∧
        low ≤ offset := by
  cases h.standing with
  | between _ hclosing hstacked hlow =>
      rw [settle_of_not_closing hclosing]
      exact ⟨hclosing, _, hstacked.mono h.limit_le, hlow⟩
  | tag hstack hclosing hpending hstacked hlow =>
      have hover : forall token, (scanFrom mode offset (t.drop offset)).head? = some token ->
          token.kind.inHead = false := by
        intro token htoken
        rw [hdrop, scanFrom_cons, hfresh] at htoken
        cases htoken
        exact fresh_not_inHead (ScanStep.content_fresh c rest)
      rcases pending_over hpending h.reaches.le hover with ⟨hheld, hstop, hafterHead⟩
      have hnotClosed : forall token tokens, scanFrom mode offset (t.drop offset) =
          token :: tokens -> token.kind ≠ .startTagSelfClose := by
        intro token tokens hafter hkind
        rw [hdrop, scanFrom_cons, hfresh] at hafter
        injection hafter with htoken _
        rw [← htoken, ScanStep.token_kind] at hkind
        have hkinds := ScanStep.content_fresh c rest
        rw [hkind] at hkinds
        cases hkinds
      rw [← hafterHead] at hnotClosed
      have hpush := hstacked.push hlow (Nat.le_of_eq hstop) ⟨hheld, hnotClosed⟩
        hpending.endTagStart (by rw [hpending.children]; exact Laid.nil _ _)
      rw [settle_of_not_closing hclosing, hstack]
      refine ⟨hclosing, _, hpush, ?_⟩
      rw [hpending.children, hstop]
      exact Nat.le_refl _
  | closing hstack hclosing hmode hend hstacked hlow =>
      have hcontent := h.reaches.fresh hdrop hfresh
      rcases settle_closing hstack hclosing hend hstacked (h.endTag hmode) hlow hcontent.le
        (Or.inl hcontent) with ⟨hopen, _, hsettled⟩
      exact ⟨hopen, _, hsettled.mono (Nat.le_of_lt (h.endTag hmode).lt), Nat.le_refl _⟩

theorem step_aside (r : TreeReader) {token : Token}
    (h : token.kind = .comment ∨ token.kind = .content ∨ token.kind = .rawContent) :
    r.step token = r.settle token.offset := by
  rcases h with hkind | hkind | hkind <;> simp only [step, hkind]

theorem step_startTagOpen (r : TreeReader) {token : Token} (h : token.kind = .startTagOpen) :
    r.step token =
      { r.settle token.offset with
        stack := { start := token.offset } :: (r.settle token.offset).stack } := by
  simp only [step, h]

theorem step_endTagOpen (r : TreeReader) {token : Token} (h : token.kind = .endTagOpen) :
    r.step token = { r.settle token.offset with endTagStart := token.offset } := by
  simp only [step, h]

theorem Sound.step_fresh (h : r.Sound t mode offset) (hdrop : t.drop offset = c :: rest)
    (hfresh : ScanStep.next mode c rest = ScanStep.content c rest) :
    (r.step ((ScanStep.next mode c rest).token c rest offset)).Sound t
      (ScanStep.next mode c rest).mode (offset + 1 + (ScanStep.next mode c rest).extra) := by
  rcases h.settle_fresh hdrop hfresh with ⟨hopen, low, hstacked, hlow⟩
  have hreaches := h.reaches.next hdrop
  have hcontent := h.reaches.fresh hdrop hfresh
  have hkinds := ScanStep.content_fresh c rest
  rw [← hfresh] at hkinds
  generalize hkind : (ScanStep.next mode c rest).kind = kind at hkinds
  generalize hafter : (ScanStep.next mode c rest).mode = after at hkinds hreaches ⊢
  have hlater : offset ≤ offset + 1 + (ScanStep.next mode c rest).extra := by omega
  have haside : after = .content -> kind = .comment ∨ kind = .content ->
      (r.step ((ScanStep.next mode c rest).token c rest offset)).Sound t after
        (offset + 1 + (ScanStep.next mode c rest).extra) := by
    intro hmode hor
    subst hmode
    have hkinds : (ScanStep.next mode c rest).kind = .comment ∨
        (ScanStep.next mode c rest).kind = .content ∨
        (ScanStep.next mode c rest).kind = .rawContent := by
      rw [hkind]
      exact hor.elim Or.inl (fun hcontent => Or.inr (Or.inl hcontent))
    rw [step_aside r hkinds]
    refine ⟨hreaches, ?_, by intro hend; cases hend⟩
    exact Standing.between (Or.inl rfl) hopen (hstacked.mono hlater) (Nat.le_trans hlow hlater)
  cases hkinds with
  | comment =>
      exact haside rfl (Or.inl rfl)
  | content =>
      exact haside rfl (Or.inr rfl)
  | startTagOpen =>
      rcases ScanStep.content_startTagOpen (by rw [← hfresh]; exact hkind) with
        ⟨hc, hextra, d, more, hrest, hletter⟩
      rw [← hfresh] at hextra
      rw [hextra] at hreaches ⊢
      subst hc
      have hopens : Opens t offset := ⟨hcontent, d, more, by rw [hdrop, hrest], hletter⟩
      have hnext : t.drop (offset + 1) = d :: more := by
        rw [← hrest]
        exact Text.drop_step hdrop 0
      rw [step_startTagOpen r hkind]
      refine ⟨hreaches, ?_, by intro hend; cases hend⟩
      refine Standing.tag rfl hopen ?_ (hstacked.mono (Nat.le_add_right _ _)) hlow
      constructor
      · exact hopens
      · intro _
        rfl
      · intro hmode
        exact absurd rfl hmode
      · exact ⟨[], HeadRead.opened hopens, by intro token hmem; cases hmem⟩
      · rfl
      · rfl
      · rfl
      · exact Or.inl ⟨rfl, d, more, hnext, isTagNameChar_of_isLetter hletter⟩
  | endTagOpen =>
      have hfirst := h.reaches.token_mem hdrop
      rcases ScanStep.content_endTagOpen (by rw [← hfresh]; exact hkind) with
        ⟨hc, hextra, more, hrest⟩
      have hopens : EndTagOpens t offset := by
        rw [ScanStep.token, hkind, hfresh, hextra, hc, hrest] at hfirst
        exact hfirst
      rw [step_endTagOpen r hkind]
      refine ⟨hreaches, ?_, ?_⟩
      · refine Standing.between (Or.inr (Or.inl rfl)) hopen ?_ (Nat.le_trans hlow hlater)
        simpa [limit] using hstacked
      · intro _
        have hspans : EndTagSpans t offset
            (offset + 1 + (ScanStep.next mode c rest).extra) := by
          refine ⟨hcontent, hopens, ?_⟩
          intro token hmem hlt hstop
          rw [h.reaches.token_eq hdrop hmem (Nat.le_of_lt hlt) hstop] at hlt
          exact absurd hlt (Nat.lt_irrefl _)
        refine ⟨hspans, ?_⟩
        simp only [ScanStep.token_offset]
        omega

/-!
# In a start tag
-/

theorem inTag_unique {body other : Option RawElement} (h : mode.InTag body)
    (hother : mode.InTag other) : body = other := by
  rcases h with h | h | h <;> rcases hother with hother | hother | hother <;>
    rw [h] at hother <;> cases hother <;> rfl

/-- In a start tag, the innermost open element is the one whose start tag is being read. -/
theorem Sound.pending (h : r.Sound t mode offset) (hmode : ¬ mode.Between) :
    exists top below low, r.stack = top :: below ∧ r.closing = false ∧
      top.Pending t mode offset ∧ Stacked t offset r.roots below low ∧ low ≤ top.start := by
  cases h.standing with
  | between hbetween =>
      exact absurd hbetween hmode
  | tag hstack hclosing hpending hstacked hlow =>
      exact ⟨_, _, _, hstack, hclosing, hpending, hstacked, hlow⟩
  | closing _ _ hend =>
      exact absurd (Or.inr (Or.inl hend)) hmode

theorem inTag_not_between {body : Option RawElement} (h : mode.InTag body) : ¬ mode.Between := by
  intro hbetween
  rcases h with h | h | h <;> rcases hbetween with hb | hb | ⟨element, hb⟩ <;>
    rw [h] at hb <;> cases hb

theorem Sound.pending_inTag {body : Option RawElement} (h : r.Sound t mode offset)
    (hmode : mode.InTag body) :
    exists top below low, r.stack = top :: below ∧ r.closing = false ∧
      top.Pending t mode offset ∧ Stacked t offset r.roots below low ∧ low ≤ top.start ∧
      body = RawElement.ofTag? top.tag := by
  rcases h.pending (inTag_not_between hmode) with
    ⟨top, below, low, hstack, hclosing, hpending, hstacked, hlow⟩
  refine ⟨top, below, low, hstack, hclosing, hpending, hstacked, hlow, ?_⟩
  rcases hpending.mode with ⟨hopen, _⟩ | htag
  · rcases hmode with hmode | hmode | hmode <;> rw [hmode] at hopen <;> cases hopen
  · exact inTag_unique hmode htag

theorem Sound.stay (h : r.Sound t mode offset) (hdrop : t.drop offset = c :: rest)
    {top : OpenElement} {below : List OpenElement} {low : Nat}
    {after : TreeReader} (hroots : after.roots = r.roots) (hstack : after.stack = top :: below)
    (hclosing : after.closing = false) (hstacked : Stacked t offset r.roots below low)
    (hlow : low ≤ top.start)
    (hpending : top.Pending t (ScanStep.next mode c rest).mode
      (offset + 1 + (ScanStep.next mode c rest).extra)) :
    after.Sound t (ScanStep.next mode c rest).mode
      (offset + 1 + (ScanStep.next mode c rest).extra) := by
  refine ⟨h.reaches.next hdrop, ?_, ?_⟩
  · refine Standing.tag hstack hclosing hpending ?_ hlow
    rw [hroots]
    exact hstacked.mono (by omega)
  · intro hend
    rcases hpending.mode with ⟨hmode, _⟩ | hmode | hmode | hmode <;>
      rw [hmode] at hend <;> cases hend

theorem Sound.step_afterOpen (h : r.Sound t .afterOpen offset)
    (hdrop : t.drop offset = c :: rest) :
    (r.step ((ScanStep.next .afterOpen c rest).token c rest offset)).Sound t
      (ScanStep.next .afterOpen c rest).mode
      (offset + 1 + (ScanStep.next .afterOpen c rest).extra) := by
  have hmode : ¬ ScanMode.afterOpen.Between := by
    intro hbetween
    rcases hbetween with hb | hb | ⟨element, hb⟩ <;> cases hb
  rcases h.pending hmode with ⟨top, below, low, hstack, hclosing, hpending, hstacked, hlow⟩
  have hname : isTagNameChar c = true := by
    rcases hpending.mode with ⟨_, d, more, hnext, hname⟩ | hin | hin | hin
    · rw [hdrop] at hnext
      injection hnext with hd _
      rw [hd]
      exact hname
    · cases hin
    · cases hin
    · cases hin
  have hnext := ScanStep.next_afterOpen rest hname
  have hkind : (ScanStep.next .afterOpen c rest).kind = .startTag := by rw [hnext]
  have hstep : r.step ((ScanStep.next .afterOpen c rest).token c rest offset) =
      { r with stack :=
        { top with tag := ((ScanStep.next .afterOpen c rest).token c rest offset).text } ::
          below } := by
    simp only [step, ScanStep.token_kind, hkind, settle_of_not_closing hclosing,
      mapTop_of_stack hstack]
  have htag : HeadNamed t top.start
      ((ScanStep.next .afterOpen c rest).token c rest offset).text := by
    rw [HeadNamed, ← hpending.unnamed rfl, ← hkind]
    exact h.reaches.token_mem hdrop
  rw [hstep]
  refine h.stay hdrop rfl rfl hclosing hstacked hlow ?_
  apply pending_next hpending hdrop
  · rw [hkind]
    rfl
  · rw [hnext]
    exact Or.inl rfl
  · rfl
  · exact htag
  · rfl
  · rfl
  · rfl
  · intro a ha
    exact ⟨a, ha, rfl⟩
  · intro hattribute
    rw [hkind] at hattribute
    cases hattribute

theorem Sound.step_plain {body : Option RawElement} (h : r.Sound t mode offset)
    (hdrop : t.drop offset = c :: rest) (hmode : mode.InTag body)
    (hafter : (ScanStep.next mode c rest).mode.InTag body)
    (hkind : (ScanStep.next mode c rest).kind = .whitespace ∨
      (ScanStep.next mode c rest).kind = .unknown ∨
      (ScanStep.next mode c rest).kind = .delimiterAssign) :
    (r.step ((ScanStep.next mode c rest).token c rest offset)).Sound t
      (ScanStep.next mode c rest).mode (offset + 1 + (ScanStep.next mode c rest).extra) := by
  rcases h.pending_inTag hmode with
    ⟨top, below, low, hstack, hclosing, hpending, hstacked, hlow, hbody⟩
  have hstep : r.step ((ScanStep.next mode c rest).token c rest offset) = r := by
    rcases hkind with hkind | hkind | hkind <;>
      simp only [step, ScanStep.token_kind, hkind, settle_of_not_closing hclosing]
  rw [hstep]
  refine h.stay hdrop rfl hstack hclosing hstacked hlow ?_
  apply pending_next hpending hdrop
  · rcases hkind with hkind | hkind | hkind <;> rw [hkind] <;> rfl
  · rw [← hbody]
    exact hafter
  · rfl
  · exact hpending.name hmode.ne_afterOpen
  · rfl
  · rfl
  · rfl
  · intro a ha
    exact ⟨a, ha, rfl⟩
  · intro hattribute
    rcases hkind with hkind | hkind | hkind <;> rw [hkind] at hattribute <;> cases hattribute

theorem Sound.step_attributeName {body : Option RawElement} (h : r.Sound t mode offset)
    (hdrop : t.drop offset = c :: rest) (hmode : mode.InTag body)
    (hafter : (ScanStep.next mode c rest).mode.InTag body)
    (hkind : (ScanStep.next mode c rest).kind = .attributeName) :
    (r.step ((ScanStep.next mode c rest).token c rest offset)).Sound t
      (ScanStep.next mode c rest).mode (offset + 1 + (ScanStep.next mode c rest).extra) := by
  rcases h.pending_inTag hmode with
    ⟨top, below, low, hstack, hclosing, hpending, hstacked, hlow, hbody⟩
  let name := ((ScanStep.next mode c rest).token c rest offset).text
  have hstep : r.step ((ScanStep.next mode c rest).token c rest offset) =
      { r with
        stack := { top with attributes := Attribute.set name none top.attributes } :: below
        valueOf := some name } := by
    simp only [step, ScanStep.token_kind, hkind, settle_of_not_closing hclosing,
      mapTop_of_stack hstack]
    rfl
  rw [hstep]
  refine h.stay hdrop rfl rfl hclosing hstacked hlow ?_
  apply pending_next hpending hdrop
  · rw [hkind]
    rfl
  · rw [hbody] at hafter
    exact hafter
  · rfl
  · exact hpending.name hmode.ne_afterOpen
  · rfl
  · rfl
  · rfl
  · intro a ha
    exact Attribute.mem_set_of_mem name none ha
  · intro _
    exact Attribute.exists_mem_set name none top.attributes

theorem Sound.step_attributeValue {body : Option RawElement} (h : r.Sound t mode offset)
    (hdrop : t.drop offset = c :: rest) (hmode : mode.InTag body)
    (hafter : (ScanStep.next mode c rest).mode.InTag body)
    (hkind : (ScanStep.next mode c rest).kind = .attributeValue) :
    (r.step ((ScanStep.next mode c rest).token c rest offset)).Sound t
      (ScanStep.next mode c rest).mode (offset + 1 + (ScanStep.next mode c rest).extra) := by
  rcases h.pending_inTag hmode with
    ⟨top, below, low, hstack, hclosing, hpending, hstacked, hlow, hbody⟩
  have hhead : (ScanStep.next mode c rest).kind.inHead = true := by
    rw [hkind]
    rfl
  have hnone : (ScanStep.next mode c rest).kind = .attributeName -> False := by
    intro hname
    rw [hkind] at hname
    cases hname
  have hname := hpending.name hmode.ne_afterOpen
  rw [hbody] at hafter
  let value := some ((ScanStep.next mode c rest).token c rest offset).text
  cases hvalueOf : r.valueOf with
  | none =>
      have hstep : r.step ((ScanStep.next mode c rest).token c rest offset) = r := by
        simp only [step, ScanStep.token_kind, hkind, settle_of_not_closing hclosing, hvalueOf]
      rw [hstep]
      refine h.stay hdrop rfl hstack hclosing hstacked hlow ?_
      exact pending_next hpending hdrop hhead hafter rfl hname rfl rfl rfl
        (fun a ha => ⟨a, ha, rfl⟩) (fun hname => (hnone hname).elim)
  | some name =>
      have hstep : r.step ((ScanStep.next mode c rest).token c rest offset) =
          { r with
            stack := { top with attributes := Attribute.set name value top.attributes } :: below
            valueOf := none } := by
        simp only [step, ScanStep.token_kind, hkind, settle_of_not_closing hclosing, hvalueOf,
          mapTop_of_stack hstack]
        rfl
      rw [hstep]
      refine h.stay hdrop rfl rfl hclosing hstacked hlow ?_
      exact pending_next hpending hdrop hhead hafter rfl hname rfl rfl rfl
        (fun a ha => Attribute.mem_set_of_mem name value ha) (fun hname => (hnone hname).elim)

/-!
# The end of a start tag
-/

/-- The start tag of an open element ends at an offset with a token of some kind. -/
structure HeadClosed (t : Text) (kind : TokenKind) (stop : Nat) (e : OpenElement) : Prop where
  held : e.HeadHeld t
  last : exists token tokens, afterHead t e.start = token :: tokens ∧ token.kind = kind ∧
    token.stop = stop
  head_le : headStop t e.start ≤ stop
  endTagStart : e.endTagStart = none
  children : e.children = []

theorem Sound.close_head {body : Option RawElement} {kind : TokenKind} (h : r.Sound t mode offset)
    (hdrop : t.drop offset = c :: rest) (hmode : mode.InTag body)
    (hkind : (ScanStep.next mode c rest).kind = kind)
    (hclose : kind = .startTagClose ∨ kind = .startTagSelfClose) :
    exists top below low, r.stack = top :: below ∧ r.closing = false ∧
      body = RawElement.ofTag? top.tag ∧
      Stacked t (offset + 1 + (ScanStep.next mode c rest).extra) r.roots below low ∧
      low ≤ top.start ∧
      HeadClosed t kind (offset + 1 + (ScanStep.next mode c rest).extra)
        { top with startTagEnd := some (offset + 1 + (ScanStep.next mode c rest).extra) } := by
  rcases h.pending_inTag hmode with
    ⟨top, below, low, hstack, hclosing, hpending, hstacked, hlow, hbody⟩
  have hover : forall token, (scanFrom mode offset (t.drop offset)).head? = some token ->
      token.kind.inHead = false := by
    intro token htoken
    rw [hdrop, scanFrom_cons] at htoken
    cases htoken
    rw [ScanStep.token_kind, hkind]
    rcases hclose with hclose | hclose <;> rw [hclose] <;> rfl
  rcases pending_over hpending h.reaches.le hover with ⟨hheld, hstop, hafterHead⟩
  rw [hdrop, scanFrom_cons] at hafterHead
  have hlast := ScanStep.token_stop mode c rest offset
  refine ⟨top, below, low, hstack, hclosing, hbody, hstacked.mono (by omega), hlow, ?_⟩
  constructor
  · refine ⟨hheld.opens, hheld.name, hheld.named, ?_⟩
    intro stop heq
    cases heq
    exact ⟨_, _, hafterHead, by rw [ScanStep.token_kind, hkind]; exact hclose, hlast⟩
  · exact ⟨_, _, hafterHead, hkind, hlast⟩
  · rw [hstop]
    omega
  · exact hpending.endTagStart
  · exact hpending.children

theorem attach_closed {low stop : Nat} {e : OpenElement} {kind : TokenKind}
    (h : Stacked t stop r.roots r.stack low) (hlow : low ≤ e.start)
    (hclosed : HeadClosed t kind stop e) (hreaches : Reaches t .content stop) :
    Stacked t stop (r.attach ({ e with closed := true }.finish stop)).roots
      (r.attach ({ e with closed := true }.finish stop)).stack stop := by
  have hinside : Laid t (headStop t e.start) stop e.children := by
    rw [hclosed.children]
    exact Laid.nil _ _
  have hcontent : ({ e with closed := true }.finish stop).contentStop = stop := by
    simp [OpenElement.finish, Element.contentStop, hclosed.endTagStart]
  have hdone : e.Becomes t stop (frontier (headStop t e.start) e.children)
      ({ e with closed := true }.finish stop) := by
    constructor
    · rfl
    · rfl
    · rfl
    · rfl
    · rfl
    · exact hcontent
    · exact Nat.le_refl _
    · exact hreaches.le
    · intro start hstart
      simp only [OpenElement.finish, hclosed.endTagStart] at hstart
      cases hstart
    · intro other _ _ hlast
      rw [hclosed.children] at hlast
      exact Or.inl (Nat.le_trans hlast hclosed.head_le)
    · exact Or.inl hreaches
  have hself : forall other more, afterHead t e.start = other :: more ->
      other.kind = .startTagSelfClose ->
      ({ e with closed := true }.finish stop).stop = other.stop ∧
        ({ e with closed := true }.finish stop).endTagStart = none := by
    intro other more hafter _
    rcases hclosed.last with ⟨token, tokens, hafterHead, _, hstop⟩
    rw [hafterHead] at hafter
    cases hafter
    exact ⟨hstop.symm, hclosed.endTagStart⟩
  have hrecorded := hdone.recorded hclosed.held hclosed.head_le hself hinside (Nat.le_refl _)
  refine h.attach_recorded hlow (Nat.le_of_eq hcontent) hrecorded ?_
  rw [hcontent]
  exact hinside

theorem Sound.step_selfClose {body : Option RawElement} (h : r.Sound t mode offset)
    (hdrop : t.drop offset = c :: rest) (hmode : mode.InTag body)
    (hafter : (ScanStep.next mode c rest).mode = .content)
    (hkind : (ScanStep.next mode c rest).kind = .startTagSelfClose) :
    (r.step ((ScanStep.next mode c rest).token c rest offset)).Sound t
      (ScanStep.next mode c rest).mode (offset + 1 + (ScanStep.next mode c rest).extra) := by
  rcases h.close_head hdrop hmode hkind (Or.inr rfl) with
    ⟨top, below, low, hstack, hclosing, _, hstacked, hlow, hclosed⟩
  have hreaches := h.reaches.next hdrop
  rw [hafter] at hreaches ⊢
  generalize hstop : offset + 1 + (ScanStep.next mode c rest).extra = stop at *
  have hstep : r.step ((ScanStep.next mode c rest).token c rest offset) =
      { r with stack := below, valueOf := none }.attach
        ({ top with startTagEnd := some stop, closed := true }.finish stop) := by
    simp only [step, ScanStep.token_kind, hkind, settle_of_not_closing hclosing,
      ScanStep.token_stop, hstop]
    rw [mapTop_of_stack (r := { r with valueOf := none }) hstack, pop_of_stack rfl]
  rw [hstep]
  have hattached := attach_closed (r := { r with stack := below, valueOf := none })
    (e := { top with startTagEnd := some stop }) hstacked hlow hclosed hreaches
  refine ⟨hreaches, ?_, by intro hend; cases hend⟩
  refine Standing.between (Or.inl rfl) ?_ ?_ (Nat.le_refl _)
  · rw [attach_closing]
    exact hclosing
  · simpa [limit] using hattached

theorem ofTag?_of_void {tag : Text} (h : voidElements.contains (Text.lower tag) = true) :
    RawElement.ofTag? tag = none := by
  have hscript : Text.lower tag ≠ RawElement.script.name := by
    intro heq
    rw [heq] at h
    revert h
    decide
  have hstyle : Text.lower tag ≠ RawElement.style.name := by
    intro heq
    rw [heq] at h
    revert h
    decide
  simp [RawElement.ofTag?, hscript, hstyle]

theorem afterClose_between (body : Option RawElement) : (ScanMode.afterClose body).Between := by
  cases body with
  | none =>
      exact Or.inl rfl
  | some element =>
      exact Or.inr (Or.inr ⟨element, rfl⟩)

theorem Sound.step_close {body : Option RawElement} (h : r.Sound t mode offset)
    (hdrop : t.drop offset = c :: rest) (hmode : mode.InTag body)
    (hafter : (ScanStep.next mode c rest).mode = ScanMode.afterClose body)
    (hkind : (ScanStep.next mode c rest).kind = .startTagClose) :
    (r.step ((ScanStep.next mode c rest).token c rest offset)).Sound t
      (ScanStep.next mode c rest).mode (offset + 1 + (ScanStep.next mode c rest).extra) := by
  rcases h.close_head hdrop hmode hkind (Or.inl rfl) with
    ⟨top, below, low, hstack, hclosing, hbody, hstacked, hlow, hclosed⟩
  have hreaches := h.reaches.next hdrop
  rw [hafter] at hreaches ⊢
  generalize hstop : offset + 1 + (ScanStep.next mode c rest).extra = stop at *
  have hend : ScanMode.afterClose body ≠ .inEndTag := by
    cases body <;> simp [ScanMode.afterClose]
  have hstep : r.step ((ScanStep.next mode c rest).token c rest offset) =
      if voidElements.contains (Text.lower top.tag) then
        { r with stack := below, valueOf := none }.attach
          ({ top with startTagEnd := some stop, closed := true }.finish stop)
      else
        { r with stack := { top with startTagEnd := some stop } :: below, valueOf := none } := by
    simp only [step, ScanStep.token_kind, hkind, settle_of_not_closing hclosing,
      ScanStep.token_stop, hstop, mapTop_of_stack hstack]
    rw [mapTop_of_stack rfl, pop_of_stack rfl]
  rw [hstep]
  split
  · rename_i hvoid
    rw [hbody, ofTag?_of_void hvoid] at hreaches ⊢
    have hattached := attach_closed (r := { r with stack := below, valueOf := none })
      (e := { top with startTagEnd := some stop }) hstacked hlow hclosed hreaches
    refine ⟨hreaches, ?_, by intro hend; cases hend⟩
    refine Standing.between (Or.inl rfl) ?_ ?_ (Nat.le_refl _)
    · rw [attach_closing]
      exact hclosing
    · simpa [limit, ScanMode.afterClose] using hattached
  · have hnotClosed : forall token tokens, afterHead t top.start = token :: tokens ->
        token.kind ≠ .startTagSelfClose := by
      intro token tokens hafterHead hself
      rcases hclosed.last with ⟨last, _, hlast, hlastKind, _⟩
      rw [hlast] at hafterHead
      cases hafterHead
      rw [hlastKind] at hself
      cases hself
    have hpush := Stacked.push (e := { top with startTagEnd := some stop }) hstacked hlow
      hclosed.head_le ⟨hclosed.held, hnotClosed⟩ hclosed.endTagStart
      (by rw [hclosed.children]; exact Laid.nil _ _)
    refine ⟨hreaches, ?_, fun heq => absurd heq hend⟩
    refine Standing.between (afterClose_between body) hclosing
      (by simpa [limit, hend] using hpush) ?_
    rw [hclosed.children]
    exact hclosed.head_le

end TreeReader
end SfcServer
