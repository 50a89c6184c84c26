import SfcServer.Proofs.Markup.Cutting
import SfcServer.Proofs.Markup.Layout
import SfcServer.Proofs.Text.Parts

/-!
# Scanning a part of a text

The part of a text between two offsets is scanned as if it were a text of its own.  When
the scan of the whole text passes the first of them outside of tags, and no token
goes across the second, both scans take the same tokens there.
-/

namespace SfcServer

/-- No token goes across an offset, and no name of a tag begins at it. -/
structure Cut (t : Text) (stop : Nat) : Prop where
  le : stop ≤ t.length
  stop_le : forall token, token ∈ tokensOf t -> token.offset < stop -> token.stop ≤ stop
  kind : forall token, token ∈ tokensOf t -> token.offset = stop ->
    token.kind ≠ .startTag ∧ token.kind ≠ .endTag

variable {t : Text} {mode : ScanMode} {offset stop : Nat} {c : Char} {rest : Text}

theorem drop_eq_cons {t : Text} {offset : Nat} (h : offset < t.length) :
    exists c rest, t.drop offset = c :: rest :=
  ⟨t[offset], t.drop (offset + 1), List.drop_eq_getElem_cons h⟩

theorem ScanStep.Fresh.not_name {kind : TokenKind} (h : ScanStep.Fresh kind mode) :
    kind ≠ .startTag ∧ kind ≠ .endTag := by
  cases h <;> simp

theorem Reaches.cut (h : Reaches t .content offset) : Cut t offset where
  le := h.le
  stop_le := by
    intro token hmem hlt
    exact h.stop_le hmem hlt
  kind := by
    intro token hmem heq
    have hbounds := (tokensOf_tiled t).mem_bounds hmem
    have hbound : offset < t.length := by omega
    rcases drop_eq_cons hbound with ⟨c, rest, hdrop⟩
    have htoken := h.token_eq hdrop hmem (by omega) (by omega)
    rw [htoken]
    exact (ScanStep.content_fresh c rest).not_name

theorem Cut.of_unknown {token : Token} (hmem : token ∈ tokensOf t) (hkind : token.kind = .unknown) :
    Cut t token.offset where
  le := by
    have hbounds := (tokensOf_tiled t).mem_bounds hmem
    omega
  stop_le := by
    intro other hother hlt
    have hbounds := (tokensOf_tiled t).mem_bounds hmem
    rcases (tokensOf_tiled t).separated hother hmem with heq | hle | hle
    · rw [heq] at hlt
      omega
    · exact hle
    · omega
  kind := by
    intro other hother heq
    have hbounds := (tokensOf_tiled t).mem_bounds hmem
    have hotherBounds := (tokensOf_tiled t).mem_bounds hother
    rcases (tokensOf_tiled t).separated hother hmem with hsame | hle | hle
    · rw [hsame, hkind]
      simp
    · omega
    · omega

namespace Element
namespace Recorded

variable {e : Element}

theorem cut_stop (h : e.Recorded t) : Cut t e.stop := by
  rcases h.ended with hreaches | ⟨token, hmem, hkind, hoffset⟩
  · exact hreaches.cut
  · rw [← hoffset]
    exact Cut.of_unknown hmem hkind

theorem cut_contentStop (h : e.Recorded t) : Cut t e.contentStop := by
  unfold contentStop
  cases hend : e.endTagStart with
  | none =>
      exact h.cut_stop
  | some start =>
      exact (h.endTag start hend).reaches.cut

end Recorded
end Element

/-!
# What a cut leaves whole
-/

theorem ScanStep.next_startTagOpen (h : (next mode c rest).kind = .startTagOpen) :
    next mode c rest = content c rest := by
  by_cases hmode : mode = .afterOpen
  · subst hmode
    simp only [next, afterOpen] at h ⊢
    split
    · rename_i hname
      rw [if_pos hname] at h
      cases h
    · rename_i hname
      rw [if_neg hname] at h
      cases hblank : Text.isBlank c with
      | true =>
          simp only [inTag, hblank, if_true] at h
          cases h
      | false =>
          rcases inTag_cases none rest hblank with hfresh | hmove
          · exact hfresh
          · rw [h] at hmove
            cases hmove
  · rcases next_cases hmode c rest with hfresh | hmove
    · exact hfresh
    · rw [h] at hmove
      cases hmove with
      | tag _ htag =>
          cases htag

namespace Cut

/-- A cut does not fall between the `<` of a start tag and its name. -/
theorem after_open (hcut : Cut t stop) (h : Reaches t mode offset)
    (hdrop : t.drop offset = c :: rest)
    (hkind : (ScanStep.next mode c rest).kind = .startTagOpen) : stop ≠ offset + 1 := by
  intro hstop
  have hfresh := ScanStep.next_startTagOpen hkind
  rw [hfresh] at hkind
  rcases ScanStep.content_startTagOpen hkind with ⟨_, hextra, d, more, hrest, hletter⟩
  have hmode : (ScanStep.content c rest).mode = .afterOpen := by
    have hcases := ScanStep.content_fresh c rest
    rw [hkind] at hcases
    generalize (ScanStep.content c rest).mode = after at hcases
    cases hcases
    rfl
  have hnext := h.next hdrop
  rw [hfresh, hextra, hmode] at hnext
  have hdrop' : t.drop (offset + 1 + 0) = d :: more := by
    rw [← hrest]
    exact Text.drop_step hdrop 0
  have hmem := hnext.token_mem hdrop'
  rw [ScanStep.next_afterOpen more (isTagNameChar_of_isLetter hletter)] at hmem
  exact (hcut.kind _ hmem hstop.symm).1 rfl

theorem after_close (hcut : Cut t stop) (h : Reaches t .content offset) {e : RawElement}
    (hcloses : e.closesAt (t.drop offset) = true) (hlt : offset < stop) :
    offset + 2 + e.name.length ≤ stop := by
  rcases (e.closesAt_iff _).mp hcloses with ⟨body, after, hdrop, hname, _⟩
  rcases dropFolded?_eq_some hname with ⟨front, hbody, hlength, hall⟩
  have hletters : forall d, d ∈ front -> isTagNameChar d = true := by
    intro d hd
    rcases hall d hd with ⟨letter, hletter, hfolds⟩
    exact isTagNameChar_of_isLetter (isLetter_of_foldsTo hletter hfolds)
  have hopen : ScanStep.next .content '<' ('/' :: body) = ⟨.endTagOpen, 1, .inEndTag⟩ := rfl
  have hfirst := hcut.stop_le _ (h.token_mem hdrop) hlt
  rw [ScanStep.token_stop, hopen] at hfirst
  simp only at hfirst
  have hnext := h.next hdrop
  rw [hopen] at hnext
  have hdrop' : t.drop (offset + 1 + 1) = body := Text.drop_step hdrop 1
  cases front with
  | nil =>
      simp only [List.length_nil] at hlength
      omega
  | cons d more =>
      have hd : isTagNameChar d = true := hletters d List.mem_cons_self
      rw [hbody, List.cons_append] at hdrop'
      have hstep : ScanStep.next .inEndTag d (more ++ after) =
          ⟨.endTag, runLength isTagNameChar (more ++ after), .inEndTag⟩ := by
        have hblank : Text.isBlank d = false := by
          simp only [isTagNameChar, Bool.not_eq_true', Bool.or_eq_false_iff] at hd
          exact hd.1.1.1.1.1.1.1
        simp only [ScanStep.next, ScanStep.inEndTag, hblank, hd, if_true]
        simp
      have hmem := hnext.token_mem hdrop'
      have hrun : more.length ≤ runLength isTagNameChar (more ++ after) := by
        rw [runLength, List.takeWhile_append_of_pos]
        · rw [List.length_append]
          exact Nat.le_add_right _ _
        · intro x hx
          exact hletters x (List.mem_cons_of_mem _ hx)
      simp only [List.length_cons] at hlength
      by_cases heq : stop = offset + 1 + 1
      · rw [hstep] at hmem
        exact absurd rfl (hcut.kind _ hmem heq.symm).2
      · have hsecond := hcut.stop_le _ hmem (by simp only [ScanStep.token_offset]; omega)
        rw [ScanStep.token_stop, hstep] at hsecond
        simp only at hsecond
        omega

end Cut

/-!
# Both scans take the same tokens
-/

/-- A raw body ends at a cut, or before the cut at its end tag. -/
theorem Reaches.rawBody_slice {e : RawElement} {short : Text} (h : Reaches t (.rawBody e) offset)
    (hcut : Cut t stop) (hlt : offset < stop) (hdrop : t.drop offset = c :: (short ++ t.drop stop))
    (hlength : offset + 1 + short.length = stop) :
    e.bodyLength (c :: (short ++ t.drop stop)) = (c :: short).length ∨
      e.closesAt ((c :: short).drop (e.bodyLength (c :: (short ++ t.drop stop)))) = true := by
  have hfits := hcut.stop_le _ (h.token_mem hdrop) hlt
  have hnext := h.next hdrop
  rw [ScanStep.token_stop] at hfits
  cases hcloses : e.closesAt (c :: (short ++ t.drop stop)) with
  | true =>
      -- There is no body, and the end tag of the element stands before the cut.
      have hfresh : Reaches t .content offset := by
        apply h.fresh hdrop
        simp [ScanStep.next, ScanStep.rawBody, hcloses]
      have hafter := hcut.after_close hfresh (by rw [hdrop]; exact hcloses) hlt
      rw [RawElement.bodyLength, if_pos hcloses, List.drop_zero]
      have hwhole : e.closesAt (c :: short ++ t.drop stop) = true := hcloses
      refine Or.inr (RawElement.closesAt_of_append hwhole ?_)
      rw [List.length_cons]
      omega
  | false =>
      have hstep : ScanStep.next (.rawBody e) c (short ++ t.drop stop) =
          ⟨.rawContent, e.bodyLength (short ++ t.drop stop), .content⟩ := by
        simp [ScanStep.next, ScanStep.rawBody, hcloses]
      have hbody : e.bodyLength (c :: (short ++ t.drop stop)) =
          e.bodyLength (short ++ t.drop stop) + 1 := by
        rw [RawElement.bodyLength, if_neg (by simp [hcloses]), Nat.add_comm]
      have hstop := e.bodyLength_stop (short ++ t.drop stop)
      rw [hstep] at hfits hnext
      simp only at hfits hnext
      rw [hbody, List.length_cons, List.drop_succ_cons]
      generalize e.bodyLength (short ++ t.drop stop) = length at *
      -- The body ends at the cut, or its end tag stands before the cut.
      by_cases heq : length = short.length
      · exact Or.inl (by omega)
      · have hafter : t.drop (offset + 1 + length) = short.drop length ++ t.drop stop := by
          rw [Text.drop_step hdrop, List.drop_append_of_le_length (by omega)]
        rw [List.drop_append_of_le_length (by omega)] at hstop
        refine Or.inr ?_
        rcases hstop with hnil | hend
        · have hzero := congrArg List.length hnil
          rw [List.length_append, List.length_drop, List.length_nil] at hzero
          omega
        · have hafter := hcut.after_close hnext (by rw [hafter]; exact hend) (by omega)
          apply RawElement.closesAt_of_append hend
          rw [List.length_drop]
          omega

theorem Reaches.next_slice (h : Reaches t mode offset) (hcut : Cut t stop) (hlt : offset < stop)
    (hdrop : t.drop offset = c :: rest) :
    exists short, t.slice offset stop = c :: short ∧ rest = short ++ t.drop stop ∧
      ScanStep.next mode c short = ScanStep.next mode c rest := by
  have hsplit := t.slice_append_drop (Nat.le_of_lt hlt)
  have hlength := t.length_slice offset stop hcut.le
  cases hslice : t.slice offset stop with
  | nil =>
      rw [hslice, List.length_nil] at hlength
      omega
  | cons d short =>
      rw [hslice, hdrop, List.cons_append] at hsplit
      rw [hslice, List.length_cons] at hlength
      injection hsplit with hd hrest
      subst hd
      refine ⟨short, rfl, hrest.symm, ?_⟩
      have hfits := hcut.stop_le _ (h.token_mem hdrop) hlt
      rw [ScanStep.token_stop] at hfits
      subst hrest
      apply ScanStep.next_append
      · omega
      · intro hkind hshort
        rw [hshort, List.length_nil] at hlength
        exact hcut.after_open h hdrop hkind (by omega)
      · intro e hmode
        subst hmode
        exact h.rawBody_slice hcut hlt hdrop (by omega)

theorem Reaches.scanFrom_slice {mode : ScanMode} {offset : Nat} (h : Reaches t mode offset)
    (hcut : Cut t stop) (hle : offset ≤ stop) :
    exists back, scanFrom mode offset (t.drop offset) =
      scanFrom mode offset (t.slice offset stop) ++ back ∧
        forall token, token ∈ back -> stop ≤ token.offset := by
  -- By recursion on what is left before the cut: one step and then the rest of them.
  by_cases hlt : offset < stop
  · have hbound : offset < t.length := Nat.lt_of_lt_of_le hlt hcut.le
    rcases drop_eq_cons hbound with ⟨c, rest, hdrop⟩
    rcases h.next_slice hcut hlt hdrop with ⟨short, hslice, hrest, hstep⟩
    have hfits := hcut.stop_le _ (h.token_mem hdrop) hlt
    have hextra := ScanStep.extra_le mode c short
    rw [ScanStep.token_stop] at hfits
    rw [hstep] at hextra
    have hnext := h.next hdrop
    rw [hdrop, hslice, scanFrom_cons, scanFrom_cons, hstep]
    generalize ScanStep.next mode c rest = step at hfits hextra hnext
    rcases hnext.scanFrom_slice hcut hfits with ⟨back, htokens, hback⟩
    have hpart : t.slice (offset + 1 + step.extra) stop = short.drop step.extra :=
      Text.drop_step hslice step.extra
    rw [Text.drop_step hdrop, hpart] at htokens
    refine ⟨back, ?_, hback⟩
    rw [htokens, List.cons_append]
    congr 1
    rw [hrest, ScanStep.token, ScanStep.token, List.take_append_of_le_length hextra]
  · have heq : offset = stop := by omega
    subst heq
    refine ⟨scanFrom mode offset (t.drop offset), ?_, ?_⟩
    · rw [t.slice_of_le (Nat.le_refl _), scanFrom_nil, List.nil_append]
    · intro token hmem
      exact ((scanFrom_tiled _ _ _).mem_bounds hmem).1
termination_by stop - offset
decreasing_by omega

theorem Reaches.mem_scan (h : Reaches t .content offset) (hcut : Cut t stop) {token : Token} :
    token ∈ scan t offset stop ↔
      token ∈ tokensOf t ∧ offset ≤ token.offset ∧ token.offset < stop := by
  by_cases hle : offset ≤ stop
  · rcases h.scanFrom_slice hcut hle with ⟨back, htokens, hback⟩
    constructor
    · intro hmem
      have hwhole : token ∈ scanFrom .content offset (t.drop offset) := by
        rw [htokens]
        exact List.mem_append_left _ hmem
      have hbounds := (scanFrom_tiled _ _ _).mem_bounds hmem
      rw [t.length_slice offset stop hcut.le] at hbounds
      exact ⟨h.mem hwhole, by omega, by omega⟩
    · intro ⟨hmem, hlow, hhigh⟩
      have hwhole := h.mem_of_le hmem hlow
      rw [htokens] at hwhole
      rcases List.mem_append.mp hwhole with hpart | hlater
      · exact hpart
      · have hstop := hback token hlater
        omega
  · constructor
    · intro hmem
      rw [scan, t.slice_of_le (by omega), scanFrom_nil] at hmem
      cases hmem
    · intro ⟨_, hlow, hhigh⟩
      omega

end SfcServer
