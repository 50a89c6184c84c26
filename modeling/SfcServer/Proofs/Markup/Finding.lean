import SfcServer.Proofs.Markup.Layout

/-!
# Finding elements

Elements are nested in lists, so the induction over them is stated once here.  The
innermost element at an offset is found by going down into the sibling that covers the
offset; siblings follow each other, so there is at most one.
-/

namespace SfcServer

mutual

theorem Element.induction_on {P : Element -> Prop}
    (h : forall e : Element, (forall c, c ∈ e.children -> P c) -> P e) : forall e, P e
  | ⟨tag, start, stop, startTagEnd, endTagStart, closed, attributes, children⟩ =>
    h ⟨tag, start, stop, startTagEnd, endTagStart, closed, attributes, children⟩
      (Element.induction_on_all h children)

theorem Element.induction_on_all {P : Element -> Prop}
    (h : forall e : Element, (forall c, c ∈ e.children -> P c) -> P e) :
    forall es : List Element, forall c, c ∈ es -> P c
  | [], _, hmem => by cases hmem
  | e :: rest, c, hmem => by
      rcases List.mem_cons.mp hmem with heq | hrest
      · rw [heq]
        exact Element.induction_on h e
      · exact Element.induction_on_all h rest c hrest

end

namespace Element

theorem preorderAll_eq (es : List Element) : preorderAll es = es.flatMap preorder := by
  induction es with
  | nil =>
      rfl
  | cons e rest ih =>
      rw [preorderAll, ih, List.flatMap_cons]

theorem preorder_eq (e : Element) : e.preorder = e :: e.children.flatMap preorder := by
  cases e
  rw [preorder, preorderAll_eq]

/-- An element inside of another one is that one or lies inside one of its children. -/
theorem mem_preorder {e root : Element} (h : e ∈ root.preorder) :
    e = root ∨ exists c, c ∈ root.children ∧ e ∈ c.preorder := by
  rw [preorder_eq] at h
  rcases List.mem_cons.mp h with heq | hinside
  · exact Or.inl heq
  · exact Or.inr (List.mem_flatMap.mp hinside)

theorem self_mem_preorder (e : Element) : e ∈ e.preorder := by
  rw [preorder_eq]
  exact List.mem_cons_self

theorem mem_preorder_of_child {e c a : Element} (hc : c ∈ a.children) (he : e ∈ c.preorder) :
    e ∈ a.preorder := by
  rw [preorder_eq]
  exact List.mem_cons_of_mem _ (List.mem_flatMap.mpr ⟨c, hc, he⟩)

theorem preorder_trans {e a : Element} (root : Element) :
    a ∈ root.preorder -> e ∈ a.preorder -> e ∈ root.preorder := by
  induction root using Element.induction_on with
  | h root ih =>
      intro ha he
      rcases mem_preorder ha with heq | ⟨c, hc, hinside⟩
      · rw [← heq]
        exact he
      · exact mem_preorder_of_child hc (ih c hc hinside he)

theorem mem_preorderAll {e : Element} {es : List Element} :
    e ∈ preorderAll es ↔ exists root, root ∈ es ∧ e ∈ root.preorder := by
  rw [preorderAll_eq]
  exact List.mem_flatMap

end Element

/-!
# Where elements lie
-/

theorem Laid.of_preorder {t : Text} {e : Element} (root : Element) :
    forall {low high : Nat} {es : List Element}, Laid t low high es -> root ∈ es ->
      e ∈ root.preorder ->
      exists low high es, Laid t low high es ∧ e ∈ es := by
  induction root using Element.induction_on with
  | h root ih =>
      intro low high es hlaid hroot he
      rcases Element.mem_preorder he with heq | ⟨c, hc, hinside⟩
      · exact ⟨low, high, es, hlaid, by rw [heq]; exact hroot⟩
      · exact ih c hc (hlaid.mem hroot).2 hc hinside

theorem Element.Recorded.start_lt {t : Text} {e : Element} (h : e.Recorded t) :
    e.start < e.contentStop :=
  Nat.lt_of_lt_of_le h.opens.lt_headStop h.head_le

theorem Laid.low_le {t : Text} {low high : Nat} {es : List Element} (h : Laid t low high es)
    {e : Element} (he : e ∈ es) : low ≤ e.start := by
  induction h with
  | nil low high =>
      cases he
  | cons hlow _ hrecorded _ _ _ ihrest =>
      rcases List.mem_cons.mp he with heq | hmem
      · rw [heq]
        exact hlow
      · have hstart := hrecorded.start_lt
        have hstop := hrecorded.content_le
        have hnext := ihrest hmem
        omega

theorem Laid.siblings {t : Text} {low high : Nat} {es : List Element} (h : Laid t low high es)
    {c d : Element} (hc : c ∈ es) (hd : d ∈ es) :
    c = d ∨ c.stop ≤ d.start ∨ d.stop ≤ c.start := by
  induction h with
  | nil low high =>
      cases hc
  | cons _ _ _ _ hrest _ ihrest =>
      rcases List.mem_cons.mp hc with hce | hcrest
      · rcases List.mem_cons.mp hd with hde | hdrest
        · exact Or.inl (hce.trans hde.symm)
        · rw [hce]
          exact Or.inr (Or.inl (hrest.low_le hdrest))
      · rcases List.mem_cons.mp hd with hde | hdrest
        · rw [hde]
          exact Or.inr (Or.inr (hrest.low_le hcrest))
        · exact ihrest hcrest hdrest

theorem Laid.preorder_bounds {t : Text} {e : Element} (root : Element) :
    forall {low high : Nat} {es : List Element}, Laid t low high es -> root ∈ es ->
      e ∈ root.preorder -> root.start ≤ e.start ∧ e.contentStop ≤ root.contentStop := by
  induction root using Element.induction_on with
  | h root ih =>
      intro low high es hlaid hroot he
      rcases Element.mem_preorder he with heq | ⟨c, hc, hinside⟩
      · rw [heq]
        exact ⟨Nat.le_refl _, Nat.le_refl _⟩
      · rcases hlaid.mem hroot with ⟨hrecorded, hchildren⟩
        have hbounds := ih c hc hchildren hc hinside
        have hstart := hrecorded.opens.lt_headStop
        have hlow := hchildren.low_le hc
        have hhigh := hchildren.le_high hc
        exact ⟨by omega, by omega⟩

/-!
# The innermost element
-/

namespace Element

/-- An offset lies in the span of an element: behind its start, and at its end at the latest. -/
def Spans (e : Element) (offset : Int) : Prop :=
  (e.start : Int) < offset ∧ offset ≤ (e.stop : Int)

theorem covers_iff_spans {e : Element} {offset : Int} :
    e.covers offset = true ↔ e.Spans offset := by
  simp only [covers, Spans, Bool.and_eq_true, decide_eq_true_eq]

theorem covers_iff {e : Element} {offset : Nat} :
    e.covers offset = true ↔ e.start < offset ∧ offset ≤ e.stop := by
  rw [covers_iff_spans, Spans]
  omega

theorem innermost_eq (offset : Int) (e : Element) :
    e.innermost offset = (innermostOf offset e.children).getD e := by
  cases e
  rw [innermost]

theorem innermostOf_eq_some {offset : Int} {es : List Element} {found : Element}
    (h : innermostOf offset es = some found) :
    exists c, c ∈ es ∧ c.covers offset = true ∧ found = c.innermost offset := by
  induction es with
  | nil =>
      rw [innermostOf] at h
      cases h
  | cons e rest ih =>
      rw [innermostOf] at h
      split at h
      · rcases ih h with ⟨c, hc, hfound⟩
        exact ⟨c, List.mem_cons_of_mem _ hc, hfound⟩
      · split at h
        · rename_i hcovers
          cases h
          exact ⟨e, List.mem_cons_self, hcovers, rfl⟩
        · cases h

theorem innermost_spec {offset : Int} (root : Element) (h : root.covers offset = true) :
    root.innermost offset ∈ root.preorder ∧ (root.innermost offset).covers offset = true ∧
      innermostOf offset (root.innermost offset).children = none := by
  induction root using Element.induction_on with
  | h root ih =>
      rw [innermost_eq]
      cases hfound : innermostOf offset root.children with
      | none =>
          exact ⟨root.self_mem_preorder, h, hfound⟩
      | some found =>
          rcases innermostOf_eq_some hfound with ⟨c, hc, hcovers, heq⟩
          rcases ih c hc hcovers with ⟨hmem, hinner, hnone⟩
          rw [Option.getD_some, heq]
          exact ⟨mem_preorder_of_child hc hmem, hinner, hnone⟩

end Element

theorem Laid.innermostOf_of_covers {t : Text} {low high : Nat} {es : List Element}
    (h : Laid t low high es) {c : Element} {offset : Int} (hc : c ∈ es)
    (hcovers : c.covers offset = true) :
    Element.innermostOf offset es = some (c.innermost offset) := by
  induction h with
  | nil low high =>
      cases hc
  | cons _ _ hrecorded _ hrest _ ihrest =>
      rename_i e rest
      rw [Element.innermostOf]
      rcases List.mem_cons.mp hc with heq | hmem
      · subst heq
        have hspans := Element.covers_iff_spans.mp hcovers
        rw [if_neg, if_pos hcovers]
        intro hany
        rcases List.any_eq_true.mp hany with ⟨later, hlater, hstart⟩
        have hlow := hrest.low_le hlater
        rw [decide_eq_true_eq] at hstart
        unfold Element.Spans at hspans
        omega
      · have hspans := Element.covers_iff_spans.mp hcovers
        rw [if_pos]
        · exact ihrest hmem
        · exact List.any_eq_true.mpr ⟨c, hmem, decide_eq_true hspans.1⟩

theorem Laid.start_le_innermost {t : Text} {e : Element} {offset : Nat} (root : Element) :
    forall {low high : Nat} {es : List Element}, Laid t low high es -> root ∈ es ->
      e ∈ root.preorder -> e.start < offset -> offset ≤ e.contentStop ->
      root.covers offset = true ∧ e.start ≤ (root.innermost offset).start := by
  induction root using Element.induction_on with
  | h root ih =>
      intro low high es hlaid hroot he hstart hstop
      rcases hlaid.mem hroot with ⟨hrecorded, hchildren⟩
      have hbounds := Laid.preorder_bounds root hlaid hroot he
      have hcontent := hrecorded.content_le
      have hcovers : root.covers offset = true :=
        Element.covers_iff.mpr ⟨by omega, by omega⟩
      refine ⟨hcovers, ?_⟩
      rcases Element.mem_preorder he with heq | ⟨c, hc, hinside⟩
      · have hinner := (Element.innermost_spec root hcovers).1
        rw [heq]
        exact (Laid.preorder_bounds root hlaid hroot hinner).1
      · -- Siblings do not overlap, so the search goes down the way to the element.
        rcases ih c hc hchildren hc hinside hstart hstop with ⟨hchild, hle⟩
        rw [Element.innermost_eq, hchildren.innermostOf_of_covers hc hchild, Option.getD_some]
        exact hle

end SfcServer
