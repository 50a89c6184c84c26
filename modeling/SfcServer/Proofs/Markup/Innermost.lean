import SfcServer.Proofs.Markup.Ranges

/-!
# The innermost element at an offset

The search for an element goes down into the last sibling that starts before the offset, and
stops where that one ends too early.  It need not look at the siblings before: siblings follow
each other, so the span of at most one of them holds the offset.  The spans around an element
are those on the way down to it, and all of them hold the offset.
-/

namespace SfcServer

variable {t : Text} {offset : Int} {low high : Nat} {es : List Element}

/--
An element of a document whose span holds an offset, as the spans of all elements around it do
and those of its children do not.
-/
structure Document.InnermostAt (d : Document) (offset : Int) (e : Element) : Prop where
  inside : e ∈ Element.preorderAll d.roots
  around : forall a, a ∈ Element.preorderAll d.roots -> e ∈ a.preorder -> a.Spans offset
  deepest : forall c, c ∈ e.children -> ¬ c.Spans offset

namespace Laid

/-!
# Siblings
-/

theorem eq_of_mem_preorder {e c d : Element} (h : Laid t low high es) (hc : c ∈ es) (hd : d ∈ es)
    (hinside : e ∈ c.preorder) (hother : e ∈ d.preorder) : c = d := by
  have hfirst := preorder_bounds c h hc hinside
  have hsecond := preorder_bounds d h hd hother
  rcases of_preorder c h hc hinside with ⟨_, _, fs, hfs, hmem⟩
  have hlt := (hfs.mem hmem).1.start_lt
  have hstop := (h.mem hc).1.content_le
  have hotherStop := (h.mem hd).1.content_le
  rcases h.siblings hc hd with heq | hbefore | hbehind
  · exact heq
  · omega
  · omega

theorem innermostOf_eq_none_iff (h : Laid t low high es) :
    Element.innermostOf offset es = none ↔ forall c, c ∈ es -> ¬ c.Spans offset := by
  constructor
  · intro hnone c hc hspans
    rw [h.innermostOf_of_covers hc (Element.covers_iff_spans.mpr hspans)] at hnone
    cases hnone
  · intro hapart
    cases hfound : Element.innermostOf offset es with
    | none =>
        rfl
    | some found =>
        rcases Element.innermostOf_eq_some hfound with ⟨c, hc, hcovers, _⟩
        exact absurd (Element.covers_iff_spans.mp hcovers) (hapart c hc)

/-!
# The way down
-/

theorem innermost_around {a : Element} (root : Element) :
    forall {low high : Nat} {es : List Element}, Laid t low high es -> root ∈ es ->
      root.Spans offset -> a ∈ root.preorder -> root.innermost offset ∈ a.preorder ->
      a.Spans offset := by
  induction root using Element.induction_on with
  | h root ih =>
      intro low high es hlaid hroot hspans ha hinner
      have hchildren := (hlaid.mem hroot).2
      rcases Element.mem_preorder ha with heq | ⟨c, hc, hinside⟩
      · rw [heq]
        exact hspans
      · rw [Element.innermost_eq] at hinner
        cases hfound : Element.innermostOf offset root.children with
        | none =>
            -- An element does not lie inside of its own children.
            rw [hfound, Option.getD_none] at hinner
            have hbounds := preorder_bounds c hchildren hc (Element.preorder_trans c hinside hinner)
            have hlow := hchildren.low_le hc
            have hhead := (hlaid.mem hroot).1.opens.lt_headStop
            omega
        | some found =>
            rcases Element.innermostOf_eq_some hfound with ⟨d, hd, hcovers, hsame⟩
            rw [hfound, Option.getD_some, hsame] at hinner
            have hchild : c = d := hchildren.eq_of_mem_preorder hc hd
              (Element.preorder_trans c hinside hinner) (Element.innermost_spec d hcovers).1
            rw [← hchild] at hcovers hinner
            exact ih c hc hchildren hc (Element.covers_iff_spans.mp hcovers) hinside hinner

/-- The search goes down as long as the spans around an element hold the offset. -/
theorem innermost_of_around {e : Element} (hdeepest : forall c, c ∈ e.children -> ¬ c.Spans offset)
    (root : Element) :
    forall {low high : Nat} {es : List Element}, Laid t low high es -> root ∈ es ->
      e ∈ root.preorder ->
      (forall a, a ∈ root.preorder -> e ∈ a.preorder -> a.Spans offset) ->
      root.innermost offset = e := by
  induction root using Element.induction_on with
  | h root ih =>
      intro low high es hlaid hroot he haround
      have hchildren := (hlaid.mem hroot).2
      rw [Element.innermost_eq]
      rcases Element.mem_preorder he with heq | ⟨c, hc, hinside⟩
      · rw [← heq] at hchildren ⊢
        rw [hchildren.innermostOf_eq_none_iff.mpr hdeepest, Option.getD_none]
      · have hspans := haround c (Element.mem_preorder_of_child hc c.self_mem_preorder) hinside
        rw [hchildren.innermostOf_of_covers hc (Element.covers_iff_spans.mpr hspans),
          Option.getD_some]
        apply ih c hc hchildren hc hinside
        intro a ha hea
        exact haround a (Element.mem_preorder_of_child hc ha) hea

end Laid

/-!
# The element at an offset
-/

namespace Document

theorem elementAt?_eq_some_iff (t : Text) (offset : Int) (e : Element) :
    (ofText t).elementAt? offset = some e ↔ (ofText t).InnermostAt offset e := by
  have hlaid := ofText_laid t
  constructor
  · intro hfound
    rcases Element.innermostOf_eq_some hfound with ⟨root, hroot, hcovers, hsame⟩
    rcases Element.innermost_spec root hcovers with ⟨hinside, _, hnone⟩
    rw [← hsame] at hinside hnone
    have he := Element.mem_preorderAll.mpr ⟨root, hroot, hinside⟩
    refine ⟨he, ?_, (laid_of_mem t he).2.innermostOf_eq_none_iff.mp hnone⟩
    intro a ha hea
    rcases Element.mem_preorderAll.mp ha with ⟨other, hother, haInside⟩
    have hroots : other = root := hlaid.eq_of_mem_preorder hother hroot
      (Element.preorder_trans other haInside hea) hinside
    subst hroots
    rw [hsame] at hea
    exact Laid.innermost_around other hlaid hroot (Element.covers_iff_spans.mp hcovers)
      haInside hea
  · intro h
    rcases Element.mem_preorderAll.mp h.inside with ⟨root, hroot, hinside⟩
    have hrootInside := Element.mem_preorderAll.mpr ⟨root, hroot, root.self_mem_preorder⟩
    have hspans := h.around root hrootInside hinside
    rw [elementAt?, hlaid.innermostOf_of_covers hroot (Element.covers_iff_spans.mpr hspans),
      Laid.innermost_of_around h.deepest root hlaid hroot hinside]
    intro a ha hea
    exact h.around a (Element.mem_preorderAll.mpr ⟨root, hroot, ha⟩) hea

/--
However malformed a text is, at every offset the search finds the one element that is innermost
there, and finds none just where the span of no outermost element holds the offset.
-/
theorem innermost_found (t : Text) (offset : Int) :
    ((ofText t).elementAt? offset = none ↔
        forall root, root ∈ (ofText t).roots -> ¬ root.Spans offset) ∧
      forall e, (ofText t).elementAt? offset = some e ↔ (ofText t).InnermostAt offset e := by
  constructor
  · exact (ofText_laid t).innermostOf_eq_none_iff
  · exact elementAt?_eq_some_iff t offset

/-- The `b` from 6 to 13 holds the offset, but the `c` around it has ended at 9. -/
example : ((ofText "<a><c><b></b /a>".toList).elementAt? 12).map (·.start) = some 0 := by
  decide +kernel

end Document
end SfcServer
