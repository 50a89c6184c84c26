import Mathlib.Data.List.Perm.Basic
import SfcServer.Proofs.Template.Breakpoints

/-!
# Owners of expressions

Every expression that is collected from an element is owned by one element inside of it: the
one whose start tag or content holds it.  So collecting is reading off what each element owns,
in the order of the document, and nothing is lost or found twice.
-/

namespace SfcServer

/-!
# Items and children
-/

namespace Item

variable {α : Type}

def child? : Item α -> Option α
  | .expression _ => none
  | .child value => some value

theorem filterMap_child?_ofSegment (t : Text) (reading : Expression.TagReading)
    (start stop : Nat) :
    (ofSegment t reading start stop : List (Item α)).filterMap child? = [] := by
  apply List.filterMap_eq_nil_iff.mpr
  intro i hi
  rcases List.mem_map.mp hi with ⟨x, _, hx⟩
  rw [← hx]
  rfl

theorem filterMap_child?_among (t : Text) (reading : Expression.TagReading) (start stop : Nat)
    (children : List (Placed α)) :
    (among t reading start stop children).filterMap child? = children.map (·.value) := by
  induction children generalizing reading start with
  | nil =>
      exact filterMap_child?_ofSegment t reading start stop
  | cons c rest ih =>
      rw [among, List.filterMap_append, filterMap_child?_ofSegment, List.nil_append,
        List.filterMap_cons_some (f := child?) rfl, ih, List.map_cons]

theorem flatten_perm (items : List (Item (List Expression))) :
    (Element.flatten items).Perm
      (items.filterMap expression? ++ (items.filterMap child?).flatten) := by
  induction items with
  | nil =>
      exact List.Perm.refl _
  | cons i rest ih =>
      cases i with
      | expression x =>
          exact ih.cons x
      | child xs =>
          rw [Element.flatten_child, List.filterMap_cons_none rfl,
            List.filterMap_cons_some (f := child?) rfl, List.flatten_cons]
          exact (ih.append_left xs).trans (List.perm_append_comm_assoc _ _ _)

end Item

namespace Element

theorem filterMap_child?_itemsWith {α : Type} (t : Text) (e : Element) (f : Element -> α) :
    (e.itemsWith t (e.placed f)).filterMap Item.child? = e.children.map f := by
  rw [itemsWith, Item.filterMap_child?_among, placed, List.map_map]
  rfl

/-- The expressions of an element are those that it owns and those of its children. -/
theorem expressions_perm (t : Text) (e : Element) :
    (e.expressions t).Perm
      (e.ownExpressions t ++ e.children.flatMap fun c => c.expressions t) := by
  have hitems := Item.flatten_perm (e.itemsWith t (e.placed fun c => c.expressions t))
  rw [filterMap_child?_itemsWith, ← ownExpressions_eq, ← expressions_eq] at hitems
  exact hitems

theorem expressions_perm_owned (t : Text) (e : Element) :
    (e.expressions t).Perm (e.preorder.flatMap fun n => n.ownExpressions t) := by
  induction e using Element.induction_on with
  | h e ih =>
      have hchildren : (e.children.flatMap fun c => c.expressions t).Perm
          (e.children.flatMap fun c => c.preorder.flatMap fun n => n.ownExpressions t) :=
        List.Perm.flatMap_left _ ih
      rw [preorder_eq, List.flatMap_cons, List.flatMap_assoc]
      exact (e.expressions_perm t).trans (hchildren.append_left _)

/-- An expression is collected from an element when an element inside of it owns it. -/
theorem mem_expressions_iff {t : Text} {e : Element} {x : Expression} :
    x ∈ e.expressions t ↔ exists n, n ∈ e.preorder ∧ x ∈ n.ownExpressions t := by
  rw [(e.expressions_perm_owned t).mem_iff, List.mem_flatMap]

end Element

/-!
# Documents
-/

/--
Expressions that stand in a text where they say, one after the other without touching, and are
just those that some elements own.
-/
structure Accounted (t : Text) (owners : List Element) (xs : List Expression) : Prop where
  inText : forall x, x ∈ xs ->
    x.start ≤ x.stop ∧ x.stop ≤ t.length ∧ x.text = t.slice x.start x.stop
  ordered : xs.Pairwise fun x y => x.stop < y.start
  owned : xs.Perm (owners.flatMap fun n => n.ownExpressions t)

theorem Sequenced.accounted {t : Text} {low high : Nat} {owners : List Element}
    {xs : List Expression} (h : Sequenced t low high xs)
    (howned : xs.Perm (owners.flatMap fun n => n.ownExpressions t)) : Accounted t owners xs where
  inText := by
    intro x hx
    rcases (h.mem hx).2.2 with ⟨hstop, hstands⟩
    have hle := hstands.le
    refine ⟨by omega, by omega, ?_⟩
    rw [hstop]
    exact hstands.eq_slice
  ordered := h.pairwise
  owned := howned

/--
However malformed a text is, the expressions collected from one of its elements, or from all of
them, stand in the text in order and apart, and each is owned by one element that was walked.
-/
theorem Document.expressions_accounted (t : Text) :
    (forall root e, root ∈ (ofText t).roots -> e ∈ root.preorder ->
      Accounted t e.preorder (e.expressions t)) ∧
    Accounted t ((ofText t).roots.flatMap Element.preorder)
      ((ofText t).roots.flatMap fun e => e.expressions t) := by
  have hlaid := ofText_laid t
  constructor
  · intro root e hroot he
    rcases Laid.of_preorder root hlaid hroot he with ⟨low, high, es, hes, hmem⟩
    exact (hes.expressions_sequenced hmem).accounted (e.expressions_perm_owned t)
  · refine (hlaid.flatMap_sequenced 0 (Nat.le_refl _) (Nat.zero_le _)).accounted ?_
    rw [List.flatMap_assoc]
    apply List.Perm.flatMap_left
    intro e _
    exact e.expressions_perm_owned t

/-- An end tag that is broken off, and start tags that are never closed. -/
def brokenText : Text :=
  "<template><div><p v-if=\"a\">\x7b\x7b b \x7d\x7d</p\" \x7b\x7b c \x7d\x7d".toList ++
    "<li v-for=\"d in e\"<b :f=g".toList

theorem expressions_accounted_broken :
    exists root e, root ∈ (Document.ofText brokenText).roots ∧ e ∈ root.preorder ∧
      Accounted brokenText e.preorder (e.expressions brokenText) ∧
      (e.expressions brokenText).length = 5 := by
  have hfacts : (Document.ofText brokenText).roots.any (fun root =>
      root.preorder.any fun e => (e.expressions brokenText).length = 5) = true := by
    decide +kernel
  rcases List.any_eq_true.mp hfacts with ⟨root, hroot, hinside⟩
  rcases List.any_eq_true.mp hinside with ⟨e, he, hlength⟩
  exact ⟨root, e, hroot, he, (Document.expressions_accounted brokenText).1 root e hroot he,
    of_decide_eq_true hlength⟩

end SfcServer
