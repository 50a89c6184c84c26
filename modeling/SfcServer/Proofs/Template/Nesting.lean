import SfcServer.Proofs.Template.Fragments
import SfcServer.Proofs.Template.Order
import SfcServer.Proofs.Template.Sequence

/-!
# Blocks of the render method

The blocks of a render method are nested, and the blocks that an element opens hold
everything the element writes after their heads.  Which of its own expressions stand
in which of its blocks depends on the order in which the attributes are written, up
to the one loop that is moved before the first condition.
-/

namespace SfcServer
namespace Fragment

/-- Fragments whose blocks are nested, each closed by a brace of its own. -/
inductive Balanced : List Fragment -> Prop where
  | nil : Balanced []
  | statement {x : Expression} {rest : List Fragment} :
      Balanced rest -> Balanced (.statement x :: rest)
  | block {x : Expression} {inner rest : List Fragment} :
      Balanced inner -> Balanced rest ->
      Balanced (.opening x :: (inner ++ .closing x :: rest))

theorem Balanced.append {a b : List Fragment} (ha : Balanced a) (hb : Balanced b) :
    Balanced (a ++ b) := by
  induction ha with
  | nil =>
      exact hb
  | statement _ ih =>
      exact Balanced.statement ih
  | block hinner _ _ ih =>
      rename_i x inner rest _ _
      have hblock := Balanced.block (x := x) hinner ih
      simpa using hblock

/-- A statement stands in the block of an expression, between its head and its closing brace. -/
def Inside (block x : Expression) (fragments : List Fragment) : Prop :=
  exists before inner after,
    fragments = before ++ .opening block :: (inner ++ .closing block :: after) ∧
      Balanced inner ∧ .statement x ∈ inner

theorem Inside.extend {block x : Expression} {fragments : List Fragment}
    (h : Inside block x fragments) (before after : List Fragment) :
    Inside block x (before ++ fragments ++ after) := by
  rcases h with ⟨front, inner, back, heq, hbalanced, hmem⟩
  refine ⟨before ++ front, inner, back ++ after, ?_, hbalanced, hmem⟩
  rw [heq]
  simp

theorem Inside.sublist {block x : Expression} {fragments : List Fragment}
    (h : Inside block x fragments) : [block, x].Sublist (written fragments) := by
  rcases h with ⟨before, inner, after, heq, _, hmem⟩
  have hx : x ∈ written (inner ++ .closing block :: after) := by
    rw [written_append]
    exact List.mem_append_left _ (List.mem_filterMap.mpr ⟨_, hmem, rfl⟩)
  rw [heq, written_append]
  apply List.Sublist.trans ?_ (List.sublist_append_right _ _)
  exact List.Sublist.cons_cons block (List.singleton_sublist.mpr hx)

end Fragment

/-!
# Elements
-/

namespace Item

theorem balanced {items : List (Item (List Fragment))}
    (h : forall value, .child value ∈ items -> Fragment.Balanced value) :
    Fragment.Balanced (items.flatMap fragments ++ closings items) := by
  induction items with
  | nil =>
      exact Fragment.Balanced.nil
  | cons i rest ih =>
      have hrest := ih (fun value hmem => h value (List.mem_cons_of_mem _ hmem))
      rw [List.flatMap_cons]
      cases i with
      | child value =>
          rw [closings_child, List.append_assoc]
          exact (h value List.mem_cons_self).append hrest
      | expression x =>
          cases hopens : x.opensBlock with
          | true =>
              have hblock := Fragment.Balanced.block (x := x) hrest Fragment.Balanced.nil
              rw [closings_opening hopens]
              simpa [fragments, Fragment.ofExpression, hopens] using hblock
          | false =>
              rw [closings_statement hopens]
              simpa [fragments, Fragment.ofExpression, hopens] using
                Fragment.Balanced.statement hrest

end Item

namespace Element

theorem fragments_balanced (t : Text) (e : Element) : Fragment.Balanced (e.fragments t) := by
  refine foldItems_induct t (P := Fragment.Balanced) ?_ e
  intro items hitems
  apply Item.balanced
  intro value hmem
  exact hitems value ((Item.loopFirst_perm items).mem_iff.mp hmem)

end Element

/-!
# Own expressions
-/

namespace Item

variable {α β : Type}

theorem filterMap_expression?_map (f : α -> β) (items : List (Item α)) :
    (items.map (Item.map f)).filterMap expression? = items.filterMap expression? := by
  rw [List.filterMap_map]
  congr 1
  funext i
  cases i <;> rfl

theorem filterMap_sublist_flatten (items : List (Item (List Expression))) :
    (items.filterMap expression?).Sublist (Element.flatten items) := by
  induction items with
  | nil =>
      exact List.Sublist.refl _
  | cons i rest ih =>
      cases i with
      | expression x =>
          exact ih.cons_cons x
      | child xs =>
          rw [Element.flatten_child]
          exact ih.trans (List.sublist_append_right _ _)

theorem filterMap_sublist_written (items : List (Item (List Fragment))) :
    (items.filterMap expression?).Sublist (Fragment.written (items.flatMap fragments)) := by
  induction items with
  | nil =>
      exact List.Sublist.refl _
  | cons i rest ih =>
      rw [List.flatMap_cons, Fragment.written_append]
      cases i with
      | expression x =>
          simp only [fragments, Fragment.written, List.filterMap_cons, List.filterMap_nil,
            Fragment.written?_ofExpression]
          exact ih.cons_cons x
      | child written =>
          exact ih.trans (List.sublist_append_right _ _)

theorem closings_append (items more : List (Item α)) :
    closings (items ++ more) = closings more ++ closings items := by
  simp [closings]

theorem split_of_sublist {items : List (Item α)} {d b : Expression}
    (h : [d, b].Sublist (items.filterMap expression?)) :
    exists before after, items = before ++ .expression d :: after ∧ .expression b ∈ after := by
  induction items with
  | nil =>
      cases h
  | cons i rest ih =>
      cases i with
      | expression x =>
          change [d, b].Sublist (x :: rest.filterMap expression?) at h
          cases h with
          | cons _ hrest =>
              rcases ih hrest with ⟨before, after, hsplit, hmem⟩
              exact ⟨.expression x :: before, after, by rw [hsplit]; rfl, hmem⟩
          | cons_cons _ hrest =>
              exact ⟨[], rest, rfl, expression_mem_iff.mp (List.singleton_sublist.mp hrest)⟩
      | child value =>
          change [d, b].Sublist (rest.filterMap expression?) at h
          rcases ih h with ⟨before, after, hsplit, hmem⟩
          exact ⟨.child value :: before, after, by rw [hsplit]; rfl, hmem⟩

end Item

/-!
# Elements inside of a template
-/

namespace Element

def fragmentItems (t : Text) (e : Element) : List (Item (List Fragment)) :=
  e.itemsWith t (e.placed fun c => c.fragments t)

theorem fragments_eq (t : Text) (e : Element) :
    e.fragments t = Item.blockFragments (e.fragmentItems t) :=
  foldItems_eq t Item.blockFragments e

theorem ownExpressions_eq {α : Type} (t : Text) (e : Element) (f : Element -> α) :
    e.ownExpressions t = (e.itemsWith t (e.placed f)).filterMap Item.expression? := by
  have hmap := itemsWith_map t e (fun _ : α => ()) (e.placed f)
  rw [placed_map] at hmap
  rw [← Item.filterMap_expression?_map (fun _ : α => ()), hmap]
  rfl

theorem ownExpressions_sorted {t : Text} {e : Element} {low high : Nat}
    (h : Sequenced t low high (e.expressions t)) :
    (e.ownExpressions t).Pairwise fun x y => x.start < y.start := by
  have hsublist : (e.ownExpressions t).Sublist (e.expressions t) := by
    rw [ownExpressions_eq t e fun c => c.expressions t, expressions_eq]
    exact Item.filterMap_sublist_flatten _
  refine (h.pairwise.sublist hsublist).imp_of_mem ?_
  intro x y hx _ hlt
  have hstop := (h.mem (hsublist.subset hx)).2.2.stop_eq
  omega

theorem fragments_part {t : Text} {e : Element} (root : Element) :
    e ∈ root.preorder -> exists before after,
      root.fragments t = before ++ e.fragments t ++ after := by
  induction root using Element.induction_on with
  | h root ih =>
      intro he
      rcases mem_preorder he with heq | ⟨c, hc, hinside⟩
      · exact ⟨[], [], by rw [heq]; simp⟩
      · rcases ih c hc hinside with ⟨before, after, hsplit⟩
        have hmem : .child (c.fragments t) ∈ Item.loopFirst (root.fragmentItems t) :=
          (Item.loopFirst_perm _).mem_iff.mpr (mem_itemsWith_of_mem t _ hc)
        rcases List.append_of_mem hmem with ⟨front, back, hordered⟩
        refine ⟨front.flatMap Item.fragments ++ before, after ++ (back.flatMap Item.fragments ++
          Item.closings (Item.loopFirst (root.fragmentItems t))), ?_⟩
        rw [fragments_eq, Item.blockFragments, hordered]
        simp [Item.fragments, hsplit]

/-- What an element writes before one of its bindings is around it, if it opens a block. -/
theorem inside_of_sublist {t : Text} {e : Element} {d b : Expression}
    (h : [d, b].Sublist ((Item.loopFirst (e.fragmentItems t)).filterMap Item.expression?))
    (hopens : d.opensBlock = true) (hbinding : b.kind = .binding) :
    Fragment.Inside d b (e.fragments t) := by
  rcases Item.split_of_sublist h with ⟨before, after, hordered, hmem⟩
  have hstatement : Fragment.ofExpression b = .statement b := by
    simp [Fragment.ofExpression, Expression.opensBlock, hbinding]
  refine ⟨before.flatMap Item.fragments, after.flatMap Item.fragments ++ Item.closings after,
    Item.closings before, ?_, ?_, ?_⟩
  · rw [fragments_eq, Item.blockFragments, hordered, Item.closings_append,
      Item.closings_opening hopens]
    simp [Item.fragments, Fragment.ofExpression, hopens]
  · apply Item.balanced
    intro value hvalue
    have hchild : .child value ∈ e.fragmentItems t := by
      apply (Item.loopFirst_perm _).mem_iff.mp
      rw [hordered]
      exact List.mem_append_right _ (List.mem_cons_of_mem _ hvalue)
    rcases child_mem_itemsWith hchild with ⟨c, _, hc⟩
    rw [← hc]
    exact c.fragments_balanced t
  · apply List.mem_append_left
    refine List.mem_flatMap.mpr ⟨_, hmem, ?_⟩
    rw [Item.fragments, hstatement]
    exact List.mem_singleton_self _

/--
A binding stands in a block that its own element opens exactly when the head of the
block is written first, that is when it stands before the binding or is the loop that is
moved before it together with its condition.
-/
theorem binding_inside_iff {t : Text} {template e : Element} {d b : Expression}
    (htemplate : (Document.ofText t).template? = some template) (he : e ∈ template.preorder)
    (hd : d ∈ e.ownExpressions t) (hb : b ∈ e.ownExpressions t)
    (hopens : d.opensBlock = true) (hbinding : b.kind = .binding) :
    (forall offset names, (Render.ofTemplate t template offset names).text =
        Render.header ++ Render.preamble names ++ Fragment.spell (template.fragments t) ++
          Render.footer) ∧
      (Fragment.Inside d b (template.fragments t) ↔
        Expression.WrittenBefore (e.ownExpressions t) d b) := by
  refine ⟨fun offset names => Render.ofTemplate_text t template offset names, ?_⟩
  rcases (Document.ofText_laid t).of_preorder template (List.mem_of_find?_eq_some htemplate) he with
    ⟨low, high, es, hlaid, hmem⟩
  have hsorted := ownExpressions_sorted (hlaid.expressions_sequenced hmem)
  have hown := ownExpressions_eq t e fun c => c.fragments t
  have hnodup : (Fragment.written (template.fragments t)).Nodup :=
    (template.written_fragments t).nodup_iff.mpr (Document.template_sequenced htemplate).nodup
  rcases fragments_part (t := t) template he with ⟨before, after, hwhole⟩
  rw [hown] at hd hb hsorted ⊢
  rw [← Item.loopFirst_order hsorted hd hb hbinding]
  constructor
  · intro hinside
    have hperm := (Item.loopFirst_perm (e.fragmentItems t)).filterMap Item.expression?
    have hne : d ≠ b := by
      intro heq
      rw [heq, Expression.opensBlock, hbinding] at hopens
      cases hopens
    rcases pair_sublist_or (hperm.mem_iff.mpr hd) (hperm.mem_iff.mpr hb) hne with hdb | hbd
    · exact hdb
    · -- The binding would be written both before and after the head of the block.
      have hwritten : [b, d].Sublist (Fragment.written (template.fragments t)) := by
        rw [hwhole, Fragment.written_append, Fragment.written_append, fragments_eq,
          Item.blockFragments, Fragment.written_append]
        have hitems := hbd.trans (Item.filterMap_sublist_written _)
        exact ((hitems.trans (List.sublist_append_left _ _)).trans
          (List.sublist_append_right _ _)).trans (List.sublist_append_left _ _)
      exact (not_both_sublist hnodup hinside.sublist hwritten).elim
  · intro hsublist
    rw [hwhole]
    exact (inside_of_sublist hsublist hopens hbinding).extend before after

def conditionText : Text :=
  "<template><p v-if=\"a\" :b=\"c\"></p></template>".toList

theorem binding_inside_iff_condition :
    exists template d b, (Document.ofText conditionText).template? = some template ∧
      d.kind = .condition ∧ b.kind = .binding ∧
      Fragment.Inside d b (template.fragments conditionText) := by
  let d : Expression := ⟨.condition, 19, 20, "a".toList, "v-if".toList⟩
  let b : Expression := ⟨.binding, 26, 27, "c".toList, ":b".toList⟩
  have hfacts : (Document.ofText conditionText).template?.any (fun template =>
      template.preorder.any fun e =>
        d ∈ e.ownExpressions conditionText ∧ b ∈ e.ownExpressions conditionText) = true := by
    decide +kernel
  rcases (Option.any_eq_true _ _).mp hfacts with ⟨template, htemplate, helement⟩
  rcases List.any_eq_true.mp helement with ⟨e, he, hmem⟩
  rcases of_decide_eq_true hmem with ⟨hd, hb⟩
  refine ⟨template, d, b, htemplate, rfl, rfl, ?_⟩
  exact (binding_inside_iff htemplate he hd hb rfl rfl).2.mpr (Or.inl (by decide))

def keyText : Text :=
  "<template><li :key=\"item.id\" v-for=\"item in items\"></li></template>".toList

theorem binding_outside_loop :
    exists template e d b, (Document.ofText keyText).template? = some template ∧
      e ∈ template.preorder ∧ d ∈ e.ownExpressions keyText ∧ b ∈ e.ownExpressions keyText ∧
      d.kind = .loop ∧ b.kind = .binding ∧
      ¬ Fragment.Inside d b (template.fragments keyText) := by
  let d : Expression := ⟨.loop, 36, 49, "item in items".toList, "v-for".toList⟩
  let b : Expression := ⟨.binding, 20, 27, "item.id".toList, ":key".toList⟩
  have hfacts : (Document.ofText keyText).template?.any (fun template =>
      (template.preorder.any fun e =>
        d ∈ e.ownExpressions keyText ∧ b ∈ e.ownExpressions keyText) &&
      !([d, b].isSublist (Fragment.written (template.fragments keyText)))) = true := by
    decide +kernel
  rcases (Option.any_eq_true _ _).mp hfacts with ⟨template, htemplate, hboth⟩
  rw [Bool.and_eq_true, Bool.not_eq_true'] at hboth
  rcases List.any_eq_true.mp hboth.1 with ⟨e, he, hmem⟩
  rcases of_decide_eq_true hmem with ⟨hd, hb⟩
  refine ⟨template, e, d, b, htemplate, he, hd, hb, rfl, rfl, ?_⟩
  intro hinside
  have hsublist := List.isSublist_iff_sublist.mpr hinside.sublist
  rw [hboth.2] at hsublist
  cases hsublist

end Element

end SfcServer
