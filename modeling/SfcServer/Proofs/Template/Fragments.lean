import SfcServer.Proofs.Template.Folding

/-!
# The render method as fragments

The body of a render method is a sequence of fragments: heads of blocks, statements,
and closing braces that know which head they belong to.  Spelled out, the fragments of
a template are its code, with the same marks at the same offsets, and they write every
expression of the template once.
-/

namespace SfcServer

/-- A head of a block, a statement, or the brace that closes the block of an expression. -/
inductive Fragment where
  | opening (x : Expression)
  | statement (x : Expression)
  | closing (x : Expression)
  deriving DecidableEq, Repr

namespace Fragment

def pieces : Fragment -> List Piece
  | .opening x => x.pieces
  | .statement x => x.pieces
  | .closing _ => [.code "\x7d".toList]

def ofExpression (x : Expression) : Fragment :=
  if x.opensBlock then .opening x else .statement x

def written? : Fragment -> Option Expression
  | .opening x => some x
  | .statement x => some x
  | .closing _ => none

@[simp] theorem pieces_ofExpression (x : Expression) : (ofExpression x).pieces = x.pieces := by
  unfold ofExpression
  split <;> rfl

@[simp] theorem written?_ofExpression (x : Expression) :
    (ofExpression x).written? = some x := by
  unfold ofExpression
  split <;> rfl

def spell (fragments : List Fragment) : Text :=
  Piece.textOf (fragments.flatMap pieces)

def written (fragments : List Fragment) : List Expression :=
  fragments.filterMap written?

end Fragment

namespace Item

variable {α β : Type}

/-- The fragments of one item; a child is already written. -/
def fragments : Item (List Fragment) -> List Fragment
  | .expression x => [Fragment.ofExpression x]
  | .child written => written

def opened? : Item α -> Option Expression
  | .expression x => if x.opensBlock then some x else none
  | .child _ => none

def closings (items : List (Item α)) : List Fragment :=
  (items.filterMap opened?).reverse.map Fragment.closing

theorem closings_child (value : α) (items : List (Item α)) :
    closings (.child value :: items) = closings items := by
  rw [closings, List.filterMap_cons_none rfl]
  rfl

theorem closings_statement {x : Expression} (h : x.opensBlock = false) (items : List (Item α)) :
    closings (.expression x :: items) = closings items := by
  rw [closings, List.filterMap_cons_none (by simp [opened?, h])]
  rfl

theorem closings_opening {x : Expression} (h : x.opensBlock = true) (items : List (Item α)) :
    closings (.expression x :: items) = closings items ++ [.closing x] := by
  have hopened : (Item.expression x : Item α).opened? = some x := by simp [opened?, h]
  rw [closings, List.filterMap_cons_some hopened]
  simp [closings]

/-- The fragments of what an element holds: its blocks are closed after all of it. -/
def blockFragments (items : List (Item (List Fragment))) : List Fragment :=
  (loopFirst items).flatMap fragments ++ closings (loopFirst items)

end Item

def Element.fragments (t : Text) (e : Element) : List Fragment :=
  e.foldItems t Item.blockFragments

/-!
# Text and marks
-/

namespace Piece

theorem textOf_append (a b : List Piece) : textOf (a ++ b) = textOf a ++ textOf b := by
  simp [textOf]

theorem marksFrom_append (offset : Nat) (a b : List Piece) :
    marksFrom offset (a ++ b) =
      marksFrom offset a ++ marksFrom (offset + (textOf a).length) b := by
  induction a generalizing offset with
  | nil =>
      simp [marksFrom, textOf]
  | cons piece rest ih =>
      cases piece with
      | code text =>
          simp [marksFrom, ih, textOf, Piece.text, Nat.add_assoc]
      | mark source =>
          simp [marksFrom, ih, textOf, Piece.text]

def Same (a b : List Piece) : Prop :=
  textOf a = textOf b ∧ forall offset, marksFrom offset a = marksFrom offset b

namespace Same

theorem refl (a : List Piece) : Same a a :=
  ⟨rfl, fun _ => rfl⟩

theorem append {a b c d : List Piece} (hab : Same a b) (hcd : Same c d) :
    Same (a ++ c) (b ++ d) := by
  refine ⟨by rw [textOf_append, textOf_append, hab.1, hcd.1], ?_⟩
  intro offset
  rw [marksFrom_append, marksFrom_append, hab.1, hab.2, hcd.2]

end Same

end Piece

namespace Item

variable {α β : Type}

@[simp] theorem opened?_map (f : α -> β) (i : Item α) : (i.map f).opened? = i.opened? := by
  cases i <;> rfl

theorem closings_map (f : α -> β) (items : List (Item α)) :
    closings (items.map (Item.map f)) = closings items := by
  simp only [closings, List.filterMap_map, Function.comp_def, opened?_map]

theorem isSome_opened? (i : Item α) : i.opened?.isSome = i.opensBlock := by
  cases i with
  | expression x =>
      simp only [opened?, opensBlock]
      split <;> simp_all
  | child value =>
      rfl

theorem length_closings (items : List (Item α)) :
    (closings items).length = items.countP opensBlock := by
  rw [closings, List.length_map, List.length_reverse, List.length_filterMap_eq_countP]
  simp only [isSome_opened?]

theorem closings_same (items : List (Item α)) :
    Piece.Same [.code (List.replicate (items.countP opensBlock) '\x7d')]
      ((closings items).flatMap Fragment.pieces) := by
  rw [← length_closings]
  have hall : forall f, f ∈ closings items -> exists x, f = Fragment.closing x := by
    intro f hf
    rcases List.mem_map.mp hf with ⟨x, _, hx⟩
    exact ⟨x, hx.symm⟩
  generalize closings items = fragments at hall
  induction fragments with
  | nil =>
      exact ⟨rfl, fun _ => rfl⟩
  | cons first rest ih =>
      rcases hall first List.mem_cons_self with ⟨x, hx⟩
      have hrest := ih (fun f hf => hall f (List.mem_cons_of_mem _ hf))
      subst hx
      constructor
      · have htext := hrest.1
        simp only [Piece.textOf, List.flatMap_cons, List.flatMap_nil, List.append_nil, Piece.text,
          Fragment.pieces, List.length_cons, List.replicate_succ, List.cons_append,
          List.nil_append] at htext ⊢
        rw [htext]
        rfl
      · intro offset
        have hmarks := hrest.2 (offset + 1)
        simp only [Piece.marksFrom, List.flatMap_cons, Fragment.pieces, List.cons_append,
          List.nil_append] at hmarks ⊢
        exact hmarks

theorem pieces_same {items : List (Item (List Piece × List Fragment))}
    (h : forall value, .child value ∈ items ->
      Piece.Same value.1 (value.2.flatMap Fragment.pieces)) :
    Piece.Same ((items.map (Item.map Prod.fst)).flatMap pieces)
      (((items.map (Item.map Prod.snd)).flatMap fragments).flatMap Fragment.pieces) := by
  induction items with
  | nil =>
      exact Piece.Same.refl _
  | cons i rest ih =>
      have hrest := ih (fun value hmem => h value (List.mem_cons_of_mem _ hmem))
      simp only [List.map_cons, List.flatMap_cons, List.flatMap_append]
      refine Piece.Same.append ?_ hrest
      cases i with
      | expression x =>
          simp only [map_expression, pieces, fragments, List.flatMap_cons, List.flatMap_nil,
            List.append_nil, Fragment.pieces_ofExpression]
          exact Piece.Same.refl _
      | child value =>
          exact h value List.mem_cons_self

end Item

theorem Element.code_same (t : Text) (e : Element) :
    Piece.Same (e.code t) ((e.fragments t).flatMap Fragment.pieces) := by
  refine foldItems_related t (R := fun pieces (fragments : List Fragment) =>
    Piece.Same pieces (fragments.flatMap Fragment.pieces)) ?_ e
  intro items hitems
  have hordered : forall value, .child value ∈ Item.loopFirst items ->
      Piece.Same value.1 (value.2.flatMap Fragment.pieces) := by
    intro value hmem
    exact hitems value ((Item.loopFirst_perm items).mem_iff.mp hmem)
  simp only [Item.block, Item.blockFragments, Item.loopFirst_map, Item.closings_map,
    List.flatMap_append]
  refine (Item.pieces_same hordered).append ?_
  have hclosings := Item.closings_same (Item.loopFirst items)
  have hcount : (Item.loopFirst items).countP Item.opensBlock =
      ((Item.loopFirst items).map (Item.map Prod.fst)).countP Item.opensBlock := by
    simp only [List.countP_map, Function.comp_def, Item.opensBlock_map]
  rw [hcount] at hclosings
  exact hclosings

theorem Element.textOf_code (t : Text) (e : Element) :
    Piece.textOf (e.code t) = Fragment.spell (e.fragments t) :=
  (e.code_same t).1

theorem Render.ofTemplate_text (t : Text) (template : Element) (offset : Nat)
    (names : List Text) :
    (Render.ofTemplate t template offset names).text =
      Render.header ++ Render.preamble names ++ Fragment.spell (template.fragments t) ++
        Render.footer := by
  rw [Render.ofTemplate, Render.ofPieces, Element.textOf_code]

/-!
# What is written
-/

namespace Fragment

@[simp] theorem written_append (a b : List Fragment) :
    written (a ++ b) = written a ++ written b := by
  simp [written]

end Fragment

theorem Item.written_closings {α : Type} (items : List (Item α)) :
    Fragment.written (closings items) = [] := by
  apply List.filterMap_eq_nil_iff.mpr
  intro f hf
  rcases List.mem_map.mp hf with ⟨x, _, hx⟩
  rw [← hx]
  rfl

theorem Item.written_perm {items : List (Item (List Fragment × List Expression))}
    (h : forall value, .child value ∈ items -> (Fragment.written value.1).Perm value.2) :
    ((items.map (Item.map Prod.fst)).flatMap fun i => Fragment.written i.fragments).Perm
      (Element.flatten (items.map (Item.map Prod.snd))) := by
  induction items with
  | nil =>
      exact List.Perm.refl _
  | cons i rest ih =>
      have hrest := ih (fun value hmem => h value (List.mem_cons_of_mem _ hmem))
      simp only [Element.flatten, List.map_cons, List.flatMap_cons] at hrest ⊢
      refine List.Perm.append ?_ hrest
      cases i with
      | expression x =>
          simp [fragments, Fragment.written]
      | child value =>
          exact h value List.mem_cons_self

theorem Element.written_fragments (t : Text) (e : Element) :
    (Fragment.written (e.fragments t)).Perm (e.expressions t) := by
  refine foldItems_related t (R := fun fragments expressions =>
    (Fragment.written fragments).Perm expressions) ?_ e
  intro items hitems
  have hflat : forall ordered : List (Item (List Fragment)),
      Fragment.written (ordered.flatMap Item.fragments) =
        ordered.flatMap fun i => Fragment.written i.fragments := by
    intro ordered
    simp only [Fragment.written, List.filterMap_flatMap]
  have hperm := (Item.loopFirst_perm (items.map (Item.map Prod.fst))).flatMap_right
    (fun i => Fragment.written i.fragments)
  rw [Item.blockFragments, Fragment.written_append, Item.written_closings, List.append_nil, hflat]
  exact hperm.trans (Item.written_perm hitems)

end SfcServer
