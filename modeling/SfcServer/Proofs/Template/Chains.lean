import SfcServer.Proofs.Template.Fragments
import SfcServer.Template.Branch

/-!
# Chains of branches

The head of a continued branch makes sense only right after the brace that closes the
branch before it.  Orphans are told by the attributes of neighbouring elements; what
matters is what is written.  The walk below follows what is written and carries whether
a branch was closed last: the continuations it finds stranded are exactly the heads
that do not follow such a brace.
-/

namespace SfcServer

namespace Expression

def continuesBranch (x : Expression) : Bool :=
  x.kind == .otherwise || x.kind == .elseCondition

def leavesBranchOpen (x : Expression) : Bool :=
  x.kind == .condition || x.kind == .elseCondition

theorem opensBlock_of_continuesBranch {x : Expression} (h : x.continuesBranch = true) :
    x.opensBlock = true := by
  simp only [continuesBranch, Bool.or_eq_true, beq_iff_eq] at h
  rcases h with hkind | hkind <;> rw [opensBlock, hkind]

end Expression

/-!
# Walking a template
-/

/-- The stranded continuations found on a walk, and whether a branch was closed last. -/
structure Trail where
  stranded : List Expression
  isOpen : Bool

namespace Item

def walk (isOpen : Bool) : List (Item (Bool -> Trail)) -> Trail
  | [] => ⟨[], isOpen⟩
  | .expression x :: rest =>
    let later := walk false rest
    ⟨(if x.continuesBranch && !isOpen then [x] else []) ++ later.stranded, later.isOpen⟩
  | .child inside :: rest =>
    let first := inside isOpen
    let later := walk first.isOpen rest
    ⟨first.stranded ++ later.stranded, later.isOpen⟩

/-- A walk over what an element holds; the block opened first is closed last. -/
def blockWalk (items : List (Item (Bool -> Trail))) (isOpen : Bool) : Trail :=
  let ordered := loopFirst items
  let inside := walk isOpen ordered
  ⟨inside.stranded,
    match ordered.findSome? opened? with
    | some x => x.leavesBranchOpen
    | none => inside.isOpen⟩

end Item

/-- The continuations of an element that are written after no closed branch. -/
def Element.stranded (t : Text) (e : Element) : List Expression :=
  (e.foldItems t Item.blockWalk false).stranded

/-!
# Walking fragments
-/

namespace Fragment

def leavesBranchOpen : Fragment -> Bool
  | .closing x => x.leavesBranchOpen
  | _ => false

def walk (isOpen : Bool) : List Fragment -> Trail
  | [] => ⟨[], isOpen⟩
  | .opening x :: rest =>
    ⟨(if x.continuesBranch && !isOpen then [x] else []) ++ (walk false rest).stranded,
      (walk false rest).isOpen⟩
  | .statement _ :: rest => walk false rest
  | .closing x :: rest => walk x.leavesBranchOpen rest

theorem walk_append (isOpen : Bool) (a b : List Fragment) :
    walk isOpen (a ++ b) =
      ⟨(walk isOpen a).stranded ++ (walk (walk isOpen a).isOpen b).stranded,
        (walk (walk isOpen a).isOpen b).isOpen⟩ := by
  induction a generalizing isOpen with
  | nil =>
      rfl
  | cons f rest ih =>
      cases f with
      | opening x =>
          simp only [List.cons_append, walk, ih, List.append_assoc]
      | statement x =>
          simp only [List.cons_append, walk, ih]
      | closing x =>
          simp only [List.cons_append, walk, ih]

theorem walk_isOpen (isOpen : Bool) (fragments : List Fragment) :
    (walk isOpen fragments).isOpen =
      match fragments.getLast? with
      | some f => f.leavesBranchOpen
      | none => isOpen := by
  induction fragments generalizing isOpen with
  | nil =>
      rfl
  | cons f rest ih =>
      have hrest : (walk isOpen (f :: rest)).isOpen = (walk f.leavesBranchOpen rest).isOpen := by
        cases f <;> rfl
      rw [hrest, ih]
      cases hlast : rest.getLast? with
      | none =>
          rw [List.getLast?_eq_none_iff.mp hlast]
          rfl
      | some g =>
          rw [List.getLast?_cons, hlast]
          rfl

theorem mem_stranded {isOpen : Bool} {fragments : List Fragment} {x : Expression} :
    x ∈ (walk isOpen fragments).stranded ↔
      exists before after, fragments = before ++ .opening x :: after ∧
        x.continuesBranch = true ∧ (walk isOpen before).isOpen = false := by
  constructor
  · intro h
    induction fragments generalizing isOpen with
    | nil =>
        cases h
    | cons f rest ih =>
        cases f with
        | opening y =>
            simp only [walk, List.mem_append] at h
            rcases h with hfirst | hrest
            · split at hfirst
              · rename_i hstranded
                rw [Bool.and_eq_true, Bool.not_eq_true'] at hstranded
                rw [List.mem_singleton.mp hfirst]
                exact ⟨[], rest, rfl, hstranded.1, hstranded.2⟩
              · cases hfirst
            · rcases ih hrest with ⟨before, after, hsplit, hx, hopen⟩
              exact ⟨.opening y :: before, after, by rw [hsplit]; rfl, hx, hopen⟩
        | statement y =>
            rcases ih h with ⟨before, after, hsplit, hx, hopen⟩
            exact ⟨.statement y :: before, after, by rw [hsplit]; rfl, hx, hopen⟩
        | closing y =>
            rcases ih h with ⟨before, after, hsplit, hx, hopen⟩
            exact ⟨.closing y :: before, after, by rw [hsplit]; rfl, hx, hopen⟩
  · intro ⟨before, after, hsplit, hx, hopen⟩
    rw [hsplit, walk_append]
    apply List.mem_append_right
    simp [walk, hx, hopen]

end Fragment

/-!
# The two walks agree
-/

namespace Item

theorem walk_eq {items : List (Item ((Bool -> Trail) × List Fragment))}
    (h : forall value, .child value ∈ items ->
      forall isOpen, value.1 isOpen = Fragment.walk isOpen value.2) (isOpen : Bool) :
    walk isOpen (items.map (Item.map Prod.fst)) =
      Fragment.walk isOpen ((items.map (Item.map Prod.snd)).flatMap fragments) := by
  induction items generalizing isOpen with
  | nil =>
      rfl
  | cons i rest ih =>
      have hrest := ih (fun value hmem => h value (List.mem_cons_of_mem _ hmem))
      simp only [List.map_cons, List.flatMap_cons]
      cases i with
      | child value =>
          simp only [map_child, fragments, walk, Fragment.walk_append, hrest,
            h value List.mem_cons_self]
      | expression x =>
          simp only [map_expression, fragments, walk, hrest, List.singleton_append]
          cases hopens : x.opensBlock with
          | true =>
              rw [Fragment.ofExpression, if_pos hopens]
              rfl
          | false =>
              have hnone : x.continuesBranch = false := by
                cases hcontinues : x.continuesBranch with
                | false =>
                    rfl
                | true =>
                    rw [Expression.opensBlock_of_continuesBranch hcontinues] at hopens
                    cases hopens
              have hstatement : Fragment.ofExpression x = .statement x := by
                simp [Fragment.ofExpression, hopens]
              rw [hstatement, hnone]
              rfl

theorem walk_closings {α : Type} (items : List (Item α)) (isOpen : Bool) :
    Fragment.walk isOpen (closings items) =
      ⟨[], match items.findSome? opened? with
        | some x => x.leavesBranchOpen
        | none => isOpen⟩ := by
  induction items with
  | nil =>
      rfl
  | cons i rest ih =>
      cases i with
      | child value =>
          rw [closings_child, ih]
          rfl
      | expression x =>
          cases hopens : x.opensBlock with
          | true =>
              have hfirst : ((Item.expression x : Item α) :: rest).findSome? opened? = some x := by
                simp [opened?, hopens]
              rw [closings_opening hopens, Fragment.walk_append, ih, hfirst]
              rfl
          | false =>
              have hfirst : ((Item.expression x : Item α) :: rest).findSome? opened? =
                  rest.findSome? opened? := by
                simp [opened?, hopens]
              rw [closings_statement hopens, ih, hfirst]

theorem findSome?_opened?_map {α β : Type} (f : α -> β) (items : List (Item α)) :
    (items.map (Item.map f)).findSome? opened? = items.findSome? opened? := by
  simp only [List.findSome?_map, Function.comp_def, opened?_map]

end Item

namespace Element

theorem foldItems_walk (t : Text) (e : Element) (isOpen : Bool) :
    e.foldItems t Item.blockWalk isOpen = Fragment.walk isOpen (e.fragments t) := by
  refine foldItems_related t (R := fun (inside : Bool -> Trail) (fragments : List Fragment) =>
    forall isOpen, inside isOpen = Fragment.walk isOpen fragments) ?_ e isOpen
  intro items hitems isOpen
  have hordered : forall value, .child value ∈ Item.loopFirst items ->
      forall isOpen, value.1 isOpen = Fragment.walk isOpen value.2 := by
    intro value hmem
    exact hitems value ((Item.loopFirst_perm items).mem_iff.mp hmem)
  simp only [Item.blockWalk, Item.blockFragments, Item.loopFirst_map, Item.closings_map,
    Item.findSome?_opened?_map, Fragment.walk_append, Item.walk_eq hordered, Item.walk_closings,
    List.append_nil]

theorem mem_stranded {t : Text} {e : Element} {x : Expression} :
    x ∈ e.stranded t ↔
      exists before after, e.fragments t = before ++ .opening x :: after ∧
        x.continuesBranch = true ∧ (Fragment.walk false before).isOpen = false := by
  rw [stranded, foldItems_walk]
  exact Fragment.mem_stranded

/--
Every `else` of a render method follows the brace that closes a branch exactly when no
continuation of the template is stranded.
-/
theorem continuations_follow_branches_iff (t : Text) (template : Element) :
    (forall offset names, (Render.ofTemplate t template offset names).text =
        Render.header ++ Render.preamble names ++ Fragment.spell (template.fragments t) ++
          Render.footer) ∧
      ((forall before x after, template.fragments t = before ++ .opening x :: after ->
          x.kind = .otherwise ∨ x.kind = .elseCondition ->
          exists y, before.getLast? = some (.closing y) ∧
            (y.kind = .condition ∨ y.kind = .elseCondition)) ↔
        template.stranded t = []) := by
  refine ⟨fun offset names => Render.ofTemplate_text t template offset names, ?_⟩
  constructor
  · intro hfollow
    apply List.eq_nil_iff_forall_not_mem.mpr
    intro x hx
    rcases mem_stranded.mp hx with ⟨before, after, hsplit, hcontinues, hopen⟩
    have hkind : x.kind = .otherwise ∨ x.kind = .elseCondition := by
      simpa [Expression.continuesBranch] using hcontinues
    rcases hfollow before x after hsplit hkind with ⟨y, hlast, hy⟩
    rw [Fragment.walk_isOpen, hlast] at hopen
    have hleaves : y.leavesBranchOpen = true := by
      simpa [Expression.leavesBranchOpen] using hy
    exact absurd (hleaves.symm.trans hopen) (by decide)
  · intro hnone before x after hsplit hkind
    have hcontinues : x.continuesBranch = true := by
      simpa [Expression.continuesBranch] using hkind
    have hopen : (Fragment.walk false before).isOpen = true := by
      cases hwalk : (Fragment.walk false before).isOpen with
      | true =>
          rfl
      | false =>
          have hx := mem_stranded.mpr ⟨before, after, hsplit, hcontinues, hwalk⟩
          rw [hnone] at hx
          cases hx
    rw [Fragment.walk_isOpen] at hopen
    cases hlast : before.getLast? with
    | none =>
        rw [hlast] at hopen
        cases hopen
    | some f =>
        rw [hlast] at hopen
        cases f with
        | closing y =>
            refine ⟨y, rfl, ?_⟩
            simpa [Fragment.leavesBranchOpen, Expression.leavesBranchOpen] using hopen
        | opening y =>
            cases hopen
        | statement y =>
            cases hopen

/-- A condition without a value, which writes nothing, and its `else`. -/
def valuelessText : Text :=
  "<template><p v-if>x</p><p v-else>z</p></template>".toList

/-- An `else` that follows no brace, though no orphan is reported. -/
theorem else_without_branch :
    exists template before x after,
      (Document.ofText valuelessText).template? = some template ∧
      template.orphans valuelessText = [] ∧
      template.fragments valuelessText = before ++ .opening x :: after ∧ x.kind = .otherwise ∧
      ¬ exists y, before.getLast? = some (.closing y) ∧
        (y.kind = .condition ∨ y.kind = .elseCondition) := by
  let x : Expression := ⟨.otherwise, 32, 32, [], "v-else".toList⟩
  have hfacts : (Document.ofText valuelessText).template?.any (fun template =>
      template.orphans valuelessText = [] ∧
        template.fragments valuelessText = [.opening x, .closing x]) = true := by
    decide +kernel
  rcases (Option.any_eq_true _ _).mp hfacts with ⟨template, htemplate, hboth⟩
  rcases of_decide_eq_true hboth with ⟨horphans, hfragments⟩
  refine ⟨template, [], x, [.closing x], htemplate, horphans, hfragments, rfl, ?_⟩
  intro ⟨y, hlast, _⟩
  cases hlast

end Element

end SfcServer
