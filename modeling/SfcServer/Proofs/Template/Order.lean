import SfcServer.Proofs.Template.Folding

/-!
# The order of writing

An element writes its own expressions in the order in which they stand, but for the
first loop, which is moved before the first condition when it stands after it.  So
where two expressions stand tells which of them is written first.
-/

namespace SfcServer

/-!
# Pairs in a list
-/

theorem pair_sublist_or {α : Type} {l : List α} {a b : α} (ha : a ∈ l) (hb : b ∈ l)
    (hne : a ≠ b) : [a, b].Sublist l ∨ [b, a].Sublist l := by
  induction l with
  | nil =>
      cases ha
  | cons first rest ih =>
      rcases List.mem_cons.mp ha with hafirst | harest
      · rcases List.mem_cons.mp hb with hbfirst | hbrest
        · exact absurd (hafirst.trans hbfirst.symm) hne
        · subst hafirst
          exact Or.inl (List.Sublist.cons_cons a (List.singleton_sublist.mpr hbrest))
      · rcases List.mem_cons.mp hb with hbfirst | hbrest
        · subst hbfirst
          exact Or.inr (List.Sublist.cons_cons b (List.singleton_sublist.mpr harest))
        · rcases ih harest hbrest with hab | hba
          · exact Or.inl (List.Sublist.cons first hab)
          · exact Or.inr (List.Sublist.cons first hba)

/-- In a list that is sorted by a key, the key tells which of two items stands first. -/
theorem pair_sublist_iff {α : Type} {l : List α} {key : α -> Nat}
    (h : l.Pairwise fun a b => key a < key b) {a b : α} (ha : a ∈ l) (hb : b ∈ l) :
    [a, b].Sublist l ↔ key a < key b := by
  constructor
  · intro hsublist
    exact List.pairwise_iff_forall_sublist.mp h hsublist
  · intro hlt
    have hne : a ≠ b := by
      intro heq
      rw [heq] at hlt
      omega
    rcases pair_sublist_or ha hb hne with hab | hba
    · exact hab
    · have hback := List.pairwise_iff_forall_sublist.mp h hba
      omega

theorem not_both_sublist {α : Type} {l : List α} (h : l.Nodup) {a b : α}
    (hab : [a, b].Sublist l) (hba : [b, a].Sublist l) : False := by
  induction l with
  | nil =>
      cases hab
  | cons first rest ih =>
      rcases List.nodup_cons.mp h with ⟨hfirst, hrest⟩
      cases hab with
      | cons _ hab =>
          cases hba with
          | cons _ hba =>
              exact ih hrest hab hba
          | cons_cons _ ha =>
              exact hfirst (hab.subset (by simp))
      | cons_cons _ hb =>
          cases hba with
          | cons _ hba =>
              exact hfirst (hba.subset (by simp))
          | cons_cons _ ha =>
              exact hfirst (List.singleton_sublist.mp ha)

theorem split_of_length_lt {α : Type} {before front after back : List α} {a b : α}
    (h : before ++ a :: after = front ++ b :: back) (hlt : before.length < front.length) :
    exists middle, front = before ++ a :: middle ∧ after = middle ++ b :: back := by
  rcases List.append_eq_append_iff.mp h with ⟨middle, hfront, hafter⟩ | ⟨middle, hbefore, _⟩
  · cases middle with
    | nil =>
        rw [hfront] at hlt
        simp at hlt
    | cons first middle =>
        injection hafter with hfirst hrest
        subst hfirst
        exact ⟨middle, hfront, hrest⟩
  · rw [hbefore, List.length_append] at hlt
    omega

/-!
# Moving the first loop
-/

namespace Item

variable {α : Type}

theorem hasKind_iff {kind : ExpressionKind} {i : Item α} :
    i.hasKind kind = true ↔ exists x, i = .expression x ∧ x.kind = kind := by
  cases i with
  | expression x =>
      simp [hasKind]
  | child value =>
      simp [hasKind]

theorem findIdx?_hasKind {kind : ExpressionKind} {items : List (Item α)} {index : Nat}
    (h : items.findIdx? (hasKind kind) = some index) :
    exists before x after, items = before ++ .expression x :: after ∧ before.length = index ∧
      x.kind = kind ∧ forall i, i ∈ before -> i.hasKind kind = false := by
  rcases List.findIdx?_eq_some_iff_getElem.mp h with ⟨hlt, hkind, hbefore⟩
  rcases hasKind_iff.mp hkind with ⟨x, hx, hxkind⟩
  refine ⟨items.take index, x, items.drop (index + 1), ?_, ?_, hxkind, ?_⟩
  · rw [← hx, List.getElem_cons_drop, List.take_append_drop]
  · rw [List.length_take]
    omega
  · intro i hi
    rcases List.mem_take_iff_getElem.mp hi with ⟨j, hj, hji⟩
    have hnot := hbefore j (by omega)
    rw [← hji]
    exact Bool.eq_false_iff.mpr hnot

/-- The first loop is moved before the first condition, or no condition stands before it. -/
theorem loopFirst_cases (items : List (Item α)) :
    (loopFirst items = items ∧
      forall before c after, items = before ++ .expression c :: after -> c.kind = .condition ->
        (exists l, .expression l ∈ items ∧ l.kind = .loop) ->
        exists l, .expression l ∈ before ∧ l.kind = .loop) ∨
    (exists before c middle l after,
      items = before ++ .expression c :: (middle ++ .expression l :: after) ∧
      c.kind = .condition ∧ l.kind = .loop ∧
      (forall i, i ∈ before -> i.hasKind .condition = false) ∧
      (forall i, i ∈ before ++ .expression c :: middle -> i.hasKind .loop = false) ∧
      loopFirst items = before ++ .expression l :: .expression c :: (middle ++ after)) := by
  cases hcondition : items.findIdx? (hasKind .condition) with
  | none =>
      refine Or.inl ⟨by simp only [loopFirst, hcondition], ?_⟩
      intro before c after hitems hc _
      have hnone := List.findIdx?_eq_none_iff.mp hcondition (.expression c) (by rw [hitems]; simp)
      simp [hasKind, hc] at hnone
  | some condition =>
      rcases findIdx?_hasKind hcondition with ⟨before, c, rest, hitems, hlength, hc, hbefore⟩
      cases hloop : items.findIdx? (hasKind .loop) with
      | none =>
          refine Or.inl ⟨by simp only [loopFirst, hcondition, hloop], ?_⟩
          intro _ _ _ _ _ ⟨l, hl, hkind⟩
          have hnone := List.findIdx?_eq_none_iff.mp hloop (.expression l) hl
          simp [hasKind, hkind] at hnone
      | some loop =>
          rcases findIdx?_hasKind hloop with ⟨front, l, after, hsplit, hfront, hl, hnoloop⟩
          by_cases hlt : condition < loop
          · refine Or.inr ?_
            rcases split_of_length_lt (hitems.symm.trans hsplit) (by omega) with
              ⟨middle, hmiddle, _⟩
            subst hmiddle
            refine ⟨before, c, middle, l, after, ?_, hc, hl, hbefore, hnoloop, ?_⟩
            · rw [hsplit, List.append_assoc, List.cons_append]
            · have htake : items.take condition = before := by
                rw [hitems, List.take_left' hlength]
              have hdrop : items.drop loop = .expression l :: after := by
                rw [hsplit, List.drop_left' hfront]
              have hbetween : (items.drop condition).take (loop - condition) =
                  .expression c :: middle := by
                rw [hsplit, List.append_assoc, List.drop_left' hlength]
                apply List.take_left'
                rw [List.length_append] at hfront
                omega
              simp only [loopFirst, hcondition, hloop, if_pos hlt]
              rw [htake, hbetween, ← List.drop_drop, hdrop]
              simp
          · refine Or.inl ⟨by simp only [loopFirst, hcondition, hloop, if_neg hlt], ?_⟩
            intro other x tail hother hx _
            refine ⟨l, ?_, hl⟩
            have hne : front.length ≠ other.length := by
              intro heq
              have hsame := (List.append_inj (hsplit.symm.trans hother) heq).2
              injection hsame with hsame
              injection hsame with hsame
              rw [hsame, hx] at hl
              cases hl
            by_cases hother_lt : other.length < front.length
            · -- A condition before the first loop would be found before the first condition.
              rcases split_of_length_lt (hother.symm.trans hsplit) hother_lt with
                ⟨middle, hmiddle, _⟩
              have hlead : front <+: before :=
                List.prefix_of_prefix_length_le ⟨_, hsplit.symm⟩ ⟨_, hitems.symm⟩ (by omega)
              have hnone := hbefore (.expression x) (hlead.subset (by rw [hmiddle]; simp))
              simp [hasKind, hx] at hnone
            · rcases split_of_length_lt (hsplit.symm.trans hother) (by omega) with
                ⟨middle, hmiddle, _⟩
              rw [hmiddle]
              simp

end Item

namespace Expression

/--
The own expression `d` of an element is written before its binding `b`: it stands before
it, or it is the loop that is moved before a condition which stands before it.
-/
def WrittenBefore (own : List Expression) (d b : Expression) : Prop :=
  d.start < b.start ∨
    (d.kind = .loop ∧ (forall l, l ∈ own -> l.kind = .loop -> d.start ≤ l.start) ∧
      exists c, c ∈ own ∧ c.kind = .condition ∧ c.start < b.start)

/-- A key for the order of writing when `l` is moved before `c`. -/
def writingKey (c l x : Expression) : Nat :=
  if x = l then 2 * c.start else 2 * x.start + 1

theorem writingKey_of_ne {c l x : Expression} (h : x ≠ l) :
    writingKey c l x = 2 * x.start + 1 := by
  simp [writingKey, h]

theorem writingKey_self (c l : Expression) : writingKey c l l = 2 * c.start := by
  simp [writingKey]

/-- Moving a loop before a condition leaves a list that is sorted by the key. -/
theorem moved_pairwise {front middle back : List Expression} {c l : Expression}
    (h : (front ++ c :: (middle ++ l :: back)).Pairwise fun x y => x.start < y.start) :
    (front ++ l :: c :: (middle ++ back)).Pairwise
      fun x y => writingKey c l x < writingKey c l y := by
  rcases List.pairwise_append.mp h with ⟨_, htail, hfront⟩
  rcases List.pairwise_cons.mp htail with ⟨hc, hinner⟩
  rcases List.pairwise_append.mp hinner with ⟨_, hend, hmiddle⟩
  rcases List.pairwise_cons.mp hend with ⟨hl, _⟩
  have hcl : c.start < l.start := hc l (by simp)
  have hkept : forall x, x ∈ front ++ c :: (middle ++ back) -> x ≠ l := by
    intro x hx heq
    subst heq
    simp only [List.mem_append, List.mem_cons] at hx
    rcases hx with hx | hx | hx | hx
    · have hlt := hfront x hx x (by simp)
      omega
    · rw [hx] at hcl
      omega
    · have hlt := hmiddle x hx x (by simp)
      omega
    · have hlt := hl x hx
      omega
  have hrest : (front ++ c :: (middle ++ back)).Sublist (front ++ c :: (middle ++ l :: back)) :=
    (((List.sublist_cons_self l back).append_left middle).cons_cons c).append_left front
  have hsorted : (front ++ c :: (middle ++ back)).Pairwise
      fun x y => writingKey c l x < writingKey c l y := by
    refine (h.sublist hrest).imp_of_mem ?_
    intro x y hx hy hlt
    rw [writingKey_of_ne (hkept x hx), writingKey_of_ne (hkept y hy)]
    omega
  rcases List.pairwise_append.mp hsorted with ⟨hfrontSorted, htailSorted, hacross⟩
  refine List.pairwise_append.mpr ⟨hfrontSorted, List.pairwise_cons.mpr ⟨?_, htailSorted⟩, ?_⟩
  · intro y hy
    have hle : c.start ≤ y.start := by
      rcases List.mem_cons.mp hy with heq | hlater
      · exact Nat.le_of_eq (congrArg Expression.start heq.symm)
      · refine Nat.le_of_lt (hc y ?_)
        simp only [List.mem_append, List.mem_cons] at hlater ⊢
        exact hlater.imp_right Or.inr
    rw [writingKey_self, writingKey_of_ne (hkept y (List.mem_append_right _ hy))]
    omega
  · intro x hx y hy
    rcases List.mem_cons.mp hy with heq | hlater
    · have hlt := hfront x hx c List.mem_cons_self
      rw [heq, writingKey_self, writingKey_of_ne (hkept x (List.mem_append_left _ hx))]
      omega
    · exact hacross x hx y hlater

/-- The order of writing when `l` is moved before `c`, told from where expressions stand. -/
theorem moved_order {front middle back : List Expression} {c l d b : Expression}
    (hsorted : (front ++ c :: (middle ++ l :: back)).Pairwise fun x y => x.start < y.start)
    (hc : c.kind = .condition) (hl : l.kind = .loop)
    (hfront : forall x, x ∈ front -> x.kind ≠ .condition)
    (hahead : forall x, x ∈ front ++ c :: middle -> x.kind ≠ .loop)
    (hd : d ∈ front ++ c :: (middle ++ l :: back)) (hb : b ∈ front ++ c :: (middle ++ l :: back))
    (hbinding : b.kind = .binding) :
    [d, b].Sublist (front ++ l :: c :: (middle ++ back)) ↔
      WrittenBefore (front ++ c :: (middle ++ l :: back)) d b := by
  have hperm : (front ++ l :: c :: (middle ++ back)).Perm (front ++ c :: (middle ++ l :: back)) :=
    ((List.Perm.swap c l _).trans (List.perm_middle.symm.cons c)).append_left front
  rw [pair_sublist_iff (moved_pairwise hsorted) (hperm.mem_iff.mpr hd) (hperm.mem_iff.mpr hb)]
  rcases List.pairwise_append.mp hsorted with ⟨_, htail, hacross⟩
  rcases List.pairwise_cons.mp htail with ⟨hafter, hinner⟩
  rcases List.pairwise_append.mp hinner with ⟨_, hend, _⟩
  have hbl : b ≠ l := by
    intro heq
    rw [heq, hl] at hbinding
    cases hbinding
  -- Every loop but the moved one stands after it, every condition but the first after that.
  have hloops : forall x, x ∈ front ++ c :: (middle ++ l :: back) -> x.kind = .loop ->
      x = l ∨ l.start < x.start := by
    intro x hx hkind
    have hcases : x ∈ front ++ c :: middle ∨ x = l ∨ x ∈ back := by
      simp only [List.mem_append, List.mem_cons] at hx ⊢
      rcases hx with hx | hx | hx | hx | hx
      · exact Or.inl (Or.inl hx)
      · exact Or.inl (Or.inr (Or.inl hx))
      · exact Or.inl (Or.inr (Or.inr hx))
      · exact Or.inr (Or.inl hx)
      · exact Or.inr (Or.inr hx)
    rcases hcases with hx | hx | hx
    · exact absurd hkind (hahead x hx)
    · exact Or.inl hx
    · exact Or.inr ((List.pairwise_cons.mp hend).1 x hx)
  have hconditions : forall x, x ∈ front ++ c :: (middle ++ l :: back) -> x.kind = .condition ->
      c.start ≤ x.start := by
    intro x hx hkind
    rcases List.mem_append.mp hx with hx | hx
    · exact absurd hkind (hfront x hx)
    · rcases List.mem_cons.mp hx with hx | hx
      · exact Nat.le_of_eq (congrArg Expression.start hx.symm)
      · exact Nat.le_of_lt (hafter x hx)
  have hcl : c.start < l.start := hafter l (by simp)
  have hbc : b.start ≠ c.start := by
    rcases List.mem_append.mp hb with hbfront | hbtail
    · have hlt := hacross b hbfront c List.mem_cons_self
      omega
    · rcases List.mem_cons.mp hbtail with heq | hblater
      · rw [heq, hc] at hbinding
        cases hbinding
      · have hlt := hafter b hblater
        omega
  rw [writingKey_of_ne hbl]
  by_cases hdl : d = l
  · subst hdl
    rw [writingKey_self]
    constructor
    · intro hlt
      refine Or.inr ⟨hl, ?_, c, by simp, hc, by omega⟩
      intro x hx hkind
      rcases hloops x hx hkind with heq | hlater
      · exact Nat.le_of_eq (congrArg Expression.start heq.symm)
      · omega
    · intro hbefore
      rcases hbefore with hlt | ⟨_, _, x, hx, hkind, hlt⟩
      · omega
      · have hle := hconditions x hx hkind
        omega
  · rw [writingKey_of_ne hdl]
    constructor
    · intro hlt
      exact Or.inl (by omega)
    · intro hbefore
      rcases hbefore with hlt | ⟨hkind, hfirst, _⟩
      · omega
      · have hle := hfirst l (by simp) hl
        rcases hloops d hd hkind with heq | hlater
        · exact absurd heq hdl
        · omega

end Expression

namespace Item

variable {α : Type}

theorem expression_mem_iff {items : List (Item α)} {x : Expression} :
    x ∈ items.filterMap expression? ↔ .expression x ∈ items := by
  simp only [List.mem_filterMap]
  constructor
  · intro ⟨i, hi, hx⟩
    cases i with
    | expression y =>
        cases hx
        exact hi
    | child value =>
        cases hx
  · intro hx
    exact ⟨.expression x, hx, rfl⟩

/-- Which of two own expressions is written first can be told from where they stand. -/
theorem loopFirst_order {items : List (Item α)}
    (hsorted : (items.filterMap expression?).Pairwise fun x y => x.start < y.start)
    {d b : Expression} (hd : d ∈ items.filterMap expression?)
    (hb : b ∈ items.filterMap expression?) (hbinding : b.kind = .binding) :
    [d, b].Sublist ((loopFirst items).filterMap expression?) ↔
      Expression.WrittenBefore (items.filterMap expression?) d b := by
  rcases loopFirst_cases items with ⟨hsame, hearlier⟩ |
    ⟨before, c, middle, l, after, hitems, hc, hl, hnocondition, hnoloop, hmoved⟩
  · rw [hsame, pair_sublist_iff hsorted hd hb]
    refine ⟨Or.inl, ?_⟩
    intro hbefore
    rcases hbefore with hlt | ⟨hloop, hfirst, c, hcmem, hc, hlt⟩
    · exact hlt
    · rcases List.append_of_mem (expression_mem_iff.mp hcmem) with ⟨front, back, hsplit⟩
      rcases hearlier front c back hsplit hc ⟨d, expression_mem_iff.mp hd, hloop⟩ with
        ⟨l, hlmem, hl⟩
      have hle := hfirst l (expression_mem_iff.mpr (by rw [hsplit]; simp [hlmem])) hl
      rw [hsplit, List.filterMap_append] at hsorted
      have hacross := (List.pairwise_append.mp hsorted).2.2 l (expression_mem_iff.mpr hlmem) c
        (expression_mem_iff.mpr List.mem_cons_self)
      omega
  · have hown : items.filterMap expression? = before.filterMap expression? ++
        c :: (middle.filterMap expression? ++ l :: after.filterMap expression?) := by
      rw [hitems]
      simp [expression?]
    have horder : (loopFirst items).filterMap expression? = before.filterMap expression? ++
        l :: c :: (middle.filterMap expression? ++ after.filterMap expression?) := by
      rw [hmoved]
      simp [expression?]
    have hfront : forall x, x ∈ before.filterMap expression? -> x.kind ≠ .condition := by
      intro x hx hkind
      have hnone := hnocondition _ (expression_mem_iff.mp hx)
      simp [hasKind, hkind] at hnone
    have hahead : forall x, x ∈ before.filterMap expression? ++
        c :: middle.filterMap expression? -> x.kind ≠ .loop := by
      intro x hx hkind
      have hmem : x ∈ (before ++ .expression c :: middle).filterMap expression? := by
        simpa [expression?] using hx
      have hnone := hnoloop _ (expression_mem_iff.mp hmem)
      simp [hasKind, hkind] at hnone
    have hperm := (loopFirst_perm items).filterMap expression?
    have hdorder := hperm.mem_iff.mpr hd
    have hborder := hperm.mem_iff.mpr hb
    rw [horder] at hdorder hborder ⊢
    rw [hown] at hsorted hd hb ⊢
    exact Expression.moved_order hsorted hc hl hfront hahead hd hb hbinding

end Item

end SfcServer
