import SfcServer.Fault

/-!
# Actions and their contracts

Actions of the service and of the server read what they meet, change a state, and can
fail; what they changed before they failed stays changed.  A contract says what holds of
the state when an action ends, with a value or with a failure.  There is one rule for each
way in which actions are put together.
-/

namespace SfcServer

/-- An action that meets `ρ`, changes `σ`, and gives a value or fails. -/
abbrev Action (ρ σ α : Type) :=
  ReaderT ρ (ExceptT Fault (StateM σ)) α

namespace Action

variable {ρ σ α β : Type}

def outcome (a : Action ρ σ α) (c : ρ) (s : σ) : Except Fault α × σ :=
  (a.run c).run.run s

/-- In states with `P` an action ends with a value that fits `Q`, or it fails and leaves `E`. -/
def Meets (c : ρ) (P : σ -> Prop) (a : Action ρ σ α) (Q : α -> σ -> Prop) (E : σ -> Prop) :
    Prop :=
  forall s, P s ->
    match a.outcome c s with
    | (.ok v, after) => Q v after
    | (.error _, after) => E after

abbrev Leads (c : ρ) (P : σ -> Prop) (a : Action ρ σ α) (R : σ -> Prop) : Prop :=
  Meets c P a (fun _ => R) R

abbrev Keeps (c : ρ) (I : σ -> Prop) (a : Action ρ σ α) : Prop :=
  Leads c I a I

abbrev Ends (c : ρ) (P : σ -> Prop) (a : Action ρ σ α) (R : σ -> Prop) : Prop :=
  Meets c P a (fun _ => R) (fun _ => False)

variable {c : ρ} {P R : σ -> Prop} {Q : α -> σ -> Prop} {E E' : σ -> Prop}

theorem Meets.pure {v : α} (h : forall s, P s -> Q v s) :
    Meets c P (Pure.pure v : Action ρ σ α) Q E :=
  h

theorem Meets.throw {f : Fault} (h : forall s, P s -> E s) :
    Meets c P (throw f : Action ρ σ α) Q E :=
  h

theorem Meets.read {Q : ρ -> σ -> Prop} (h : forall s, P s -> Q c s) :
    Meets c P (MonadReader.read : Action ρ σ ρ) Q E :=
  h

theorem Meets.modify {f : σ -> σ} {Q : Unit -> σ -> Prop} (h : forall s, P s -> Q () (f s)) :
    Meets c P (modify f : Action ρ σ Unit) Q E :=
  h

theorem outcome_bind (a : Action ρ σ α) (f : α -> Action ρ σ β) (s : σ) :
    (a >>= f).outcome c s =
      match a.outcome c s with
      | (.ok v, after) => (f v).outcome c after
      | (.error e, after) => (.error e, after) := by
  show (match a.outcome c s with
    | (r, after) => (ExceptT.bindCont (fun v => f v c) r : StateM σ _) after) = _
  rcases a.outcome c s with ⟨_ | _, _⟩ <;> rfl

theorem outcome_tryCatch (a : Action ρ σ α) (h : Fault -> Action ρ σ α) (s : σ) :
    (tryCatch a h).outcome c s =
      match a.outcome c s with
      | (.ok v, after) => (.ok v, after)
      | (.error e, after) => (h e).outcome c after := by
  rcases houtcome : a.outcome c s with ⟨e | v, after⟩
  all_goals
    have hrun : a c s = _ := houtcome
    simp only [outcome, tryCatch, tryCatchThe, MonadExceptOf.tryCatch, ExceptT.tryCatch,
      ReaderT.run, ExceptT.run, StateT.run, ExceptT.mk, bind, StateT.bind, hrun]
  · rfl

theorem Meets.bind {a : Action ρ σ α} {f : α -> Action ρ σ β} {Q' : β -> σ -> Prop}
    (ha : Meets c P a Q E) (hf : forall v, Meets c (Q v) (f v) Q' E) :
    Meets c P (a >>= f) Q' E := by
  intro s hs
  have hend := ha s hs
  rw [outcome_bind]
  rcases houtcome : a.outcome c s with ⟨_ | v, after⟩
  · rw [houtcome] at hend
    exact hend
  · rw [houtcome] at hend
    exact hf v after hend

theorem Meets.tryCatch {a : Action ρ σ α} {h : Fault -> Action ρ σ α}
    (ha : Meets c P a Q E') (hh : forall e, Meets c E' (h e) Q E) :
    Meets c P (tryCatch a h) Q E := by
  intro s hs
  have hend := ha s hs
  rw [outcome_tryCatch]
  rcases houtcome : a.outcome c s with ⟨e | _, after⟩
  · rw [houtcome] at hend
    exact hh e after hend
  · rw [houtcome] at hend
    exact hend

theorem Meets.map {a : Action ρ σ α} {f : α -> β} {Q' : β -> σ -> Prop}
    (h : Meets c P a (fun v => Q' (f v)) E) : Meets c P (f <$> a) Q' E := by
  rw [map_eq_pure_bind]
  exact Meets.bind h fun _ => Meets.pure fun _ hs => hs

theorem Meets.discard {a : Action ρ σ α} {Q' : PUnit -> σ -> Prop}
    (h : Meets c P a (fun _ => Q' ⟨⟩) E) : Meets c P (discard a) Q' E := by
  rw [Functor.discard, map_const]
  exact Meets.map h

theorem Meets.mono {a : Action ρ σ α} {Q' : α -> σ -> Prop} (ha : Meets c P a Q E)
    (hbefore : forall s, R s -> P s) (hafter : forall v s, Q v s -> Q' v s)
    (hfail : forall s, E s -> E' s) : Meets c R a Q' E' := by
  intro s hs
  have hend := ha s (hbefore s hs)
  rcases houtcome : a.outcome c s with ⟨_ | v, after⟩
  · rw [houtcome] at hend
    exact hfail after hend
  · rw [houtcome] at hend
    exact hafter v after hend

theorem Meets.weaken {a : Action ρ σ α} (ha : Meets c P a Q E) (h : forall s, R s -> P s) :
    Meets c R a Q E :=
  ha.mono h (fun _ _ hs => hs) (fun _ hs => hs)

theorem Meets.given {p : Prop} {a : Action ρ σ α} (h : p -> Meets c P a Q E) :
    Meets c (fun s => p ∧ P s) a Q E :=
  fun s hs => h hs.1 s hs.2

theorem Ends.meets {a : Action ρ σ α} (h : Ends c P a R) : Meets c P a (fun _ => R) E :=
  h.mono (fun _ hs => hs) (fun _ _ hs => hs) (fun _ hfalse => hfalse.elim)

theorem Ends.keeps {a : Action ρ σ α} (h : Ends c P a R) : Leads c P a R :=
  h.meets

theorem Meets.lift {x : Except Fault α} (hok : forall v s, x = .ok v -> P s -> Q v s)
    (herror : forall s, P s -> E s) :
    Meets c P (liftM x : Action ρ σ α) Q E := by
  cases x with
  | ok v =>
      exact fun s hs => hok v s rfl hs
  | error e =>
      exact herror

/-- An action for each item of a list; what holds may depend on the items that are left. -/
theorem Meets.forM {f : α -> Action ρ σ PUnit} {I : List α -> σ -> Prop}
    (h : forall x rest, Meets c (I (x :: rest)) (f x) (fun _ => I rest) E) (items : List α) :
    Meets c (I items) (items.forM f) (fun _ => I []) E := by
  induction items with
  | nil =>
      exact Meets.pure fun _ hs => hs
  | cons x rest ih =>
      exact Meets.bind (h x rest) fun _ => ih

theorem Meets.forIn {f : α -> PUnit -> Action ρ σ (ForInStep PUnit)} {I : List α -> σ -> Prop}
    (h : forall x rest, Meets c (I (x :: rest)) (f x ⟨⟩)
      (fun step s => step = .yield ⟨⟩ ∧ I rest s) E) (items : List α) :
    Meets c (I items) (ForIn.forIn items PUnit.unit f) (fun _ => I []) E := by
  induction items with
  | nil =>
      exact Meets.pure fun _ hs => hs
  | cons x rest ih =>
      rw [List.forIn_cons]
      refine Meets.bind (h x rest) ?_
      rintro step s ⟨rfl, hs⟩
      exact ih s hs

theorem Meets.leaves {a : Action ρ σ α} (h : Leads c P a R) {s : σ} (hs : P s) :
    R (a.outcome c s).2 := by
  have hend := h s hs
  rcases houtcome : a.outcome c s with ⟨_ | _, after⟩
  · rw [houtcome] at hend
    exact hend
  · rw [houtcome] at hend
    exact hend

theorem Keeps.pure (c : ρ) (I : σ -> Prop) (v : α) :
    Keeps c I (Pure.pure v : Action ρ σ α) :=
  Meets.pure fun _ hs => hs

theorem Keeps.throw (c : ρ) (I : σ -> Prop) (f : Fault) :
    Keeps c I (MonadExcept.throw f : Action ρ σ α) :=
  Meets.throw fun _ hs => hs

theorem Keeps.lift (c : ρ) (I : σ -> Prop) (x : Except Fault α) :
    Keeps c I (liftM x : Action ρ σ α) :=
  Meets.lift (fun _ _ _ hs => hs) (fun _ hs => hs)

theorem Keeps.mapM {f : α -> Action ρ σ β} {I : σ -> Prop} (h : forall x, Keeps c I (f x))
    (items : List α) : Keeps c I (items.mapM f) := by
  induction items with
  | nil =>
      rw [List.mapM_nil]
      exact Meets.pure fun _ hs => hs
  | cons x rest ih =>
      rw [List.mapM_cons]
      refine Meets.bind (h x) fun y => ?_
      exact Meets.bind ih fun ys => Meets.pure fun _ hs => hs

end Action
end SfcServer
