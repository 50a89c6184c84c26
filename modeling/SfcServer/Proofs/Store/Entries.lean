import SfcServer.Proofs.Keyed
import SfcServer.Store.Load

/-!
# The entries of a store

Queries derive from the texts in a store, and never drop what was derived; at most they add
documents that are not open.  Changes drop what was derived from the text of a document, and
what its dependents derived; they never build a projection.
-/

namespace SfcServer

theorem Projection.build?_marks {uri text : Text} {markup : Document}
    {component : Option Component} {version : Nat} {p : Projection}
    (h : build? uri text markup component version = some p) :
    p.uri = uri ∧ p.version = version := by
  unfold build? at h
  rcases Option.bind_eq_some_iff.mp h with ⟨_, _, h⟩
  rcases Option.bind_eq_some_iff.mp h with ⟨_, _, h⟩
  rcases Option.bind_eq_some_iff.mp h with ⟨_, _, h⟩
  rcases Option.bind_eq_some_iff.mp h with ⟨_, _, h⟩
  rcases Option.bind_eq_some_iff.mp h with ⟨_, _, h⟩
  cases h
  exact ⟨rfl, rfl⟩

/-!
# Queries
-/

namespace Entry

def Ready (e : Entry) : Prop :=
  e.derived.projection.isSome

instance (e : Entry) : Decidable e.Ready :=
  inferInstanceAs (Decidable (_ = true))

structure Alike (e after : Entry) : Prop where
  isOpen : after.isOpen = e.isOpen
  version : after.version = e.version
  projection : after.derived.projection = e.derived.projection
  generation : after.generation = e.generation

/-- A projection was built, as the next one of its document. -/
structure Projected (uri : Text) (e after : Entry) : Prop where
  isOpen : after.isOpen = e.isOpen
  version : after.version = e.version
  before : e.derived.projection = none
  generation : after.generation = e.generation + 1
  ready : after.Ready
  marks : forall p, after.derived.projection = some (some p) ->
    p.uri = uri ∧ p.version = after.generation

def Grows (uri : Text) (e after : Entry) : Prop :=
  e.Alike after ∨ e.Projected uri after

theorem Alike.refl (e : Entry) : e.Alike e :=
  ⟨rfl, rfl, rfl, rfl⟩

theorem Alike.trans {e f g : Entry} (h : e.Alike f) (h' : f.Alike g) : e.Alike g :=
  ⟨h'.isOpen.trans h.isOpen, h'.version.trans h.version, h'.projection.trans h.projection,
    h'.generation.trans h.generation⟩

theorem Projected.not_grows {uri : Text} {e f g : Entry} (h : e.Projected uri f) :
    ¬ f.Projected uri g := by
  intro hagain
  have hready := h.ready
  rw [Ready, hagain.before] at hready
  cases hready

theorem Grows.trans {uri : Text} {e f g : Entry} (h : e.Grows uri f) (h' : f.Grows uri g) :
    e.Grows uri g := by
  rcases h with h | h
  · rcases h' with h' | h'
    · exact Or.inl (h.trans h')
    · refine Or.inr ⟨h'.isOpen.trans h.isOpen, h'.version.trans h.version,
        h.projection ▸ h'.before, ?_, h'.ready, h'.marks⟩
      rw [h'.generation, h.generation]
  · rcases h' with h' | h'
    · refine Or.inr ⟨h'.isOpen.trans h.isOpen, h'.version.trans h.version, h.before,
        h'.generation.trans h.generation, ?_, ?_⟩
      · rw [Ready, h'.projection]
        exact h.ready
      · rw [h'.projection, h'.generation]
        exact h.marks
    · exact absurd h' h.not_grows

theorem Grows.isOpen {uri : Text} {e after : Entry} (h : e.Grows uri after) :
    after.isOpen = e.isOpen := by
  rcases h with h | h
  · exact h.isOpen
  · exact h.isOpen

theorem Grows.version {uri : Text} {e after : Entry} (h : e.Grows uri after) :
    after.version = e.version := by
  rcases h with h | h
  · exact h.version
  · exact h.version

theorem Grows.ready {uri : Text} {e after : Entry} (h : e.Grows uri after) (he : e.Ready) :
    after.Ready := by
  rcases h with h | h
  · rw [Ready, h.projection]
    exact he
  · exact h.ready

end Entry

namespace Store

/--
What queries do to a store: entries stay and grow.  A query that brings something adds
documents that are not open.
-/
structure Extends (brings : Prop) (s after : Store) : Prop where
  nodup : s.keys.Nodup -> after.keys.Nodup
  grows : forall uri e, s.entryOf? uri = some e ->
    exists e', after.entryOf? uri = some e' ∧ e.Grows uri e'
  brought : forall uri e', s.entryOf? uri = none -> after.entryOf? uri = some e' ->
    brings ∧ exists text, Entry.Grows uri { text := text, isOpen := false } e'

variable {brings : Prop} {s t u : Store} {uri : Text} {e : Entry}

theorem Extends.refl (s : Store) : s.Extends brings s where
  nodup h := h
  grows _ e h := ⟨e, h, Or.inl (Entry.Alike.refl e)⟩
  brought _ _ hnone hsome := by
    rw [hnone] at hsome
    cases hsome

theorem Extends.trans (h : s.Extends brings t) (h' : t.Extends brings u) :
    s.Extends brings u where
  nodup hs := h'.nodup (h.nodup hs)
  grows uri e he := by
    rcases h.grows uri e he with ⟨f, hf, hef⟩
    rcases h'.grows uri f hf with ⟨g, hg, hfg⟩
    exact ⟨g, hg, hef.trans hfg⟩
  brought uri g hnone hg := by
    cases hf : t.entryOf? uri with
    | none =>
        exact h'.brought uri g hf hg
    | some f =>
        rcases h.brought uri f hnone hf with ⟨hbrings, text, hgrown⟩
        rcases h'.grows uri f hf with ⟨g', hg', hfg⟩
        rw [hg] at hg'
        cases hg'
        exact ⟨hbrings, text, hgrown.trans hfg⟩

theorem entryOf?_put (s : Store) (key k : Text) (e : Entry) :
    Store.entryOf? (Keyed.put key e s) k = if key = k then some e else s.entryOf? k :=
  Keyed.get?_put key k e s

theorem Extends.put {e' : Entry} (he : s.entryOf? uri = some e) (hgrows : e.Grows uri e') :
    s.Extends brings (Keyed.put uri e' s) where
  nodup := Keyed.keys_put_nodup
  grows k f hf := by
    rw [entryOf?_put]
    split
    · next hk =>
        subst hk
        rw [he] at hf
        cases hf
        exact ⟨e', rfl, hgrows⟩
    · exact ⟨f, hf, Or.inl (Entry.Alike.refl f)⟩
  brought k f hnone hf := by
    rw [entryOf?_put] at hf
    split at hf
    · next hk =>
        subst hk
        rw [he] at hnone
        cases hnone
    · rw [hnone] at hf
      cases hf

theorem Extends.add (hbrings : brings) (hnone : s.entryOf? uri = none) (text : Text) :
    s.Extends brings (Keyed.put uri { text := text, isOpen := false } s) where
  nodup := Keyed.keys_put_nodup
  grows k f hf := by
    rw [entryOf?_put]
    split
    · next hk =>
        subst hk
        rw [hnone] at hf
        cases hf
    · exact ⟨f, hf, Or.inl (Entry.Alike.refl f)⟩
  brought k f hk hf := by
    rw [entryOf?_put] at hf
    split at hf
    · cases hf
      exact ⟨hbrings, text, Or.inl (Entry.Alike.refl _)⟩
    · rw [hk] at hf
      cases hf

theorem markup?_extends (s : Store) (uri : Text) : s.Extends brings (s.markup? uri).2 := by
  unfold markup?
  split
  · exact Extends.refl s
  · next e he =>
      split
      · exact Extends.refl s
      · exact Extends.put he (Or.inl ⟨rfl, rfl, rfl, rfl⟩)

section

variable [ScriptParser]

/-- Reading the component of an entry leaves the entry as it is, or puts one like it in place. -/
theorem ownComponent_store (s : Store) (uri : Text) (e : Entry) :
    (s.ownComponent uri e).store = s ∨
      exists e', (s.ownComponent uri e).store = Keyed.put uri e' s ∧ e.Alike e' := by
  unfold ownComponent
  split
  · exact Or.inl rfl
  · right
    simp only
    split
    · exact ⟨_, rfl, rfl, rfl, rfl, rfl⟩
    · exact ⟨_, rfl, rfl, rfl, rfl, rfl⟩
    · exact ⟨_, rfl, rfl, rfl, rfl, rfl⟩

theorem ownComponent_extends (he : s.entryOf? uri = some e) :
    s.Extends brings (s.ownComponent uri e).store := by
  rcases s.ownComponent_store uri e with hsame | ⟨e', hput, hlike⟩
  · rw [hsame]
    exact Extends.refl s
  · rw [hput]
    exact Extends.put he (Or.inl hlike)

theorem component_extends (hbrings : brings) (files : Files) (s : Store) (uri : Text) :
    s.Extends brings (component files s uri).store := by
  unfold component
  split
  · next e he =>
      exact ownComponent_extends he
  · next hnone =>
      split
      · exact Extends.refl s
      · exact Extends.refl s
      · next text _ =>
          refine (Extends.add hbrings hnone text).trans (ownComponent_extends ?_)
          rw [entryOf?_put, if_pos rfl]

theorem addRegistered_extends (hbrings : brings) (files : Files)
    (found : Loaded (Except Fault (Keyed Component))) (r : Registration) :
    found.store.Extends brings (addRegistered files found r).store := by
  unfold addRegistered
  split
  · exact Extends.refl _
  · simp only
    split
    · exact Extends.refl _
    · exact component_extends hbrings files _ _

theorem registered_extends (hbrings : brings) (files : Files) (s : Store) (uri : Text) :
    s.Extends brings (registered files s uri).store := by
  have hown := component_extends hbrings files s uri
  have hfold (rs : List Registration) (found : Loaded (Except Fault (Keyed Component))) :
      found.store.Extends brings (rs.foldl (addRegistered files) found).store := by
    induction rs generalizing found with
    | nil =>
        exact Extends.refl _
    | cons r rest ih =>
        exact (addRegistered_extends hbrings files found r).trans (ih _)
  unfold registered
  simp only
  split
  · exact hown
  · exact hown
  · next c _ =>
      exact hown.trans (hfold c.registered { component files s uri with value := .ok [] })

theorem component_of_stored (files : Files) (he : s.entryOf? uri = some e) :
    component files s uri =
      ⟨.ok (s.ownComponent uri e).value, (s.ownComponent uri e).store, [],
        (s.ownComponent uri e).notices⟩ := by
  have hreads : (s.ownComponent uri e).reads = [] := by
    unfold ownComponent
    split
    · rfl
    · simp only
      split <;> rfl
  rw [component, he, ← hreads]

theorem projection_eq (s : Store) (uri : Text) (files : Files) :
    s.projection uri files =
      match s.entryOf? uri with
      | none => ⟨none, s, [], []⟩
      | some e =>
        match e.derived.projection with
        | some p => ⟨p, s, [], []⟩
        | none =>
          let d := e.derived.markup.getD (Document.ofText e.text)
          let own := s.ownComponent uri e
          let p := Projection.build? uri e.text d own.value (e.generation + 1)
          let derived : Derived := ⟨some d, some own.value, some p⟩
          ⟨p, Keyed.put uri { e with derived := derived, generation := e.generation + 1 } own.store,
            [], own.notices⟩ := by
  unfold projection
  cases he : s.entryOf? uri with
  | none =>
      rfl
  | some e =>
      cases hderived : e.derived.projection with
      | some p =>
          simp only [hderived]
      | none =>
          simp only [hderived, component_of_stored files he]

theorem projection_reads (s : Store) (uri : Text) (files : Files) :
    (s.projection uri files).reads = [] := by
  rw [projection_eq]
  split
  · rfl
  · split <;> rfl

theorem projection_entry (he : s.entryOf? uri = some e) :
    exists e', (s.projection uri).store.entryOf? uri = some e' ∧ e.Grows uri e' ∧
      e'.derived.projection = some (s.projection uri).value := by
  rw [projection_eq]
  rw [he]
  simp only
  split
  · next p hp =>
      exact ⟨e, he, Or.inl (Entry.Alike.refl e), hp⟩
  · next hnone =>
      rw [entryOf?_put, if_pos rfl]
      refine ⟨_, rfl, Or.inr ⟨rfl, rfl, hnone, rfl, rfl, ?_⟩, rfl⟩
      intro p hp
      exact Projection.build?_marks (Option.some.inj hp)

theorem projection_entryOf?_of_ne {k : Text} (hk : uri ≠ k) (s : Store) :
    (s.projection uri).store.entryOf? k = s.entryOf? k := by
  rw [projection_eq]
  split
  · rfl
  · next e _ =>
      split
      · rfl
      · simp only
        rw [entryOf?_put, if_neg hk]
        rcases s.ownComponent_store uri e with hsame | ⟨_, hput, _⟩
        · rw [hsame]
        · rw [hput, entryOf?_put, if_neg hk]

theorem projection_nodup (h : s.keys.Nodup) : (s.projection uri).store.keys.Nodup := by
  rw [projection_eq]
  split
  · exact h
  · next e he =>
      split
      · exact h
      · have hown : s.Extends False (s.ownComponent uri e).store := ownComponent_extends he
        exact Keyed.keys_put_nodup (hown.nodup h)

theorem projection_of_none (h : s.entryOf? uri = none) : (s.projection uri).store = s := by
  rw [projection_eq]
  rw [h]

theorem projection_extends (s : Store) (uri : Text) :
    s.Extends brings (s.projection uri).store where
  nodup := projection_nodup
  grows k e he := by
    by_cases hk : uri = k
    · subst hk
      rcases projection_entry he with ⟨e', he', hgrows, _⟩
      exact ⟨e', he', hgrows⟩
    · rw [projection_entryOf?_of_ne hk]
      exact ⟨e, he, Or.inl (Entry.Alike.refl e)⟩
  brought k e hnone he := by
    by_cases hk : uri = k
    · subst hk
      rw [projection_of_none hnone, hnone] at he
      cases he
    · rw [projection_entryOf?_of_ne hk, hnone] at he
      cases he

end

/-!
# Changes
-/

theorem entryOf?_invalidateDependents (s : Store) (uri k : Text) :
    (s.invalidateDependents uri).entryOf? k = (s.entryOf? k).map fun e =>
      if k ≠ uri && e.registers uri then e.invalidate else e := by
  unfold entryOf? invalidateDependents
  induction s with
  | nil =>
      rfl
  | cons row rest ih =>
      rcases row with ⟨other, e⟩
      rw [List.map_cons]
      by_cases hother : other = k
      · subst hother
        simp only [Keyed.get?, if_true, Option.map_some]
        split <;> simp
      · simp only [Keyed.get?, if_neg hother, ← ih]
        split <;> simp

theorem keys_invalidateDependents (s : Store) (uri : Text) :
    (s.invalidateDependents uri).keys = s.keys := by
  unfold invalidateDependents Keyed.keys
  rw [List.map_map]
  apply List.map_congr_left
  rintro ⟨other, e⟩ _
  simp only [Function.comp_apply]
  split <;> rfl

theorem mem_dependents {k : Text} (he : s.entryOf? k = some e) (hk : k ≠ uri)
    (hregisters : e.registers uri = true) : k ∈ s.dependents uri := by
  unfold dependents
  refine List.mem_map.mpr ⟨(k, e), List.mem_filter.mpr ⟨Keyed.mem_of_get? he, ?_⟩, rfl⟩
  simp [hk, hregisters]

/--
What a change does to a store: entries stay as they are, or what they derived is dropped.  A
change that brings something adds documents.
-/
structure Changes (brings : Prop) (dropped : List Text) (s after : Store) : Prop where
  nodup : after.keys.Nodup
  kept : forall k e', after.entryOf? k = some e' -> s.entryOf? k = some e' ∨
    (k ∈ dropped ∧ e'.derived.projection = none ∧
      ((exists e, s.entryOf? k = some e ∧ e'.generation = e.generation) ∨
        (brings ∧ s.entryOf? k = none)))

theorem Changes.invalidateDependents {dropped : List Text} (h : s.Changes brings dropped t)
    (hdropped : forall k, k ∈ t.dependents uri -> k ∈ dropped) :
    s.Changes brings dropped (t.invalidateDependents uri) where
  nodup := by
    rw [keys_invalidateDependents]
    exact h.nodup
  kept k e' he' := by
    rw [entryOf?_invalidateDependents] at he'
    rcases Option.map_eq_some_iff.mp he' with ⟨e, he, heq⟩
    split at heq
    · next hregisters =>
        simp only [Bool.and_eq_true, decide_eq_true_eq] at hregisters
        subst heq
        refine Or.inr ⟨hdropped k (mem_dependents he hregisters.1 hregisters.2), rfl, ?_⟩
        rcases h.kept k e he with hsame | ⟨_, _, hbefore⟩
        · exact Or.inl ⟨e, hsame, rfl⟩
        · exact hbefore
    · subst heq
      exact h.kept k e he

theorem dependents_eq (s : Store) (uri : Text) :
    s.dependents uri =
      ((Keyed.beside uri s).filter fun (_, e) => e.registers uri).map Prod.fst := by
  unfold dependents Keyed.beside
  rw [List.filter_filter]
  congr 1
  apply List.filter_congr
  rintro ⟨other, e⟩ _
  exact Bool.and_comm _ _

theorem dependents_put (s : Store) (uri : Text) (e : Entry) :
    dependents (Keyed.put uri e s) uri = s.dependents uri := by
  rw [dependents_eq, Keyed.beside_put, ← dependents_eq]

theorem openText_changes (h : s.keys.Nodup) (uri text : Text) (version : Int) :
    s.Changes True (uri :: s.dependents uri) (s.openText uri text version) := by
  unfold openText
  refine Changes.invalidateDependents ⟨Keyed.keys_put_nodup h, ?_⟩
    (fun k hk => List.mem_cons_of_mem _ (dependents_put s uri _ ▸ hk))
  intro k e' he'
  rw [entryOf?_put] at he'
  split at he'
  · next hk =>
      subst hk
      right
      cases he : s.entryOf? uri with
      | none =>
          rw [he] at he'
          cases he'
          exact ⟨List.mem_cons_self, rfl, Or.inr ⟨trivial, rfl⟩⟩
      | some e =>
          rw [he] at he'
          cases he'
          exact ⟨List.mem_cons_self, rfl, Or.inl ⟨e, rfl, rfl⟩⟩
  · exact Or.inl he'

theorem openText_stays {k text : Text} {version : Int} (h : (s.entryOf? k).isSome) :
    ((s.openText uri text version).entryOf? k).isSome := by
  unfold openText
  rw [entryOf?_invalidateDependents, Option.isSome_map, entryOf?_put]
  split
  · rfl
  · exact h

theorem updateText_changes (h : s.keys.Nodup) (he : (s.entryOf? uri).isSome) (text : Text)
    (version : Int) :
    s.Changes False (s.updateText uri text version).1 (s.updateText uri text version).2 := by
  rcases Option.isSome_iff_exists.mp he with ⟨e, he⟩
  unfold updateText
  rw [he]
  refine Changes.invalidateDependents ⟨Keyed.keys_put_nodup h, ?_⟩
    (fun k hk => List.mem_cons_of_mem _ hk)
  intro k e' he'
  rw [entryOf?_put] at he'
  split at he'
  · next hk =>
      subst hk
      cases he'
      exact Or.inr ⟨List.mem_cons_self, rfl, Or.inl ⟨e, he, rfl⟩⟩
  · exact Or.inl he'

theorem entryOf?_of_erase {k : Text} {e' : Entry} (h : s.keys.Nodup)
    (he' : entryOf? (Keyed.erase uri s) k = some e') : s.entryOf? k = some e' := by
  unfold entryOf? at he'
  rw [Keyed.get?_erase h] at he'
  split at he'
  · cases he'
  · exact he'

theorem dependents_erase {k : Text} (hk : k ∈ dependents (Keyed.erase uri s) uri) :
    k ∈ s.dependents uri :=
  (((Keyed.erase_sublist uri s).filter _).map _).mem hk

theorem close_changes (h : s.keys.Nodup) (uri : Text) :
    s.Changes False (s.dependents uri) (s.close uri) :=
  Changes.invalidateDependents
    ⟨Keyed.keys_erase_nodup h, fun _ _ he' => Or.inl (entryOf?_of_erase h he')⟩
    (fun _ hk => dependents_erase hk)

theorem entryOf?_close (h : s.keys.Nodup) (uri : Text) : (s.close uri).entryOf? uri = none := by
  unfold close
  rw [entryOf?_invalidateDependents, entryOf?, Keyed.get?_erase h, if_pos rfl, Option.map_none]

theorem forget_changes (h : s.keys.Nodup) (uri : Text) :
    s.Changes False (s.forget uri).1 (s.forget uri).2 := by
  have hkept : s.Changes False (s.dependents uri) s := ⟨h, fun _ _ he' => Or.inl he'⟩
  unfold forget
  split
  · split
    · exact ⟨h, fun _ _ he' => Or.inl he'⟩
    · exact Changes.invalidateDependents
        ⟨Keyed.keys_erase_nodup h, fun _ _ he' => Or.inl (entryOf?_of_erase h he')⟩
        (fun _ hk => hk)
  · exact hkept.invalidateDependents (fun _ hk => hk)

end Store
end SfcServer
