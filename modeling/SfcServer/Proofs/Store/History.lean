import SfcServer.Proofs.Projection.Script
import SfcServer.Proofs.Store.Coherence

/-!
# Histories of a store

A history starts with the empty store and goes on with one change or query after another.  It
records the projections that were built for the documents in the store.  A document is the same
one from the time it enters the store until it leaves it, and its projections are counted: each
one has a higher version than all those before it.
-/

namespace SfcServer

namespace Entry

/-- The projection that an entry has, unless one was there before. -/
def newProjection? (before : Option Entry) (e : Entry) : Option Projection :=
  if before.any (·.Ready) then none else e.derived.projection.join

/--
How an entry goes on counting its projections.  A new one is counted by the entry, and by none
of its former states.
-/
structure Counts (before : Option Entry) (after : Entry) : Prop where
  generation_le : forall e, before = some e -> e.generation ≤ after.generation
  built_le : forall p, after.newProjection? before = some p -> p.version ≤ after.generation
  lt_built : forall p e, after.newProjection? before = some p -> before = some e ->
    e.generation < p.version
  kept : forall p e, after.derived.projection = some (some p) -> before = some e -> e.Ready ->
    e.derived.projection = some (some p)

theorem newProjection?_of_ready {e after : Entry} (h : e.Ready) :
    after.newProjection? (some e) = none := by
  simp [newProjection?, h]

theorem newProjection?_eq_some {before : Option Entry} {after : Entry} {p : Projection}
    (h : after.newProjection? before = some p) : after.derived.projection = some (some p) := by
  unfold newProjection? at h
  split at h
  · cases h
  · exact Option.join_eq_some_iff.mp h

theorem Grows.counts {uri : Text} {e after : Entry} (h : e.Grows uri after) :
    Counts (some e) after := by
  rcases h with halike | hprojected
  · -- A projection that the entry had is not a new one.
    have hold : forall p, after.newProjection? (some e) ≠ some p := by
      intro p hp
      have hready : e.Ready := by
        rw [Ready, ← halike.projection, newProjection?_eq_some hp]
        rfl
      rw [newProjection?_of_ready hready] at hp
      cases hp
    constructor
    · intro before hbefore
      cases hbefore
      exact Nat.le_of_eq halike.generation.symm
    · intro p hp
      exact absurd hp (hold p)
    · intro p before hp _
      exact absurd hp (hold p)
    · intro p before hp hbefore _
      cases hbefore
      rw [← halike.projection]
      exact hp
  · constructor
    · intro before hbefore
      cases hbefore
      rw [hprojected.generation]
      exact Nat.le_succ _
    · intro p hp
      exact Nat.le_of_eq (hprojected.marks p (newProjection?_eq_some hp)).2
    · intro p before hp hbefore
      cases hbefore
      rw [(hprojected.marks p (newProjection?_eq_some hp)).2, hprojected.generation]
      exact Nat.lt_succ_self _
    · intro p before _ hbefore hready
      cases hbefore
      rw [Ready, hprojected.before] at hready
      cases hready

theorem Counts.of_new {fresh after : Entry} (h : Counts (some fresh) after)
    (hnone : fresh.derived.projection = none) : Counts none after := by
  constructor
  · intro e he
    cases he
  · intro p hp
    apply h.built_le p
    simp only [newProjection?, Option.any_some, Ready, hnone] at hp ⊢
    exact hp
  · intro p e _ he
    cases he
  · intro p e _ he
    cases he

theorem Counts.of_none {before : Option Entry} {after : Entry}
    (hnone : after.derived.projection = none)
    (hle : forall e, before = some e -> e.generation ≤ after.generation) :
    Counts before after := by
  constructor
  · exact hle
  · intro p hp
    rw [newProjection?_eq_some hp] at hnone
    cases hnone
  · intro p e hp _
    rw [newProjection?_eq_some hp] at hnone
    cases hnone
  · intro p e hp
    rw [hp] at hnone
    cases hnone

end Entry

section

variable [ScriptParser]

namespace Store

/-- The changes and the queries of a store, each query with the files that it may read. -/
inductive Operation where
  | openText (uri text : Text) (version : Int)
  | updateText (uri text : Text) (version : Int)
  | close (uri : Text)
  | forget (uri : Text)
  | clear
  | markup (uri : Text)
  | component (files : Files) (uri : Text)
  | registered (files : Files) (uri : Text)
  | projection (uri : Text)

def Operation.apply (s : Store) : Operation -> Store
  | .openText uri text version => s.openText uri text version
  | .updateText uri text version => (s.updateText uri text version).2
  | .close uri => s.close uri
  | .forget uri => (s.forget uri).2
  | .clear => []
  | .markup uri => (s.markup? uri).2
  | .component files uri => (Store.component files s uri).store
  | .registered files uri => (Store.registered files s uri).store
  | .projection uri => (s.projection uri).store

/-- A store, and the projections built for each document since it entered the store. -/
structure History where
  store : Store := []
  built : Text -> List Projection := fun _ => []

namespace History

def next (h : History) (op : Operation) : History where
  store := op.apply h.store
  built uri :=
    match (op.apply h.store).entryOf? uri with
    | none => []
    | some e => h.built uri ++ (e.newProjection? (h.store.entryOf? uri)).toList

def after (ops : List Operation) : History :=
  ops.foldl next {}

end History

/-!
# One operation
-/

variable {brings : Prop} {s t : Store} {uri : Text}

/-- The entries of a store go on counting the projections built for them. -/
structure Counts (s after : Store) : Prop where
  nodup : after.keys.Nodup
  entry : forall uri e, after.entryOf? uri = some e -> e.Counts (s.entryOf? uri)

omit [ScriptParser] in
theorem Extends.counts (h : s.Extends brings t) (hnodup : s.keys.Nodup) : s.Counts t := by
  refine ⟨h.nodup hnodup, ?_⟩
  intro uri e' he'
  cases he : s.entryOf? uri with
  | none =>
      rcases h.brought uri e' he he' with ⟨_, text, hgrows⟩
      exact hgrows.counts.of_new rfl
  | some e =>
      rcases h.grows uri e he with ⟨grown, hgrown, hgrows⟩
      rw [he'] at hgrown
      cases hgrown
      exact hgrows.counts

omit [ScriptParser] in
theorem Changes.counts {dropped : List Text} (h : s.Changes brings dropped t) : s.Counts t := by
  refine ⟨h.nodup, ?_⟩
  intro uri e' he'
  rcases h.kept uri e' he' with hsame | ⟨_, hnone, hbefore⟩
  · rw [hsame]
    have hgrows : e'.Grows uri e' := Or.inl (Entry.Alike.refl e')
    exact hgrows.counts
  · apply Entry.Counts.of_none hnone
    intro e he
    rcases hbefore with ⟨old, hold, hgeneration⟩ | ⟨_, hgone⟩
    · rw [he] at hold
      cases hold
      exact Nat.le_of_eq hgeneration.symm
    · rw [he] at hgone
      cases hgone

namespace Operation

theorem counts (h : s.keys.Nodup) (op : Operation) : s.Counts (op.apply s) := by
  cases op with
  | openText uri text version =>
      exact (openText_changes h uri text version).counts
  | updateText uri text version =>
      cases he : s.entryOf? uri with
      | none =>
          have hopen : (Operation.updateText uri text version).apply s =
              s.openText uri text version := by
            simp only [apply, Store.updateText, he]
          rw [hopen]
          exact (openText_changes h uri text version).counts
      | some e =>
          exact (updateText_changes h (by rw [he]; rfl) text version).counts
  | close uri =>
      exact (close_changes h uri).counts
  | forget uri =>
      exact (forget_changes h uri).counts
  | clear =>
      refine ⟨List.nodup_nil, ?_⟩
      intro uri e' he'
      cases he'
  | markup uri =>
      have hextends : s.Extends False (s.markup? uri).2 := markup?_extends s uri
      exact hextends.counts h
  | component files uri =>
      exact (component_extends trivial files s uri).counts h
  | registered files uri =>
      exact (registered_extends trivial files s uri).counts h
  | projection uri =>
      have hextends : s.Extends False (s.projection uri).store := projection_extends s uri
      exact hextends.counts h

theorem coherent (h : s.Coherent) (op : Operation) : (op.apply s).Coherent := by
  cases op with
  | clear =>
      intro uri e hmem
      cases hmem
  | openText uri text version =>
      exact h.step (.openText uri text version)
  | updateText uri text version =>
      exact h.step (.updateText uri text version)
  | close uri =>
      exact h.step (.close uri)
  | forget uri =>
      exact h.step (.forget uri)
  | markup uri =>
      exact h.step (.markup uri)
  | component files uri =>
      exact h.step (.component files uri)
  | registered files uri =>
      exact h.step (.registered files uri)
  | projection uri =>
      exact h.step (.projection uri)

end Operation

/-!
# Sequences of operations
-/

namespace History

/-- The projections in a history are counted by the entries that they were built for. -/
structure Sound (h : History) : Prop where
  coherent : h.store.Coherent
  nodup : h.store.keys.Nodup
  gone : forall uri, h.store.entryOf? uri = none -> h.built uri = []
  counted : forall uri e p, h.store.entryOf? uri = some e -> p ∈ h.built uri ->
    p.version ≤ e.generation
  ascend : forall uri, (h.built uri).Pairwise fun p q => p.version < q.version
  last : forall uri e p, h.store.entryOf? uri = some e ->
    e.derived.projection = some (some p) -> (h.built uri).getLast? = some p

theorem sound_empty : Sound {} where
  coherent _ _ hmem := by cases hmem
  nodup := List.nodup_nil
  gone _ _ := rfl
  counted _ _ _ _ hmem := by cases hmem
  ascend _ := List.Pairwise.nil
  last _ _ _ he := by cases he

theorem next_built {h : History} {op : Operation} {uri : Text} {e : Entry}
    (he : (op.apply h.store).entryOf? uri = some e) :
    (h.next op).built uri =
      h.built uri ++ (e.newProjection? (h.store.entryOf? uri)).toList := by
  simp only [History.next, he]

theorem Sound.next {h : History} (hs : h.Sound) (op : Operation) : (h.next op).Sound := by
  have hcounts := op.counts hs.nodup
  constructor
  · exact op.coherent hs.coherent
  · exact hcounts.nodup
  · intro uri hnone
    simp only [History.next] at hnone ⊢
    rw [hnone]
  · intro uri e' p he' hp
    have hentry := hcounts.entry uri e' he'
    rw [next_built he'] at hp
    rcases List.mem_append.mp hp with hold | hnew
    · cases he : h.store.entryOf? uri with
      | none =>
          rw [hs.gone uri he] at hold
          cases hold
      | some e =>
          exact Nat.le_trans (hs.counted uri e p he hold) (hentry.generation_le e he)
    · exact hentry.built_le p (Option.mem_toList.mp hnew)
  · intro uri
    cases he' : (op.apply h.store).entryOf? uri with
    | none =>
        simp only [History.next, he']
        exact List.Pairwise.nil
    | some e' =>
        have hentry := hcounts.entry uri e' he'
        rw [next_built he', List.pairwise_append]
        refine ⟨hs.ascend uri, ?_, ?_⟩
        · cases e'.newProjection? (h.store.entryOf? uri) with
          | none =>
              exact List.Pairwise.nil
          | some p =>
              exact List.pairwise_singleton _ p
        · -- What was built before is counted by the entry that the new one is built for.
          intro p hp q hq
          cases he : h.store.entryOf? uri with
          | none =>
              rw [hs.gone uri he] at hp
              cases hp
          | some e =>
              exact Nat.lt_of_le_of_lt (hs.counted uri e p he hp)
                (hentry.lt_built q e (Option.mem_toList.mp hq) he)
  · intro uri e' p he' hp
    have hentry := hcounts.entry uri e' he'
    rw [next_built he']
    by_cases hbefore : (h.store.entryOf? uri).any (·.Ready) = true
    · rcases (Option.any_eq_true _ _).mp hbefore with ⟨e, he, hready⟩
      have hready := of_decide_eq_true hready
      rw [he, Entry.newProjection?_of_ready hready, Option.toList_none, List.append_nil]
      exact hs.last uri e p he (hentry.kept p e hp he hready)
    · rw [Entry.newProjection?, if_neg hbefore, hp]
      exact List.getLast?_concat

theorem sound_after (ops : List Operation) : (after ops).Sound := by
  have hrun : forall (ops : List Operation) (h : History), h.Sound ->
      (ops.foldl History.next h).Sound := by
    intro ops
    induction ops with
    | nil =>
        intro h hs
        exact hs
    | cons op rest ih =>
        intro h hs
        exact ih _ (hs.next op)
  exact hrun ops {} sound_empty

/--
Whatever was done to a store, what it keeps with a text is what would be derived from the text
now; the projections built for a document have ascending versions; and the one that is kept is
the last of them.
-/
theorem derived_current (ops : List Operation) :
    (forall uri e, (uri, e) ∈ (after ops).store -> e.Coherent uri) ∧
      (forall uri, ((after ops).built uri).Pairwise fun p q => p.version < q.version) ∧
      forall uri e p, (after ops).store.entryOf? uri = some e ->
        e.derived.projection = some (some p) -> ((after ops).built uri).getLast? = some p :=
  ⟨(sound_after ops).coherent, (sound_after ops).ascend, (sound_after ops).last⟩

end History
end Store

end

namespace Store
namespace History

local instance : ScriptParser :=
  Projection.memberParser

/-- A document that is projected, changed, and then projected twice. -/
def retyping : List Operation :=
  [.openText [] Projection.memberText 0, .projection [], .updateText [] Projection.memberText 1,
    .projection [], .projection []]

theorem derived_current_retyping :
    exists e p q, ([], e) ∈ (after retyping).store ∧ e.Coherent [] ∧
      (after retyping).built [] = [p, q] ∧ p.version < q.version ∧
      e.derived.projection = some (some q) := by
  have hstored : ((after retyping).store.entryOf? []).any
      (fun e => e.derived.projection.join.isSome) = true := by
    decide +kernel
  have hbuilt : ((after retyping).built []).length = 2 := by
    decide +kernel
  rcases (Option.any_eq_true _ _).mp hstored with ⟨e, he, hkept⟩
  rcases Option.isSome_iff_exists.mp hkept with ⟨kept, hkept⟩
  have hkept := Option.join_eq_some_iff.mp hkept
  rcases List.length_eq_two.mp hbuilt with ⟨p, q, hpq⟩
  rcases derived_current retyping with ⟨hcoherent, hascend, hlast⟩
  have hmem : ([], e) ∈ (after retyping).store := Keyed.mem_of_get? he
  have hpair := hascend []
  have hq := hlast [] e kept he hkept
  rw [hpq] at hpair hq
  cases hq
  exact ⟨e, p, q, hmem, hcoherent [] e hmem, hpq,
    List.rel_of_pairwise_cons hpair List.mem_cons_self, hkept⟩

end History
end Store
end SfcServer
