import SfcServer.Proofs.Store.History
import SfcServer.Script.Program

/-!
# Dependents of a document

A change to one document reaches the others only through what they have derived.  Those whose
component is known to register the document lose all of it; the rest of the store stays as it is.
Queries drop nothing.  An update lists the documents that it took something from, but only if its
own document was in the store: otherwise the list is made when nobody depends on it any more.
-/

namespace SfcServer

namespace Derived

structure Within (d after : Derived) : Prop where
  markup : forall m, d.markup = some m -> after.markup = some m
  component : forall c, d.component = some c -> after.component = some c
  projection : forall p, d.projection = some p -> after.projection = some p

def isBlank (d : Derived) : Bool :=
  d.markup.isNone && d.component.isNone && d.projection.isNone

theorem Within.refl (d : Derived) : d.Within d :=
  ⟨fun _ h => h, fun _ h => h, fun _ h => h⟩

theorem Within.trans {d f g : Derived} (h : d.Within f) (h' : f.Within g) : d.Within g :=
  ⟨fun m hm => h'.markup m (h.markup m hm), fun c hc => h'.component c (h.component c hc),
    fun p hp => h'.projection p (h.projection p hp)⟩

end Derived

namespace Entry

def Lists (e : Entry) (uri : Text) : Prop :=
  exists c, e.derived.component = some (some c) ∧
    exists r, r ∈ c.registered ∧ r.uri = some uri

theorem registers_iff {e : Entry} {uri : Text} : e.registers uri = true ↔ e.Lists uri := by
  unfold registers Lists
  split
  · next c hc =>
      simp [hc]
  · next hnone =>
      constructor
      · intro h
        cases h
      · rintro ⟨c, hc, _⟩
        exact absurd hc (hnone c)

/-- What a change to another document leaves of an entry. -/
structure Spared (uri : Text) (e after : Entry) : Prop where
  text : after.text = e.text
  version : after.version = e.version
  isOpen : after.isOpen = e.isOpen
  generation : after.generation = e.generation
  dropped : e.Lists uri -> after.derived = {}
  kept : ¬ e.Lists uri -> after.derived = e.derived

/-- What a query leaves of an entry: its text, and all that was derived from it. -/
structure Enriched (e after : Entry) : Prop where
  text : after.text = e.text
  version : after.version = e.version
  isOpen : after.isOpen = e.isOpen
  derived : e.derived.Within after.derived

theorem spared (uri : Text) (e : Entry) :
    e.Spared uri (if e.registers uri then e.invalidate else e) := by
  split
  · next hregisters =>
      exact ⟨rfl, rfl, rfl, rfl, fun _ => rfl,
        fun hnot => absurd (registers_iff.mp hregisters) hnot⟩
  · next hregisters =>
      exact ⟨rfl, rfl, rfl, rfl, fun hlists => absurd (registers_iff.mpr hlists) hregisters,
        fun _ => rfl⟩

theorem Enriched.refl (e : Entry) : e.Enriched e :=
  ⟨rfl, rfl, rfl, Derived.Within.refl _⟩

theorem Enriched.trans {e f g : Entry} (h : e.Enriched f) (h' : f.Enriched g) : e.Enriched g :=
  ⟨h'.text.trans h.text, h'.version.trans h.version, h'.isOpen.trans h.isOpen,
    h.derived.trans h'.derived⟩

end Entry

namespace Store

/-!
# Changes
-/

/-- What a change to one document makes of a store, apart from that document. -/
structure ChangesOnly (uri : Text) (s after : Store) : Prop where
  keys : (Keyed.beside uri after).keys = (Keyed.beside uri s).keys
  entry : forall k, k ≠ uri -> Option.Rel (Entry.Spared uri) (s.entryOf? k) (after.entryOf? k)

variable {s t : Store} {uri : Text}

/-- A change that touches its own document only, and then drops what dependents derived. -/
theorem ChangesOnly.of_touched (hrows : Keyed.beside uri t = Keyed.beside uri s)
    (hentry : forall k, k ≠ uri -> t.entryOf? k = s.entryOf? k) :
    s.ChangesOnly uri (t.invalidateDependents uri) where
  keys := by
    rw [Keyed.keys_beside, keys_invalidateDependents, ← Keyed.keys_beside, hrows]
  entry k hk := by
    rw [entryOf?_invalidateDependents, hentry k hk]
    cases s.entryOf? k with
    | none =>
        exact Option.Rel.none
    | some e =>
        simp only [Option.map_some, ne_eq, hk, not_false_eq_true, decide_true, Bool.true_and]
        exact Option.Rel.some (e.spared uri)

theorem changesOnly_put (s : Store) (uri : Text) (e : Entry) :
    s.ChangesOnly uri (invalidateDependents (Keyed.put uri e s) uri) :=
  ChangesOnly.of_touched (Keyed.beside_put uri e s) fun k hk => by
    rw [entryOf?_put, if_neg (Ne.symm hk)]

theorem changesOnly_erase (s : Store) (uri : Text) :
    s.ChangesOnly uri (invalidateDependents (Keyed.erase uri s) uri) :=
  ChangesOnly.of_touched (Keyed.beside_erase uri s) fun _ hk =>
    Keyed.get?_erase_of_ne (Ne.symm hk) s

theorem updateText_changesOnly (s : Store) (uri text : Text) (version : Int) :
    s.ChangesOnly uri (s.updateText uri text version).2 := by
  unfold updateText
  split
  · exact changesOnly_put s uri _
  · exact changesOnly_put s uri _

def HoldsOpen (s : Store) (uri : Text) : Prop :=
  exists e, s.entryOf? uri = some e ∧ e.isOpen = true

theorem forget_of_open (h : s.HoldsOpen uri) : s.forget uri = ([], s) := by
  rcases h with ⟨e, he, hopen⟩
  simp only [forget, he, hopen, if_true]

theorem forget_changesOnly (h : ¬ s.HoldsOpen uri) : s.ChangesOnly uri (s.forget uri).2 := by
  unfold forget
  split
  · next e he =>
      split
      · next hopen =>
          exact absurd ⟨e, he, hopen⟩ h
      · exact changesOnly_erase s uri
  · exact ChangesOnly.of_touched rfl fun _ _ => rfl

namespace Operation

def changedUri? : Operation -> Option Text
  | .openText uri _ _ | .updateText uri _ _ | .close uri | .forget uri => some uri
  | _ => none

def isQuery : Operation -> Bool
  | .markup _ | .component _ _ | .registered _ _ | .projection _ => true
  | _ => false

theorem changesOnly [ScriptParser] {op : Operation} (h : op.changedUri? = some uri)
    (hforget : ¬ (op = .forget uri ∧ s.HoldsOpen uri)) : s.ChangesOnly uri (op.apply s) := by
  cases op with
  | openText =>
      cases h
      exact changesOnly_put s uri _
  | updateText _ text version =>
      cases h
      exact updateText_changesOnly s uri text version
  | close =>
      cases h
      exact changesOnly_erase s uri
  | forget =>
      cases h
      exact forget_changesOnly fun hopen => hforget ⟨rfl, hopen⟩
  | clear | markup | component | registered | projection =>
      cases h

end Operation

/-!
# Queries
-/

/-- What a query leaves of a store: every document, with all that was derived from it. -/
def Enriches (s after : Store) : Prop :=
  forall uri e, s.entryOf? uri = some e -> exists e', after.entryOf? uri = some e' ∧ e.Enriched e'

theorem Enriches.refl (s : Store) : s.Enriches s :=
  fun _ e he => ⟨e, he, Entry.Enriched.refl e⟩

theorem Enriches.trans {u : Store} (h : s.Enriches t) (h' : t.Enriches u) : s.Enriches u := by
  intro uri e he
  rcases h uri e he with ⟨f, hf, hef⟩
  rcases h' uri f hf with ⟨g, hg, hfg⟩
  exact ⟨g, hg, hef.trans hfg⟩

theorem Enriches.put {e e' : Entry} (he : s.entryOf? uri = some e) (h : e.Enriched e') :
    s.Enriches (Keyed.put uri e' s) := by
  intro k f hf
  rw [entryOf?_put]
  split
  · next hk =>
      subst hk
      rw [he] at hf
      cases hf
      exact ⟨e', rfl, h⟩
  · exact ⟨f, hf, Entry.Enriched.refl f⟩

theorem Enriches.add {e : Entry} (hnone : s.entryOf? uri = none) :
    s.Enriches (Keyed.put uri e s) := by
  intro k f hf
  rw [entryOf?_put]
  split
  · next hk =>
      subst hk
      rw [hnone] at hf
      cases hf
  · exact ⟨f, hf, Entry.Enriched.refl f⟩

theorem getD_markup_within {e : Entry} {d m : Document} (h : e.derived.markup = some m) :
    some (e.derived.markup.getD d) = some m := by
  rw [h, Option.getD_some]

theorem markup?_enriches (s : Store) (uri : Text) : s.Enriches (s.markup? uri).2 := by
  unfold markup?
  split
  · exact Enriches.refl s
  · next e he =>
      split
      · exact Enriches.refl s
      · next hnone =>
          refine Enriches.put he ⟨rfl, rfl, rfl, ⟨?_, fun _ h => h, fun _ h => h⟩⟩
          intro m hm
          rw [hnone] at hm
          cases hm

section

variable [ScriptParser]

theorem ownComponent_enriches {e : Entry} (he : s.entryOf? uri = some e) :
    s.Enriches (s.ownComponent uri e).store := by
  unfold ownComponent
  split
  · exact Enriches.refl s
  · next hnone =>
      -- Whatever component is kept, there was none before.
      have hkeep (c : Option Component) : s.Enriches (Keyed.put uri { e with derived :=
          { e.derived with
            markup := some (e.derived.markup.getD (Document.ofText e.text))
            component := some c } } s) := by
        refine Enriches.put he ⟨rfl, rfl, rfl, ⟨fun _ => getD_markup_within, ?_, fun _ h => h⟩⟩
        intro c hc
        rw [hnone] at hc
        cases hc
      simp only
      split
      · exact hkeep none
      · exact hkeep _
      · exact hkeep none

theorem component_enriches (files : Files) (s : Store) (uri : Text) :
    s.Enriches (component files s uri).store := by
  unfold component
  split
  · next e he =>
      exact ownComponent_enriches he
  · next hnone =>
      split
      · exact Enriches.refl s
      · exact Enriches.refl s
      · refine (Enriches.add hnone).trans (ownComponent_enriches ?_)
        rw [entryOf?_put, if_pos rfl]

theorem addRegistered_enriches (files : Files)
    (found : Loaded (Except Fault (Keyed Component))) (r : Registration) :
    found.store.Enriches (addRegistered files found r).store := by
  unfold addRegistered
  split
  · exact Enriches.refl _
  · simp only
    split
    · exact Enriches.refl _
    · exact component_enriches files _ _

theorem registered_enriches (files : Files) (s : Store) (uri : Text) :
    s.Enriches (registered files s uri).store := by
  have hown := component_enriches files s uri
  have hfold (rs : List Registration) (found : Loaded (Except Fault (Keyed Component))) :
      found.store.Enriches (rs.foldl (addRegistered files) found).store := by
    induction rs generalizing found with
    | nil =>
        exact Enriches.refl _
    | cons r rest ih =>
        exact (addRegistered_enriches files found r).trans (ih _)
  unfold registered
  simp only
  split
  · exact hown
  · exact hown
  · next c _ =>
      exact hown.trans (hfold c.registered { component files s uri with value := .ok [] })

theorem ownComponent_value_within {e : Entry} {c : Option Component}
    (h : e.derived.component = some c) : some (s.ownComponent uri e).value = some c := by
  simp only [ownComponent, h]

theorem projection_enriches (s : Store) (uri : Text) : s.Enriches (s.projection uri).store := by
  rw [projection_eq]
  split
  · exact Enriches.refl s
  · next e he =>
      split
      · exact Enriches.refl s
      · next hnone =>
          simp only
          intro k f hf
          rw [entryOf?_put]
          split
          · next hk =>
              subst hk
              rw [he] at hf
              cases hf
              refine ⟨_, rfl, rfl, rfl, rfl, ⟨fun _ => getD_markup_within,
                fun _ => ownComponent_value_within, ?_⟩⟩
              intro p hp
              rw [hnone] at hp
              cases hp
          · exact ownComponent_enriches he k f hf

theorem Operation.enriches {op : Operation} (h : op.isQuery = true) : s.Enriches (op.apply s) := by
  cases op with
  | markup uri =>
      exact markup?_enriches s uri
  | component files uri =>
      exact component_enriches files s uri
  | registered files uri =>
      exact registered_enriches files s uri
  | projection uri =>
      exact projection_enriches s uri
  | openText | updateText | close | forget | clear =>
      cases h

/--
A change to a document adds and removes no other; of every other it keeps the text, and drops all
that was derived where the known component registers the document, and nothing elsewhere.  An
open document that is to be forgotten changes nothing at all, and no query drops anything.
-/
theorem changes_reach_dependents (s : Store) (op : Operation) :
    (forall uri, op.changedUri? = some uri -> ¬ (op = .forget uri ∧ s.HoldsOpen uri) ->
        s.ChangesOnly uri (op.apply s)) ∧
      (forall uri, s.HoldsOpen uri -> s.forget uri = ([], s)) ∧
      (op.isQuery = true -> s.Enriches (op.apply s)) :=
  ⟨fun _ => Operation.changesOnly, fun _ => forget_of_open, Operation.enriches⟩

end

def registeringText : Text :=
  ("<script>import B from './B.vue';@Component(\x7bcomponents:\x7bB\x7d\x7d)" ++
    "export default class A \x7b\x7d</script>").toList

def registeringUri : Text :=
  "file:///A.vue".toList

def registeredUri : Text :=
  "file:///B.vue".toList

/-- The component of that document is read, and the other document is not in the store. -/
def registering : List Operation :=
  [.openText registeringUri registeringText 1, .component (fun _ => .missing) registeringUri]

/-- The other document is added to the store, and what was derived from the first one is gone. -/
theorem changes_reach_dependents_added :
    exists e e', (History.after registering).store.entryOf? registeringUri = some e ∧
      e.Lists registeredUri ∧
      ((Operation.updateText registeredUri [] 1).apply
        (History.after registering).store).entryOf? registeringUri = some e' ∧
      e'.text = e.text ∧ e'.derived = {} ∧
      (History.after registering).store.forget registeringUri =
        ([], (History.after registering).store) ∧
      (History.after registering).store.Enriches
        ((Operation.projection registeringUri).apply (History.after registering).store) := by
  have hfacts : ((History.after registering).store.entryOf? registeringUri).any
      (fun e => e.registers registeredUri && e.isOpen) = true := by
    decide +kernel
  rcases (Option.any_eq_true _ _).mp hfacts with ⟨e, he, htests⟩
  rcases Bool.and_eq_true_iff.mp htests with ⟨hregisters, hopen⟩
  have hlists := Entry.registers_iff.mp hregisters
  have hchange := (changes_reach_dependents (History.after registering).store
    (.updateText registeredUri [] 1)).1 registeredUri rfl (fun h => by cases h.1)
  have hentry := hchange.entry registeringUri (by decide)
  rw [he] at hentry
  cases hafter : ((Operation.updateText registeredUri [] 1).apply
      (History.after registering).store).entryOf? registeringUri with
  | none =>
      rw [hafter] at hentry
      cases hentry
  | some e' =>
      rw [hafter] at hentry
      cases hentry with
      | some hspared =>
          have hquery := changes_reach_dependents (History.after registering).store
            (.projection registeringUri)
          exact ⟨e, e', he, hlists, rfl, hspared.text, hspared.dropped hlists,
            hquery.2.1 registeringUri ⟨e, he, hopen⟩, hquery.2.2 rfl⟩

/-!
# What an update lists
-/

/-- The documents beside one that had derived something before a change, and nothing after it. -/
def droppedBeside (uri : Text) (s after : Store) : List Text :=
  (s.filter fun (other, e) => other ≠ uri && !e.derived.isBlank &&
    (after.entryOf? other).any (·.derived.isBlank)).map Prod.fst

/-- What a change drops beside its document is what the dependents of the document derived. -/
theorem ChangesOnly.droppedBeside {after : Store} (h : s.ChangesOnly uri after)
    (hnodup : s.keys.Nodup) : s.droppedBeside uri after = s.dependents uri := by
  unfold Store.droppedBeside dependents
  congr 1
  apply List.filter_congr
  rintro ⟨other, e⟩ hmem
  by_cases hother : other = uri
  · simp [hother]
  · have hentry := h.entry other hother
    rw [entryOf?, Keyed.get?_of_mem hnodup hmem] at hentry
    cases hafter : after.entryOf? other with
    | none =>
        rw [hafter] at hentry
        cases hentry
    | some e' =>
        rw [hafter] at hentry
        cases hentry with
        | some hspared =>
            by_cases hlists : e.Lists uri
            · have hregisters := Entry.registers_iff.mpr hlists
              have hgone := hspared.dropped hlists
              rcases hlists with ⟨c, hc, _⟩
              simp [hafter, hother, hregisters, hgone, Derived.isBlank, hc]
            · have hregisters : e.registers uri = false := by
                rw [← Bool.not_eq_true, Entry.registers_iff]
                exact hlists
              simp [hafter, hother, hregisters, hspared.kept hlists]

theorem mem_dependents_iff (hnodup : s.keys.Nodup) {k : Text} :
    k ∈ s.dependents uri ↔ k ≠ uri ∧ exists e, s.entryOf? k = some e ∧ e.Lists uri := by
  constructor
  · intro hk
    rcases List.mem_map.mp hk with ⟨⟨other, e⟩, hmem, rfl⟩
    rcases List.mem_filter.mp hmem with ⟨hmem, htest⟩
    rcases Bool.and_eq_true_iff.mp htest with ⟨hother, hregisters⟩
    exact ⟨of_decide_eq_true hother, e, Keyed.get?_of_mem hnodup hmem,
      Entry.registers_iff.mp hregisters⟩
  · rintro ⟨hk, e, he, hlists⟩
    exact mem_dependents he hk (Entry.registers_iff.mpr hlists)

theorem dependents_openText (s : Store) (uri text : Text) (version : Int) :
    (s.openText uri text version).dependents uri = [] := by
  unfold openText dependents invalidateDependents
  rw [List.map_eq_nil_iff, List.filter_eq_nil_iff]
  intro row hrow
  rcases List.mem_map.mp hrow with ⟨⟨other, e⟩, _, rfl⟩
  simp only
  split
  · simp [Entry.registers, Entry.invalidate]
  · next htest =>
      exact htest

theorem updateText_listed (s : Store) (uri text : Text) (version : Int) :
    (s.updateText uri text version).1 =
      if (s.entryOf? uri).isSome then uri :: s.dependents uri else [uri] := by
  unfold updateText
  split
  · next hnone =>
      simp [hnone, dependents_openText]
  · next e he =>
      simp [he, dependents_put]

/--
What an update drops beside its document are the others whose known component registers it, in the
order of the store.  They are listed behind the document, unless it was not in the store: then
it is listed alone, which is all that is due only if it had no dependents.
-/
theorem update_lists_dropped_iff [ScriptParser] (ops : List Operation) (uri text : Text)
    (version : Int) :
    let s := (History.after ops).store
    let listed := (s.updateText uri text version).1
    let dropped := s.droppedBeside uri (s.updateText uri text version).2
    dropped.Sublist s.keys ∧
      (forall k, k ∈ dropped ↔ k ≠ uri ∧ exists e, s.entryOf? k = some e ∧ e.Lists uri) ∧
      listed = (if (s.entryOf? uri).isSome then uri :: dropped else [uri]) ∧
      (listed = uri :: dropped ↔ (s.entryOf? uri).isSome ∨ dropped = []) := by
  intro s listed dropped
  have hnodup : s.keys.Nodup := (History.sound_after ops).nodup
  have hdropped : dropped = s.dependents uri :=
    (updateText_changesOnly s uri text version).droppedBeside hnodup
  have hlisted : listed = if (s.entryOf? uri).isSome then uri :: dropped else [uri] := by
    rw [hdropped]
    exact updateText_listed s uri text version
  refine ⟨?_, ?_, hlisted, ?_⟩
  · rw [hdropped]
    exact List.filter_sublist.map Prod.fst
  · intro k
    rw [hdropped]
    exact mem_dependents_iff hnodup
  · rw [hlisted]
    split
    · next hstored =>
        simp [hstored]
    · next hstored =>
        constructor
        · intro hequal
          exact Or.inr (List.cons.inj hequal).2.symm
        · rintro (hstored' | hnone)
          · exact absurd hstored' hstored
          · rw [hnone]

/-- The first document loses what it derived, but is not listed. -/
theorem added_document_unlisted :
    (Store.updateText (History.after registering).store registeredUri [] 1).1 = [registeredUri] ∧
      Store.droppedBeside registeredUri (History.after registering).store
        (Store.updateText (History.after registering).store registeredUri [] 1).2 =
          [registeringUri] := by
  decide +kernel

end Store
end SfcServer
