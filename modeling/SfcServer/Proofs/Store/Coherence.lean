import SfcServer.Proofs.Projection.RoundTrip
import SfcServer.Proofs.Store.Entries

/-!
# What a store has derived

Whatever a store keeps beside a text is what would be derived from that text now.  Every change
and every query of a store preserves this, so it holds of every store that is reached from the
empty one.  A projection that a store gives is therefore built from the text of its document and
from the component that its script declares, and the added method stands inside of the script.
-/

namespace SfcServer

variable [ScriptParser]

/-- The component that the script of a document declares, if it can be read. -/
def componentOf (uri text : Text) : Option Component :=
  match (Store.scriptText? (Document.ofText text) text).map (Component.ofScript · uri) with
  | some (.ok c) => c
  | _ => none

/--
What is kept with a text is what would be derived from it, and a projection is kept with the
markup and the component that it was built from.
-/
structure Entry.Coherent (uri : Text) (e : Entry) : Prop where
  markup : forall d, e.derived.markup = some d -> d = Document.ofText e.text
  component : forall c, e.derived.component = some c -> c = componentOf uri e.text
  projection : forall p, e.derived.projection = some p ->
    p = Projection.build? uri e.text (Document.ofText e.text) (componentOf uri e.text) e.generation
  basis : forall p, e.derived.projection = some p ->
    e.derived.markup.isSome = true ∧ e.derived.component.isSome = true

theorem Entry.coherent_of_none {uri : Text} {e : Entry} (h : e.derived = {}) :
    e.Coherent uri := by
  constructor
  · intro d hd
    rw [h] at hd
    cases hd
  · intro c hc
    rw [h] at hc
    cases hc
  · intro p hp
    rw [h] at hp
    cases hp
  · intro p hp
    rw [h] at hp
    cases hp

theorem Entry.Coherent.getD_markup {uri : Text} {e : Entry} (h : e.Coherent uri) :
    e.derived.markup.getD (Document.ofText e.text) = Document.ofText e.text := by
  cases hmarkup : e.derived.markup with
  | none =>
      rfl
  | some d =>
      exact h.markup d hmarkup

namespace Store

def Coherent (s : Store) : Prop :=
  forall uri e, (uri, e) ∈ s -> e.Coherent uri

inductive Step (s : Store) : Store -> Prop where
  | openText (uri text : Text) (version : Int) : Step s (s.openText uri text version)
  | updateText (uri text : Text) (version : Int) : Step s (s.updateText uri text version).2
  | close (uri : Text) : Step s (s.close uri)
  | forget (uri : Text) : Step s (s.forget uri).2
  | markup (uri : Text) : Step s (s.markup? uri).2
  | component (files : Files) (uri : Text) : Step s (component files s uri).store
  | registered (files : Files) (uri : Text) : Step s (registered files s uri).store
  | projection (uri : Text) : Step s (s.projection uri).store

/-- The stores that changes and queries lead to from the empty one. -/
inductive Reached : Store -> Prop where
  | empty : Reached []
  | step {s after : Store} : Reached s -> Step s after -> Reached after

namespace Coherent

variable {s : Store} {uri : Text} {e : Entry}

theorem entryOf? (h : s.Coherent) (he : s.entryOf? uri = some e) : e.Coherent uri :=
  h uri e (Keyed.mem_of_get? he)

theorem put (h : s.Coherent) (he : e.Coherent uri) : Coherent (Keyed.put uri e s) := by
  intro k f hmem
  rcases Keyed.mem_put hmem with heq | hrest
  · cases heq
    exact he
  · exact h k f hrest

theorem erase (h : s.Coherent) (uri : Text) : Coherent (Keyed.erase uri s) := by
  intro k f hmem
  exact h k f ((Keyed.erase_sublist uri s).mem hmem)

theorem invalidateDependents (h : s.Coherent) (uri : Text) :
    (s.invalidateDependents uri).Coherent := by
  intro k f hmem
  rcases List.mem_map.mp hmem with ⟨⟨other, old⟩, hold, heq⟩
  simp only at heq
  split at heq
  · cases heq
    exact Entry.coherent_of_none rfl
  · cases heq
    exact h k f hold

/-!
# Changes
-/

theorem openText (h : s.Coherent) (uri text : Text) (version : Int) :
    (s.openText uri text version).Coherent := by
  apply invalidateDependents
  apply h.put
  cases s.entryOf? uri with
  | none =>
      exact Entry.coherent_of_none rfl
  | some e =>
      exact Entry.coherent_of_none rfl

theorem updateText (h : s.Coherent) (uri text : Text) (version : Int) :
    (s.updateText uri text version).2.Coherent := by
  unfold Store.updateText
  split
  · exact h.openText uri text version
  · exact invalidateDependents (h.put (Entry.coherent_of_none rfl)) uri

theorem close (h : s.Coherent) (uri : Text) : (s.close uri).Coherent :=
  (h.erase uri).invalidateDependents uri

theorem forget (h : s.Coherent) (uri : Text) : (s.forget uri).2.Coherent := by
  unfold Store.forget
  split
  · split
    · exact h
    · exact (h.erase uri).invalidateDependents uri
  · exact h.invalidateDependents uri

/-!
# Queries
-/

theorem markup? (h : s.Coherent) (uri : Text) : (s.markup? uri).2.Coherent := by
  unfold Store.markup?
  split
  · exact h
  · rename_i e he
    have hentry := h.entryOf? he
    split
    · exact h
    · apply h.put
      constructor
      · intro d hd
        cases hd
        rfl
      · exact hentry.component
      · exact hentry.projection
      · intro p hp
        exact ⟨rfl, (hentry.basis p hp).2⟩

theorem markup?_value (h : s.Coherent) (he : s.entryOf? uri = some e) :
    (s.markup? uri).1 = some (Document.ofText e.text) := by
  have hentry := h.entryOf? he
  unfold Store.markup?
  rw [he]
  simp only
  split
  · rename_i d hd
    rw [hentry.markup d hd]
  · rfl

theorem ownComponent_value (he : e.Coherent uri) :
    (s.ownComponent uri e).value = componentOf uri e.text := by
  unfold ownComponent
  split
  · rename_i c hc
    exact he.component c hc
  · simp only [he.getD_markup]
    unfold componentOf
    cases (Store.scriptText? (Document.ofText e.text) e.text).map (Component.ofScript · uri) with
    | none =>
        rfl
    | some result =>
        cases result with
        | error f =>
            rfl
        | ok c =>
            rfl

theorem ownComponent (h : s.Coherent) (he : e.Coherent uri) :
    (s.ownComponent uri e).store.Coherent := by
  have hvalue := ownComponent_value (s := s) he
  unfold Store.ownComponent at hvalue ⊢
  split at hvalue
  · exact h
  · -- Whichever way the script is read, what it gives is kept.
    have hkeep : forall c, c = componentOf uri e.text -> Coherent (Keyed.put uri { e with derived :=
        { e.derived with
          markup := some (e.derived.markup.getD (Document.ofText e.text))
          component := some c } } s) := by
      intro c hc
      apply h.put
      constructor
      · intro d hd
        cases hd
        exact he.getD_markup
      · intro c' hc'
        cases hc'
        exact hc
      · exact he.projection
      · intro p hp
        exact ⟨rfl, rfl⟩
    simp only at hvalue ⊢
    split at hvalue
    · exact hkeep none hvalue
    · exact hkeep _ hvalue
    · exact hkeep none hvalue

theorem component (h : s.Coherent) (files : Files) (uri : Text) :
    (component files s uri).store.Coherent := by
  unfold Store.component
  split
  · rename_i e he
    exact h.ownComponent (h.entryOf? he)
  · split
    · exact h
    · exact h
    · rename_i t _
      have hread : Entry.Coherent uri { text := t, isOpen := false } := Entry.coherent_of_none rfl
      exact (h.put hread).ownComponent hread

theorem addRegistered {found : Loaded (Except Fault (Keyed Component))}
    (h : found.store.Coherent) (files : Files) (r : Registration) :
    (addRegistered files found r).store.Coherent := by
  unfold Store.addRegistered
  split
  · exact h
  · simp only
    split
    · exact h
    · exact h.component files _

theorem registered (h : s.Coherent) (files : Files) (uri : Text) :
    (registered files s uri).store.Coherent := by
  have hown := h.component files uri
  unfold Store.registered
  simp only
  split
  · exact hown
  · exact hown
  · rename_i c _
    -- One registration after another, from what the component of the document left.
    have hfold : forall (rows : List Registration)
        (found : Loaded (Except Fault (Keyed Component))), found.store.Coherent -> (rows.foldl (Store.addRegistered files) found).store.Coherent := by
      intro rows
      induction rows with
      | nil =>
          intro found hfound
          exact hfound
      | cons r rest ih =>
          intro found hfound
          exact ih _ (hfound.addRegistered files r)
    exact hfold c.registered _ hown

theorem projection (h : s.Coherent) (uri : Text) : (s.projection uri).store.Coherent := by
  rw [Store.projection_eq]
  split
  · exact h
  · rename_i e he
    have hentry := h.entryOf? he
    split
    · exact h
    · apply (h.ownComponent hentry).put
      constructor
      · intro d hd
        cases hd
        exact hentry.getD_markup
      · intro c hc
        cases hc
        exact ownComponent_value hentry
      · intro p hp
        cases hp
        rw [hentry.getD_markup, ownComponent_value hentry]
      · intro p hp
        exact ⟨rfl, rfl⟩

theorem projection_value (h : s.Coherent) (he : s.entryOf? uri = some e) :
    exists version, (s.projection uri).value =
      Projection.build? uri e.text (Document.ofText e.text) (componentOf uri e.text) version := by
  have hentry := h.entryOf? he
  rw [Store.projection_eq]
  rw [he]
  simp only
  split
  · rename_i p hp
    exact ⟨e.generation, hentry.projection p hp⟩
  · exists e.generation + 1
    simp only [hentry.getD_markup, ownComponent_value hentry]

theorem step {after : Store} (h : s.Coherent) (hstep : s.Step after) : after.Coherent := by
  cases hstep with
  | openText uri text version =>
      exact h.openText uri text version
  | updateText uri text version =>
      exact h.updateText uri text version
  | close uri =>
      exact h.close uri
  | forget uri =>
      exact h.forget uri
  | markup uri =>
      exact h.markup? uri
  | component files uri =>
      exact h.component files uri
  | registered files uri =>
      exact h.registered files uri
  | projection uri =>
      exact h.projection uri

end Coherent

theorem Reached.coherent {s : Store} (h : s.Reached) : s.Coherent := by
  induction h with
  | empty =>
      intro uri e hmem
      cases hmem
  | step _ hstep ih =>
      exact ih.step hstep

end Store

/-!
# Projections of what a store has derived
-/

theorem componentOf_eq_some {uri text : Text} {c : Component} {script : Element}
    (h : componentOf uri text = some c)
    (hscript : (Document.ofText text).script? = some script) :
    Component.ofScript (text.slice script.contentStart script.contentStop) uri = .ok (some c) := by
  unfold componentOf at h
  split at h
  · rename_i found hfound
    subst h
    rcases Option.map_eq_some_iff.mp hfound with ⟨source, hsource, hread⟩
    unfold Store.scriptText? at hsource
    rcases Option.bind_eq_some_iff.mp hsource with ⟨element, helement, hsource⟩
    rcases Option.bind_eq_some_iff.mp hsource with ⟨_, _, hsource⟩
    rw [hscript] at helement
    cases helement
    cases hsource
    exact hread
  · cases h

end SfcServer
