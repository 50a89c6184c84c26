import SfcServer.Proofs.Action
import SfcServer.Proofs.Engine.Transcript
import SfcServer.Proofs.Store.Entries
import SfcServer.Service.Query

/-!
# What actions of the service do

An action of the service is made of few moves: it queries the store, it talks to the engine
about no text, and it sends the engine the projection of a stored document.  Whatever all
moves preserve is preserved by every action.  Only hovers and proposals in plain markup
bring documents into the store.
-/

namespace SfcServer

open SfcServer.Action

def ServiceState.andStep (s : ServiceState) (step : Sessioned) : ServiceState where
  workspace := { s.workspace with session := some step.session }
  trace := { s.trace with
    sent := s.trace.sent ++ LinkEvent.sentIn step.events
    notices := s.trace.notices ++ LinkEvent.noticesIn step.events }

def ServiceState.andLoad {α : Type} (s : ServiceState) (found : Loaded α) : ServiceState where
  workspace := { s.workspace with store := found.store }
  trace := { s.trace with
    reads := s.trace.reads ++ found.reads
    notices := s.trace.notices ++ found.notices }

/-- One thing that an action of the service does. -/
inductive ServiceState.Move (brings : Prop) : ServiceState -> ServiceState -> Prop where
  | report (s : ServiceState) (notices : List Notice) :
      Move brings s { s with trace := { s.trace with notices := notices } }
  | load {α : Type} {s : ServiceState} {found : Loaded α} :
      s.workspace.store.Extends brings found.store -> Move brings s (s.andLoad found)
  | talk {s : ServiceState} {session : Session} {step : Sessioned} :
      s.workspace.session = some session -> session.Talks step -> Move brings s (s.andStep step)
  | sync {s : ServiceState} {session : Session} {uri : Text} {e : Entry} {p : Projection} :
      s.workspace.session = some session -> s.workspace.store.entryOf? uri = some e ->
      e.derived.projection = some (some p) ->
      Move brings s (s.andStep (session.sync p.fileName p.version p.text))

namespace Service

def Stable (brings : Prop) (I : ServiceState -> Prop) : Prop :=
  forall s after, ServiceState.Move brings s after -> I s -> I after

variable {α : Type} {c : Surroundings} {brings : Prop} {I : ServiceState -> Prop}

/-!
# Primitive actions
-/

theorem keeps_report (hI : Stable brings I) (n : Notice) : Keeps c I (report n) :=
  Meets.modify fun s hs => hI s _ (.report s _) hs

theorem keeps_load (hI : Stable brings I) {query : Store -> Loaded α}
    (h : forall s : Store, s.Extends brings (query s).store) : Keeps c I (load query) :=
  fun s hs => hI s _ (.load (h s.workspace.store)) hs

theorem keeps_entry (uri : Text) : Keeps c I ( entry? uri) :=
  fun _ hs => hs

theorem keeps_engineAvailable : Keeps c I engineAvailable :=
  fun _ hs => hs

theorem keeps_ask (hI : Stable brings I) (absent : α)
    {question : List (String × Json) -> Session -> Except Fault α × Sessioned}
    (h : forall reply session, Session.Talks session (question reply session).2) :
    Keeps c I (ask absent question) := by
  refine Meets.bind (Q := fun found s => I s ∧ s.workspace.session = found)
    (fun _ hs => ⟨hs, rfl⟩) fun found => ?_
  cases found with
  | none =>
      exact Meets.pure fun _ hs => hs.1
  | some session =>
      refine Meets.bind (Q := fun met s => (I s ∧ s.workspace.session = some session) ∧ met = c)
        (Meets.read fun _ hs => ⟨hs, rfl⟩) fun met => ?_
      refine Meets.bind (Q := fun _ => I) ?_ fun _ => ?_
      · exact Meets.modify fun s hs => hI s _ (.talk hs.1.2 (h _ _)) hs.1.1
      · split
        · exact Keeps.pure c I _
        · exact Keeps.throw c I _

theorem keeps_orReport (hI : Stable brings I) (n : Notice) (default : α) {action : Service α}
    (h : Keeps c I action) : Keeps c I (orReport n default action) := by
  refine Meets.tryCatch h fun _ => ?_
  exact Meets.bind (keeps_report hI n) fun _ => Keeps.pure c I default

/-!
# Documents
-/

theorem keeps_markup? (hI : Stable brings I) (uri : Text) : Keeps c I (markup? uri) :=
  keeps_load hI fun s => s.markup?_extends uri

variable [ScriptParser]

/-- The state after asking for a projection, which the engine is sent if it is there. -/
def afterProjection (uri : Text) (s : ServiceState) : ServiceState :=
  let found := s.workspace.store.projection uri
  match found.value, s.workspace.session with
  | some p, some session =>
    if session.available then
      (s.andLoad found).andStep (session.sync p.fileName p.version p.text)
    else s.andLoad found
  | _, _ => s.andLoad found

theorem outcome_projection? (c : Surroundings) (uri : Text) (s : ServiceState) :
    outcome (projection? uri) c s =
      (.ok (s.workspace.store.projection uri).value, afterProjection uri s) := by
  have hload : outcome (load fun store => store.projection uri) c s =
      (.ok (s.workspace.store.projection uri).value,
        s.andLoad (s.workspace.store.projection uri)) := rfl
  have hsession : outcome session? c (s.andLoad (s.workspace.store.projection uri)) =
      (.ok s.workspace.session, s.andLoad (s.workspace.store.projection uri)) := rfl
  unfold projection? afterProjection
  rw [outcome_bind, hload]
  simp only
  rw [outcome_bind, hsession]
  simp only
  cases (s.workspace.store.projection uri).value with
  | none =>
      rfl
  | some p =>
      cases s.workspace.session with
      | none =>
          rfl
      | some session =>
          simp only
          split
          · rfl
          · rfl

theorem projection?_gives {w : Workspace} {t : Trace} {uri : Text} {p : Projection}
    (h : (w.store.projection uri).value = some p) (c : Surroundings) :
    outcome (projection? uri) c ⟨w, t⟩ = (.ok (some p), afterProjection uri ⟨w, t⟩) := by
  rw [outcome_projection?, h]

theorem stored_of_value {s : Store} {uri : Text} {p : Projection}
    (h : (s.projection uri).value = some p) :
    exists e e', s.entryOf? uri = some e ∧ (s.projection uri).store.entryOf? uri = some e' ∧
      e.Grows uri e' ∧ e'.derived.projection = some (some p) := by
  cases he : s.entryOf? uri with
  | none =>
      rw [Store.projection_eq, he] at h
      cases h
  | some e =>
      rcases Store.projection_entry he with ⟨e', he', hgrows, hready⟩
      exact ⟨e, e', rfl, he', hgrows, h ▸ hready⟩

theorem afterProjection_store (uri : Text) (s : ServiceState) :
    (afterProjection uri s).workspace.store = (s.workspace.store.projection uri).store := by
  unfold afterProjection
  simp only
  split
  · split
    · rfl
    · rfl
  · rfl

theorem afterProjection_kept (hI : Stable brings I) (uri : Text) {s : ServiceState} (hs : I s) :
    I (afterProjection uri s) := by
  have hload : I (s.andLoad (s.workspace.store.projection uri)) :=
    hI s _ (.load (s.workspace.store.projection_extends uri)) hs
  unfold afterProjection
  simp only
  split
  · next p session hvalue hsession =>
      rcases stored_of_value hvalue with ⟨_, e', _, he', _, hready⟩
      split
      · exact hI _ _ (.sync hsession he' hready) hload
      · exact hload
  · exact hload

theorem keeps_projection? (hI : Stable brings I) (uri : Text) : Keeps c I (projection? uri) := by
  intro s hs
  rw [outcome_projection?]
  exact afterProjection_kept hI uri hs

theorem keeps_registered (hI : Stable brings I) (hbrings : brings) (uri : Text) :
    Keeps c I (registered uri) := by
  refine Meets.bind (Q := fun _ => I) (Meets.read fun _ hs => hs) fun met => ?_
  refine keeps_orReport hI _ _ ?_
  refine Meets.bind (keeps_load hI fun s => s.registered_extends hbrings met.files uri)
    fun rows => ?_
  cases rows with
  | ok rows =>
      exact Keeps.pure c I rows
  | error f =>
      exact Keeps.throw c I f

omit [ScriptParser] in
theorem keeps_locate (hI : Stable brings I) (uri : Text) (place : Place) :
    Keeps c I (locate uri place) := by
  refine Meets.bind (keeps_entry uri) fun e => ?_
  refine Meets.bind (keeps_markup? hI uri) fun d => ?_
  split
  · exact Keeps.pure c I _
  · exact Keeps.pure c I _

theorem keeps_engineTarget? (hI : Stable brings I) (uri : Text) (located : Located) :
    Keeps c I (engineTarget? uri located) := by
  refine Meets.bind (keeps_projection? hI uri) fun p => ?_
  cases p with
  | none =>
      exact Keeps.pure c I _
  | some p =>
      refine Meets.bind keeps_engineAvailable fun available => ?_
      split
      · exact Keeps.pure c I _
      · exact Keeps.pure c I _

/-!
# Answers from the markup
-/

theorem keeps_markupHover (hI : Stable brings I) (hbrings : brings) (uri : Text)
    (located : Located) : Keeps c I (markupHover uri located) := by
  unfold markupHover
  split
  · exact Keeps.pure c I _
  · exact Meets.bind (keeps_registered hI hbrings uri) fun _ => Keeps.pure c I _

theorem keeps_markupProposals (hI : Stable brings I) (hbrings : brings) (uri : Text)
    (located : Located) : Keeps c I (markupProposals uri located) := by
  refine Meets.bind (keeps_registered hI hbrings uri) fun components => ?_
  split
  · exact Keeps.pure c I _
  · simp only
    split
    · exact Keeps.pure c I _
    · exact Keeps.pure c I _

omit [ScriptParser] in
theorem keeps_markupAnswer (hI : Stable brings I) (uri : Text)
    {answer : Option Entry -> Option Document -> Service α}
    (h : forall e d, Keeps c I (answer e d)) :
    Keeps c I ( entry? uri >>= fun e => markup? uri >>= fun d => answer e d) :=
  Meets.bind (keeps_entry uri) fun e => Meets.bind (keeps_markup? hI uri) fun d => h e d

omit [ScriptParser] in
theorem outcome_markupAnswer {s : ServiceState} {uri : Text} {e : Entry} {d : Document}
    (c : Surroundings) (answer : Option Entry -> Option Document -> Service α)
    (hentry : s.workspace.store.entryOf? uri = some e)
    (hmarkup : (s.workspace.store.markup? uri).1 = some d) :
    outcome ( entry? uri >>= fun e => markup? uri >>= fun d => answer e d) c s =
      outcome (answer (some e) (some d)) c
        (s.andLoad (⟨(), (s.workspace.store.markup? uri).2, [], []⟩ : Loaded Unit)) := by
  have hfound : outcome ( entry? uri) c s = (.ok (some e), s) :=
    hentry ▸ rfl
  have hloaded : outcome (markup? uri) c s = (.ok (some d),
      s.andLoad (⟨(), (s.workspace.store.markup? uri).2, [], []⟩ : Loaded Unit)) :=
    hmarkup ▸ rfl
  rw [outcome_bind, hfound]
  simp only
  rw [outcome_bind, hloaded]

omit [ScriptParser] in
theorem keeps_symbols (hI : Stable brings I) (uri : Text) : Keeps c I (symbols uri) := by
  refine keeps_markupAnswer hI uri fun e d => ?_
  split
  · exact Keeps.pure c I _
  · exact Keeps.pure c I _

omit [ScriptParser] in
theorem keeps_highlights (hI : Stable brings I) (uri : Text) (place : Place) :
    Keeps c I (highlights uri place) := by
  refine keeps_markupAnswer hI uri fun e d => ?_
  split
  · simp only
    split
    · exact Keeps.pure c I _
    · split
      · exact Keeps.pure c I _
      · exact Keeps.pure c I _
  · exact Keeps.pure c I _

omit [ScriptParser] in
/-- The branches of a template are always found; the store keeps the markup they are found in. -/
theorem outcome_templateDiagnostics (c : Surroundings) (uri : Text) (s : ServiceState) :
    exists found, outcome (templateDiagnostics uri) c s =
      (.ok found, s.andLoad (⟨(), (s.workspace.store.markup? uri).2, [], []⟩ : Loaded Unit)) := by
  have hentry : outcome ( entry? uri) c s = (.ok (s.workspace.store.entryOf? uri), s) := rfl
  have hmarkup : outcome (markup? uri) c s = (.ok (s.workspace.store.markup? uri).1,
      s.andLoad (⟨(), (s.workspace.store.markup? uri).2, [], []⟩ : Loaded Unit)) := rfl
  unfold templateDiagnostics
  rw [outcome_bind, hentry]
  simp only
  rw [outcome_bind, hmarkup]
  simp only
  split
  · exact ⟨_, rfl⟩
  · exact ⟨_, rfl⟩

/-!
# Answers from the engine
-/

theorem keeps_engineHover (hI : Stable brings I) (uri : Text) (located : Located) :
    Keeps c I (engineHover uri located) := by
  refine Meets.bind (keeps_engineTarget? hI uri located) fun target => ?_
  split
  · exact Keeps.pure c I _
  · refine Meets.bind (keeps_orReport hI _ _ (keeps_ask hI _ fun reply session =>
      Session.query_talks reply (by decide) _ _ _ _ _ session)) fun info => ?_
    split
    · exact Keeps.pure c I _
    · simp only
      split
      · exact Keeps.pure c I _
      · exact Meets.bind (Keeps.lift c I _) fun _ => Keeps.pure c I _

theorem keeps_hover (hI : Stable brings I) (hbrings : brings) (uri : Text) (place : Place) :
    Keeps c I (hover uri place) := by
  refine Meets.bind (keeps_locate hI uri place) fun located => ?_
  split
  · exact Keeps.pure c I _
  · split
    · exact keeps_markupHover hI hbrings uri _
    · exact Keeps.pure c I _
    · exact keeps_engineHover hI uri _

theorem keeps_engineProposals (hI : Stable brings I) (uri : Text) (located : Located)
    (context : Json) : Keeps c I (engineProposals uri located context) := by
  refine Meets.bind (keeps_engineTarget? hI uri located) fun target => ?_
  split
  · exact Keeps.pure c I _
  · refine Meets.bind (keeps_orReport hI _ _ (keeps_ask hI _ fun reply session =>
      Session.query_talks reply (by decide) _ _ _ _ _ session)) fun proposals => ?_
    split
    · exact Keeps.mapM (fun _ => Keeps.lift c I _) proposals
    · exact Keeps.lift c I _

theorem keeps_complete (hI : Stable brings I) (hbrings : brings) (uri : Text) (place : Place)
    (context : Json) : Keeps c I (complete uri place context) := by
  refine Meets.bind (keeps_locate hI uri place) fun located => ?_
  split
  · exact Keeps.pure c I _
  · split
    · exact keeps_markupProposals hI hbrings uri _
    · exact Keeps.pure c I _
    · exact keeps_engineProposals hI uri _ context

theorem keeps_mapTarget (hI : Stable brings I) (t : Target) : Keeps c I (mapTarget t) := by
  unfold mapTarget
  split
  · simp only
    split
    · split
      · exact Meets.bind (Keeps.lift c I _) fun _ => Keeps.pure c I _
      · refine Meets.bind (keeps_load hI fun s => s.projection_extends _) fun p => ?_
        refine Meets.bind (keeps_entry _) fun e => ?_
        split
        · exact Keeps.pure c I _
        · exact Keeps.pure c I _
    · exact Meets.bind (Keeps.lift c I _) fun _ => Keeps.pure c I _
  · exact Keeps.throw c I _

theorem keeps_definition (hI : Stable brings I) (uri : Text) (place : Place) :
    Keeps c I (definition uri place) := by
  refine Meets.bind (keeps_locate hI uri place) fun located => ?_
  split
  · exact Keeps.pure c I _
  · split
    · exact Keeps.pure c I _
    · refine Meets.bind (keeps_engineTarget? hI uri _) fun target => ?_
      split
      · exact Keeps.pure c I _
      · refine Meets.bind (keeps_orReport hI _ _ (keeps_ask hI _ fun reply session =>
          Session.query_talks reply (by decide) _ _ _ _ _ session)) fun targets => ?_
        exact Meets.bind (Keeps.mapM (keeps_mapTarget hI) targets) fun _ => Keeps.pure c I _

theorem keeps_mapFindings (hI : Stable brings I) (uri : Text) (findings : List Finding) :
    Keeps c I (mapFindings uri findings) := by
  refine Meets.bind (keeps_entry uri) fun e => ?_
  refine Meets.bind (keeps_load hI fun s => s.projection_extends uri) fun p => ?_
  split
  · exact Keeps.mapM (fun _ => Keeps.lift c I _) findings
  · exact Keeps.pure c I _

theorem keeps_toProjected (hI : Stable brings I) (uri : Text) (place : Place) :
    Keeps c I (toProjected uri place) := by
  refine Meets.bind (keeps_locate hI uri place) fun located => ?_
  split
  · exact Keeps.pure c I _
  · exact Meets.bind (keeps_projection? hI uri) fun _ => Keeps.pure c I _

theorem keeps_ofProjected (hI : Stable brings I) (uri : Text) (place : Place) :
    Keeps c I (ofProjected uri place) := by
  refine Meets.bind (keeps_entry uri) fun e => ?_
  refine Meets.bind (keeps_projection? hI uri) fun p => ?_
  split
  · exact Keeps.pure c I _
  · exact Keeps.pure c I _

end Service
end SfcServer
