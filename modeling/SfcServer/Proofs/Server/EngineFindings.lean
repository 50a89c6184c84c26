import SfcServer.Proofs.Server.Publications
import SfcServer.Proofs.Server.Timers
import SfcServer.Proofs.Store.Reading

/-!
# What the engine found

The server keeps what the engine found in a document, and publishes it together with what it finds
itself.  Closing a document drops what was kept of it, and nothing else does.

What the engine finds is kept for every document that is known, though, and a document that was
only read from its file is known as well.  When such a document is opened, what the engine found in
the file is published for the text of the editor.
-/

namespace SfcServer

open SfcServer.Action

def Keyed.recorded {α : Type} (rows : Keyed α) : Option (Text × α) -> Keyed α
  | some (key, value) => rows.put key value
  | none => rows

namespace Server

variable [ScriptParser]

/-- What the engine found in a file as diagnostics of its document, if they can be mapped. -/
def mapped? (c : Conditions) (s : Server) (uri : Text) (findings : List Finding) :
    Option (List Diagnostic) :=
  (outcome (Service.mapFindings uri findings) ⟨c.files, c.reply⟩ ⟨s.workspace, {}⟩).1.toOption

def record? (c : Conditions) (s : Server) (fileName : Text) (findings : List Finding) :
    Option (Text × List Diagnostic) :=
  if (s.workspace.store.entryOf? (documentOf fileName)).isSome then
    (s.mapped? c (documentOf fileName) findings).map fun found => (documentOf fileName, found)
  else none

def Event.recorded? (c : Conditions) (s : Server) : Event -> Option (Text × List Diagnostic)
  | .message (.findings fileName findings) | .deferred (.publish fileName findings) =>
    s.record? c fileName findings
  | _ => none

def findingsAfter (c : Conditions) (s : Server) : Event -> Keyed (List Diagnostic)
  | .message (.closed uri) => s.findings.erase uri
  | event => s.findings.recorded (event.recorded? c s)

end Server

namespace ServerAction

variable {α : Type} {c : Conditions} {found : Keyed (List Diagnostic)}

/-!
# Actions that keep the findings
-/

abbrev Finds (found : Keyed (List Diagnostic)) (s : ServerState) : Prop :=
  s.server.findings = found

theorem finds_ofService (action : Service α) : Keeps c (Finds found) (ofService action) := by
  intro s hs
  rw [outcome_ofService]
  cases (outcome action ⟨c.files, c.reply⟩ s.service).1 with
  | ok value | error f =>
      exact hs

theorem finds_change {f : Server -> Server} (h : forall s, (f s).findings = s.findings) :
    Keeps c (Finds found) (change f) :=
  Meets.modify fun s hs => (h s.server).trans hs

theorem finds_report (n : Notice) : Keeps c (Finds found) (report n) :=
  Meets.modify fun _ hs => hs

theorem finds_orReport (n : Notice) (default : α) {action : ServerAction α}
    (h : Keeps c (Finds found) action) : Keeps c (Finds found) (orReport n default action) :=
  Meets.tryCatch h fun _ => Meets.bind (finds_report n) fun _ => Keeps.pure c _ _

theorem finds_read : Meets c (Finds found) (read : ServerAction Conditions)
    (fun _ => Finds found) (Finds found) :=
  Meets.read fun _ hs => hs

theorem finds_publishDiagnostics (uri : Text) :
    Keeps c (Finds found) (publishDiagnostics uri) := by
  refine Meets.bind keeps_store fun store => ?_
  split
  · exact Keeps.pure c _ _
  · split
    · refine Meets.bind (finds_ofService _) fun own => ?_
      refine Meets.bind keeps_server fun server => ?_
      exact Meets.modify fun _ hs => hs
    · exact Keeps.pure c _ _

theorem ends_finds_cancelTimer (uri : Text) :
    Ends c (Finds found) (cancelTimer uri) (Finds found) := by
  refine Meets.modify fun s hs => ?_
  simp only
  split
  · exact hs
  · exact hs

theorem finds_question (uri : Text) (failure : String) (absent : α) (action : Service α) :
    Keeps c (Finds found) (question uri failure absent action) := by
  refine Meets.bind keeps_store fun store => ?_
  split
  · exact finds_orReport _ _ (finds_ofService action)
  · exact Keeps.pure c _ absent

theorem finds_carry (params : CustomParams) (f : Text -> Place -> Service (Option Place)) :
    Keeps c (Finds found) (carry params f) := by
  refine Meets.bind (Keeps.lift c _ _) fun named => ?_
  simp only
  split
  · exact Keeps.pure c _ _
  · refine Meets.bind (keeps_knownUri? _) fun uri => ?_
    split
    · exact Keeps.pure c _ _
    · exact Meets.bind (finds_ofService _) fun _ => Keeps.pure c _ _

theorem finds_fromEngine (message : Json) : Keeps c (Finds found) (fromEngine message) := by
  refine Meets.bind keeps_session? fun session => ?_
  split
  · exact Keeps.pure c _ _
  · refine Meets.bind (finds_ofService _) fun _ => ?_
    refine Meets.bind (Meets.forIn (I := fun _ => Finds found) (fun params rest => ?_) _)
      fun _ => Keeps.pure c _ _
    have hnext : Meets c (Finds found) (pure (.yield ⟨⟩) : ServerAction (ForInStep PUnit))
        (fun step s => step = .yield ⟨⟩ ∧ Finds found s) (Finds found) :=
      Meets.pure fun _ hs => ⟨rfl, hs⟩
    split
    · exact Meets.bind (finds_report _) fun _ => hnext
    · exact hnext
    · refine Meets.bind (finds_change fun s => ?_) fun _ => hnext
      split
      · rfl
      · rfl

theorem finds_start (options : Json) (rootUri : Option Text) :
    Keeps c (Finds found) (start options rootUri) := by
  refine Meets.bind finds_read fun met => ?_
  refine Meets.bind (Keeps.lift c _ _) fun read => ?_
  refine Meets.bind (Meets.forM (I := fun _ => Finds found) (fun n _ => finds_report n) _)
    fun _ => ?_
  refine Meets.bind (finds_change fun _ => rfl) fun _ => ?_
  split
  · refine Meets.bind (finds_change fun _ => rfl) fun _ => ?_
    split
    · refine Meets.bind (finds_change fun _ => rfl) fun _ => ?_
      simp only
      split
      · exact Meets.bind (Keeps.throw c _ _) fun _ => finds_change fun _ => rfl
      · exact finds_change fun _ => rfl
    · exact finds_report _
  · exact Keeps.pure c _ _

theorem finds_shutdown : Keeps c (Finds found) shutdown := by
  refine Meets.bind (finds_change fun _ => rfl) fun _ => ?_
  refine Meets.bind keeps_session? fun session => ?_
  split
  · exact Keeps.pure c _ _
  · exact finds_change fun _ => rfl

variable [ScriptParser]

theorem finds_validate (uri : Text) : Keeps c (Finds found) (validate uri) := by
  refine Meets.bind (finds_change fun _ => rfl) fun _ => ?_
  refine Meets.bind (finds_orReport _ _ (Meets.discard (finds_ofService _))) fun _ => ?_
  exact finds_publishDiagnostics uri

theorem finds_schedule (uri : Text) : Keeps c (Finds found) (schedule uri) := by
  refine Meets.bind (ends_finds_cancelTimer uri).keeps fun _ => ?_
  refine Meets.bind keeps_server fun server => ?_
  refine Meets.bind finds_read fun met => ?_
  split
  · exact finds_validate uri
  · split
    · exact finds_validate uri
    · exact finds_change fun _ => rfl

theorem finds_scheduleAll (uris : List Text) : Keeps c (Finds found) (uris.forM schedule) :=
  Meets.forM (I := fun _ => Finds found) (fun uri _ => finds_schedule uri) uris

/-!
# Messages
-/

theorem finds_opened (uri text : Text) (version : Int) :
    Keeps c (Finds found) (opened uri text version) := by
  unfold opened
  split
  · refine Meets.bind keeps_store fun store => ?_
    refine Meets.bind (finds_change fun _ => rfl) fun _ => ?_
    exact Meets.bind (finds_validate uri) fun _ => finds_scheduleAll _
  · exact Keeps.pure c _ _

theorem finds_changed (uri : Text) (texts : List Text) (version : Int) :
    Keeps c (Finds found) (changed uri texts version) := by
  refine Meets.bind keeps_store fun store => ?_
  split
  · exact Keeps.pure c _ _
  · split
    · refine Meets.bind (finds_change fun _ => rfl) fun _ => ?_
      exact keeps_scheduleOpen finds_schedule _
    · exact Keeps.pure c _ _

theorem finds_closed (uri : Text) :
    Leads c (Finds found) (closed uri) (Finds (found.erase uri)) := by
  have hrest (dependents : List Text) : Keeps c (Finds (found.erase uri))
      (publish ⟨uri, [], none⟩ >>= fun _ => dependents.forM schedule) :=
    Meets.bind (Meets.modify fun _ hs => hs) fun _ => finds_scheduleAll dependents
  refine Meets.bind (ends_finds_cancelTimer uri).meets fun _ => ?_
  refine Meets.bind (Q := fun _ => Finds found) (fun _ hs => hs) fun store => ?_
  refine Meets.bind (Q := fun _ => Finds found) (Meets.modify fun _ hs => hs) fun _ => ?_
  refine Meets.bind (Q := fun _ => Finds (found.erase uri)) ?_ fun _ => ?_
  · exact Meets.modify fun s hs => congrArg (Keyed.erase uri) hs
  refine Meets.bind keeps_session? fun session => ?_
  cases session with
  | none =>
      exact hrest _
  | some session =>
      exact Meets.bind (finds_ofService _) fun _ => hrest _

theorem finds_filesChanged (uris : List Text) : Keeps c (Finds found) (filesChanged uris) := by
  refine Meets.forM (I := fun _ => Finds found) (fun uri _ => ?_) uris
  refine Meets.bind keeps_store fun store => ?_
  exact Meets.bind (finds_change fun _ => rfl) fun _ => finds_scheduleAll _

theorem finds_virtualCode (params : CustomParams) :
    Keeps c (Finds found) (virtualCode params) := by
  refine Meets.bind (Keeps.lift c _ _) fun named => ?_
  refine Meets.bind (keeps_knownUri? _) fun uri => ?_
  split
  · exact Keeps.pure c _ _
  · refine Meets.bind (finds_ofService _) fun p => ?_
    split
    · exact Keeps.pure c _ _
    · exact Keeps.pure c _ _

theorem finds_introduce (params : Json) : Keeps c (Finds found) (introduce params) := by
  refine Meets.bind (finds_change fun _ => rfl) fun _ => ?_
  refine Meets.bind keeps_session? fun session => ?_
  split
  · exact Keeps.pure c _ _
  · refine Meets.bind (finds_orReport _ _ ?_) fun begun => ?_
    · exact Meets.bind (finds_ofService _) fun _ => Keeps.pure c _ _
    · split
      · refine Meets.bind keeps_store fun store => ?_
        refine Meets.bind (Meets.forIn (I := fun _ => Finds found) (fun uri rest => ?_) _)
          fun _ => Keeps.pure c _ _
        exact Meets.bind (finds_validate uri) fun _ => Meets.pure fun _ hs => ⟨rfl, hs⟩
      · exact Keeps.pure c _ _

theorem finds_fire (t : Timer) : Keeps c (Finds found) (fire t) :=
  Meets.bind (finds_change fun _ => rfl) fun _ => finds_validate t.uri

/-!
# Recording
-/

/-- What is mapped is known beforehand; a mapping that fails is reported, and gives nothing. -/
theorem ends_mapped (s : Server) (n : Notice) (uri : Text) (findings : List Finding) :
    Meets c (· = ⟨s, {}, []⟩)
      (orReport n none (some <$> ofService (Service.mapFindings uri findings)))
      (fun mapped after => mapped = s.mapped? c uri findings ∧ Finds s.findings after)
      (fun _ => False) := by
  have hmapped : Meets c (· = ⟨s, {}, []⟩) (some <$> ofService (Service.mapFindings uri findings))
      (fun mapped after => mapped = s.mapped? c uri findings ∧ Finds s.findings after)
      (fun after => s.mapped? c uri findings = none ∧ Finds s.findings after) := by
    refine Meets.map ?_
    rintro _ rfl
    rw [outcome_ofService]
    unfold Server.mapped? ServerState.service
    cases (outcome (Service.mapFindings uri findings) ⟨c.files, c.reply⟩ ⟨s.workspace, {}⟩).1 with
    | error f =>
        exact ⟨rfl, rfl⟩
    | ok diagnostics =>
        exact ⟨rfl, rfl⟩
  refine Meets.tryCatch hmapped fun _ => ?_
  refine Meets.bind (Q := fun _ after => s.mapped? c uri findings = none ∧
    Finds s.findings after) (Meets.modify fun _ hs => hs) fun _ => ?_
  exact Meets.pure fun _ hs => ⟨hs.1.symm, hs.2⟩

/-- Publishing what the engine found records what the server makes of it, and no more. -/
theorem finds_publishFindings (s : Server) (fileName : Text) (findings : List Finding) :
    Leads c (· = ⟨s, {}, []⟩) (publishFindings fileName findings)
      (Finds (s.findings.recorded (s.record? c fileName findings))) := by
  have hstore : Meets c (· = ⟨s, {}, []⟩) store
      (fun found after => found = s.workspace.store ∧ after = ⟨s, {}, []⟩)
      (Finds (s.findings.recorded (s.record? c fileName findings))) := by
    rintro _ rfl
    exact ⟨rfl, rfl⟩
  refine Meets.bind hstore fun found => Meets.given ?_
  rintro rfl
  split
  · next hknown =>
      refine Meets.bind (Meets.mono (ends_mapped s _ _ findings) (fun _ hs => hs)
        (fun _ _ hs => hs) fun _ hs => hs.elim) fun mapped => Meets.given ?_
      rintro rfl
      unfold Server.record?
      rw [if_pos hknown]
      cases s.mapped? c (documentOf fileName) findings with
      | none =>
          exact Meets.pure fun _ hs => hs
      | some diagnostics =>
          refine Meets.bind (Meets.modify fun after hs => ?_) fun _ => finds_publishDiagnostics _
          exact congrArg (Keyed.put (documentOf fileName) diagnostics) hs
  · next hunknown =>
      unfold Server.record?
      rw [if_neg hunknown]
      refine Meets.pure ?_
      rintro _ rfl
      rfl

theorem finds_handle (s : Server) (m : Message) :
    Leads c (· = ⟨s, {}, []⟩) (handle m) (Finds (Server.findingsAfter c s (.message m))) := by
  have hbegin {s' : ServerState} (hs : s' = ⟨s, {}, []⟩) : Finds s.findings s' := by
    rw [hs]
  have hdone {α : Type} {action : ServerAction α} {f : α -> Json}
      (h : Keeps c (Finds s.findings) action) :
      Leads c (· = ⟨s, {}, []⟩) (action >>= fun v => pure (f v)) (Finds s.findings) :=
    (Meets.bind h fun _ => Keeps.pure c _ _).weaken fun _ => hbegin
  cases m with
  | start options rootUri =>
      exact hdone (finds_start options rootUri)
  | opened uri text version =>
      exact hdone (finds_opened uri text version)
  | changed uri texts version =>
      exact hdone (finds_changed uri texts version)
  | closed uri =>
      exact (Meets.bind (finds_closed uri) fun _ => Keeps.pure c _ _).weaken fun _ => hbegin
  | filesChanged uris =>
      exact hdone (finds_filesChanged uris)
  | hover | complete | definition | highlights | symbols =>
      exact hdone (finds_question _ _ _ _)
  | virtualCode params =>
      exact (finds_virtualCode params).weaken fun _ => hbegin
  | toProjected params | ofProjected params =>
      exact (finds_carry params _).weaken fun _ => hbegin
  | fromEngine message =>
      exact hdone (finds_fromEngine message)
  | findings fileName findings =>
      exact Meets.bind (finds_publishFindings s fileName findings) fun _ => Keeps.pure c _ _
  | tick =>
      exact (Keeps.pure c _ _).weaken fun _ => hbegin
  | shutdown =>
      exact hdone finds_shutdown

end ServerAction

/-!
# Opening a document

What is published about a document that is opened is found in the text of the editor, and
followed by what was recorded of the document before.
-/

def ownDiagnostics (text : Text) : List Diagnostic :=
  (((Document.ofText text).template?.map (·.orphans text)).getD []).map
    (Service.orphanDiagnostic (Lines.ofText text))

/-- A document that was just put into the store. -/
structure Store.HasOpened (uri text : Text) (version : Int) (derived : Derived -> Prop)
    (s : Store) : Prop where
  entry : exists e, s.entryOf? uri = some e ∧ e.text = text ∧ e.version = version ∧
    e.isOpen = true ∧ derived e.derived

def Derived.Marked (text : Text) (d : Derived) : Prop :=
  d.markup = some (Document.ofText text)

namespace Store

theorem openText_opens (s : Store) (uri text : Text) (version : Int) :
    (s.openText uri text version).HasOpened uri text version (· = {}) := by
  constructor
  unfold openText
  simp only
  rw [entryOf?_invalidateDependents_self, entryOf?_put, if_pos rfl]
  cases s.entryOf? uri with
  | none =>
      exact ⟨_, rfl, rfl, rfl, rfl, rfl⟩
  | some e =>
      exact ⟨_, rfl, rfl, rfl, rfl, rfl⟩

theorem HasOpened.projection [ScriptParser] {s : Store} {uri text : Text} {version : Int}
    (h : s.HasOpened uri text version (· = {})) :
    (s.projection uri).store.HasOpened uri text version (Derived.Marked text) := by
  rcases h.entry with ⟨e, he, htext, hversion, hopen, hblank⟩
  constructor
  rw [Store.projection_eq]
  rw [he]
  simp only [hblank]
  rw [entryOf?_put, if_pos rfl, htext]
  exact ⟨_, rfl, rfl, hversion, hopen, rfl⟩

end Store

namespace ServerAction

variable {c : Conditions} {uri text : Text} {version : Int}
  {found : Keyed (List Diagnostic)}

/-- A document was just put into the store, and nothing was published since. -/
structure Opens (uri text : Text) (version : Int) (found : Keyed (List Diagnostic))
    (derived : Derived -> Prop) (s : ServerState) : Prop where
  store : s.server.workspace.store.HasOpened uri text version derived
  findings : Finds found s
  published : s.published = []

def LedBy (p : Publication) (s : ServerState) : Prop :=
  exists others, s.published = p :: others

theorem ledBy_stable (brings : Prop) (p : Publication) : Stable brings (LedBy p) := by
  intro s after hmove hs
  cases hmove with
  | service | beside =>
      exact hs
  | publish =>
      rcases hs with ⟨others, hothers⟩
      exact ⟨_, congrArg (· ++ _) hothers⟩

theorem ledBy_timeless (p : Publication) : Timeless (LedBy p) :=
  fun _ _ _ hs => hs

/-- The markup that was derived from a text is what its own diagnostics are found in. -/
theorem outcome_templateDiagnostics_of_marked {e : Entry} {s : ServiceState}
    (he : s.workspace.store.entryOf? uri = some e) (hmarked : e.derived.Marked e.text)
    (met : Surroundings) :
    exists after, outcome (Service.templateDiagnostics uri) met s =
      (.ok (ownDiagnostics e.text), after) := by
  have hmarkup : (s.workspace.store.markup? uri).1 = some (Document.ofText e.text) := by
    unfold Store.markup?
    rw [he]
    simp only [show e.derived.markup = _ from hmarked]
  exact ⟨_, Service.outcome_markupAnswer met _ he hmarkup⟩

theorem leads_opens_publishDiagnostics :
    Leads c (Opens uri text version found (Derived.Marked text)) (publishDiagnostics uri)
      (LedBy ⟨uri, ownDiagnostics text ++ (found.get? uri).getD [], some version⟩) := by
  intro s hs
  rcases hs.store.entry with ⟨e, he, rfl, rfl, hopen, hmarked⟩
  rcases outcome_templateDiagnostics_of_marked (s := s.service) he hmarked
    ⟨c.files, c.reply⟩ with ⟨after, hown⟩
  have hstore : outcome store c s = (.ok s.server.workspace.store, s) := rfl
  unfold publishDiagnostics
  rw [outcome_bind, hstore]
  simp only [he, hopen, if_true]
  rw [outcome_bind, outcome_ofService, hown]
  refine ⟨[], ?_⟩
  show s.published ++ [(⟨uri, _ ++ (s.server.findings.get? uri).getD [], _⟩ : Publication)] = _
  rw [hs.published, show s.server.findings = found from hs.findings]
  rfl

variable [ScriptParser]

theorem ends_opens_projection? :
    Ends c (Opens uri text version found (· = {})) (ofService (Service.projection? uri))
      (Opens uri text version found (Derived.Marked text)) := by
  intro s hs
  rw [outcome_ofService, Service.outcome_projection?]
  refine ⟨?_, hs.findings, hs.published⟩
  show (Service.afterProjection uri s.service).workspace.store.HasOpened _ _ _ _
  rw [Service.afterProjection_store]
  exact hs.store.projection

theorem leads_opens_validate :
    Leads c (Opens uri text version found (· = {})) (validate uri)
      (LedBy ⟨uri, ownDiagnostics text ++ (found.get? uri).getD [], some version⟩) := by
  refine Meets.bind (Q := fun _ => Opens uri text version found (· = {}))
    (Meets.modify fun s hs => ⟨hs.store, hs.findings, hs.published⟩) fun _ => ?_
  refine Meets.bind (Q := fun _ => Opens uri text version found (Derived.Marked text)) ?_
    fun _ => leads_opens_publishDiagnostics
  -- Building the projection does not fail, so that nothing is reported.
  exact Meets.tryCatch (Meets.discard ends_opens_projection?) fun _ _ hfalse => hfalse.elim

theorem leads_opened (s : Server) (text : Text) (version : Int)
    (huri : ("file://".toList).isPrefixOf uri = true) :
    Leads c (· = ⟨s, {}, []⟩) (opened uri text version)
      (LedBy ⟨uri, ownDiagnostics text ++ (s.findings.get? uri).getD [], some version⟩) := by
  unfold opened
  rw [if_pos huri]
  refine Meets.bind meets_store fun before => ?_
  refine Meets.bind (Q := fun _ => Opens uri text version s.findings (· = {})) ?_ fun _ => ?_
  · refine Meets.modify ?_
    rintro _ ⟨rfl, rfl⟩
    exact ⟨Store.openText_opens _ uri text version, rfl, rfl⟩
  · refine Meets.bind leads_opens_validate fun _ => ?_
    exact keeps_scheduleAll (ledBy_stable False _) (ledBy_timeless _) _

end ServerAction

/-!
# Runs
-/

theorem Message.versionsAfter_isSome {versions : Text -> Option Int} {m : Message} {uri : Text}
    (h : (versions uri).isSome) (hm : m ≠ .closed uri) : (m.versionsAfter versions uri).isSome := by
  cases m with
  | opened | changed =>
      rw [Message.versionsAfter]
      split
      · simp [h]
      · exact h
  | closed other =>
      rw [Message.versionsAfter, if_neg fun heq => hm (congrArg _ heq)]
      exact h
  | _ =>
      exact h

namespace Server

def Opened (s : Server) (uri : Text) : Prop :=
  (s.workspace.store.openVersion? uri).isSome

instance (s : Server) (uri : Text) : Decidable (s.Opened uri) :=
  inferInstanceAs (Decidable (_ = true))

/-- What the engine found is kept of open documents only. -/
def FindingsOpen (s : Server) : Prop :=
  forall uri, uri ∈ s.findings.keys -> s.Opened uri

def RecordsOpen [ScriptParser] : Server -> List Occurrence -> Prop
  | _, [] => True
  | s, o :: rest =>
    (forall row, row ∈ o.event.recorded? o.conditions s -> s.Opened row.1) ∧
      RecordsOpen (o.event.outcome o.conditions s).1 rest

instance decidableRecordsOpen : (s : Server) -> (run : List Occurrence) ->
    Decidable (s.RecordsOpen run)
  | _, [] => inferInstanceAs (Decidable True)
  | s, o :: rest =>
    have := decidableRecordsOpen (o.event.outcome o.conditions s).1 rest
    inferInstanceAs (Decidable (_ ∧ RecordsOpen (o.event.outcome o.conditions s).1 rest))

variable [ScriptParser] {c : Conditions} {s : Server} {uri : Text}

theorem Event.findings (c : Conditions) (s : Server) {event : Event}
    (hpart : event.isPart = true) :
    (event.outcome c s).1.findings = findingsAfter c s event := by
  cases event with
  | step m =>
      cases hpart
  | message m =>
      exact (ServerAction.finds_handle s m).leaves rfl
  | deferred d =>
      cases d with
      | introduce params =>
          exact (ServerAction.finds_introduce params).leaves rfl
      | publish fileName findings =>
          exact (ServerAction.finds_publishFindings s fileName findings).leaves rfl
  | timer t =>
      exact (ServerAction.finds_fire t).leaves rfl

/-- What is kept was kept before, of a document that is not being closed, or is recorded now. -/
theorem mem_findingsAfter (hnodup : s.findings.keys.Nodup) {event : Event}
    (hpart : event.isPart = true) :
    uri ∈ (findingsAfter c s event).keys ↔
      uri ∈ s.findings.keys ∧ event.message? ≠ some (.closed uri) ∨
        exists found, event.recorded? c s = some (uri, found) := by
  unfold findingsAfter
  split
  · next other =>
      rw [Keyed.mem_keys_iff, Keyed.get?_erase hnodup, Keyed.mem_keys_iff]
      simp only [Event.message?, Event.recorded?]
      split
      · next heq =>
          simp [heq]
      · next hne =>
          simp [hne]
  · next hclosing =>
      have hmessage : event.message? ≠ some (.closed uri) := by
        intro hmessage
        cases event with
        | step m =>
            cases hpart
        | message m =>
            cases hmessage
            exact hclosing uri rfl
        | deferred | timer =>
            cases hmessage
      rw [and_iff_left hmessage]
      cases event.recorded? c s with
      | none =>
          simp [Keyed.recorded]
      | some row =>
          rw [Keyed.recorded, Keyed.mem_keys_put, or_comm]
          simp [Prod.ext_iff]

theorem findingsAfter_nodup (hnodup : s.findings.keys.Nodup) {event : Event} :
    (findingsAfter c s event).keys.Nodup := by
  unfold findingsAfter
  split
  · exact Keyed.keys_erase_nodup hnodup
  · cases event.recorded? c s with
    | none =>
        exact hnodup
    | some row =>
        exact Keyed.keys_put_nodup hnodup

theorem Event.opened_after {versions : Text -> Option Int}
    (hopens : s.workspace.store.Opens versions) {event : Event} (h : s.Opened uri)
    (hevent : event.message? ≠ some (.closed uri)) : (event.outcome c s).1.Opened uri := by
  unfold Opened at h ⊢
  rw [(Event.tells hopens event).opens.versions]
  rw [hopens.versions] at h
  cases hm : event.message? with
  | none =>
      exact h
  | some m =>
      exact Message.versionsAfter_isSome h fun heq => hevent (hm.trans (congrArg some heq))

theorem Event.opened_iff_of_recorded {versions : Text -> Option Int}
    (hopens : s.workspace.store.Opens versions) {event : Event}
    {row : Text × List Diagnostic} (h : event.recorded? c s = some row) :
    (event.outcome c s).1.Opened uri ↔ s.Opened uri := by
  unfold Opened
  rw [(Event.tells hopens event).opens.versions, hopens.versions]
  cases event with
  | message m =>
      cases m with
      | findings =>
          exact Iff.rfl
      | _ =>
          cases h
  | step | timer =>
      cases h
  | deferred =>
      exact Iff.rfl

/-- If only open documents had findings, it stays so exactly if what is recorded is of one. -/
theorem Event.findingsOpen_iff {versions : Text -> Option Int}
    (hopens : s.workspace.store.Opens versions) (hnodup : s.findings.keys.Nodup)
    (hopen : s.FindingsOpen) {event : Event} (hpart : event.isPart = true) :
    (event.outcome c s).1.FindingsOpen ↔
      forall row, row ∈ event.recorded? c s -> s.Opened row.1 := by
  have hkeys (uri : Text) : uri ∈ (event.outcome c s).1.findings.keys ↔
      uri ∈ s.findings.keys ∧ event.message? ≠ some (.closed uri) ∨
        exists found, event.recorded? c s = some (uri, found) := by
    rw [Event.findings c s hpart]
    exact mem_findingsAfter hnodup hpart
  constructor
  · intro hafter row hrow
    have hkey := (hkeys row.1).mpr (Or.inr ⟨row.2, hrow⟩)
    exact (Event.opened_iff_of_recorded hopens hrow).mp (hafter row.1 hkey)
  · intro hrecords uri huri
    rcases (hkeys uri).mp huri with ⟨hkept, hevent⟩ | ⟨found, hrow⟩
    · exact Event.opened_after hopens (hopen uri hkept) hevent
    · exact (Event.opened_iff_of_recorded hopens hrow).mpr (hrecords (uri, found) hrow)

/-- It stays so at every moment of a run exactly if nothing is recorded of other documents. -/
theorem findingsOpen_iff {versions : Text -> Option Int}
    (hopens : s.workspace.store.Opens versions) (hnodup : s.findings.keys.Nodup)
    (hopen : s.FindingsOpen) {run : List Occurrence}
    (hparts : forall o, o ∈ run -> o.event.isPart = true) :
    (forall before rest, run = before ++ rest -> (s.after before).FindingsOpen) ↔
      s.RecordsOpen run := by
  induction run generalizing s versions with
  | nil =>
      refine iff_of_true (fun before rest hrun => ?_) trivial
      rw [(List.nil_eq_append_iff.mp hrun).1]
      exact hopen
  | cons o rest ih =>
      have hpart := hparts o List.mem_cons_self
      have hstep := Event.findingsOpen_iff (c := o.conditions) hopens hnodup hopen hpart
      have hnodup' : (o.event.outcome o.conditions s).1.findings.keys.Nodup :=
        Event.findings o.conditions s hpart ▸ findingsAfter_nodup hnodup
      have hrest (hopen' : (o.event.outcome o.conditions s).1.FindingsOpen) :=
        ih (Event.tells hopens o.event).opens hnodup' hopen' fun u hu =>
          hparts u (List.mem_cons_of_mem o hu)
      constructor
      · intro hall
        have hopen' := hall [o] rest rfl
        refine ⟨hstep.mp hopen', (hrest hopen').mp fun before after hrun => ?_⟩
        exact hall (o :: before) after (congrArg _ hrun)
      · rintro ⟨hrecords, hlater⟩ before after hrun
        cases before with
        | nil =>
            exact hopen
        | cons first before =>
            cases hrun
            exact (hrest (hstep.mpr hrecords)).mpr hlater before after rfl

/--
At every moment of a run, findings are kept of open documents only, exactly if they are recorded
of open documents only.  What is kept of a document that is opened is published behind what is
wrong with its template; if the former holds, this is nothing for a document that was not open.
-/
theorem findingsOpen_iff_recordsOpen (env : Environment) {run : List Occurrence}
    (hparts : forall o, o ∈ run -> o.event.isPart = true) :
    ((forall before rest, run = before ++ rest ->
        ((Server.initial env).after before).FindingsOpen) ↔
      (Server.initial env).RecordsOpen run) ∧
    forall before c uri text version rest,
      run = before ++ ⟨c, .message (.opened uri text version)⟩ :: rest ->
      ("file://".toList).isPrefixOf uri = true ->
      exists found others,
        (Event.message (.opened uri text version)).published c ((Server.initial env).after before) =
          ⟨uri, ownDiagnostics text ++ found, some version⟩ :: others ∧
        found = (((Server.initial env).after before).findings.get? uri).getD [] ∧
        ((Server.initial env).RecordsOpen run ->
          ¬ ((Server.initial env).after before).Opened uri -> found = []) := by
  have hiff : (forall before rest, run = before ++ rest ->
      ((Server.initial env).after before).FindingsOpen) ↔ (Server.initial env).RecordsOpen run := by
    have hopens : (Server.initial env).workspace.store.Opens fun _ => none :=
      ⟨List.nodup_nil, fun _ => rfl⟩
    exact findingsOpen_iff hopens List.nodup_nil nofun hparts
  refine ⟨hiff, fun before c uri text version rest hrun huri => ?_⟩
  have hled := ServerAction.leads_opened (c := c) ((Server.initial env).after before) text version
    huri
  have hpublished := (Meets.bind hled fun _ => Keeps.pure c _ Json.null).leaves rfl
  rcases hpublished with ⟨others, hothers⟩
  refine ⟨_, others, hothers, rfl, fun hrecords hclosed => ?_⟩
  have hopen := hiff.mpr hrecords before _ hrun
  have hnone : uri ∉ ((Server.initial env).after before).findings.keys :=
    fun hkey => hclosed (hopen uri hkey)
  rw [Keyed.mem_keys_iff, Option.not_isSome_iff_eq_none] at hnone
  rw [hnone]
  rfl

end Server

namespace Server

def plainText : Text :=
  "<template></template><script>export default class B \x7b\x7d</script>".toList

def bareText : Text :=
  "<template></template>".toList

def plainConditions : Conditions where
  files uri := if uri = boxUri then .text plainText else .missing
  now := some .zero

def glimpse : Finding :=
  ⟨0, 1, .str "m", .null, .null, .null⟩

def glimpsing : List Occurrence :=
  [.opened boxUri plainText 1, .findings (boxUri ++ scriptSuffix) [glimpse]].map fun m =>
    ⟨plainConditions, .message m⟩

/-- What is found in the open component is kept; it is not published once it was opened again. -/
theorem findingsOpen_iff_recordsOpen_reopened :
    (forall o, o ∈ glimpsing ++ [⟨plainConditions, .message (.closed boxUri)⟩,
      ⟨plainConditions, .message (.opened boxUri bareText 2)⟩] ->
        o.event.isPart = true) ∧
    ((Server.initial {}).after glimpsing).findings.keys = [boxUri] ∧
    ((Server.initial {}).after glimpsing).FindingsOpen ∧
    exists others, (Event.message (.opened boxUri bareText 2)).published plainConditions
        ((Server.initial {}).after (glimpsing ++ [⟨plainConditions, .message (.closed boxUri)⟩])) =
      ⟨boxUri, ownDiagnostics bareText, some 2⟩ :: others := by
  let closing : Occurrence := ⟨plainConditions, .message (.closed boxUri)⟩
  let opening : Occurrence := ⟨plainConditions, .message (.opened boxUri bareText 2)⟩
  have hparts : forall o, o ∈ glimpsing ++ [closing, opening] -> o.event.isPart = true := by
    decide +kernel
  have hfacts : ((Server.initial {}).after glimpsing).findings.keys = [boxUri] ∧
      (Server.initial {}).RecordsOpen (glimpsing ++ [closing, opening]) ∧
      ¬ ((Server.initial {}).after (glimpsing ++ [closing])).Opened boxUri := by
    decide +kernel
  have hrun := findingsOpen_iff_recordsOpen {} hparts
  rcases hrun.2 (glimpsing ++ [closing]) _ _ _ _ [] rfl (by decide) with
    ⟨found, others, hothers, _, hnone⟩
  refine ⟨hparts, hfacts.1, hrun.1.mpr hfacts.2.1 glimpsing _ rfl, others, ?_⟩
  rw [hothers, hnone hfacts.2.1 hfacts.2.2, List.append_nil]

/-- A component is read from its file, and the engine finds something in it. -/
def overlooking : List Occurrence :=
  [.opened shelfUri (holderText "B") 1, .complete shelfUri ⟨0, 10⟩ .null,
    .findings (boxUri ++ scriptSuffix) [glimpse]].map fun m => ⟨plainConditions, .message m⟩

/--
What the engine found in the file of a component is kept, and is published when another text of
the component is opened, in which nothing was found.
-/
theorem findings_of_file_published :
    ((Server.initial {}).after overlooking).findings.keys = [boxUri] ∧
      ¬ ((Server.initial {}).after overlooking).Opened boxUri ∧
      ownDiagnostics bareText = [] ∧
      ((Event.message (.opened boxUri bareText 1)).published plainConditions
        ((Server.initial {}).after overlooking)).map
          (fun p => (p.uri, p.diagnostics.map (·.message))) = [(boxUri, ["m".toList])] := by
  decide +kernel

end Server
end SfcServer
