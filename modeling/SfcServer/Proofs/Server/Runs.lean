import SfcServer.Proofs.Service.Moves
import SfcServer.Proofs.Store.Versions
import SfcServer.Server.Message

/-!
# Runs of the server

A run is made of whole steps and of their parts: messages, work that was deferred, and
timers that fire, in any order and under any conditions.  Messages that only ask, and
messages of the engine, do to the server what actions of the service do, and some things
beside: they neither change a text nor touch the timers.
-/

namespace SfcServer

open SfcServer.Action

namespace ServerState

def service (s : ServerState) : ServiceState :=
  ⟨s.server.workspace, s.trace⟩

def withService (s : ServerState) (after : ServiceState) : ServerState :=
  { s with server := { s.server with workspace := after.workspace }, trace := after.trace }

/-- Documents and timers stay as they are; a session that is replaced has sent no file. -/
structure Beside (s after : Server) : Prop where
  store : after.workspace.store = s.workspace.store
  session : after.workspace.session = s.workspace.session ∨
    exists session, after.workspace.session = some session ∧ session.files = [] ∧ session.Sound
  pending : after.pending = s.pending
  timers : after.timers = s.timers
  lastTimer : after.lastTimer = s.lastTimer

/-- One thing that an action of the server does when it changes no text and no timer. -/
inductive Move (brings : Prop) : ServerState -> ServerState -> Prop where
  | service {s : ServerState} {after : ServiceState} :
      s.service.Move brings after -> Move brings s (s.withService after)
  /-- What is published is about an open document, and carries its version. -/
  | publish {s : ServerState} {p : Publication} {version : Int} :
      s.server.workspace.store.openVersion? p.uri = some version -> p.version = some version ->
      Move brings s { s with published := s.published ++ [p] }
  | beside {s : ServerState} {after : Server} :
      Beside s.server after -> Move brings s { s with server := after }

end ServerState

namespace ServerAction

def Stable (brings : Prop) (J : ServerState -> Prop) : Prop :=
  forall s after, ServerState.Move brings s after -> J s -> J after

variable {α : Type} {c : Conditions} {brings : Prop} {J K : ServerState -> Prop}

theorem Stable.and (hJ : Stable brings J) (hK : Stable brings K) :
    Stable brings fun s => J s ∧ K s :=
  fun s after hmove hs => ⟨hJ s after hmove hs.1, hK s after hmove hs.2⟩

theorem openVersion?_stable (brings : Prop) (uri : Text) (version : Option Int) :
    Stable brings fun s => s.server.workspace.store.openVersion? uri = version := by
  intro s after hmove hs
  cases hmove with
  | service hmove =>
      cases hmove with
      | report | talk | sync =>
          exact hs
      | load hextends =>
          exact (hextends.openVersion? uri).trans hs
  | publish =>
      exact hs
  | beside hbeside =>
      rw [hbeside.store]
      exact hs

/-!
# Actions of the service
-/

theorem outcome_ofService (c : Conditions) (action : Service α) (s : ServerState) :
    outcome (ofService action) c s =
      ((outcome action ⟨c.files, c.reply⟩ s.service).1,
        s.withService (outcome action ⟨c.files, c.reply⟩ s.service).2) := by
  -- Only what the action comes to here matters.
  show outcome (ofService fun _ _ => outcome action ⟨c.files, c.reply⟩ s.service) c s = _
  cases outcome action ⟨c.files, c.reply⟩ s.service with
  | mk result after =>
      cases result with
      | ok value =>
          rfl
      | error f =>
          rfl

theorem keeps_ofService (hJ : Stable brings J) {action : Service α}
    (h : forall I, Service.Stable brings I -> Keeps ⟨c.files, c.reply⟩ I action) :
    Keeps c J (ofService action) := by
  intro s hs
  -- The state that the service sees changes by moves, and each of them is one of the server.
  have hstable : Service.Stable brings fun w => J (s.withService w) := by
    intro w after hmove hw
    exact hJ (s.withService w) _ (.service hmove) hw
  have hend := h _ hstable s.service hs
  rw [outcome_ofService]
  rcases houtcome : outcome action ⟨c.files, c.reply⟩ s.service with ⟨_ | _, after⟩
  · rw [houtcome] at hend
    exact hend
  · rw [houtcome] at hend
    exact hend

theorem keeps_report (hJ : Stable brings J) (n : Notice) : Keeps c J (report n) :=
  Meets.modify fun s hs => hJ s _ (.service (.report s.service _)) hs

theorem keeps_beside (hJ : Stable brings J) {f : Server -> Server}
    (h : forall s, ServerState.Beside s (f s)) : Keeps c J (change f) :=
  Meets.modify fun s hs => hJ s _ (.beside (h s.server)) hs

theorem keeps_server : Keeps c J server :=
  fun _ hs => hs

theorem keeps_store : Keeps c J store :=
  fun _ hs => hs

theorem meets_store {P : ServerState -> Prop} {E : ServerState -> Prop} :
    Meets c P store (fun found s => P s ∧ s.server.workspace.store = found) E :=
  fun _ hs => ⟨hs, rfl⟩

theorem keeps_session? : Keeps c J session? :=
  fun _ hs => hs

theorem ends_orReport (hJ : Stable brings J) (n : Notice) (default : α)
    {action : ServerAction α} (h : Keeps c J action) : Ends c J (orReport n default action) J := by
  refine Meets.tryCatch h fun _ => ?_
  refine Meets.bind (Q := fun _ => J) ?_ fun _ => Meets.pure fun _ hs => hs
  exact Meets.modify fun s hs => hJ s _ (.service (.report s.service _)) hs

theorem keeps_orReport (hJ : Stable brings J) (n : Notice) (default : α)
    {action : ServerAction α} (h : Keeps c J action) : Keeps c J (orReport n default action) :=
  (ends_orReport hJ n default h).keeps

theorem ends_templateDiagnostics (hJ : Stable brings J) (uri : Text) :
    Ends c J (ofService (Service.templateDiagnostics uri)) J := by
  intro s hs
  rcases Service.outcome_templateDiagnostics ⟨c.files, c.reply⟩ uri s.service with ⟨found, heq⟩
  rw [outcome_ofService, heq]
  exact hJ s _ (.service (.load (Store.markup?_extends _ uri))) hs

theorem ends_publishDiagnostics (hJ : Stable brings J) (uri : Text) :
    Ends c J (publishDiagnostics uri) J := by
  refine Meets.bind meets_store fun found => ?_
  split
  · exact Meets.pure fun _ hs => hs.1
  · next entry hentry =>
      split
      · next hopen =>
          -- The diagnostics are found before they are published, which changes no version.
          have hstable := hJ.and (openVersion?_stable brings uri (some entry.version))
          refine Meets.bind ((ends_templateDiagnostics hstable uri).weaken ?_) fun own => ?_
          · rintro s ⟨hs, rfl⟩
            refine ⟨hs, ?_⟩
            rw [Store.openVersion?_of_entry hentry, Entry.openVersion?, if_pos hopen]
          refine Meets.bind (Q := fun _ s => J s ∧
            s.server.workspace.store.openVersion? uri = some entry.version)
            (fun _ hs => hs) fun server => ?_
          exact Meets.modify fun s hs => hJ s _ (.publish hs.2 rfl) hs.1
      · exact Meets.pure fun _ hs => hs.1

variable [ScriptParser]

theorem keeps_publishFindings (hJ : Stable brings J) (fileName : Text)
    (findings : List Finding) : Keeps c J (publishFindings fileName findings) := by
  refine Meets.bind keeps_store fun store => ?_
  split
  · refine Meets.bind (keeps_orReport hJ _ _ (Meets.map (keeps_ofService hJ fun I hI =>
      Service.keeps_mapFindings hI _ findings))) fun mapped => ?_
    cases mapped with
    | none =>
        exact Keeps.pure c J _
    | some diagnostics =>
        refine Meets.bind (keeps_beside hJ fun _ => ⟨rfl, Or.inl rfl, rfl, rfl, rfl⟩) fun _ => ?_
        exact Ends.keeps (ends_publishDiagnostics hJ _)
  · exact Keeps.pure c J _

/-!
# Messages that ask
-/

omit [ScriptParser] in
theorem keeps_question (hJ : Stable brings J) (uri : Text) (failure : String) (absent : α)
    {action : Service α}
    (h : forall I, Service.Stable brings I -> Keeps ⟨c.files, c.reply⟩ I action) :
    Keeps c J (question uri failure absent action) := by
  refine Meets.bind keeps_store fun store => ?_
  split
  · exact keeps_orReport hJ _ _ (keeps_ofService hJ h)
  · exact Keeps.pure c J absent

omit [ScriptParser] in
theorem keeps_knownUri? (uri : Json) : Keeps c J (knownUri? uri) := by
  unfold knownUri?
  split
  · exact Keeps.pure c J _
  · split
    · exact Meets.bind keeps_store fun _ => Keeps.pure c J _
    · split
      · exact Keeps.pure c J _
      · exact Keeps.throw c J _

theorem keeps_virtualCode (hJ : Stable brings J) (params : CustomParams) :
    Keeps c J (virtualCode params) := by
  refine Meets.bind (Keeps.lift c J _) fun named => ?_
  refine Meets.bind (keeps_knownUri? _) fun uri => ?_
  split
  · exact Keeps.pure c J _
  · refine Meets.bind (keeps_ofService hJ fun I hI => Service.keeps_projection? hI _) fun p => ?_
    split
    · exact Keeps.pure c J _
    · exact Keeps.pure c J _

omit [ScriptParser] in
theorem keeps_carry (hJ : Stable brings J) (params : CustomParams)
    {f : Text -> Place -> Service (Option Place)}
    (h : forall uri place I, Service.Stable brings I ->
      Keeps ⟨c.files, c.reply⟩ I (f uri place)) : Keeps c J (carry params f) := by
  refine Meets.bind (Keeps.lift c J _) fun named => ?_
  simp only
  split
  · exact Keeps.pure c J _
  · refine Meets.bind (keeps_knownUri? _) fun uri => ?_
    split
    · exact Keeps.pure c J _
    · exact Meets.bind (keeps_ofService hJ (h _ _)) fun _ => Keeps.pure c J _

/-!
# The engine
-/

omit [ScriptParser] in
theorem ends_talk (hJ : Stable brings J) {session : Session} {step : Sessioned}
    (h : session.Talks step) :
    Ends c (fun s => J s ∧ s.server.workspace.session = some session)
      (ofService (Service.putSession step)) J := by
  intro s hs
  rw [outcome_ofService]
  exact hJ s _ (.service (.talk hs.2 h)) hs.1

omit [ScriptParser] in
theorem keeps_fromEngine (hJ : Stable brings J) (message : Json) :
    Keeps c J (fromEngine message) := by
  refine Meets.bind (Q := fun found s => J s ∧ s.server.workspace.session = found)
    (fun _ hs => ⟨hs, rfl⟩) fun found => ?_
  cases found with
  | none =>
      exact Meets.pure fun _ hs => hs.1
  | some session =>
      refine Meets.bind (Ends.keeps (ends_talk hJ (session.onLink_talks
        (Link.takeMessage?_getD_talks message _)))) fun _ => ?_
      refine Meets.bind (Meets.forIn (I := fun _ => J) (fun params rest => ?_) _) fun _ =>
        Keeps.pure c J _
      have hnext : Meets c J (pure (.yield ⟨⟩) : ServerAction (ForInStep PUnit))
          (fun step s => step = .yield ⟨⟩ ∧ J s) J :=
        Meets.pure fun _ hs => ⟨rfl, hs⟩
      split
      · exact Meets.bind (keeps_report hJ _) fun _ => hnext
      · exact hnext
      · refine Meets.bind (keeps_beside hJ fun s => ?_) fun _ => hnext
        split
        · exact ⟨rfl, Or.inl rfl, rfl, rfl, rfl⟩
        · exact ⟨rfl, Or.inl rfl, rfl, rfl, rfl⟩

omit [ScriptParser] in
theorem ofLink_attach_sound (command : Option (List Text)) :
    (Session.ofLink (some (Link.attach { command := command }))).Sound := by
  intro l hl
  cases hl
  exact fun _ => ⟨rfl, rfl⟩

omit [ScriptParser] in
theorem keeps_start (hJ : Stable brings J) (options : Json) (rootUri : Option Text) :
    Keeps c J (start options rootUri) := by
  have hbeside {f : Server -> Server} (h : forall s, ServerState.Beside s (f s)) :
      Keeps c J (change f) := keeps_beside hJ h
  refine Meets.bind (Q := fun _ => J) (Meets.read fun _ hs => hs) fun met => ?_
  refine Meets.bind (Keeps.lift c J _) fun read => ?_
  refine Meets.bind (Meets.forM (I := fun _ => J) (fun n _ => keeps_report hJ n) _) fun _ => ?_
  refine Meets.bind (hbeside fun _ => ⟨rfl, Or.inl rfl, rfl, rfl, rfl⟩) fun _ => ?_
  split
  · refine Meets.bind (hbeside fun _ => ⟨rfl, Or.inl rfl, rfl, rfl, rfl⟩) fun _ => ?_
    split
    · refine Meets.bind (hbeside fun _ => ⟨rfl, Or.inr ⟨_, rfl, rfl, ?_⟩, rfl, rfl, rfl⟩)
        fun _ => ?_
      · exact ofLink_attach_sound _
      simp only
      split
      · exact Meets.bind (Keeps.throw c J _) fun _ =>
          hbeside fun _ => ⟨rfl, Or.inl rfl, rfl, rfl, rfl⟩
      · exact hbeside fun _ => ⟨rfl, Or.inl rfl, rfl, rfl, rfl⟩
    · exact keeps_report hJ _
  · exact Keeps.pure c J _

theorem keeps_introduce (hJ : Stable brings J) (hvalidate : forall uri, Keeps c J (validate uri))
    (params : Json) : Keeps c J (introduce params) := by
  refine Meets.bind (keeps_beside hJ fun _ => ⟨rfl, Or.inl rfl, rfl, rfl, rfl⟩) fun _ => ?_
  refine Meets.bind keeps_session? fun session => ?_
  split
  · exact Keeps.pure c J _
  · refine Meets.bind (keeps_orReport hJ _ _ ?_) fun begun => ?_
    · refine Meets.bind (keeps_ofService hJ fun I hI => ?_) fun _ => Keeps.pure c J _
      exact Service.keeps_ask hI _ fun reply session => session.introduce_talks reply params
    · split
      · refine Meets.bind keeps_store fun store => ?_
        refine Meets.bind (Meets.forIn (I := fun _ => J) (fun uri rest => ?_) _) fun _ =>
          Keeps.pure c J _
        exact Meets.bind (hvalidate uri) fun _ => Meets.pure fun _ hs => ⟨rfl, hs⟩
      · exact Keeps.pure c J _

theorem keeps_runDeferred (hJ : Stable brings J) (hvalidate : forall uri, Keeps c J (validate uri))
    (d : Deferred) : Keeps c J (runDeferred d) := by
  cases d with
  | introduce params =>
      exact keeps_introduce hJ hvalidate params
  | publish fileName findings =>
      exact keeps_publishFindings hJ fileName findings

/-!
# Checks of documents

A property of the workspace does not depend on timers, and then checking a document now or
later preserves it.
-/

/-- A property that only the workspace and the trace of a step decide. -/
def Timeless (J : ServerState -> Prop) : Prop :=
  forall s after, after.workspace = s.server.workspace -> J s -> J { s with server := after }

omit [ScriptParser] in
theorem keeps_change (hJ : Timeless J) {f : Server -> Server}
    (h : forall s, (f s).workspace = s.workspace) : Keeps c J (change f) :=
  Meets.modify fun s hs => hJ s _ (h s.server) hs

theorem ends_validate (hJ : Stable brings J) (uri : Text) :
    Ends c (fun s => J { s with
        server := { s.server with pending := s.server.pending.erase uri } }) (validate uri) J := by
  refine Meets.bind (Q := fun _ => J) (Meets.modify fun _ hs => hs) fun _ => ?_
  refine Meets.bind (ends_orReport hJ _ _ (Meets.discard (keeps_ofService hJ fun I hI =>
    Service.keeps_projection? hI uri))) fun _ => ?_
  exact ends_publishDiagnostics hJ uri

theorem keeps_validate (hJ : Stable brings J) (htimeless : Timeless J) (uri : Text) :
    Keeps c J (validate uri) :=
  Ends.keeps ((ends_validate hJ uri).weaken fun s hs => htimeless s _ (by exact rfl) hs)

omit [ScriptParser] in
theorem ends_cancelTimer (htimeless : Timeless J) (uri : Text) :
    Ends c J (cancelTimer uri) J := by
  refine Meets.modify fun s hs => htimeless s _ ?_ hs
  simp only
  split
  · rfl
  · rfl

theorem keeps_schedule (hJ : Stable brings J) (htimeless : Timeless J) (uri : Text) :
    Keeps c J (schedule uri) := by
  refine Meets.bind (ends_cancelTimer htimeless uri).keeps fun _ => ?_
  refine Meets.bind keeps_server fun server => ?_
  refine Meets.bind (Q := fun _ => J) (Meets.read fun _ hs => hs) fun met => ?_
  split
  · exact keeps_validate hJ htimeless uri
  · split
    · exact keeps_validate hJ htimeless uri
    · exact keeps_change htimeless fun _ => rfl

theorem keeps_scheduleAll (hJ : Stable brings J) (htimeless : Timeless J) (uris : List Text) :
    Keeps c J (uris.forM schedule) :=
  Meets.forM (I := fun _ => J) (fun uri _ => keeps_schedule hJ htimeless uri) uris

theorem keeps_scheduleOpen (hschedule : forall uri, Keeps c J (schedule uri))
    (uris : List Text) :
    Keeps c J (do
      for uri in uris do
        if (((← store).entryOf? uri).map (·.isOpen)).getD false then schedule uri) := by
  refine Meets.bind (Meets.forIn (I := fun _ => J) (fun uri rest => ?_) _) fun _ =>
    Keeps.pure c J _
  have hnext : Meets c J (pure (.yield ⟨⟩) : ServerAction (ForInStep PUnit))
      (fun step s => step = .yield ⟨⟩ ∧ J s) J :=
    Meets.pure fun _ hs => ⟨rfl, hs⟩
  refine Meets.bind keeps_store fun store => ?_
  split
  · exact Meets.bind (hschedule uri) fun _ => hnext
  · exact hnext

theorem keeps_fire (hJ : Stable brings J) (htimeless : Timeless J) (t : Timer) :
    Keeps c J (fire t) :=
  Meets.bind (keeps_change htimeless fun _ => rfl) fun _ => keeps_validate hJ htimeless t.uri

theorem keeps_settle (hJ : Stable brings J) (htimeless : Timeless J) : Keeps c J settle := by
  refine Meets.bind (Q := fun _ => J) (Meets.read fun _ hs => hs) fun met => ?_
  split
  · exact Keeps.pure c J _
  · refine Meets.bind keeps_server fun before => ?_
    refine Meets.bind (keeps_change htimeless fun _ => rfl) fun _ => ?_
    refine Meets.bind (Meets.forM (I := fun _ => J) (fun d _ =>
      keeps_runDeferred hJ (keeps_validate hJ htimeless) d) _) fun _ => ?_
    refine Meets.bind keeps_server fun after => ?_
    exact Meets.forM (I := fun _ => J) (fun t _ => keeps_fire hJ htimeless t) _

end ServerAction

/-!
# Messages
-/

namespace Message

def changesTexts : Message -> Bool
  | .opened .. | .changed .. | .closed .. | .filesChanged .. => true
  | _ => false

def isShutdown : Message -> Bool
  | .shutdown => true
  | _ => false

end Message

namespace ServerAction

variable [ScriptParser] {c : Conditions} {J : ServerState -> Prop}

theorem keeps_handle (hJ : Stable True J) {m : Message} (htexts : m.changesTexts = false)
    (hshutdown : m.isShutdown = false) : Keeps c J (handle m) := by
  have hdone {α : Type} {action : ServerAction α} {f : α -> Json} (h : Keeps c J action) :
      Keeps c J (action >>= fun v => pure (f v)) :=
    Meets.bind h fun _ => Keeps.pure c J _
  cases m with
  | start options rootUri =>
      exact hdone (keeps_start hJ options rootUri)
  | hover uri place =>
      exact hdone (keeps_question hJ _ _ _ fun I hI => Service.keeps_hover hI trivial uri place)
  | complete uri place context =>
      exact hdone (keeps_question hJ _ _ _ fun I hI =>
        Service.keeps_complete hI trivial uri place context)
  | definition uri place =>
      exact hdone (keeps_question hJ _ _ _ fun I hI => Service.keeps_definition hI uri place)
  | highlights uri place =>
      exact hdone (keeps_question hJ _ _ _ fun I hI => Service.keeps_highlights hI uri place)
  | symbols uri =>
      exact hdone (keeps_question hJ _ _ _ fun I hI => Service.keeps_symbols hI uri)
  | virtualCode params =>
      exact keeps_virtualCode hJ params
  | toProjected params =>
      exact keeps_carry hJ params fun uri place I hI => Service.keeps_toProjected hI uri place
  | ofProjected params =>
      exact keeps_carry hJ params fun uri place I hI => Service.keeps_ofProjected hI uri place
  | fromEngine message =>
      exact hdone (keeps_fromEngine hJ message)
  | findings fileName findings =>
      exact hdone (keeps_publishFindings hJ fileName findings)
  | tick =>
      exact Keeps.pure c J _
  | opened | changed | closed | filesChanged =>
      cases htexts
  | shutdown =>
      cases hshutdown

end ServerAction

/-!
# Runs
-/

namespace Server

variable [ScriptParser]

/-- Something that happens to a server: a step, or a part of one by itself. -/
inductive Event where
  | step (m : Message)
  | message (m : Message)
  | deferred (d : Deferred)
  | timer (t : Timer)

namespace Event

/-- No server is shut down in a run, and only timers that were set fire. -/
def Possible (s : Server) : Event -> Prop
  | .step m => m.isShutdown = false
  | .message m => m.isShutdown = false
  | .deferred _ => True
  | .timer t => t ∈ s.timers

def outcome (c : Conditions) (s : Server) : Event -> Server × Trace
  | .step m => ((s.step c m).server, (s.step c m).trace)
  | .message m => ended (Action.outcome (ServerAction.handle m) c ⟨s, {}, []⟩).2
  | .deferred d => ended (Action.outcome (ServerAction.runDeferred d) c ⟨s, {}, []⟩).2
  | .timer t => ended (Action.outcome (ServerAction.fire t) c ⟨s, {}, []⟩).2
where
  ended (s : ServerState) : Server × Trace := (s.server, s.trace)

def published (c : Conditions) (s : Server) : Event -> List Publication
  | .step m => (s.step c m).published
  | .message m => (Action.outcome (ServerAction.handle m) c ⟨s, {}, []⟩).2.published
  | .deferred d => (Action.outcome (ServerAction.runDeferred d) c ⟨s, {}, []⟩).2.published
  | .timer t => (Action.outcome (ServerAction.fire t) c ⟨s, {}, []⟩).2.published

def message? : Event -> Option Message
  | .step m | .message m => some m
  | .deferred _ | .timer _ => none

end Event

structure Occurrence where
  conditions : Conditions
  event : Event

def after (s : Server) (run : List Occurrence) : Server :=
  run.foldl (fun s o => (o.event.outcome o.conditions s).1) s

def messages (run : List Occurrence) : List Message :=
  run.filterMap (·.event.message?)

/--
The servers that are reached from the initial one by events, if every event is allowed by the
server before it and the one after it; and what the engine was sent on the way.
-/
inductive Reached (env : Environment) (allows : Server -> Server -> Prop) :
    Server -> List Json -> Prop where
  | initial : Reached env allows (Server.initial env) []
  | next {s : Server} {sent : List Json} (c : Conditions) (event : Event) :
      Reached env allows s sent -> event.Possible s -> allows s (event.outcome c s).1 ->
      Reached env allows (event.outcome c s).1 (sent ++ (event.outcome c s).2.sent)

/-- The server after some messages that meet the same conditions, and what the engine was sent. -/
def serve (c : Conditions) : List Message -> Server × List Json -> Server × List Json
  | [], done => done
  | m :: rest, (s, sent) =>
    serve c rest ((s.step c m).server, sent ++ (s.step c m).trace.sent)

def Along (allows : Server -> Server -> Prop) (c : Conditions) : List Message -> Server -> Prop
  | [], _ => True
  | m :: rest, s => m.isShutdown = false ∧ allows s (s.step c m).server ∧
    Along allows c rest (s.step c m).server

instance decidableAlong (allows : Server -> Server -> Prop) [DecidableRel allows]
    (c : Conditions) : (messages : List Message) -> (s : Server) ->
      Decidable (Along allows c messages s)
  | [], _ => inferInstanceAs (Decidable True)
  | m :: rest, s =>
    have := decidableAlong allows c rest (s.step c m).server
    inferInstanceAs (Decidable (_ ∧ _ ∧ Along allows c rest (s.step c m).server))

theorem Reached.serve {env : Environment} {allows : Server -> Server -> Prop} {s : Server}
    {sent : List Json} {c : Conditions} {messages : List Message}
    (h : s.Reached env allows sent) (hmessages : Along allows c messages s) :
    Reached env allows (Server.serve c messages (s, sent)).1
      (Server.serve c messages (s, sent)).2 := by
  induction messages generalizing s sent with
  | nil =>
      exact h
  | cons m rest ih =>
      exact ih (h.next c (.step m) hmessages.1 hmessages.2.1) hmessages.2.2

/-!
# A short run
-/

def draftUri : Text :=
  "file:///Draft.vue".toList

def standstill : Conditions where
  files _ := .missing
  now := some .zero

def drafting : List Occurrence :=
  [⟨standstill, .message (.opened draftUri [] 1)⟩,
    ⟨standstill, .message (.changed draftUri ["<p/>".toList] 2)⟩]

def draftTimer : Timer :=
  ⟨1, draftUri, Double.zero.add Settings.defaultDelay⟩

end Server
end SfcServer
