import SfcServer.Proofs.Server.Runs

/-!
# Publications

The server publishes what it finds in open documents, with the version that the editor gave
last.  When a document is closed, what was found in it is taken back by an empty publication
without a version.  Nothing else is published about a document that is not open, however
late a timer fires or the engine sends what it found.
-/

namespace SfcServer

open SfcServer.Action

namespace Message

/-- The versions of the documents that are open after a message, from those before it. -/
def versionsAfter (versions : Text -> Option Int) (m : Message) (uri : Text) : Option Int :=
  match m with
  | .opened other _ version =>
    if ("file://".toList).isPrefixOf other ∧ other = uri then some version else versions uri
  | .changed other texts version =>
    if texts ≠ [] ∧ other = uri then (versions uri).map fun _ => version else versions uri
  | .closed other => if other = uri then none else versions uri
  | _ => versions uri

/-- What is published to take back what was found in a document that is closed. -/
def farewell : Message -> List Publication
  | .closed uri => [⟨uri, [], none⟩]
  | _ => []

end Message

/-- The version that an editor gave last for each document that it opened and did not close. -/
def editorVersions (messages : List Message) : Text -> Option Int :=
  messages.foldl Message.versionsAfter fun _ => none

/-- The open documents of a store are those with a version, and each has its version. -/
structure Store.Opens (versions : Text -> Option Int) (s : Store) : Prop where
  nodup : s.keys.Nodup
  versions : forall uri, s.openVersion? uri = versions uri

def Publication.Current (versions : Text -> Option Int) (p : Publication) : Prop :=
  exists version, versions p.uri = some version ∧ p.version = some version

/-!
# Changes of a store
-/

namespace Store.Opens

variable {versions : Text -> Option Int} {s : Store}

theorem ofExtends {brings : Prop} {after : Store} (h : s.Opens versions)
    (hextends : s.Extends brings after) : after.Opens versions where
  nodup := hextends.nodup h.nodup
  versions uri := (hextends.openVersion? uri).trans (h.versions uri)

theorem opened (h : s.Opens versions) {uri : Text} (huri : ("file://".toList).isPrefixOf uri)
    (text : Text) (version : Int) :
    (s.openText uri text version).Opens
      ((Message.opened uri text version).versionsAfter versions) where
  nodup := (Store.openText_changes h.nodup uri text version).nodup
  versions k := by
    rw [Store.openVersion?_openText, h.versions, Message.versionsAfter]
    simp only [huri, true_and]

theorem changed (h : s.Opens versions) {uri : Text} (hknown : (s.entryOf? uri).isSome)
    {texts : List Text} (htexts : texts ≠ []) (text : Text) (version : Int) :
    (s.updateText uri text version).2.Opens
      ((Message.changed uri texts version).versionsAfter versions) where
  nodup := (Store.updateText_changes h.nodup hknown text version).nodup
  versions k := by
    rw [Store.openVersion?_updateText hknown, h.versions, Message.versionsAfter]
    simp only [htexts, ne_eq, not_false_eq_true, true_and]

/-- A change to a document that is not known, or by no text, is a change to no open document. -/
theorem unchanged (h : s.Opens versions) {uri : Text} {texts : List Text} {version : Int}
    (hidle : texts = [] ∨ s.entryOf? uri = none) :
    s.Opens ((Message.changed uri texts version).versionsAfter versions) where
  nodup := h.nodup
  versions k := by
    rw [h.versions, Message.versionsAfter]
    split
    · next hcase =>
        rcases hcase with ⟨htexts, rfl⟩
        rw [← h.versions, Store.openVersion?_of_none (hidle.resolve_left htexts), Option.map_none]
    · rfl

theorem closed (h : s.Opens versions) (uri : Text) :
    (s.close uri).Opens ((Message.closed uri).versionsAfter versions) where
  nodup := (Store.close_changes h.nodup uri).nodup
  versions k := by
    rw [Store.openVersion?_close h.nodup, h.versions, Message.versionsAfter]

theorem forgotten (h : s.Opens versions) (uri : Text) : (s.forget uri).2.Opens versions where
  nodup := (Store.forget_changes h.nodup uri).nodup
  versions k := (Store.openVersion?_forget h.nodup uri k).trans (h.versions k)

end Store.Opens

/-!
# Actions
-/

section

variable [ScriptParser]

namespace ServerAction

variable {c : Conditions} {versions : Text -> Option Int} {aside : List Publication}

/-- The store has open what the editor has, and what was published is current or an exception. -/
structure Tells (versions : Text -> Option Int) (aside : List Publication) (s : ServerState) :
    Prop where
  opens : s.server.workspace.store.Opens versions
  published : forall p, p ∈ s.published -> p ∈ aside ∨ p.Current versions

/-- The store has open what the editor has, and nothing was published. -/
structure Silent (versions : Text -> Option Int) (s : ServerState) : Prop where
  opens : s.server.workspace.store.Opens versions
  published : s.published = []

omit [ScriptParser] in
theorem Silent.tells {s : ServerState} (h : Silent versions s) (aside : List Publication) :
    Tells versions aside s where
  opens := h.opens
  published p hp := by
    rw [h.published] at hp
    cases hp

omit [ScriptParser] in
theorem tells_stable (brings : Prop) (versions : Text -> Option Int) (aside : List Publication) :
    Stable brings (Tells versions aside) := by
  intro s after hmove hs
  cases hmove with
  | service hmove =>
      cases hmove with
      | report | talk | sync =>
          exact ⟨hs.opens, hs.published⟩
      | load hextends =>
          exact ⟨hs.opens.ofExtends hextends, hs.published⟩
  | publish hopen hversion =>
      refine ⟨hs.opens, fun p hp => ?_⟩
      rcases List.mem_append.mp hp with hp | hp
      · exact hs.published p hp
      · cases List.mem_singleton.mp hp
        rw [hs.opens.versions] at hopen
        exact Or.inr ⟨_, hopen, hversion⟩
  | beside hbeside =>
      refine ⟨?_, hs.published⟩
      rw [hbeside.store]
      exact hs.opens

omit [ScriptParser] in
theorem tells_timeless (versions : Text -> Option Int) (aside : List Publication) :
    Timeless (Tells versions aside) := by
  intro s after hworkspace hs
  refine ⟨?_, hs.published⟩
  rw [hworkspace]
  exact hs.opens

omit [ScriptParser] in
theorem silent_timeless (versions : Text -> Option Int) : Timeless (Silent versions) := by
  intro s after hworkspace hs
  refine ⟨?_, hs.published⟩
  rw [hworkspace]
  exact hs.opens

omit [ScriptParser] in
theorem silent_setStore {found after : Store} {versions' : Text -> Option Int}
    {E : ServerState -> Prop} (h : found.Opens versions -> after.Opens versions') :
    Meets c (fun s => Silent versions s ∧ s.server.workspace.store = found) (setStore after)
      (fun _ => Silent versions') E := by
  refine Meets.modify fun s hs => ?_
  rcases hs with ⟨hs, rfl⟩
  exact ⟨h hs.opens, hs.published⟩

/-!
# Messages
-/

/-- However a message ends, what was published is current after it, but for a farewell. -/
abbrev Answers {α : Type} (c : Conditions) (versions : Text -> Option Int) (m : Message)
    (action : ServerAction α) : Prop :=
  Leads c (Silent versions) action (Tells (m.versionsAfter versions) m.farewell)

theorem keeps_telling_scheduleAll (uris : List Text) :
    Keeps c (Tells versions aside) (uris.forM schedule) :=
  keeps_scheduleAll (tells_stable False versions aside) (tells_timeless versions aside) uris

theorem answers_opened (uri text : Text) (version : Int) :
    Answers c versions (.opened uri text version) (opened uri text version) := by
  unfold opened
  split
  · next huri =>
      refine Meets.bind meets_store fun found => ?_
      refine Meets.bind (silent_setStore fun h => h.opened huri text version) fun _ => ?_
      refine Meets.weaken ?_ fun s (hs : Silent _ s) => hs.tells []
      refine Meets.bind (keeps_validate (tells_stable False _ _) (tells_timeless _ _) uri)
        fun _ => ?_
      exact keeps_telling_scheduleAll _
  · next huri =>
      have hsame : (Message.opened uri text version).versionsAfter versions = versions := by
        funext k
        rw [Message.versionsAfter, if_neg fun h => huri h.1]
      rw [Answers, hsame]
      exact Meets.pure fun _ hs => hs.tells []

theorem answers_changed (uri : Text) (texts : List Text) (version : Int) :
    Answers c versions (.changed uri texts version) (changed uri texts version) := by
  have hidle {found : Store} (h : texts = [] ∨ found.entryOf? uri = none) :
      Leads c (fun s => Silent versions s ∧ s.server.workspace.store = found)
        (pure () : ServerAction Unit)
        (Tells ((Message.changed uri texts version).versionsAfter versions) []) := by
    refine Meets.pure fun s hs => ?_
    rcases hs with ⟨hs, rfl⟩
    exact Silent.tells ⟨hs.opens.unchanged h, hs.published⟩ []
  refine Meets.bind meets_store fun found => ?_
  split
  · next hlast =>
      exact hidle (Or.inl (List.getLast?_eq_none_iff.mp hlast))
  · next text hlast =>
      have htexts : texts ≠ [] := by
        rintro rfl
        cases hlast
      split
      · next hknown =>
          refine Meets.bind (silent_setStore fun h => h.changed hknown htexts text version)
            fun _ => ?_
          refine Meets.weaken ?_ fun s (hs : Silent _ s) => hs.tells []
          exact keeps_scheduleOpen (keeps_schedule (tells_stable False _ _) (tells_timeless _ _)) _
      · next hunknown =>
          exact hidle (Or.inr (Option.not_isSome_iff_eq_none.mp hunknown))

/-- The farewell is the first thing that is published, and the document is closed by then. -/
theorem answers_closed (uri : Text) : Answers c versions (.closed uri) (closed uri) := by
  have hrest (dependents : List Text) :
      Leads c (Silent ((Message.closed uri).versionsAfter versions))
        (publish ⟨uri, [], none⟩ >>= fun _ => dependents.forM schedule)
        (Tells ((Message.closed uri).versionsAfter versions) [⟨uri, [], none⟩]) := by
    refine Meets.bind (Meets.modify fun s hs => ⟨hs.opens, fun p hp => Or.inl ?_⟩) fun _ =>
      keeps_telling_scheduleAll dependents
    rw [hs.published] at hp
    exact hp
  refine Meets.bind (ends_cancelTimer (silent_timeless versions) uri).meets fun _ => ?_
  refine Meets.bind meets_store fun found => ?_
  refine Meets.bind (silent_setStore fun h => h.closed uri) fun _ => ?_
  refine Meets.bind (Q := fun _ => Silent ((Message.closed uri).versionsAfter versions))
    (Meets.modify fun s hs => ⟨hs.opens, hs.published⟩) fun _ => ?_
  refine Meets.bind (Q := fun _ => Silent ((Message.closed uri).versionsAfter versions))
    (fun _ hs => hs) fun session => ?_
  cases session with
  | none =>
      exact hrest _
  | some session =>
      refine Meets.bind (Q := fun _ => Silent ((Message.closed uri).versionsAfter versions)) ?_
        fun _ => hrest _
      intro s hs
      rw [outcome_ofService]
      exact ⟨hs.opens, hs.published⟩

theorem answers_filesChanged (uris : List Text) :
    Answers c versions (.filesChanged uris) (filesChanged uris) := by
  have hkeeps : Keeps c (Tells versions []) (filesChanged uris) := by
    refine Meets.forM (I := fun _ => Tells versions []) (fun uri _ => ?_) uris
    refine Meets.bind meets_store fun found => ?_
    refine Meets.bind (Q := fun _ => Tells versions []) ?_ fun _ => keeps_telling_scheduleAll _
    refine Meets.modify fun s hs => ?_
    rcases hs with ⟨hs, rfl⟩
    exact ⟨hs.opens.forgotten uri, hs.published⟩
  exact hkeeps.weaken fun _ hs => hs.tells []

omit [ScriptParser] in
theorem answers_shutdown : Answers c versions .shutdown shutdown := by
  have hkeeps : Keeps c (Tells versions []) shutdown := by
    refine Meets.bind (keeps_change (tells_timeless versions []) fun _ => rfl) fun _ => ?_
    refine Meets.bind keeps_session? fun session => ?_
    split
    · exact Keeps.pure c _ _
    · exact Meets.modify fun s hs => ⟨hs.opens, hs.published⟩
  exact hkeeps.weaken fun _ hs => hs.tells []

theorem answers_handle (m : Message) : Answers c versions m (handle m) := by
  have hdone {m : Message} {action : ServerAction Unit} (haction : Answers c versions m action) :
      Answers c versions m (action >>= fun _ => pure Json.null) :=
    Meets.bind haction fun _ => Meets.pure fun _ hs => hs
  cases m with
  | opened uri text version =>
      exact hdone (answers_opened uri text version)
  | changed uri texts version =>
      exact hdone (answers_changed uri texts version)
  | closed uri =>
      exact hdone (answers_closed uri)
  | filesChanged uris =>
      exact hdone (answers_filesChanged uris)
  | shutdown =>
      exact hdone answers_shutdown
  | _ =>
      exact (keeps_handle (tells_stable True versions []) rfl rfl).weaken fun _ hs => hs.tells []

end ServerAction

/-!
# Runs
-/

namespace Server

omit [ScriptParser] in
theorem messages_cons (o : Occurrence) (rest : List Occurrence) :
    messages (o :: rest) = o.event.message?.toList ++ messages rest := by
  unfold messages
  rw [List.filterMap_cons]
  cases o.event.message? with
  | none =>
      rfl
  | some m =>
      rfl

omit [ScriptParser] in
theorem editorVersions_concat (run : List Occurrence) (o : Occurrence) :
    editorVersions (messages (run ++ [o])) =
      o.event.message?.toList.foldl Message.versionsAfter (editorVersions (messages run)) := by
  have hlast : messages [o] = o.event.message?.toList :=
    (messages_cons o []).trans (List.append_nil _)
  unfold editorVersions
  rw [messages, List.filterMap_append, ← messages, ← messages, hlast, List.foldl_append]

/-- An event publishes what is current after its message, but for the farewell that it brings. -/
theorem Event.tells {c : Conditions} {s : Server} {versions : Text -> Option Int}
    (h : s.workspace.store.Opens versions) (event : Event) :
    ServerAction.Tells (event.message?.toList.foldl Message.versionsAfter versions)
      ((event.message?.map Message.farewell).getD [])
      ⟨(event.outcome c s).1, (event.outcome c s).2, event.published c s⟩ := by
  have hsilent : ServerAction.Silent versions ⟨s, {}, []⟩ := ⟨h, rfl⟩
  have hstable := ServerAction.tells_stable False versions []
  have htimeless := ServerAction.tells_timeless versions []
  cases event with
  | step m =>
      exact (ServerAction.keeps_settle (ServerAction.tells_stable False _ _)
        (ServerAction.tells_timeless _ _)).leaves ((ServerAction.answers_handle m).leaves hsilent)
  | message m =>
      exact (ServerAction.answers_handle m).leaves hsilent
  | deferred d =>
      exact (ServerAction.keeps_runDeferred hstable
        (ServerAction.keeps_validate hstable htimeless) d).leaves (hsilent.tells [])
  | timer t =>
      exact (ServerAction.keeps_fire hstable htimeless t).leaves (hsilent.tells [])

theorem opens_after {s : Server} {versions : Text -> Option Int}
    (h : s.workspace.store.Opens versions) (run : List Occurrence) :
    (s.after run).workspace.store.Opens
      ((messages run).foldl Message.versionsAfter versions) := by
  induction run generalizing s versions with
  | nil =>
      exact h
  | cons o rest ih =>
      rw [messages_cons, List.foldl_append]
      exact ih (Event.tells h o.event).opens

/--
What is published in a run is the empty publication without a version about a document that is
being closed, or it is about a document that is open at that moment, and carries the version
that the editor gave last for it.
-/
theorem publications_current (env : Environment) (run : List Occurrence) (o : Occurrence)
    {p : Publication}
    (hp : p ∈ o.event.published o.conditions ((Server.initial env).after run)) :
    (editorVersions (messages (run ++ [o])) p.uri = none ∧
        o.event.message? = some (.closed p.uri) ∧ p = ⟨p.uri, [], none⟩) ∨
      p.Current (editorVersions (messages (run ++ [o]))) := by
  have hinitial : (Server.initial env).workspace.store.Opens fun _ => none :=
    ⟨List.nodup_nil, fun _ => rfl⟩
  have hopens := opens_after hinitial run
  rw [editorVersions_concat]
  rcases (Event.tells hopens o.event).published p hp with haside | hcurrent
  · left
    cases hm : o.event.message? with
    | none =>
        rw [hm] at haside
        cases haside
    | some m =>
        rw [hm] at haside
        cases m with
        | closed uri =>
            cases List.mem_singleton.mp haside
            exact ⟨if_pos rfl, rfl, rfl⟩
        | _ =>
            cases haside
  · exact Or.inr hcurrent

end Server

end

namespace Server

def draftCheck : Occurrence :=
  ⟨standstill, .timer draftTimer⟩

/-- The check of the changed document is published with the version of the change. -/
theorem publications_current_drafting :
    draftCheck.event.Possible ((Server.initial {}).after drafting) ∧
      exists p, p ∈ draftCheck.event.published draftCheck.conditions
          ((Server.initial {}).after drafting) ∧
        p.uri = draftUri ∧ p.version = some 2 := by
  have hset : draftTimer ∈ ((Server.initial {}).after drafting).timers := by
    decide +kernel
  have hpublished : (draftCheck.event.published draftCheck.conditions
      ((Server.initial {}).after drafting)).any (fun p => p.uri = draftUri) = true := by
    decide +kernel
  have hversion : editorVersions (messages (drafting ++ [draftCheck])) draftUri = some 2 := by
    decide +kernel
  rcases List.any_eq_true.mp hpublished with ⟨p, hp, huri⟩
  have huri := of_decide_eq_true huri
  refine ⟨hset, p, hp, huri, ?_⟩
  rcases publications_current {} drafting draftCheck hp with ⟨hnone, _⟩ | ⟨version, hgiven, hp⟩
  · rw [huri, hversion] at hnone
    cases hnone
  · rw [huri, hversion] at hgiven
    rw [hp, hgiven]

end Server
end SfcServer
