import SfcServer.Proofs.Server.Runs

/-!
# Every open document is watched

A document whose projection was dropped is checked at once, or a timer is set for it.  A
change drops the projections of several documents; until each of them is checked or has its
timer, the server is in debt to it.  Every step pays all debts, so that between steps an open
document has its projection, or waits for a timer that will fire.
-/

namespace SfcServer

open SfcServer.Action

namespace Server

def Awaits (s : Server) (uri : Text) : Prop :=
  exists t, t ∈ s.timers ∧ s.pending.get? uri = some t.id ∧ t.uri = uri

/--
Open documents have their projection or a timer, up to those that the server is in debt to.
Timers that were due when the step ended fire one after the other; while they do, their
numbers stand for their documents as those of the timers that are set.
-/
structure Watching (debts : List Text) (firing : List Timer) (s : Server) : Prop where
  stored : s.workspace.store.keys.Nodup
  waiting : s.pending.keys.Nodup
  live : forall uri id, s.pending.get? uri = some id ->
    exists t, t ∈ s.timers ∧ t.id = id ∧ t.uri = uri
  bounded : forall t, t ∈ firing ∨ t ∈ s.timers -> t.id ≤ s.lastTimer
  named : forall t uri, t ∈ firing ∨ t ∈ s.timers -> s.pending.get? uri = some t.id -> uri = t.uri
  attended : forall uri e, s.workspace.store.entryOf? uri = some e -> e.isOpen = true ->
    e.Ready ∨ (s.pending.get? uri).isSome ∨ uri ∈ debts

namespace Watching

variable {s after : Server} {debts more : List Text} {firing : List Timer} {uri : Text} {t : Timer}

theorem initial (env : Environment) : (Server.initial env).Watching [] [] where
  stored := List.nodup_nil
  waiting := List.nodup_nil
  live _ _ h := nomatch h
  bounded _ h := by simp [Server.initial] at h
  named _ _ _ h := nomatch h
  attended _ _ h := nomatch h

/-- The entries of another store are watched, if they were there before or are owed. -/
theorem ofStore (h : s.Watching debts firing) (hstored : after.workspace.store.keys.Nodup)
    (hpending : after.pending = s.pending) (htimers : after.timers = s.timers)
    (hlast : after.lastTimer = s.lastTimer)
    (hattended : forall uri e', after.workspace.store.entryOf? uri = some e' ->
      e'.isOpen = true -> uri ∈ more ∨ exists e, s.workspace.store.entryOf? uri = some e ∧
        e.isOpen = true ∧ (e.Ready -> e'.Ready))
    (hmore : forall uri, uri ∈ debts -> uri ∈ more) : after.Watching more firing where
  stored := hstored
  waiting := hpending ▸ h.waiting
  live := by
    rw [hpending, htimers]
    exact h.live
  bounded := by
    rw [htimers, hlast]
    exact h.bounded
  named := by
    rw [hpending, htimers]
    exact h.named
  attended uri e' he' hopen := by
    rw [hpending]
    rcases hattended uri e' he' hopen with howed | ⟨e, he, hopen, hready⟩
    · exact Or.inr (Or.inr howed)
    · rcases h.attended uri e he hopen with hold | hpending | howed
      · exact Or.inl (hready hold)
      · exact Or.inr (Or.inl hpending)
      · exact Or.inr (Or.inr (hmore uri howed))

theorem ofExtends {brings : Prop} (h : s.Watching debts firing)
    (hextends : s.workspace.store.Extends brings after.workspace.store)
    (hpending : after.pending = s.pending) (htimers : after.timers = s.timers)
    (hlast : after.lastTimer = s.lastTimer) : after.Watching debts firing := by
  refine h.ofStore (hextends.nodup h.stored) hpending htimers hlast ?_ (fun _ howed => howed)
  intro uri e' he' hopen
  right
  cases he : s.workspace.store.entryOf? uri with
  | none =>
      rcases hextends.brought uri e' he he' with ⟨_, text, hgrows⟩
      rw [hgrows.isOpen] at hopen
      cases hopen
  | some e =>
      rcases hextends.grows uri e he with ⟨e'', he'', hgrows⟩
      rw [he'] at he''
      cases he''
      exact ⟨e, rfl, hgrows.isOpen ▸ hopen, hgrows.ready⟩

theorem congr (h : s.Watching debts firing)
    (hstore : after.workspace.store = s.workspace.store) (hpending : after.pending = s.pending)
    (htimers : after.timers = s.timers) (hlast : after.lastTimer = s.lastTimer) :
    after.Watching debts firing := by
  have hextends : s.workspace.store.Extends False after.workspace.store := by
    rw [hstore]
    exact Store.Extends.refl _
  exact h.ofExtends hextends hpending htimers hlast

theorem ofChanges {brings : Prop} {dropped : List Text} (h : s.Watching debts firing)
    (hchanges : s.workspace.store.Changes brings dropped after.workspace.store)
    (hpending : after.pending = s.pending) (htimers : after.timers = s.timers)
    (hlast : after.lastTimer = s.lastTimer) (hdropped : forall k, k ∈ dropped -> k ∈ more)
    (hdebts : forall k, k ∈ debts -> k ∈ more) : after.Watching more firing := by
  refine h.ofStore hchanges.nodup hpending htimers hlast ?_ hdebts
  intro uri e' he' hopen
  rcases hchanges.kept uri e' he' with hsame | ⟨hmem, _⟩
  · exact Or.inr ⟨e', hsame, hopen, fun hready => hready⟩
  · exact Or.inl (hdropped uri hmem)

theorem owe (h : s.Watching debts firing) (uri : Text) : s.Watching (uri :: debts) firing :=
  { h with attended := fun k e he hopen =>
      (h.attended k e he hopen).imp_right (Or.imp_right (List.mem_cons_of_mem uri)) }

theorem paid (h : s.Watching (uri :: debts) firing)
    (hready : forall e, s.workspace.store.entryOf? uri = some e -> e.isOpen = true -> e.Ready) :
    s.Watching debts firing := by
  refine { h with attended := fun k e he hopen => ?_ }
  rcases h.attended k e he hopen with hready | hpending | howed
  · exact Or.inl hready
  · exact Or.inr (Or.inl hpending)
  · rcases List.mem_cons.mp howed with hk | howed
    · subst hk
      exact Or.inl (hready e he hopen)
    · exact Or.inr (Or.inr howed)

/-!
# Timers
-/

/-- A document may be taken off the list of those that wait, if it is owed. -/
theorem unwait (h : s.Watching (uri :: debts) firing) :
    Watching (uri :: debts) firing { s with pending := s.pending.erase uri } where
  stored := h.stored
  waiting := Keyed.keys_erase_nodup h.waiting
  live k id hk := by
    rw [Keyed.get?_erase h.waiting] at hk
    split at hk
    · cases hk
    · exact h.live k id hk
  bounded := h.bounded
  named u k hu hk := by
    rw [Keyed.get?_erase h.waiting] at hk
    split at hk
    · cases hk
    · exact h.named u k hu hk
  attended k e he hopen := by
    rw [Keyed.get?_erase h.waiting]
    split
    · next hk =>
        exact Or.inr (Or.inr (hk ▸ List.mem_cons_self))
    · exact h.attended k e he hopen

theorem withoutTimers (h : s.Watching debts firing) {id : Nat}
    (hfree : forall k, s.pending.get? k ≠ some id) :
    Watching debts firing { s with timers := s.timers.filter (·.id ≠ id) } where
  stored := h.stored
  waiting := h.waiting
  live k other hk := by
    rcases h.live k other hk with ⟨u, hu, hid, huri⟩
    refine ⟨u, List.mem_filter.mpr ⟨hu, ?_⟩, hid, huri⟩
    simp only [decide_eq_true_eq]
    intro heq
    exact hfree k (by rw [hk, ← hid, heq])
  bounded u hu := h.bounded u (hu.imp_right fun hmem => (List.mem_filter.mp hmem).1)
  named u k hu := h.named u k (hu.imp_right fun hmem => (List.mem_filter.mp hmem).1)
  attended := h.attended

theorem cancel (h : s.Watching (uri :: debts) firing) {id : Nat}
    (hid : s.pending.get? uri = some id) :
    Watching (uri :: debts) firing
      { s with pending := s.pending.erase uri, timers := s.timers.filter (·.id ≠ id) } := by
  refine h.unwait.withoutTimers ?_
  intro k hk
  rw [Keyed.get?_erase h.waiting] at hk
  split at hk
  · cases hk
  · next hne =>
      -- The timer of the other document has the number of this one, so it is the same document.
      rcases h.live k id hk with ⟨u, hu, rfl, huri⟩
      exact hne ((h.named u uri (Or.inr hu) hid).trans huri)

theorem ofDue {due : List Timer} (h : s.Watching debts [])
    (hset : forall t, t ∈ due -> t ∈ s.timers) : s.Watching debts due :=
  { h with
    bounded := fun t ht => h.bounded t (Or.inr (ht.elim (hset t) id))
    named := fun t k ht => h.named t k (Or.inr (ht.elim (hset t) id)) }

theorem fire (h : s.Watching debts (t :: firing)) :
    Watching (t.uri :: debts) firing
      { s with pending := s.pending.erase t.uri, timers := s.timers.filter (·.id ≠ t.id) } := by
  have hless : s.Watching debts firing :=
    { h with
      bounded := fun u hu => h.bounded u (hu.imp_left (List.mem_cons_of_mem t))
      named := fun u k hu => h.named u k (hu.imp_left (List.mem_cons_of_mem t)) }
  refine (hless.owe t.uri).unwait.withoutTimers ?_
  intro k hk
  rw [Keyed.get?_erase h.waiting] at hk
  split at hk
  · cases hk
  · next hne =>
      exact hne (h.named t k (Or.inl List.mem_cons_self) hk).symm

theorem await (h : s.Watching (uri :: debts) firing) (due : Double) :
    Watching debts firing
      { s with
        lastTimer := s.lastTimer + 1
        pending := s.pending.put uri (s.lastTimer + 1)
        timers := s.timers ++ [⟨s.lastTimer + 1, uri, due⟩] } where
  stored := h.stored
  waiting := Keyed.keys_put_nodup h.waiting
  live k id hk := by
    rw [Keyed.get?_put] at hk
    split at hk
    · next huri =>
        cases hk
        exact ⟨_, List.mem_append_right _ (List.mem_singleton_self _), rfl, huri⟩
    · rcases h.live k id hk with ⟨u, hu, hid⟩
      exact ⟨u, List.mem_append_left _ hu, hid⟩
  bounded u hu := by
    rcases hu with hu | hu
    · exact Nat.le_succ_of_le (h.bounded u (Or.inl hu))
    · rcases List.mem_append.mp hu with hu | hu
      · exact Nat.le_succ_of_le (h.bounded u (Or.inr hu))
      · have hid := congrArg Timer.id (List.mem_singleton.mp hu)
        exact Nat.le_of_eq hid
  named u k hu hk := by
    rw [Keyed.get?_put] at hk
    -- A timer that was there has a smaller number than the new one.
    have hold : u ∈ firing ∨ u ∈ s.timers -> (if uri = k then some (s.lastTimer + 1)
        else s.pending.get? k) = some u.id -> k = u.uri := by
      intro hu hk
      split at hk
      · have hle := h.bounded u hu
        have hid := Option.some.inj hk
        omega
      · exact h.named u k hu hk
    rcases hu with hu | hu
    · exact hold (Or.inl hu) hk
    · rcases List.mem_append.mp hu with hu | hu
      · exact hold (Or.inr hu) hk
      · rw [List.mem_singleton.mp hu] at hk ⊢
        split at hk
        · next huri =>
            exact huri.symm
        · rcases h.live k _ hk with ⟨v, hv, hid, _⟩
          have hle := h.bounded v (Or.inr hv)
          simp only at hid
          omega
  attended k e he hopen := by
    rw [Keyed.get?_put]
    split
    · exact Or.inr (Or.inl rfl)
    · next hne =>
        rcases h.attended k e he hopen with hready | hpending | howed
        · exact Or.inl hready
        · exact Or.inr (Or.inl hpending)
        · rcases List.mem_cons.mp howed with hk | howed
          · exact absurd hk.symm hne
          · exact Or.inr (Or.inr howed)

end Watching
end Server

/-!
# Actions
-/

section

variable [ScriptParser]

namespace ServerAction

variable {α : Type} {c : Conditions} {brings : Prop} {debts : List Text} {firing : List Timer}

abbrev Watches (debts : List Text) (firing : List Timer) (s : ServerState) : Prop :=
  s.server.Watching debts firing

omit [ScriptParser] in
theorem watches_stable (brings : Prop) (debts : List Text) (firing : List Timer) :
    Stable brings (Watches debts firing) := by
  intro s after hmove hs
  cases hmove with
  | service hmove =>
      cases hmove with
      | report | talk | sync =>
          exact hs.congr rfl rfl rfl rfl
      | load hextends =>
          exact hs.ofExtends hextends rfl rfl rfl
  | publish =>
      exact hs
  | beside hbeside =>
      exact hs.congr hbeside.store hbeside.pending hbeside.timers hbeside.lastTimer

theorem pays_projection? (uri : Text) :
    Ends c (Watches (uri :: debts) firing) (ofService (Service.projection? uri))
      (Watches debts firing) := by
  intro s hs
  rw [outcome_ofService, Service.outcome_projection?]
  have hstore := Service.afterProjection_store uri s.service
  have hafter : Watches (uri :: debts) firing
      (s.withService (Service.afterProjection uri s.service)) := by
    have hextends : s.service.workspace.store.Extends False
        (Service.afterProjection uri s.service).workspace.store := by
      rw [hstore]
      exact Store.projection_extends _ uri
    exact hs.ofExtends hextends rfl rfl rfl
  refine hafter.paid fun e he _ => ?_
  rw [ServerState.withService, hstore] at he
  cases hbefore : s.service.workspace.store.entryOf? uri with
  | none =>
      rw [Store.projection_of_none hbefore, hbefore] at he
      cases he
  | some e =>
      rcases Store.projection_entry hbefore with ⟨e', he', _, hready⟩
      rw [he] at he'
      cases he'
      rw [Entry.Ready, hready]
      rfl

/-- Checking a document pays the debt to it; that it waits no more is the first thing done. -/
theorem pays_validate (uri : Text) :
    Ends c (fun s => Watches (uri :: debts) firing { s with
        server := { s.server with pending := s.server.pending.erase uri } })
      (validate uri) (Watches debts firing) := by
  refine Meets.bind (Q := fun _ => Watches (uri :: debts) firing)
    (Meets.modify fun _ hs => hs) fun _ => ?_
  refine Meets.bind (Q := fun _ => Watches debts firing) ?_ fun _ =>
    ends_publishDiagnostics (watches_stable False debts firing) uri
  refine Meets.tryCatch (Meets.discard (pays_projection? uri)) fun _ => ?_
  exact fun _ hfalse => hfalse.elim

theorem keeps_watching_validate (uri : Text) : Keeps c (Watches debts firing) (validate uri) :=
  Ends.keeps ((pays_validate uri).weaken fun _ hs => (hs.owe uri).unwait)

omit [ScriptParser] in
theorem owes_cancelTimer (uri : Text) :
    Ends c (Watches (uri :: debts) firing) (cancelTimer uri) (Watches (uri :: debts) firing) := by
  refine Meets.modify fun s hs => ?_
  simp only
  split
  · exact hs
  · next id hid =>
      exact hs.cancel hid

theorem pays_schedule (uri : Text) :
    Ends c (Watches (uri :: debts) firing) (schedule uri) (Watches debts firing) := by
  have hvalidate : Ends c (Watches (uri :: debts) firing) (validate uri) (Watches debts firing) :=
    (pays_validate uri).weaken fun _ hs => hs.unwait
  refine Meets.bind (owes_cancelTimer uri) fun _ => ?_
  refine Meets.bind (Q := fun _ => Watches (uri :: debts) firing) (fun _ hs => hs) fun server => ?_
  refine Meets.bind (Q := fun _ => Watches (uri :: debts) firing) (Meets.read fun _ hs => hs)
    fun met => ?_
  split
  · exact hvalidate
  · split
    · exact hvalidate
    · exact Meets.modify fun s hs => hs.await _

theorem pays_scheduleAll (uris : List Text) :
    Ends c (Watches uris firing) (uris.forM schedule) (Watches [] firing) :=
  Meets.forM (I := fun uris => Watches uris firing) (fun uri _ => pays_schedule uri) uris

theorem pays_fire (t : Timer) :
    Ends c (Watches debts (t :: firing)) (fire t) (Watches debts firing) := by
  refine Meets.bind (Q := fun _ s => Watches (t.uri :: debts) firing { s with
    server := { s.server with pending := s.server.pending.erase t.uri } }) ?_ fun _ =>
      pays_validate t.uri
  exact Meets.modify fun s hs => hs.fire

/-!
# Changes of texts
-/

omit [ScriptParser] in
theorem owes_setStore {dropped : List Text} {before after : Store}
    (h : before.keys.Nodup -> before.Changes brings dropped after) :
    Ends c (fun s => Watches [] firing s ∧ s.server.workspace.store = before) (setStore after)
      (Watches dropped firing) := by
  refine Meets.modify fun s hs => ?_
  rcases hs with ⟨hs, rfl⟩
  exact hs.ofChanges (h hs.stored) rfl rfl rfl (fun _ hmem => hmem) (fun _ hmem => nomatch hmem)

theorem pays_opened (uri text : Text) (version : Int) :
    Ends c (Watches [] []) (opened uri text version) (Watches [] []) := by
  unfold opened
  split
  · refine Meets.bind meets_store fun before => ?_
    refine Meets.bind (owes_setStore fun hnodup =>
      Store.openText_changes hnodup uri text version) fun _ => ?_
    refine Meets.bind ((pays_validate uri).weaken fun _ hs => hs.unwait) fun _ => ?_
    exact pays_scheduleAll _
  · exact Meets.pure fun _ hs => hs

theorem pays_changed (uri : Text) (texts : List Text) (version : Int) :
    Ends c (Watches [] []) (changed uri texts version) (Watches [] []) := by
  refine Meets.bind meets_store fun before => ?_
  split
  · exact Meets.pure fun _ hs => hs.1
  · next text _ =>
      split
      · next hsome =>
          refine Meets.bind (owes_setStore fun hnodup =>
            Store.updateText_changes hnodup hsome text version) fun _ => ?_
          refine Meets.bind (Meets.forIn (I := fun uris => Watches uris [])
            (fun other rest => ?_) _) fun _ => Meets.pure fun _ hs => hs
          refine Meets.bind meets_store fun found => ?_
          split
          · refine Meets.bind (Q := fun _ => Watches rest []) ?_ fun _ =>
              Meets.pure fun _ hs => ⟨rfl, hs⟩
            exact (pays_schedule other).weaken fun _ hs => hs.1
          · next hclosed =>
              refine Meets.pure fun s hs => ⟨rfl, hs.1.paid fun e he hopen => ?_⟩
              rw [hs.2] at he
              rw [he] at hclosed
              exact absurd hopen hclosed
      · exact Meets.pure fun _ hs => hs.1

omit [ScriptParser] in
theorem pays_close (uri : Text) (before : Store) :
    Ends c (fun s => Watches [uri] [] s ∧ s.server.workspace.store = before)
      (setStore (before.close uri)) (Watches (before.dependents uri) []) := by
  refine Meets.modify fun s hs => ?_
  rcases hs with ⟨hs, rfl⟩
  have howed : Server.Watching (uri :: s.server.workspace.store.dependents uri) []
      { s.server with workspace := { s.server.workspace with
        store := s.server.workspace.store.close uri } } :=
    hs.ofChanges (Store.close_changes hs.stored uri) rfl rfl rfl
      (fun _ hmem => List.mem_cons_of_mem uri hmem)
      (fun k hk => List.mem_singleton.mp hk ▸ List.mem_cons_self)
  refine howed.paid fun e he => ?_
  rw [Store.entryOf?_close hs.stored] at he
  cases he

theorem pays_closed (uri : Text) :
    Ends c (Watches [] []) (closed uri) (Watches [] []) := by
  have hrest (dependents : List Text) :
      Ends c (Watches dependents [])
        (publish ⟨uri, [], none⟩ >>= fun _ => dependents.forM schedule) (Watches [] []) :=
    Meets.bind (Meets.modify fun _ hs => hs) fun _ => pays_scheduleAll dependents
  refine Meets.bind ((owes_cancelTimer uri).weaken fun _ hs => hs.owe uri) fun _ => ?_
  refine Meets.bind meets_store fun before => ?_
  refine Meets.bind (pays_close uri before) fun _ => ?_
  refine Meets.bind (Q := fun _ => Watches (before.dependents uri) [])
    (Meets.modify fun _ hs => hs.congr rfl rfl rfl rfl) fun _ => ?_
  refine Meets.bind (Q := fun _ => Watches (before.dependents uri) []) (fun _ hs => hs)
    fun session => ?_
  cases session with
  | none =>
      exact hrest _
  | some session =>
      refine Meets.bind (Q := fun _ => Watches (before.dependents uri) []) ?_ fun _ => hrest _
      intro s hs
      rw [outcome_ofService]
      exact hs.congr rfl rfl rfl rfl

theorem pays_filesChanged (uris : List Text) :
    Ends c (Watches [] []) (filesChanged uris) (Watches [] []) := by
  refine Meets.forM (I := fun _ => Watches [] []) (fun uri _ => ?_) uris
  refine Meets.bind meets_store fun before => ?_
  refine Meets.bind (owes_setStore fun hnodup => Store.forget_changes hnodup uri) fun _ => ?_
  exact pays_scheduleAll _

/-!
# Steps
-/

omit [ScriptParser] in
theorem mem_insertByDue {t u : Timer} {timers : List Timer} :
    u ∈ insertByDue t timers ↔ u = t ∨ u ∈ timers := by
  induction timers with
  | nil =>
      simp [insertByDue]
  | cons other rest ih =>
      rw [insertByDue]
      split
      · simp
      · simp only [List.mem_cons, ih]
        exact or_left_comm

omit [ScriptParser] in
theorem mem_of_mem_dueTimers {now : Double} {timers : List Timer} {t : Timer}
    (h : t ∈ dueTimers now timers) : t ∈ timers := by
  have hfold (due sorted : List Timer) :
      t ∈ due.foldl (fun sorted t => insertByDue t sorted) sorted -> t ∈ due ∨ t ∈ sorted := by
    induction due generalizing sorted with
    | nil =>
        exact Or.inr
    | cons first rest ih =>
        intro hmem
        rcases ih _ hmem with hmem | hmem
        · exact Or.inl (List.mem_cons_of_mem _ hmem)
        · rcases mem_insertByDue.mp hmem with heq | hmem
          · exact Or.inl (heq ▸ List.mem_cons_self)
          · exact Or.inr hmem
  rcases hfold _ _ h with hmem | hmem
  · exact (List.mem_filter.mp hmem).1
  · cases hmem

theorem keeps_watching_handle {m : Message} (h : m.isShutdown = false) :
    Keeps c (Watches [] []) (handle m) := by
  have hdone {action : ServerAction Unit}
      (haction : Ends c (Watches [] []) action (Watches [] [])) :
      Keeps c (Watches [] []) (action >>= fun _ => pure Json.null) :=
    Meets.bind (Ends.keeps haction) fun _ => Keeps.pure c _ _
  cases m with
  | opened uri text version =>
      exact hdone (pays_opened uri text version)
  | changed uri texts version =>
      exact hdone (pays_changed uri texts version)
  | closed uri =>
      exact hdone (pays_closed uri)
  | filesChanged uris =>
      exact hdone (pays_filesChanged uris)
  | _ =>
      exact keeps_handle (watches_stable True [] []) rfl h

theorem keeps_watching_deferred (d : Deferred) : Keeps c (Watches [] []) (runDeferred d) :=
  keeps_runDeferred (watches_stable False [] []) keeps_watching_validate d

theorem keeps_watching_settle : Keeps c (Watches [] []) settle := by
  refine Meets.bind (Q := fun _ => Watches [] []) (Meets.read fun _ hs => hs) fun met => ?_
  split
  · exact Keeps.pure c _ _
  · next now _ =>
      refine Meets.bind keeps_server fun before => ?_
      refine Meets.bind (keeps_beside (watches_stable False [] [])
        fun _ => ⟨rfl, Or.inl rfl, rfl, rfl, rfl⟩) fun _ => ?_
      refine Meets.bind (Meets.forM (I := fun _ => Watches [] [])
        (fun d _ => keeps_watching_deferred d) _) fun _ => ?_
      refine Meets.bind (Q := fun found s => Watches [] (dueTimers now found.timers) s)
        (fun _ hs => hs.ofDue fun _ => mem_of_mem_dueTimers) fun found => ?_
      exact Ends.keeps (Meets.forM (I := fun due => Watches [] due) (fun t _ => pays_fire t) _)

end ServerAction

/-!
# Runs
-/

namespace Server

theorem Event.watching {c : Conditions} {s : Server} {event : Event} (hs : s.Watching [] [])
    (hpossible : event.Possible s) : (event.outcome c s).1.Watching [] [] := by
  have hstart : ServerAction.Watches [] [] ⟨s, {}, []⟩ := hs
  cases event with
  | step m =>
      have hhandled := (ServerAction.keeps_watching_handle hpossible (c := c)).leaves hstart
      exact ServerAction.keeps_watching_settle.leaves hhandled
  | message m =>
      exact (ServerAction.keeps_watching_handle hpossible).leaves hstart
  | deferred d =>
      exact (ServerAction.keeps_watching_deferred d).leaves hstart
  | timer t =>
      have hfiring : ServerAction.Watches [] [t] ⟨s, {}, []⟩ :=
        hs.ofDue fun u hu => List.mem_singleton.mp hu ▸ hpossible
      exact (Ends.keeps (ServerAction.pays_fire t)).leaves hfiring

theorem Reached.watching {env : Environment} {allows : Server -> Server -> Prop} {s : Server}
    {sent : List Json} (h : s.Reached env allows sent) : s.Watching [] [] := by
  induction h with
  | initial =>
      exact Watching.initial env
  | next c event _ hpossible _ ih =>
      exact Event.watching ih hpossible

/--
In every run without a shutdown, an open document has its projection or waits for a timer that
will fire.
-/
theorem open_documents_watched {env : Environment} {s : Server} {sent : List Json}
    (hreached : s.Reached env (fun _ _ => True) sent) {uri : Text} {e : Entry}
    (he : s.workspace.store.entryOf? uri = some e) (hopen : e.isOpen = true) :
    e.Ready ∨ s.Awaits uri := by
  have hwatching := hreached.watching
  rcases hwatching.attended uri e he hopen with hready | hpending | howed
  · exact Or.inl hready
  · rcases Option.isSome_iff_exists.mp hpending with ⟨id, hid⟩
    rcases hwatching.live uri id hid with ⟨t, ht, rfl, huri⟩
    exact Or.inr ⟨t, ht, hid, huri⟩
  · cases howed

end Server

end

namespace Server

/-- The server after a document was opened and changed, while the clock stood still. -/
def typed : Server × List Json :=
  serve { files := fun _ => .missing, now := some .zero }
    [.opened "file:///A.vue".toList "<template></template>".toList 1,
      .changed "file:///A.vue".toList ["<template>a</template>".toList] 2]
    (Server.initial {}, [])

/-- The changed document is not ready, so its timer is set. -/
theorem open_documents_watched_changed :
    typed.1.Reached {} (fun _ _ => True) typed.2 ∧
      exists e, typed.1.workspace.store.entryOf? "file:///A.vue".toList = some e ∧
        e.isOpen = true ∧ ¬ e.Ready ∧ typed.1.Awaits "file:///A.vue".toList := by
  have hreached : typed.1.Reached {} (fun _ _ => True) typed.2 :=
    Reached.initial.serve (by decide +kernel)
  have hfacts : (typed.1.workspace.store.entryOf? "file:///A.vue".toList).any
      (fun e => e.isOpen ∧ ¬ e.Ready) = true := by
    decide +kernel
  rcases (Option.any_eq_true _ _).mp hfacts with ⟨e, he, hstate⟩
  rcases of_decide_eq_true hstate with ⟨hopen, hready⟩
  exact ⟨hreached, e, he, hopen, hready,
    (open_documents_watched hreached he hopen).resolve_left hready⟩

end Server
end SfcServer
