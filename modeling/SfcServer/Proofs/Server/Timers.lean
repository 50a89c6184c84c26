import SfcServer.Proofs.Server.Runs

/-!
# Timers and the documents that wait for them

A document waits for at most one timer, under whose number it is registered.  Setting a timer
for a document, closing it and shutting the server down take back the timer that it waits
for.  Checking the document directly takes it off the list of those that wait, but leaves its
timer set: from then on nothing takes that timer back, and it fires in addition to those that
are set later.
-/

namespace SfcServer

open SfcServer.Action

namespace Server

def Registers (s : Server) (t : Timer) : Prop :=
  s.pending.get? t.uri = some t.id

instance (s : Server) (t : Timer) : Decidable (s.Registers t) :=
  inferInstanceAs (Decidable (_ = _))

/-- Every timer has a number of its own, and the next number is free. -/
structure Numbered (s : Server) : Prop where
  waiting : s.pending.keys.Nodup
  bounded : forall t, t ∈ s.timers -> t.id ≤ s.lastTimer
  apart : forall t u, t ∈ s.timers -> u ∈ s.timers -> t.id = u.id -> t = u

/--
The timers of a server after some documents were checked directly, against those before.  A
timer that is still set is registered if it was before and its document was not checked; a
timer that was set since has a new number, and is registered.
-/
structure Shifts (before : Server) (checked : List Text) (s : Server) : Prop where
  earlier : before.Numbered
  numbered : s.Numbered
  later : before.lastTimer ≤ s.lastTimer
  kept : forall t, t ∈ s.timers -> t ∈ before.timers ->
    (s.Registers t ↔ before.Registers t ∧ t.uri ∉ checked)
  added : forall t, t ∈ s.timers -> t ∉ before.timers ->
    before.lastTimer < t.id ∧ s.Registers t

theorem numbered_initial (env : Environment) : (Server.initial env).Numbered where
  waiting := List.nodup_nil
  bounded _ h := nomatch h
  apart _ _ h := nomatch h

namespace Shifts

variable {before s after : Server} {checked : List Text} {uri : Text}

theorem refl (h : s.Numbered) : s.Shifts [] s where
  earlier := h
  numbered := h
  later := Nat.le_refl _
  kept t _ _ := by
    rw [and_iff_left (List.not_mem_nil)]
  added _ hset hnew := absurd hset hnew

theorem fewer (h : before.Shifts checked s) (hpending : after.pending = s.pending)
    (hset : forall t, t ∈ after.timers -> t ∈ s.timers) (hlast : after.lastTimer = s.lastTimer) :
    before.Shifts checked after := by
  have hsame (t : Timer) : after.Registers t ↔ s.Registers t := by
    unfold Registers
    rw [hpending]
  constructor
  · exact h.earlier
  · constructor
    · exact hpending ▸ h.numbered.waiting
    · exact fun t ht => hlast ▸ h.numbered.bounded t (hset t ht)
    · exact fun t u ht hu => h.numbered.apart t u (hset t ht) (hset u hu)
  · exact hlast ▸ h.later
  · intro t ht hold
    rw [hsame]
    exact h.kept t (hset t ht) hold
  · intro t ht hnew
    rw [hsame]
    exact h.added t (hset t ht) hnew

theorem quiet (h : before.Shifts checked s) (huri : s.pending.get? uri = none) :
    before.Shifts (checked ++ [uri]) s := by
  refine { h with kept := fun t ht hold => ?_ }
  rw [h.kept t ht hold, List.mem_append, not_or, List.mem_singleton]
  constructor
  · intro hkept
    refine ⟨hkept.1, hkept.2, fun heq => ?_⟩
    have hregistered := (h.kept t ht hold).mpr hkept
    rw [Registers, heq, huri] at hregistered
    cases hregistered
  · exact fun hkept => ⟨hkept.1, hkept.2.1⟩

theorem unwait (h : before.Shifts checked s) (hold : forall t, t ∈ s.timers -> t ∈ before.timers) :
    before.Shifts (checked ++ [uri]) { s with pending := s.pending.erase uri } := by
  constructor
  · exact h.earlier
  · exact ⟨Keyed.keys_erase_nodup h.numbered.waiting, h.numbered.bounded, h.numbered.apart⟩
  · exact h.later
  · intro t ht hold
    have hkept := h.kept t ht hold
    unfold Registers at hkept ⊢
    rw [Keyed.get?_erase h.numbered.waiting, List.mem_append, not_or, List.mem_singleton]
    split
    · next heq =>
        exact iff_of_false nofun fun hgone => hgone.2.2 heq.symm
    · next hne =>
        rw [hkept, and_iff_left (Ne.symm hne)]
  · exact fun t ht hnew => absurd (hold t ht) hnew

theorem cancel (h : before.Shifts checked s) {id : Nat} (hid : s.pending.get? uri = some id) :
    before.Shifts checked
      { s with pending := s.pending.erase uri, timers := s.timers.filter (·.id ≠ id) } := by
  -- No timer that stays was registered for the document.
  have hsame (t : Timer) (ht : t ∈ s.timers.filter (·.id ≠ id)) :
      (s.pending.erase uri).get? t.uri = some t.id ↔ s.Registers t := by
    have hother := of_decide_eq_true (List.mem_filter.mp ht).2
    unfold Registers
    rw [Keyed.get?_erase h.numbered.waiting]
    split
    · next heq =>
        rw [← heq, hid]
        exact iff_of_false nofun fun hsame => hother (Option.some.inj hsame).symm
    · exact Iff.rfl
  have hset (t : Timer) (ht : t ∈ s.timers.filter (·.id ≠ id)) : t ∈ s.timers :=
    (List.mem_filter.mp ht).1
  constructor
  · exact h.earlier
  · exact ⟨Keyed.keys_erase_nodup h.numbered.waiting,
      fun t ht => h.numbered.bounded t (hset t ht),
      fun t u ht hu => h.numbered.apart t u (hset t ht) (hset u hu)⟩
  · exact h.later
  · exact fun t ht hold => (hsame t ht).trans (h.kept t (hset t ht) hold)
  · intro t ht hnew
    have hadded := h.added t (hset t ht) hnew
    exact ⟨hadded.1, (hsame t ht).mpr hadded.2⟩

theorem await (h : before.Shifts checked s) (huri : s.pending.get? uri = none) (due : Double) :
    before.Shifts checked
      { s with
        lastTimer := s.lastTimer + 1
        pending := s.pending.put uri (s.lastTimer + 1)
        timers := s.timers ++ [⟨s.lastTimer + 1, uri, due⟩] } := by
  have hsame (t : Timer) (ht : t ∈ s.timers) :
      (s.pending.put uri (s.lastTimer + 1)).get? t.uri = some t.id ↔ s.Registers t := by
    have hbound := h.numbered.bounded t ht
    unfold Registers
    rw [Keyed.get?_put]
    split
    · next heq =>
        rw [← heq, huri]
        refine iff_of_false (fun hid => ?_) nofun
        have hid := Option.some.inj hid
        omega
    · exact Iff.rfl
  have hnumber (t : Timer) (ht : t ∈ s.timers ++ [⟨s.lastTimer + 1, uri, due⟩]) :
      t ∈ s.timers ∨ t = ⟨s.lastTimer + 1, uri, due⟩ :=
    (List.mem_append.mp ht).imp_right List.mem_singleton.mp
  constructor
  · exact h.earlier
  · constructor
    · exact Keyed.keys_put_nodup h.numbered.waiting
    · intro t ht
      rcases hnumber t ht with ht | rfl
      · exact Nat.le_succ_of_le (h.numbered.bounded t ht)
      · exact Nat.le_refl _
    · intro t u ht hu hid
      rcases hnumber t ht with ht | rfl <;> rcases hnumber u hu with hu | rfl
      · exact h.numbered.apart t u ht hu hid
      · exact absurd (h.numbered.bounded t ht) (by simp only at hid; omega)
      · exact absurd (h.numbered.bounded u hu) (by simp only at hid; omega)
      · rfl
  · exact Nat.le_succ_of_le h.later
  · intro t ht hold
    rcases hnumber t ht with ht | rfl
    · exact (hsame t ht).trans (h.kept t ht hold)
    · have hbound := h.earlier.bounded _ hold
      have hlater := h.later
      simp only at hbound
      omega
  · intro t ht hnew
    rcases hnumber t ht with ht | rfl
    · have hadded := h.added t ht hnew
      exact ⟨hadded.1, (hsame t ht).mpr hadded.2⟩
    · refine ⟨Nat.lt_succ_of_le h.later, ?_⟩
      rw [Registers, Keyed.get?_put, if_pos rfl]

theorem silence (h : before.Shifts [] s) (checked : List Text) :
    before.Shifts checked
      { s with
        pending := []
        timers := s.timers.filter fun t => !(s.pending.map Prod.snd).contains t.id } := by
  have hfree (t : Timer)
      (ht : t ∈ s.timers.filter fun t => !(s.pending.map Prod.snd).contains t.id) :
      t ∈ s.timers ∧ ¬ s.Registers t := by
    rcases List.mem_filter.mp ht with ⟨hset, hid⟩
    refine ⟨hset, fun hregistered => ?_⟩
    have hmem : t.id ∈ s.pending.map Prod.snd :=
      List.mem_map.mpr ⟨_, Keyed.mem_of_get? hregistered, rfl⟩
    rw [List.contains_iff_mem.mpr hmem] at hid
    cases hid
  constructor
  · exact h.earlier
  · exact ⟨List.nodup_nil, fun t ht => h.numbered.bounded t (hfree t ht).1,
      fun t u ht hu => h.numbered.apart t u (hfree t ht).1 (hfree u hu).1⟩
  · exact h.later
  · intro t ht hold
    rcases hfree t ht with ⟨hset, hregistered⟩
    refine iff_of_false nofun fun hkept => hregistered ?_
    exact (h.kept t hset hold).mpr ⟨hkept.1, List.not_mem_nil⟩
  · intro t ht hnew
    rcases hfree t ht with ⟨hset, hregistered⟩
    exact absurd (h.added t hset hnew).2 hregistered

end Shifts
end Server

/-!
# Direct checks
-/

namespace Message

def checked : Message -> List Text
  | .opened uri _ _ => if ("file://".toList).isPrefixOf uri then [uri] else []
  | _ => []

def TakesBack (uri : Text) : Message -> Prop
  | .closed other => other = uri
  | .shutdown => True
  | _ => False

end Message

def Deferred.checked (c : Conditions) (s : Server) : Deferred -> List Text
  | .introduce params =>
    match s.workspace.session with
    | none => []
    | some session =>
      if (session.introduce c.reply params).1.isOk then s.workspace.store.openUris else []
  | .publish .. => []

section

variable [ScriptParser]

namespace ServerAction

variable {c : Conditions} {before : Server} {checked : List Text}

abbrev Shifted (before : Server) (checked : List Text) (s : ServerState) : Prop :=
  before.Shifts checked s.server

/-- Documents were checked directly, and no timer was set since. -/
structure Checked (before : Server) (checked : List Text) (s : ServerState) : Prop where
  shifted : Shifted before checked s
  old : forall t, t ∈ s.server.timers -> t ∈ before.timers

omit [ScriptParser] in
theorem shifted_stable (brings : Prop) (before : Server) (checked : List Text) :
    Stable brings (Shifted before checked) := by
  intro s after hmove hs
  cases hmove with
  | service =>
      exact hs.fewer rfl (fun _ ht => ht) rfl
  | publish =>
      exact hs
  | beside hbeside =>
      exact hs.fewer hbeside.pending (fun _ ht => hbeside.timers ▸ ht) hbeside.lastTimer

omit [ScriptParser] in
theorem checked_stable (brings : Prop) (before : Server) (checked : List Text) :
    Stable brings (Checked before checked) := by
  intro s after hmove hs
  refine ⟨shifted_stable brings before checked s after hmove hs.shifted, ?_⟩
  cases hmove with
  | service | publish =>
      exact hs.old
  | beside hbeside =>
      rw [hbeside.timers]
      exact hs.old

theorem checks_validate (uri : Text) :
    Ends c (Checked before checked) (validate uri) (Checked before (checked ++ [uri])) :=
  (ends_validate (checked_stable False before _) uri).weaken fun _ hs =>
    ⟨hs.shifted.unwait hs.old, hs.old⟩

omit [ScriptParser] in
theorem quiets_cancelTimer (uri : Text) :
    Ends c (Shifted before checked) (cancelTimer uri)
      (fun s => Shifted before checked s ∧ s.server.pending.get? uri = none) := by
  refine Meets.modify fun s hs => ?_
  simp only
  split
  · next hnone =>
      exact ⟨hs, hnone⟩
  · next id hid =>
      refine ⟨hs.cancel hid, ?_⟩
      rw [Keyed.get?_erase hs.numbered.waiting, if_pos rfl]

theorem keeps_shifted_schedule (uri : Text) :
    Keeps c (Shifted before checked) (schedule uri) := by
  have hvalidate : Leads c
      (fun s => Shifted before checked s ∧ s.server.pending.get? uri = none) (validate uri)
      (Shifted before checked) := by
    refine Ends.keeps ((ends_validate (shifted_stable False before checked) uri).weaken
      fun s hs => ?_)
    simp only [Keyed.erase_of_get?_none hs.2]
    exact hs.1
  refine Meets.bind (quiets_cancelTimer uri).meets fun _ => ?_
  refine Meets.bind (Q := fun _ s => Shifted before checked s ∧ s.server.pending.get? uri = none)
    (fun _ hs => hs) fun server => ?_
  refine Meets.bind (Q := fun _ s => Shifted before checked s ∧ s.server.pending.get? uri = none)
    (Meets.read fun _ hs => hs) fun met => ?_
  split
  · exact hvalidate
  · split
    · exact hvalidate
    · exact Meets.modify fun s hs => hs.1.await hs.2 _

theorem keeps_shifted_scheduleAll (uris : List Text) :
    Keeps c (Shifted before checked) (uris.forM schedule) :=
  Meets.forM (I := fun _ => Shifted before checked)
    (fun uri _ => keeps_shifted_schedule uri) uris

omit [ScriptParser] in
theorem keeps_shifted_setStore (store : Store) :
    Keeps c (Shifted before checked) (setStore store) :=
  Meets.modify fun _ hs => hs.fewer rfl (fun _ ht => ht) rfl

/-!
# Messages
-/

theorem shifts_opened (uri text : Text) (version : Int) :
    Leads c (Checked before []) (opened uri text version)
      (Shifted before (Message.opened uri text version).checked) := by
  rw [Message.checked]
  unfold opened
  split
  · refine Meets.bind (Q := fun _ => Checked before []) (fun _ hs => hs) fun found => ?_
    refine Meets.bind (Q := fun _ => Checked before []) ?_ fun _ => ?_
    · exact Meets.modify fun _ hs => ⟨hs.shifted.fewer rfl (fun _ ht => ht) rfl, hs.old⟩
    refine Meets.bind (Q := fun _ => Shifted before [uri]) ?_ fun _ =>
      keeps_shifted_scheduleAll _
    exact (checks_validate uri).mono (fun _ hs => hs) (fun _ _ hs => hs.shifted)
      (fun _ hfalse => hfalse.elim)
  · exact Meets.pure fun _ hs => hs.shifted

theorem keeps_shifted_changed (uri : Text) (texts : List Text) (version : Int) :
    Keeps c (Shifted before checked) (changed uri texts version) := by
  refine Meets.bind keeps_store fun found => ?_
  split
  · exact Keeps.pure c _ _
  · split
    · refine Meets.bind (keeps_shifted_setStore _) fun _ => ?_
      exact keeps_scheduleOpen keeps_shifted_schedule _
    · exact Keeps.pure c _ _

/-- Once its timer is taken back, a document that is closed may count as checked. -/
theorem shifts_closed (uri : Text) {after : List Text}
    (h : forall s, Shifted before checked s -> s.server.pending.get? uri = none ->
      Shifted before after s) :
    Leads c (Shifted before checked) (closed uri) (Shifted before after) := by
  have hrest (dependents : List Text) : Keeps c (Shifted before after)
      (publish ⟨uri, [], none⟩ >>= fun _ => dependents.forM schedule) :=
    Meets.bind (Meets.modify fun _ hs => hs) fun _ => keeps_shifted_scheduleAll dependents
  refine Meets.bind (Q := fun _ => Shifted before after) ?_ fun _ => ?_
  · exact (quiets_cancelTimer uri).mono (fun _ hs => hs) (fun _ s hs => h s hs.1 hs.2)
      (fun _ hfalse => hfalse.elim)
  refine Meets.bind keeps_store fun found => ?_
  refine Meets.bind (keeps_shifted_setStore _) fun _ => ?_
  refine Meets.bind (Q := fun _ => Shifted before after)
    (Meets.modify fun _ hs => hs.fewer rfl (fun _ ht => ht) rfl) fun _ => ?_
  refine Meets.bind keeps_session? fun session => ?_
  cases session with
  | none =>
      exact hrest _
  | some session =>
      refine Meets.bind (Q := fun _ => Shifted before after) ?_ fun _ => hrest _
      intro s hs
      rw [outcome_ofService]
      exact hs.fewer rfl (fun _ ht => ht) rfl

theorem keeps_shifted_filesChanged (uris : List Text) :
    Keeps c (Shifted before checked) (filesChanged uris) := by
  refine Meets.forM (I := fun _ => Shifted before checked) (fun uri _ => ?_) uris
  refine Meets.bind keeps_store fun found => ?_
  exact Meets.bind (keeps_shifted_setStore _) fun _ => keeps_shifted_scheduleAll _

omit [ScriptParser] in
theorem shifts_shutdown (after : List Text) :
    Leads c (Shifted before []) shutdown (Shifted before after) := by
  refine Meets.bind (Q := fun _ => Shifted before after)
    (Meets.modify fun _ hs => hs.silence after) fun _ => ?_
  refine Meets.bind keeps_session? fun session => ?_
  split
  · exact Keeps.pure c _ _
  · exact Meets.modify fun _ hs => hs.fewer rfl (fun _ ht => ht) rfl

theorem shifts_handle (m : Message) :
    Leads c (Checked before []) (handle m) (Shifted before m.checked) := by
  have hdone {P R : ServerState -> Prop} {action : ServerAction Unit}
      (haction : Leads c P action R) : Leads c P (action >>= fun _ => pure Json.null) R :=
    Meets.bind haction fun _ => Keeps.pure c R _
  cases m with
  | opened uri text version =>
      exact hdone (shifts_opened uri text version)
  | changed uri texts version =>
      exact (hdone (keeps_shifted_changed uri texts version)).weaken fun _ hs => hs.shifted
  | closed uri =>
      exact (hdone (shifts_closed uri fun _ hs _ => hs)).weaken fun _ hs => hs.shifted
  | filesChanged uris =>
      exact (hdone (keeps_shifted_filesChanged uris)).weaken fun _ hs => hs.shifted
  | shutdown =>
      exact (hdone (shifts_shutdown [])).weaken fun _ hs => hs.shifted
  | _ =>
      exact (keeps_handle (shifted_stable True before []) rfl rfl).weaken fun _ hs => hs.shifted

/-- A message that takes back the timer of a document may count as checking it. -/
theorem shifts_takenBack {m : Message} {uri : Text} (h : m.TakesBack uri) :
    Leads c (Checked before []) (handle m) (Shifted before [uri]) := by
  cases m with
  | closed other =>
      cases h
      refine Meets.weaken ?_ fun s (hs : Checked before [] s) => hs.shifted
      exact Meets.bind (shifts_closed uri fun _ hs huri => hs.quiet huri) fun _ =>
        Keeps.pure c _ _
  | shutdown =>
      refine Meets.weaken ?_ fun s (hs : Checked before [] s) => hs.shifted
      exact Meets.bind (shifts_shutdown [uri]) fun _ => Keeps.pure c _ _
  | _ =>
      exact h.elim

/-!
# The end of a step
-/

/-- Checking some documents one after the other: those before the rest are checked. -/
theorem checks_each (uris : List Text) :
    Ends c (Checked before []) (do for uri in uris do validate uri) (Shifted before uris) := by
  refine Meets.bind (Q := fun _ => Shifted before uris) ?_ fun _ => Meets.pure fun _ hs => hs
  refine (Meets.forIn (I := fun rest s => exists done, done ++ rest = uris ∧ Checked before done s)
    (fun uri rest => ?_) uris).mono (fun s hs => ⟨[], rfl, hs⟩) ?_ (fun _ hfalse => hfalse)
  · rintro s ⟨done, hdone, hs⟩
    refine Meets.bind (checks_validate uri) (fun _ => Meets.pure fun s hs => ?_) s hs
    exact ⟨rfl, done ++ [uri], by rw [List.append_assoc]; exact hdone, hs⟩
  · rintro _ s ⟨done, rfl, hs⟩
    rw [List.append_nil]
    exact hs.shifted

omit [ScriptParser] in
theorem outcome_ask {α : Type} {absent : α}
    {question : List (String × Json) -> Session -> Except Fault α × Sessioned}
    {met : Surroundings} {s : ServiceState} {session : Session}
    (hsession : s.workspace.session = some session) :
    outcome (Service.ask absent question) met s =
      ((question met.reply session).1, s.andStep (question met.reply session).2) := by
  have hfound : outcome Service.session? met s = (.ok (some session), s) := by
    rw [← hsession]
    rfl
  have hmet : outcome (MonadReader.read : Service Surroundings) met s = (.ok met, s) := rfl
  unfold Service.ask
  rw [outcome_bind, hfound]
  simp only
  rw [outcome_bind, hmet]
  simp only
  rw [outcome_bind]
  cases (question met.reply session).1 with
  | ok value =>
      rfl
  | error f =>
      rfl

/-- The server was introduced to the engine, or it was not, and nothing else has happened. -/
structure Introduced (c : Conditions) (s : Server) (session : Session) (params : Json)
    (begun : Bool) (state : ServerState) : Prop where
  checked : Checked s [] state
  store : s.workspace.store = state.server.workspace.store
  begun : begun = (session.introduce c.reply params).1.isOk

omit [ScriptParser] in
theorem meets_introduction {s : Server} {session : Session} {E : ServerState -> Prop}
    (hsession : s.workspace.session = some session) (n : Notice) (params : Json) :
    Meets c (fun state => Checked s [] state ∧ state.server.workspace = s.workspace)
      (orReport n false do
        let _ ← ofService (Service.ask .null fun reply => Session.introduce reply params)
        return true)
      (Introduced c s session params) E := by
  have hasked : Meets c (fun state => Checked s [] state ∧ state.server.workspace = s.workspace)
      (ofService (Service.ask .null fun reply => Session.introduce reply params))
      (fun _ => Introduced c s session params true) (Introduced c s session params false) := by
    rintro state ⟨hs, hworkspace⟩
    have hfound : state.service.workspace.session = some session := by
      rw [← hsession, ← hworkspace]
      rfl
    have hafter : Checked s [] (state.withService
        (state.service.andStep (session.introduce c.reply params).2)) :=
      ⟨hs.shifted.fewer rfl (fun _ ht => ht) rfl, hs.old⟩
    have hstore : s.workspace.store = state.server.workspace.store := by
      rw [hworkspace]
    rw [outcome_ofService, outcome_ask hfound]
    cases hanswer : (session.introduce c.reply params).1 with
    | ok value =>
        exact ⟨hafter, hstore, by rw [hanswer]; rfl⟩
    | error f =>
        exact ⟨hafter, hstore, by rw [hanswer]; rfl⟩
  refine Meets.tryCatch (Meets.bind hasked fun _ => Meets.pure fun _ hs => hs) fun _ => ?_
  refine Meets.bind (Q := fun _ => Introduced c s session params false) ?_ fun _ =>
    Meets.pure fun _ hs => hs
  refine Meets.modify fun state hs => ⟨?_, hs.store, hs.begun⟩
  exact checked_stable False s [] state _ (.service (.report state.service _)) hs.checked

theorem shifts_introduce {s : Server} (params : Json) :
    Leads c (fun state => Checked s [] state ∧ state.server.workspace = s.workspace)
      (introduce params) (Shifted s (Deferred.checked c s (.introduce params))) := by
  refine Meets.bind (Q := fun _ state => Checked s [] state ∧
    state.server.workspace = s.workspace) (Meets.modify fun _ hs => ?_) fun _ => ?_
  · exact ⟨⟨hs.1.shifted.fewer rfl (fun _ ht => ht) rfl, hs.1.old⟩, hs.2⟩
  refine Meets.bind (Q := fun found state => (Checked s [] state ∧
    state.server.workspace = s.workspace) ∧ s.workspace.session = found)
    (fun state hs => ⟨hs, congrArg Workspace.session hs.2.symm⟩) fun found => ?_
  cases found with
  | none =>
      refine Meets.pure fun state hs => ?_
      rw [Deferred.checked, hs.2]
      exact hs.1.1.shifted
  | some session =>
      rintro state ⟨hs, hsession⟩
      have hchecked : Deferred.checked c s (.introduce params) =
          if (session.introduce c.reply params).1.isOk then s.workspace.store.openUris else [] := by
        rw [Deferred.checked, hsession]
      rw [hchecked]
      refine Meets.bind (meets_introduction hsession _ params) (fun begun => ?_) state hs
      cases begun with
      | false =>
          refine Meets.pure fun state hs => ?_
          rw [← hs.begun]
          exact hs.checked.shifted
      | true =>
          refine Meets.bind (Q := fun found state =>
            Introduced c s session params true state ∧ s.workspace.store = found)
            (fun state hs => ⟨hs, hs.store⟩) fun found => ?_
          rintro state ⟨hs, rfl⟩
          rw [← hs.begun]
          exact (checks_each _).meets state hs.checked

theorem shifts_runDeferred {s : Server} (d : Deferred) :
    Leads c (fun state => Checked s [] state ∧ state.server.workspace = s.workspace)
      (runDeferred d) (Shifted s (d.checked c s)) := by
  cases d with
  | introduce params =>
      exact shifts_introduce params
  | publish fileName findings =>
      exact (keeps_publishFindings (shifted_stable False s []) fileName findings).weaken
        fun _ hs => hs.1.shifted

theorem shifts_fire (t : Timer) :
    Leads c (Checked before []) (fire t) (Shifted before [t.uri]) := by
  refine Meets.bind (Q := fun _ => Checked before []) (Meets.modify fun s hs => ?_) fun _ => ?_
  · have hset (u : Timer) (hu : u ∈ s.server.timers.filter (·.id ≠ t.id)) :
        u ∈ s.server.timers := (List.mem_filter.mp hu).1
    exact ⟨hs.shifted.fewer rfl hset rfl, fun u hu => hs.old u (hset u hu)⟩
  · exact (checks_validate t.uri).mono (fun _ hs => hs) (fun _ _ hs => hs.shifted)
      (fun _ hfalse => hfalse.elim)

end ServerAction

/-!
# Runs
-/

namespace Server

def Event.isPart : Event -> Bool
  | .step _ => false
  | .message _ | .deferred _ | .timer _ => true

def Event.checked (c : Conditions) (s : Server) : Event -> List Text
  | .step _ => []
  | .message m => m.checked
  | .deferred d => d.checked c s
  | .timer t => [t.uri]

variable {c : Conditions} {s : Server} {t : Timer}

omit [ScriptParser] in
theorem checked_begin (hs : s.Numbered) : ServerAction.Checked s [] ⟨s, {}, []⟩ :=
  ⟨Shifts.refl hs, fun _ ht => ht⟩

theorem Event.shifts (hs : s.Numbered) {event : Event} (hpart : event.isPart = true) :
    s.Shifts (event.checked c s) (event.outcome c s).1 := by
  have hbegin := checked_begin hs
  cases event with
  | step m =>
      cases hpart
  | message m =>
      exact (ServerAction.shifts_handle m).leaves hbegin
  | deferred d =>
      exact (ServerAction.shifts_runDeferred d).leaves ⟨hbegin, rfl⟩
  | timer t =>
      exact (ServerAction.shifts_fire t).leaves hbegin

def Unchecked (t : Timer) : Server -> List Occurrence -> Prop
  | _, [] => True
  | s, o :: rest =>
    (t ∈ s.timers -> t.uri ∉ o.event.checked o.conditions s) ∧
      Unchecked t (o.event.outcome o.conditions s).1 rest

/-- What a run does to timers: a timer is registered until an event checks its document. -/
structure Passed (s : Server) (run : List Occurrence) : Prop where
  numbered : (s.after run).Numbered
  kept : forall t, t ∈ (s.after run).timers -> t ∈ s.timers ->
    ((s.after run).Registers t ↔ s.Registers t ∧ Unchecked t s run)
  added : forall t, t ∈ (s.after run).timers -> t ∉ s.timers ->
    s.lastTimer < t.id ∧ ((s.after run).Registers t ↔ Unchecked t s run)

/-- A timer that was set before some event, and is set at the end, is set after the event. -/
theorem Passed.still {after : Server} {rest : List Occurrence} {checked : List Text}
    (hrest : after.Passed rest) (hstep : s.Shifts checked after)
    (ht : t ∈ (after.after rest).timers) (hset : t ∈ s.timers) : t ∈ after.timers := by
  refine Classical.byContradiction fun hgone => ?_
  -- A timer that is set later has a new number.
  have hnumber := (hrest.added t ht hgone).1
  have hbound := hstep.earlier.bounded t hset
  have hlater := hstep.later
  omega

theorem passed (hs : s.Numbered) {run : List Occurrence}
    (hparts : forall o, o ∈ run -> o.event.isPart = true) : s.Passed run := by
  induction run generalizing s with
  | nil =>
      exact ⟨hs, fun t _ _ => (and_iff_left trivial).symm, fun t ht hnew => absurd ht hnew⟩
  | cons o rest ih =>
      have hstep := Event.shifts (c := o.conditions) hs (hparts o List.mem_cons_self)
      have hrest := ih hstep.numbered fun u hu => hparts u (List.mem_cons_of_mem o hu)
      constructor
      · exact hrest.numbered
      · intro t ht hset
        have hstill := hrest.still hstep ht hset
        refine (hrest.kept t ht hstill).trans ?_
        rw [hstep.kept t hstill hset, Unchecked, and_assoc, forall_prop_of_true hset]
      · intro t ht hnew
        rw [Unchecked, forall_prop_of_false hnew, true_and]
        by_cases hset : t ∈ (o.event.outcome o.conditions s).1.timers
        · have hadded := hstep.added t hset hnew
          refine ⟨hadded.1, (hrest.kept t ht hset).trans ?_⟩
          rw [and_iff_right hadded.2]
        · have hadded := hrest.added t ht hset
          exact ⟨Nat.lt_of_le_of_lt hstep.later hadded.1, hadded.2⟩

theorem after_append (s : Server) (run more : List Occurrence) :
    s.after (run ++ more) = (s.after run).after more := by
  unfold after
  rw [List.foldl_append]

/-- A timer that is set is registered, or its document was checked while it was set. -/
theorem registered_iff (env : Environment) {run : List Occurrence}
    (hparts : forall o, o ∈ run -> o.event.isPart = true)
    (ht : t ∈ ((Server.initial env).after run).timers) :
    ((Server.initial env).after run).Registers t ↔ Unchecked t (Server.initial env) run :=
  ((passed (numbered_initial env) hparts).added t ht fun hset => nomatch hset).2

/-- Of a document that is closed, only timers stay that it does not wait for. -/
theorem unregistered_of_takenBack (hs : s.Numbered) {c : Conditions} {m : Message}
    {rest : List Occurrence} (hparts : forall o, o ∈ rest -> o.event.isPart = true)
    (hback : m.TakesBack t.uri) (hset : t ∈ s.timers)
    (ht : t ∈ (s.after (⟨c, .message m⟩ :: rest)).timers) : ¬ s.Registers t := by
  have hbegin := checked_begin hs
  have hshifts : s.Shifts m.checked ((Event.message m).outcome c s).1 :=
    (ServerAction.shifts_handle m).leaves hbegin
  have hback' : s.Shifts [t.uri] ((Event.message m).outcome c s).1 :=
    (ServerAction.shifts_takenBack hback).leaves hbegin
  have hstill := (passed hshifts.numbered hparts).still hshifts ht hset
  have hchecked : m.checked = [] := by
    cases m with
    | opened =>
        exact hback.elim
    | _ =>
        rfl
  intro hregistered
  -- The timer would be registered after the message, and not be.
  have hkept := (hshifts.kept t hstill hset).mpr ⟨hregistered, hchecked ▸ List.not_mem_nil⟩
  exact ((hback'.kept t hstill hset).mp hkept).2 List.mem_cons_self

/--
In every run, a timer that is set is the one that its document waits for exactly if no event
checked the document directly while the timer was set.  Of such timers a document has one at
most, and none of them is left when the document is closed or the server is shut down.
-/
theorem registered_iff_unchecked (env : Environment) {run : List Occurrence}
    (hparts : forall o, o ∈ run -> o.event.isPart = true) :
    (forall t, t ∈ ((Server.initial env).after run).timers ->
      (((Server.initial env).after run).Registers t ↔ Unchecked t (Server.initial env) run)) ∧
    (forall t u, t ∈ ((Server.initial env).after run).timers ->
      u ∈ ((Server.initial env).after run).timers -> t.uri = u.uri ->
      Unchecked t (Server.initial env) run -> Unchecked u (Server.initial env) run -> t = u) ∧
    forall before c m rest t, run = before ++ ⟨c, .message m⟩ :: rest -> m.TakesBack t.uri ->
      t ∈ ((Server.initial env).after before).timers ->
      t ∈ ((Server.initial env).after run).timers ->
      ¬ Unchecked t (Server.initial env) before := by
  refine ⟨fun t ht => registered_iff env hparts ht, fun t u ht hu huri htime hutime => ?_, ?_⟩
  · have htid := (registered_iff env hparts ht).mpr htime
    have huid := (registered_iff env hparts hu).mpr hutime
    rw [Registers, huri, huid] at htid
    have hnumbered := (passed (numbered_initial env) hparts).numbered
    exact hnumbered.apart t u ht hu (Option.some.inj htid).symm
  · rintro before c m rest t rfl hback hset ht
    have hbefore o (ho : o ∈ before) : o.event.isPart = true :=
      hparts o (List.mem_append_left _ ho)
    have hrest o (ho : o ∈ rest) : o.event.isPart = true :=
      hparts o (List.mem_append_right _ (List.mem_cons_of_mem _ ho))
    rw [after_append] at ht
    rw [← registered_iff env hbefore hset]
    exact unregistered_of_takenBack (passed (numbered_initial env) hbefore).numbered hrest hback
      hset ht

end Server

end

namespace Server

/-- The changed document waits for its timer, and was not checked since it was set. -/
theorem registered_iff_unchecked_drafting :
    (forall o, o ∈ drafting -> o.event.isPart = true) ∧
      draftTimer ∈ ((Server.initial {}).after drafting).timers ∧
      ((Server.initial {}).after drafting).Registers draftTimer ∧
      Unchecked draftTimer (Server.initial {}) drafting := by
  have hparts : forall o, o ∈ drafting -> o.event.isPart = true := by
    decide +kernel
  have hfacts : draftTimer ∈ ((Server.initial {}).after drafting).timers ∧
      ((Server.initial {}).after drafting).Registers draftTimer := by
    decide +kernel
  exact ⟨hparts, hfacts.1, hfacts.2,
    ((registered_iff_unchecked {} hparts).1 draftTimer hfacts.1).mp hfacts.2⟩

def shelfUri : Text :=
  "file:///A.vue".toList

def boxUri : Text :=
  "file:///B.vue".toList

def holderText (other : String) : Text :=
  ("<template></template><script>import " ++ other ++ " from './" ++ other ++ ".vue';" ++
    "@Component(\x7bcomponents:\x7b" ++ other ++ "\x7d\x7d)" ++
    "export default class A \x7b\x7d</script>").toList

def shelfConditions : Conditions where
  files uri := if uri = boxUri then .text (holderText "C") else .missing
  now := some .zero

/-- A component is read from its file, and then one that it registers changes. -/
def shelving : List Occurrence :=
  [.opened shelfUri (holderText "B") 1, .complete shelfUri ⟨0, 10⟩ .null,
    .filesChanged ["file:///C.vue".toList]].map fun m => ⟨shelfConditions, .message m⟩

def unshelving : List Occurrence :=
  shelving ++ [.opened boxUri [] 1, .closed boxUri].map fun m => ⟨shelfConditions, .message m⟩

def boxTimer : Timer :=
  ⟨1, boxUri, Double.zero.add Settings.defaultDelay⟩

/--
The timer that was set before the component was opened is still set when it is closed, and the
component does not wait for it.
-/
theorem closed_document_has_timer :
    ((Server.initial {}).after unshelving).settings.delay.ble .zero = false ∧
      boxTimer ∈ ((Server.initial {}).after shelving).timers ∧
      boxTimer ∈ ((Server.initial {}).after unshelving).timers ∧
      ¬ ((Server.initial {}).after unshelving).Registers boxTimer := by
  decide +kernel

end Server
end SfcServer
