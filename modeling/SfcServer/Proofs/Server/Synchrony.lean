import SfcServer.Proofs.Server.Runs

/-!
# The engine knows the projections that are in use

A session skips a file whose version it has sent already, and versions count the projections
of an entry of the store.  So the engine is up to date as long as entries and files go
together: the version that it holds is that of a projection of the same entry.  An entry that
is forgotten, while the engine still holds its file, starts to count again when the document
comes back, and then the engine is left with the old text.
-/

namespace SfcServer

open SfcServer.Action

/-!
# Entries and versions
-/

namespace Entry

def Marked (uri : Text) (e : Entry) : Prop :=
  forall p, e.derived.projection = some (some p) -> p.uri = uri ∧ p.version = e.generation

def Follows (e after : Entry) : Prop :=
  e.generation ≤ after.generation ∧ forall p, after.generation = e.generation ->
    after.derived.projection = some (some p) -> e.derived.projection = some (some p)

theorem Grows.marked {uri : Text} {e after : Entry} (h : e.Grows uri after)
    (he : e.Marked uri) : after.Marked uri := by
  rcases h with h | h
  · intro p hp
    rw [h.generation]
    exact he p (h.projection ▸ hp)
  · exact h.marks

theorem Grows.follows {uri : Text} {e after : Entry} (h : e.Grows uri after) :
    e.Follows after := by
  rcases h with h | h
  · exact ⟨Nat.le_of_eq h.generation.symm, fun p _ hp => h.projection ▸ hp⟩
  · have hnext := h.generation
    exact ⟨by omega, fun _ hsame => absurd hsame (by omega)⟩

theorem follows_of_dropped {e after : Entry} (hgeneration : after.generation = e.generation)
    (hdropped : after.derived.projection = none) : e.Follows after := by
  refine ⟨Nat.le_of_eq hgeneration.symm, fun p _ hp => ?_⟩
  rw [hdropped] at hp
  cases hp

theorem marked_of_dropped {uri : Text} {e : Entry} (hdropped : e.derived.projection = none) :
    e.Marked uri := by
  intro p hp
  rw [hdropped] at hp
  cases hp

end Entry

/-!
# Workspaces
-/

namespace Workspace

def holds (w : Workspace) (fileName : Text) : Bool :=
  (w.session.bind fun session => Keyed.get? fileName session.files).isSome

def Distinct (w : Workspace) : Prop :=
  forall uri, uri ∈ w.store.keys -> forall other, other ∈ w.store.keys ->
    fileNameOf uri = fileNameOf other -> uri = other

/-- No document enters the store while the engine holds a file of its name. -/
def Fresh (before after : Workspace) : Prop :=
  after.Distinct ∧ forall uri, uri ∈ after.store.keys ->
    uri ∈ before.store.keys ∨ before.holds (fileNameOf uri) = false

instance (w : Workspace) : Decidable w.Distinct :=
  inferInstanceAs (Decidable (forall uri, uri ∈ w.store.keys -> _))

instance (before after : Workspace) : Decidable (Fresh before after) :=
  inferInstanceAs (Decidable (_ ∧ forall uri, uri ∈ after.store.keys -> _))

structure Orderly (w : Workspace) : Prop where
  stored : w.store.keys.Nodup
  marked : forall uri e, w.store.entryOf? uri = some e -> e.Marked uri
  sound : forall session, w.session = some session -> session.Sound
  filed : forall session, w.session = some session -> session.files.keys.Nodup

/-- The version of a file that the engine holds is not newer than its document; if it is the
latest, the engine was last sent the text of its projection. -/
def UpToDate (w : Workspace) (sent : List Json) : Prop :=
  forall session uri e synced, w.session = some session -> w.store.entryOf? uri = some e ->
    Keyed.get? (fileNameOf uri) session.files = some synced ->
    synced.version ≤ e.generation ∧ forall p, synced.version = e.generation ->
      e.derived.projection = some (some p) -> lastText (fileNameOf uri) sent = some p.text

/-- What holds of the workspace and the messages between two events. -/
structure Settled (sent : List Json) (w : Workspace) : Prop where
  orderly : w.Orderly
  distinct : w.Distinct
  current : w.UpToDate sent

/-- What holds in the middle of an event that takes no document out of the store. -/
structure Adding (before : Workspace) (sent : List Json) (w : Workspace) : Prop where
  orderly : w.Orderly
  stays : forall uri, uri ∈ before.store.keys -> uri ∈ w.store.keys
  owned : forall fileName, w.holds fileName = true -> before.holds fileName = true ∨
    exists uri, uri ∈ w.store.keys ∧ fileNameOf uri = fileName
  current : before.Fresh w -> w.UpToDate sent

variable {w after before : Workspace} {sent more : List Json} {uri : Text}

theorem mem_keys_of_entry {s : Store} {e : Entry} (h : s.entryOf? uri = some e) :
    uri ∈ s.keys :=
  Keyed.mem_keys_iff.mpr (Option.isSome_iff_exists.mpr ⟨e, h⟩)

theorem entry_of_mem_keys {s : Store} (h : uri ∈ s.keys) : exists e, s.entryOf? uri = some e :=
  Option.isSome_iff_exists.mp (Keyed.mem_keys_iff.mp h)

theorem Fresh.of_subset (h : before.Fresh after)
    (hkeys : forall uri, uri ∈ w.store.keys -> uri ∈ after.store.keys) : before.Fresh w :=
  ⟨fun uri huri other hother => h.1 uri (hkeys uri huri) other (hkeys other hother),
    fun uri huri => h.2 uri (hkeys uri huri)⟩

theorem settled_empty : Settled [] ({} : Workspace) where
  orderly := ⟨List.nodup_nil, fun _ _ he => (nomatch he), fun _ hs => (nomatch hs),
    fun _ hs => (nomatch hs)⟩
  distinct _ huri := nomatch huri
  current _ _ _ _ hs := nomatch hs

theorem Settled.adding (h : w.Settled sent) : w.Adding sent w where
  orderly := h.orderly
  stays _ huri := huri
  owned _ hheld := Or.inl hheld
  current _ := h.current

theorem Adding.settled (h : before.Adding sent w) (hfresh : before.Fresh w) : w.Settled sent :=
  ⟨h.orderly, hfresh.1, h.current hfresh⟩

theorem UpToDate.follow {e e' : Entry} {session : Session} {synced : Synced}
    (h : w.UpToDate sent) (hsession : w.session = some session)
    (he : w.store.entryOf? uri = some e)
    (hsynced : Keyed.get? (fileNameOf uri) session.files = some synced) (hfollows : e.Follows e') :
    synced.version ≤ e'.generation ∧ forall p, synced.version = e'.generation ->
      e'.derived.projection = some (some p) -> lastText (fileNameOf uri) sent = some p.text := by
  rcases h session uri e synced hsession he hsynced with ⟨hle, hcurrent⟩
  have hgeneration := hfollows.1
  refine ⟨by omega, fun p hversion hp => ?_⟩
  have hsame : e'.generation = e.generation := by omega
  exact hcurrent p (by omega) (hfollows.2 p hsame hp)

theorem Adding.ofEntries (h : before.Adding sent w) (hsession : after.session = w.session)
    (hstored : after.store.keys.Nodup)
    (hstays : forall uri, uri ∈ w.store.keys -> uri ∈ after.store.keys)
    (hentries : forall uri e', after.store.entryOf? uri = some e' -> e'.Marked uri ∧
      forall e, w.store.entryOf? uri = some e -> e.Follows e') : before.Adding sent after where
  orderly := ⟨hstored, fun uri e' he' => (hentries uri e' he').1, hsession ▸ h.orderly.sound,
    hsession ▸ h.orderly.filed⟩
  stays uri huri := hstays uri (h.stays uri huri)
  owned fileName hheld := by
    rw [holds, hsession] at hheld
    rcases h.owned fileName hheld with hbefore | ⟨uri, huri, hname⟩
    · exact Or.inl hbefore
    · exact Or.inr ⟨uri, hstays uri huri, hname⟩
  current hfresh := by
    have hcurrent := h.current (hfresh.of_subset hstays)
    intro session uri e' synced hs he' hsynced
    rw [hsession] at hs
    by_cases huri : uri ∈ w.store.keys
    · rcases entry_of_mem_keys huri with ⟨e, he⟩
      exact hcurrent.follow hs he hsynced ((hentries uri e' he').2 e he)
    · -- A document that is new has a file that the engine does not hold.
      have hheld : w.holds (fileNameOf uri) = true := by
        rw [holds, hs, Option.bind_some, hsynced]
        rfl
      have hnew := mem_keys_of_entry he'
      rcases h.owned _ hheld with hbefore | ⟨other, hother, hname⟩
      · rcases hfresh.2 uri hnew with hkept | hfree
        · exact absurd (h.stays uri hkept) huri
        · rw [hfree] at hbefore
          cases hbefore
      · have hsame := hfresh.1 other (hstays other hother) uri hnew hname
        exact absurd (hsame ▸ hother) huri

theorem Adding.load {brings : Prop} {store : Store} (h : before.Adding sent w)
    (hextends : w.store.Extends brings store) : before.Adding sent { w with store := store } := by
  refine h.ofEntries rfl (hextends.nodup h.orderly.stored) ?_ ?_
  · intro uri huri
    rcases entry_of_mem_keys huri with ⟨e, he⟩
    rcases hextends.grows uri e he with ⟨e', he', _⟩
    exact mem_keys_of_entry he'
  · intro uri e' he'
    cases he : w.store.entryOf? uri with
    | none =>
        rcases hextends.brought uri e' he he' with ⟨_, text, hgrows⟩
        exact ⟨hgrows.marked (Entry.marked_of_dropped rfl), fun e hsome => nomatch hsome⟩
    | some e =>
        rcases hextends.grows uri e he with ⟨e'', he'', hgrows⟩
        cases he'.symm.trans he''
        refine ⟨hgrows.marked (h.orderly.marked uri e he), fun f hf => ?_⟩
        cases hf
        exact hgrows.follows

theorem entry_changes {brings : Prop} {dropped : List Text} {s store : Store} {e' : Entry}
    (h : s.Changes brings dropped store) (he' : store.entryOf? uri = some e')
    (hmarked : forall e, s.entryOf? uri = some e -> e.Marked uri) :
    e'.Marked uri ∧ forall e, s.entryOf? uri = some e -> e.Follows e' := by
  rcases h.kept uri e' he' with hsame | ⟨_, hdropped, hbefore⟩
  · refine ⟨hmarked e' hsame, fun e he => ?_⟩
    cases he.symm.trans hsame
    exact ⟨Nat.le_refl _, fun _ _ hp => hp⟩
  · refine ⟨Entry.marked_of_dropped hdropped, fun e he => ?_⟩
    rcases hbefore with ⟨f, hf, hgeneration⟩ | ⟨_, hnone⟩
    · cases he.symm.trans hf
      exact Entry.follows_of_dropped hgeneration hdropped
    · cases he.symm.trans hnone

theorem Adding.ofChanges {brings : Prop} {dropped : List Text} {store : Store}
    (h : before.Adding sent w) (hchanges : w.store.Changes brings dropped store)
    (hstays : forall uri, uri ∈ w.store.keys -> uri ∈ store.keys) :
    before.Adding sent { w with store := store } :=
  h.ofEntries rfl hchanges.nodup hstays fun uri _ he' =>
    entry_changes hchanges he' (h.orderly.marked uri)

theorem Settled.ofChanges {dropped : List Text} {store : Store} (h : w.Settled sent)
    (hchanges : w.store.Changes False dropped store) :
    Settled sent { w with store := store } := by
  have hstays : forall uri, uri ∈ store.keys -> uri ∈ w.store.keys := by
    intro uri huri
    rcases entry_of_mem_keys huri with ⟨e', he'⟩
    rcases hchanges.kept uri e' he' with hsame | ⟨_, _, ⟨e, he, _⟩ | ⟨hfalse, _⟩⟩
    · exact mem_keys_of_entry hsame
    · exact mem_keys_of_entry he
    · exact hfalse.elim
  refine ⟨⟨hchanges.nodup, ?_, h.orderly.sound, h.orderly.filed⟩, ?_, ?_⟩
  · intro uri e' he'
    exact (entry_changes hchanges he' (h.orderly.marked uri)).1
  · exact fun uri huri other hother => h.distinct uri (hstays uri huri) other (hstays other hother)
  · intro session uri e' synced hsession he' hsynced
    rcases entry_of_mem_keys (hstays uri (mem_keys_of_entry he')) with ⟨e, he⟩
    exact h.current.follow hsession he hsynced
      ((entry_changes hchanges he' (h.orderly.marked uri)).2 e he)

/-!
# Sessions
-/

theorem Orderly.withSession {session : Session} (h : w.Orderly) (hsound : session.Sound)
    (hfiled : session.files.keys.Nodup) : Orderly { w with session := some session } where
  stored := h.stored
  marked := h.marked
  sound s hs := by
    cases hs
    exact hsound
  filed s hs := by
    cases hs
    exact hfiled

theorem Adding.talk {session : Session} {step : Sessioned} (h : before.Adding sent w)
    (hsession : w.session = some session) (htalks : session.Talks step) :
    before.Adding (sent ++ LinkEvent.sentIn step.events)
      { w with session := some step.session } where
  orderly := h.orderly.withSession (htalks.sound (h.orderly.sound session hsession))
    (htalks.files ▸ h.orderly.filed session hsession)
  stays := h.stays
  owned fileName hheld := by
    rw [holds, Option.bind_some, htalks.files] at hheld
    refine h.owned fileName ?_
    rw [holds, hsession, Option.bind_some]
    exact hheld
  current hfresh := by
    intro s uri e synced hs he hsynced
    cases hs
    rw [htalks.files] at hsynced
    rw [lastText_aside htalks.aside]
    exact h.current hfresh session uri e synced hsession he hsynced

theorem Adding.engage {session : Session} (h : before.Adding sent w) (hfiles : session.files = [])
    (hsound : session.Sound) : before.Adding sent { w with session := some session } where
  orderly := h.orderly.withSession hsound (hfiles ▸ List.nodup_nil)
  stays := h.stays
  owned fileName hheld := by
    rw [holds, Option.bind_some, hfiles] at hheld
    cases hheld
  current _ := by
    intro s uri e synced hs he hsynced
    cases hs
    rw [hfiles] at hsynced
    cases hsynced

theorem Adding.beside (h : before.Adding sent w) (hstore : after.store = w.store)
    (hsession : after.session = w.session ∨
      exists session, after.session = some session ∧ session.files = [] ∧ session.Sound) :
    before.Adding sent after := by
  rcases after with ⟨store, session?⟩
  cases hstore
  rcases hsession with hsame | ⟨session, hsession, hfiles, hsound⟩
  · cases hsame
    exact h
  · cases hsession
    exact h.engage hfiles hsound

theorem Adding.sync {session : Session} {e : Entry} {p : Projection} (h : before.Adding sent w)
    (hsession : w.session = some session) (he : w.store.entryOf? uri = some e)
    (hready : e.derived.projection = some (some p)) :
    before.Adding
      (sent ++ LinkEvent.sentIn (session.sync p.fileName p.version p.text).events)
      { w with session := some (session.sync p.fileName p.version p.text).session } := by
  have hmarks := h.orderly.marked uri e he p hready
  have hname : p.fileName = fileNameOf uri := by
    rw [Projection.fileName, hmarks.1]
  rcases session.sync_cases (h.orderly.sound session hsession) p.fileName p.version p.text with
    ⟨hskipped, _⟩ | ⟨lines, hfiles, hsound, hsent⟩
  · rw [hskipped]
    have hsame : { w with session := some session } = w := by
      rw [← hsession]
    simpa [LinkEvent.sentIn, hsame] using h
  · refine ⟨h.orderly.withSession hsound ?_, h.stays, ?_, ?_⟩
    · rw [hfiles]
      exact Keyed.keys_put_nodup (h.orderly.filed session hsession)
    · intro fileName hheld
      rw [holds, Option.bind_some, hfiles, Keyed.get?_put] at hheld
      split at hheld
      · next heq =>
          exact Or.inr ⟨uri, mem_keys_of_entry he, hname ▸ heq⟩
      · refine h.owned fileName ?_
        rw [holds, hsession, Option.bind_some]
        exact hheld
    · intro hfresh s other e' synced hs he' hsynced
      cases hs
      rw [hfiles, Keyed.get?_put] at hsynced
      rw [lastText_append, hsent]
      split at hsynced
      · next heq =>
          -- Only one document has this file name.
          have hother : other = uri :=
            hfresh.1 other (mem_keys_of_entry he') uri (mem_keys_of_entry he)
              (heq.symm.trans hname)
          subst hother
          cases he.symm.trans he'
          cases hsynced
          refine ⟨Int.le_of_eq (by rw [hmarks.2]), fun q _ hq => ?_⟩
          rw [hready] at hq
          cases hq
          rw [if_pos heq]
      · next hne =>
          rw [if_neg hne]
          exact h.current hfresh session other e' synced hsession he' hsynced

theorem Settled.close {session : Session} (h : w.Settled sent)
    (hsession : w.session = some session) (fileName : Text) :
    Settled (sent ++ LinkEvent.sentIn (session.close fileName).events)
      { w with session := some (session.close fileName).session } := by
  have hfiled := h.orderly.filed session hsession
  rcases session.close_spec (h.orderly.sound session hsession) fileName with
    ⟨hfiles, hsound, hsent⟩
  refine ⟨h.orderly.withSession hsound (hfiles ▸ Keyed.keys_erase_nodup hfiled), h.distinct, ?_⟩
  intro s uri e synced hs he hsynced
  cases hs
  rw [hfiles, Keyed.get?_erase hfiled] at hsynced
  split at hsynced
  · cases hsynced
  · next hne =>
      rw [lastText_append, hsent _ _ hne]
      exact h.current session uri e synced hsession he hsynced

end Workspace

/-!
# Actions
-/

section

variable [ScriptParser]

namespace ServerAction

variable {c : Conditions} {brings : Prop} {before : Workspace} {sent : List Json}

abbrev Adds (before : Workspace) (sent : List Json) (s : ServerState) : Prop :=
  before.Adding (sent ++ s.trace.sent) s.server.workspace

abbrev Settles (sent : List Json) (s : ServerState) : Prop :=
  s.server.workspace.Settled (sent ++ s.trace.sent)

omit [ScriptParser] in
theorem adds_stable (brings : Prop) (before : Workspace) (sent : List Json) :
    Stable brings (Adds before sent) := by
  intro s after hmove hs
  cases hmove with
  | service hmove =>
      cases hmove with
      | report =>
          exact hs
      | load hextends =>
          exact hs.load hextends
      | talk hsession htalks =>
          have htold := hs.talk hsession htalks
          rw [List.append_assoc] at htold
          exact htold
      | sync hsession he hready =>
          have hsent := hs.sync hsession he hready
          rw [List.append_assoc] at hsent
          exact hsent
  | publish =>
      exact hs
  | beside hbeside =>
      exact hs.beside hbeside.store hbeside.session

omit [ScriptParser] in
theorem adds_timeless (before : Workspace) (sent : List Json) : Timeless (Adds before sent) := by
  intro s after hworkspace hs
  rw [Adds, hworkspace]
  exact hs

omit [ScriptParser] in
theorem settles_stable (sent : List Json) : Stable False (Settles sent) := by
  intro s after hmove hs
  have hkeys : forall uri, uri ∈ after.server.workspace.store.keys ->
      uri ∈ s.server.workspace.store.keys := by
    intro uri huri
    cases hmove with
    | service hmove =>
        cases hmove with
        | report | talk | sync =>
            exact huri
        | load hextends =>
            rcases Workspace.entry_of_mem_keys huri with ⟨e', he'⟩
            cases he : s.server.workspace.store.entryOf? uri with
            | none =>
                exact (hextends.brought uri e' he he').1.elim
            | some e =>
                exact Workspace.mem_keys_of_entry he
    | publish =>
        exact huri
    | beside hbeside =>
        exact hbeside.store ▸ huri
  have hadds : Adds s.server.workspace sent after :=
    adds_stable False s.server.workspace sent s after hmove hs.adding
  exact hadds.settled ⟨fun uri huri other hother =>
    hs.distinct uri (hkeys uri huri) other (hkeys other hother), fun uri huri =>
    Or.inl (hkeys uri huri)⟩

omit [ScriptParser] in
theorem settles_timeless (sent : List Json) : Timeless (Settles sent) := by
  intro s after hworkspace hs
  rw [Settles, hworkspace]
  exact hs

/-!
# Changes of texts
-/

theorem keeps_adds_opened (uri text : Text) (version : Int) :
    Keeps c (Adds before sent) (opened uri text version) := by
  have hstable := adds_stable False before sent
  have htimeless := adds_timeless before sent
  unfold opened
  split
  · refine Meets.bind meets_store fun found => ?_
    refine Meets.bind (Q := fun _ => Adds before sent) ?_ fun _ => ?_
    · refine Meets.modify fun s hs => ?_
      rcases hs with ⟨hs, rfl⟩
      refine hs.ofChanges (Store.openText_changes hs.orderly.stored uri text version) ?_
      intro k hk
      exact Keyed.mem_keys_iff.mpr (Store.openText_stays (Keyed.mem_keys_iff.mp hk))
    · refine Meets.bind (keeps_validate hstable htimeless uri) fun _ => ?_
      exact keeps_scheduleAll hstable htimeless _
  · exact Keeps.pure c _ _

omit [ScriptParser] in
theorem settles_setStore {dropped : List Text} {found after : Store} {E : ServerState -> Prop}
    (h : found.keys.Nodup -> found.Changes False dropped after) :
    Meets c (fun s => Settles sent s ∧ s.server.workspace.store = found) (setStore after)
      (fun _ => Settles sent) E := by
  refine Meets.modify fun s hs => ?_
  rcases hs with ⟨hs, rfl⟩
  exact hs.ofChanges (h hs.orderly.stored)

theorem keeps_settles_changed (uri : Text) (texts : List Text) (version : Int) :
    Keeps c (Settles sent) (changed uri texts version) := by
  refine Meets.bind meets_store fun found => ?_
  split
  · exact Meets.pure fun _ hs => hs.1
  · next text _ =>
      split
      · next hsome =>
          refine Meets.bind (settles_setStore fun hnodup =>
            Store.updateText_changes hnodup hsome text version) fun _ => ?_
          exact keeps_scheduleOpen
            (keeps_schedule (settles_stable sent) (settles_timeless sent)) _
      · exact Meets.pure fun _ hs => hs.1

theorem keeps_settles_closed (uri : Text) : Keeps c (Settles sent) (closed uri) := by
  have hstable := settles_stable sent
  have htimeless := settles_timeless sent
  have hrest (dependents : List Text) :
      Keeps c (Settles sent) (publish ⟨uri, [], none⟩ >>= fun _ => dependents.forM schedule) :=
    Meets.bind (Meets.modify fun _ hs => hs) fun _ =>
      keeps_scheduleAll hstable htimeless dependents
  refine Meets.bind (ends_cancelTimer htimeless uri).keeps fun _ => ?_
  refine Meets.bind meets_store fun found => ?_
  refine Meets.bind (settles_setStore fun hnodup => Store.close_changes hnodup uri) fun _ => ?_
  refine Meets.bind (keeps_change htimeless fun _ => rfl) fun _ => ?_
  refine Meets.bind (Q := fun found s => Settles sent s ∧ s.server.workspace.session = found)
    (fun _ hs => ⟨hs, rfl⟩) fun session => ?_
  cases session with
  | none =>
      exact (hrest _).weaken fun _ hs => hs.1
  | some session =>
      refine Meets.bind (Q := fun _ => Settles sent) ?_ fun _ => hrest _
      rintro s ⟨hs, hsession⟩
      rw [outcome_ofService]
      have hclosed := hs.close hsession (fileNameOf uri)
      rw [List.append_assoc] at hclosed
      exact hclosed

theorem keeps_settles_filesChanged (uris : List Text) :
    Keeps c (Settles sent) (filesChanged uris) := by
  refine Meets.forM (I := fun _ => Settles sent) (fun uri _ => ?_) uris
  refine Meets.bind meets_store fun found => ?_
  refine Meets.bind (settles_setStore fun hnodup => Store.forget_changes hnodup uri) fun _ => ?_
  exact keeps_scheduleAll (settles_stable sent) (settles_timeless sent) _

theorem keeps_handled {m : Message} (h : m.isShutdown = false) (sent : List Json) :
    (forall before, Keeps c (Adds before sent) (handle m)) ∨
      Keeps c (Settles sent) (handle m) := by
  have hdone {J : ServerState -> Prop} {action : ServerAction Unit} (haction : Keeps c J action) :
      Keeps c J (action >>= fun _ => pure Json.null) :=
    Meets.bind haction fun _ => Keeps.pure c J _
  cases m with
  | opened uri text version =>
      exact Or.inl fun before => hdone (keeps_adds_opened uri text version)
  | changed uri texts version =>
      exact Or.inr (hdone (keeps_settles_changed uri texts version))
  | closed uri =>
      exact Or.inr (hdone (keeps_settles_closed uri))
  | filesChanged uris =>
      exact Or.inr (hdone (keeps_settles_filesChanged uris))
  | _ =>
      exact Or.inl fun before => keeps_handle (adds_stable True before sent) rfl h

end ServerAction

/-!
# Runs
-/

namespace Server

/-- An event keeps the engine up to date, unless a document enters whose file it holds. -/
theorem Event.settled {c : Conditions} {s : Server} {sent : List Json} {event : Event}
    (hs : s.workspace.Settled sent) (hpossible : event.Possible s)
    (hfresh : s.workspace.Fresh (event.outcome c s).1.workspace) :
    (event.outcome c s).1.workspace.Settled (sent ++ (event.outcome c s).2.sent) := by
  have hsettles : ServerAction.Settles sent ⟨s, {}, []⟩ := by
    rw [ServerAction.Settles, List.append_nil]
    exact hs
  have hadds : ServerAction.Adds s.workspace sent ⟨s, {}, []⟩ := hsettles.adding
  have hstable := ServerAction.settles_stable sent
  have htimeless := ServerAction.settles_timeless sent
  have hvalidate uri : Keeps c _ _ := ServerAction.keeps_validate hstable htimeless uri
  cases event with
  | step m =>
      rcases ServerAction.keeps_handled hpossible sent (c := c) with hkeeps | hkeeps
      · have hhandled := (hkeeps s.workspace).leaves hadds
        have hend := (ServerAction.keeps_settle (ServerAction.adds_stable False s.workspace sent)
          (ServerAction.adds_timeless s.workspace sent)).leaves (c := c) hhandled
        exact hend.settled hfresh
      · exact (ServerAction.keeps_settle hstable htimeless).leaves (hkeeps.leaves hsettles)
  | message m =>
      rcases ServerAction.keeps_handled hpossible sent (c := c) with hkeeps | hkeeps
      · exact ((hkeeps s.workspace).leaves hadds).settled hfresh
      · exact hkeeps.leaves hsettles
  | deferred d =>
      exact (ServerAction.keeps_runDeferred hstable hvalidate d).leaves hsettles
  | timer t =>
      exact (ServerAction.keeps_fire hstable htimeless t).leaves hsettles

/-- The two servers around an event in which no document enters whose file the engine holds. -/
def Undisturbed (before after : Server) : Prop :=
  before.workspace.Fresh after.workspace

instance : DecidableRel Undisturbed :=
  fun before after => inferInstanceAs (Decidable (before.workspace.Fresh after.workspace))

theorem Reached.settled {env : Environment} {s : Server} {sent : List Json}
    (h : s.Reached env Undisturbed sent) : s.workspace.Settled sent := by
  induction h with
  | initial =>
      exact Workspace.settled_empty
  | next c event _ hpossible hfresh ih =>
      exact Event.settled ih hpossible hfresh

/--
In a run where no document enters the store while the engine holds a file of its name, and no
two stored documents have the same file name, the engine is sent what is given: the last text
that it got for the file of a projection is the text of the projection.
-/
theorem engine_has_projection {env : Environment} {s : Server} {sent : List Json}
    (hreached : s.Reached env Undisturbed sent) {session : Session}
    (hsession : s.workspace.session = some session) (havailable : session.available = true)
    {c : Surroundings} {uri : Text} {p : Projection} {after : ServiceState}
    (hgiven : outcome (Service.projection? uri) c ⟨s.workspace, {}⟩ = (.ok (some p), after)) :
    lastText p.fileName (sent ++ after.trace.sent) = some p.text := by
  rw [Service.outcome_projection?] at hgiven
  have hvalue : (s.workspace.store.projection uri).value = some p :=
    Except.ok.inj (congrArg Prod.fst hgiven)
  have hafter := congrArg Prod.snd hgiven
  simp only [Service.afterProjection, hvalue, hsession, havailable, if_true] at hafter
  subst hafter
  have hloaded : ServerAction.Settles sent
      (ServerState.withService ⟨s, {}, []⟩
        (ServiceState.andLoad ⟨s.workspace, {}⟩ (s.workspace.store.projection uri))) := by
    refine ServerAction.settles_stable sent ⟨s, {}, []⟩ _
      (.service (.load (Store.projection_extends _ uri))) ?_
    rw [ServerAction.Settles, List.append_nil]
    exact hreached.settled
  change Workspace.Settled (sent ++ []) _ at hloaded
  rw [List.append_nil] at hloaded
  rcases Service.stored_of_value hvalue with ⟨_, e, _, he, _, hready⟩
  have hmarks := hloaded.orderly.marked uri e he p hready
  have hname : p.fileName = fileNameOf uri := by
    rw [Projection.fileName, hmarks.1]
  have hsound := hloaded.orderly.sound session hsession
  show lastText p.fileName (sent ++ ([] ++
    LinkEvent.sentIn (session.sync p.fileName p.version p.text).events)) = _
  rw [List.nil_append, lastText_append]
  rcases session.sync_cases hsound p.fileName p.version p.text with
    ⟨hskipped, hheld⟩ | ⟨_, _, _, hsent⟩
  · -- The engine holds this version, and was last sent the text of this projection.
    rcases hheld havailable with ⟨synced, hsynced, hversion⟩
    rw [hname] at hsynced
    have hcurrent := (hloaded.current session uri e synced hsession he hsynced).2 p
      (by rw [hversion, hmarks.2]) hready
    rw [hskipped, hname]
    exact hcurrent
  · rw [hsent, if_pos rfl]

end Server

end

namespace Server

def namedText (name : String) : Text :=
  ("<template></template><script>export default class " ++ name ++ " \x7b\x7d</script>").toList

def namedProjection (name : String) : Text :=
  ("export default class " ++ name ++ " \x7brender()\x7bconst \x7b\x7d = this;\x7d\x7d").toList

def parentUri : Text :=
  "file:///A.vue".toList

def childUri : Text :=
  "file:///B.vue".toList

def parentText : Text :=
  ("<template></template><script>import B from './B.vue';" ++
    "@Component(\x7bcomponents:\x7bB\x7d\x7d) export default class A \x7b\x7d</script>").toList

def childConditions : Conditions where
  files uri := if uri = childUri then .text (namedText "B") else .missing
  now := some .zero

def retyping : List Message :=
  [.start .null none, .opened childUri (namedText "B") 1, .changed childUri [namedText "C"] 2]

def retyped : Server × List Json :=
  serve childConditions retyping (Server.initial {}, [])

/-- The engine, which was last sent the first text, is sent the second one. -/
theorem engine_has_projection_changed :
    retyped.1.Reached {} Undisturbed retyped.2 ∧
      retyped.1.workspace.session.any Session.available = true ∧
      lastText (fileNameOf childUri) retyped.2 = some (namedProjection "B") ∧
      exists p after,
        outcome (Service.projection? childUri) ⟨childConditions.files, []⟩
          ⟨retyped.1.workspace, {}⟩ = (.ok (some p), after) ∧
        p.text = namedProjection "C" ∧
        lastText p.fileName (retyped.2 ++ after.trace.sent) = some p.text := by
  have hfacts : Along Undisturbed childConditions retyping (Server.initial {}) ∧
      retyped.1.workspace.session.any Session.available = true ∧
      lastText (fileNameOf childUri) retyped.2 = some (namedProjection "B") ∧
      (retyped.1.workspace.store.projection childUri).value.any
        (fun p => p.text = namedProjection "C") = true := by
    decide +kernel
  rcases hfacts with ⟨halong, havailable, hbefore, htext⟩
  have hreached : retyped.1.Reached {} Undisturbed retyped.2 := Reached.initial.serve halong
  rcases (Option.any_eq_true _ _).mp havailable with ⟨session, hsession, hrunning⟩
  rcases (Option.any_eq_true _ _).mp htext with ⟨p, hp, htext⟩
  have hgiven := Service.projection?_gives hp (t := {}) ⟨childConditions.files, []⟩
  exact ⟨hreached, havailable, hbefore, p, _, hgiven, of_decide_eq_true htext,
    engine_has_projection hreached hsession hrunning hgiven⟩

/-- A component is read from its file, sent to the engine, and forgotten; then it is opened. -/
def reopening : List Message :=
  [.start .null none, .opened parentUri parentText 1, .complete parentUri ⟨0, 10⟩ .null,
    .virtualCode ⟨.obj [("uri", .ofText childUri)], false⟩, .filesChanged [childUri],
    .opened childUri (namedText "C") 1]

def reopened : Server × List Json :=
  serve childConditions reopening (Server.initial {}, [])

/-- The engine is not sent the text of the opened document: it holds its version already. -/
theorem reopened_text_not_sent :
    reopened.1.Reached {} (fun _ _ => True) reopened.2 ∧
      reopened.1.workspace.session.any Session.available = true ∧
      exists p after,
        outcome (Service.projection? childUri) ⟨childConditions.files, []⟩
          ⟨reopened.1.workspace, {}⟩ = (.ok (some p), after) ∧
        lastText p.fileName (reopened.2 ++ after.trace.sent) ≠ some p.text := by
  have hfacts : Along (fun _ _ => True) childConditions reopening (Server.initial {}) ∧
      reopened.1.workspace.session.any Session.available = true ∧
      (reopened.1.workspace.store.projection childUri).value.any (fun p =>
        lastText p.fileName (reopened.2 ++
          (Service.afterProjection childUri ⟨reopened.1.workspace, {}⟩).trace.sent) ≠
            some p.text) = true := by
    decide +kernel
  rcases hfacts with ⟨halong, havailable, hstale⟩
  rcases (Option.any_eq_true _ _).mp hstale with ⟨p, hp, hstale⟩
  exact ⟨Reached.initial.serve halong, havailable, p, _, Service.projection?_gives hp _,
    of_decide_eq_true hstale⟩

end Server
end SfcServer
