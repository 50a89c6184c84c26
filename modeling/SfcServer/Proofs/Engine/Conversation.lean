import SfcServer.Proofs.Engine.Notes

/-!
# What a session says about files

A session opens a file, changes it and closes it in this order, with a new version for each text,
and says nothing about files before it is introduced or after its process has ended.  A write may
meet a broken pipe; then the message was still handed to the link, but the link has ended, and
what the session holds of files does not matter any more.  As long as it does matter, the session
holds what the engine was sent last.
-/

namespace SfcServer

open Session

/-- A session after some operations, what was handed to its link, and what was written. -/
structure Conversation where
  session : Session
  handed : List Json := []
  sent : List Json := []

namespace Conversation

open Session

def ofCommand (command : Option (List Text)) : Conversation :=
  ⟨Session.ofLink (some { command := command }), [], []⟩

def next (c : Conversation) (op : Session.Operation) : Conversation where
  session := (op.apply c.session).session
  handed := c.handed ++ c.session.handed op
  sent := c.sent ++ LinkEvent.sentIn (op.apply c.session).events

def after (c : Conversation) (ops : List Session.Operation) : Conversation :=
  ops.foldl next c

/-!
# One operation
-/

/--
What the link was told obeys the protocol.  While the link runs, the session holds the files that
are open at the engine, and everything about them was written.
-/
structure Faithful (c : Conversation) : Prop where
  obeys : forall fileName, Obeys fileName none c.handed
  filed : c.session.files.keys.Nodup
  quiet : c.session.initialized = false -> c.session.files = []
  attached : forall l, c.session.link = some l -> l.running = true -> l.attached = true
  held : c.session.running = true -> forall fileName,
    Keyed.get? fileName c.session.files = (openFile fileName c.sent).map OpenFile.synced ∧
      openFile fileName c.handed = openFile fileName c.sent

/-- Nothing was said about files over a link that has no process yet. -/
structure Unbegun (c : Conversation) : Prop where
  idle : c.session.running = false
  silent : c.handed = []
  unfiled : c.session.files = []
  closed : forall fileName, openFile fileName c.sent = none

variable {c : Conversation} {op : Session.Operation} {command : Option (List Text)}

theorem ofCommand_unbegun (command : Option (List Text)) : (ofCommand command).Unbegun :=
  ⟨rfl, rfl, rfl, fun _ => rfl⟩

theorem ofCommand_faithful (command : Option (List Text)) : (ofCommand command).Faithful where
  obeys _ := trivial
  filed := List.nodup_nil
  quiet _ := rfl
  attached l hl hrunning := by
    cases hl
    cases hrunning
  held hrunning := by
    cases hrunning

def openAfterNote (name : Text) (file : Option OpenFile) :
    Option (String × Json) -> Option OpenFile
  | none => file
  | some note => openAfter name file (noteMessage note)

/-- A note that is permitted, after which the session holds what is open. -/
structure Fitting (s : Session) (note? : Option (String × Json)) (files : Keyed Synced) :
    Prop where
  filed : files.keys.Nodup
  quiet : s.initialized = false -> files = []
  available : note?.isSome = true -> s.available = true
  permitted : forall note name file, note? = some note ->
    Keyed.get? name s.files = file.map OpenFile.synced -> Permitted name file (noteMessage note)
  held : s.running = true -> forall name file, Keyed.get? name s.files = file.map OpenFile.synced ->
    Keyed.get? name files = (openAfterNote name file note?).map OpenFile.synced

theorem running_of_available {s : Session} (h : s.available = true) : s.running = true :=
  (Bool.and_eq_true_iff.mp h).2

theorem sync_fitting (h : c.Faithful) (fileName text : Text) (version : Int) :
    Fitting c.session (c.session.syncNote? fileName version text)
      (if (c.session.syncNote? fileName version text).isSome then
        Keyed.put fileName ⟨version, Lines.ofText text⟩ c.session.files
      else c.session.files) := by
  have havailable : (c.session.syncNote? fileName version text).isSome = true ->
      c.session.available = true := by
    unfold syncNote?
    cases c.session.available with
    | false =>
        exact fun hsome => hsome
    | true =>
        exact fun _ => rfl
  constructor
  · split
    · exact Keyed.keys_put_nodup h.filed
    · exact h.filed
  · intro hearly
    split
    · next hsome =>
        have hinitialized := (Bool.and_eq_true_iff.mp (havailable hsome)).1
        rw [hearly] at hinitialized
        cases hinitialized
    · exact h.quiet hearly
  · exact havailable
  · intro note name file hnote hfile
    exact syncNote_permitted hnote hfile
  · intro _ name file hfile
    cases hnote : c.session.syncNote? fileName version text with
    | none =>
        exact hfile
    | some note =>
        simp only [Option.isSome_some, if_true, openAfterNote, openAfter_syncNote hnote,
          Keyed.get?_put]
        split
        · rfl
        · exact hfile

theorem close_fitting (h : c.Faithful) (fileName : Text) :
    Fitting c.session (c.session.closeNote? fileName) (Keyed.erase fileName c.session.files) := by
  constructor
  · exact Keyed.keys_erase_nodup h.filed
  · intro hearly
    rw [h.quiet hearly]
    rfl
  · unfold closeNote?
    split
    · next hknown =>
        exact fun _ => (Bool.and_eq_true_iff.mp hknown).2
    · exact fun hsome => (nomatch hsome)
  · intro note name file hnote hfile
    exact closeNote_permitted hnote hfile
  · intro hrunning name file hfile
    rw [Keyed.get?_erase h.filed]
    cases hnote : c.session.closeNote? fileName with
    | some note =>
        rw [openAfterNote, openAfter_closeNote hnote]
        split
        · rfl
        · exact hfile
    | none =>
        split
        · next heq =>
            -- Nothing is told of a file that the session does not hold.
            subst heq
            have hunknown : Keyed.get? fileName c.session.files = none := by
              cases hinitialized : c.session.initialized with
              | false =>
                  rw [h.quiet hinitialized]
                  rfl
              | true =>
                  have havailable : c.session.available = true :=
                    Bool.and_eq_true_iff.mpr ⟨hinitialized, hrunning⟩
                  simpa [closeNote?, havailable, Keyed.contains] using hnote
            rw [hunknown] at hfile
            exact hfile
        · exact hfile

theorem Faithful.tell {note? : Option (String × Json)} {files : Keyed Synced} (h : c.Faithful)
    (hfitting : Fitting c.session note? files) :
    Faithful ⟨{ (c.session.tell note?).session with files := files },
      c.handed ++ note?.toList.map noteMessage,
      c.sent ++ LinkEvent.sentIn (c.session.tell note?).events⟩ := by
  cases note? with
  | none =>
      have hsilent : LinkEvent.sentIn [] = [] := rfl
      simp only [Session.tell, Option.toList_none, List.map_nil, List.append_nil, hsilent]
      exact ⟨h.obeys, hfitting.filed, hfitting.quiet, h.attached, fun hrunning name =>
        ⟨hfitting.held hrunning name _ (h.held hrunning name).1, (h.held hrunning name).2⟩⟩
  | some note =>
      have hrunning := running_of_available (hfitting.available rfl)
      have hheld := h.held hrunning
      have hobeys : forall name, Obeys name none (c.handed ++ [noteMessage note]) := by
        intro name
        refine obeys_append (h.obeys name) ⟨?_, trivial⟩
        have hopen := (hheld name).1
        rw [← (hheld name).2] at hopen
        exact hfitting.permitted note name _ rfl hopen
      rcases tell_cases hrunning h.attached note with ⟨hsame, hsent⟩ | ⟨hended, hsent⟩
      · rw [hsame, hsent]
        refine ⟨hobeys, hfitting.filed, hfitting.quiet, h.attached, fun _ name => ⟨?_, ?_⟩⟩
        · rw [openFile_append]
          exact hfitting.held hrunning name _ (hheld name).1
        · show openFile name (c.handed ++ [noteMessage note]) = _
          rw [openFile_append, openFile_append, (hheld name).2]
      · refine ⟨hobeys, hfitting.filed, fun hearly => hfitting.quiet ?_, fun l hl hrun => ?_,
          fun hrun => ?_⟩
        · exact (tell_initialized c.session (some note)).symm.trans hearly
        · rw [running, show _ = some l from hl] at hended
          exact absurd (hended.symm.trans hrun) (by decide)
        · exact absurd (hended.symm.trans hrun) (by decide)

/-!
# Operations of others
-/

theorem Faithful.beside {step : Sessioned} (h : c.Faithful)
    (hfiles : step.session.files = c.session.files)
    (hinitialized : step.session.initialized = false -> c.session.initialized = false)
    (houtlives : c.session.Outlives step.session)
    (haside : forall m, m ∈ LinkEvent.sentIn step.events -> Aside m) :
    Faithful ⟨step.session, c.handed, c.sent ++ LinkEvent.sentIn step.events⟩ where
  obeys := h.obeys
  filed := hfiles ▸ h.filed
  quiet hearly := hfiles.trans (h.quiet (hinitialized hearly))
  attached l hl hrunning := by
    rcases houtlives l hl with ⟨before, hbefore, ⟨hsame, hattached⟩ | hended⟩
    · exact hattached.trans (h.attached before hbefore (hsame.symm.trans hrunning))
    · exact absurd (hended.symm.trans hrunning) (by decide)
  held hrunning fileName := by
    have hbefore : c.session.running = true := houtlives.running hrunning
    rw [hfiles, openFile_aside haside]
    exact h.held hbefore fileName

theorem Faithful.next (h : c.Faithful) (hbegins : op.begins = false) (hpolite : op.IsPolite) :
    (c.next op).Faithful := by
  have houtlives := apply_outlives hbegins hpolite c.session
  cases op with
  | introduce reply params =>
      have htalks := c.session.introduce_talks reply params
      have hnext := h.beside htalks.files introduce_initialized houtlives htalks.aside
      rw [← List.append_nil c.handed] at hnext
      exact hnext
  | sync fileName version text =>
      show Faithful ⟨(c.session.sync fileName version text).session,
        c.handed ++ c.session.handed (.sync fileName version text),
        c.sent ++ LinkEvent.sentIn (c.session.sync fileName version text).events⟩
      rw [handed_sync, sync_eq]
      exact h.tell (sync_fitting h fileName text version)
  | close fileName =>
      show Faithful ⟨(c.session.close fileName).session,
        c.handed ++ c.session.handed (.close fileName),
        c.sent ++ LinkEvent.sentIn (c.session.close fileName).events⟩
      rw [handed_close, close_eq]
      exact h.tell (close_fitting h fileName)
  | stop =>
      have hended : c.session.stop.running = true -> False := by
        intro hrunning
        cases hlink : c.session.link with
        | none =>
            simp [running, Session.stop, hlink] at hrunning
        | some l =>
            simp [running, Session.stop, hlink, Link.stop] at hrunning
      refine ⟨?_, List.nodup_nil, fun _ => rfl, ?_, fun hrunning => (hended hrunning).elim⟩
      · intro fileName
        exact obeys_append (h.obeys fileName) trivial
      · intro l hl hrunning
        rcases Option.map_eq_some_iff.mp hl with ⟨before, _, rfl⟩
        cases hrunning
  | link operation =>
      have hsame := onLink_initialized operation.apply c.session
      have hnext := h.beside hsame.2 (fun hearly => hsame.1.symm.trans hearly) houtlives
        (onLink_aside (fun l => (Link.Operation.apply_calm hbegins hpolite l).aside) c.session)
      rw [← List.append_nil c.handed] at hnext
      exact hnext

theorem apply_unavailable {s : Session} (h : s.available = false) (hfiles : s.files = [])
    (hbegins : op.begins = false) (hpolite : op.IsPolite) :
    (op.apply s).session.files = [] ∧
      forall m, m ∈ LinkEvent.sentIn (op.apply s).events -> Aside m := by
  cases op with
  | introduce reply params =>
      have htalks := s.introduce_talks reply params
      exact ⟨htalks.files.trans hfiles, htalks.aside⟩
  | sync fileName version text =>
      have hnote : s.syncNote? fileName version text = none := by
        simp [syncNote?, h]
      show (s.sync fileName version text).session.files = [] ∧
        forall m, m ∈ LinkEvent.sentIn (s.sync fileName version text).events -> Aside m
      rw [sync_eq, hnote]
      exact ⟨hfiles, fun _ hm => absurd hm List.not_mem_nil⟩
  | close fileName =>
      have hnote : s.closeNote? fileName = none := by
        simp [closeNote?, h]
      show (s.close fileName).session.files = [] ∧
        forall m, m ∈ LinkEvent.sentIn (s.close fileName).events -> Aside m
      rw [close_eq, hnote, hfiles]
      exact ⟨rfl, fun _ hm => absurd hm List.not_mem_nil⟩
  | stop =>
      exact ⟨rfl, fun _ hm => absurd hm List.not_mem_nil⟩
  | link operation =>
      exact ⟨(onLink_initialized operation.apply s).2.trans hfiles,
        onLink_aside (fun l => (Link.Operation.apply_calm hbegins hpolite l).aside) s⟩

theorem Unbegun.next (h : c.Unbegun) (hbegins : op.begins = false) (hpolite : op.IsPolite) :
    (c.next op).Unbegun := by
  have hunavailable : c.session.available = false := by
    rw [← Bool.not_eq_true]
    intro havailable
    exact absurd (h.idle.symm.trans (running_of_available havailable)) (by decide)
  have hhanded : c.session.handed op = [] := by
    by_contra hsome
    exact absurd (hunavailable.symm.trans (available_of_handed hsome)) (by decide)
  have happlied := apply_unavailable hunavailable h.unfiled hbegins hpolite
  constructor
  · rw [← Bool.not_eq_true]
    intro hrunning
    have hbefore := (apply_outlives hbegins hpolite c.session).running hrunning
    exact absurd (h.idle.symm.trans hbefore) (by decide)
  · show c.handed ++ c.session.handed op = []
    rw [h.silent, hhanded]
    rfl
  · exact happlied.1
  · intro fileName
    exact (openFile_aside happlied.2 fileName).trans (h.closed fileName)

theorem onLink_attached {s : Session} {operation : Link.Operation}
    (h : forall l, s.link = some l -> l.running = true -> l.attached = true)
    (hbegins : operation.begins = true) (l : Link)
    (hl : (s.onLink operation.apply).session.link = some l) (hrunning : l.running = true) :
    l.attached = true := by
  unfold onLink at hl
  split at hl
  · exact h l hl hrunning
  · next before hbefore =>
      have hlink : (operation.apply before).link = l := Option.some.inj hl
      rcases (Link.Operation.apply_begins hbegins before).1 with hsame | hattached
      · rw [← hlink, hsame] at hrunning ⊢
        exact h before hbefore hrunning
      · rw [← hlink, hattached]
        rfl

/-- A process is brought to a link that had none, and nothing was said about files before. -/
theorem Unbegun.begun (h : c.Unbegun) (hfaithful : c.Faithful) (hbegins : op.begins = true) :
    (c.next op).Faithful := by
  cases op with
  | link operation =>
      have hsame := onLink_initialized operation.apply c.session
      have hsent : LinkEvent.sentIn (c.session.onLink operation.apply).events = [] := by
        unfold onLink
        split
        · rfl
        · next l _ =>
            exact (Link.Operation.apply_begins hbegins l).2
      show Faithful ⟨(c.session.onLink operation.apply).session, c.handed ++ [],
        c.sent ++ LinkEvent.sentIn (c.session.onLink operation.apply).events⟩
      rw [hsent, List.append_nil, List.append_nil]
      refine ⟨hfaithful.obeys, hsame.2 ▸ hfaithful.filed, ?_, ?_,
        fun _ fileName => ⟨?_, ?_⟩⟩
      · exact fun _ => hsame.2.trans h.unfiled
      · exact onLink_attached (fun l hl => hfaithful.attached l hl) hbegins
      · rw [hsame.2, h.unfiled, h.closed]
        rfl
      · rw [h.silent, h.closed]
        rfl
  | introduce | sync | close | stop =>
      cases hbegins

/-!
# All operations
-/

/-- What was said in a conversation of some operations, as it should be. -/
structure Proper (command : Option (List Text)) (ops : List Session.Operation) : Prop where
  /-- The notes about each file obey the protocol. -/
  obeys : forall fileName, Obeys fileName none ((ofCommand command).after ops).handed
  /-- Notes come only after the session was introduced, and while its process has not ended. -/
  timely : forall before op more, ops = before ++ op :: more ->
    ((ofCommand command).after before).session.handed op ≠ [] ->
      (exists o, o ∈ before ∧ o.introduces = true) ∧
      forall earlier later, before = earlier ++ later ->
        (exists o, o ∈ earlier ∧ o.begins = true) ->
          ((ofCommand command).after earlier).session.running = true
  /-- While the session can be asked, it holds the files that are open at the engine. -/
  holds : ((ofCommand command).after ops).session.available = true -> forall fileName,
    Keyed.get? fileName ((ofCommand command).after ops).session.files =
      (openFile fileName ((ofCommand command).after ops).sent).map OpenFile.synced

theorem after_append (c : Conversation) (ops more : List Session.Operation) :
    c.after (ops ++ more) = (c.after ops).after more :=
  List.foldl_append

theorem running_before {ops : List Session.Operation}
    (hops : forall op, op ∈ ops -> op.begins = false ∧ op.IsPolite)
    (hrunning : (c.after ops).session.running = true) : c.session.running = true := by
  induction ops generalizing c with
  | nil =>
      exact hrunning
  | cons op rest ih =>
      have hop := hops op List.mem_cons_self
      have hnext := ih (fun o ho => hops o (List.mem_cons_of_mem op ho)) hrunning
      exact (apply_outlives hop.1 hop.2 c.session).running hnext

/-- A session that is introduced now, and was not before, was introduced on the way. -/
theorem introduced_along {ops : List Session.Operation}
    (hbefore : c.session.initialized = false)
    (hinitialized : (c.after ops).session.initialized = true) :
    exists o, o ∈ ops ∧ o.introduces = true := by
  induction ops generalizing c with
  | nil =>
      exact absurd (hbefore.symm.trans hinitialized) (by decide)
  | cons op rest ih =>
      cases hintroduces : op.introduces with
      | true =>
          exact ⟨op, List.mem_cons_self, hintroduces⟩
      | false =>
          have hnext : (c.next op).session.initialized = false := by
            rw [← Bool.not_eq_true]
            intro hinitialized
            exact absurd (hbefore.symm.trans (apply_initialized hintroduces hinitialized))
              (by decide)
          rcases ih hnext hinitialized with ⟨o, ho, hintroduces⟩
          exact ⟨o, List.mem_cons_of_mem op ho, hintroduces⟩

theorem faithful_after {ops : List Session.Operation}
    (hpolite : forall op, op ∈ ops -> op.IsPolite) (h : c.Faithful)
    (hbegins : ops.countP Operation.begins = 0 ∨
      c.Unbegun ∧ ops.countP Operation.begins ≤ 1) : (c.after ops).Faithful := by
  induction ops generalizing c with
  | nil =>
      exact h
  | cons op rest ih =>
      have hop := hpolite op List.mem_cons_self
      have hrest := fun o ho => hpolite o (List.mem_cons_of_mem op ho)
      rw [List.countP_cons] at hbegins
      cases hstarts : op.begins with
      | false =>
          simp only [hstarts, Bool.false_eq_true, if_false, Nat.add_zero] at hbegins
          refine ih hrest (h.next hstarts hop) (hbegins.imp_right fun hunbegun => ?_)
          exact ⟨hunbegun.1.next hstarts hop, hunbegun.2⟩
      | true =>
          simp only [hstarts, if_true] at hbegins
          rcases hbegins with hnone | ⟨hunbegun, hone⟩
          · omega
          · exact ih hrest (hunbegun.begun h hstarts) (Or.inl (by omega))

/--
Whatever is done with a session and with its link, if at most one process is brought to the link:
what is said about files obeys the protocol, at its time, and the session holds what is open.
-/
theorem files_kept_in_step {command : Option (List Text)} {ops : List Session.Operation}
    (hpolite : forall op, op ∈ ops -> op.IsPolite) (honce : ops.countP Operation.begins ≤ 1) :
    Proper command ops := by
  have hunbegun := ofCommand_unbegun command
  have hafter := faithful_after hpolite (ofCommand_faithful command) (Or.inr ⟨hunbegun, honce⟩)
  refine ⟨hafter.obeys, ?_, fun havailable fileName => ?_⟩
  · rintro before op more rfl hhanded
    have havailable := available_of_handed hhanded
    refine ⟨introduced_along rfl (Bool.and_eq_true_iff.mp havailable).1, ?_⟩
    rintro earlier later rfl ⟨o, ho, hstarts⟩
    rw [after_append] at havailable
    refine running_before (fun o' ho' => ⟨?_, hpolite o' ?_⟩) (running_of_available havailable)
    · -- The one start is among the earlier operations.
      have hearlier : 0 < earlier.countP Operation.begins :=
        List.countP_pos_iff.mpr ⟨o, ho, hstarts⟩
      simp only [List.countP_append] at honce
      have hlater : later.countP Operation.begins = 0 := by omega
      simpa using List.countP_eq_zero.mp hlater o' ho'
    · exact List.mem_append_left _ (List.mem_append_right _ ho')
  · exact (hafter.held (running_of_available havailable) fileName).1

/-- A file is opened, changed and given again, and another one is opened and closed. -/
def editing : List Session.Operation :=
  [.sync "a".toList 1 "x".toList, .link (.start none .started),
    .introduce [("result", .obj [])] (.obj []), .sync "a".toList 1 "x".toList,
    .sync "a".toList 2 "y".toList, .sync "a".toList 2 "y".toList, .sync "b".toList 1 "z".toList,
    .close "b".toList]

def engineCommand : Option (List Text) :=
  some ["engine".toList]

/-- Four of the six notes were due; the first one came too early, and one version came twice. -/
theorem files_kept_in_step_editing :
    Proper engineCommand editing ∧
      ((ofCommand engineCommand).after editing).handed.length = 4 ∧
      Keyed.get? "a".toList ((ofCommand engineCommand).after editing).session.files =
        some (OpenFile.synced ⟨2, "y".toList⟩) ∧
      Keyed.get? "b".toList ((ofCommand engineCommand).after editing).session.files = none := by
  have hpolite : forall op, op ∈ editing -> op.IsPolite := by
    intro op hop
    simp only [editing, List.mem_cons, List.not_mem_nil, or_false] at hop
    rcases hop with rfl | rfl | rfl | rfl | rfl | rfl | rfl | rfl
    all_goals trivial
  have hproper : Proper engineCommand editing :=
    files_kept_in_step hpolite (by decide)
  have hfacts : ((ofCommand engineCommand).after editing).handed.length = 4 ∧
      ((ofCommand engineCommand).after editing).session.available = true ∧
      openFile "a".toList ((ofCommand engineCommand).after editing).sent =
        some ⟨2, "y".toList⟩ ∧
      openFile "b".toList ((ofCommand engineCommand).after editing).sent = none := by
    decide +kernel
  rcases hfacts with ⟨hhanded, havailable, hchanged, hclosed⟩
  have hholds := hproper.holds havailable
  exact ⟨hproper, hhanded, (hholds _).trans (by rw [hchanged]; rfl),
    (hholds _).trans (by rw [hclosed]; rfl)⟩

end Conversation
end SfcServer
