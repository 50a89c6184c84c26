import SfcServer.Proofs.Engine.Liveness

/-!
# Notes about files

A session tells its link that a file is open, that it has changed, and that it is closed.  What it
tells follows from what it holds: a note is permitted by the protocol of documents as long as the
session holds the file as it is open at the engine.  The link may be used by others meanwhile, who
say nothing about files.
-/

namespace SfcServer

/-!
# Files at the engine
-/

/-- A file that is open at the engine, as it was sent last. -/
structure OpenFile where
  version : Int
  text : Text
  deriving DecidableEq

def OpenFile.synced (f : OpenFile) : Synced :=
  ⟨f.version, Lines.ofText f.text⟩

/-- What is open of a file after a message, given what was open before it. -/
def openAfter (fileName : Text) (file : Option OpenFile) (message : Json) : Option OpenFile :=
  match (Call.ofJson? message).bind Call.message? with
  | some (.opened uri text version) => if uri = fileName then some ⟨version, text⟩ else file
  | some (.changed uri texts version) =>
      if uri = fileName then (texts.getLast?.map fun text => ⟨version, text⟩).or file else file
  | some (.closed uri) => if uri = fileName then none else file
  | _ => file

def openFile (fileName : Text) (sent : List Json) : Option OpenFile :=
  sent.foldl (openAfter fileName) none

/--
What the protocol of documents says of a message about a file.  A file is opened while it is not
open; it is changed to one text under another version, and closed, while it is open.
-/
def Permitted (fileName : Text) (file : Option OpenFile) (message : Json) : Prop :=
  match (Call.ofJson? message).bind Call.message? with
  | some (.opened uri _ _) => uri = fileName -> file = none
  | some (.changed uri texts version) => uri = fileName ->
      texts.length = 1 ∧ exists f, file = some f ∧ f.version ≠ version
  | some (.closed uri) => uri = fileName -> file.isSome = true
  | _ => True

def Obeys (fileName : Text) : Option OpenFile -> List Json -> Prop
  | _, [] => True
  | file, m :: rest => Permitted fileName file m ∧ Obeys fileName (openAfter fileName file m) rest

theorem obeys_append {fileName : Text} {file : Option OpenFile} {sent more : List Json}
    (h : Obeys fileName file sent)
    (hmore : Obeys fileName (sent.foldl (openAfter fileName) file) more) :
    Obeys fileName file (sent ++ more) := by
  induction sent generalizing file with
  | nil =>
      exact hmore
  | cons m rest ih =>
      exact ⟨h.1, ih h.2 hmore⟩

theorem openFile_append (fileName : Text) (sent more : List Json) :
    openFile fileName (sent ++ more) = more.foldl (openAfter fileName) (openFile fileName sent) :=
  List.foldl_append

theorem Aside.openAfter {message : Json} (h : Aside message) (fileName : Text)
    (file : Option OpenFile) : openAfter fileName file message = file := by
  have htext := h fileName
  unfold textAfter at htext
  unfold SfcServer.openAfter
  split
  · next uri text version hmessage =>
      split
      · next huri =>
          simp only [hmessage, huri, if_true] at htext
          cases htext none
      · rfl
  · next uri texts version hmessage =>
      split
      · next huri =>
          simp only [hmessage, huri, if_true] at htext
          have hnone := htext none
          rw [Option.or_none] at hnone
          rw [hnone]
          rfl
      · rfl
  · next uri hmessage =>
      split
      · next huri =>
          simp only [hmessage, huri, if_true] at htext
          cases htext (some [])
      · rfl
  · rfl

theorem openFile_aside {sent more : List Json} (h : forall m, m ∈ more -> Aside m)
    (fileName : Text) : openFile fileName (sent ++ more) = openFile fileName sent := by
  rw [openFile_append]
  induction more with
  | nil =>
      rfl
  | cons m rest ih =>
      rw [List.foldl_cons, (h m List.mem_cons_self).openAfter]
      exact ih fun m' hm' => h m' (List.mem_cons_of_mem _ hm')

namespace Session

/-!
# Operations
-/

/-- What can be done with a session; its link is used by others, too. -/
inductive Operation where
  | introduce (reply : List (String × Json)) (params : Json)
  | sync (fileName : Text) (version : Int) (text : Text)
  | close (fileName : Text)
  | stop
  | link (operation : Link.Operation)

namespace Operation

def apply (s : Session) : Operation -> Sessioned
  | introduce reply params => (s.introduce reply params).2
  | sync fileName version text => s.sync fileName version text
  | close fileName => s.close fileName
  | stop => ⟨s.stop, []⟩
  | link operation => s.onLink operation.apply

def begins : Operation -> Bool
  | link operation => operation.begins
  | _ => false

def IsPolite : Operation -> Prop
  | link operation => operation.IsAside
  | _ => True

def introduces : Operation -> Bool
  | introduce .. => true
  | _ => false

end Operation

def wired (s : Session) : Session :=
  { s with link := s.link.map fun l => { l with attached := true, broken := false } }

/-- The messages about files that an operation hands to the link, written or not. -/
def handed (s : Session) : Operation -> List Json
  | .sync fileName version text => LinkEvent.sentIn (s.wired.sync fileName version text).events
  | .close fileName => LinkEvent.sentIn (s.wired.close fileName).events
  | _ => []

def running (s : Session) : Bool :=
  (s.link.map (·.running)).getD false

/-!
# Notes about files
-/

/-- What the link is told when a file is synchronized, if it is told something. -/
def syncNote? (s : Session) (fileName : Text) (version : Int) (text : Text) :
    Option (String × Json) :=
  if !s.available then none
  else
    match Keyed.get? fileName s.files with
    | none => some ("textDocument/didOpen", opening fileName version text)
    | some synced =>
        if synced.version = version then none
        else some ("textDocument/didChange", change fileName version text)

/-- What the link is told when a file is taken back, if it is told something. -/
def closeNote? (s : Session) (fileName : Text) : Option (String × Json) :=
  if Keyed.contains fileName s.files && s.available then
    some ("textDocument/didClose", .obj [reference fileName])
  else none

def noteMessage (note : String × Json) : Json :=
  notification note.1 note.2

def tell (note? : Option (String × Json)) (s : Session) : Sessioned :=
  match note? with
  | none => ⟨s, []⟩
  | some (method, params) => s.onLink (Link.notify method params)

theorem sync_eq (s : Session) (fileName : Text) (version : Int) (text : Text) :
    s.sync fileName version text =
      ⟨{ (s.tell (s.syncNote? fileName version text)).session with
        files := if (s.syncNote? fileName version text).isSome then
          Keyed.put fileName ⟨version, Lines.ofText text⟩ s.files else s.files },
        (s.tell (s.syncNote? fileName version text)).events⟩ := by
  unfold sync syncNote?
  cases s.available with
  | false =>
      rfl
  | true =>
      cases Keyed.get? fileName s.files with
      | none =>
          rfl
      | some synced =>
          simp only [Bool.not_true, Bool.false_eq_true, if_false]
          split
          · rfl
          · rfl

theorem close_eq (s : Session) (fileName : Text) :
    s.close fileName = ⟨{ (s.tell (s.closeNote? fileName)).session with
      files := Keyed.erase fileName s.files }, (s.tell (s.closeNote? fileName)).events⟩ := by
  have havailable : available { s with files := Keyed.erase fileName s.files } = s.available := rfl
  unfold close closeNote?
  simp only [havailable]
  split
  · simp only [tell, onLink]
    split
    · rfl
    · rfl
  · rfl

theorem wired_available (s : Session) : s.wired.available = s.available := by
  unfold available wired
  cases s.link with
  | none | some =>
      rfl

theorem wired_sound (s : Session) : s.wired.Sound := by
  intro l hl
  rcases Option.map_eq_some_iff.mp hl with ⟨l', _, rfl⟩
  exact fun _ => ⟨rfl, rfl⟩

/-- A session that can be asked hands over exactly what it tells. -/
theorem handed_tell {s : Session} (h : s.available = true) (note? : Option (String × Json)) :
    LinkEvent.sentIn (s.wired.tell note?).events =
      note?.toList.map noteMessage := by
  cases note? with
  | none =>
      rfl
  | some note =>
      exact (onLink_notify s.wired_sound (s.wired_available.trans h) note.1 note.2).1

theorem handed_sync (s : Session) (fileName : Text) (version : Int) (text : Text) :
    s.handed (.sync fileName version text) =
      (s.syncNote? fileName version text).toList.map noteMessage := by
  have hnote : s.wired.syncNote? fileName version text = s.syncNote? fileName version text := by
    rw [syncNote?, syncNote?, wired_available]
    rfl
  rw [handed, sync_eq, hnote]
  cases havailable : s.available with
  | false =>
      simp [syncNote?, havailable, tell, LinkEvent.sentIn]
  | true =>
      exact handed_tell havailable (s.syncNote? fileName version text)

theorem handed_close (s : Session) (fileName : Text) :
    s.handed (.close fileName) =
      (s.closeNote? fileName).toList.map noteMessage := by
  have hnote : s.wired.closeNote? fileName = s.closeNote? fileName := by
    rw [closeNote?, closeNote?, wired_available]
    rfl
  rw [handed, close_eq, hnote]
  cases havailable : s.available with
  | false =>
      simp [closeNote?, havailable, tell, LinkEvent.sentIn]
  | true =>
      exact handed_tell havailable (s.closeNote? fileName)

theorem available_of_handed {s : Session} {op : Operation} (h : s.handed op ≠ []) :
    s.available = true := by
  rw [← Bool.not_eq_false]
  intro hstopped
  refine h ?_
  cases op with
  | sync fileName version text =>
      rw [handed_sync, syncNote?, hstopped]
      rfl
  | close fileName =>
      rw [handed_close, closeNote?, hstopped, Bool.and_false]
      rfl
  | introduce | stop | link =>
      rfl

theorem tell_cases {s : Session} (hrunning : s.running = true)
    (hattached : forall l, s.link = some l -> l.running = true -> l.attached = true)
    (note : String × Json) :
    ((s.tell (some note)).session = s ∧
      LinkEvent.sentIn (s.tell (some note)).events = [noteMessage note]) ∨
    (s.tell (some note)).session.running = false ∧
      LinkEvent.sentIn (s.tell (some note)).events = [] := by
  rw [running] at hrunning
  cases hlink : s.link with
  | none =>
      simp [hlink] at hrunning
  | some l =>
      have hl : l.attached = true := hattached l hlink (by simpa [hlink] using hrunning)
      have hsent := l.sentIn_send (noteMessage note)
      simp only [tell, onLink, hlink]
      cases hbroken : l.broken with
      | false =>
          refine Or.inl ⟨?_, hsent.trans (if_pos ⟨hl, hbroken⟩)⟩
          have hsame : (Link.notify note.1 note.2 l).link = l := by
            simp [Link.notify, Link.send, hl, hbroken]
          rw [hsame, ← hlink]
      | true =>
          refine Or.inr ⟨?_, hsent.trans (if_neg (by simp [hbroken]))⟩
          simp [running, Link.notify, Link.send, hl, hbroken, Link.stop]

theorem tell_initialized (s : Session) (note? : Option (String × Json)) :
    (s.tell note?).session.initialized = s.initialized := by
  cases note? with
  | none =>
      rfl
  | some note =>
      simp only [tell, onLink]
      split
      · rfl
      · rfl

/-- The link of a session, if it has one, runs on with its process or has ended. -/
def Outlives (s after : Session) : Prop :=
  forall l, after.link = some l -> exists before, s.link = some before ∧ before.Outlives l

theorem Outlives.running {s after : Session} (h : s.Outlives after)
    (hrunning : after.running = true) : s.running = true := by
  rw [Session.running] at hrunning ⊢
  cases hafter : after.link with
  | none =>
      simp [hafter] at hrunning
  | some l =>
      rcases h l hafter with ⟨before, hbefore, ⟨hsame, _⟩ | hended⟩
      · simpa [hafter, hbefore, hsame] using hrunning
      · simp [hafter, hended] at hrunning

theorem Outlives.refl (s : Session) : s.Outlives s :=
  fun l hl => ⟨l, hl, Link.Outlives.refl l⟩

theorem Outlives.trans {s middle after : Session} (h : s.Outlives middle)
    (hafter : middle.Outlives after) : s.Outlives after := by
  intro l hl
  rcases hafter l hl with ⟨l', hl', hrest⟩
  rcases h l' hl' with ⟨l'', hl'', hfirst⟩
  exact ⟨l'', hl'', hfirst.trans hrest⟩

theorem onLink_outlives {f : Link -> Linked} (h : forall l, Link.Outlives l (f l).link)
    (s : Session) : s.Outlives (s.onLink f).session := by
  unfold onLink
  split
  · exact Outlives.refl s
  · next l hl =>
      intro l' hl'
      cases hl'
      exact ⟨l, hl, h l⟩

theorem tell_outlives (s : Session) (note? : Option (String × Json)) :
    s.Outlives (s.tell note?).session := by
  cases note? with
  | none =>
      exact Outlives.refl s
  | some note =>
      exact onLink_outlives (Link.send_outlives _) s

theorem ask_outlives (reply : List (String × Json)) (method : String) (params : Json)
    (s : Session) : s.Outlives (s.ask reply method params).2.session := by
  unfold ask
  split
  · exact Outlives.refl s
  · next l hl =>
      intro l' hl'
      cases hl'
      exact ⟨l, hl, l.ask_outlives reply method params⟩

theorem introduce_outlives (reply : List (String × Json)) (params : Json) (s : Session) :
    s.Outlives (s.introduce reply params).2.session := by
  have hasked := s.ask_outlives reply "initialize" params
  unfold introduce
  split
  · exact Outlives.refl s
  · simp only
    split
    · exact hasked
    · exact hasked.trans (onLink_outlives (Link.send_outlives _) _)

theorem introduce_initialized {reply : List (String × Json)} {params : Json} {s : Session}
    (h : (s.introduce reply params).2.session.initialized = false) : s.initialized = false := by
  unfold introduce at h
  split at h
  · exact h
  · next l hl =>
      simp only at h
      split at h
      · simpa only [ask, hl] using h
      · cases h

theorem onLink_initialized (f : Link -> Linked) (s : Session) :
    (s.onLink f).session.initialized = s.initialized ∧ (s.onLink f).session.files = s.files := by
  unfold onLink
  split
  · exact ⟨rfl, rfl⟩
  · exact ⟨rfl, rfl⟩

theorem onLink_aside {f : Link -> Linked}
    (h : forall l m, m ∈ LinkEvent.sentIn (f l).events -> Aside m) (s : Session) :
    forall m, m ∈ LinkEvent.sentIn (s.onLink f).events -> Aside m := by
  unfold onLink
  split
  · exact fun _ hm => (nomatch hm)
  · exact fun m hm => h _ m hm

theorem apply_initialized {op : Operation} {s : Session} (hintroduces : op.introduces = false)
    (h : (op.apply s).session.initialized = true) : s.initialized = true := by
  cases op with
  | introduce reply params =>
      cases hintroduces
  | sync fileName version text =>
      change (s.sync fileName version text).session.initialized = true at h
      rw [sync_eq] at h
      exact (s.tell_initialized _).symm.trans h
  | close fileName =>
      change (s.close fileName).session.initialized = true at h
      rw [close_eq] at h
      exact (s.tell_initialized _).symm.trans h
  | stop =>
      cases h
  | link operation =>
      exact (onLink_initialized operation.apply s).1.symm.trans h

theorem apply_outlives {op : Operation} (hbegins : op.begins = false) (hpolite : op.IsPolite)
    (s : Session) : s.Outlives (op.apply s).session := by
  cases op with
  | introduce reply params =>
      exact s.introduce_outlives reply params
  | sync fileName version text =>
      show s.Outlives (s.sync fileName version text).session
      rw [sync_eq]
      exact s.tell_outlives _
  | close fileName =>
      show s.Outlives (s.close fileName).session
      rw [close_eq]
      exact s.tell_outlives _
  | stop =>
      intro l hl
      rcases Option.map_eq_some_iff.mp hl with ⟨before, hbefore, rfl⟩
      exact ⟨before, hbefore, Or.inr rfl⟩
  | link operation =>
      exact onLink_outlives (fun l => (Link.Operation.apply_calm hbegins hpolite l).outlives) s

/-!
# What notes say
-/

theorem openAfter_syncNote {s : Session} {fileName text : Text} {version : Int}
    {note : String × Json} (h : s.syncNote? fileName version text = some note) (name : Text)
    (file : Option OpenFile) :
    openAfter name file (noteMessage note) =
      if fileName = name then some ⟨version, text⟩ else file := by
  unfold syncNote? at h
  split at h
  · cases h
  · split at h
    · cases h
      rw [noteMessage, openAfter, told_opening]
    · split at h
      · cases h
      · cases h
        rw [noteMessage, openAfter, told_change]
        simp

/-- What the link is told of a file is permitted, if the session holds the file as it is open. -/
theorem syncNote_permitted {s : Session} {fileName text : Text} {version : Int}
    {note : String × Json} (h : s.syncNote? fileName version text = some note) {name : Text}
    {file : Option OpenFile} (hfile : Keyed.get? name s.files = file.map OpenFile.synced) :
    Permitted name file (noteMessage note) := by
  unfold syncNote? at h
  split at h
  · cases h
  · split at h
    · next hnone =>
        cases h
        rw [noteMessage, Permitted, told_opening]
        rintro rfl
        rw [hnone] at hfile
        exact Option.map_eq_none_iff.mp hfile.symm
    · next synced hsome =>
        split at h
        · cases h
        · next hversion =>
            cases h
            rw [noteMessage, Permitted, told_change]
            rintro rfl
            rw [hsome] at hfile
            rcases Option.map_eq_some_iff.mp hfile.symm with ⟨f, rfl, rfl⟩
            exact ⟨rfl, f, rfl, hversion⟩

theorem openAfter_closeNote {s : Session} {fileName : Text} {note : String × Json}
    (h : s.closeNote? fileName = some note) (name : Text) (file : Option OpenFile) :
    openAfter name file (noteMessage note) = if fileName = name then none else file := by
  unfold closeNote? at h
  split at h
  · cases h
    rw [noteMessage, openAfter, told_closing]
  · cases h

theorem closeNote_permitted {s : Session} {fileName : Text} {note : String × Json}
    (h : s.closeNote? fileName = some note) {name : Text} {file : Option OpenFile}
    (hfile : Keyed.get? name s.files = file.map OpenFile.synced) :
    Permitted name file (noteMessage note) := by
  unfold closeNote? at h
  split at h
  · next hknown =>
      cases h
      rw [noteMessage, Permitted, told_closing]
      rintro rfl
      have hsome : (Keyed.get? fileName s.files).isSome = true :=
        (Bool.and_eq_true_iff.mp hknown).1
      rw [hfile, Option.isSome_map] at hsome
      exact hsome
  · cases h

end Session

end SfcServer
