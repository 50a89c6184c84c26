import SfcServer.Engine.Session
import SfcServer.Proofs.Keyed
import SfcServer.Server.Request

/-!
# What the engine was sent

The engine knows the text of a file from the messages it was sent: the last one that opened
or changed the file, unless the file was closed after it.  A session sends such messages
only when it synchronizes or closes a file; all other talk is about no text.
-/

namespace SfcServer

/-!
# Reading messages
-/

def textAfter (fileName : Text) (held : Option Text) (message : Json) : Option Text :=
  match (Call.ofJson? message).bind Call.message? with
  | some (.opened uri text _) => if uri = fileName then some text else held
  | some (.changed uri texts _) => if uri = fileName then texts.getLast?.or held else held
  | some (.closed uri) => if uri = fileName then none else held
  | _ => held

/-- The text that a file was last sent with, since it was closed. -/
def lastText (fileName : Text) (sent : List Json) : Option Text :=
  sent.foldl (textAfter fileName) none

def Aside (message : Json) : Prop :=
  forall fileName held, textAfter fileName held message = held

theorem lastText_append (fileName : Text) (sent more : List Json) :
    lastText fileName (sent ++ more) = more.foldl (textAfter fileName) (lastText fileName sent) :=
  List.foldl_append

theorem lastText_aside {sent more : List Json} (h : forall m, m ∈ more -> Aside m)
    (fileName : Text) : lastText fileName (sent ++ more) = lastText fileName sent := by
  rw [lastText_append]
  induction more with
  | nil =>
      rfl
  | cons m rest ih =>
      rw [List.foldl_cons, h m List.mem_cons_self]
      exact ih fun m' hm' => h m' (List.mem_cons_of_mem _ hm')

def Message.setsText : Message -> Bool
  | .opened .. | .changed .. | .closed .. => true
  | _ => false

theorem Aside.of_message? {message : Json}
    (h : forall m, (Call.ofJson? message).bind Call.message? = some m -> m.setsText = false) :
    Aside message := by
  intro fileName held
  unfold textAfter
  split
  · next heq =>
      cases h _ heq
  · next heq =>
      cases h _ heq
  · next heq =>
      cases h _ heq
  · rfl

namespace Call

def textMethods : List String :=
  ["textDocument/didOpen", "textDocument/didChange", "textDocument/didClose"]

theorem setsText_of_message? {c : Call} {m : Message} (h : c.message? = some m)
    (hmethod : c.method ∉ textMethods) : m.setsText = false := by
  simp only [textMethods, List.mem_cons, List.not_mem_nil, or_false, not_or] at hmethod
  unfold message? at h
  simp only at h
  split at h
  all_goals simp only [Option.pure_def, Option.bind_eq_bind, Option.bind_eq_some_iff,
    Option.map_eq_some_iff, Option.some.injEq, reduceCtorEq] at h
  case h_3 heq | h_4 heq | h_5 heq => simp_all
  case h_7 | h_8 | h_9 | h_10 =>
    rcases h with ⟨_, _, _, _, rfl⟩
    rfl
  case h_11 =>
    rcases h with ⟨_, _, rfl⟩
    rfl
  all_goals
    subst h
    rfl

end Call

theorem aside_of_method {message : Json} (method : String)
    (h : message.member? "method" = some (.str method)) (hmethod : method ∉ Call.textMethods) :
    Aside message := by
  apply Aside.of_message?
  intro m hm
  rw [Call.ofJson?, h, Option.bind_some] at hm
  exact Call.setsText_of_message? hm hmethod

theorem aside_of_answer {message : Json} (h : message.member? "method" = none) :
    Aside message := by
  apply Aside.of_message?
  intro m hm
  rw [Call.ofJson?, h] at hm
  cases hm

/-!
# Links
-/

namespace LinkEvent

theorem sentIn_append (a b : List LinkEvent) : sentIn (a ++ b) = sentIn a ++ sentIn b :=
  List.filterMap_append

end LinkEvent

namespace Link

def Sound (l : Link) : Prop :=
  l.running = true -> l.attached = true ∧ l.broken = false

/-- An operation of a link that is about the text of no file. -/
structure Talks (l : Link) (next : Linked) : Prop where
  sound : l.Sound -> next.link.Sound
  aside : forall m, m ∈ LinkEvent.sentIn next.events -> Aside m

theorem Talks.silent {l next : Link} {events : List LinkEvent} (hlink : l.Sound -> next.Sound)
    (hevents : LinkEvent.sentIn events = []) : l.Talks ⟨next, events⟩ where
  sound := hlink
  aside m hm := by
    rw [hevents] at hm
    cases hm

theorem send_link (message : Json) (l : Link) :
    (l.send message).link = l ∨ (l.send message).link.running = false := by
  unfold send
  split
  · exact Or.inl rfl
  · split
    · exact Or.inr rfl
    · exact Or.inl rfl

theorem send_sound {message : Json} {l : Link} (h : l.Sound) : (l.send message).link.Sound := by
  rcases l.send_link message with heq | hstopped
  · rw [heq]
    exact h
  · intro hrunning
    rw [hstopped] at hrunning
    cases hrunning

theorem sentIn_failPending (reason : String) (l : Link) :
    LinkEvent.sentIn (l.failPending reason).events = [] := by
  simp [failPending, LinkEvent.sentIn, List.filterMap_map]

theorem sentIn_send (message : Json) (l : Link) :
    LinkEvent.sentIn (l.send message).events =
      if l.attached = true ∧ l.broken = false then [message] else [] := by
  unfold send
  cases hattached : l.attached with
  | false =>
      simp [LinkEvent.sentIn]
  | true =>
      cases hbroken : l.broken with
      | false =>
          simp [LinkEvent.sentIn]
      | true =>
          exact l.sentIn_failPending "process died"

theorem send_talks {message : Json} (h : Aside message) (l : Link) : l.Talks (l.send message) where
  sound := send_sound
  aside m hm := by
    rw [sentIn_send] at hm
    split at hm
    · rw [List.mem_singleton.mp hm]
      exact h
    · cases hm

theorem answer_talks (id : Json) (name : String) (hname : name ≠ "method") (value : Json)
    (l : Link) : l.Talks (l.answer id (name, value)) := by
  refine send_talks (aside_of_answer ?_) l
  simp [Json.member?, Json.lookup, version, hname]

theorem takeAnswer_talks (id : Json) (members : List (String × Json)) (l : Link) :
    l.Talks (l.takeAnswer id members) := by
  unfold takeAnswer
  split
  · exact Talks.silent (fun h => h) rfl
  · exact Talks.silent (fun h => h) rfl

theorem answerRequest?_talks {id method params : Json} {l : Link} {next : Linked}
    (h : l.answerRequest? id method params = some next) : l.Talks next := by
  unfold answerRequest? at h
  split at h
  · rcases Option.map_eq_some_iff.mp h with ⟨result, _, rfl⟩
    exact answer_talks id "result" (by decide) result l
  · cases h
    exact answer_talks id "result" (by decide) .null l
  · cases h
    exact answer_talks id "result" (by decide) .null l
  · cases h
    have hanswer := answer_talks id "error" (by decide)
      (.obj [("code", .int (-32601)), ("message", .str "Method not found")]) l
    exact ⟨hanswer.sound, hanswer.aside⟩

theorem takeNotification?_talks {method params : Option Json} {l : Link} {next : Linked}
    (h : l.takeNotification? method params = some next) : l.Talks next := by
  have hsame : forall params, l.Talks ⟨l, [.diagnostics params]⟩ :=
    fun _ => Talks.silent (fun h => h) rfl
  unfold takeNotification? at h
  split at h
  · split at h
    · cases h
      exact hsame _
    · cases h
      exact Talks.silent (fun h => h) rfl
  · split at h
    · cases h
      exact Talks.silent (fun h => h) rfl
    · cases h
  · cases h
    exact Talks.silent (fun h => h) rfl

theorem takeMessage?_talks {message : Json} {l : Link} {next : Linked}
    (h : l.takeMessage? message = some next) : l.Talks next := by
  unfold takeMessage? at h
  split at h
  · split at h
    · split at h
      · cases h
        exact takeAnswer_talks _ _ l
      · cases h
    · exact answerRequest?_talks h
    · exact takeNotification?_talks h
  · cases h

theorem takeMessage?_getD_talks (message : Json) (n : Notice) (l : Link) :
    l.Talks ((l.takeMessage? message).getD ⟨l, [.notice n]⟩) := by
  cases h : l.takeMessage? message with
  | none =>
      exact Talks.silent (fun h => h) rfl
  | some next =>
      exact takeMessage?_talks h

theorem Talks.andThen {l : Link} {first : Linked} {f : Link -> Linked} (h : l.Talks first)
    (hf : forall link, Talks link (f link)) : l.Talks (first.andThen f) where
  sound hl := (hf _).sound (h.sound hl)
  aside m hm := by
    simp only [Linked.andThen, LinkEvent.sentIn_append, List.mem_append] at hm
    rcases hm with hm | hm
    · exact h.aside m hm
    · exact (hf _).aside m hm

theorem request_talks {method : String} (h : method ∉ Call.textMethods) (params : Json)
    (l : Link) : l.Talks (l.request method.toList params) := by
  have haside : Aside (.obj [version, ("id", .ofNat (l.lastId + 1)),
      ("method", .ofText method.toList), ("params", params)]) :=
    aside_of_method method (by simp [Json.member?, Json.lookup, version, Json.ofText]) h
  have htalks := send_talks haside
    { l with lastId := l.lastId + 1, pending := l.pending ++ [(l.lastId + 1, method.toList)] }
  exact ⟨htalks.sound, htalks.aside⟩

theorem ask_talks (reply : List (String × Json)) {method : String}
    (h : method ∉ Call.textMethods) (params : Json) (l : Link) :
    l.Talks (l.ask reply method params).2 :=
  (request_talks h params l).andThen (takeMessage?_getD_talks _ _)

end Link

/-!
# Sessions
-/

namespace Session

def Sound (s : Session) : Prop :=
  forall l, s.link = some l -> l.Sound

/-- An operation of a session that is about the text of no file. -/
structure Talks (s : Session) (step : Sessioned) : Prop where
  files : step.session.files = s.files
  sound : s.Sound -> step.session.Sound
  aside : forall m, m ∈ LinkEvent.sentIn step.events -> Aside m

theorem Talks.silent (s : Session) : s.Talks ⟨s, []⟩ :=
  ⟨rfl, fun h => h, fun _ hm => nomatch hm⟩

theorem Talks.ofLink {s : Session} {l : Link} (hl : s.link = some l) {next : Linked}
    (h : l.Talks next) : s.Talks ⟨{ s with link := some next.link }, next.events⟩ where
  files := rfl
  sound hs l' hl' := by
    cases hl'
    exact h.sound (hs l hl)
  aside := h.aside

theorem onLink_talks {f : Link -> Linked} (h : forall l, Link.Talks l (f l)) (s : Session) :
    s.Talks (s.onLink f) := by
  unfold onLink
  split
  · exact Talks.silent s
  · next l hl =>
      exact Talks.ofLink hl (h l)

theorem ask_talks (reply : List (String × Json)) (method : String)
    (h : method ∉ Call.textMethods) (params : Json) (s : Session) :
    s.Talks (s.ask reply method params).2 := by
  unfold ask
  split
  · exact Talks.silent s
  · next l hl =>
      exact Talks.ofLink hl (Link.ask_talks reply h params l)

theorem query_talks {α : Type} (reply : List (String × Json)) {method : String}
    (h : method ∉ Call.textMethods) (fileName : Text) (offset : Int)
    (more : List (String × Json)) (absent : α) (read : Lines -> Json -> Except Fault α)
    (s : Session) : s.Talks (s.query reply method fileName offset more absent read).2 := by
  unfold query
  split
  · exact Talks.silent s
  · exact ask_talks reply method h _ s

theorem introduce_talks (reply : List (String × Json)) (params : Json) (s : Session) :
    s.Talks (s.introduce reply params).2 := by
  have hasked := s.ask_talks reply "initialize" (by decide) params
  have haside : Aside (.obj [Link.version, ("method", .str "initialized"), ("params", .obj [])]) :=
    aside_of_method "initialized" rfl (by decide)
  unfold introduce
  split
  · exact Talks.silent s
  · simp only
    split
    · exact hasked
    · have htold := (s.ask reply "initialize" params).2.session.onLink_talks
        (Link.send_talks haside)
      refine ⟨htold.files.trans hasked.files, fun hs => htold.sound (hasked.sound hs), ?_⟩
      intro m hm
      rcases List.mem_append.mp (LinkEvent.sentIn_append _ _ ▸ hm) with hm | hm
      · exact hasked.aside m hm
      · exact htold.aside m hm

/-!
# Texts of files
-/

def notification (method : String) (params : Json) : Json :=
  .obj [Link.version, ("method", .str method), ("params", params)]

def Told (message : Json) (m : Message) : Prop :=
  (Call.ofJson? message).bind Call.message? = some m

theorem told_opening (fileName text : Text) (version : Int) :
    Told (notification "textDocument/didOpen" (opening fileName version text))
      (.opened fileName text version) := by
  have hcall : Call.ofJson? (notification "textDocument/didOpen" (opening fileName version text)) =
      some ⟨none, "textDocument/didOpen", opening fileName version text⟩ := rfl
  rw [Told, hcall, Option.bind_some]
  simp [Call.message?, Call.uri?, Call.textAt?, Call.version?, Call.intAt?, opening,
    Json.member?, Json.lookup, Json.ofText, Json.asInt?]

theorem told_change (fileName text : Text) (version : Int) :
    Told (notification "textDocument/didChange" (change fileName version text))
      (.changed fileName [text] version) := by
  have hcall : Call.ofJson? (notification "textDocument/didChange" (change fileName version text)) =
      some ⟨none, "textDocument/didChange", change fileName version text⟩ := rfl
  rw [Told, hcall, Option.bind_some]
  simp [Call.message?, Call.uri?, Call.textAt?, Call.version?, Call.intAt?, Call.itemsAt, change,
    Json.member?, Json.lookup, Json.ofText, Json.asInt?]

theorem told_closing (fileName : Text) :
    Told (notification "textDocument/didClose" (.obj [reference fileName])) (.closed fileName) := by
  have hcall : Call.ofJson? (notification "textDocument/didClose" (.obj [reference fileName])) =
      some ⟨none, "textDocument/didClose", .obj [reference fileName]⟩ := rfl
  rw [Told, hcall, Option.bind_some]
  simp [Call.message?, Call.uri?, Call.textAt?, reference, Json.member?, Json.lookup, Json.ofText]

theorem textAfter_opening (name fileName text : Text) (version : Int) (held : Option Text) :
    textAfter name held
        (notification "textDocument/didOpen" (opening fileName version text)) =
      if fileName = name then some text else held := by
  rw [textAfter, told_opening]

theorem textAfter_change (name fileName text : Text) (version : Int) (held : Option Text) :
    textAfter name held
        (notification "textDocument/didChange" (change fileName version text)) =
      if fileName = name then some text else held := by
  rw [textAfter, told_change]
  simp

theorem textAfter_closing (name fileName : Text) (held : Option Text) :
    textAfter name held
        (notification "textDocument/didClose" (.obj [reference fileName])) =
      if fileName = name then none else held := by
  rw [textAfter, told_closing]

theorem onLink_notify {s : Session} (hsound : s.Sound) (havailable : s.available = true)
    (method : String) (params : Json) :
    LinkEvent.sentIn (s.onLink (Link.notify method params)).events =
        [notification method params] ∧
      (s.onLink (Link.notify method params)).session.Sound := by
  unfold available at havailable
  unfold onLink
  cases hlink : s.link with
  | none =>
      simp [hlink] at havailable
  | some l =>
      have hl := hsound l hlink
      have hrunning : l.running = true := by
        simpa [hlink] using (Bool.and_eq_true_iff.mp havailable).2
      refine ⟨?_, ?_⟩
      · exact (l.sentIn_send _).trans (if_pos (hl hrunning))
      · intro l' hl'
        cases hl'
        exact Link.send_sound hl

/--
Synchronizing a file sends nothing if the session runs no more, or holds this version of the
file; otherwise the file is held, and the text is what was last sent.
-/
theorem sync_cases {s : Session} (hsound : s.Sound) (fileName : Text) (version : Int)
    (text : Text) :
    (s.sync fileName version text = ⟨s, []⟩ ∧ (s.available = true ->
      exists synced, Keyed.get? fileName s.files = some synced ∧ synced.version = version)) ∨
    (exists lines, (s.sync fileName version text).session.files =
        Keyed.put fileName ⟨version, lines⟩ s.files ∧
      (s.sync fileName version text).session.Sound ∧
      forall name held, (LinkEvent.sentIn (s.sync fileName version text).events).foldl
        (textAfter name) held = if fileName = name then some text else held) := by
  unfold sync
  split
  · next hstopped =>
      refine Or.inl ⟨rfl, fun havailable => ?_⟩
      rw [havailable] at hstopped
      cases hstopped
  · next hrunning =>
      have havailable : s.available = true := by
        simpa using hrunning
      simp only
      split
      · have hnotify := onLink_notify hsound havailable "textDocument/didOpen"
          (opening fileName version text)
        refine Or.inr ⟨Lines.ofText text, rfl, hnotify.2, ?_⟩
        intro name held
        rw [hnotify.1]
        exact textAfter_opening name fileName text version held
      · next synced hsynced =>
          split
          · next hversion =>
              exact Or.inl ⟨rfl, fun _ => ⟨synced, hsynced, hversion⟩⟩
          · have hnotify := onLink_notify hsound havailable "textDocument/didChange"
              (change fileName version text)
            refine Or.inr ⟨Lines.ofText text, rfl, hnotify.2, ?_⟩
            intro name held
            rw [hnotify.1]
            exact textAfter_change name fileName text version held

theorem close_spec {s : Session} (hsound : s.Sound) (fileName : Text) :
    (s.close fileName).session.files = Keyed.erase fileName s.files ∧
      (s.close fileName).session.Sound ∧
      forall name held, fileName ≠ name ->
        (LinkEvent.sentIn (s.close fileName).events).foldl (textAfter name) held = held := by
  unfold close
  simp only
  split
  · next hknown =>
      have havailable := (Bool.and_eq_true_iff.mp hknown).2
      have hnotify := onLink_notify (s := { s with files := Keyed.erase fileName s.files })
        hsound havailable "textDocument/didClose" (.obj [reference fileName])
      refine ⟨?_, hnotify.2, ?_⟩
      · unfold onLink
        split <;> rfl
      · intro name held hname
        rw [hnotify.1]
        exact (textAfter_closing name fileName held).trans (if_neg hname)
  · exact ⟨rfl, hsound, fun _ _ _ => rfl⟩

end Session
end SfcServer
