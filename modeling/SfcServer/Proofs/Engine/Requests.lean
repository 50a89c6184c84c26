import SfcServer.Proofs.Engine.Turns

/-!
# Requests and how they end

The link numbers the requests that it sends.  A request ends with the first message after it that
answers it, or when everything that waits is given up: when a write meets a broken pipe, and
when the output of the process ends.  Nothing else ends a request, and none ends twice.

The turns of an operation are found without looking at the requests that wait.  They tell all
that the operation does to the requests.
-/

namespace SfcServer

theorem Json.equalsInt_unique {j : Json} {a b : Int} (ha : j.equalsInt a = true)
    (hb : j.equalsInt b = true) : a = b := by
  cases j with
  | null | str | arr | obj =>
      cases ha
  | bool t =>
      exact (beq_iff_eq.mp ha).symm.trans (beq_iff_eq.mp hb)
  | int n =>
      exact (beq_iff_eq.mp ha).symm.trans (beq_iff_eq.mp hb)
  | real x =>
      exact Option.some.inj ((beq_iff_eq.mp ha).symm.trans (beq_iff_eq.mp hb))

namespace Frame

def Reading.body? : Reading -> Option Bytes
  | .message body _ => some body
  | _ => none

def bodies : Bytes -> List Bytes
  | [] => []
  | b :: rest =>
      let reading := read (b :: rest)
      reading.body?.toList ++ bodies (rest.drop (reading.length - 1))
termination_by stream => stream.length
decreasing_by exact length_drop_lt_cons ..

theorem bodies_cons (b : UInt8) (rest : Bytes) :
    bodies (b :: rest) = (read (b :: rest)).body?.toList ++
      bodies (rest.drop ((read (b :: rest)).length - 1)) := by
  rw [bodies]

end Frame

namespace Link

open LinkEvent

/-!
# Operations
-/

def isAnswered (body : Bytes) : Bool :=
  match message? body with
  | some (.obj members) =>
      match Json.lookup "id" members, Json.lookup "method" members with
      | some _, some (.str "workspace/configuration") =>
          (configuration? ((Json.lookup "params" members).getD .null)).isSome
      | some _, some _ => true
      | _, _ => false
  | _ => false

def writeTurns (l : Link) : List Turn :=
  if l.attached && l.broken then [.failed "process died"] else []

def receiveTurns (body : Bytes) (l : Link) : List Turn :=
  .received body :: if isAnswered body then l.writeTurns else []

def receiveAllTurns : List Bytes -> Link -> List Turn
  | [], _ => []
  | body :: rest, l =>
      if l.running then l.receiveTurns body ++ receiveAllTurns rest (l.receive body).link else []

inductive Operation where
  | attach
  | start (executable : Option Text) (spawn : Spawn)
  | subscribe
  | request (method : Text) (params : Json)
  | notify (method : String) (params : Json)
  | receive (body : Bytes)
  | readAll (stream : Bytes)
  /-- A reader that takes one message at a time meets the end of the output. -/
  | outputEnds
  | breakPipe
  | stop

namespace Operation

def requested? : Operation -> Option Text
  | .request method _ => some method
  | _ => none

def apply (l : Link) : Operation -> Linked
  | .attach => ⟨l.attach, []⟩
  | .start executable spawn => (l.start executable spawn).2
  | .subscribe => ⟨{ l with subscribed := true }, []⟩
  | .request method params => l.request method params
  | .notify method params => l.notify method params
  | .receive body => l.receive body
  | .readAll stream => l.readAll stream
  | .outputEnds => l.failPending "stdout closed"
  | .breakPipe => ⟨{ l with broken := true }, []⟩
  | .stop => ⟨l.stop, []⟩

def turns (l : Link) : Operation -> List Turn
  | .request method _ => .issued (l.lastId + 1) method :: l.writeTurns
  | .notify .. => l.writeTurns
  | .receive body => l.receiveTurns body
  | .readAll stream =>
      if l.attached then receiveAllTurns (Frame.bodies stream) l ++ [.failed "stdout closed"]
      else []
  | .outputEnds => [.failed "stdout closed"]
  | .attach | .start .. | .subscribe | .breakPipe | .stop => []

end Operation

/-!
# What operations do
-/

theorem resolvedIn_append (a b : List LinkEvent) :
    resolvedIn (a ++ b) = resolvedIn a ++ resolvedIn b :=
  List.filterMap_append

/-- The requests that wait have numbers of their own, that were given out. -/
structure Numbered (l : Link) : Prop where
  nodup : (l.pending.map Prod.fst).Nodup
  given : forall n, n ∈ l.pending.map Prod.fst -> n ≤ l.lastId

/-- What happens to the requests of a link is told by turns. -/
structure Follows (l : Link) (turns : List Turn) (next : Linked) : Prop where
  pending : next.link.pending = turns.foldl Turn.leaves l.pending
  resolved : resolvedIn next.events = endedAlong l.pending turns
  numbers : (issuedIn turns).map Prod.fst = List.range' (l.lastId + 1) (issuedIn turns).length
  lastId : next.link.lastId = l.lastId + (issuedIn turns).length

namespace Follows

variable {l : Link}

theorem numbered {turns : List Turn} {next : Linked} (h : Follows l turns next)
    (hl : l.Numbered) : next.link.Numbered := by
  have hperm := waiting_ended_perm l.pending turns
  rw [← h.pending, List.map_append, h.numbers] at hperm
  have hnodup : (l.pending.map Prod.fst ++
      List.range' (l.lastId + 1) (issuedIn turns).length).Nodup := by
    refine List.nodup_append.mpr ⟨hl.nodup, List.nodup_range', fun n hn m hm => ?_⟩
    have hle := hl.given n hn
    have hm := List.mem_range'_1.mp hm
    omega
  constructor
  · exact (List.nodup_append.mp (hperm.nodup_iff.mpr hnodup)).1
  · intro n hn
    rw [h.lastId]
    rcases List.mem_append.mp (hperm.subset (List.mem_append_left _ hn)) with hold | hnew
    · exact Nat.le_add_right_of_le (hl.given n hold)
    · have hnew := List.mem_range'_1.mp hnew
      omega

theorem silent {next : Linked} (hpending : next.link.pending = l.pending)
    (hlast : next.link.lastId = l.lastId) (hevents : resolvedIn next.events = []) :
    Follows l [] next where
  pending := hpending
  resolved := hevents
  numbers := rfl
  lastId := hlast

theorem append {turns more : List Turn} {next last : Linked} (h : Follows l turns next)
    (hmore : Follows next.link more last) :
    Follows l (turns ++ more) ⟨last.link, next.events ++ last.events⟩ where
  pending := by
    rw [hmore.pending, h.pending, List.foldl_append]
  resolved := by
    rw [resolvedIn_append, endedAlong_append, h.resolved, hmore.resolved, h.pending]
  numbers := by
    rw [issuedIn_append, List.map_append, List.length_append, h.numbers, hmore.numbers, h.lastId,
      Nat.add_right_comm, List.range'_append_1]
  lastId := by
    rw [hmore.lastId, h.lastId, issuedIn_append, List.length_append, Nat.add_assoc]

theorem turn {t : Turn} {next : Linked} (hopened : t.opened = [])
    (hpending : next.link.pending =
      l.pending.filter fun (id, method) => (t.ending? id method).isNone)
    (hevents : resolvedIn next.events = t.ends l.pending)
    (hlast : next.link.lastId = l.lastId) : Follows l [t] next where
  pending := by
    rw [hpending, List.foldl_cons, List.foldl_nil, Turn.leaves, hopened, List.append_nil]
  resolved := by
    rw [hevents, endedAlong, endedAlong, List.append_nil]
  numbers := by
    simp [issuedIn, hopened]
  lastId := by
    simp [issuedIn, hopened, hlast]

theorem emptied (turns : List Turn) {reason : String} {next : Linked}
    (h : Follows l (turns ++ [.failed reason]) next) : next.link.pending = [] := by
  rw [h.pending, List.foldl_append]
  simp [Turn.leaves, Turn.ending?, Turn.opened]

end Follows

/-!
## Writing
-/

theorem writeTurns_broken {l : Link} (hattached : l.attached = true) (hbroken : l.broken = true) :
    l.writeTurns = [.failed "process died"] := by
  simp [writeTurns, hattached, hbroken]

theorem failPending_follows (reason : String) (l : Link) :
    Follows l [.failed reason] (l.failPending reason) := by
  apply Follows.turn rfl
  · simp [failPending, Turn.ending?]
  · simp [failPending, resolvedIn, Turn.ends, Turn.ending?, List.filterMap_map]
  · rfl

theorem send_follows (message : Json) (l : Link) :
    Follows l l.writeTurns (l.send message) := by
  unfold send writeTurns
  cases hattached : l.attached with
  | false =>
      exact .silent rfl rfl rfl
  | true =>
      cases hbroken : l.broken with
      | false =>
          exact .silent rfl rfl rfl
      | true =>
          have hfail := failPending_follows "process died" l
          exact ⟨hfail.pending, hfail.resolved, hfail.numbers, hfail.lastId⟩

theorem request_follows (method : Text) (params : Json) (l : Link) :
    Follows l (.issued (l.lastId + 1) method :: l.writeTurns) (l.request method params) := by
  let numbered : Link :=
    { l with lastId := l.lastId + 1, pending := l.pending ++ [(l.lastId + 1, method)] }
  have hissued : Follows l [.issued (l.lastId + 1) method] ⟨numbered, []⟩ := by
    constructor
    · simp [numbered, Turn.leaves, Turn.ending?, Turn.opened]
    · simp [resolvedIn, endedAlong, Turn.ends, Turn.ending?]
    · rfl
    · rfl
  exact hissued.append (send_follows _ numbered)

/-!
## Receiving
-/

theorem Follows.behind {body : Bytes} {l : Link}
    (hquiet : forall id, id ∈ l.pending.map Prod.fst -> answerTo? id body = none)
    {turns : List Turn} {next : Linked} (h : Follows l turns next) :
    Follows l (.received body :: turns) next := by
  rcases Turn.received_unrelated hquiet with ⟨hleaves, hends⟩
  constructor
  · rw [List.foldl_cons, hleaves, h.pending]
  · rw [endedAlong, hleaves, hends, h.resolved, List.nil_append]
  · exact h.numbers
  · exact h.lastId

theorem filterMap_unique {α β : Type} {items : List (Nat × α)}
    (hnodup : (items.map Prod.fst).Nodup) {n : Nat} {a : α} (hmem : (n, a) ∈ items)
    {f : Nat × α -> Option β} {b : β}
    (hother : forall p : Nat × α, p.1 ≠ n -> f p = none) (hn : f (n, a) = some b) :
    items.filterMap f = [b] := by
  induction items with
  | nil =>
      cases hmem
  | cons p rest ih =>
      have hrest := List.nodup_cons.mp hnodup
      cases hmem with
      | head =>
          rw [List.filterMap_cons_some hn]
          congr 1
          refine List.filterMap_eq_nil_iff.mpr fun q hq => hother q fun heq => ?_
          exact hrest.1 (List.mem_map.mpr ⟨q, hq, heq⟩)
      | tail _ hmem =>
          have hne : p.1 ≠ n := fun heq =>
            hrest.1 (heq ▸ List.mem_map_of_mem hmem)
          rw [List.filterMap_cons_none (hother p hne)]
          exact ih hrest.2 hmem

theorem takeAnswer_follows {body : Bytes} {value : Json} {members : List (String × Json)}
    {l : Link} (hl : l.Numbered)
    (hanswer : forall id : Nat, answerTo? id body =
      if value.equalsInt id then some members else none) :
    Follows l [.received body] (l.takeAnswer value members) := by
  unfold takeAnswer
  cases hfind : l.pending.find? fun (n, _) => value.equalsInt n with
  | none =>
      refine .behind (fun id hid => ?_) (.silent rfl rfl rfl)
      rcases List.mem_map.mp hid with ⟨p, hp, rfl⟩
      rw [hanswer, if_neg (List.find?_eq_none.mp hfind p hp)]
  | some p =>
      obtain ⟨n, method⟩ := p
      have hn : value.equalsInt n = true := by
        simpa using List.find?_some hfind
      have hiff : forall m : Nat, value.equalsInt m = true ↔ m = n := by
        intro m
        constructor
        · intro hm
          exact Int.ofNat.inj (Json.equalsInt_unique hm hn)
        · rintro rfl
          exact hn
      refine Follows.turn rfl ?_ ?_ rfl
      · refine List.filter_congr fun p _ => ?_
        by_cases hp : p.1 = n
        · simp [Turn.ending?, hanswer, hp, hn]
        · simp [Turn.ending?, hanswer, hp, hiff]
      · refine (filterMap_unique hl.nodup (List.mem_of_find?_eq_some hfind) ?_ ?_).symm
        · intro p hp
          simp [Turn.ending?, hanswer, hp, hiff]
        · simp [Turn.ending?, hanswer, hn]

theorem answerRequest?_follows {id method params : Json} {l : Link} {next : Linked}
    (h : l.answerRequest? id method params = some next) : Follows l l.writeTurns next := by
  have hanswer : forall rest, Follows l l.writeTurns (l.answer id rest) :=
    fun rest => send_follows _ l
  unfold answerRequest? at h
  split at h
  · rcases Option.map_eq_some_iff.mp h with ⟨result, -, rfl⟩
    exact hanswer _
  · cases h
    exact hanswer _
  · cases h
    exact hanswer _
  · cases h
    have hrefused := hanswer ("error", .obj [("code", .int (-32601)),
      ("message", .str "Method not found")])
    exact ⟨hrefused.pending, hrefused.resolved, hrefused.numbers, hrefused.lastId⟩

theorem takeNotification?_link {method params : Option Json} {l : Link} {next : Linked}
    (h : l.takeNotification? method params = some next) :
    next.link = l ∧ resolvedIn next.events = [] := by
  unfold takeNotification? at h
  split at h
  · split at h
    all_goals
      cases h
      exact ⟨rfl, rfl⟩
  · split at h
    · cases h
      exact ⟨rfl, rfl⟩
    · cases h
  · cases h
    exact ⟨rfl, rfl⟩

def refused (l : Link) : Linked :=
  ⟨l, [.notice (.error "Failed to handle message")]⟩

theorem refused_follows (l : Link) : Follows l [] l.refused :=
  .silent rfl rfl rfl

theorem receive_eq (body : Bytes) (l : Link) :
    l.receive body =
      ((message? body).bind fun message => l.takeMessage? message).getD l.refused := by
  rw [receive]
  cases (message? body).bind fun message => l.takeMessage? message <;> rfl

/-- A request of the engine is answered, unless its parameters make no sense. -/
theorem isAnswered_eq {body : Bytes} {members : List (String × Json)} {id method : Json}
    (hmessage : message? body = some (.obj members))
    (hid : Json.lookup "id" members = some id)
    (hmethod : Json.lookup "method" members = some method) (l : Link) :
    isAnswered body =
      (l.answerRequest? id method ((Json.lookup "params" members).getD .null)).isSome := by
  unfold isAnswered
  rw [hmessage]
  simp only [hid, hmethod]
  unfold answerRequest?
  split
  · simp_all
  · split
    · simp_all
    all_goals rfl
  · simp_all

theorem answerTo?_of_message? {body : Bytes} {members : List (String × Json)} {value : Json}
    (hmessage : message? body = some (.obj members))
    (hvalue : Json.lookup "id" members = some value)
    (hmethod : Json.lookup "method" members = none) (id : Nat) :
    answerTo? id body = if value.equalsInt id then some members else none := by
  simp [answerTo?, hmessage, hvalue, hmethod]

theorem takeMessage?_follows {l : Link} (hl : l.Numbered) {body : Bytes}
    {members : List (String × Json)} (hmessage : message? body = some (.obj members)) :
    Follows l (l.receiveTurns body) ((l.takeMessage? (.obj members)).getD l.refused) := by
  rw [receiveTurns]
  cases hid : Json.lookup "id" members with
  | none =>
      have hquiet : forall id, answerTo? id body = none := by simp [answerTo?, hmessage, hid]
      have hanswered : isAnswered body = false := by simp [isAnswered, hmessage, hid]
      rw [hanswered, takeMessage?]
      simp only [hid]
      refine .behind (fun id _ => hquiet id) ?_
      cases htaken : l.takeNotification? (Json.lookup "method" members)
          (Json.lookup "params" members) with
      | none =>
          exact refused_follows l
      | some next =>
          have hnext := takeNotification?_link htaken
          exact .silent (congrArg Link.pending hnext.1) (congrArg Link.lastId hnext.1) hnext.2
  | some value =>
      cases hmethod : Json.lookup "method" members with
      | none =>
          have hanswer := answerTo?_of_message? hmessage hid hmethod
          have hanswered : isAnswered body = false := by
            simp [isAnswered, hmessage, hid, hmethod]
          rw [hanswered, takeMessage?]
          simp only [hid, hmethod]
          cases hcan : canBeId value with
          | true =>
              exact takeAnswer_follows hl hanswer
          | false =>
              refine .behind (fun id _ => ?_) (refused_follows l)
              cases value with
              | arr | obj =>
                  exact hanswer id
              | null | bool | int | real | str =>
                  cases hcan
      | some method =>
          have hquiet : forall id, answerTo? id body = none := by
            simp [answerTo?, hmessage, hid, hmethod]
          rw [isAnswered_eq hmessage hid hmethod l, takeMessage?]
          simp only [hid, hmethod]
          refine .behind (fun id _ => hquiet id) ?_
          cases hanswered : l.answerRequest? value method
              ((Json.lookup "params" members).getD .null) with
          | none =>
              exact refused_follows l
          | some next =>
              exact answerRequest?_follows hanswered

theorem receive_follows {l : Link} (hl : l.Numbered) (body : Bytes) :
    Follows l (l.receiveTurns body) (l.receive body) := by
  have hsenseless : (forall members, message? body ≠ some (.obj members)) ->
      Follows l (l.receiveTurns body) l.refused := by
    intro h
    have hquiet : forall id, answerTo? id body = none := by
      intro id
      unfold answerTo?
      split
      · next members hmessage =>
          exact absurd hmessage (h members)
      · rfl
    have hanswered : isAnswered body = false := by
      unfold isAnswered
      split
      · next members hmessage =>
          exact absurd hmessage (h members)
      · rfl
    rw [receiveTurns, hanswered]
    exact l.refused_follows.behind fun id _ => hquiet id
  rw [receive_eq]
  cases hmessage : message? body with
  | none =>
      exact hsenseless (by simp [hmessage])
  | some message =>
      cases message with
      | obj members =>
          exact takeMessage?_follows hl hmessage
      | null | bool | int | real | str | arr =>
          exact hsenseless (by simp [hmessage])

theorem receiveAllTurns_idle (bodies : List Bytes) {l : Link} (h : l.running = false) :
    receiveAllTurns bodies l = [] := by
  cases bodies with
  | nil =>
      rfl
  | cons body rest =>
      rw [receiveAllTurns, h]
      rfl

def takeReading (l : Link) : Frame.Reading -> Linked
  | .noise _ => ⟨l, []⟩
  | .unusable _ => ⟨l, [.notice (.error "Error parsing TypeScript server message")]⟩
  | .message body _ => l.receive body

theorem takeReading_follows {l : Link} (hl : l.Numbered) (hrunning : l.running = true)
    (reading : Frame.Reading) (bodies : List Bytes) :
    exists turns, Follows l turns (l.takeReading reading) ∧
      receiveAllTurns (reading.body?.toList ++ bodies) l =
        turns ++ receiveAllTurns bodies (l.takeReading reading).link := by
  cases reading with
  | noise n =>
      exact ⟨[], .silent rfl rfl rfl, rfl⟩
  | unusable n =>
      exact ⟨[], .silent rfl rfl rfl, rfl⟩
  | message body n =>
      exact ⟨l.receiveTurns body, receive_follows hl body, if_pos hrunning⟩

theorem readFrom_follows (stream : Bytes) {l : Link} (hl : l.Numbered) :
    Follows l (receiveAllTurns (Frame.bodies stream) l ++ [.failed "stdout closed"])
      (l.readFrom stream) := by
  fun_induction readFrom l stream with
  | case1 l =>
      rw [Frame.bodies]
      exact failPending_follows "stdout closed" l
  | case2 l b rest hidle =>
      rw [receiveAllTurns_idle _ (by simpa using hidle)]
      exact failPending_follows _ l
  | case3 l b rest hrunning reading taken last ih =>
      have hbodies : Frame.bodies (b :: rest) =
          reading.body?.toList ++ Frame.bodies (rest.drop (reading.length - 1)) :=
        Frame.bodies_cons b rest
      clear_value reading
      have htaken : taken = l.takeReading reading := by
        cases reading <;> rfl
      rcases takeReading_follows hl (by simpa using hrunning) reading
        (Frame.bodies (rest.drop (reading.length - 1))) with ⟨front, hfront, hturns⟩
      rw [← htaken] at hfront hturns
      rw [hbodies, hturns, List.append_assoc]
      exact hfront.append (ih (hfront.numbered hl))

theorem readAll_follows (stream : Bytes) {l : Link} (hl : l.Numbered) :
    Follows l ((Operation.readAll stream).turns l) (l.readAll stream) := by
  unfold readAll
  rw [Operation.turns]
  cases l.attached with
  | false =>
      exact .silent rfl rfl rfl
  | true =>
      exact readFrom_follows stream hl

theorem start_link (executable : Option Text) (spawn : Spawn) (l : Link) :
    ((l.start executable spawn).2.link = l ∨ (l.start executable spawn).2.link = l.attach) ∧
      resolvedIn (l.start executable spawn).2.events = [] := by
  unfold start
  split
  · exact ⟨Or.inl rfl, rfl⟩
  · cases spawn with
    | started =>
        exact ⟨Or.inr rfl, rfl⟩
    | missing | denied =>
        exact ⟨Or.inl rfl, rfl⟩

theorem Operation.apply_follows (op : Operation) {l : Link} (hl : l.Numbered) :
    Follows l (op.turns l) (op.apply l) := by
  cases op with
  | request method params =>
      exact request_follows method params l
  | notify method params =>
      exact send_follows _ l
  | receive body =>
      exact receive_follows hl body
  | readAll stream =>
      exact readAll_follows stream hl
  | outputEnds =>
      exact failPending_follows "stdout closed" l
  | start executable spawn =>
      have hstart := start_link executable spawn l
      rcases hstart.1 with hlink | hlink
      · exact .silent (congrArg Link.pending hlink) (congrArg Link.lastId hlink) hstart.2
      · exact .silent (congrArg Link.pending hlink :) (congrArg Link.lastId hlink :) hstart.2
  | attach | subscribe | breakPipe | stop =>
      exact .silent rfl rfl rfl

/-!
## Issuing
-/

theorem issuedIn_writeTurns (l : Link) : issuedIn l.writeTurns = [] := by
  unfold writeTurns
  split <;> rfl

theorem issuedIn_receiveTurns (body : Bytes) (l : Link) : issuedIn (l.receiveTurns body) = [] := by
  unfold receiveTurns
  split
  · exact l.issuedIn_writeTurns
  · rfl

theorem issuedIn_receiveAllTurns (bodies : List Bytes) (l : Link) :
    issuedIn (receiveAllTurns bodies l) = [] := by
  induction bodies generalizing l with
  | nil =>
      rfl
  | cons body rest ih =>
      unfold receiveAllTurns
      split
      · rw [issuedIn_append, issuedIn_receiveTurns, ih, List.nil_append]
      · rfl

theorem Operation.issued_requested (op : Operation) (l : Link) :
    (issuedIn (op.turns l)).map Prod.snd = op.requested?.toList := by
  cases op with
  | request method params =>
      change method :: (issuedIn l.writeTurns).map Prod.snd = [method]
      rw [issuedIn_writeTurns, List.map_nil]
  | notify =>
      exact congrArg (List.map Prod.snd) l.issuedIn_writeTurns
  | receive body =>
      exact congrArg (List.map Prod.snd) (issuedIn_receiveTurns body l)
  | readAll stream =>
      rw [turns]
      cases l.attached with
      | false =>
          rfl
      | true =>
          rw [if_pos rfl, issuedIn_append, issuedIn_receiveAllTurns]
          rfl
  | attach | start | subscribe | outputEnds | breakPipe | stop =>
      rfl

/-!
# What is left waiting
-/

theorem mem_sent_of_send {message m : Json} {l : Link}
    (h : m ∈ sentIn (l.send message).events) : m = message := by
  unfold send at h
  split at h
  · cases h
  · split at h
    · simp [sentIn, failPending] at h
    · simpa [sentIn] using h

theorem receive_unrelated {l : Link} (hl : l.Numbered) {body : Bytes}
    (hquiet : forall id, id ∈ l.pending.map Prod.fst -> answerTo? id body = none) :
    (l.receive body).link.pending = l.pending ∨
      l.attached = true ∧ l.broken = true ∧ isAnswered body = true ∧
        (l.receive body).link.pending = [] := by
  have hfollows := receive_follows hl body
  unfold receiveTurns at hfollows
  have hturns (turns : List Turn) (h : Follows l (.received body :: turns) (l.receive body)) :
      (l.receive body).link.pending = turns.foldl Turn.leaves l.pending := by
    rw [h.pending, List.foldl_cons, (Turn.received_unrelated hquiet).1]
  cases hanswered : isAnswered body with
  | false =>
      rw [hanswered] at hfollows
      exact Or.inl (hturns [] hfollows)
  | true =>
      rw [hanswered, if_pos rfl] at hfollows
      by_cases hwrites : l.attached = true ∧ l.broken = true
      · rw [writeTurns_broken hwrites.1 hwrites.2] at hfollows
        exact Or.inr ⟨hwrites.1, hwrites.2, rfl, hfollows.emptied [.received body]⟩
      · have hsilent : l.writeTurns = [] := by simp [writeTurns, hwrites]
        rw [hsilent] at hfollows
        exact Or.inl (hturns [] hfollows)

theorem write_empties {l : Link} (hl : l.Numbered) (hattached : l.attached = true)
    (hbroken : l.broken = true) :
    (forall method params, (l.request method params).link.pending = []) ∧
    (forall method params, (l.notify method params).link.pending = []) ∧
    forall body, isAnswered body = true -> (l.receive body).link.pending = [] := by
  have hwrite := writeTurns_broken hattached hbroken
  refine ⟨fun method params => ?_, fun method params => ?_, fun body hanswered => ?_⟩
  · have hfollows := request_follows method params l
    rw [hwrite] at hfollows
    exact hfollows.emptied [.issued (l.lastId + 1) method]
  · have hfollows : Follows l l.writeTurns (l.notify method params) := send_follows _ l
    rw [hwrite] at hfollows
    exact hfollows.emptied []
  · have hfollows := receive_follows hl body
    rw [receiveTurns, hanswered, hwrite] at hfollows
    exact hfollows.emptied [.received body]

end Link

/-!
# Exchanges
-/

/-- A link, with what it has done and what its requests met since it was made. -/
structure Exchange where
  link : Link
  events : List LinkEvent := []
  turns : List Link.Turn := []

namespace Exchange

open LinkEvent Link

def next (x : Exchange) (op : Operation) : Exchange :=
  { link := (op.apply x.link).link
    events := x.events ++ (op.apply x.link).events
    turns := x.turns ++ op.turns x.link }

def after (command : Option (List Text)) (ops : List Operation) : Exchange :=
  ops.foldl next { link := { command := command } }

theorem numbered_new (command : Option (List Text)) : Numbered { command := command } :=
  ⟨List.nodup_nil, fun _ hn => absurd hn List.not_mem_nil⟩

theorem after_follows (command : Option (List Text)) (ops : List Operation) :
    Follows { command := command } (after command ops).turns
      ⟨(after command ops).link, (after command ops).events⟩ := by
  have hnew := numbered_new command
  have hrun : forall (ops : List Operation) (x : Exchange),
      Follows { command := command } x.turns ⟨x.link, x.events⟩ ->
        Follows { command := command } (ops.foldl next x).turns
          ⟨(ops.foldl next x).link, (ops.foldl next x).events⟩ := by
    intro ops
    induction ops with
    | nil =>
        exact fun _ hx => hx
    | cons op rest ih =>
        exact fun x hx => ih (x.next op) (hx.append (op.apply_follows (hx.numbered hnew)))
  exact hrun ops _ (.silent rfl rfl rfl)

/-- What is known of the requests of a link. -/
structure Accounted (x : Exchange) : Prop where
  /-- Requests are numbered from one on, as they are issued. -/
  issued : (issuedIn x.turns).map Prod.fst = List.range' 1 x.link.lastId
  /-- Every request waits or has ended, and none has ended twice. -/
  split : (x.link.pending.map Prod.fst ++ (resolvedIn x.events).map Prod.fst).Perm
    (List.range' 1 x.link.lastId)
  /-- A request waits as long as nothing behind it ends it. -/
  waiting : forall id method, (id, method) ∈ x.link.pending ↔
    exists later, IssuedBefore id method x.turns later ∧
      forall t, t ∈ later -> forall outcome, ¬ t.Ends id method outcome
  /-- A request ends with the first turn behind it that ends it. -/
  ended : forall id outcome, (id, outcome) ∈ resolvedIn x.events ↔
    exists method between t rest, IssuedBefore id method x.turns (between ++ t :: rest) ∧
      (forall t', t' ∈ between -> forall outcome', ¬ t'.Ends id method outcome') ∧
      t.Ends id method outcome
  /-- The next request is sent with the next number. -/
  carried : forall method params message,
    message ∈ sentIn (x.link.request method params).events ->
      message = .obj [version, ("id", .ofNat (x.link.lastId + 1)), ("method", .ofText method),
        ("params", params)]
  /-- A message that answers nothing that waits ends nothing, unless its answer cannot be sent. -/
  unrelated : forall body,
    (forall id, id ∈ x.link.pending.map Prod.fst -> answerTo? id body = none) ->
    (x.link.receive body).link.pending = x.link.pending ∨
      x.link.attached = true ∧ x.link.broken = true ∧ isAnswered body = true ∧
        (x.link.receive body).link.pending = []
  /-- A write into a broken pipe leaves nothing that waits. -/
  written : x.link.attached = true -> x.link.broken = true ->
    (forall method params, (x.link.request method params).link.pending = []) ∧
    (forall method params, (x.link.notify method params).link.pending = []) ∧
    forall body, isAnswered body = true -> (x.link.receive body).link.pending = []
  /-- The end of the output leaves nothing that waits. -/
  exhausted : x.link.attached = true ->
    forall stream, (x.link.readAll stream).link.pending = []

theorem after_accounted (command : Option (List Text)) (ops : List Operation) :
    (after command ops).Accounted := by
  have hrun := after_follows command ops
  have hnumbered := hrun.numbered (numbered_new command)
  have hissued := hrun.numbers
  have hlast := hrun.lastId
  simp only [Nat.zero_add] at hissued hlast
  rw [← hlast] at hissued
  constructor
  case issued =>
      exact hissued
  case split =>
      have hperm := waiting_ended_perm [] (after command ops).turns
      rw [← hrun.pending, ← hrun.resolved, List.nil_append, hissued] at hperm
      exact hperm
  case waiting =>
      intro id method
      have hmem : (id, method) ∈ (after command ops).turns.foldl Turn.leaves [] ↔ _ :=
        mem_waiting_iff
      rw [← hrun.pending] at hmem
      simpa only [List.not_mem_nil, false_and, false_or, Turn.ending?_eq_none] using hmem
  case ended =>
      intro id outcome
      have hmem : (id, outcome) ∈ endedAlong [] (after command ops).turns ↔ _ := mem_ended_iff
      rw [← hrun.resolved] at hmem
      simp only [List.not_mem_nil, false_and, exists_false, false_or,
        List.findSome?_eq_some_iff] at hmem
      rw [hmem]
      constructor
      · rintro ⟨method, later, hissued, between, t, rest, rfl, hends, hbetween⟩
        exact ⟨method, between, t, rest, hissued,
          fun t' ht' => Turn.ending?_eq_none.mp (hbetween t' ht'), Turn.ending?_eq_some.mp hends⟩
      · rintro ⟨method, between, t, rest, hissued, hbetween, hends⟩
        exact ⟨method, _, hissued, between, t, rest, rfl, Turn.ending?_eq_some.mpr hends,
          fun t' ht' => Turn.ending?_eq_none.mpr (hbetween t' ht')⟩
  case carried =>
      exact fun method params message h => mem_sent_of_send h
  case unrelated =>
      exact fun body hquiet => receive_unrelated hnumbered hquiet
  case written =>
      exact write_empties hnumbered
  case exhausted =>
      intro hattached stream
      have hfollows := readAll_follows stream hnumbered
      rw [Operation.turns, hattached] at hfollows
      exact hfollows.emptied _

theorem after_requested (command : Option (List Text)) (ops : List Operation) :
    (issuedIn (after command ops).turns).map Prod.snd = ops.filterMap Operation.requested? := by
  have hrun : forall (ops : List Operation) (x : Exchange),
      (issuedIn (ops.foldl next x).turns).map Prod.snd =
        (issuedIn x.turns).map Prod.snd ++ ops.filterMap Operation.requested? := by
    intro ops
    induction ops with
    | nil =>
        simp
    | cons op rest ih =>
        intro x
        rw [List.foldl_cons, ih, next, issuedIn_append, List.map_append, op.issued_requested,
          List.append_assoc]
        cases hop : op.requested? <;> simp [hop]
  exact hrun ops _

/-- Every request of a link ends at most once, by the first answer or failure behind it. -/
theorem requests_end_once (command : Option (List Text)) (ops : List Operation) :
    (issuedIn (after command ops).turns).map Prod.snd = ops.filterMap Operation.requested? ∧
      (after command ops).Accounted :=
  ⟨after_requested command ops, after_accounted command ops⟩

-- The second request is answered twice, and the first one is given up by the end of the output.
example :
    let answer := Operation.receive (Utf8.encode "\x7b\"id\": 2.0, \"result\": 5\x7d".toList)
    let x := after none [.attach, .request ['a'] .null, .request ['b'] .null, answer, answer]
    (x.link.pending, (resolvedIn x.events).map Prod.fst) = ([(1, ['a'])], [2]) ∧
      (resolvedIn (x.next .outputEnds).events).map Prod.fst = [2, 1] := by
  decide +kernel

end Exchange
end SfcServer
