import SfcServer.Proofs.Engine.Requests

/-!
# Replies to the engine

The engine makes requests of its own, and a request that is answered gets one reply, under its own
number.  Requests that are not known are refused, which is a reply too.  A request for the
configuration is answered item by item; when its items cannot be counted it is reported and left
without a reply.  No request of the engine touches those that wait for an answer from it.
-/

namespace SfcServer

/-- A message that ends the request of a number, with a result or with an error. -/
structure Json.RepliesTo (response id : Json) : Prop where
  version : response.member? "jsonrpc" = some (.str "2.0")
  id : response.member? "id" = some id
  noRequest : response.member? "method" = none
  outcome : (response.member? "result").isSome = !(response.member? "error").isSome

namespace Link

open LinkEvent

/-- A process is attached, and its pipe takes what is written. -/
structure Works (l : Link) : Prop where
  attached : l.attached = true
  whole : l.broken = false

/-- The items that parameters give can be counted: there are none, or they come in a row. -/
def Countable (params : Json) : Prop :=
  params.isTruthy = false ∨ exists members, params = .obj members ∧
    forall items, Json.lookup "items" members = some items ->
      (exists values, items = .arr values) ∨ (exists named, items = .obj named) ∨
        exists text, items = .str text

variable {l : Link} {id method params : Json}

/-!
# What is written
-/

theorem Works.answer_eq (h : l.Works) (id : Json) (rest : String × Json) :
    l.answer id rest = ⟨l, [.sent (.obj [version, ("id", id), rest])]⟩ := by
  rw [answer, send, h.attached, h.whole]
  rfl

theorem repliesTo_result (id value : Json) :
    Json.RepliesTo (.obj [version, ("id", id), ("result", value)]) id := by
  constructor <;> rfl

theorem repliesTo_error (id value : Json) :
    Json.RepliesTo (.obj [version, ("id", id), ("error", value)]) id := by
  constructor <;> rfl

theorem Works.answerRequest?_replies (h : l.Works) {next : Linked}
    (hanswer : l.answerRequest? id method params = some next) :
    next.link = l ∧ exists response, sentIn next.events = [response] ∧
      response.RepliesTo id := by
  unfold answerRequest? at hanswer
  split at hanswer
  · rcases Option.map_eq_some_iff.mp hanswer with ⟨result, -, rfl⟩
    rw [h.answer_eq]
    exact ⟨rfl, _, rfl, repliesTo_result id result⟩
  · cases hanswer
    rw [h.answer_eq]
    exact ⟨rfl, _, rfl, repliesTo_result id .null⟩
  · cases hanswer
    rw [h.answer_eq]
    exact ⟨rfl, _, rfl, repliesTo_result id .null⟩
  · cases hanswer
    rw [h.answer_eq]
    exact ⟨rfl, _, rfl, repliesTo_error id _⟩

/-!
# Which requests are answered
-/

theorem itemCount?_isSome_iff {items : Json} :
    (itemCount? items).isSome = true ↔
      (exists values, items = .arr values) ∨ (exists named, items = .obj named) ∨
        exists text, items = .str text := by
  cases items <;> simp [itemCount?]

theorem configuration?_isSome_iff :
    (configuration? params).isSome = true ↔ Countable params := by
  have hnone : (configuration? (.obj [])).isSome = true := rfl
  cases htruthy : params.isTruthy with
  | false =>
      have hcount : configuration? params = configuration? (.obj []) := by
        simp [configuration?, htruthy]
      rw [hcount]
      exact ⟨fun _ => Or.inl htruthy, fun _ => hnone⟩
  | true =>
      simp only [configuration?, htruthy, if_true, Countable]
      cases params with
      | obj members =>
          simp only [Option.isSome_map]
          rw [itemCount?_isSome_iff]
          cases hitems : Json.lookup "items" members with
          | none =>
              simp [hitems]
          | some items =>
              simp [hitems]
      | null | bool | int | real | str | arr =>
          simp

theorem answerRequest?_isSome_iff :
    (l.answerRequest? id method params).isSome = true ↔
      (method = .str "workspace/configuration" -> Countable params) := by
  unfold answerRequest?
  split
  · rw [Option.isSome_map, configuration?_isSome_iff]
    exact ⟨fun h _ => h, fun h => h rfl⟩
  · simp
  · simp
  · next hother _ _ =>
      exact ⟨fun _ h => absurd h hother, fun _ => rfl⟩

/--
A request of the engine gets exactly one reply, under its own number, unless it asks for the
configuration with parameters from which no items can be counted; then nothing is written.  The
requests that wait stay as they are.
-/
theorem request_answered_iff {body : Bytes} {members : List (String × Json)} (h : l.Works)
    (hmessage : message? body = some (.obj members))
    (hid : Json.lookup "id" members = some id)
    (hmethod : Json.lookup "method" members = some method) :
    (l.receive body).link = l ∧
      ((exists response, sentIn (l.receive body).events = [response] ∧ response.RepliesTo id) ↔
        (method = .str "workspace/configuration" ->
          Countable ((Json.lookup "params" members).getD .null))) ∧
      ((l.receive body).events = [.notice (.error "Failed to handle message")] ↔
        method = .str "workspace/configuration" ∧
          ¬ Countable ((Json.lookup "params" members).getD .null)) := by
  have hreceive : l.receive body =
      (l.answerRequest? id method ((Json.lookup "params" members).getD .null)).getD
        l.refused := by
    rw [receive_eq, hmessage, Option.bind_some, takeMessage?]
    simp only [hid, hmethod]
  have hanswered : (l.answerRequest? id method
      ((Json.lookup "params" members).getD .null)).isSome = true ↔
        (method = .str "workspace/configuration" ->
          Countable ((Json.lookup "params" members).getD .null)) :=
    answerRequest?_isSome_iff
  rw [hreceive, ← hanswered, ← Classical.not_imp, ← hanswered]
  cases hanswer : l.answerRequest? id method ((Json.lookup "params" members).getD .null) with
  | none =>
      refine ⟨rfl, ⟨?_, ?_⟩, ?_⟩
      · rintro ⟨response, hsent, -⟩
        cases hsent
      · intro hsome
        cases hsome
      · simp [refused]
  | some next =>
      rcases h.answerRequest?_replies hanswer with ⟨hlink, response, hsent, hreplies⟩
      refine ⟨hlink, ⟨fun _ => rfl, fun _ => ⟨response, hsent, hreplies⟩⟩, ?_⟩
      constructor
      · intro hevents
        rw [Option.getD_some] at hevents
        rw [hevents] at hsent
        cases hsent
      · intro hnone
        exact absurd rfl hnone

def configurationRequest (params : Json) : Bytes :=
  Frame.body (.obj [version, ("id", .int 7), ("method", .str "workspace/configuration"),
    ("params", params)])

def holdsRequest (kind : Json -> Bool) (body : Bytes) : Bool :=
  match message? body with
  | some (.obj members) =>
      match Json.lookup "id" members, Json.lookup "method" members with
      | some (.int 7), some (.str "workspace/configuration") =>
          kind ((Json.lookup "params" members).getD .null)
      | _, _ => false
  | _ => false

theorem exists_of_holdsRequest {kind : Json -> Bool} {body : Bytes}
    (h : holdsRequest kind body = true) :
    exists members, message? body = some (.obj members) ∧
      Json.lookup "id" members = some (.int 7) ∧
      Json.lookup "method" members = some (.str "workspace/configuration") ∧
      kind ((Json.lookup "params" members).getD .null) = true := by
  unfold holdsRequest at h
  split at h
  · next members hmessage =>
      split at h
      · next hid hmethod =>
          exact ⟨members, hmessage, hid, hmethod, h⟩
      · cases h
  · cases h

def namedItems : Json :=
  .obj [("items", .arr [.obj [("section", .str "größe")], .null])]

def isNamed : Json -> Bool
  | .obj [("items", .arr _)] => true
  | _ => false

theorem request_answered_iff_named :
    exists members, (attach {}).Works ∧
      message? (configurationRequest namedItems) = some (.obj members) ∧
      Json.lookup "id" members = some (.int 7) ∧
      Json.lookup "method" members = some (.str "workspace/configuration") ∧
      exists response, sentIn ((attach {}).receive (configurationRequest namedItems)).events =
        [response] ∧ response.RepliesTo (.int 7) := by
  have hworks : (attach {}).Works := ⟨rfl, rfl⟩
  have hholds : holdsRequest isNamed (configurationRequest namedItems) = true := by
    decide +kernel
  rcases exists_of_holdsRequest hholds with ⟨members, hmessage, hid, hmethod, hnamed⟩
  have hcountable : Countable ((Json.lookup "params" members).getD .null) := by
    unfold isNamed at hnamed
    split at hnamed
    · next values hparams =>
        refine Or.inr ⟨_, hparams, ?_⟩
        intro items hitems
        cases hitems
        exact Or.inl ⟨values, rfl⟩
    · cases hnamed
  exact ⟨members, hworks, hmessage, hid, hmethod,
    (request_answered_iff hworks hmessage hid hmethod).2.1.mpr fun _ => hcountable⟩

/-- Parameters by position leave a request for the configuration without a reply. -/
theorem positional_request_unanswered :
    ¬ forall (l : Link) (body : Bytes) (members : List (String × Json)) (id method : Json),
      l.Works -> message? body = some (.obj members) ->
      Json.lookup "id" members = some id -> Json.lookup "method" members = some method ->
      exists response, sentIn (l.receive body).events = [response] ∧ response.RepliesTo id := by
  intro hall
  have hholds : holdsRequest (fun _ => true) (configurationRequest (.arr [namedItems])) = true := by
    decide +kernel
  have hsilent : (sentIn ((attach {}).receive
      (configurationRequest (.arr [namedItems]))).events).isEmpty = true := by
    decide +kernel
  rcases exists_of_holdsRequest hholds with ⟨members, hmessage, hid, hmethod, -⟩
  rcases hall (attach {}) _ members _ _ ⟨rfl, rfl⟩ hmessage hid hmethod with
    ⟨response, hsent, -⟩
  rw [hsent] at hsilent
  cases hsilent

end Link
end SfcServer
