import SfcServer.Proofs.Engine.Requests
import SfcServer.Proofs.Engine.Transcript

/-!
# A link runs until it stops

Only a start brings a process to a link.  Whatever else happens leaves the link running with the
process that it has, or ends it, and is about the text of no file.
-/

namespace SfcServer
namespace Link

def Outlives (l after : Link) : Prop :=
  (after.running = l.running ∧ after.attached = l.attached) ∨ after.running = false

theorem Outlives.refl (l : Link) : l.Outlives l :=
  Or.inl ⟨rfl, rfl⟩

theorem Outlives.trans {l middle after : Link} (h : l.Outlives middle)
    (hafter : middle.Outlives after) : l.Outlives after := by
  rcases hafter with ⟨hrunning, hattached⟩ | hended
  · rcases h with ⟨hrunning', hattached'⟩ | hended
    · exact Or.inl ⟨hrunning.trans hrunning', hattached.trans hattached'⟩
    · exact Or.inr (hrunning.trans hended)
  · exact Or.inr hended

/-- An operation that brings no process, and is about the text of no file. -/
structure Calm (l : Link) (next : Linked) : Prop where
  outlives : l.Outlives next.link
  aside : forall m, m ∈ LinkEvent.sentIn next.events -> Aside m

theorem Calm.silent {l next : Link} {events : List LinkEvent} (hlink : l.Outlives next)
    (hevents : LinkEvent.sentIn events = []) : l.Calm ⟨next, events⟩ where
  outlives := hlink
  aside m hm := by
    rw [hevents] at hm
    cases hm

theorem Calm.append {l : Link} {first last : Linked} (h : l.Calm first)
    (hlast : first.link.Calm last) : l.Calm ⟨last.link, first.events ++ last.events⟩ where
  outlives := h.outlives.trans hlast.outlives
  aside m hm := by
    rw [LinkEvent.sentIn_append] at hm
    exact (List.mem_append.mp hm).elim (h.aside m) (hlast.aside m)

theorem send_outlives (message : Json) (l : Link) : l.Outlives (l.send message).link := by
  rcases l.send_link message with hsame | hended
  · rw [hsame]
    exact Outlives.refl l
  · exact Or.inr hended

theorem failPending_calm (reason : String) (l : Link) : l.Calm (l.failPending reason) :=
  Calm.silent (Or.inl ⟨rfl, rfl⟩) (l.sentIn_failPending reason)

theorem answerRequest?_outlives {id method params : Json} {l : Link} {next : Linked}
    (h : l.answerRequest? id method params = some next) : l.Outlives next.link := by
  unfold answerRequest? at h
  split at h
  · rcases Option.map_eq_some_iff.mp h with ⟨result, _, rfl⟩
    exact send_outlives _ l
  all_goals
    cases h
    exact send_outlives _ l

theorem takeMessage?_calm {message : Json} {l : Link} {next : Linked}
    (h : l.takeMessage? message = some next) : l.Calm next := by
  refine ⟨?_, (takeMessage?_talks h).aside⟩
  unfold takeMessage? at h
  split at h
  · split at h
    · split at h
      · cases h
        unfold takeAnswer
        split
        · exact Outlives.refl l
        · exact Or.inl ⟨rfl, rfl⟩
      · cases h
    · exact answerRequest?_outlives h
    · rw [(takeNotification?_link h).1]
      exact Outlives.refl l
  · cases h

theorem receive_calm (body : Bytes) (l : Link) : l.Calm (l.receive body) := by
  unfold receive
  split
  · next taken htaken =>
      rcases Option.bind_eq_some_iff.mp htaken with ⟨message, _, htaken⟩
      exact takeMessage?_calm htaken
  · exact Calm.silent (Outlives.refl l) rfl

theorem readFrom_calm (stream : Bytes) (l : Link) : l.Calm (l.readFrom stream) := by
  fun_induction readFrom l stream with
  | case1 l =>
      exact failPending_calm _ l
  | case2 l b rest hidle =>
      exact failPending_calm _ l
  | case3 l b rest hrunning reading taken last ih =>
      refine Calm.append ?_ ih
      clear_value reading
      cases reading with
      | noise n =>
          exact Calm.silent (Outlives.refl l) rfl
      | unusable n =>
          exact Calm.silent (Outlives.refl l) rfl
      | message body n =>
          exact receive_calm body l

theorem readAll_calm (stream : Bytes) (l : Link) : l.Calm (l.readAll stream) := by
  unfold readAll
  split
  · exact readFrom_calm stream l
  · exact Calm.silent (Outlives.refl l) rfl

theorem request_outlives (method : Text) (params : Json) (l : Link) :
    l.Outlives (l.request method params).link :=
  send_outlives _
    { l with lastId := l.lastId + 1, pending := l.pending ++ [(l.lastId + 1, method)] }

theorem ask_outlives (reply : List (String × Json)) (method : String) (params : Json) (l : Link) :
    l.Outlives (l.ask reply method params).2.link := by
  refine (request_outlives method.toList params l).trans ?_
  show Outlives _ ((takeMessage? _ _).getD _).link
  generalize (l.request method.toList params).link = sent
  cases htaken : sent.takeMessage?
      (Json.ofMembers (version :: ("id", .ofNat sent.lastId) :: reply)) with
  | none =>
      exact Outlives.refl sent
  | some next =>
      exact (takeMessage?_calm htaken).outlives

namespace Operation

def begins : Operation -> Bool
  | .attach => true
  | .start _ .started => true
  | _ => false

def IsAside : Operation -> Prop
  | .request method _ => String.ofList method ∉ Call.textMethods
  | .notify method _ => method ∉ Call.textMethods
  | _ => True

theorem apply_calm {op : Operation} (hbegins : op.begins = false) (haside : op.IsAside) (l : Link) :
    l.Calm (op.apply l) := by
  cases op with
  | attach =>
      cases hbegins
  | start executable spawn =>
      show l.Calm (l.start executable spawn).2
      unfold Link.start
      split
      · exact Calm.silent (Outlives.refl l) rfl
      · cases spawn with
        | started =>
            cases hbegins
        | missing | denied =>
            exact Calm.silent (Outlives.refl l) rfl
  | subscribe | breakPipe =>
      exact Calm.silent (Or.inl ⟨rfl, rfl⟩) rfl
  | request method params =>
      have htalks := request_talks haside params l
      rw [String.toList_ofList] at htalks
      exact ⟨request_outlives method params l, htalks.aside⟩
  | notify method params =>
      exact ⟨send_outlives _ l, (send_talks (aside_of_method method rfl haside) l).aside⟩
  | receive body =>
      exact receive_calm body l
  | readAll stream =>
      exact readAll_calm stream l
  | outputEnds =>
      exact failPending_calm _ l
  | stop =>
      exact Calm.silent (Or.inr rfl) rfl

/-- A start attaches a process, or changes nothing; either way nothing is sent. -/
theorem apply_begins {op : Operation} (h : op.begins = true) (l : Link) :
    ((op.apply l).link = l ∨ (op.apply l).link = l.attach) ∧
      LinkEvent.sentIn (op.apply l).events = [] := by
  cases op with
  | attach =>
      exact ⟨Or.inr rfl, rfl⟩
  | start executable spawn =>
      show ((l.start executable spawn).2.link = l ∨
        (l.start executable spawn).2.link = l.attach) ∧
          LinkEvent.sentIn (l.start executable spawn).2.events = []
      unfold Link.start
      split
      · exact ⟨Or.inl rfl, rfl⟩
      · cases spawn with
        | started =>
            exact ⟨Or.inr rfl, rfl⟩
        | missing | denied =>
            exact ⟨Or.inl rfl, rfl⟩
  | _ =>
      cases h

end Operation
end Link
end SfcServer
