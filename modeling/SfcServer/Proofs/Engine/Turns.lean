import Mathlib.Data.List.Basic
import SfcServer.Engine.Link

/-!
# The fate of a request

What matters to the requests of a link is told by turns: a request is issued, a message arrives,
or everything that waits is given up.  A request ends with the first turn behind the one that
issued it that answers it or gives it up, and it waits until then.
-/

namespace SfcServer
namespace Link

/-!
# Answers
-/

/-- The members of a message that answers a request: one with its number, and without a method. -/
def answerTo? (id : Nat) (body : Bytes) : Option (List (String × Json)) :=
  match message? body with
  | some (.obj members) =>
      match Json.lookup "id" members, Json.lookup "method" members with
      | some value, none => if value.equalsInt id then some members else none
      | _, _ => none
  | _ => none

/-!
# Turns
-/

inductive Turn where
  | issued (id : Nat) (method : Text)
  | received (body : Bytes)
  | failed (reason : String)

namespace Turn

def ending? (id : Nat) (method : Text) : Turn -> Option Outcome
  | .issued .. => none
  | .received body => (answerTo? id body).map (outcomeOf method)
  | .failed reason => some (.error (failureMessage method (.str reason)))

/-- What it means that a turn ends a request.  An error that counts as absent gives no value. -/
inductive Ends (id : Nat) (method : Text) : Turn -> Outcome -> Prop where
  | value {body : Bytes} {members : List (String × Json)}
      (hanswer : answerTo? id body = some members)
      (herror : Json.lookup "error" members = none) :
      Ends id method (.received body) (.ok ((Json.lookup "result" members).getD .null))
  | void {body : Bytes} {members : List (String × Json)} {error : Json}
      (hanswer : answerTo? id body = some members)
      (herror : Json.lookup "error" members = some error) (hfalse : error.isTruthy = false) :
      Ends id method (.received body) (.ok .null)
  | error {body : Bytes} {members : List (String × Json)} {error : Json}
      (hanswer : answerTo? id body = some members)
      (herror : Json.lookup "error" members = some error) (htrue : error.isTruthy = true) :
      Ends id method (.received body) (.error (failureMessage method error))
  | failed (reason : String) :
      Ends id method (.failed reason) (.error (failureMessage method (.str reason)))

def opened : Turn -> List (Nat × Text)
  | .issued id method => [(id, method)]
  | _ => []

def leaves (waiting : List (Nat × Text)) (t : Turn) : List (Nat × Text) :=
  (waiting.filter fun (id, method) => (t.ending? id method).isNone) ++ t.opened

def ends (waiting : List (Nat × Text)) (t : Turn) : List (Nat × Outcome) :=
  waiting.filterMap fun (id, method) => (t.ending? id method).map fun outcome => (id, outcome)

end Turn

def endedAlong (waiting : List (Nat × Text)) : List Turn -> List (Nat × Outcome)
  | [] => []
  | t :: rest => t.ends waiting ++ endedAlong (t.leaves waiting) rest

def issuedIn (turns : List Turn) : List (Nat × Text) :=
  turns.flatMap Turn.opened

theorem issuedIn_append (turns more : List Turn) :
    issuedIn (turns ++ more) = issuedIn turns ++ issuedIn more :=
  List.flatMap_append

theorem endedAlong_append (waiting : List (Nat × Text)) (turns more : List Turn) :
    endedAlong waiting (turns ++ more) =
      endedAlong waiting turns ++ endedAlong (turns.foldl Turn.leaves waiting) more := by
  induction turns generalizing waiting with
  | nil =>
      rfl
  | cons t rest ih =>
      simp [endedAlong, ih]

/-!
# Waiting and ended requests
-/

theorem Turn.ending?_eq_some {id : Nat} {method : Text} {t : Turn} {outcome : Outcome} :
    t.ending? id method = some outcome ↔ t.Ends id method outcome := by
  constructor
  · intro h
    cases t with
    | issued =>
        cases h
    | failed reason =>
        cases h
        exact .failed reason
    | received body =>
        rcases Option.map_eq_some_iff.mp h with ⟨members, hanswer, rfl⟩
        unfold outcomeOf
        cases herror : Json.lookup "error" members with
        | none =>
            exact .value hanswer herror
        | some error =>
            cases htruthy : error.isTruthy with
            | false =>
                simpa [htruthy] using Ends.void hanswer herror htruthy
            | true =>
                simpa [htruthy] using Ends.error hanswer herror htruthy
  · rintro (⟨hanswer, herror⟩ | ⟨hanswer, herror, hfalse⟩ | ⟨hanswer, herror, htrue⟩ | reason)
    · simp [ending?, hanswer, outcomeOf, herror]
    · simp [ending?, hanswer, outcomeOf, herror, hfalse]
    · simp [ending?, hanswer, outcomeOf, herror, htrue]
    · rfl

theorem Turn.ending?_eq_none {id : Nat} {method : Text} {t : Turn} :
    t.ending? id method = none ↔ forall outcome, ¬ t.Ends id method outcome := by
  simp only [Option.eq_none_iff_forall_ne_some, ne_eq, ending?_eq_some]

theorem Turn.mem_leaves {waiting : List (Nat × Text)} {t : Turn} {id : Nat} {method : Text} :
    (id, method) ∈ t.leaves waiting ↔
      ((id, method) ∈ waiting ∧ t.ending? id method = none) ∨ t = .issued id method := by
  have hopened : (id, method) ∈ t.opened ↔ t = .issued id method := by
    cases t with
    | issued id' method' =>
        simp [opened, eq_comm]
    | received | failed =>
        simp [opened]
  rw [leaves, List.mem_append, List.mem_filter, hopened, Option.isNone_iff_eq_none]

theorem Turn.mem_ends {waiting : List (Nat × Text)} {t : Turn} {id : Nat} {outcome : Outcome} :
    (id, outcome) ∈ t.ends waiting ↔
      exists method, (id, method) ∈ waiting ∧ t.ending? id method = some outcome := by
  rw [ends, List.mem_filterMap]
  constructor
  · rintro ⟨⟨id', method⟩, hmem, hending⟩
    rcases Option.map_eq_some_iff.mp hending with ⟨outcome', hending, heq⟩
    cases heq
    exact ⟨method, hmem, hending⟩
  · rintro ⟨method, hmem, hending⟩
    exact ⟨(id, method), hmem, by simp [hending]⟩

def IssuedBefore (id : Nat) (method : Text) (turns later : List Turn) : Prop :=
  exists earlier, turns = earlier ++ .issued id method :: later

theorem issuedBefore_cons {id : Nat} {method : Text} {t : Turn} {turns later : List Turn} :
    IssuedBefore id method (t :: turns) later ↔
      (t = .issued id method ∧ turns = later) ∨ IssuedBefore id method turns later := by
  constructor
  · rintro ⟨earlier, hsplit⟩
    cases earlier with
    | nil =>
        exact Or.inl (List.cons.inj hsplit)
    | cons first earlier =>
        exact Or.inr ⟨earlier, (List.cons.inj hsplit).2⟩
  · rintro (⟨rfl, rfl⟩ | ⟨earlier, rfl⟩)
    · exact ⟨[], rfl⟩
    · exact ⟨t :: earlier, rfl⟩

theorem mem_waiting_iff {turns : List Turn} {waiting : List (Nat × Text)} {id : Nat}
    {method : Text} :
    (id, method) ∈ turns.foldl Turn.leaves waiting ↔
      ((id, method) ∈ waiting ∧ forall t, t ∈ turns -> t.ending? id method = none) ∨
        exists later, IssuedBefore id method turns later ∧
          forall t, t ∈ later -> t.ending? id method = none := by
  induction turns generalizing waiting with
  | nil =>
      simp [IssuedBefore]
  | cons t rest ih =>
      rw [List.foldl_cons, ih, Turn.mem_leaves]
      simp only [List.forall_mem_cons, issuedBefore_cons]
      constructor
      · rintro (⟨⟨hmem, hnone⟩ | hissued, hlater⟩ | ⟨later, hissued, hlater⟩)
        · exact Or.inl ⟨hmem, hnone, hlater⟩
        · exact Or.inr ⟨rest, Or.inl ⟨hissued, rfl⟩, hlater⟩
        · exact Or.inr ⟨later, Or.inr hissued, hlater⟩
      · rintro (⟨hmem, hnone, hlater⟩ | ⟨later, ⟨hissued, rfl⟩ | hissued, hlater⟩)
        · exact Or.inl ⟨Or.inl ⟨hmem, hnone⟩, hlater⟩
        · exact Or.inl ⟨Or.inr hissued, hlater⟩
        · exact Or.inr ⟨later, hissued, hlater⟩

theorem mem_ended_iff {turns : List Turn} {waiting : List (Nat × Text)} {id : Nat}
    {outcome : Outcome} :
    (id, outcome) ∈ endedAlong waiting turns ↔
      (exists method, (id, method) ∈ waiting ∧
        turns.findSome? (Turn.ending? id method) = some outcome) ∨
      exists method later, IssuedBefore id method turns later ∧
        later.findSome? (Turn.ending? id method) = some outcome := by
  induction turns generalizing waiting with
  | nil =>
      simp [endedAlong, IssuedBefore]
  | cons t rest ih =>
      rw [endedAlong, List.mem_append, Turn.mem_ends, ih]
      simp only [Turn.mem_leaves, issuedBefore_cons, List.findSome?_cons]
      constructor
      · rintro (⟨method, hmem, hending⟩ |
          ⟨method, ⟨hmem, hnone⟩ | hissued, hlater⟩ | ⟨method, later, hissued, hlater⟩)
        · exact Or.inl ⟨method, hmem, by rw [hending]⟩
        · exact Or.inl ⟨method, hmem, by rw [hnone]; exact hlater⟩
        · exact Or.inr ⟨method, rest, Or.inl ⟨hissued, rfl⟩, hlater⟩
        · exact Or.inr ⟨method, later, Or.inr hissued, hlater⟩
      · rintro (⟨method, hmem, hfound⟩ | ⟨method, later, ⟨hissued, rfl⟩ | hissued, hlater⟩)
        · cases hending : t.ending? id method with
          | none =>
              rw [hending] at hfound
              exact Or.inr (Or.inl ⟨method, Or.inl ⟨hmem, hending⟩, hfound⟩)
          | some outcome' =>
              rw [hending] at hfound
              exact Or.inl ⟨method, hmem, hending.trans hfound⟩
        · exact Or.inr (Or.inl ⟨method, Or.inr hissued, hlater⟩)
        · exact Or.inr (Or.inr ⟨method, later, hissued, hlater⟩)

theorem Turn.ends_ids (waiting : List (Nat × Text)) (t : Turn) :
    (t.ends waiting).map Prod.fst =
      (waiting.filter fun (id, method) => !(t.ending? id method).isNone).map Prod.fst := by
  induction waiting with
  | nil =>
      rfl
  | cons request rest ih =>
      obtain ⟨id, method⟩ := request
      unfold ends at ih ⊢
      cases hending : t.ending? id method with
      | none =>
          simp [hending, ih]
      | some outcome =>
          simp [hending, ih]

theorem Turn.leaves_ends_perm (waiting : List (Nat × Text)) (t : Turn) :
    ((t.leaves waiting).map Prod.fst ++ (t.ends waiting).map Prod.fst).Perm
      ((waiting ++ t.opened).map Prod.fst) := by
  have hparts := (List.filter_append_perm
    (fun (id, method) => (t.ending? id method).isNone) waiting).map Prod.fst
  rw [List.perm_iff_count] at hparts ⊢
  intro id
  have hid := hparts id
  rw [leaves, ends_ids]
  simp only [List.map_append, List.count_append] at hid ⊢
  omega

theorem waiting_ended_perm (waiting : List (Nat × Text)) (turns : List Turn) :
    ((turns.foldl Turn.leaves waiting).map Prod.fst ++
      (endedAlong waiting turns).map Prod.fst).Perm
        ((waiting ++ issuedIn turns).map Prod.fst) := by
  induction turns generalizing waiting with
  | nil =>
      simp [endedAlong, issuedIn]
  | cons t rest ih =>
      have hturn := t.leaves_ends_perm waiting
      have hrest := ih (t.leaves waiting)
      rw [List.perm_iff_count] at hturn hrest ⊢
      intro id
      have hturn := hturn id
      have hrest := hrest id
      simp only [endedAlong, issuedIn, List.foldl_cons, List.flatMap_cons, List.map_append,
        List.count_append] at hturn hrest ⊢
      omega

theorem Turn.received_unrelated {body : Bytes} {waiting : List (Nat × Text)}
    (hquiet : forall id, id ∈ waiting.map Prod.fst -> answerTo? id body = none) :
    (Turn.received body).leaves waiting = waiting ∧ (Turn.received body).ends waiting = [] := by
  have hnone : forall p : Nat × Text, p ∈ waiting ->
      (Turn.received body).ending? p.1 p.2 = none := by
    intro p hp
    rw [Turn.ending?, hquiet p.1 (List.mem_map_of_mem hp)]
    rfl
  constructor
  · exact (List.append_nil _).trans (List.filter_eq_self.mpr fun p hp => by simp [hnone p hp])
  · exact List.filterMap_eq_nil_iff.mpr fun p hp => by simp [hnone p hp]

end Link
end SfcServer
