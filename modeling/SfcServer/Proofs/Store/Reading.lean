import SfcServer.Proofs.Store.Dependents

/-!
# Files that a store reads

A store reads the file of a document only while the document is not in it, and keeps the text that
it got until the document leaves.  So the text of an editor and the text of a file never stand
for the same document at a time, and no file is read twice as long as its text is kept.

A journal records every change of a store and every read of a file, in order.  The answers of the
reader may differ from one read to the next, also within one query.
-/

namespace SfcServer

section

variable [ScriptParser]

namespace Store

abbrev Reader := List Text -> Files

/-- The changes and the queries of a store, whatever files they find. -/
inductive Request where
  | openText (uri text : Text) (version : Int)
  | updateText (uri text : Text) (version : Int)
  | close (uri : Text)
  | forget (uri : Text)
  | clear
  | markup (uri : Text)
  | component (uri : Text)
  | registered (uri : Text)
  | projection (uri : Text)
  deriving DecidableEq

def Request.under (files : Files) : Request -> Operation
  | .openText uri text version => .openText uri text version
  | .updateText uri text version => .updateText uri text version
  | .close uri => .close uri
  | .forget uri => .forget uri
  | .clear => .clear
  | .markup uri => .markup uri
  | .component uri => .component files uri
  | .registered uri => .registered files uri
  | .projection uri => .projection uri

/-- A change of a store or a read of a file, with the store before and after it. -/
inductive Moment where
  | changed (request : Request) (before after : Store)
  | read (request : Request) (uri : Text) (got : FileText) (before after : Store)

namespace Moment

def ofReads (request : Request) (files : Files) (before after : Store) (reads : List Text) :
    List Moment :=
  reads.map fun uri => .read request uri (files uri) before after

def readUri? : Moment -> Option Text
  | .changed .. => none
  | .read _ uri .. => some uri

def given? (uri : Text) : Moment -> Option Text
  | .changed (.openText other text _) _ _ => if other = uri then some text else none
  | .changed (.updateText other text _) _ _ => if other = uri then some text else none
  | _ => none

def Removes (uri : Text) : Moment -> Prop
  | .changed request before after =>
      (request = .close uri ∨ request = .forget uri ∨ request = .clear) ∧
        (before.entryOf? uri).isSome ∧ after.entryOf? uri = none
  | .read .. => False

/--
A file is read for a query of components, while its document is not in the store.  All that is in
the store stays.  A text that is got becomes a document that is not open; without a text, the
store stays as it is.
-/
def Orderly : Moment -> Prop
  | .changed .. => True
  | .read request uri got before after =>
      (request = .component uri ∨ exists parent, request = .registered parent) ∧
        before.entryOf? uri = none ∧
        (forall k e, before.entryOf? k = some e -> after.entryOf? k = some e) ∧
        (forall text, got = .text text ->
          exists e, after.entryOf? uri = some e ∧ e.text = text ∧ e.isOpen = false) ∧
        ((forall text, got ≠ .text text) -> after = before)

def found? : Moment -> Option (Request × Text × FileText)
  | .changed .. => none
  | .read request uri got .. => some (request, uri, got)

omit [ScriptParser] in
theorem found?_eq_some {m : Moment} {request : Request} {uri : Text} {got : FileText}
    (h : m.found? = some (request, uri, got)) :
    exists before after, m = .read request uri got before after := by
  cases m with
  | changed =>
      cases h
  | read request' uri' got' before after =>
      cases h
      exact ⟨before, after, rfl⟩

end Moment

/-!
# Journals
-/

def addRegisteredBy (reader : Reader) (request : Request) (past : List Text)
    (q : Loaded (Except Fault (Keyed Component)) × List Moment) (r : Registration) :
    Loaded (Except Fault (Keyed Component)) × List Moment :=
  let files := reader (past ++ q.1.reads)
  let next := addRegistered files q.1 r
  (next, q.2 ++ Moment.ofReads request files q.1.store next.store
    (next.reads.drop q.1.reads.length))

/-- The components that a document registers, and the reads that were made for them. -/
def registeredBy (reader : Reader) (request : Request) (past : List Text) (s : Store)
    (uri : Text) : Loaded (Except Fault (Keyed Component)) × List Moment :=
  let files := reader past
  let own := component files s uri
  let moments := Moment.ofReads request files s own.store own.reads
  match own.value with
  | .error f => ({ own with value := .error f }, moments)
  | .ok none => ({ own with value := .ok [] }, moments)
  | .ok (some c) =>
      c.registered.foldl (addRegisteredBy reader request past)
        ({ own with value := .ok [] }, moments)

theorem registeredBy_const (files : Files) (request : Request) (past : List Text) (s : Store)
    (uri : Text) :
    (registeredBy (fun _ => files) request past s uri).1 = registered files s uri := by
  have hfold (rs : List Registration)
      (q : Loaded (Except Fault (Keyed Component)) × List Moment) :
      (rs.foldl (addRegisteredBy (fun _ => files) request past) q).1 =
        rs.foldl (addRegistered files) q.1 := by
    induction rs generalizing q with
    | nil =>
        rfl
    | cons r rest ih =>
        exact ih _
  unfold registeredBy registered
  simp only
  cases (component files s uri).value with
  | error f =>
      rfl
  | ok found =>
      cases found with
      | none =>
          rfl
      | some c =>
          exact hfold _ _

/-- A store, and what was done to it and read for it. -/
structure Journal where
  store : Store := []
  moments : List Moment := []

namespace Journal

def next (reader : Reader) (j : Journal) (request : Request) : Journal :=
  let past := j.moments.filterMap Moment.readUri?
  let files := reader past
  match request with
  | .component uri =>
      let own := Store.component files j.store uri
      ⟨own.store, j.moments ++ Moment.ofReads request files j.store own.store own.reads⟩
  | .registered uri =>
      let found := registeredBy reader request past j.store uri
      ⟨found.1.store, j.moments ++ found.2⟩
  | .projection uri =>
      let built := j.store.projection uri
      ⟨built.store, j.moments ++ Moment.ofReads request files j.store built.store built.reads⟩
  | .markup uri => ⟨(j.store.markup? uri).2, j.moments⟩
  | _ =>
      let after := (request.under files).apply j.store
      ⟨after, j.moments ++ [.changed request j.store after]⟩

def after (reader : Reader) (requests : List Request) : Journal :=
  requests.foldl (next reader) {}

end Journal

/-!
# One read
-/

variable {s : Store} {uri : Text}

theorem component_reads_of_stored {e : Entry} (files : Files) (he : s.entryOf? uri = some e) :
    (component files s uri).reads = [] := by
  rw [component_of_stored files he]

theorem component_reads_of_absent (files : Files) (hnone : s.entryOf? uri = none) :
    (component files s uri).reads = [uri] := by
  unfold component
  rw [hnone]
  simp only
  split <;> rfl

/-- A text that is read becomes a document that is not open, and no other one is touched. -/
theorem component_of_text {files : Files} {text : Text} (hnone : s.entryOf? uri = none)
    (htext : files uri = .text text) :
    (forall k, k ≠ uri -> (component files s uri).store.entryOf? k = s.entryOf? k) ∧
      exists e, (component files s uri).store.entryOf? uri = some e ∧ e.text = text ∧
        e.isOpen = false := by
  have hput (e : Entry) (t : Store) {k : Text} (hk : k ≠ uri) :
      Store.entryOf? (Keyed.put uri e t) k = t.entryOf? k := by
    rw [entryOf?_put, if_neg (Ne.symm hk)]
  have hadded (e : Entry) : Store.entryOf? (Keyed.put uri e s) uri = some e := by
    rw [entryOf?_put, if_pos rfl]
  unfold component
  rw [hnone]
  simp only [htext]
  constructor
  · intro k hk
    rcases ownComponent_store (Keyed.put uri { text := text, isOpen := false } s) uri
      { text := text, isOpen := false } with hsame | ⟨e, hkept, _⟩
    · rw [hsame, hput _ _ hk]
    · rw [hkept, hput _ _ hk, hput _ _ hk]
  · rcases ownComponent_enriches (hadded _) uri _ (hadded _) with ⟨e, he, henriched⟩
    exact ⟨e, he, henriched.text, henriched.isOpen⟩

theorem component_without_text {files : Files} (hnone : s.entryOf? uri = none)
    (htext : forall text, files uri ≠ .text text) : (component files s uri).store = s := by
  unfold component
  rw [hnone]
  simp only
  split
  · rfl
  · rfl
  · next text hread =>
      exact absurd hread (htext text)

theorem orderly_of_absent {request : Request} {files : Files}
    (hrequest : request = .component uri ∨ exists parent, request = .registered parent)
    (hnone : s.entryOf? uri = none) :
    Moment.Orderly (.read request uri (files uri) s (component files s uri).store) := by
  refine ⟨hrequest, hnone, ?_, fun text htext => (component_of_text hnone htext).2,
    component_without_text hnone⟩
  intro k e he
  have hk : k ≠ uri := by
    intro hk
    rw [hk, hnone] at he
    cases he
  by_cases htext : exists text, files uri = .text text
  · rcases htext with ⟨text, htext⟩
    rw [(component_of_text hnone htext).1 k hk, he]
  · rw [component_without_text hnone fun text h => htext ⟨text, h⟩, he]

theorem addRegistered_cases (files : Files) (found : Loaded (Except Fault (Keyed Component)))
    (r : Registration) :
    ((addRegistered files found r).store = found.store ∧
        (addRegistered files found r).reads = found.reads) ∨
      exists uri, (addRegistered files found r).store = (component files found.store uri).store ∧
        (addRegistered files found r).reads =
          found.reads ++ (component files found.store uri).reads := by
  unfold addRegistered
  split
  · exact Or.inl ⟨rfl, rfl⟩
  · simp only
    split
    · exact Or.inl ⟨rfl, rfl⟩
    · next uri _ =>
        exact Or.inr ⟨uri, rfl, rfl⟩

omit [ScriptParser] in
theorem readUris_ofReads (request : Request) (files : Files) (before after : Store)
    (reads : List Text) :
    (Moment.ofReads request files before after reads).filterMap Moment.readUri? = reads := by
  rw [Moment.ofReads, List.filterMap_map]
  exact List.filterMap_some

theorem registeredBy_reads (reader : Reader) (request : Request) (past : List Text) (s : Store)
    (uri : Text) :
    (registeredBy reader request past s uri).2.filterMap Moment.readUri? =
      (registeredBy reader request past s uri).1.reads := by
  have hfold (rs : List Registration)
      (q : Loaded (Except Fault (Keyed Component)) × List Moment)
      (hq : q.2.filterMap Moment.readUri? = q.1.reads) :
      (rs.foldl (addRegisteredBy reader request past) q).2.filterMap Moment.readUri? =
        (rs.foldl (addRegisteredBy reader request past) q).1.reads := by
    induction rs generalizing q with
    | nil =>
        exact hq
    | cons r rest ih =>
        apply ih
        simp only [addRegisteredBy, List.filterMap_append, readUris_ofReads, hq]
        rcases addRegistered_cases (reader (past ++ q.1.reads)) q.1 r with
          ⟨_, hreads⟩ | ⟨uri, _, hreads⟩
        · rw [hreads, List.drop_length, List.append_nil]
        · rw [hreads, List.drop_left]
  unfold registeredBy
  simp only
  split
  · exact readUris_ofReads ..
  · exact readUris_ofReads ..
  · exact hfold _ _ (readUris_ofReads ..)

def Operation.reads (s : Store) : Operation -> List Text
  | .component files uri => (Store.component files s uri).reads
  | .registered files uri => (Store.registered files s uri).reads
  | .projection uri => (s.projection uri).reads
  | _ => []

/-- Among files that stay as they are, a journal follows the operations of the store. -/
theorem Journal.next_under (files : Files) (j : Journal) (request : Request) :
    (j.next (fun _ => files) request).store = (request.under files).apply j.store ∧
      (j.next (fun _ => files) request).moments.filterMap Moment.readUri? =
        j.moments.filterMap Moment.readUri? ++ (request.under files).reads j.store := by
  cases request with
  | registered uri =>
      have hsame (past : List Text) := registeredBy_const files (.registered uri) past j.store uri
      refine ⟨congrArg Loaded.store (hsame _), ?_⟩
      simp only [next, List.filterMap_append, registeredBy_reads, hsame, Request.under,
        Operation.reads]
  | component | projection =>
      refine ⟨rfl, ?_⟩
      simp only [next, List.filterMap_append, readUris_ofReads, Request.under, Operation.reads]
  | markup =>
      exact ⟨rfl, (List.append_nil _).symm⟩
  | openText | updateText | close | forget | clear =>
      exact ⟨rfl, List.filterMap_append⟩

/-!
# Changes of texts
-/

namespace Operation

variable {op : Operation} {k : Text}

theorem beside (h : op.changedUri? = some uri) (hk : k ≠ uri) :
    Option.Rel (fun e e' => e'.text = e.text ∧ e'.isOpen = e.isOpen)
      (s.entryOf? k) ((op.apply s).entryOf? k) := by
  by_cases hforget : op = .forget uri ∧ s.HoldsOpen uri
  · rcases hforget with ⟨rfl, hopen⟩
    rw [apply, forget_of_open hopen]
    cases s.entryOf? k with
    | none =>
        exact Option.Rel.none
    | some e =>
        exact Option.Rel.some ⟨rfl, rfl⟩
  · have hentry := (changesOnly h hforget).entry k hk
    generalize s.entryOf? k = before, (op.apply s).entryOf? k = after at hentry ⊢
    cases hentry with
    | none =>
        exact Option.Rel.none
    | some hspared =>
        exact Option.Rel.some ⟨hspared.text, hspared.isOpen⟩

end Operation

omit [ScriptParser] in
theorem entryOf?_invalidateDependents_self (s : Store) (uri : Text) :
    (s.invalidateDependents uri).entryOf? uri = s.entryOf? uri := by
  rw [entryOf?_invalidateDependents]
  simp

omit [ScriptParser] in
theorem openText_entry (s : Store) (uri text : Text) (version : Int) :
    exists e, (s.openText uri text version).entryOf? uri = some e ∧ e.text = text := by
  unfold openText
  simp only
  rw [entryOf?_invalidateDependents_self, entryOf?_put, if_pos rfl]
  cases s.entryOf? uri with
  | none =>
      exact ⟨_, rfl, rfl⟩
  | some e =>
      exact ⟨_, rfl, rfl⟩

omit [ScriptParser] in
theorem updateText_entry (s : Store) (uri text : Text) (version : Int) :
    exists e, (s.updateText uri text version).2.entryOf? uri = some e ∧ e.text = text := by
  unfold updateText
  split
  · exact openText_entry s uri text version
  · simp only
    rw [entryOf?_invalidateDependents_self, entryOf?_put, if_pos rfl]
    exact ⟨_, rfl, rfl⟩

omit [ScriptParser] in
theorem entryOf?_forget (h : s.keys.Nodup) (hclosed : ¬ s.HoldsOpen uri) :
    (s.forget uri).2.entryOf? uri = none := by
  unfold forget
  split
  · next e he =>
      split
      · next hopen =>
          exact absurd ⟨e, he, hopen⟩ hclosed
      · exact entryOf?_close h uri
  · next hnone =>
      simp only
      rw [entryOf?_invalidateDependents_self, hnone]

namespace Request

def isChange : Request -> Bool
  | .openText .. | .updateText .. | .close _ | .forget _ | .clear => true
  | .markup _ | .component _ | .registered _ | .projection _ => false

variable {request : Request} {files : Files} {k : Text}

/-- Only a document that is closed or forgotten leaves the store, or all of them at once. -/
theorem removes_of_gone (hchange : request.isChange = true) (hstored : (s.entryOf? k).isSome)
    (hgone : ((request.under files).apply s).entryOf? k = none) :
    request = .close k ∨ request = .forget k ∨ request = .clear := by
  -- A change to one document takes no other one out.
  have hown (uri : Text) (h : (request.under files).changedUri? = some uri) : uri = k := by
    by_contra hne
    have hentry := Operation.beside (s := s) h (Ne.symm hne)
    rw [hgone] at hentry
    generalize s.entryOf? k = before at hentry hstored
    cases hentry
    cases hstored
  cases request with
  | openText uri text version =>
      cases hown uri rfl
      rcases openText_entry s k text version with ⟨e, he, _⟩
      rw [under, Operation.apply, he] at hgone
      cases hgone
  | updateText uri text version =>
      cases hown uri rfl
      rcases updateText_entry s k text version with ⟨e, he, _⟩
      rw [under, Operation.apply, he] at hgone
      cases hgone
  | close uri =>
      exact Or.inl (congrArg Request.close (hown uri rfl))
  | forget uri =>
      exact Or.inr (Or.inl (congrArg Request.forget (hown uri rfl)))
  | clear =>
      exact Or.inr (Or.inr rfl)
  | markup | component | registered | projection =>
      cases hchange

/-- An open document has the text that it is given, or keeps the one that it had. -/
theorem given_of_open {after : Store} {e' : Entry} (hchange : request.isChange = true)
    (hnodup : s.keys.Nodup) (he' : ((request.under files).apply s).entryOf? k = some e')
    (hopen : e'.isOpen = true) :
    Moment.given? k (.changed request s after) = some e'.text ∨
      (Moment.given? k (.changed request s after) = none ∧
        exists e, s.entryOf? k = some e ∧ e.text = e'.text ∧ e.isOpen = true) := by
  have hbeside (uri : Text) (h : (request.under files).changedUri? = some uri) (hk : k ≠ uri) :
      exists e, s.entryOf? k = some e ∧ e.text = e'.text ∧ e.isOpen = true := by
    have hentry := Operation.beside (s := s) h hk
    rw [he'] at hentry
    generalize s.entryOf? k = before at hentry
    cases hentry with
    | some hsame =>
        exact ⟨_, rfl, hsame.1.symm, hsame.2 ▸ hopen⟩
  cases request with
  | openText uri text version =>
      by_cases hk : k = uri
      · subst hk
        rcases openText_entry s k text version with ⟨e, he, htext⟩
        rw [under, Operation.apply, he] at he'
        cases he'
        exact Or.inl ((if_pos rfl).trans (congrArg some htext.symm))
      · exact Or.inr ⟨if_neg (Ne.symm hk), hbeside uri rfl hk⟩
  | updateText uri text version =>
      by_cases hk : k = uri
      · subst hk
        rcases updateText_entry s k text version with ⟨e, he, htext⟩
        rw [under, Operation.apply, he] at he'
        cases he'
        exact Or.inl ((if_pos rfl).trans (congrArg some htext.symm))
      · exact Or.inr ⟨if_neg (Ne.symm hk), hbeside uri rfl hk⟩
  | close uri =>
      refine Or.inr ⟨rfl, ?_⟩
      by_cases hk : k = uri
      · subst hk
        rw [under, Operation.apply, entryOf?_close hnodup] at he'
        cases he'
      · exact hbeside uri rfl hk
  | forget uri =>
      refine Or.inr ⟨rfl, ?_⟩
      by_cases hk : k = uri
      · subst hk
        rw [under, Operation.apply] at he'
        by_cases hheld : s.HoldsOpen k
        · rw [forget_of_open hheld] at he'
          exact ⟨e', he', rfl, hopen⟩
        · rw [entryOf?_forget hnodup hheld] at he'
          cases he'
      · exact hbeside uri rfl hk
  | clear =>
      cases he'
  | markup | component | registered | projection =>
      cases hchange

end Request

/-!
# What is held from files
-/

def lastGiven (uri : Text) (moments : List Moment) : Option Text :=
  (moments.filterMap (Moment.given? uri)).getLast?

/-- The text of a file was read, and its document has not left the store since. -/
def Held (uri : Text) (moments : List Moment) : Prop :=
  exists earlier request text before after later,
    moments = earlier ++ .read request uri (.text text) before after :: later ∧
      forall m, m ∈ later -> ¬ m.Removes uri

omit [ScriptParser] in
/-- The last of some moments is the one that is looked at, or stands behind it. -/
theorem concat_eq_append_cons {α : Type} {xs before after : List α} {x y : α}
    (h : xs ++ [x] = before ++ y :: after) :
    (after = [] ∧ before = xs ∧ y = x) ∨
      exists rest, after = rest ++ [x] ∧ xs = before ++ y :: rest := by
  rcases List.eq_nil_or_concat' after with hnil | ⟨rest, last, hlast⟩
  · subst hnil
    have hpair := List.append_inj' h rfl
    exact Or.inl ⟨rfl, hpair.1.symm, (List.cons.inj hpair.2).1.symm⟩
  · subst hlast
    rw [← List.cons_append, ← List.append_assoc] at h
    have hpair := List.append_inj' h rfl
    cases hpair.2
    exact Or.inr ⟨rest, rfl, hpair.1⟩

omit [ScriptParser] in
theorem held_concat {moments : List Moment} {m : Moment} (h : Held uri (moments ++ [m])) :
    (Held uri moments ∧ ¬ m.Removes uri) ∨
      exists request text before after, m = .read request uri (.text text) before after := by
  rcases h with ⟨earlier, request, text, before, after, later, hsplit, hkept⟩
  rcases concat_eq_append_cons hsplit with ⟨_, _, hm⟩ | ⟨rest, hlater, hmoments⟩
  · exact Or.inr ⟨request, text, before, after, hm.symm⟩
  · subst hlater
    refine Or.inl ⟨⟨earlier, request, text, before, after, rest, hmoments, ?_⟩, ?_⟩
    · intro m' hm'
      exact hkept m' (List.mem_append_left _ hm')
    · exact hkept m (List.mem_append_right _ List.mem_cons_self)

omit [ScriptParser] in
theorem lastGiven_concat (uri : Text) (moments : List Moment) (m : Moment) :
    lastGiven uri (moments ++ [m]) = (m.given? uri).or (lastGiven uri moments) := by
  unfold lastGiven
  rw [List.filterMap_append]
  cases hgiven : m.given? uri with
  | none =>
      simp [hgiven]
  | some text =>
      simp [hgiven]

namespace Journal

structure Sound (j : Journal) : Prop where
  nodup : j.store.keys.Nodup
  coherent : j.store.Coherent
  orderly : forall m, m ∈ j.moments -> m.Orderly
  given : forall uri e, j.store.entryOf? uri = some e -> e.isOpen = true ->
    lastGiven uri j.moments = some e.text
  held : forall uri, Held uri j.moments -> (j.store.entryOf? uri).isSome
  apart : forall uri earlier request got before after later,
    j.moments = earlier ++ .read request uri got before after :: later -> ¬ Held uri earlier

variable {j : Journal}

theorem sound_empty : Sound {} where
  nodup := List.nodup_nil
  coherent _ _ hmem := by cases hmem
  orderly _ hm := by cases hm
  given _ _ he := by cases he
  held uri h := by
    rcases h with ⟨_, _, _, _, _, _, hsplit, _⟩
    exact absurd hsplit.symm (List.append_ne_nil_of_right_ne_nil _ (List.cons_ne_nil _ _))
  apart _ _ _ _ _ _ _ hsplit :=
    absurd hsplit.symm (List.append_ne_nil_of_right_ne_nil _ (List.cons_ne_nil _ _))

theorem Sound.query {after : Store} (h : j.Sound) (henriches : j.store.Enriches after)
    (hextends : j.store.Extends True after) (hcoherent : after.Coherent) :
    Sound ⟨after, j.moments⟩ where
  nodup := hextends.nodup h.nodup
  coherent := hcoherent
  orderly := h.orderly
  given uri e' he' hopen := by
    cases he : j.store.entryOf? uri with
    | none =>
        rcases hextends.brought uri e' he he' with ⟨_, text, hgrows⟩
        rw [hgrows.isOpen] at hopen
        cases hopen
    | some e =>
        rcases henriches uri e he with ⟨same, hsame, henriched⟩
        rw [he'] at hsame
        cases hsame
        rw [henriched.text]
        exact h.given uri e he (henriched.isOpen ▸ hopen)
  held uri hheld := by
    rcases Option.isSome_iff_exists.mp (h.held uri hheld) with ⟨e, he⟩
    rcases henriches uri e he with ⟨e', he', _⟩
    exact Option.isSome_iff_exists.mpr ⟨e', he'⟩
  apart := h.apart

/-- A file is read whose document is in the store only afterwards, if at all. -/
theorem Sound.read {request : Request} {uri : Text} {got : FileText} {before : Store}
    (h : j.Sound) (horderly : Moment.Orderly (.read request uri got before j.store))
    (hfree : ¬ Held uri j.moments) :
    Sound ⟨j.store, j.moments ++ [.read request uri got before j.store]⟩ where
  nodup := h.nodup
  coherent := h.coherent
  orderly m hm := by
    rcases List.mem_append.mp hm with hm | hm
    · exact h.orderly m hm
    · rw [List.mem_singleton.mp hm]
      exact horderly
  given k e he hopen := by
    rw [lastGiven_concat]
    exact h.given k e he hopen
  held k hheld := by
    rcases held_concat hheld with ⟨hheld, _⟩ | ⟨_, text, _, _, hm⟩
    · exact h.held k hheld
    · cases hm
      rcases horderly.2.2.2.1 text rfl with ⟨e, he, _⟩
      exact Option.isSome_iff_exists.mpr ⟨e, he⟩
  apart k earlier request' got' before' after' later hsplit := by
    rcases concat_eq_append_cons hsplit with ⟨_, hearlier, hm⟩ | ⟨rest, _, hmoments⟩
    · cases hm
      rw [hearlier]
      exact hfree
    · exact h.apart k earlier request' got' before' after' rest hmoments

theorem Sound.changed {request : Request} {files : Files} (h : j.Sound)
    (hchange : request.isChange = true) :
    Sound ⟨(request.under files).apply j.store,
      j.moments ++ [.changed request j.store ((request.under files).apply j.store)]⟩ where
  nodup := ((request.under files).counts h.nodup).nodup
  coherent := (request.under files).coherent h.coherent
  orderly m hm := by
    rcases List.mem_append.mp hm with hm | hm
    · exact h.orderly m hm
    · rw [List.mem_singleton.mp hm]
      trivial
  given k e' he' hopen := by
    rw [lastGiven_concat]
    rcases Request.given_of_open hchange h.nodup he' hopen with
      hgiven | ⟨hnone, e, he, htext, hopen⟩
    · rw [hgiven, Option.some_or]
    · rw [hnone, Option.none_or, ← htext]
      exact h.given k e he hopen
  held k hheld := by
    rcases held_concat hheld with ⟨hheld, hkept⟩ | ⟨_, _, _, _, hm⟩
    · rw [Option.isSome_iff_ne_none]
      intro hgone
      have hstored := h.held k hheld
      exact hkept ⟨Request.removes_of_gone hchange hstored hgone, hstored, hgone⟩
    · cases hm
  apart k earlier request' got before after later hsplit := by
    rcases concat_eq_append_cons hsplit with ⟨_, _, hm⟩ | ⟨rest, _, hmoments⟩
    · cases hm
    · exact h.apart k earlier request' got before after rest hmoments

/-- A component that a query asks for is read at most once, and only if it is not in the store. -/
theorem Sound.component {request : Request} {uri : Text} (h : j.Sound) (files : Files)
    (hrequest : request = .component uri ∨ exists parent, request = .registered parent) :
    Sound ⟨(Store.component files j.store uri).store, j.moments ++
      Moment.ofReads request files j.store (Store.component files j.store uri).store
        (Store.component files j.store uri).reads⟩ := by
  have hquery := h.query (component_enriches files j.store uri)
    (component_extends trivial files j.store uri) (h.coherent.component files uri)
  cases he : j.store.entryOf? uri with
  | some e =>
      rw [component_reads_of_stored files he, Moment.ofReads, List.map_nil, List.append_nil]
      exact hquery
  | none =>
      rw [component_reads_of_absent files he]
      refine hquery.read (orderly_of_absent hrequest he) ?_
      intro hheld
      have hstored := h.held uri hheld
      rw [he] at hstored
      cases hstored

theorem Sound.addRegisteredBy {reader : Reader} {parent : Text} {past : List Text}
    {earlier : List Moment} {q : Loaded (Except Fault (Keyed Component)) × List Moment}
    (h : Sound ⟨q.1.store, earlier ++ q.2⟩) (r : Registration) :
    Sound ⟨(addRegisteredBy reader (.registered parent) past q r).1.store,
      earlier ++ (addRegisteredBy reader (.registered parent) past q r).2⟩ := by
  simp only [Store.addRegisteredBy, ← List.append_assoc]
  rcases addRegistered_cases (reader (past ++ q.1.reads)) q.1 r with
    ⟨hstore, hreads⟩ | ⟨uri, hstore, hreads⟩
  · rw [hstore, hreads, List.drop_length, Moment.ofReads, List.map_nil, List.append_nil]
    exact h
  · rw [hstore, hreads, List.drop_left]
    exact h.component _ (Or.inr ⟨parent, rfl⟩)

theorem Sound.registeredBy {past : List Text} (h : j.Sound) (reader : Reader) (uri : Text) :
    Sound ⟨(registeredBy reader (.registered uri) past j.store uri).1.store,
      j.moments ++ (registeredBy reader (.registered uri) past j.store uri).2⟩ := by
  have hown : Sound ⟨(Store.component (reader past) j.store uri).store, j.moments ++
      Moment.ofReads (.registered uri) (reader past) j.store
        (Store.component (reader past) j.store uri).store
        (Store.component (reader past) j.store uri).reads⟩ :=
    h.component (reader past) (Or.inr ⟨uri, rfl⟩)
  -- One registration after another, from what the component of the document left.
  have hfold (rs : List Registration)
      (q : Loaded (Except Fault (Keyed Component)) × List Moment)
      (hq : Sound ⟨q.1.store, j.moments ++ q.2⟩) :
      Sound ⟨(rs.foldl (Store.addRegisteredBy reader (.registered uri) past) q).1.store,
        j.moments ++ (rs.foldl (Store.addRegisteredBy reader (.registered uri) past) q).2⟩ := by
    induction rs generalizing q with
    | nil =>
        exact hq
    | cons r rest ih =>
        exact ih _ (hq.addRegisteredBy r)
  unfold Store.registeredBy
  simp only
  split
  · exact hown
  · exact hown
  · next c _ =>
      exact hfold c.registered _ hown

theorem Sound.next (h : j.Sound) (reader : Reader) (request : Request) :
    (j.next reader request).Sound := by
  cases request with
  | openText | updateText | close | forget | clear =>
      exact h.changed rfl
  | markup uri =>
      exact h.query (markup?_enriches j.store uri) (markup?_extends j.store uri)
        (h.coherent.markup? uri)
  | component uri =>
      exact h.component _ (Or.inl rfl)
  | registered uri =>
      exact h.registeredBy reader uri
  | projection uri =>
      simp only [Journal.next, projection_reads, Moment.ofReads, List.map_nil, List.append_nil]
      exact h.query (projection_enriches j.store uri) (projection_extends j.store uri)
        (h.coherent.projection uri)

theorem sound_after (reader : Reader) (requests : List Request) :
    (after reader requests).Sound := by
  have hrun (requests : List Request) (j : Journal) (h : j.Sound) :
      (requests.foldl (next reader) j).Sound := by
    induction requests generalizing j with
    | nil =>
        exact h
    | cons request rest ih =>
        exact ih _ (h.next reader request)
  exact hrun requests {} sound_empty

/--
Whatever is asked of a store, and whatever its files give at each read: a file is read for queries
of components only, so for no projection, and only while its document is not in the store.  A
read without a text changes nothing.  An open document has the text that an editor gave to it
last, and its component is the one of that text.  Between two reads of a file, the first of which
gave a text, its document was closed or forgotten, or the store was cleared.
-/
theorem files_read_while_absent (reader : Reader) (requests : List Request) :
    (forall m, m ∈ (after reader requests).moments -> m.Orderly) ∧
      (forall uri e, (after reader requests).store.entryOf? uri = some e -> e.isOpen = true ->
        lastGiven uri (after reader requests).moments = some e.text ∧
          forall c, e.derived.component = some c -> c = componentOf uri e.text) ∧
      forall uri text got earlier between later r r' b b' a a',
        (after reader requests).moments = earlier ++ .read r uri (.text text) b a ::
          (between ++ .read r' uri got b' a' :: later) ->
        exists m, m ∈ between ∧ m.Removes uri := by
  have hsound := sound_after reader requests
  refine ⟨hsound.orderly, ?_, ?_⟩
  · intro uri e he hopen
    exact ⟨hsound.given uri e he hopen, (hsound.coherent.entryOf? he).component⟩
  · intro uri text got earlier between later r r' b b' a a' hsplit
    by_contra hkept
    refine hsound.apart uri (earlier ++ .read r uri (.text text) b a :: between) r' got b' a' later
      (by rw [hsplit, List.append_assoc, List.cons_append]) ?_
    exact ⟨earlier, r, text, b, a, between, rfl, fun m hm hremoves => hkept ⟨m, hm, hremoves⟩⟩

end Journal
end Store

end

namespace Store
namespace Journal

def latecomer : Reader := fun past _ =>
  if past.isEmpty then .missing else .text []

/-- A registered document is missing, is read, is still there, is forgotten, and is read again. -/
def forgetting : Journal :=
  after latecomer [.openText registeringUri registeringText 1, .registered registeringUri,
    .registered registeringUri, .registered registeringUri, .forget registeredUri,
    .registered registeringUri]

theorem files_read_while_absent_forgotten :
    (exists e, forgetting.store.entryOf? registeringUri = some e ∧ e.isOpen = true ∧
        lastGiven registeringUri forgetting.moments = some e.text) ∧
      exists first missed b a between r b' a',
        forgetting.moments = [first, missed] ++ .read r registeredUri (.text []) b a ::
          ([between] ++ .read r registeredUri (.text []) b' a' :: []) ∧
        missed.Orderly ∧ between.Removes registeredUri := by
  have hfacts : (forgetting.store.entryOf? registeringUri).any (·.isOpen) = true ∧
      forgetting.moments.map Moment.found? =
        [none, some (.registered registeringUri, registeredUri, .missing),
          some (.registered registeringUri, registeredUri, .text []), none,
          some (.registered registeringUri, registeredUri, .text [])] := by
    decide +kernel
  rcases hfacts with ⟨hopen, hshape⟩
  rcases files_read_while_absent latecomer [.openText registeringUri registeringText 1,
    .registered registeringUri, .registered registeringUri, .registered registeringUri,
    .forget registeredUri, .registered registeringUri] with ⟨horderly, hgiven, hapart⟩
  constructor
  · rcases (Option.any_eq_true _ _).mp hopen with ⟨e, he, hopen⟩
    exact ⟨e, he, hopen, (hgiven registeringUri e he hopen).1⟩
  · rcases List.map_eq_cons_iff.mp hshape with ⟨first, rest, hmoments, -, hrest⟩
    rcases List.map_eq_cons_iff.mp hrest with ⟨missed, rest, rfl, -, hrest⟩
    rcases List.map_eq_cons_iff.mp hrest with ⟨once, rest, rfl, honce, hrest⟩
    rcases List.map_eq_cons_iff.mp hrest with ⟨between, rest, rfl, -, hrest⟩
    rcases List.map_eq_cons_iff.mp hrest with ⟨again, rest, rfl, hagain, hrest⟩
    cases List.map_eq_nil_iff.mp hrest
    rcases Moment.found?_eq_some honce with ⟨b, a, rfl⟩
    rcases Moment.found?_eq_some hagain with ⟨b', a', rfl⟩
    rcases hapart registeredUri [] (.text []) [first, missed] [between] [] _ _ b b' a a'
      hmoments with ⟨m, hm, hremoves⟩
    rw [List.mem_singleton.mp hm] at hremoves
    have hmissed : missed ∈ forgetting.moments := by simp [hmoments]
    exact ⟨first, missed, b, a, between, _, b', a', hmoments, horderly missed hmissed, hremoves⟩

end Journal
end Store
end SfcServer
