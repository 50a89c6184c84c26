import SfcServer.Proofs.Store.Entries

/-!
# Versions of open documents

An editor gives a version with each text.  A change to a store gives a version to the
document that it is about, if the document is open then, and to no other.  Queries of a store
leave every version as it is; what they read from files is not open.
-/

namespace SfcServer

def Entry.openVersion? (e : Entry) : Option Int :=
  if e.isOpen then some e.version else none

namespace Store

def openVersion? (s : Store) (uri : Text) : Option Int :=
  (s.entryOf? uri).bind Entry.openVersion?

variable {brings : Prop} {s after : Store} {uri : Text}

theorem openVersion?_of_entry {e : Entry} (he : s.entryOf? uri = some e) :
    s.openVersion? uri = e.openVersion? := by
  rw [openVersion?, he, Option.bind_some]

theorem openVersion?_of_none (h : s.entryOf? uri = none) : s.openVersion? uri = none := by
  rw [openVersion?, h]
  rfl

theorem Extends.openVersion? (h : s.Extends brings after) (uri : Text) :
    after.openVersion? uri = s.openVersion? uri := by
  cases he : s.entryOf? uri with
  | some e =>
      rcases h.grows uri e he with ⟨e', he', hgrows⟩
      rw [openVersion?_of_entry he, openVersion?_of_entry he', Entry.openVersion?,
        hgrows.isOpen, hgrows.version, Entry.openVersion?]
  | none =>
      rw [openVersion?_of_none he]
      cases he' : after.entryOf? uri with
      | none =>
          exact openVersion?_of_none he'
      | some e' =>
          rcases h.brought uri e' he he' with ⟨_, text, hgrows⟩
          rw [openVersion?_of_entry he', Entry.openVersion?, hgrows.isOpen]
          rfl

/-!
# Changes
-/

theorem openVersion?_put (key k : Text) (e : Entry) (s : Store) :
    openVersion? (Keyed.put key e s) k =
      if key = k then e.openVersion? else s.openVersion? k := by
  rw [openVersion?, entryOf?_put]
  split
  · rfl
  · rfl

theorem openVersion?_erase (h : s.keys.Nodup) (key k : Text) :
    openVersion? (Keyed.erase key s) k = if key = k then none else s.openVersion? k := by
  rw [openVersion?, entryOf?, Keyed.get?_erase h]
  split
  · rfl
  · rfl

theorem openVersion?_invalidateDependents (s : Store) (uri k : Text) :
    (s.invalidateDependents uri).openVersion? k = s.openVersion? k := by
  rw [openVersion?, entryOf?_invalidateDependents, openVersion?]
  cases s.entryOf? k with
  | none =>
      rfl
  | some e =>
      simp only [Option.map_some, Option.bind_some]
      split
      · rfl
      · rfl

theorem openVersion?_openText (s : Store) (uri text : Text) (version : Int) (k : Text) :
    (s.openText uri text version).openVersion? k =
      if uri = k then some version else s.openVersion? k := by
  unfold openText
  rw [openVersion?_invalidateDependents, openVersion?_put]
  cases s.entryOf? uri with
  | none =>
      rfl
  | some e =>
      rfl

/-- A text that replaces another one gives its version to an open document only. -/
theorem openVersion?_updateText (h : (s.entryOf? uri).isSome) (text : Text) (version : Int)
    (k : Text) :
    (s.updateText uri text version).2.openVersion? k =
      if uri = k then (s.openVersion? k).map fun _ => version else s.openVersion? k := by
  rcases Option.isSome_iff_exists.mp h with ⟨e, he⟩
  unfold updateText
  rw [he]
  simp only
  rw [openVersion?_invalidateDependents, openVersion?_put]
  split
  · next hk =>
      subst hk
      rw [openVersion?_of_entry he]
      unfold Entry.openVersion?
      split
      · rfl
      · rfl
  · rfl

theorem openVersion?_close (h : s.keys.Nodup) (uri k : Text) :
    (s.close uri).openVersion? k = if uri = k then none else s.openVersion? k := by
  unfold close
  rw [openVersion?_invalidateDependents, openVersion?_erase h]

theorem openVersion?_forget (h : s.keys.Nodup) (uri k : Text) :
    (s.forget uri).2.openVersion? k = s.openVersion? k := by
  unfold forget
  split
  · next e he =>
      split
      · rfl
      · next hclosed =>
          rw [openVersion?_invalidateDependents, openVersion?_erase h]
          split
          · next hk =>
              subst hk
              rw [openVersion?_of_entry he, Entry.openVersion?, if_neg hclosed]
          · rfl
  · exact openVersion?_invalidateDependents s uri k

end Store
end SfcServer
