import SfcServer.Keyed

/-!
# Finding rows

What adding, replacing and taking out a row mean for the rows that are found.  A row that
is taken out is gone only if no key stands twice, which adding and taking out preserve.
-/

namespace SfcServer
namespace Keyed

variable {α : Type}

theorem get?_put (key k : Text) (value : α) (rows : Keyed α) :
    get? k (put key value rows) = if key = k then some value else get? k rows := by
  induction rows with
  | nil =>
      rfl
  | cons row rest ih =>
      rcases row with ⟨other, old⟩
      by_cases hother : other = key
      · subst hother
        simp only [put, get?, if_true]
        split <;> rfl
      · rw [put, if_neg hother]
        simp only [get?, ih]
        split
        · next hk =>
            subst hk
            rw [if_neg (Ne.symm hother)]
        · rfl

theorem mem_of_get? {key : Text} {value : α} {rows : Keyed α} (h : get? key rows = some value) :
    (key, value) ∈ rows := by
  induction rows with
  | nil =>
      cases h
  | cons row rest ih =>
      rcases row with ⟨other, old⟩
      rw [get?] at h
      split at h
      · next hother =>
          cases h
          subst hother
          exact List.mem_cons_self
      · exact List.mem_cons_of_mem _ (ih h)

theorem mem_put {key : Text} {value : α} {rows : Keyed α} {row : Text × α}
    (h : row ∈ put key value rows) : row = (key, value) ∨ row ∈ rows := by
  induction rows with
  | nil =>
      exact Or.inl (List.mem_singleton.mp h)
  | cons first rest ih =>
      rcases first with ⟨other, old⟩
      rw [put] at h
      split at h
      · next hother =>
          subst hother
          rcases List.mem_cons.mp h with hrow | hrow
          · exact Or.inl hrow
          · exact Or.inr (List.mem_cons_of_mem _ hrow)
      · rcases List.mem_cons.mp h with hrow | hrow
        · exact Or.inr (hrow ▸ List.mem_cons_self)
        · exact (ih hrow).imp_right (List.mem_cons_of_mem _)

theorem mem_keys_iff {key : Text} {rows : Keyed α} :
    key ∈ rows.keys ↔ (get? key rows).isSome := by
  induction rows with
  | nil =>
      simp [keys, get?]
  | cons row rest ih =>
      rcases row with ⟨other, old⟩
      rw [keys, List.map_cons, List.mem_cons, get?]
      split
      · next hother =>
          simp [hother]
      · next hother =>
          rw [← ih, keys]
          simp [Ne.symm hother]

theorem get?_erase_of_ne {key k : Text} (h : key ≠ k) (rows : Keyed α) :
    get? k (erase key rows) = get? k rows := by
  induction rows with
  | nil =>
      rfl
  | cons row rest ih =>
      rcases row with ⟨other, old⟩
      rw [erase]
      split
      · next hother =>
          rw [get?, if_neg (hother ▸ h)]
      · rw [get?, get?, ih]

theorem erase_of_get?_none {key : Text} {rows : Keyed α} (h : get? key rows = none) :
    erase key rows = rows := by
  induction rows with
  | nil =>
      rfl
  | cons row rest ih =>
      rcases row with ⟨other, old⟩
      rw [get?] at h
      split at h
      · cases h
      · next hother =>
          rw [erase, if_neg hother, ih h]

theorem erase_sublist (key : Text) (rows : Keyed α) : (erase key rows).Sublist rows := by
  induction rows with
  | nil =>
      exact List.Sublist.refl _
  | cons row rest ih =>
      rcases row with ⟨other, old⟩
      rw [erase]
      split
      · exact List.sublist_cons_self _ _
      · exact ih.cons_cons _

theorem keys_erase_nodup {key : Text} {rows : Keyed α} (h : rows.keys.Nodup) :
    (erase key rows).keys.Nodup :=
  ((erase_sublist key rows).map Prod.fst).nodup h

theorem get?_erase {rows : Keyed α} (h : rows.keys.Nodup) (key k : Text) :
    get? k (erase key rows) = if key = k then none else get? k rows := by
  split
  · next hk =>
      subst hk
      induction rows with
      | nil =>
          rfl
      | cons row rest ih =>
          rcases row with ⟨other, old⟩
          rw [keys, List.map_cons, List.nodup_cons] at h
          rw [erase]
          split
          · next hother =>
              -- No later row has the key of the row that is taken out.
              have hnone : ¬ (get? key rest).isSome := fun hsome =>
                h.1 (hother ▸ mem_keys_iff.mpr hsome)
              exact Option.not_isSome_iff_eq_none.mp hnone
          · next hother =>
              rw [get?, if_neg hother, ih h.2]
  · next hk =>
      exact get?_erase_of_ne hk rows

theorem mem_keys_put {key k : Text} {value : α} {rows : Keyed α} :
    k ∈ (put key value rows).keys ↔ key = k ∨ k ∈ rows.keys := by
  rw [mem_keys_iff, get?_put, mem_keys_iff]
  split <;> simp_all

theorem keys_put_nodup {key : Text} {value : α} {rows : Keyed α} (h : rows.keys.Nodup) :
    (put key value rows).keys.Nodup := by
  induction rows with
  | nil =>
      simp [put, keys]
  | cons row rest ih =>
      rcases row with ⟨other, old⟩
      rw [keys, List.map_cons, List.nodup_cons] at h
      rw [put]
      split
      · rw [keys, List.map_cons, List.nodup_cons]
        exact h
      · next hother =>
          rw [keys, List.map_cons, List.nodup_cons]
          refine ⟨?_, ih h.2⟩
          intro hmem
          rcases mem_keys_put.mp hmem with hkey | hmem
          · exact hother hkey.symm
          · exact h.1 hmem

theorem get?_of_mem {key : Text} {value : α} {rows : Keyed α} (hnodup : rows.keys.Nodup)
    (h : (key, value) ∈ rows) : get? key rows = some value := by
  induction rows with
  | nil =>
      cases h
  | cons row rest ih =>
      rcases row with ⟨other, old⟩
      rw [keys, List.map_cons, List.nodup_cons] at hnodup
      rcases List.mem_cons.mp h with heq | hrest
      · cases heq
        rw [get?, if_pos rfl]
      · have hother : other ≠ key := by
          intro heq
          subst heq
          exact hnodup.1 (List.mem_map.mpr ⟨_, hrest, rfl⟩)
        rw [get?, if_neg hother]
        exact ih hnodup.2 hrest

/-!
# Other keys
-/

def beside (key : Text) (rows : Keyed α) : Keyed α :=
  rows.filter fun row => row.1 ≠ key

theorem keys_beside (key : Text) (rows : Keyed α) :
    (beside key rows).keys = rows.keys.filter (· ≠ key) := by
  unfold beside keys
  rw [List.filter_map]
  rfl

theorem beside_put (key : Text) (value : α) (rows : Keyed α) :
    beside key (put key value rows) = beside key rows := by
  unfold beside
  induction rows with
  | nil =>
      simp [put]
  | cons row rest ih =>
      rcases row with ⟨other, old⟩
      rw [put]
      split
      · next hother =>
          simp [hother]
      · simp only [List.filter_cons, ih]

theorem beside_erase (key : Text) (rows : Keyed α) :
    beside key (erase key rows) = beside key rows := by
  unfold beside
  induction rows with
  | nil =>
      rfl
  | cons row rest ih =>
      rcases row with ⟨other, old⟩
      rw [erase]
      split
      · next hother =>
          simp [hother]
      · simp only [List.filter_cons, ih]

end Keyed
end SfcServer
