import SfcServer.Text.Basic

/-!
# Parts of a text

A part stands at an offset of a text when the text holds it there.  Parts of parts
stand where their offsets add up to, which is what every reader of a text relies on.
-/

namespace SfcServer
namespace Text

theorem drop_step {t rest : Text} {offset : Nat} {c : Char} (h : t.drop offset = c :: rest)
    (n : Nat) : t.drop (offset + 1 + n) = rest.drop n := by
  rw [Nat.add_assoc, ← List.drop_drop, h, Nat.add_comm, List.drop_succ_cons]

theorem slice_append_drop (t : Text) {start stop : Nat} (h : start ≤ stop) :
    t.slice start stop ++ t.drop stop = t.drop start := by
  by_cases hstop : stop ≤ t.length
  · rw [slice, ← List.drop_append_of_le_length (by rw [List.length_take]; omega),
      List.take_append_drop]
  · have hle := Nat.le_of_not_le hstop
    rw [slice, List.take_of_length_le hle, List.drop_eq_nil_of_le hle, List.append_nil]

def StandsAt (t : Text) (offset : Nat) (part : Text) : Prop :=
  exists before after, t = before ++ (part ++ after) ∧ before.length = offset

namespace StandsAt

variable {t part first rest : Text} {offset : Nat}

theorem whole (t : Text) : t.StandsAt 0 t :=
  ⟨[], [], by simp, rfl⟩

theorem le (h : t.StandsAt offset part) : offset + part.length ≤ t.length := by
  rcases h with ⟨before, after, ht, hoffset⟩
  have hlength := congrArg List.length ht
  simp only [List.length_append] at hlength
  omega

theorem left (h : t.StandsAt offset (first ++ rest)) : t.StandsAt offset first := by
  rcases h with ⟨before, after, ht, hoffset⟩
  exact ⟨before, rest ++ after, by rw [ht, List.append_assoc], hoffset⟩

theorem right (h : t.StandsAt offset (first ++ rest)) :
    t.StandsAt (offset + first.length) rest := by
  rcases h with ⟨before, after, ht, hoffset⟩
  refine ⟨before ++ first, after, ?_, ?_⟩
  · rw [ht]
    simp only [List.append_assoc]
  · rw [List.length_append, hoffset]

theorem tail {c : Char} (h : t.StandsAt offset (c :: rest)) : t.StandsAt (offset + 1) rest := by
  have hcons : c :: rest = [c] ++ rest := rfl
  rw [hcons] at h
  exact h.right

theorem within (h : t.StandsAt offset part) (before after : Text) :
    StandsAt (before ++ t ++ after) (before.length + offset) part := by
  rcases h with ⟨front, back, ht, hoffset⟩
  refine ⟨before ++ front, back ++ after, ?_, ?_⟩
  · rw [ht]
    simp only [List.append_assoc]
  · rw [List.length_append, hoffset]

theorem trans (h : t.StandsAt offset part) {k : Nat} {inner : Text}
    (hinner : part.StandsAt k inner) : t.StandsAt (offset + k) inner := by
  rcases h with ⟨before, after, ht, hoffset⟩
  rw [ht, ← hoffset, ← List.append_assoc]
  exact hinner.within before after

theorem getElem? (h : t.StandsAt offset part) {k : Nat} (hk : k < part.length) :
    t[offset + k]? = part[k]? := by
  rcases h with ⟨before, after, ht, hoffset⟩
  rw [ht, ← hoffset, List.getElem?_append_right (Nat.le_add_right _ _), Nat.add_sub_cancel_left,
    List.getElem?_append_left hk]

theorem slice (t : Text) {start stop : Nat} (hstart : start ≤ stop) (hstop : stop ≤ t.length) :
    t.StandsAt start (t.slice start stop) := by
  refine ⟨t.take start, t.drop stop, ?_, ?_⟩
  · rw [slice_append_drop t hstart, List.take_append_drop]
  · rw [List.length_take]
    omega

theorem slice_of_ne_nil {start stop : Nat} (h : t.slice start stop ≠ []) :
    t.StandsAt start (t.slice start stop) := by
  have hlength := List.length_pos_iff.mpr h
  simp only [Text.slice, List.length_drop, List.length_take] at hlength
  refine ⟨t.take start, t.drop stop, ?_, ?_⟩
  · rw [slice_append_drop t (by omega), List.take_append_drop]
  · rw [List.length_take]
    omega

theorem eq_slice (h : t.StandsAt offset part) :
    part = t.slice offset (offset + part.length) := by
  rcases h with ⟨before, after, ht, hoffset⟩
  rw [ht, Text.slice, ← hoffset, ← List.append_assoc, ← List.length_append, List.take_left,
    List.drop_left]

theorem slice_part (h : t.StandsAt offset part) {k n : Nat} (hk : k + n ≤ part.length) :
    t.slice (offset + k) (offset + k + n) = part.slice k (k + n) := by
  rcases h with ⟨before, after, ht, hoffset⟩
  have hstretch : part.StandsAt k (part.slice k (k + n)) :=
    StandsAt.slice part (Nat.le_add_right k n) hk
  have hwhole := hstretch.within before after
  rw [hoffset, List.append_assoc, ← ht] at hwhole
  have hlength : (part.slice k (k + n)).length = n := by
    simp only [Text.slice, List.length_drop, List.length_take]
    omega
  have heq := hwhole.eq_slice
  rw [hlength] at heq
  exact heq.symm

theorem slice_all {p : Char -> Bool} {start stop : Nat} (h : t.StandsAt offset part)
    (hall : forall c, c ∈ part -> p c = true) (hstart : offset ≤ start)
    (hstop : stop ≤ offset + part.length) : (t.slice start stop).all p = true := by
  rw [List.all_eq_true]
  intro c hc
  rcases List.mem_iff_getElem?.mp hc with ⟨n, hn⟩
  rw [Text.slice, List.getElem?_drop, List.getElem?_take] at hn
  split at hn
  · obtain ⟨k, hk⟩ : exists k, start + n = offset + k := ⟨start + n - offset, by omega⟩
    rw [hk, h.getElem? (by omega)] at hn
    exact hall c (List.mem_of_getElem? hn)
  · cases hn

end StandsAt

theorem length_slice (t : Text) (start stop : Nat) (hstop : stop ≤ t.length) :
    (t.slice start stop).length = stop - start := by
  simp only [slice, List.length_drop, List.length_take]
  omega

theorem slice_getElem? (t : Text) {start stop k : Nat} (h : start + k < stop) :
    (t.slice start stop)[k]? = t[start + k]? := by
  rw [slice, List.getElem?_drop, List.getElem?_take, if_pos h]

theorem slice_of_le (t : Text) {start stop : Nat} (h : stop ≤ start) : t.slice start stop = [] := by
  apply List.drop_eq_nil_iff.mpr
  rw [List.length_take]
  omega

theorem joinWith_standsAt {separator part : Text} {parts : List Text} {i : Nat}
    (h : parts[i]? = some part) :
    (joinWith separator parts).StandsAt
      ((parts.take i).flatten.length + i * separator.length) part := by
  induction parts generalizing i with
  | nil =>
      cases h
  | cons first rest ih =>
      cases i with
      | zero =>
          cases h
          rw [List.take_zero, List.flatten_nil, List.length_nil, Nat.zero_mul]
          cases rest with
          | nil =>
              exact StandsAt.whole part
          | cons next rest =>
              exact (StandsAt.whole
                (part ++ separator ++ joinWith separator (next :: rest))).left.left
      | succ i =>
          cases rest with
          | nil =>
              cases h
          | cons next rest =>
              have hrest := (StandsAt.whole
                (first ++ separator ++ joinWith separator (next :: rest))).right.trans (ih h)
              rw [List.take_succ_cons, List.flatten_cons, List.length_append, Nat.add_mul,
                Nat.one_mul]
              rw [List.length_append] at hrest
              have hplace : first.length + ((next :: rest).take i).flatten.length +
                  (i * separator.length + separator.length) =
                  0 + (first.length + separator.length) +
                    (((next :: rest).take i).flatten.length + i * separator.length) := by
                omega
              rw [hplace]
              exact hrest

theorem trim_split (t : Text) :
    exists after, t = t.takeWhile isBlank ++ (trim t ++ after) ∧
      forall c, c ∈ after -> isBlank c = true := by
  let body := t.dropWhile isBlank
  have hbody : body = trim t ++ (body.reverse.takeWhile isBlank).reverse := by
    have hreverse := congrArg List.reverse
      (List.takeWhile_append_dropWhile (p := isBlank) (l := body.reverse))
    rw [List.reverse_append, List.reverse_reverse] at hreverse
    exact hreverse.symm
  refine ⟨(body.reverse.takeWhile isBlank).reverse, ?_, ?_⟩
  · rw [← hbody]
    exact List.takeWhile_append_dropWhile.symm
  · intro c hmem
    exact List.all_eq_true.mp List.all_takeWhile c (List.mem_reverse.mp hmem)

end Text
end SfcServer
