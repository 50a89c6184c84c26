import SfcServer.Proofs.Text.Parts
import SfcServer.Protocol.Value

/-!
# Places and offsets

Every offset of a text lies on one line.  So the place of an offset leads back to it, and
places come in the order of their offsets.  A range is made of the places of two offsets of
the text, and holds the text between them.
-/

namespace SfcServer

def Place.NotAfter (p q : Place) : Prop :=
  p.line < q.line ∨ p.line = q.line ∧ p.column ≤ q.column

namespace Lines

/-!
# The starts of lines
-/

theorem startsFrom_bounds {offset start : Nat} {t : Text} (h : start ∈ startsFrom offset t) :
    offset < start ∧ start ≤ offset + t.length := by
  induction t generalizing offset with
  | nil =>
      cases h
  | cons c rest ih =>
      rw [List.length_cons]
      rw [startsFrom] at h
      split at h
      · rcases List.mem_cons.mp h with heq | hrest
        · omega
        · have hbounds := ih hrest
          omega
      · have hbounds := ih h
        omega

theorem startsFrom_ascending (offset : Nat) (t : Text) :
    (startsFrom offset t).Pairwise (· < ·) := by
  induction t generalizing offset with
  | nil =>
      exact List.Pairwise.nil
  | cons c rest ih =>
      rw [startsFrom]
      split
      · apply List.pairwise_cons.mpr
        constructor
        · intro start hstart
          exact (startsFrom_bounds hstart).1
        · exact ih (offset + 1)
      · exact ih (offset + 1)

theorem ofText_ascending (t : Text) : (ofText t).starts.Pairwise (· < ·) := by
  apply List.pairwise_cons.mpr
  constructor
  · intro start hstart
    exact (startsFrom_bounds hstart).1
  · exact startsFrom_ascending 0 t

/-- The starts up to an offset, of which there is at least one, and those behind it. -/
theorem starts_split (t : Text) (offset : Nat) :
    exists front start ahead, (ofText t).starts = front ++ start :: ahead ∧
      (ofText t).starts.takeWhile (· ≤ offset) = front ++ [start] ∧ start ≤ offset ∧
      forall next, ahead.head? = some next -> offset < next := by
  have hparts : (ofText t).starts.takeWhile (· ≤ offset) ++
      (ofText t).starts.dropWhile (· ≤ offset) = (ofText t).starts :=
    List.takeWhile_append_dropWhile
  have hnot := List.head?_dropWhile_not (fun start => decide (start ≤ offset)) (ofText t).starts
  have hpassed : forall start, start ∈ (ofText t).starts.takeWhile (· ≤ offset) ->
      start ≤ offset := by
    intro start hmem
    exact of_decide_eq_true (List.all_eq_true.mp List.all_takeWhile start hmem)
  -- The first line starts with the text, so it has been passed.
  have hfirst : (ofText t).starts.takeWhile (· ≤ offset) ≠ [] := by
    simp [ofText]
  rcases List.getLast?_eq_some_iff.mp (List.getLast?_eq_some_getLast hfirst) with ⟨front, hfront⟩
  refine ⟨front, _, (ofText t).starts.dropWhile (· ≤ offset), ?_, hfront,
    hpassed _ (List.getLast_mem hfirst), ?_⟩
  · rw [List.append_cons, ← hfront]
    exact hparts.symm
  · intro next hnext
    rw [hnext] at hnot
    simpa using hnot

/-!
# The line of an offset
-/

/-- An offset lies on the line that starts at another one. -/
structure Lies (l : Lines) (offset line start : Nat) : Prop where
  starts : l.starts[line]? = some start
  start_le : start ≤ offset
  le_stop : offset ≤ l.stopOf line

theorem exists_lies (t : Text) {offset : Nat} (h : offset ≤ t.length) :
    exists line start, (ofText t).Lies offset line start ∧
      (ofText t).placeAt offset = ⟨line, offset - start⟩ := by
  rcases starts_split t offset with ⟨front, start, ahead, hstarts, hpassed, hstart, hahead⟩
  have hclamp : (ofText t).clamp offset = offset := by
    have hsize : (ofText t).size = t.length := rfl
    unfold clamp
    omega
  refine ⟨front.length, start, ⟨?_, hstart, ?_⟩, ?_⟩
  · simp [hstarts]
  · have hnext : (ofText t).starts[front.length + 1]? = ahead.head? := by
      rw [hstarts, List.getElem?_append_right (Nat.le_add_right _ 1), Nat.add_sub_cancel_left,
        List.head?_eq_getElem?]
      rfl
    unfold stopOf
    rw [hnext]
    cases hhead : ahead.head? with
    | none =>
        exact h
    | some next =>
        exact Nat.le_sub_one_of_lt (hahead next hhead)
  · simp only [placeAt, hclamp, hpassed]
    simp

theorem offsetAt_placeAt (t : Text) {offset : Nat} (h : offset ≤ t.length) :
    (ofText t).offsetAt ((ofText t).placeAt offset) = offset := by
  rcases exists_lies t h with ⟨line, start, hlies, hplace⟩
  have hstart := hlies.start_le
  have hstop := hlies.le_stop
  have hline : ¬ (line : Int) < 0 := by omega
  rw [hplace, offsetAt, if_neg hline, Int.toNat_natCast, hlies.starts]
  simp only
  omega

theorem Lies.line_le {t : Text} {first last line later start begin : Nat}
    (hfirst : (ofText t).Lies first line start) (hlast : (ofText t).Lies last later begin)
    (h : first ≤ last) : line ≤ later := by
  apply Nat.le_of_not_lt
  intro hlt
  rcases List.getElem?_eq_some_iff.mp hfirst.starts with ⟨hline, hstart⟩
  have hnext : (ofText t).starts[later + 1]? = some ((ofText t).starts[later + 1]) :=
    List.getElem?_eq_getElem (Nat.lt_of_le_of_lt hlt hline)
  have hle : (ofText t).starts[later + 1] ≤ start := by
    rw [← hstart]
    rcases Nat.lt_or_eq_of_le (Nat.succ_le_of_lt hlt) with hbefore | hat
    · exact Nat.le_of_lt (List.pairwise_iff_getElem.mp (ofText_ascending t) _ _ _ hline hbefore)
    · subst hat
      exact Nat.le_refl _
  have hpositive : 0 < (ofText t).starts[later + 1] :=
    Nat.zero_lt_of_lt
      (List.pairwise_iff_getElem.mp (ofText_ascending t) 0 _ (by omega) _ (Nat.succ_pos _))
  have hstop := hlast.le_stop
  have hfrom := hfirst.start_le
  rw [stopOf, hnext] at hstop
  simp only at hstop
  omega

theorem placeAt_notAfter (t : Text) {first last : Nat} (h : first ≤ last)
    (hlast : last ≤ t.length) :
    ((ofText t).placeAt first).NotAfter ((ofText t).placeAt last) := by
  rcases exists_lies t (Nat.le_trans h hlast) with ⟨line, start, hfirst, hplace⟩
  rcases exists_lies t hlast with ⟨later, begin, hlies, hlater⟩
  rw [hplace, hlater]
  rcases Nat.lt_or_eq_of_le (hfirst.line_le hlies h) with hlt | heq
  · exact Or.inl (Int.ofNat_lt.mpr hlt)
  · subst heq
    have hsame : start = begin := Option.some.inj (hfirst.starts.symm.trans hlies.starts)
    subst hsame
    exact Or.inr ⟨rfl, Int.sub_le_sub_right (Int.ofNat_le.mpr h) _⟩

/-!
# Ranges
-/

def textIn (t : Text) (r : Range) : Text :=
  t.slice ((ofText t).offsetAt r.start) ((ofText t).offsetAt r.stop)

/-- A range between two offsets begins and ends in the text, and does not end before it begins. -/
theorem rangeOf_places (t : Text) (start stop : Int) :
    exists first last : Nat, first ≤ last ∧ last ≤ t.length ∧
      (ofText t).rangeOf start stop = ⟨(ofText t).placeAt first, (ofText t).placeAt last⟩ := by
  have hsize : (ofText t).size = t.length := rfl
  refine ⟨(ofText t).clamp start,
    (max (min stop t.length) ((ofText t).clamp start)).toNat, ?_, ?_, ?_⟩
  · omega
  · unfold clamp
    omega
  · have hcast : ((max (min stop t.length) ((ofText t).clamp start)).toNat : Int) =
        max (min stop (ofText t).size) ((ofText t).clamp start) := by
      omega
    rw [hcast]
    rfl

theorem rangeOf_eq (t : Text) {start stop : Nat} (h : start ≤ stop) (hstop : stop ≤ t.length) :
    (ofText t).rangeOf start stop = ⟨(ofText t).placeAt start, (ofText t).placeAt stop⟩ := by
  have hsize : (ofText t).size = t.length := rfl
  have hfirst : (ofText t).clamp start = start := by
    unfold clamp
    omega
  have hlast : max (min (stop : Int) (ofText t).size) start = stop := by
    omega
  simp only [rangeOf, hfirst, hlast]

theorem textIn_rangeOf (t : Text) {start stop : Nat} (h : start ≤ stop)
    (hstop : stop ≤ t.length) : textIn t ((ofText t).rangeOf start stop) = t.slice start stop := by
  rw [rangeOf_eq t h hstop, textIn, offsetAt_placeAt t (Nat.le_trans h hstop),
    offsetAt_placeAt t hstop]

theorem textIn_rangeOf_self (t : Text) (offset : Int) :
    textIn t ((ofText t).rangeOf offset offset) = [] := by
  have hlast : max (min offset ((ofText t).size : Int)) ((ofText t).clamp offset) =
      (ofText t).clamp offset := by
    unfold clamp
    omega
  simp only [textIn, rangeOf, hlast]
  exact t.slice_of_le (Nat.le_refl _)

end Lines
end SfcServer
