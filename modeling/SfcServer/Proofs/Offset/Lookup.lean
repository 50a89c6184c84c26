import Mathlib.Data.List.Nodup
import Mathlib.Data.List.Permutation
import Mathlib.Data.List.Zip
import Mathlib.Data.Prod.Lex
import SfcServer.Offset.Breakpoints

/-!
# Lookups in any order

A lookup sorts its pairs and takes the last that starts at or before an offset, or else the
first.  Sorting puts pairs in their lexicographic order, so the offset moves with the greatest
pair that starts in time, or with the least pair of all.  That does not depend on the order in
which pairs are given, and it leaves no choice between pairs that start together.
-/

namespace SfcServer
namespace Breakpoints

variable {pairs : List (Int × Int)} {offset : Int}

inductive Moved (pairs : List (Int × Int)) (offset : Int) : Int -> Prop where
  | unpaired :
      pairs = [] ->
      Moved pairs offset offset
  /-- The greatest pair that starts by the offset moves it. -/
  | behind {start target : Int} :
      (start, target) ∈ pairs ->
      start ≤ offset ->
      (forall pair, pair ∈ pairs -> pair.1 ≤ offset -> toLex pair ≤ toLex (start, target)) ->
      Moved pairs offset (target + (offset - start))
  /-- No pair starts by the offset, and the least one moves it. -/
  | before {start target : Int} :
      (start, target) ∈ pairs ->
      (forall pair, pair ∈ pairs -> offset < pair.1) ->
      (forall pair, pair ∈ pairs -> toLex (start, target) ≤ toLex pair) ->
      Moved pairs offset (target + (offset - start))

/-- The offsets of two sequences are translated into each other by breakpoints. -/
structure Translates (b : Breakpoints) (source target : List Int) : Prop where
  toTarget : forall offset, Moved (source.zip target) offset (b.toTarget offset)
  toSource : forall offset, Moved (target.zip source) offset (b.toSource offset)
  /-- The order of the pairs makes no difference. -/
  reordered : forall sources targets c, ofOffsets sources targets = .ok c ->
    (sources.zip targets).Perm (source.zip target) ->
    c.toTarget = b.toTarget ∧ c.toSource = b.toSource
  /-- Where no source and no target occurs twice, the ends of a pair lead to each other. -/
  ends : source.Nodup -> target.Nodup -> forall start stop, (start, stop) ∈ source.zip target ->
    b.toTarget start = stop ∧ b.toSource stop = start

/-!
# Sorted pairs
-/

def precedes (a b : Int × Int) : Bool :=
  a.1 < b.1 || (a.1 == b.1 && a.2 ≤ b.2)

theorem precedes_iff (a b : Int × Int) :
    precedes a b = true ↔ a.1 < b.1 ∨ (a.1 = b.1 ∧ a.2 ≤ b.2) := by
  simp [precedes]

theorem precedes_iff_toLex (a b : Int × Int) : precedes a b = true ↔ toLex a ≤ toLex b := by
  rw [precedes_iff, Prod.Lex.toLex_le_toLex]

theorem precedes_refl (a : Int × Int) : precedes a a = true :=
  (precedes_iff a a).mpr (Or.inr ⟨rfl, Int.le_refl _⟩)

theorem precedes_trans (a b c : Int × Int) (hab : precedes a b = true)
    (hbc : precedes b c = true) : precedes a c = true := by
  rw [precedes_iff] at *
  omega

theorem precedes_total (a b : Int × Int) : (precedes a b || precedes b a) = true := by
  rw [Bool.or_eq_true, precedes_iff, precedes_iff]
  omega

theorem ascending_pairwise (pairs : List (Int × Int)) :
    (ascending pairs).Pairwise fun a b => precedes a b = true :=
  List.pairwise_mergeSort precedes_trans precedes_total pairs

theorem mem_ascending {pair : Int × Int} : pair ∈ ascending pairs ↔ pair ∈ pairs :=
  List.mem_mergeSort

/-- Of sorted pairs, those behind the ones that start by an offset start behind it. -/
theorem lt_of_mem_dropWhile (hsorted : pairs.Pairwise fun a b => precedes a b = true)
    {pair : Int × Int} (hmem : pair ∈ pairs.dropWhile (·.1 ≤ offset)) : offset < pair.1 := by
  have hnot := List.head?_dropWhile_not (fun pair : Int × Int => decide (pair.1 ≤ offset)) pairs
  have hrest := hsorted.sublist (List.dropWhile_sublist (fun pair => decide (pair.1 ≤ offset)))
  cases hlater : pairs.dropWhile (·.1 ≤ offset) with
  | nil =>
      rw [hlater] at hmem
      cases hmem
  | cons next more =>
      rw [hlater] at hnot hmem hrest
      have hnext : offset < next.1 := by simpa using hnot
      rcases List.mem_cons.mp hmem with heq | hmore
      · rw [heq]
        exact hnext
      · have hprecedes := (precedes_iff _ _).mp (List.rel_of_pairwise_cons hrest hmore)
        omega

/-- Of sorted pairs, the last of those that start by an offset is the greatest of them. -/
theorem greatest_of_getLast? (hsorted : pairs.Pairwise fun a b => precedes a b = true)
    {pair : Int × Int} (hlast : (pairs.takeWhile (·.1 ≤ offset)).getLast? = some pair) :
    pair ∈ pairs ∧ pair.1 ≤ offset ∧
      forall other, other ∈ pairs -> other.1 ≤ offset -> precedes other pair = true := by
  have hpassed : pair ∈ pairs.takeWhile (·.1 ≤ offset) := List.mem_of_getLast? hlast
  have hmem : pair ∈ pairs := (List.takeWhile_sublist _).mem hpassed
  refine ⟨hmem, of_decide_eq_true (List.all_eq_true.mp List.all_takeWhile pair hpassed), ?_⟩
  intro other hother hle
  rcases List.getLast?_eq_some_iff.mp hlast with ⟨front, hfront⟩
  have hparts : front ++ [pair] ++ pairs.dropWhile (·.1 ≤ offset) = pairs := by
    rw [← hfront]
    exact List.takeWhile_append_dropWhile
  rw [← hparts] at hother
  rcases List.mem_append.mp hother with hstarted | hlater
  · rw [← hparts] at hsorted
    have hstartedSorted := (List.pairwise_append.mp hsorted).1
    rcases List.mem_append.mp hstarted with hbefore | hsame
    · exact (List.pairwise_append.mp hstartedSorted).2.2 other hbefore pair
        (List.mem_singleton_self pair)
    · rw [List.mem_singleton.mp hsame]
      exact precedes_refl pair
  · exact absurd (lt_of_mem_dropWhile hsorted hlater) (Int.not_lt.mpr hle)

theorem least_of_head {first : Int × Int} {rest : List (Int × Int)}
    (hsorted : (first :: rest).Pairwise fun a b => precedes a b = true) {other : Int × Int}
    (hother : other ∈ first :: rest) : precedes first other = true := by
  rcases List.mem_cons.mp hother with heq | hrest
  · rw [heq]
    exact precedes_refl first
  · exact List.rel_of_pairwise_cons hsorted hrest

theorem shift_moved (hsorted : pairs.Pairwise fun a b => precedes a b = true) (offset : Int) :
    Moved pairs offset (shift pairs offset) := by
  cases hlast : (pairs.takeWhile (·.1 ≤ offset)).getLast? with
  | some pair =>
      rcases greatest_of_getLast? hsorted hlast with ⟨hmem, hle, hgreatest⟩
      have hshift : shift pairs offset = pair.2 + (offset - pair.1) := by
        rw [shift, nearest?, hlast]
      rw [hshift]
      refine Moved.behind hmem hle ?_
      intro other hother hstart
      exact (precedes_iff_toLex other pair).mp (hgreatest other hother hstart)
  | none =>
      cases pairs with
      | nil =>
          exact Moved.unpaired rfl
      | cons first rest =>
          have hshift : shift (first :: rest) offset = first.2 + (offset - first.1) := by
            rw [shift, nearest?, hlast, List.head?_cons]
          have hparts := List.takeWhile_append_dropWhile
            (p := fun pair : Int × Int => decide (pair.1 ≤ offset)) (l := first :: rest)
          rw [List.getLast?_eq_none_iff.mp hlast, List.nil_append] at hparts
          rw [hshift]
          refine Moved.before List.mem_cons_self ?_ ?_
          · intro other hother
            rw [← hparts] at hother
            exact lt_of_mem_dropWhile hsorted hother
          · intro other hother
            exact (precedes_iff_toLex first other).mp (least_of_head hsorted hother)

/-!
# Pairs in any order
-/

namespace Moved

theorem of_mem_iff {others : List (Int × Int)} {result : Int} (h : Moved pairs offset result)
    (hmem : forall pair, pair ∈ pairs ↔ pair ∈ others) : Moved others offset result := by
  cases h with
  | unpaired hnone =>
      refine Moved.unpaired (List.eq_nil_iff_forall_not_mem.mpr ?_)
      intro pair hother
      rw [← hmem, hnone] at hother
      cases hother
  | behind hpair hle hgreatest =>
      exact Moved.behind ((hmem _).mp hpair) hle
        fun pair hother => hgreatest pair ((hmem pair).mpr hother)
  | before hpair hbefore hleast =>
      exact Moved.before ((hmem _).mp hpair)
        (fun pair hother => hbefore pair ((hmem pair).mpr hother))
        fun pair hother => hleast pair ((hmem pair).mpr hother)

theorem unique {first second : Int} (h : Moved pairs offset first)
    (hother : Moved pairs offset second) : first = second := by
  cases h with
  | unpaired hnone =>
      subst hnone
      cases hother with
      | unpaired =>
          rfl
      | behind hpair =>
          cases hpair
      | before hpair =>
          cases hpair
  | behind hpair hle hgreatest =>
      cases hother with
      | unpaired hnone =>
          rw [hnone] at hpair
          cases hpair
      | behind hpair' hle' hgreatest' =>
          have hsame := le_antisymm (hgreatest' _ hpair hle) (hgreatest _ hpair' hle')
          cases toLex.injective hsame
          rfl
      | before _ hbefore =>
          exact absurd hle (Int.not_le.mpr (hbefore _ hpair))
  | before hpair hbefore hleast =>
      cases hother with
      | unpaired hnone =>
          rw [hnone] at hpair
          cases hpair
      | behind hpair' hle' =>
          exact absurd hle' (Int.not_le.mpr (hbefore _ hpair'))
      | before hpair' _ hleast' =>
          have hsame := le_antisymm (hleast _ hpair') (hleast' _ hpair)
          cases toLex.injective hsame
          rfl

/-- A pair moves its own start to its target when no other pair starts there. -/
theorem eq_target {start target result : Int} (h : Moved pairs start result)
    (hdistinct : (pairs.map Prod.fst).Nodup) (hpair : (start, target) ∈ pairs) :
    result = target := by
  have hown : Moved pairs start (target + (start - start)) := by
    refine Moved.behind hpair (Int.le_refl _) ?_
    intro pair hother hle
    rw [← precedes_iff_toLex, precedes_iff]
    rcases Int.lt_or_eq_of_le hle with hlt | heq
    · exact Or.inl hlt
    · cases List.inj_on_of_nodup_map hdistinct hother hpair heq
      exact Or.inr ⟨rfl, Int.le_refl _⟩
  rw [h.unique hown]
  omega

end Moved

theorem shift_ascending_moved (pairs : List (Int × Int)) (offset : Int) :
    Moved pairs offset (shift (ascending pairs) offset) :=
  (shift_moved (ascending_pairwise pairs) offset).of_mem_iff fun _ => mem_ascending

/-!
# Breakpoints of two sequences
-/

theorem ofOffsets_eq {source target : List Int} {b : Breakpoints}
    (h : ofOffsets source target = .ok b) :
    b.map (fun p => (p.source, p.target)) = source.zip target ∧
      b.map (fun p => (p.target, p.source)) = target.zip source := by
  unfold ofOffsets at h
  split at h
  · cases h
    constructor
    · exact List.map_zipWith
    · rw [← List.zip_swap, List.zip, List.map_zipWith, List.map_zipWith]
      rfl
  · cases h

theorem ofOffsets_moved {source target : List Int} {b : Breakpoints}
    (h : ofOffsets source target = .ok b) (offset : Int) :
    Moved (source.zip target) offset (b.toTarget offset) ∧
      Moved (target.zip source) offset (b.toSource offset) := by
  rcases ofOffsets_eq h with ⟨hforward, hbackward⟩
  rw [← hforward, ← hbackward]
  exact ⟨shift_ascending_moved _ offset, shift_ascending_moved _ offset⟩

/--
Breakpoints of two equally long sequences, in any order and with any ties, translate their offsets
into each other.
-/
theorem ofOffsets_translates {source target : List Int} (h : source.length = target.length) :
    exists b, ofOffsets source target = .ok b ∧ b.Translates source target := by
  have hb : ofOffsets source target = .ok (List.zipWith Breakpoint.mk source target) := if_pos h
  refine ⟨_, hb, ?_⟩
  generalize List.zipWith Breakpoint.mk source target = b at hb
  have hmoved := ofOffsets_moved hb
  constructor
  · exact fun offset => (hmoved offset).1
  · exact fun offset => (hmoved offset).2
  · intro sources targets c hc hperm
    have hback : (targets.zip sources).Perm (target.zip source) := by
      rw [← List.zip_swap sources, ← List.zip_swap source]
      exact hperm.map Prod.swap
    constructor
    · funext offset
      exact ((ofOffsets_moved hc offset).1.of_mem_iff fun _ => hperm.mem_iff).unique
        (hmoved offset).1
    · funext offset
      exact ((ofOffsets_moved hc offset).2.of_mem_iff fun _ => hback.mem_iff).unique
        (hmoved offset).2
  · intro hsource htarget start stop hpair
    constructor
    · apply (hmoved start).1.eq_target _ hpair
      rw [List.map_fst_zip (Nat.le_of_eq h)]
      exact hsource
    · apply (hmoved stop).2.eq_target
      · rw [List.map_fst_zip (Nat.le_of_eq h.symm)]
        exact htarget
      · rw [← List.zip_swap]
        exact List.mem_map_of_mem (f := Prod.swap) hpair

/-- Pairs that are not in order, two of which start together. -/
theorem ofOffsets_translates_tied :
    ([30, 10, 20, 10] : List Int).length = ([5, 40, 40, 1] : List Int).length ∧
      exists b, ofOffsets [30, 10, 20, 10] [5, 40, 40, 1] = .ok b ∧
        b.Translates [30, 10, 20, 10] [5, 40, 40, 1] ∧
        [5, 10, 12, 25].map b.toTarget = [-4, 40, 42, 45] ∧
        [0, 5, 39, 41].map b.toSource = [9, 30, 64, 21] := by
  have hlength : ([30, 10, 20, 10] : List Int).length = ([5, 40, 40, 1] : List Int).length := rfl
  rcases ofOffsets_translates hlength with ⟨b, hb, htranslates⟩
  refine ⟨hlength, b, hb, htranslates, ?_⟩
  cases hb
  cbv

end Breakpoints
end SfcServer
