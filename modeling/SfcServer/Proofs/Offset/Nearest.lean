import SfcServer.Proofs.Offset.Lookup

/-!
# The nearest breakpoint

An offset moves with the breakpoint it follows as long as no other one starts in between.
-/

namespace SfcServer
namespace Breakpoints

/-- An offset moves with the pair it follows when no other pair starts between the two. -/
theorem shift_ascending {pairs : List (Int × Int)} {offset : Int} {pair : Int × Int}
    (hmem : pair ∈ pairs) (hle : pair.1 ≤ offset)
    (hothers : forall other, other ∈ pairs -> other ≠ pair ->
      other.1 < pair.1 ∨ offset < other.1) :
    shift (ascending pairs) offset = pair.2 + (offset - pair.1) := by
  apply (shift_ascending_moved pairs offset).unique
  refine Moved.behind hmem hle ?_
  intro other hother hstart
  by_cases heq : other = pair
  · rw [heq]
  · rcases hothers other hother heq with hbefore | hafter
    · exact Prod.Lex.toLex_le_toLex.mpr (Or.inl hbefore)
    · omega

theorem toTarget_of_isolated {b : Breakpoints} {p : Breakpoint} {offset : Int} (hmem : p ∈ b)
    (hle : p.source ≤ offset)
    (hothers : forall q, q ∈ b -> q ≠ p -> q.source < p.source ∨ offset < q.source) :
    b.toTarget offset = p.target + (offset - p.source) := by
  have hpair := List.mem_map_of_mem (f := fun p : Breakpoint => (p.source, p.target)) hmem
  refine shift_ascending hpair hle ?_
  intro other hother hne
  rcases List.mem_map.mp hother with ⟨q, hq, heq⟩
  rw [← heq] at hne ⊢
  exact hothers q hq (fun hqp => hne (by rw [hqp]))

theorem toSource_of_isolated {b : Breakpoints} {p : Breakpoint} {offset : Int} (hmem : p ∈ b)
    (hle : p.target ≤ offset)
    (hothers : forall q, q ∈ b -> q ≠ p -> q.target < p.target ∨ offset < q.target) :
    b.toSource offset = p.source + (offset - p.target) := by
  have hpair := List.mem_map_of_mem (f := fun p : Breakpoint => (p.target, p.source)) hmem
  refine shift_ascending hpair hle ?_
  intro other hother hne
  rcases List.mem_map.mp hother with ⟨q, hq, heq⟩
  rw [← heq] at hne ⊢
  exact hothers q hq (fun hqp => hne (by rw [hqp]))

theorem toSource_of_before {b : Breakpoints} (hsorted : b.Pairwise fun p q => p.target < q.target)
    {offset : Int} (hbefore : forall q, q ∈ b -> offset < q.target) :
    b.toSource offset =
      match b.head? with
      | some q => q.source + (offset - q.target)
      | none => offset := by
  have hascending : b.backward = b.map fun p => (p.target, p.source) := by
    apply List.mergeSort_of_pairwise
    refine List.pairwise_map.mpr (hsorted.imp ?_)
    intro p q hlt
    exact (precedes_iff (p.target, p.source) (q.target, q.source)).mpr (Or.inl hlt)
  rw [toSource, hascending, shift, nearest?]
  cases b with
  | nil =>
      rfl
  | cons first rest =>
      have hlt := hbefore first List.mem_cons_self
      rw [List.map_cons, List.takeWhile_cons_of_neg (by simp only [decide_eq_true_eq]; omega)]
      rfl

end Breakpoints
end SfcServer
