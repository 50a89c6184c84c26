import SfcServer.Text.Basic

/-!
# Braces in a text

A text leaves some braces open when it closes no brace that it did not open before.  Texts that
follow each other add up what they leave open, and as many closing braces balance it.
-/

namespace SfcServer
namespace Text

/-- A text never closes more braces than it has opened, and leaves some number of them open. -/
structure LeavesOpen (t : Text) (n : Nat) : Prop where
  count_eq : t.count '\x7b' = t.count '\x7d' + n
  front_le : forall front, front <+: t -> front.count '\x7d' ≤ front.count '\x7b'

/-- As many braces close as open, and no lead of the text closes more of them than it opens. -/
def BraceBalanced (t : Text) : Prop :=
  t.LeavesOpen 0

def Braceless (t : Text) : Prop :=
  forall c, c ∈ t -> c ≠ '\x7b' ∧ c ≠ '\x7d'

instance (t : Text) : Decidable t.Braceless :=
  List.decidableBAll (fun c => c ≠ '\x7b' ∧ c ≠ '\x7d') t

instance (t : Text) (n : Nat) : Decidable (t.LeavesOpen n) :=
  decidable_of_iff (t.count '\x7b' = t.count '\x7d' + n ∧
      forall k, k < t.length + 1 -> (t.take k).count '\x7d' ≤ (t.take k).count '\x7b') <| by
    constructor
    · intro ⟨hcount, htake⟩
      refine ⟨hcount, ?_⟩
      intro front hfront
      rw [List.prefix_iff_eq_take.mp hfront]
      exact htake front.length (Nat.lt_succ_of_le hfront.length_le)
    · intro h
      exact ⟨h.count_eq, fun k _ => h.front_le _ (List.take_prefix k t)⟩

instance (t : Text) : Decidable t.BraceBalanced :=
  inferInstanceAs (Decidable (t.LeavesOpen 0))

theorem Braceless.count_eq {t : Text} (h : t.Braceless) :
    t.count '\x7b' = 0 ∧ t.count '\x7d' = 0 := by
  constructor
  · exact List.count_eq_zero.mpr fun hmem => (h _ hmem).1 rfl
  · exact List.count_eq_zero.mpr fun hmem => (h _ hmem).2 rfl

/-- A lead of two texts ends in the first or goes on into the second. -/
theorem isPrefix_append_cases {front a b : Text} (h : front <+: a ++ b) :
    front <+: a ∨ exists more, more <+: b ∧ front = a ++ more := by
  rcases h with ⟨rest, heq⟩
  rcases List.append_eq_append_iff.mp heq with ⟨more, ha, _⟩ | ⟨more, hfront, hb⟩
  · exact Or.inl ⟨more, ha.symm⟩
  · exact Or.inr ⟨more, ⟨rest, hb.symm⟩, hfront⟩

namespace LeavesOpen

variable {a b : Text} {n m : Nat}

theorem append (ha : a.LeavesOpen n) (hb : b.LeavesOpen m) : LeavesOpen (a ++ b) (n + m) where
  count_eq := by
    rw [List.count_append, List.count_append, ha.count_eq, hb.count_eq]
    omega
  front_le := by
    intro front hfront
    rcases isPrefix_append_cases hfront with hfirst | ⟨more, hmore, heq⟩
    · exact ha.front_le front hfirst
    · have hcount := ha.count_eq
      have hle := hb.front_le more hmore
      rw [heq, List.count_append, List.count_append]
      omega

theorem close (h : a.LeavesOpen n) : BraceBalanced (a ++ List.replicate n '\x7d') where
  count_eq := by
    have hcount := h.count_eq
    have hnone : (List.replicate n '\x7d').count '\x7b' = 0 := by
      rw [List.count_replicate]
      rfl
    rw [List.count_append, List.count_append, List.count_replicate_self, hnone]
    omega
  front_le := by
    intro front hfront
    rcases isPrefix_append_cases hfront with hfirst | ⟨more, hmore, heq⟩
    · exact h.front_le front hfirst
    · have hcount := h.count_eq
      have hle := hmore.sublist.count_le '\x7d'
      rw [List.count_replicate_self] at hle
      rw [heq, List.count_append, List.count_append]
      omega

theorem replace {front middle other back : Text}
    (h : LeavesOpen (front ++ (middle ++ back)) n) (hmiddle : middle.Braceless)
    (hother : other.Braceless) : LeavesOpen (front ++ (other ++ back)) n where
  count_eq := by
    have hcount := h.count_eq
    simp only [List.count_append, hmiddle.count_eq, hother.count_eq] at hcount ⊢
    exact hcount
  front_le := by
    intro lead hlead
    rcases isPrefix_append_cases hlead with hfront | ⟨more, hmore, heq⟩
    · exact h.front_le lead (hfront.trans (List.prefix_append _ _))
    · rcases isPrefix_append_cases hmore with hinside | ⟨last, hlast, hmoreEq⟩
      · -- Of the changed part only braceless characters are seen.
        have hplain : Braceless more := fun c hc => hother c (hinside.subset hc)
        have hle := h.front_le front (List.prefix_append _ _)
        rw [heq]
        simp only [List.count_append, hplain.count_eq]
        exact hle
      · have hle := h.front_le (front ++ (middle ++ last))
          ((List.prefix_append_right_inj front).mpr
            ((List.prefix_append_right_inj middle).mpr hlast))
        rw [heq, hmoreEq]
        simp only [List.count_append, hmiddle.count_eq, hother.count_eq] at hle ⊢
        exact hle

end LeavesOpen

theorem joinWith_balanced {separator : Text} (hseparator : separator.BraceBalanced)
    (parts : List Text) :
    (forall part, part ∈ parts -> part.BraceBalanced) ->
      (joinWith separator parts).BraceBalanced := by
  fun_induction joinWith separator parts with
  | case1 =>
      intro _
      decide
  | case2 part =>
      intro hparts
      exact hparts part List.mem_cons_self
  | case3 part rest _ ih =>
      intro hparts
      have hrest := ih fun other hother => hparts other (List.mem_cons_of_mem _ hother)
      exact ((hparts part List.mem_cons_self).append hseparator).append hrest

end Text
end SfcServer
