import Mathlib.Algebra.Order.BigOperators.Group.Finset

namespace AdaptiveXv6.Tallies

variable {ι α : Type} [Fintype ι] {f g : ι → Nat} {p : ι}

theorem card_le_load [DecidableEq α] (l : List α) (m : ι → List α) :
    (l.toFinset ∪ Finset.univ.biUnion fun q => (m q).toFinset).card ≤ l.length + ∑ q, (m q).length := by
  refine (Finset.card_union_le _ _).trans (Nat.add_le_add (List.toFinset_card_le l) (Finset.card_biUnion_le.trans ?_))
  exact Finset.sum_le_sum fun q _ => List.toFinset_card_le (m q)

variable [DecidableEq ι]

theorem sum_change (h : ∀ q, q ≠ p → g q = f q) : ∑ q, g q + f p = ∑ q, f q + g p := by
  have hrest : ∑ q ∈ Finset.univ.erase p, g q = ∑ q ∈ Finset.univ.erase p, f q :=
    Finset.sum_congr rfl fun q hq => h q (Finset.ne_of_mem_erase hq)
  have hg := Finset.add_sum_erase Finset.univ g (Finset.mem_univ p)
  have hf := Finset.add_sum_erase Finset.univ f (Finset.mem_univ p)
  omega

theorem sum_up (h : ∀ q, q ≠ p → g q = f q) (hp : g p = f p + 1) : ∑ q, g q = ∑ q, f q + 1 := by
  have := sum_change h
  omega

theorem sum_down (h : ∀ q, q ≠ p → g q = f q) (hp : g p + 1 = f p) : ∑ q, g q + 1 = ∑ q, f q := by
  have := sum_change h
  omega

end AdaptiveXv6.Tallies
