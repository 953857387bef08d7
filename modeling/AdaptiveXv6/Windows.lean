import Mathlib.Algebra.GroupWithZero.Nat
import Mathlib.Data.Fintype.Card
import AdaptiveXv6.Words

namespace AdaptiveXv6.Windows

open Function

variable {n : Nat} [NeZero n] {α : Type} {ring : Fin n → α} {start : Nat} {a : α} {l : List α}

/-- The entries of a ring from start on, with free-running positions. -/
def Window (ring : Fin n → α) (start : Nat) (l : List α) : Prop :=
  ∀ j (h : j < l.length), ring (Fin.ofNat n (start + j)) = l[j]

theorem ofNat_mod {m : Nat} (h : n ∣ m) (x : Nat) : Fin.ofNat n (x % m) = Fin.ofNat n x :=
  Fin.ext (Nat.mod_mod_of_dvd x h)

theorem ofNat_ne {j k : Nat} (hjk : j < k) (hk : k < j + n) : Fin.ofNat n (start + j) ≠ Fin.ofNat n (start + k) := by
  intro h
  have hmod : (start + j) % n = (start + k) % n := congrArg Fin.val h
  have hdvd : n ∣ start + k - (start + j) := Nat.dvd_of_mod_eq_zero (Nat.sub_mod_eq_zero_of_mod_eq hmod.symm)
  have := Nat.le_of_dvd (by omega) hdvd
  omega

theorem u32_add_inj {x j k : Nat} (hj : j < 2 ^ 32) (hk : k < 2 ^ 32) :
    Words.u32 (x + j) = Words.u32 (x + k) ↔ j = k := by
  rw [Words.u32, Words.u32]
  omega

theorem window_nil : Window ring start [] := fun j h => absurd h (Nat.not_lt_zero j)

theorem window_push (h : Window ring start l) (hlen : l.length < n) :
    Window (update ring (Fin.ofNat n (start + l.length)) a) start (l ++ [a]) := by
  intro j hj
  rw [List.length_append, List.length_singleton] at hj
  by_cases hjl : j = l.length
  · subst hjl
    rw [update_self, List.getElem_append_right (Nat.le_refl _)]
    simp
  · have hlt : j < l.length := by omega
    rw [update_of_ne (ofNat_ne hlt (by omega)), List.getElem_append_left hlt]
    exact h j hlt

theorem window_head (h : Window ring start (a :: l)) : ring (Fin.ofNat n start) = a :=
  h 0 (Nat.zero_lt_succ _)

theorem window_tail (h : Window ring start (a :: l)) : Window ring (start + 1) l := by
  intro j hj
  have := h (j + 1) (Nat.succ_lt_succ hj)
  rw [show start + 1 + j = start + (j + 1) by omega]
  exact this

theorem window_left {m : List α} (h : Window ring start (l ++ m)) : Window ring start l := by
  intro j hj
  have := h j (by rw [List.length_append]; omega)
  rw [this, List.getElem_append_left hj]

theorem window_right {m : List α} (h : Window ring start (l ++ m)) : Window ring (start + l.length) m := by
  intro j hj
  have := h (l.length + j) (by rw [List.length_append]; omega)
  rw [Nat.add_assoc, this, List.getElem_append_right (Nat.le_add_right _ _)]
  simp

theorem window_map (h : Window ring start l) :
    ((List.range l.length).map fun j => ring (Fin.ofNat n (start + j))) = l := by
  apply List.ext_getElem
  · rw [List.length_map, List.length_range]
  · intro j _ hj
    rw [List.getElem_map, List.getElem_range]
    exact h j hj

theorem window_mod {m : Nat} (hm : n ∣ m) : Window ring (start % m) l ↔ Window ring start l := by
  have hpos : ∀ j, Fin.ofNat n (start % m + j) = Fin.ofNat n (start + j) := by
    intro j
    rw [← ofNat_mod hm (start % m + j), Nat.mod_add_mod, ofNat_mod hm]
  simp only [Window, hpos]

end AdaptiveXv6.Windows
