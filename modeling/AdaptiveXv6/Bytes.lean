import Mathlib.Data.List.Basic

namespace AdaptiveXv6.Bytes

abbrev Byte := BitVec 8

/-- The k low bytes of a number, the lowest first. -/
def le : Nat → Nat → List Byte
  | 0, _ => []
  | k + 1, x => BitVec.ofNat 8 x :: le k (x / 256)

@[simp] theorem length_le (k x : Nat) : (le k x).length = k := by
  induction k generalizing x with
  | zero => rfl
  | succ k ih => simp [le, ih]

section Stores

variable {β : Type} {m m' : Nat → β} {ws : List (Nat × List β)} {i : Nat}

/-- A memory after the values w.2 were stored from address w.1 on. -/
def store (m : Nat → β) (w : Nat × List β) (i : Nat) : β :=
  if w.1 ≤ i then w.2[i - w.1]?.getD (m i) else m i

def stores (m : Nat → β) : List (Nat × List β) → Nat → β
  | [] => m
  | w :: ws => stores (store m w) ws

def Within (w : Nat × List β) (i : Nat) : Prop := w.1 ≤ i ∧ i < w.1 + w.2.length

def Covered (ws : List (Nat × List β)) (i : Nat) : Prop := ∃ w ∈ ws, Within w i

theorem store_within {w : Nat × List β} (h : Within w i) : store m w i = store m' w i := by
  have hlt : i - w.1 < w.2.length := by
    have := h.2
    have := h.1
    omega
  simp [store, h.1, List.getElem?_eq_getElem hlt]

theorem store_outside {w : Nat × List β} (h : ¬Within w i) : store m w i = m i := by
  rw [store]
  split
  · rename_i hle
    have hge : w.2.length ≤ i - w.1 := by
      by_contra hlt
      exact h ⟨hle, by omega⟩
    rw [List.getElem?_eq_none hge]
    rfl
  · rfl

theorem stores_congr (h : Covered ws i ∨ m i = m' i) : stores m ws i = stores m' ws i := by
  induction ws generalizing m m' with
  | nil =>
    rcases h with ⟨w, hw, -⟩ | h
    · cases hw
    · exact h
  | cons w ws ih =>
    refine ih ?_
    by_cases hw : Within w i
    · exact .inr (store_within hw)
    · rcases h with ⟨v, hv, hin⟩ | h
      · rcases List.mem_cons.mp hv with rfl | hv
        · exact absurd hin hw
        · exact .inl ⟨v, hv, hin⟩
      · right
        rw [store_outside hw, store_outside hw, h]

theorem stores_uncovered (h : ¬Covered ws i) : stores m ws i = m i := by
  induction ws generalizing m with
  | nil => rfl
  | cons w ws ih =>
    rw [stores, ih (fun ⟨v, hv, hin⟩ => h ⟨v, List.mem_cons_of_mem _ hv, hin⟩),
      store_outside (fun hin => h ⟨w, List.mem_cons_self .., hin⟩)]

theorem stores_eq_iff : stores m ws i = stores m' ws i ↔ (¬Covered ws i → m i = m' i) := by
  by_cases hc : Covered ws i
  · simp only [hc, not_true_eq_false, false_imp_iff, iff_true]
    exact stores_congr (.inl hc)
  · rw [stores_uncovered hc, stores_uncovered hc]
    simp [hc]

theorem stores_append (m : Nat → β) (ws ws' : List (Nat × List β)) :
    stores m (ws ++ ws') = stores (stores m ws) ws' := by
  induction ws generalizing m with
  | nil => rfl
  | cons w ws ih => exact ih (store m w)

theorem store_nil (m : Nat → β) (a : Nat) : store m (a, []) = m := by
  funext i
  simp [store]

theorem store_append (m : Nat → β) (a : Nat) (u v : List β) :
    store m (a, u ++ v) = store (store m (a, u)) (a + u.length, v) := by
  funext i
  simp only [store]
  by_cases ha : a ≤ i
  · by_cases hu : a + u.length ≤ i
    · have hlen : u.length ≤ i - a := by omega
      rw [if_pos ha, if_pos hu, List.getElem?_append_right hlen, if_pos ha, List.getElem?_eq_none hlen,
        Nat.sub_sub]
      rfl
    · rw [if_pos ha, if_neg hu, if_pos ha, List.getElem?_append_left (by omega)]
  · rw [if_neg ha, if_neg (by omega), if_neg ha]

def image (m : Nat → β) (n : Nat) : List β := (List.range n).map m

@[simp] theorem length_image (m : Nat → β) (n : Nat) : (image m n).length = n := by simp [image]

theorem take_image {k n : Nat} (hk : k ≤ n) (m : Nat → β) : (image m n).take k = image m k := by
  rw [image, image, ← List.map_take, List.take_range, Nat.min_eq_left hk]

theorem image_add (m : Nat → β) (k n : Nat) : image m (k + n) = image m k ++ image (fun i => m (k + i)) n := by
  rw [image, image, image, List.range_add, List.map_append, List.map_map]
  rfl

theorem getElem?_image (m : Nat → β) {n k : Nat} (hk : k < n) : (image m n)[k]? = some (m k) := by
  simp [image, hk]

theorem store_image (m : Nat → β) (f : Nat → β) (a n i : Nat) :
    store m (a, image f n) i = if a ≤ i ∧ i < a + n then f (i - a) else m i := by
  by_cases h : a ≤ i ∧ i < a + n
  · rw [if_pos h, store, if_pos h.1, getElem?_image f (by omega)]
    rfl
  · rw [if_neg h]
    refine store_outside ?_
    rw [Within, length_image]
    exact h

theorem image_eq_iff {n : Nat} : image m n = image m' n ↔ ∀ i, i < n → m i = m' i := by
  simp [image]

theorem image_store (m : Nat → β) (a : Nat) (l : List β) : image (fun i => store m (a, l) (a + i)) l.length = l := by
  refine List.ext_getElem (length_image _ _) fun i h₁ h₂ => ?_
  simp [image, store, h₂]

end Stores

end AdaptiveXv6.Bytes
