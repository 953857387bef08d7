import Mathlib.Data.List.Nodup
import Mathlib.Logic.Function.Iterate

namespace AdaptiveXv6.Rings

open Function

variable {α : Type} {next prev next' prev' : α → α} {a b x : α} {l l₁ l₂ : List α}

def Chain (next prev : α → α) : α → List α → α → Prop
  | a, [], b => next a = b ∧ prev b = a
  | a, x :: l, b => (next a = x ∧ prev x = a) ∧ Chain next prev x l b

theorem chain_append : Chain next prev a (l₁ ++ x :: l₂) b ↔ Chain next prev a l₁ x ∧ Chain next prev x l₂ b := by
  induction l₁ generalizing a with
  | nil => exact Iff.rfl
  | cons c cs ih =>
    rw [List.cons_append, Chain, Chain, ih]
    exact and_assoc.symm

theorem chain_congr (hn : ∀ c ∈ a :: l, next' c = next c) (hp : ∀ c ∈ l ++ [b], prev' c = prev c)
    (h : Chain next prev a l b) : Chain next' prev' a l b := by
  induction l generalizing a with
  | nil =>
    refine ⟨?_, ?_⟩
    · rw [hn a (by simp)]
      exact h.1
    · rw [hp b (by simp)]
      exact h.2
  | cons c cs ih =>
    refine ⟨⟨?_, ?_⟩, ih (fun d hd => hn d (List.mem_cons_of_mem _ hd)) (fun d hd => hp d ?_) h.2⟩
    · rw [hn a (by simp)]
      exact h.1.1
    · rw [hp c (by simp)]
      exact h.1.2
    · exact List.mem_cons_of_mem _ hd

theorem next_mem (h : Chain next prev a l b) : next a ∈ l ++ [b] := by
  cases l with
  | nil =>
    rw [h.1]
    simp
  | cons c cs =>
    rw [h.1.1]
    simp

theorem prev_mem (h : Chain next prev a l b) : prev b ∈ a :: l := by
  induction l generalizing a with
  | nil =>
    rw [h.2]
    simp
  | cons c cs ih => exact List.mem_cons_of_mem _ (ih h.2)

variable [DecidableEq α]

theorem chain_bypass (h₁ : Chain next prev a l₁ x) (h₂ : Chain next prev x l₂ b) (hn : (a :: (l₁ ++ l₂)).Nodup)
    (hp : (l₁ ++ (l₂ ++ [b])).Nodup) :
    Chain (update next (prev x) (next x)) (update prev (next x) (prev x)) a (l₁ ++ l₂) b := by
  induction l₁ generalizing a with
  | nil =>
    rw [Chain] at h₁
    rw [h₁.2]
    cases l₂ with
    | nil =>
      rw [h₂.1]
      exact ⟨update_self .., update_self ..⟩
    | cons y ys =>
      rw [h₂.1.1]
      refine ⟨⟨update_self .., update_self ..⟩, chain_congr ?_ ?_ h₂.2⟩
      · intro c hc
        refine update_of_ne ?_ ..
        rintro rfl
        exact (List.nodup_cons.mp hn).1 hc
      · intro c hc
        refine update_of_ne ?_ ..
        rintro rfl
        exact (List.nodup_cons.mp hp).1 hc
  | cons c cs ih =>
    have hpx := prev_mem h₁.2
    have hnx := next_mem h₂
    refine ⟨⟨?_, ?_⟩, ih h₁.2 (List.nodup_cons.mp hn).2 (List.nodup_cons.mp hp).2⟩
    · rw [update_of_ne]
      · exact h₁.1.1
      · intro heq
        refine (List.nodup_cons.mp hn).1 (List.mem_append_left _ ?_)
        rw [heq]
        exact hpx
    · rw [update_of_ne]
      · exact h₁.1.2
      · intro heq
        refine (List.nodup_cons.mp hp).1 (List.mem_append_right _ ?_)
        rw [heq]
        exact hnx

variable (h : Chain next prev a l b)

include h

theorem chain_insert (hx : x ∉ a :: l) (hxb : x ≠ b) (hn : (a :: l).Nodup) (hp : (l ++ [b]).Nodup) :
    Chain (update (update next x (next a)) a x)
      (update (update prev x a) (next a) x) a (x :: l) b := by
  have hxa : x ≠ a := fun heq => hx (by rw [heq]; simp)
  have hxn : x ≠ next a := by
    intro heq
    rcases List.mem_append.mp (next_mem h) with hm | hm
    · exact hx (List.mem_cons_of_mem _ (by rw [heq]; exact hm))
    · exact hxb (heq.trans (List.mem_singleton.mp hm))
  refine ⟨⟨update_self .., ?_⟩, ?_⟩
  · rw [update_of_ne hxn, update_self]
  · cases l with
    | nil =>
      refine ⟨?_, ?_⟩
      · rw [update_of_ne hxa, update_self]
        exact h.1
      · rw [← h.1, update_self]
    | cons y ys =>
      refine ⟨⟨?_, ?_⟩, chain_congr ?_ ?_ h.2⟩
      · rw [update_of_ne hxa, update_self]
        exact h.1.1
      · rw [← h.1.1, update_self]
      · intro c hc
        rw [update_of_ne, update_of_ne]
        · rintro rfl
          exact hx (List.mem_cons_of_mem _ hc)
        · rintro rfl
          exact (List.nodup_cons.mp hn).1 hc
      · intro c hc
        rw [h.1.1, update_of_ne, update_of_ne]
        · rintro rfl
          rcases List.mem_append.mp hc with hm | hm
          · exact hx (List.mem_cons_of_mem _ (List.mem_cons_of_mem _ hm))
          · exact hxb (List.mem_singleton.mp hm)
        · rintro rfl
          exact (List.nodup_cons.mp hp).1 hc

omit [DecidableEq α] in
theorem iterate_next {k : Nat} (hk : k < l.length) : next^[k + 1] a = l[k] := by
  induction l generalizing a k with
  | nil => exact absurd hk (Nat.not_lt_zero k)
  | cons c cs ih =>
    rw [iterate_succ_apply, h.1.1]
    cases k with
    | zero => rfl
    | succ k =>
      rw [List.getElem_cons_succ]
      exact ih h.2 (Nat.lt_of_succ_lt_succ hk)

omit [DecidableEq α] in
theorem iterate_next_length : next^[l.length + 1] a = b := by
  induction l generalizing a with
  | nil => exact h.1
  | cons c cs ih =>
    rw [iterate_succ_apply, h.1.1]
    exact ih h.2

omit [DecidableEq α] in
theorem prev_next {c : α} (hc : c ∈ a :: l) : prev (next c) = c := by
  induction l generalizing a with
  | nil =>
    obtain rfl := List.mem_singleton.mp hc
    rw [h.1, h.2]
  | cons d ds ih =>
    rcases List.mem_cons.mp hc with rfl | hc
    · rw [h.1.1, h.1.2]
    · exact ih h.2 hc

omit [DecidableEq α] in
theorem next_prev {c : α} (hc : c ∈ l ++ [b]) : next (prev c) = c := by
  induction l generalizing a with
  | nil =>
    obtain rfl := List.mem_singleton.mp hc
    rw [h.2, h.1]
  | cons d ds ih =>
    rcases List.mem_cons.mp hc with rfl | hc
    · rw [h.1.2, h.1.1]
    · exact ih h.2 hc

omit [DecidableEq α] in
theorem chain_reverse : Chain prev next b l.reverse a := by
  induction l generalizing a with
  | nil => exact ⟨h.2, h.1⟩
  | cons c cs ih =>
    rw [List.reverse_cons, chain_append]
    exact ⟨ih h.2, h.1.2, h.1.1⟩

end AdaptiveXv6.Rings
