import Mathlib.Order.Fin.Basic

namespace AdaptiveXv6.FirstMax

variable {m : Nat} {α : Type} [LinearOrder α]

def improve {ι : Type} (b : Option ι × α) (i : ι) : Option α → Option ι × α
  | some a => if b.2 < a then (some i, a) else b
  | none => b

structure Leads (sample : Fin m → Option α) (k : Nat) (a₀ : α) (b : Option (Fin m) × α) : Prop where
  chosen : ∀ p, b.1 = some p → p.val < k ∧ sample p = some b.2
  empty : b.1 = none → b.2 = a₀
  start : a₀ ≤ b.2
  above : ∀ q a, q.val < k → sample q = some a → a ≤ b.2
  first : ∀ p q a, b.1 = some p → q < p → sample q = some a → a < b.2

variable {sample : Fin m → Option α} {k : Nat} {a₀ : α} {b : Option (Fin m) × α}

theorem leads_zero (sample : Fin m → Option α) (a₀ : α) : Leads sample 0 a₀ (none, a₀) where
  chosen p h := by cases h
  empty _ := rfl
  start := le_refl a₀
  above q a h := absurd h (Nat.not_lt_zero _)
  first p q a h := by cases h

variable (h : Leads sample k a₀ b)

include h

theorem Leads.congr {sample' : Fin m → Option α}
    (he : ∀ q : Fin m, q.val < k → sample' q = sample q) : Leads sample' k a₀ b where
  chosen p hp := by
    obtain ⟨hk, hs⟩ := h.chosen p hp
    exact ⟨hk, (he p hk).trans hs⟩
  empty := h.empty
  start := h.start
  above q a hq hs := h.above q a hq ((he q hq).symm.trans hs)
  first p q a hp hq hs := by
    have hk : q.val < k := Nat.lt_trans hq (h.chosen p hp).1
    exact h.first p q a hp hq ((he q hk).symm.trans hs)

theorem Leads.improve (hk : k < m) : Leads sample (k + 1) a₀ (improve b ⟨k, hk⟩ (sample ⟨k, hk⟩)) := by
  have hlast : ∀ q : Fin m, q.val < k + 1 → q.val < k ∨ q = ⟨k, hk⟩ := by
    intro q hq
    rcases Nat.lt_succ_iff_lt_or_eq.mp hq with hq | hq
    · exact .inl hq
    · exact .inr (Fin.ext hq)
  -- the position k keeps the leader unless its value is strictly larger
  have hkeep : (∀ a, sample ⟨k, hk⟩ = some a → a ≤ b.2) → Leads sample (k + 1) a₀ b := by
    intro hle
    refine ⟨?_, h.empty, h.start, ?_, h.first⟩
    · intro p hp
      obtain ⟨hpk, hs⟩ := h.chosen p hp
      exact ⟨Nat.lt_succ_of_lt hpk, hs⟩
    · intro q a hq hs
      rcases hlast q hq with hq | rfl
      · exact h.above q a hq hs
      · exact hle a hs
  cases hs : sample ⟨k, hk⟩ with
  | none => exact hkeep (fun a ha => by rw [hs] at ha; cases ha)
  | some a =>
    by_cases hlt : b.2 < a
    · simp only [FirstMax.improve, if_pos hlt]
      refine ⟨?_, ?_, le_of_lt (lt_of_le_of_lt h.start hlt), ?_, ?_⟩
      · intro p hp
        cases hp
        exact ⟨Nat.lt_succ_self k, hs⟩
      · intro hn; cases hn
      · intro q c hq hc
        rcases hlast q hq with hq | rfl
        · exact le_of_lt (lt_of_le_of_lt (h.above q c hq hc) hlt)
        · rw [hs] at hc
          cases hc
          exact le_refl _
      · intro p q c hp hq hc
        cases hp
        exact lt_of_le_of_lt (h.above q c hq hc) hlt
    · simp only [FirstMax.improve, if_neg hlt]
      exact hkeep (fun c hc => by rw [hs] at hc; cases hc; exact le_of_not_gt hlt)

theorem Leads.exists_leader {q : Fin m} {a : α} (hq : q.val < k)
    (hs : sample q = some a) (ha : a₀ < a) : ∃ p, b.1 = some p := by
  cases hb : b.1 with
  | some p => exact ⟨p, rfl⟩
  | none =>
    have hle := h.above q a hq hs
    rw [h.empty hb] at hle
    exact absurd ha (not_lt_of_ge hle)

theorem Leads.eq_of_first {p : Fin m} {a : α} (hp : p.val < k)
    (hs : sample p = some a) (ha : a₀ < a) (hbefore : ∀ q c, q < p → sample q = some c → c < a)
    (hafter : ∀ q c, sample q = some c → c ≤ a) : b = (some p, a) := by
  obtain ⟨q, hq⟩ := h.exists_leader hp hs ha
  have hb : b.2 = a := le_antisymm (hafter q b.2 (h.chosen q hq).2) (h.above p a hp hs)
  have hqp : q = p := by
    rcases lt_trichotomy q p with hlt | heq | hgt
    · have hc := hbefore q b.2 hlt (h.chosen q hq).2
      rw [hb] at hc
      exact absurd hc (lt_irrefl a)
    · exact heq
    · have hc := h.first q p a hq hgt hs
      rw [hb] at hc
      exact absurd hc (lt_irrefl a)
  rw [hqp] at hq
  exact Prod.ext hq hb

end AdaptiveXv6.FirstMax
