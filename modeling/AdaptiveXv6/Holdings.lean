import Mathlib.Logic.Function.Basic

namespace AdaptiveXv6.Holdings

open Function

/-- The places α hold blocks, 0 meaning none. A block from lo up to hi is held by at most one place and marked
just when it is held; below lo all are marked. -/
structure Held {α : Type} (lo hi : Nat) (held : α → Nat) (marked : Nat → Bool) : Prop where
  range : ∀ a, held a ≠ 0 → lo ≤ held a ∧ held a < hi
  marks : ∀ a, held a ≠ 0 → marked (held a) = true
  inj : ∀ a b, held a ≠ 0 → held a = held b → a = b
  reserved : ∀ b, b < lo → marked b = true
  tight : ∀ b, lo ≤ b → b < hi → marked b = true → ∃ a, held a = b

namespace Held

variable {α : Type} {lo hi : Nat} {held held' : α → Nat} {marked marked' : Nat → Bool} {a : α} {b : Nat}

theorem congr (h : Held lo hi held marked) (hlo : lo ≤ hi) (hheld : ∀ a, held' a = held a)
    (hmarked : ∀ b, b < hi → marked' b = marked b) : Held lo hi held' marked' := by
  obtain rfl : held' = held := funext hheld
  refine ⟨h.range, ?_, h.inj, ?_, ?_⟩
  · intro a ha
    rw [hmarked _ (h.range a ha).2]
    exact h.marks a ha
  · intro b hb
    rw [hmarked b (Nat.lt_of_lt_of_le hb hlo)]
    exact h.reserved b hb
  · intro b hb hb' hm
    rw [hmarked b hb'] at hm
    exact h.tight b hb hb' hm

theorem not_held (h : Held lo hi held marked) (hb : marked b = false) (hb₀ : b ≠ 0) (a : α) : held a ≠ b := by
  rintro rfl
  rw [h.marks a hb₀] at hb
  cases hb

theorem lo_le (h : Held lo hi held marked) (hb : marked b = false) : lo ≤ b := by
  by_contra hlt
  rw [h.reserved b (Nat.lt_of_not_le hlt)] at hb
  cases hb

theorem reindex {σ : α → α} (h : Held lo hi held marked) (hσ : Involutive σ) :
    Held lo hi (fun a => held (σ a)) marked := by
  refine ⟨fun a => h.range _, fun a => h.marks _, fun a b ha hab => hσ.injective (h.inj _ _ ha hab), h.reserved, ?_⟩
  intro b hb hb' hm
  obtain ⟨a, ha⟩ := h.tight b hb hb' hm
  refine ⟨σ a, ?_⟩
  rw [hσ a]
  exact ha

variable [DecidableEq α]

theorem attach (h : Held lo hi held marked) (ha : held a = 0) (hb : marked b = false) (hlo : 0 < lo)
    (hhi : b < hi) : Held lo hi (update held a b) (update marked b true) := by
  have hb₀ : b ≠ 0 := Nat.pos_iff_ne_zero.mp (Nat.lt_of_lt_of_le hlo (h.lo_le hb))
  have hfree := h.not_held hb hb₀
  refine ⟨?_, ?_, ?_, ?_, ?_⟩
  · intro c hc
    by_cases hca : c = a
    · subst hca
      rw [update_self]
      exact ⟨h.lo_le hb, hhi⟩
    · rw [update_of_ne hca] at hc ⊢
      exact h.range c hc
  · intro c hc
    by_cases hca : c = a
    · subst hca
      rw [update_self, update_self]
    · rw [update_of_ne hca] at hc ⊢
      rw [update_of_ne (hfree c)]
      exact h.marks c hc
  · intro c d hc hcd
    by_cases hca : c = a
    · by_cases hda : d = a
      · rw [hca, hda]
      · rw [hca, update_self, update_of_ne hda] at hcd
        exact absurd hcd.symm (hfree d)
    · rw [update_of_ne hca] at hc hcd
      by_cases hda : d = a
      · rw [hda, update_self] at hcd
        exact absurd hcd (hfree c)
      · rw [update_of_ne hda] at hcd
        exact h.inj c d hc hcd
  · intro c hc
    by_cases hcb : c = b
    · rw [hcb, update_self]
    · rw [update_of_ne hcb]
      exact h.reserved c hc
  · intro c hc hc' hm
    by_cases hcb : c = b
    · exact ⟨a, by rw [update_self, hcb]⟩
    · rw [update_of_ne hcb] at hm
      obtain ⟨d, hd⟩ := h.tight c hc hc' hm
      refine ⟨d, ?_⟩
      have hda : d ≠ a := by
        rintro rfl
        omega
      rw [update_of_ne hda, hd]

theorem detach (h : Held lo hi held marked) (ha : held a ≠ 0) :
    Held lo hi (update held a 0) (update marked (held a) false) := by
  have hother : ∀ c, update held a 0 c ≠ 0 → c ≠ a ∧ update held a 0 c = held c := by
    intro c hc
    by_cases hca : c = a
    · rw [hca, update_self] at hc
      exact absurd rfl hc
    · exact ⟨hca, update_of_ne hca ..⟩
  refine ⟨?_, ?_, ?_, ?_, ?_⟩
  · intro c hc
    obtain ⟨-, hc'⟩ := hother c hc
    rw [hc'] at hc ⊢
    exact h.range c hc
  · intro c hc
    obtain ⟨hca, hc'⟩ := hother c hc
    rw [hc'] at hc ⊢
    have hne : held c ≠ held a := fun heq => hca (h.inj c a hc heq)
    rw [update_of_ne hne]
    exact h.marks c hc
  · intro c d hc hcd
    obtain ⟨-, hc'⟩ := hother c hc
    obtain ⟨-, hd'⟩ := hother d (hcd ▸ hc)
    rw [hc'] at hc hcd
    rw [hd'] at hcd
    exact h.inj c d hc hcd
  · intro c hc
    have hne : c ≠ held a := by
      rintro rfl
      exact absurd (h.range a ha).1 (Nat.not_le.mpr hc)
    rw [update_of_ne hne]
    exact h.reserved c hc
  · intro c hc hc' hm
    have hne : c ≠ held a := by
      rintro rfl
      rw [update_self] at hm
      cases hm
    rw [update_of_ne hne] at hm
    obtain ⟨d, hd⟩ := h.tight c hc hc' hm
    refine ⟨d, ?_⟩
    have hda : d ≠ a := by
      rintro rfl
      exact hne hd.symm
    rw [update_of_ne hda, hd]

end Held

end AdaptiveXv6.Holdings
