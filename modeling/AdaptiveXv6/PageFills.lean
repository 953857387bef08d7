import AdaptiveXv6.SpaceCopies

namespace AdaptiveXv6.PageFills

open Programs PageTables Function

variable {P : Type} {s t u : Vm P} {q : Option P} {v x n m : Nat}

/-- The next m calls of kalloc() succeed. -/
def Ample (s : Vm P) (m : Nat) : Prop := m ≤ s.free.length ∧ ∀ k < m, s.luck k = true

theorem Ample.mono (h : Ample s m) (hn : n ≤ m) : Ample s n :=
  ⟨hn.trans h.1, fun k hk => h.2 k (Nat.lt_of_lt_of_le hk hn)⟩

structure Takes (n : Nat) (s t : Vm P) : Prop where
  free : ∀ y ∈ t.free, y ∈ s.free
  byte : ∀ y, y ∉ s.free → t.byte y = s.byte y
  ample : ∀ m, Ample s (n + m) → Ample t m

theorem Takes.refl (s : Vm P) : Takes 0 s s :=
  ⟨fun _ h => h, fun _ _ => rfl, fun m h => by rwa [Nat.zero_add] at h⟩

theorem Takes.trans {k : Nat} (h : Takes n s t) (h' : Takes k t u) : Takes (n + k) s u := by
  refine ⟨fun y hy => h.free y (h'.free y hy), fun y hy => ?_, fun m hm => ?_⟩
  · exact (h'.byte y fun hy' => hy (h.free y hy')).trans (h.byte y hy)
  · rw [Nat.add_assoc] at hm
    exact h'.ample m (h.ample (k + m) hm)

theorem Takes.mono {k : Nat} (h : Takes n s t) (hn : n ≤ k) : Takes k s t :=
  ⟨h.free, h.byte, fun m hm => h.ample m (hm.mono (Nat.add_le_add_right hn m))⟩

theorem Takes.write (h : Takes n s t) (hfree : u.free = t.free) (hluck : u.luck = t.luck)
    (hbyte : ∀ y, y ∉ s.free → u.byte y = t.byte y) : Takes n s u := by
  refine ⟨by rw [hfree]; exact h.free, fun y hy => (hbyte y hy).trans (h.byte y hy), fun m hm => ?_⟩
  rw [Ample, hfree, hluck]
  exact h.ample m hm

theorem kalloc_takes (hz : 0 ∉ s.free) :
    Wp kalloc s (fun x t => Takes 1 s t ∧ (x = 0 → ¬Ample s 1) ∧ (x ≠ 0 → x ∈ s.free)) fun _ => True := by
  refine PageOwnership.kalloc_cases (fun hfail => ?_) fun x free hf => ?_
  · have hnot : ∀ m, ¬Ample s (1 + m) := by
      rintro m ⟨hlen, hluck⟩
      rcases hfail with hl | hf
      · rw [hluck 0 (by omega)] at hl
        cases hl
      · rw [hf, List.length_nil] at hlen
        omega
    exact ⟨⟨fun _ h => h, fun _ _ => rfl, fun m h => absurd h (hnot m)⟩, fun _ => hnot 0, fun h => absurd rfl h⟩
  · have hx : x ∈ s.free := by
      rw [hf]
      exact List.mem_cons_self
    refine ⟨⟨fun y hy => ?_, fun y hy => update_of_ne (ne_of_mem_of_not_mem hx hy).symm _ _,
      fun m h => ⟨?_, fun k hk => ?_⟩⟩,
      fun h => absurd h (ne_of_mem_of_not_mem hx hz), fun _ => hx⟩
    · rw [hf]
      exact List.mem_cons_of_mem _ hy
    · have hlen := h.1
      rw [hf, List.length_cons] at hlen
      change m ≤ free.length
      omega
    · exact h.2 (k + 1) (by omega)

theorem kfree_takes (lo : Nat) (h : Takes n s t) (hx : x ∈ s.free) :
    Wp (kfree lo x) t (fun _ u => Takes n s u) fun _ => True := by
  rw [Wp, kfree]
  by_cases hout : x < lo ∨ STOPPAGE ≤ x
  · rw [if_pos hout]
    trivial
  · rw [if_neg hout]
    refine ⟨fun y hy => ?_, fun y hy => ?_, fun m hm => ?_⟩
    · rcases List.mem_cons.mp hy with rfl | hy
      · exact hx
      · exact h.free y hy
    · have hne : y ≠ x := fun heq => hy (heq ▸ hx)
      exact (update_of_ne hne _ _).trans (h.byte y hy)
    · obtain ⟨hlen, hluck⟩ := h.ample m hm
      exact ⟨hlen.trans (Nat.le_succ _), hluck⟩

variable [DecidableEq P]

theorem walkLoop_takes (q : Option P) (v l : Nat) (hz : 0 ∉ s.free) :
    Wp (walkLoop q v true l) s (fun r t => Takes l s t ∧ (r = false → ¬Ample s l)) fun _ => True := by
  induction l generalizing s with
  | zero => exact wp_pure ⟨Takes.refl s, by simp⟩
  | succ l ih =>
    rw [walkLoop]
    refine wp_get_bind ?_
    split
    · refine (ih hz).imp ?_
      rintro r t ⟨htakes, hr⟩
      exact ⟨htakes.mono (Nat.le_succ l), fun h ha => hr h (ha.mono (Nat.le_succ l))⟩
    · rw [if_pos rfl]
      refine (kalloc_takes hz).bind ?_
      rintro x s₁ ⟨h₁, hfail, hx⟩
      refine wp_ite (fun hx0 =>
          wp_pure ⟨h₁.mono (by omega), fun _ ha => hfail hx0 (ha.mono (by omega))⟩) fun hx0 => ?_
      refine wp_modify_bind (wp_modify_bind ?_)
      generalize hs₂ : Vm.withPt _ q _ = s₂
      have h₂ : Takes 1 s s₂ := by
        subst hs₂
        refine h₁.write rfl rfl fun y hy => update_of_ne (fun h => hy ?_) _ _
        rw [h]
        exact hx hx0
      refine (ih fun h => hz (h₂.free 0 h)).imp ?_
      rintro r t ⟨htakes, hr⟩
      refine ⟨(h₂.trans htakes).mono (by omega), fun h ha => hr h (h₂.ample l ?_)⟩
      rwa [Nat.add_comm]

theorem mappages_takes (q : Option P) (v : Nat) (e : Pte) (hz : 0 ∉ s.free) :
    Wp (mappages q v e) s (fun r t => Takes 2 s t ∧ (r = false → ¬Ample s 2)) fun _ => True := by
  rw [mappages, walk]
  split
  · exact wp_bind (wp_throw trivial)
  · refine (walkLoop_takes q v 2 hz).bind ?_
    rintro r t ⟨htakes, hr⟩
    cases r with
    | false =>
      rw [if_neg Bool.false_ne_true]
      exact wp_pure ⟨htakes, hr⟩
    | true =>
      rw [if_pos rfl]
      refine wp_get_bind ?_
      split
      · exact wp_throw trivial
      · exact wp_modify_bind (wp_pure ⟨htakes.write rfl rfl fun _ _ => rfl, by simp⟩)

end AdaptiveXv6.PageFills
