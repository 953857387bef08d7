import AdaptiveXv6.PageMaps

namespace AdaptiveXv6.PageFrees

open MemLayout Programs PageTables PageOwnership PageTableSteps PageMaps

variable {P : Type} [DecidableEq P] {s t u : Vm P} {q : Option P} {L : List Nat} {lo v n l i : Nat}
  {pt : PageTable}

def Under (l i l' i' : Nat) : Prop := l' ≤ l ∧ i' / 512 ^ (l - l') = i

instance (l i l' i' : Nat) : Decidable (Under l i l' i') := inferInstanceAs (Decidable (_ ∧ _))

theorem under_self (l i : Nat) : Under l i l i := ⟨Nat.le_refl l, by simp⟩

theorem under_child {l' i' k : Nat} (h : Under l (512 * i + k) l' i') (hk : k < 512) : Under (l + 1) i l' i' := by
  refine ⟨by have := h.1; omega, ?_⟩
  have hsub : l + 1 - l' = l - l' + 1 := by have := h.1; omega
  rw [hsub, Nat.pow_succ, ← Nat.div_div_eq_div_mul, h.2]
  omega

theorem under_cases {l' i' : Nat} (h : Under (l + 1) i l' i') :
    l' = l + 1 ∧ i' = i ∨ ∃ k < 512, Under l (512 * i + k) l' i' := by
  by_cases hl : l' = l + 1
  · subst hl
    refine .inl ⟨rfl, ?_⟩
    have h₂ := h.2
    simpa using h₂
  · have hle : l' ≤ l := by have := h.1; omega
    have hsub : l + 1 - l' = l - l' + 1 := by omega
    have h₂ := h.2
    rw [hsub, Nat.pow_succ, ← Nat.div_div_eq_div_mul] at h₂
    refine .inr ⟨i' / 512 ^ (l - l') % 512, Nat.mod_lt _ (by decide), hle, ?_⟩
    omega

theorem shape_clear (h : Shape pt) (hsub : ∀ l' i', l' + 1 = l → i' / 512 = i → pt.table l' i' = 0)
    (hleaf : ∀ v, pt.leaf v = none) : Shape (pt.setTable l i 0) := by
  refine ⟨?_, ?_, fun v hv => absurd (hleaf v) hv, h.page⟩
  · intro l' i' hl' hne
    rw [table_setTable] at hne ⊢
    split at hne
    · exact absurd rfl hne
    · split
      · rename_i hup
        exact absurd (hsub l' i' hup.1 hup.2) hne
      · exact h.parent l' i' hl' hne
  · intro l' i' hne
    rw [table_setTable] at hne
    split at hne
    · exact absurd rfl hne
    · exact h.bound l' i' hne

theorem below_null {l' i' : Nat} (h : Shape pt) (hl : l ≤ 2) (hz : pt.table l i = 0) (hu : Under l i l' i') :
    pt.table l' i' = 0 := by
  obtain ⟨d, hd⟩ : ∃ d, l = l' + d := ⟨l - l', by have := hu.1; omega⟩
  induction d generalizing l' i' with
  | zero =>
    obtain ⟨-, hi⟩ := hu
    subst hd
    simp at hi
    rw [hi]
    exact hz
  | succ d ih =>
    by_contra hne
    refine h.parent l' i' (by omega) hne (ih ⟨by omega, ?_⟩ (by omega))
    have hi := hu.2
    have hsub : l - l' = l - (l' + 1) + 1 := by omega
    rw [hsub, Nat.pow_succ, Nat.mul_comm, ← Nat.div_div_eq_div_mul] at hi
    exact hi

structure Cleared (lo : Nat) (L : List Nat) (q : Option P) (l i : Nat) (s t : Vm P) : Prop extends Apart q s t where
  owned : Owned lo L t
  leaf : ∀ v, (t.pt q).leaf v = none
  gone : ∀ l' i', Under l i l' i' → (t.pt q).table l' i' = 0
  kept : ∀ l' i', ¬Under l i l' i' → (t.pt q).table l' i' = (s.pt q).table l' i'

structure Clearing (lo : Nat) (L : List Nat) (q : Option P) (l i : Nat) (s : Vm P) (k : Nat) (t : Vm P) : Prop
    extends Apart q s t where
  owned : Owned lo L t
  leaf : ∀ v, (t.pt q).leaf v = none
  gone : ∀ j l' i', j < k → Under l (512 * i + j) l' i' → (t.pt q).table l' i' = 0
  kept : ∀ l' i', (∀ j, j < k → ¬Under l (512 * i + j) l' i') → (t.pt q).table l' i' = (s.pt q).table l' i'

theorem kfree_table (h : Owned lo L s) (ht : (s.pt q).table l i ≠ 0) (hleaf : ∀ v, (s.pt q).leaf v = none)
    (hsub : ∀ l' i', l' + 1 = l → i' / 512 = i → (s.pt q).table l' i' = 0) :
    Wp (kfree lo ((s.pt q).table l i)) s (fun _ t => Apart q s (t.withPt q ((t.pt q).setTable l i 0)) ∧
      Owned lo L (t.withPt q ((t.pt q).setTable l i 0)) ∧ t.pt = s.pt) fun _ => False := by
  have hne : holds s (.table q l i) ≠ 0 := ht
  obtain ⟨hlo, hhi⟩ := h.held.range _ hne
  have hout := h.detach (t := s.withPt q ((s.pt q).setTable l i 0)) hne rfl (holds_setTable ..)
    (shape_update h.shape (shape_clear (h.shape q) hsub hleaf))
  refine wp_of_ok (kfree_eq s hlo hhi) ⟨⟨fun r hr => pt_withPt_of_ne hr, rfl, rfl, rfl, rfl⟩, ?_, rfl⟩
  exact hout.perm rfl rfl List.perm_middle.symm

set_option maxRecDepth 8000 in
theorem freewalk_spec (l : Nat) (hl : l ≤ 2) (h : Owned lo L s) (hleaf : ∀ v, (s.pt q).leaf v = none)
    (ht : (s.pt q).table l i ≠ 0) : Wp (freewalk lo q l i) s
      (fun _ t => Cleared lo L q l i s (t.withPt q ((t.pt q).setTable l i 0))) fun _ => False := by
  induction l generalizing s i with
  | zero =>
    rw [freewalk]
    refine Wp.bind (each_range (I := fun _ t => t = s) ?_ rfl) ?_
    · rintro k t _ rfl
      refine wp_get_bind ?_
      rw [hleaf, if_neg (by simp)]
      exact wp_pure rfl
    · rintro _ t rfl
      refine wp_get_bind ((kfree_table h ht hleaf fun l' _ hl' => by omega).imp ?_)
      rintro _ u ⟨hapart, hu, hpt⟩
      refine ⟨hapart, hu, ?_, ?_, ?_⟩
      · intro v
        rw [pt_withPt_self, leaf_setTable, hpt, hleaf]
      · rintro l' i' ⟨h₁, h₂⟩
        obtain rfl : l' = 0 := by omega
        rw [pt_withPt_self, table_setTable, if_pos ⟨rfl, by simpa using h₂⟩]
      · intro l' i' hnot
        rw [pt_withPt_self, table_setTable, hpt, if_neg]
        rintro ⟨rfl, rfl⟩
        exact hnot (under_self 0 i')
  | succ l ih =>
    rw [freewalk]
    refine Wp.bind (each_range (I := Clearing lo L q l i s) ?_ ?_) ?_
    · rintro k t hk ht'
      refine wp_get_bind ?_
      refine wp_ite (fun hchild => ?_) fun hchild => ?_
      · refine (ih (by omega) ht'.owned ht'.leaf hchild).bind ?_
        rintro _ u hu
        refine wp_modify ⟨ht'.toApart.trans hu.toApart, hu.owned, hu.leaf, ?_, ?_⟩
        · intro j l' i' hj hunder
          by_cases hnew : Under l (512 * i + k) l' i'
          · exact hu.gone l' i' hnew
          · have hjk : j ≠ k := by
              rintro rfl
              exact hnew hunder
            rw [hu.kept l' i' hnew]
            exact ht'.gone j l' i' (by omega) hunder
        · intro l' i' hnot
          rw [hu.kept l' i' (hnot k (Nat.lt_succ_self k))]
          exact ht'.kept l' i' fun j hj => hnot j (by omega)
      · have hzero : (t.pt q).table l (512 * i + k) = 0 := not_not.mp hchild
        refine wp_pure ⟨ht'.toApart, ht'.owned, ht'.leaf, ?_, ?_⟩
        · intro j l' i' hj hunder
          by_cases hjk : j = k
          · subst hjk
            exact below_null (ht'.owned.shape q) (by omega) hzero hunder
          · exact ht'.gone j l' i' (by omega) hunder
        · exact fun l' i' hnot => ht'.kept l' i' fun j hj => hnot j (by omega)
    · exact ⟨Apart.refl q s, h, hleaf, fun j _ _ hj => by omega, fun _ _ _ => rfl⟩
    · rintro _ t ht'
      refine wp_get_bind ?_
      have hself : (t.pt q).table (l + 1) i = (s.pt q).table (l + 1) i := by
        refine ht'.kept _ _ fun j _ hunder => ?_
        have := hunder.1
        omega
      have hsub : ∀ l' i', l' + 1 = l + 1 → i' / 512 = i → (t.pt q).table l' i' = 0 := by
        intro l' i' hl' hi'
        obtain rfl : l' = l := by omega
        refine ht'.gone (i' % 512) l' i' (Nat.mod_lt _ (by decide)) ⟨Nat.le_refl l', ?_⟩
        rw [Nat.sub_self, Nat.pow_zero, Nat.div_one]
        omega
      refine (kfree_table ht'.owned (by rw [hself]; exact ht) ht'.leaf hsub).imp ?_
      rintro _ u ⟨hapart, hu, hpt⟩
      refine ⟨ht'.toApart.trans hapart, hu, ?_, ?_, ?_⟩
      · intro v
        rw [pt_withPt_self, leaf_setTable, hpt, ht'.leaf]
      · intro l' i' hunder
        rw [pt_withPt_self, table_setTable, hpt]
        rcases under_cases hunder with hsame | ⟨k, hk, hchild⟩
        · rw [if_pos hsame]
        · rw [ht'.gone k l' i' hk hchild, ite_self]
      · intro l' i' hnot
        rw [pt_withPt_self, table_setTable, hpt, if_neg]
        · exact ht'.kept l' i' fun j hj hunder => hnot (under_child hunder hj)
        · rintro ⟨rfl, rfl⟩
          exact hnot (under_self _ _)

structure Dropped (lo : Nat) (L : List Nat) (q : Option P) (s t : Vm P) : Prop extends Apart q s t where
  owned : Owned lo L t
  null : t.pt q = .null

set_option maxRecDepth 8000 in
theorem freewalk_root (h : Owned lo L s) (hleaf : ∀ v, (s.pt q).leaf v = none) (hroot : (s.pt q).root ≠ 0) :
    Wp (do freewalk lo q 2 0; modifyPt q fun _ => .null) s (fun _ => Dropped lo L q s) fun _ => False := by
  refine (freewalk_spec 2 (Nat.le_refl 2) h hleaf hroot).bind ?_
  rintro _ t ht
  have hnull : (t.pt q).setTable 2 0 0 = .null := by
    have htable : ((t.pt q).setTable 2 0 0).table = fun _ _ => 0 := by
      funext l i
      by_cases hunder : Under 2 0 l i
      · have hz := ht.gone l i hunder
        rwa [pt_withPt_self] at hz
      · have hkept := ht.kept l i hunder
        rw [pt_withPt_self] at hkept
        rw [hkept]
        by_contra hne
        obtain ⟨hl, hi⟩ := (h.shape q).bound l i hne
        exact hunder ⟨hl, Nat.div_eq_of_lt hi⟩
    have hleaf' : ((t.pt q).setTable 2 0 0).leaf = fun _ => none := by
      funext v
      have hv := ht.leaf v
      rwa [pt_withPt_self] at hv
    rw [PageTable.null, ← htable, ← hleaf']
  rw [hnull] at ht
  exact wp_modify ⟨ht.toApart, ht.owned, pt_withPt_self ..⟩

set_option maxRecDepth 8000 in
theorem uvmfree_spec {sz : Nat} (h : Owned lo L s) (hsz : sz ≤ TRAPFRAME) (hroot : (s.pt q).root ≠ 0)
    (hleaf : ∀ v, pages sz ≤ v → (s.pt q).leaf v = none) :
    Wp (uvmfree lo q sz) s (fun _ => Dropped lo L q s) fun _ => False := by
  rw [uvmfree]
  refine wp_ite (fun hpos => ?_) fun hpos => ?_
  · refine (uvmunmap_spec (v := 0) (n := pages sz) h (by rw [Nat.zero_add]; exact pages_le_upages hsz)).bind ?_
    rintro _ t ⟨honly, ht, hcut⟩
    refine (freewalk_root ht ?_ (by rw [honly.root]; exact hroot)).imp ?_
    · intro v
      rw [hcut, cut]
      split
      · rfl
      · exact hleaf v (by omega)
    · exact fun _ u hu => ⟨honly.toApart.trans hu.toApart, hu.owned, hu.null⟩
  · obtain rfl : sz = 0 := by omega
    exact wp_pure_bind (freewalk_root h (fun v => hleaf v (by rw [show pages 0 = 0 by decide]; exact Nat.zero_le v)) hroot)

end AdaptiveXv6.PageFrees
