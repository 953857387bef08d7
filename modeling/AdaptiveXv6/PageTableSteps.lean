import AdaptiveXv6.PageOwnership

namespace AdaptiveXv6.PageTableSteps

open MemLayout Programs PageTables PageOwnership Function

variable {P : Type} [DecidableEq P] {s t u : Vm P} {q : Option P} {L : List Nat} {lo v x : Nat} {pt : PageTable}

section Shapes

theorem table_setTable (pt : PageTable) (l i x l' i' : Nat) :
    (pt.setTable l i x).table l' i' = if l' = l ∧ i' = i then x else pt.table l' i' := by
  simp only [PageTable.setTable]
  by_cases hl : l' = l
  · subst hl
    rw [update_self]
    by_cases hi : i' = i
    · rw [hi, update_self, if_pos ⟨rfl, rfl⟩]
    · rw [update_of_ne hi, if_neg (fun h => hi h.2)]
  · rw [update_of_ne hl, if_neg (fun h => hl h.1)]

theorem leaf_setTable (pt : PageTable) (l i x : Nat) : (pt.setTable l i x).leaf = pt.leaf := rfl

theorem shape_root (x : Nat) : Shape (PageTable.null.setTable 2 0 x) := by
  refine ⟨?_, ?_, fun _ h => absurd rfl h, nofun⟩
  · intro l i hl h
    rw [table_setTable, if_neg (by omega)] at h
    exact absurd rfl h
  · intro l i h
    rw [table_setTable] at h
    split at h
    · rename_i hli
      rw [hli.1, hli.2]
      decide
    · exact absurd rfl h

theorem shape_setTable {l i : Nat} (h : Shape pt) (hl : l < 2) (hparent : pt.table (l + 1) (i / 512) ≠ 0)
    (hi : i < 512 ^ (2 - l)) (hx : x ≠ 0) : Shape (pt.setTable l i x) := by
  refine ⟨?_, ?_, ?_, h.page⟩
  · intro l' i' hl' hne
    rw [table_setTable] at hne ⊢
    have hup : pt.table (l' + 1) (i' / 512) ≠ 0 := by
      split at hne
      · rename_i hli
        rw [hli.1, hli.2]
        exact hparent
      · exact h.parent l' i' hl' hne
    split
    · exact hx
    · exact hup
  · intro l' i' hne
    rw [table_setTable] at hne
    split at hne
    · rename_i hli
      rw [hli.1, hli.2]
      exact ⟨by omega, hi⟩
    · exact h.bound l' i' hne
  · intro v hv
    obtain ⟨h₀, hlt⟩ := h.leaf v hv
    refine ⟨?_, hlt⟩
    rw [table_setTable]
    split
    · exact hx
    · exact h₀

theorem shape_setLeaf {e : Option Pte} (h : Shape pt)
    (hv : e ≠ none → pt.table 0 (v / 512) ≠ 0 ∧ v < MAXVA / PGSIZE)
    (hpage : ∀ e', v < UPAGES → e = some e' → e'.page ≠ 0) : Shape (pt.setLeaf v e) := by
  refine ⟨h.parent, h.bound, ?_, ?_⟩
  · intro w hw
    by_cases hwv : w = v
    · subst hwv
      simp only [PageTable.setLeaf, update_self] at hw
      exact hv hw
    · simp only [PageTable.setLeaf, update_of_ne hwv] at hw
      exact h.leaf w hw
  · intro w e' hw he
    by_cases hwv : w = v
    · subst hwv
      simp only [PageTable.setLeaf, update_self] at he
      exact hpage e' hw he
    · simp only [PageTable.setLeaf, update_of_ne hwv] at he
      exact h.page w e' hw he

theorem pt_withPt_self (s : Vm P) (q : Option P) (pt : PageTable) : (s.withPt q pt).pt q = pt :=
  update_self ..

theorem pt_withPt_of_ne {r : Option P} (h : r ≠ q) : (s.withPt q pt).pt r = s.pt r := update_of_ne h ..

theorem shape_update (h : ∀ q, Shape (s.pt q)) (hpt : Shape pt) (r : Option P) :
    Shape ((s.withPt q pt).pt r) := by
  by_cases hr : r = q
  · rw [hr, pt_withPt_self]
    exact hpt
  · rw [pt_withPt_of_ne hr]
    exact h r

end Shapes

section Places

theorem holds_update (s : Vm P) (q : Option P) (pt : PageTable) (a : Place P) :
    holds (s.withPt q pt) a = match a with
      | .table r l i => if r = q then pt.table l i else (s.pt r).table l i
      | .leaf r v => if r = q then userPage pt v else userPage (s.pt r) v
      | .extra b => s.extra b := by
  cases a with
  | table r l i =>
    by_cases hr : r = q
    · simp [holds, Vm.withPt, hr]
    · simp [holds, Vm.withPt, hr]
  | leaf r v =>
    by_cases hr : r = q
    · simp [holds, Vm.withPt, hr]
    · simp [holds, Vm.withPt, hr]
  | extra b => rfl

theorem holds_setTable (s : Vm P) (q : Option P) (l i x : Nat) :
    holds (s.withPt q ((s.pt q).setTable l i x)) =
      update (holds s) (.table q l i) x := by
  funext a
  rw [holds_update]
  cases a with
  | table r l' i' =>
    by_cases hr : r = q
    · subst hr
      simp [update_apply, table_setTable, holds]
    · simp [hr, holds]
  | leaf r v =>
    by_cases hr : r = q
    · subst hr
      simp [userPage, leaf_setTable, holds]
    · simp [hr, holds]
  | extra b => simp [holds]

theorem userPage_setLeaf (pt : PageTable) (v : Nat) (e : Option Pte) (w : Nat) : userPage (pt.setLeaf v e) w =
    if w = v then (if v < UPAGES then e.elim 0 Pte.page else 0) else userPage pt w := by
  by_cases hw : w = v
  · subst hw
    simp [userPage, PageTable.setLeaf]
  · simp [userPage, PageTable.setLeaf, hw]

theorem holds_setLeaf (s : Vm P) (q : Option P) (v : Nat) (e : Option Pte) :
    holds (s.withPt q ((s.pt q).setLeaf v e)) =
      update (holds s) (.leaf q v) (if v < UPAGES then e.elim 0 Pte.page else 0) := by
  funext a
  rw [holds_update]
  cases a with
  | table r l i =>
    by_cases hr : r = q
    · subst hr
      simp [PageTable.setLeaf, holds]
    · simp [hr, holds]
  | leaf r w =>
    by_cases hr : r = q
    · subst hr
      simp [update_apply, userPage_setLeaf, holds]
    · simp [hr, holds]
  | extra b => simp [holds]

end Places

structure Grown (q : Option P) (s t : Vm P) : Prop extends Only q s t where
  leaf : (t.pt q).leaf = (s.pt q).leaf
  kept : ∀ l i, (s.pt q).table l i ≠ 0 → (t.pt q).table l i = (s.pt q).table l i

omit [DecidableEq P] in
theorem Grown.trans (h : Grown q s t) (h' : Grown q t u) : Grown q s u := by
  refine ⟨h.toOnly.trans h'.toOnly, h'.leaf.trans h.leaf, fun l i hne => ?_⟩
  have hst := h.kept l i hne
  exact (h'.kept l i (by rw [hst]; exact hne)).trans hst

omit [DecidableEq P] in
theorem grown_of_quiet (h : Quiet s t) (q : Option P) : Grown q s t :=
  ⟨h.only q, by rw [h.pt], fun l i _ => by rw [h.pt]⟩

section Walks

theorem index_parent (v l : Nat) : v / 512 ^ (l + 1) / 512 = v / 512 ^ (l + 2) := by
  rw [Nat.div_div_eq_div_mul, ← Nat.pow_succ]

theorem index_lt {l : Nat} (hv : v < MAXVA / PGSIZE) (hl : l < 2) : v / 512 ^ (l + 1) < 512 ^ (2 - l) := by
  have hv' : v < 2 ^ 26 := hv
  have hcases : l = 0 ∨ l = 1 := by omega
  rcases hcases with rfl | rfl
  · simp only [Nat.zero_add, Nat.pow_one]
    omega
  · simp only [Nat.reduceAdd, Nat.reducePow, Nat.reduceSub]
    omega

theorem walkLoop_spec (h : Owned lo L s) (hv : v < MAXVA / PGSIZE) (l : Nat) (hl : l ≤ 2)
    (ht : (s.pt q).table l (v / 512 ^ (l + 1)) ≠ 0) : Wp (walkLoop q v true l) s
      (fun r t => Owned lo L t ∧ Grown q s t ∧ (r = true → (t.pt q).table 0 (v / 512) ≠ 0)) fun _ => False := by
  induction l generalizing s with
  | zero =>
    rw [Nat.zero_add, Nat.pow_one] at ht
    exact wp_pure ⟨h, grown_of_quiet ⟨rfl, rfl, rfl, rfl, rfl⟩ q, fun _ => ht⟩
  | succ l ih =>
    rw [walkLoop]
    refine wp_get_bind ?_
    by_cases hnext : (s.pt q).table l (v / 512 ^ (l + 1)) ≠ 0
    · rw [if_pos hnext]
      exact ih h (by omega) hnext
    · rw [if_neg hnext, if_pos rfl]
      refine (kalloc_spec h).bind ?_
      rintro x s₁ ⟨hquiet, ⟨rfl, h₁⟩ | ⟨hx, h₁⟩⟩
      · rw [if_pos rfl]
        exact wp_pure ⟨h₁, grown_of_quiet hquiet q, nofun⟩
      · rw [if_neg hx]
        refine (memset_spec h₁ x 0).bind ?_
        rintro _ s₂ ⟨hquiet₂, h₂⟩
        have hsame : s₂.pt q = s.pt q := by rw [hquiet₂.pt, hquiet.pt]
        have hzero : holds s₂ (.table q l (v / 512 ^ (l + 1))) = 0 := by
          change (s₂.pt q).table l (v / 512 ^ (l + 1)) = 0
          rw [hsame]
          exact not_not.mp hnext
        have hshape : Shape ((s₂.pt q).setTable l (v / 512 ^ (l + 1)) x) := by
          refine shape_setTable (h₂.shape q) (by omega) ?_ (index_lt hv (by omega)) hx
          rw [index_parent, hsame]
          exact ht
        refine wp_modify_bind ?_
        have h₃ := h₂.attach (t := s₂.withPt q _) hzero rfl (holds_setTable s₂ q l _ x) (shape_update h₂.shape hshape)
        refine (ih h₃ (by omega) ?_).imp ?_
        · rw [pt_withPt_self, table_setTable, if_pos ⟨rfl, rfl⟩]
          exact hx
        · rintro r t ⟨ht, hgrown, hr⟩
          refine ⟨ht, ?_, hr⟩
          refine Grown.trans (grown_of_quiet (hquiet.trans hquiet₂) q) (Grown.trans ?_ hgrown)
          refine ⟨⟨apart_withPt .., ?_⟩, ?_, ?_⟩
          · rw [pt_withPt_self, PageTable.root, table_setTable, if_neg (by omega)]
            rfl
          · rw [pt_withPt_self, leaf_setTable]
          · intro l' i' hne
            rw [pt_withPt_self, table_setTable, if_neg]
            rintro ⟨rfl, rfl⟩
            exact hne hzero

theorem walk_spec (h : Owned lo L s) (hv : v < MAXVA / PGSIZE) (hroot : (s.pt q).root ≠ 0) : Wp (walk q v true) s
    (fun r t => Owned lo L t ∧ Grown q s t ∧ (r = true → (t.pt q).table 0 (v / 512) ≠ 0)) fun _ => False := by
  rw [walk, if_neg (by omega)]
  refine walkLoop_spec h hv 2 (Nat.le_refl 2) ?_
  have hv' : v < 2 ^ 26 := hv
  rw [Nat.div_eq_of_lt (by omega)]
  exact hroot

theorem walkLoop_reads (s : Vm P) (q : Option P) (v l : Nat) : Wp (walkLoop q v false l) s
    (fun r t => t = s ∧ (r = false → ∃ l' < l, (s.pt q).table l' (v / 512 ^ (l' + 1)) = 0)) fun _ => False := by
  induction l with
  | zero => exact wp_pure ⟨rfl, nofun⟩
  | succ l ih =>
    rw [walkLoop]
    refine wp_get_bind ?_
    by_cases hnext : (s.pt q).table l (v / 512 ^ (l + 1)) ≠ 0
    · rw [if_pos hnext]
      refine ih.imp ?_
      rintro r t ⟨rfl, hr⟩
      refine ⟨rfl, fun hf => ?_⟩
      obtain ⟨l', hl', hz⟩ := hr hf
      exact ⟨l', by omega, hz⟩
    · rw [if_neg hnext, if_neg Bool.false_ne_true]
      exact wp_pure ⟨rfl, fun _ => ⟨l, Nat.lt_succ_self l, not_not.mp hnext⟩⟩

theorem walk_reads (h : Shape (s.pt q)) (hv : v < MAXVA / PGSIZE) :
    Wp (walk q v false) s (fun r t => t = s ∧ (r = false → (s.pt q).leaf v = none)) fun _ => False := by
  rw [walk, if_neg (by omega)]
  refine (walkLoop_reads s q v 2).imp ?_
  rintro r t ⟨rfl, hr⟩
  refine ⟨rfl, fun hf => ?_⟩
  obtain ⟨l, hl, hz⟩ := hr hf
  by_contra hne
  obtain ⟨h₀, -⟩ := h.leaf v hne
  have h₁ := h.parent 0 (v / 512) (by omega) h₀
  rw [Nat.div_div_eq_div_mul] at h₁
  have hcases : l = 0 ∨ l = 1 := by omega
  rcases hcases with rfl | rfl
  · rw [Nat.zero_add, Nat.pow_one] at hz
    exact h₀ hz
  · exact h₁ hz

theorem lookup_spec (h : Shape (s.pt q)) (hv : v < MAXVA / PGSIZE) :
    Wp (lookup q v) s (fun r t => t = s ∧ r = (s.pt q).leaf v) fun _ => False := by
  rw [lookup]
  refine (walk_reads h hv).bind ?_
  rintro r t ⟨rfl, hr⟩
  cases r with
  | true => exact wp_get_bind (wp_pure ⟨rfl, rfl⟩)
  | false => exact wp_pure ⟨rfl, (hr rfl).symm⟩

end Walks

end AdaptiveXv6.PageTableSteps
