import AdaptiveXv6.PageTableSteps

namespace AdaptiveXv6.PageMaps

open MemLayout Programs PageTables PageOwnership PageTableSteps Function

variable {P : Type} [DecidableEq P] {s t u : Vm P} {q : Option P} {L : List Nat} {lo v n x : Nat}

theorem lt_vpages (hv : v < UPAGES) : v < MAXVA / PGSIZE := Nat.lt_trans hv (by decide)

theorem wp_lookup {α : Type} {f : Option Pte → VmM P α} {Q : α → Vm P → Prop} (h : Shape (s.pt q))
    (hv : v < MAXVA / PGSIZE) (hf : Wp (f ((s.pt q).leaf v)) s Q fun _ => False) :
    Wp (lookup q v >>= f) s Q fun _ => False := by
  refine (lookup_spec h hv).bind ?_
  rintro _ _ ⟨rfl, rfl⟩
  exact hf

theorem leaf_withPt_setLeaf (s : Vm P) (q : Option P) (v : Nat) (e : Option Pte) :
    ((s.withPt q ((s.pt q).setLeaf v e)).pt q).leaf = update (s.pt q).leaf v e := by
  rw [pt_withPt_self]
  rfl

theorem only_setLeaf (s : Vm P) (q : Option P) (v : Nat) (e : Option Pte) :
    Only q s (s.withPt q ((s.pt q).setLeaf v e)) := ⟨apart_withPt .., by rw [pt_withPt_self]; rfl⟩

section Map

theorem mappages_cases {e : Pte} {Q : Bool → Vm P → Prop} (h : Owned lo L s) (hv : v < MAXVA / PGSIZE)
    (hroot : (s.pt q).root ≠ 0) (hnone : (s.pt q).leaf v = none) (hfail : ∀ t, Owned lo L t → Grown q s t → Q false t)
    (hdone : ∀ t, Owned lo L t → Grown q s t → (t.pt q).table 0 (v / 512) ≠ 0 → (t.pt q).leaf v = none →
      Q true (t.withPt q ((t.pt q).setLeaf v (some e)))) : Wp (mappages q v e) s Q fun _ => False := by
  rw [mappages]
  refine (walk_spec h hv hroot).bind ?_
  rintro r t ⟨ht, hgrown, hr⟩
  cases r with
  | false => exact wp_pure (hfail t ht hgrown)
  | true =>
    have hfree : (t.pt q).leaf v = none := by rw [hgrown.leaf, hnone]
    refine wp_get_bind ?_
    rw [hfree, if_neg (by simp)]
    exact wp_modify_bind (wp_pure (hdone t ht hgrown (hr rfl) hfree))

theorem grown_setLeaf (h : Grown q s t) (v : Nat) (e : Option Pte) :
    Only q s (t.withPt q ((t.pt q).setLeaf v e)) ∧
      ((t.withPt q ((t.pt q).setLeaf v e)).pt q).leaf = update (s.pt q).leaf v e := by
  rw [leaf_withPt_setLeaf, h.leaf]
  exact ⟨h.toOnly.trans (only_setLeaf ..), rfl⟩

theorem mappages_spec {e : Pte} (h : Owned lo (e.page :: L) s) (hv : v < UPAGES) (hroot : (s.pt q).root ≠ 0)
    (hnone : (s.pt q).leaf v = none) : Wp (mappages q v e) s (fun r t => Only q s t ∧
      (r = true ∧ Owned lo L t ∧ (t.pt q).leaf = update (s.pt q).leaf v (some e) ∨
        r = false ∧ Owned lo (e.page :: L) t ∧ (t.pt q).leaf = (s.pt q).leaf)) fun _ => False := by
  refine mappages_cases h (lt_vpages hv) hroot hnone
    (fun t ht hg => ⟨hg.toOnly, .inr ⟨rfl, ht, hg.leaf⟩⟩) fun t ht hg htable hfree => ?_
  obtain ⟨honly, hleaf⟩ := grown_setLeaf hg v (some e)
  refine ⟨honly, .inl ⟨rfl, ht.attach (a := .leaf q v) ?_ rfl ?_ (shape_update ht.shape ?_), hleaf⟩⟩
  · change userPage (t.pt q) v = 0
    rw [userPage, hfree]
    exact ite_self 0
  · rw [holds_setLeaf, if_pos hv]
    rfl
  · refine shape_setLeaf (ht.shape q) (fun _ => ⟨htable, lt_vpages hv⟩) fun e' _ he => ?_
    cases he
    exact ht.ne_zero (by simp)

theorem owned_special {e : Option Pte} (h : Owned lo L s) (hv : UPAGES ≤ v) (hshape : Shape ((s.pt q).setLeaf v e)) :
    Owned lo L (s.withPt q ((s.pt q).setLeaf v e)) := by
  refine h.of_holds ?_ rfl (shape_update h.shape hshape)
  rw [holds_setLeaf, if_neg (Nat.not_lt.mpr hv)]
  refine update_eq_self_iff.mpr ?_
  change 0 = userPage (s.pt q) v
  rw [userPage, if_neg (Nat.not_lt.mpr hv)]

theorem mappages_special (h : Owned lo L s) (hv : UPAGES ≤ v) (hv' : v < MAXVA / PGSIZE) (hroot : (s.pt q).root ≠ 0)
    (hnone : (s.pt q).leaf v = none) (e : Pte) : Wp (mappages q v e) s (fun r t => Only q s t ∧ Owned lo L t ∧
      (r = true ∧ (t.pt q).leaf = update (s.pt q).leaf v (some e) ∨
        r = false ∧ (t.pt q).leaf = (s.pt q).leaf)) fun _ => False := by
  refine mappages_cases h hv' hroot hnone (fun t ht hg => ⟨hg.toOnly, ht, .inr ⟨rfl, hg.leaf⟩⟩) fun t ht hg htable _ => ?_
  obtain ⟨honly, hleaf⟩ := grown_setLeaf hg v (some e)
  exact ⟨honly, owned_special ht hv (shape_setLeaf (ht.shape q) (fun _ => ⟨htable, hv'⟩)
    fun _ hlt _ => absurd hlt (Nat.not_lt.mpr hv)), .inl ⟨rfl, hleaf⟩⟩

end Map

section Unmap

omit [DecidableEq P] in
theorem shape_unmapped (h : Shape (s.pt q)) (v : Nat) : Shape ((s.pt q).setLeaf v none) :=
  shape_setLeaf h (fun hn => absurd rfl hn) nofun

theorem unmap_spec (h : Owned lo L s) (hv : v < UPAGES) : Wp (unmap lo q true v) s
    (fun _ t => Only q s t ∧ Owned lo L t ∧ (t.pt q).leaf = update (s.pt q).leaf v none) fun _ => False := by
  rw [unmap]
  refine wp_lookup (h.shape q) (lt_vpages hv) ?_
  cases hleaf : (s.pt q).leaf v with
  | none =>
    refine wp_pure ⟨Only.refl q s, h, ?_⟩
    rw [← hleaf, update_eq_self]
  | some e =>
    have hpage : holds s (.leaf q v) = e.page := by
      change userPage (s.pt q) v = e.page
      rw [userPage, if_pos hv, hleaf]
      rfl
    have hne : holds s (.leaf q v) ≠ 0 := by
      rw [hpage]
      exact (h.shape q).page v e hv hleaf
    obtain ⟨hlo, hhi⟩ := h.held.range _ hne
    rw [hpage] at hlo hhi
    have hout := h.detach (t := s.withPt q ((s.pt q).setLeaf v none)) hne rfl
      (by rw [holds_setLeaf, if_pos hv]; rfl) (shape_update h.shape (shape_unmapped (h.shape q) v))
    rw [hpage] at hout
    dsimp only
    rw [if_pos rfl]
    refine wp_bind (wp_of_ok (kfree_eq s hlo hhi) (wp_modify ⟨⟨⟨?_, rfl, rfl, rfl, rfl⟩, ?_⟩, hout.perm rfl rfl ?_, ?_⟩))
    · exact fun r hr => pt_withPt_of_ne hr
    · rw [pt_withPt_self]
      rfl
    · exact List.perm_middle.symm
    · rw [pt_withPt_self]
      rfl

theorem unmap_special (h : Owned lo L s) (hv : UPAGES ≤ v) (hv' : v < MAXVA / PGSIZE) : Wp (unmap lo q false v) s
    (fun _ t => Only q s t ∧ Owned lo L t ∧ (t.pt q).leaf = update (s.pt q).leaf v none) fun _ => False := by
  rw [unmap]
  refine wp_lookup (h.shape q) hv' ?_
  cases hleaf : (s.pt q).leaf v with
  | none =>
    refine wp_pure ⟨Only.refl q s, h, ?_⟩
    rw [← hleaf, update_eq_self]
  | some e =>
    dsimp only
    rw [if_neg Bool.false_ne_true]
    exact wp_pure_bind (wp_modify ⟨only_setLeaf .., owned_special h hv (shape_unmapped (h.shape q) v),
      leaf_withPt_setLeaf ..⟩)

def cut (f : Nat → Option Pte) (v w : Nat) : Nat → Option Pte := fun k => if v ≤ k ∧ k < w then none else f k

theorem uvmunmap_spec (h : Owned lo L s) (hv : v + n ≤ UPAGES) : Wp (uvmunmap lo q v n true) s
    (fun _ t => Only q s t ∧ Owned lo L t ∧ (t.pt q).leaf = cut (s.pt q).leaf v (v + n)) fun _ => False := by
  refine Wp.imp (each_range' (I := fun k t =>
    v ≤ k ∧ Only q s t ∧ Owned lo L t ∧ (t.pt q).leaf = cut (s.pt q).leaf v k) ?_ rfl ?_) fun _ _ ht => ht.2
  · rintro k t hk ⟨hvk, honly, ht, hleaf⟩
    refine (unmap_spec ht (by omega)).imp ?_
    rintro _ u ⟨honly', hu, hleaf'⟩
    refine ⟨by omega, honly.trans honly', hu, ?_⟩
    rw [hleaf', hleaf]
    funext w
    by_cases hw : w = k
    · rw [hw, update_self, cut, if_pos (by omega)]
    · rw [update_of_ne hw]
      by_cases hin : v ≤ w ∧ w < k
      · rw [cut, cut, if_pos hin, if_pos (by omega)]
      · rw [cut, cut, if_neg hin, if_neg (by omega)]
  · refine ⟨Nat.le_refl v, Only.refl q s, h, ?_⟩
    funext w
    rw [cut, if_neg (by omega)]

end Unmap

section Sizes

theorem pages_mul (v : Nat) : pages (v * PGSIZE) = v := by
  simp only [pages, PGROUNDUP, PGSIZE]
  omega

theorem roundup_eq (n : Nat) : PGROUNDUP n = pages n * PGSIZE := by
  simp only [pages, PGROUNDUP, PGSIZE]
  omega

theorem pages_le {n m : Nat} (h : n ≤ m) : pages n ≤ pages m := by
  simp only [pages, PGROUNDUP, PGSIZE]
  omega

theorem pages_le_upages {n : Nat} (h : n ≤ TRAPFRAME) : pages n ≤ UPAGES := by
  have hle := pages_le h
  exact Nat.le_trans hle (by decide)

theorem uvmdealloc_spec {oldsz newsz : Nat} (h : Owned lo L s) (hold : oldsz ≤ TRAPFRAME) :
    Wp (uvmdealloc lo q oldsz newsz) s (fun r t => r = min newsz oldsz ∧ Only q s t ∧ Owned lo L t ∧
      (t.pt q).leaf = cut (s.pt q).leaf (pages newsz) (pages oldsz)) fun _ => False := by
  have hpages := pages_le_upages hold
  have hnothing : pages oldsz ≤ pages newsz → cut (s.pt q).leaf (pages newsz) (pages oldsz) = (s.pt q).leaf := by
    intro hle
    funext w
    rw [cut, if_neg (by omega)]
  rw [uvmdealloc]
  refine wp_ite (fun hge => ?_) fun hge => ?_
  · refine wp_pure ⟨by omega, Only.refl q s, h, ?_⟩
    rw [hnothing (pages_le hge)]
  · by_cases hlt : PGROUNDUP newsz < PGROUNDUP oldsz
    · rw [if_pos hlt]
      rw [roundup_eq, roundup_eq] at hlt ⊢
      have hcount : (pages oldsz * PGSIZE - pages newsz * PGSIZE) / PGSIZE = pages oldsz - pages newsz := by
        rw [← Nat.sub_mul]
        exact Nat.mul_div_cancel _ (by decide)
      have hpos : pages newsz < pages oldsz := Nat.lt_of_mul_lt_mul_right hlt
      rw [hcount]
      refine (uvmunmap_spec h (by omega)).bind ?_
      rintro _ t ⟨honly, ht, hleaf⟩
      refine wp_pure ⟨by omega, honly, ht, ?_⟩
      rw [hleaf, Nat.add_sub_cancel' (Nat.le_of_lt hpos)]
    · rw [if_neg hlt]
      rw [roundup_eq, roundup_eq] at hlt
      refine wp_pure_bind (wp_pure ⟨by omega, Only.refl q s, h, ?_⟩)
      refine (hnothing ?_).symm
      by_contra hpos
      exact hlt (Nat.mul_lt_mul_of_pos_right (by omega) (by decide))

end Sizes

section Grow

omit [DecidableEq P] in
theorem lt_upages_of_dense (h : Owned lo L s) (hd : ∀ w, w < v → (s.pt q).leaf w ≠ none) : v < UPAGES := by
  by_contra hge
  have hpage : ∀ w, w < UPAGES → holds s (.leaf q w) ≠ 0 := by
    intro w hw
    obtain ⟨e, he⟩ := Option.ne_none_iff_exists'.mp (hd w (by omega))
    change userPage (s.pt q) w ≠ 0
    rw [userPage, if_pos hw, he]
    exact (h.shape q).page w e hw he
  have hcard : (Finset.range UPAGES).card ≤ (Finset.range STOPPAGE).card := by
    refine Finset.card_le_card_of_injOn (fun w => holds s (.leaf q w)) ?_ ?_
    · intro w hw
      have hw' : w < UPAGES := by simpa using hw
      simpa using (h.held.range _ (hpage w hw')).2
    · intro w hw w' _ heq
      have hw' : w < UPAGES := by simpa using hw
      cases h.held.inj _ _ (hpage w hw') heq
      rfl
  rw [Finset.card_range, Finset.card_range] at hcard
  exact absurd hcard (by decide)

def Fresh (f g : Nat → Option Pte) (v w : Nat) (write exec : Bool) : Prop :=
  (∀ k, v ≤ k → k < w → ∃ x, g k = some ⟨x, write, exec, true⟩) ∧ ∀ k, ¬(v ≤ k ∧ k < w) → g k = f k

theorem uvmallocLoop_spec {f : Nat → Option Pte} {old : Nat} {write exec : Bool} (h : Owned lo L s)
    (hroot : (s.pt q).root ≠ 0) (hold : old ≤ v) (hf : ∀ w, old ≤ w → w < UPAGES → f w = none)
    (hleaf : Fresh f (s.pt q).leaf old v write exec) (hv : v ≤ UPAGES)
    (hfit : v + n ≤ UPAGES ∨ ∀ w, w < v → (s.pt q).leaf w ≠ none) :
    Wp (uvmallocLoop lo q (old * PGSIZE) write exec n v) s (fun r t => Only q s t ∧ Owned lo L t ∧
      (r = true ∧ v + n ≤ UPAGES ∧ Fresh f (t.pt q).leaf old (v + n) write exec ∨ r = false ∧ (t.pt q).leaf = f))
      fun _ => False := by
  induction n generalizing s v with
  | zero => exact wp_pure ⟨Only.refl q s, h, .inl ⟨rfl, hv, hleaf⟩⟩
  | succ n ih =>
    have hlt : v < UPAGES := by
      rcases hfit with hfit | hfit
      · omega
      · exact lt_upages_of_dense h hfit
    -- what failed is undone
    have hundo : ∀ t : Vm P, Owned lo L t → Only q s t → (t.pt q).leaf = (s.pt q).leaf →
        Wp (do let _ ← uvmdealloc lo q (v * PGSIZE) (old * PGSIZE); pure false) t (fun r t => Only q s t ∧
          Owned lo L t ∧ (r = true ∧ v + (n + 1) ≤ UPAGES ∧ Fresh f (t.pt q).leaf old (v + (n + 1)) write exec ∨
            r = false ∧ (t.pt q).leaf = f)) fun _ => False := by
      intro t ht honly hsame
      have hsz : v * PGSIZE ≤ TRAPFRAME := Nat.le_trans (Nat.mul_le_mul_right _ hv) (by decide)
      refine (uvmdealloc_spec ht hsz).bind ?_
      rintro _ u ⟨-, honly', hu, hcut⟩
      refine wp_pure ⟨honly.trans honly', hu, .inr ⟨rfl, ?_⟩⟩
      rw [hcut, hsame, pages_mul, pages_mul]
      funext w
      by_cases hw : old ≤ w ∧ w < v
      · rw [cut, if_pos hw, hf w hw.1 (by omega)]
      · rw [cut, if_neg hw]
        exact hleaf.2 w hw
    rw [uvmallocLoop]
    refine (kalloc_spec h).bind ?_
    rintro x s₁ ⟨hquiet, ⟨rfl, h₁⟩ | ⟨hx, h₁⟩⟩
    · rw [if_pos rfl]
      exact hundo s₁ h₁ (hquiet.only q) (by rw [hquiet.pt])
    · rw [if_neg hx]
      refine (memset_spec h₁ x 0).bind ?_
      rintro _ s₂ ⟨hquiet₂, h₂⟩
      have hq := hquiet.trans hquiet₂
      have hnone : (s₂.pt q).leaf v = none := by
        rw [hq.pt, hleaf.2 v (by omega)]
        exact hf v hold hlt
      refine (mappages_spec (e := ⟨x, write, exec, true⟩) h₂ hlt (by rw [hq.pt]; exact hroot) hnone).bind ?_
      rintro r s₃ ⟨honly, ⟨rfl, h₃, hleaf₃⟩ | ⟨rfl, h₃, hleaf₃⟩⟩
      · have honly₃ := (hq.only q).trans honly
        rw [hq.pt] at hleaf₃
        have hfresh : Fresh f (s₃.pt q).leaf old (v + 1) write exec := by
          rw [hleaf₃]
          refine ⟨fun k hk hk' => ?_, fun k hk => ?_⟩
          · by_cases hkv : k = v
            · rw [hkv, update_self]
              exact ⟨x, rfl⟩
            · rw [update_of_ne hkv]
              exact hleaf.1 k hk (by omega)
          · rw [update_of_ne (by omega)]
            exact hleaf.2 k (by omega)
        rw [if_pos rfl]
        refine (ih h₃ (by rw [honly₃.root]; exact hroot) (by omega) hfresh (by omega) ?_).imp ?_
        · refine hfit.imp (fun hfit => by omega) fun hdense w hw => ?_
          rw [hleaf₃]
          by_cases hwv : w = v
          · rw [hwv, update_self]
            simp
          · rw [update_of_ne hwv]
            exact hdense w (by omega)
        · rintro r t ⟨honly', ht, hcases⟩
          rw [show v + 1 + n = v + (n + 1) by omega] at hcases
          exact ⟨honly₃.trans honly', ht, hcases⟩
      · rw [if_neg Bool.false_ne_true]
        refine (kfree_spec h₃).bind ?_
        rintro _ s₄ ⟨hquiet₄, h₄⟩
        refine hundo s₄ h₄ (((hq.only q).trans honly).trans (hquiet₄.only q)) ?_
        rw [hquiet₄.pt, hleaf₃, hq.pt]

theorem uvmalloc_spec {oldsz newsz : Nat} {write exec : Bool} (h : Owned lo L s) (hroot : (s.pt q).root ≠ 0)
    (hold : oldsz ≤ TRAPFRAME) (hf : ∀ w, pages oldsz ≤ w → w < UPAGES → (s.pt q).leaf w = none)
    (hfit : newsz ≤ TRAPFRAME ∨ ∀ w, w < pages oldsz → (s.pt q).leaf w ≠ none) :
    Wp (uvmalloc lo q oldsz newsz write exec) s (fun r t => Only q s t ∧ Owned lo L t ∧
      (r = max oldsz newsz ∧ pages r ≤ UPAGES ∧ Fresh (s.pt q).leaf (t.pt q).leaf (pages oldsz) (pages r) write exec ∨
        r = 0 ∧ (t.pt q).leaf = (s.pt q).leaf)) fun _ => False := by
  have hle := pages_le_upages hold
  have hsame : Fresh (s.pt q).leaf (s.pt q).leaf (pages oldsz) (pages oldsz) write exec :=
    ⟨fun k hk hk' => by omega, fun _ _ => rfl⟩
  rw [uvmalloc]
  by_cases hlt : newsz < oldsz
  · rw [if_pos hlt]
    refine wp_pure ⟨Only.refl q s, h, .inl ⟨by omega, hle, hsame⟩⟩
  · rw [if_neg hlt, roundup_eq]
    have hpages : pages oldsz + (pages newsz - pages oldsz) = pages newsz := by
      have := pages_le (n := oldsz) (m := newsz) (by omega)
      omega
    have hfit' : pages oldsz + (pages newsz - pages oldsz) ≤ UPAGES ∨ ∀ w, w < pages oldsz → (s.pt q).leaf w ≠ none := by
      refine hfit.imp_left fun hsz => ?_
      rw [hpages]
      exact pages_le_upages hsz
    refine (uvmallocLoop_spec h hroot (Nat.le_refl _) hf hsame hle hfit').bind ?_
    rintro r t ⟨honly, ht, ⟨rfl, hle', hfresh⟩ | ⟨rfl, hleaf⟩⟩
    · rw [hpages] at hle' hfresh
      rw [if_pos rfl]
      refine wp_pure ⟨honly, ht, .inl ⟨by omega, hle', hfresh⟩⟩
    · rw [if_neg Bool.false_ne_true]
      exact wp_pure ⟨honly, ht, .inr ⟨rfl, hleaf⟩⟩

end Grow

end AdaptiveXv6.PageMaps
