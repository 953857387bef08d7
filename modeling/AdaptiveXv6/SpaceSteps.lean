import AdaptiveXv6.PageFrees
import AdaptiveXv6.AddressSpaces

namespace AdaptiveXv6.SpaceSteps

open MemLayout Words Programs PageTables PageOwnership PageTableSteps PageMaps PageFrees AddressSpaces Function

variable {P : Type} {s t u : Vm P} {p r : P} {q : Option P} {a : Extra P} {L : List Nat}
  {lo trampoline frame sz sz' v n x : Nat} {pt pt' : PageTable}

structure Space (trampoline frame sz : Nat) (pt : PageTable) : Prop where
  root : pt.root ≠ 0
  size : sz ≤ TRAPFRAME
  above : ∀ v, pages sz ≤ v → v < UPAGES → pt.leaf v = none
  frame : pt.leaf (TRAPFRAME / PGSIZE) = some ⟨frame, true, false, false⟩
  tramp : pt.leaf (TRAMPOLINE / PGSIZE) = some ⟨trampoline, false, true, false⟩

theorem Space.update (h : Space trampoline frame sz pt) (hroot : pt'.root = pt.root) (hsz : sz' ≤ TRAPFRAME)
    (habove : ∀ v, pages sz' ≤ v → v < UPAGES → pt'.leaf v = none)
    (hspecial : ∀ v, UPAGES ≤ v → pt'.leaf v = pt.leaf v) : Space trampoline frame sz' pt' := by
  refine ⟨by rw [hroot]; exact h.root, hsz, habove, ?_, ?_⟩
  · rw [hspecial _ (Nat.le_refl _)]
    exact h.frame
  · rw [hspecial _ (by decide)]
    exact h.tramp

structure Slot (trampoline : Nat) (s : Vm P) (p : P) : Prop where
  unused : s.mode p = .unused → s.pt (some p) = .null ∧ s.extra (.trapframe p) = 0 ∧ s.sz p = 0
  space : s.mode p ≠ .unused → s.extra (.trapframe p) ≠ 0 ∧
    Space trampoline (s.extra (.trapframe p)) (s.sz p) (s.pt (some p))

/-- The memory between system calls, but for the arguments of exec. -/
structure Sound (lo trampoline : Nat) (s : Vm P) : Prop where
  owned : Owned lo [] s
  slot : ∀ p, Slot trampoline s p
  making : s.pt none = .null

structure Elsewhere (p : P) (s t : Vm P) : Prop where
  pt : ∀ q, q ≠ some p → t.pt q = s.pt q
  extra : ∀ a, a ≠ .trapframe p → t.extra a = s.extra a
  sz : ∀ r, r ≠ p → t.sz r = s.sz r
  mode : ∀ r, r ≠ p → t.mode r = s.mode r
  regs : ∀ r, r ≠ p → t.regs r = s.regs r

theorem Elsewhere.trans (h : Elsewhere p s t) (h' : Elsewhere p t u) : Elsewhere p s u :=
  ⟨fun q hq => (h'.pt q hq).trans (h.pt q hq), fun a ha => (h'.extra a ha).trans (h.extra a ha),
    fun r hr => (h'.sz r hr).trans (h.sz r hr), fun r hr => (h'.mode r hr).trans (h.mode r hr),
    fun r hr => (h'.regs r hr).trans (h.regs r hr)⟩

theorem elsewhere_of_apart (h : Apart (some p) s t) : Elsewhere p s t :=
  ⟨h.others, fun a _ => by rw [h.extra], fun r _ => by rw [h.sz], fun r _ => by rw [h.mode], fun r _ => by rw [h.regs]⟩

theorem Slot.congr (h : Slot trampoline s r) (hpt : t.pt (some r) = s.pt (some r))
    (hframe : t.extra (.trapframe r) = s.extra (.trapframe r)) (hsz : t.sz r = s.sz r) (hmode : t.mode r = s.mode r) :
    Slot trampoline t r := by
  refine ⟨fun hm => ?_, fun hm => ?_⟩
  · rw [hpt, hframe, hsz]
    exact h.unused (by rw [← hmode, hm])
  · rw [hpt, hframe, hsz]
    exact h.space (by rwa [← hmode])

theorem Sound.update (h : Sound lo trampoline s) (he : Elsewhere p s t) (ho : Owned lo [] t)
    (hslot : Slot trampoline t p) : Sound lo trampoline t := by
  refine ⟨ho, fun r => ?_, by rw [he.pt none (by simp)]; exact h.making⟩
  by_cases hr : r = p
  · rw [hr]
    exact hslot
  · exact (h.slot r).congr (he.pt _ (by simpa using hr)) (he.extra _ (by simpa using hr)) (he.sz r hr) (he.mode r hr)

variable [DecidableEq P]

section Making

theorem uvmcreate_spec (h : Owned lo L s) (hnull : s.pt q = .null) : Wp (uvmcreate q) s (fun r t => Apart q s t ∧
    Owned lo L t ∧ (r = true ∧ (t.pt q).root ≠ 0 ∧ (∀ v, (t.pt q).leaf v = none) ∨ r = false ∧ t.pt q = .null))
    fun _ => False := by
  rw [uvmcreate]
  refine (kalloc_spec h).bind ?_
  rintro x s₁ ⟨hquiet, ⟨rfl, h₁⟩ | ⟨hx, h₁⟩⟩
  · rw [if_pos rfl]
    exact wp_pure ⟨(hquiet.only q).toApart, h₁, .inr ⟨rfl, by rw [hquiet.pt, hnull]⟩⟩
  · rw [if_neg hx]
    refine (memset_spec h₁ x 0).bind ?_
    rintro _ s₂ ⟨hquiet₂, h₂⟩
    have hq := hquiet.trans hquiet₂
    have hnull₂ : s₂.pt q = .null := by rw [hq.pt, hnull]
    have hholds := holds_setTable s₂ q 2 0 x
    rw [hnull₂] at hholds
    have hfree : holds s₂ (.table q 2 0) = 0 := by
      change (s₂.pt q).table 2 0 = 0
      rw [hnull₂]
      rfl
    refine wp_modify_bind (wp_pure ⟨(hq.only q).toApart.trans (apart_withPt ..), ?_, .inl ⟨rfl, ?_, ?_⟩⟩)
    · exact h₂.attach hfree rfl hholds (shape_update h₂.shape (shape_root x))
    · rw [pt_withPt_self, PageTable.root, table_setTable, if_pos ⟨rfl, rfl⟩]
      exact hx
    · intro v
      rw [pt_withPt_self]
      rfl

theorem uvmunmap_one (h : Owned lo L s) (hv : UPAGES ≤ v) (hv' : v < MAXVA / PGSIZE) :
    Wp (uvmunmap lo q v 1 false) s (fun _ t => Only q s t ∧ Owned lo L t ∧
      (t.pt q).leaf = Function.update (s.pt q).leaf v none) fun _ => False :=
  (unmap_special h hv hv').bind fun _ _ ht => wp_pure ht

set_option maxRecDepth 8000 in
theorem procPagetable_spec (h : Owned lo L s) (hnull : s.pt q = .null) (p : P) :
    Wp (procPagetable lo trampoline p q) s (fun r t => Apart q s t ∧ Owned lo L t ∧
      (r = true ∧ Space trampoline (s.extra (.trapframe p)) 0 (t.pt q) ∨ r = false ∧ t.pt q = .null))
      fun _ => False := by
  rw [procPagetable]
  refine (uvmcreate_spec h hnull).bind ?_
  rintro r s₁ ⟨hapart, h₁, ⟨rfl, hroot, hleaf⟩ | ⟨rfl, hnull₁⟩⟩
  · rw [if_pos rfl]
    refine (mappages_special h₁ (by decide) (by decide) hroot (hleaf _) _).bind ?_
    rintro r s₂ ⟨honly, h₂, ⟨rfl, hleaf₂⟩ | ⟨rfl, hleaf₂⟩⟩
    · rw [if_pos rfl]
      have hroot₂ : (s₂.pt q).root ≠ 0 := by rw [honly.root]; exact hroot
      have hapart₂ := hapart.trans honly.toApart
      have hnone₂ : (s₂.pt q).leaf (TRAPFRAME / PGSIZE) = none := by
        rw [hleaf₂, update_of_ne (by decide)]
        exact hleaf _
      refine wp_get_bind ?_
      refine (mappages_special h₂ (by decide) (by decide) hroot₂ hnone₂ _).bind ?_
      rintro r s₃ ⟨honly₃, h₃, ⟨rfl, hleaf₃⟩ | ⟨rfl, hleaf₃⟩⟩
      · rw [if_pos rfl]
        refine wp_pure ⟨hapart₂.trans honly₃.toApart, h₃, .inl ⟨rfl, ?_, Nat.zero_le _, ?_, ?_, ?_⟩⟩
        · rw [honly₃.root]
          exact hroot₂
        · intro v _ hv
          have hv' : v < 2 ^ 26 - 2 := hv
          rw [hleaf₃, hleaf₂, update_of_ne, update_of_ne]
          · exact hleaf v
          · change v ≠ 2 ^ 26 - 1
            omega
          · change v ≠ 2 ^ 26 - 2
            omega
        · rw [hleaf₃, update_self, hapart₂.extra]
        · rw [hleaf₃, update_of_ne (by decide), hleaf₂, update_self]
      · -- only the trampoline was mapped
        rw [if_neg Bool.false_ne_true]
        refine (uvmunmap_one h₃ (by decide) (by decide)).bind ?_
        rintro _ s₄ ⟨honly₄, h₄, hleaf₄⟩
        have hroot₄ : (s₄.pt q).root ≠ 0 := by rw [honly₄.root, honly₃.root]; exact hroot₂
        have hnone₄ : ∀ v, pages 0 ≤ v → (s₄.pt q).leaf v = none := by
          intro v _
          rw [hleaf₄, hleaf₃, hleaf₂, update_idem]
          by_cases hv : v = TRAMPOLINE / PGSIZE
          · rw [hv, update_self]
          · rw [update_of_ne hv]
            exact hleaf v
        refine (uvmfree_spec h₄ (Nat.zero_le _) hroot₄ hnone₄).bind ?_
        rintro _ s₅ hdrop
        have hapart₅ := ((hapart₂.trans honly₃.toApart).trans honly₄.toApart).trans hdrop.toApart
        exact wp_pure ⟨hapart₅, hdrop.owned, .inr ⟨rfl, hdrop.null⟩⟩
    · rw [if_neg Bool.false_ne_true]
      have hnone₂ : ∀ v, pages 0 ≤ v → (s₂.pt q).leaf v = none := by
        intro v _
        rw [hleaf₂]
        exact hleaf v
      refine (uvmfree_spec h₂ (Nat.zero_le _) (by rw [honly.root]; exact hroot) hnone₂).bind ?_
      rintro _ s₃ hdrop
      exact wp_pure ⟨(hapart.trans honly.toApart).trans hdrop.toApart, hdrop.owned, .inr ⟨rfl, hdrop.null⟩⟩
  · rw [if_neg Bool.false_ne_true]
    exact wp_pure ⟨hapart, h₁, .inr ⟨rfl, hnull₁⟩⟩

theorem procFreepagetable_spec (h : Owned lo L s) (hroot : (s.pt q).root ≠ 0) (hsz : sz ≤ TRAPFRAME)
    (habove : ∀ v, pages sz ≤ v → v < UPAGES → (s.pt q).leaf v = none) :
    Wp (procFreepagetable lo q sz) s (fun _ => Dropped lo L q s) fun _ => False := by
  rw [procFreepagetable]
  refine (uvmunmap_one h (by decide) (by decide)).bind ?_
  rintro _ s₁ ⟨honly, h₁, hleaf⟩
  refine (uvmunmap_one h₁ (by decide) (by decide)).bind ?_
  rintro _ s₂ ⟨honly₂, h₂, hleaf₂⟩
  have honly' := honly.trans honly₂
  have hnone : ∀ v, pages sz ≤ v → (s₂.pt q).leaf v = none := by
    intro v hv
    rw [hleaf₂, hleaf]
    by_cases hframe : v = TRAPFRAME / PGSIZE
    · rw [hframe, update_self]
    · rw [update_of_ne hframe]
      by_cases htramp : v = TRAMPOLINE / PGSIZE
      · rw [htramp, update_self]
      · rw [update_of_ne htramp]
        by_contra hsome
        have hlt : v < 2 ^ 26 := ((h.shape q).leaf v hsome).2
        have hframe' : v ≠ 2 ^ 26 - 2 := hframe
        have htramp' : v ≠ 2 ^ 26 - 1 := htramp
        refine hsome (habove v hv ?_)
        change v < 2 ^ 26 - 2
        omega
  refine (uvmfree_spec h₂ hsz (by rw [honly'.root]; exact hroot) hnone).imp ?_
  exact fun _ t hdrop => ⟨honly'.toApart.trans hdrop.toApart, hdrop.owned, hdrop.null⟩

end Making

section Extras

structure Placed (a : Extra P) (x : Nat) (s t : Vm P) : Prop where
  pt : t.pt = s.pt
  extra : t.extra = Function.update s.extra a x
  sz : t.sz = s.sz
  mode : t.mode = s.mode
  regs : t.regs = s.regs

theorem holds_setExtra (s : Vm P) (a : Extra P) (x : Nat) :
    holds { s with extra := Function.update s.extra a x } = Function.update (holds s) (.extra a) x := by
  funext b
  cases b with
  | table q l i => rw [update_of_ne (by simp)]; rfl
  | leaf q v => rw [update_of_ne (by simp)]; rfl
  | extra b =>
    by_cases hb : b = a
    · rw [hb, update_self]
      exact update_self ..
    · rw [update_of_ne (by simpa using hb)]
      exact update_of_ne hb ..

theorem setExtra_spec (h : Owned lo (x :: L) s) (ha : s.extra a = 0) :
    Wp (setExtra a x) s (fun _ t => Placed a x s t ∧ Owned lo L t) fun _ => False :=
  wp_modify ⟨⟨rfl, rfl, rfl, rfl, rfl⟩, h.attach (a := .extra a) ha rfl (holds_setExtra s a x) h.shape⟩

theorem freeExtra_spec (h : Owned lo L s) (a : Extra P) :
    Wp (freeExtra lo a) s (fun _ t => Placed a 0 s t ∧ Owned lo L t) fun _ => False := by
  rw [freeExtra]
  refine wp_get_bind ?_
  refine wp_ite (fun ha => ?_) fun ha => ?_
  · have hne : holds s (.extra a) ≠ 0 := ha
    obtain ⟨hlo, hhi⟩ := h.held.range _ hne
    have hout := h.detach (t := { s with extra := Function.update s.extra a 0 }) hne rfl (holds_setExtra s a 0) h.shape
    refine wp_bind (wp_of_ok (kfree_eq s hlo hhi) (wp_modify ⟨⟨rfl, rfl, rfl, rfl, rfl⟩, ?_⟩))
    exact hout.perm rfl rfl List.perm_middle.symm
  · have hzero : s.extra a = 0 := not_not.mp ha
    refine wp_pure_bind (wp_modify ⟨⟨rfl, rfl, rfl, rfl, rfl⟩, ?_⟩)
    refine h.perm rfl ?_ (List.Perm.refl _)
    rw [← hzero, update_eq_self]

end Extras

section Slots

structure Released (p : P) (s t : Vm P) : Prop extends Elsewhere p s t where
  null : t.pt (some p) = .null
  frame : t.extra (.trapframe p) = 0
  size : t.sz p = 0
  free : t.mode p = .unused

omit [DecidableEq P] in
theorem Released.slot (h : Released p s t) : Slot trampoline t p :=
  ⟨fun _ => ⟨h.null, h.frame, h.size⟩, fun hm => absurd h.free hm⟩

theorem elsewhere_placed (h : Placed (.trapframe p) x s t) : Elsewhere p s t :=
  ⟨fun q _ => by rw [h.pt], fun a ha => by rw [h.extra, update_of_ne ha], fun r _ => by rw [h.sz],
    fun r _ => by rw [h.mode], fun r _ => by rw [h.regs]⟩

theorem freeproc_spec (h : Owned lo [] s) (hpt : s.pt (some p) = .null ∨
    (s.pt (some p)).root ≠ 0 ∧ s.sz p ≤ TRAPFRAME ∧
      ∀ v, pages (s.sz p) ≤ v → v < UPAGES → (s.pt (some p)).leaf v = none) :
    Wp (freeproc lo p) s (fun _ t => Owned lo [] t ∧ Released p s t) fun _ => False := by
  rw [freeproc]
  refine (freeExtra_spec h _).bind ?_
  rintro _ s₁ ⟨hplaced, h₁⟩
  have hclear : ∀ t : Vm P, Owned lo [] t → Apart (some p) s₁ t → t.pt (some p) = .null →
      Wp (do setSz p 0; setMode p .unused) t (fun _ t => Owned lo [] t ∧ Released p s t) fun _ => False := by
    intro t ht hapart hnull
    have helse := (elsewhere_placed hplaced).trans (elsewhere_of_apart hapart)
    refine wp_modify_bind (wp_modify ⟨ht.perm rfl rfl (List.Perm.refl _), ⟨?_, hnull, ?_, ?_, ?_⟩⟩)
    · exact ⟨helse.pt, helse.extra, fun r hr => by rw [← helse.sz r hr]; exact update_of_ne hr ..,
        fun r hr => by rw [← helse.mode r hr]; exact update_of_ne hr .., helse.regs⟩
    · change t.extra _ = 0
      rw [hapart.extra, hplaced.extra, update_self]
    · exact update_self ..
    · exact update_self ..
  refine wp_get_bind ?_
  rcases hpt with hnull | ⟨hroot, hsz, habove⟩
  · have hnull₁ : s₁.pt (some p) = .null := by rw [hplaced.pt, hnull]
    rw [if_neg (by rw [hnull₁]; exact not_not.mpr rfl)]
    exact wp_pure_bind (hclear s₁ h₁ (Apart.refl _ _) hnull₁)
  · rw [if_pos (by rw [hplaced.pt]; exact hroot), hplaced.sz]
    refine (procFreepagetable_spec h₁ (by rw [hplaced.pt]; exact hroot) hsz (by rw [hplaced.pt]; exact habove)).bind ?_
    rintro _ s₂ hdrop
    exact hclear s₂ hdrop.owned hdrop.toApart hdrop.null

theorem freeproc_sound (h : Sound lo trampoline s) (p : P) :
    Wp (freeproc lo p) s (fun _ t => Sound lo trampoline t ∧ Released p s t) fun _ => False := by
  have hpt : s.pt (some p) = .null ∨ (s.pt (some p)).root ≠ 0 ∧ s.sz p ≤ TRAPFRAME ∧
      ∀ v, pages (s.sz p) ≤ v → v < UPAGES → (s.pt (some p)).leaf v = none := by
    by_cases hm : s.mode p = .unused
    · exact .inl ((h.slot p).unused hm).1
    · have hspace := ((h.slot p).space hm).2
      exact .inr ⟨hspace.root, hspace.size, hspace.above⟩
  refine (freeproc_spec h.owned hpt).imp ?_
  rintro _ t ⟨ht, hreleased⟩
  exact ⟨h.update hreleased.toElsewhere ht hreleased.slot, hreleased⟩

theorem allocproc_spec (h : Sound lo trampoline s) (hm : s.mode p = .unused) :
    Wp (allocproc lo trampoline p) s (fun r t => Sound lo trampoline t ∧ Elsewhere p s t ∧
      (r = true ∧ t.mode p = .used ∧ t.sz p = 0 ∨ r = false ∧ t.mode p = .unused)) fun _ => False := by
  obtain ⟨hnull, hframe, hsz⟩ := (h.slot p).unused hm
  rw [allocproc]
  refine wp_modify_bind ?_
  have hmode : Elsewhere p s { s with mode := Function.update s.mode p .used } :=
    ⟨fun _ _ => rfl, fun _ _ => rfl, fun _ _ => rfl, fun r hr => update_of_ne hr .., fun _ _ => rfl⟩
  have h₀ : Owned lo [] { s with mode := Function.update s.mode p .used } :=
    h.owned.perm rfl rfl (List.Perm.refl _)
  -- without a page table the slot is given up again
  have hgiveUp : ∀ t : Vm P, Owned lo [] t → Elsewhere p s t → t.pt (some p) = .null →
      Wp (do freeproc lo p; pure false) t (fun r t => Sound lo trampoline t ∧ Elsewhere p s t ∧
        (r = true ∧ t.mode p = .used ∧ t.sz p = 0 ∨ r = false ∧ t.mode p = .unused)) fun _ => False := by
    intro t ht helse hn
    refine (freeproc_spec ht (.inl hn)).bind ?_
    rintro _ u ⟨hu, hreleased⟩
    have helse' := helse.trans hreleased.toElsewhere
    exact wp_pure ⟨h.update helse' hu hreleased.slot, helse', .inr ⟨rfl, hreleased.free⟩⟩
  refine (kalloc_spec h₀).bind ?_
  rintro x s₁ ⟨hquiet, hx⟩
  have hframe₁ : s₁.extra (.trapframe p) = 0 := by rw [hquiet.extra]; exact hframe
  have hapart₁ : Apart (some p) _ s₁ := (hquiet.only (some p)).toApart
  rcases hx with ⟨rfl, h₁⟩ | ⟨hx, h₁⟩
  · refine wp_modify_bind ?_
    rw [if_pos rfl]
    have hsame : Function.update s₁.extra (.trapframe p) 0 = s₁.extra := by rw [← hframe₁, update_eq_self]
    refine hgiveUp _ (h₁.perm rfl hsame (List.Perm.refl _)) ?_ ?_
    · refine (hmode.trans (elsewhere_of_apart hapart₁)).trans (elsewhere_placed (x := 0) ⟨rfl, rfl, rfl, rfl, rfl⟩)
    · change s₁.pt (some p) = .null
      rw [hquiet.pt]
      exact hnull
  · refine (setExtra_spec h₁ hframe₁).bind ?_
    rintro _ s₂ ⟨hplaced, h₂⟩
    rw [if_neg hx]
    have helse₂ := (hmode.trans (elsewhere_of_apart hapart₁)).trans (elsewhere_placed hplaced)
    have hnull₂ : s₂.pt (some p) = .null := by
      rw [hplaced.pt, hquiet.pt]
      exact hnull
    refine (procPagetable_spec h₂ hnull₂ p).bind ?_
    rintro r s₃ ⟨hapart₃, h₃, ⟨rfl, hspace⟩ | ⟨rfl, hnull₃⟩⟩
    · rw [if_pos rfl]
      have hmode₃ : s₃.mode p = .used := by
        rw [hapart₃.mode, hplaced.mode, hquiet.mode]
        exact update_self ..
      have hsz₃ : s₃.sz p = 0 := by
        rw [hapart₃.sz, hplaced.sz, hquiet.sz]
        exact hsz
      have hframe₃ : s₃.extra (.trapframe p) = x := by rw [hapart₃.extra, hplaced.extra, update_self]
      have helse₃ := helse₂.trans (elsewhere_of_apart hapart₃)
      refine wp_pure ⟨h.update helse₃ h₃ ⟨fun hu => ?_, fun _ => ⟨by rw [hframe₃]; exact hx, ?_⟩⟩, helse₃,
        .inl ⟨rfl, hmode₃, hsz₃⟩⟩
      · rw [hmode₃] at hu
        cases hu
      · rw [hsz₃, hapart₃.extra]
        exact hspace
    · rw [if_neg Bool.false_ne_true]
      exact hgiveUp s₃ h₃ (helse₂.trans (elsewhere_of_apart hapart₃)) hnull₃

end Slots

section Sizes

variable (h : Sound lo trampoline s) (hm : s.mode p ≠ .unused)

include h hm

theorem Sound.resize (honly : Only (some p) s t) (ht : Owned lo [] t) (hsz : sz ≤ TRAPFRAME)
    (habove : ∀ v, pages sz ≤ v → v < UPAGES → (t.pt (some p)).leaf v = none)
    (hspecial : ∀ v, UPAGES ≤ v → (t.pt (some p)).leaf v = (s.pt (some p)).leaf v) :
    Sound lo trampoline { t with sz := Function.update t.sz p sz } := by
  obtain ⟨hframe, hspace⟩ := (h.slot p).space hm
  have helse := elsewhere_of_apart honly.toApart
  refine h.update ⟨helse.pt, helse.extra, fun r hr => ?_, helse.mode, helse.regs⟩
    (ht.perm rfl rfl (List.Perm.refl _)) ⟨fun hu => ?_, fun _ => ?_⟩
  · rw [← helse.sz r hr]
    exact update_of_ne hr ..
  · change t.mode p = .unused at hu
    rw [honly.mode] at hu
    exact absurd hu hm
  · change t.extra _ ≠ 0 ∧ Space trampoline (t.extra _) (Function.update t.sz p sz p) (t.pt (some p))
    rw [honly.extra, update_self]
    exact ⟨hframe, hspace.update honly.root hsz habove hspecial⟩

theorem resize_same (honly : Only (some p) s t)
    (ht : Owned lo [] t) (hleaf : ∀ v, pages (s.sz p) ≤ v → (t.pt (some p)).leaf v = (s.pt (some p)).leaf v) :
    Sound lo trampoline t := by
  have hspace := ((h.slot p).space hm).2
  have hle := pages_le_upages hspace.size
  have hsound := h.resize hm honly ht hspace.size (fun v hv hv' => by rw [hleaf v hv]; exact hspace.above v hv hv')
    fun v hv => hleaf v (by omega)
  rwa [← honly.sz, update_eq_self] at hsound

theorem growproc_spec (n : Int) :
    Wp (growproc lo p n) s (fun _ t => Sound lo trampoline t ∧ t.extra = s.extra) fun _ => False := by
  have hspace := ((h.slot p).space hm).2
  have hle := pages_le_upages hspace.size
  rw [growproc]
  refine wp_get_bind ?_
  refine wp_ite (fun hpos => ?_) fun hpos => ?_
  · by_cases hbig : u64 (s.sz p + n.toNat) > TRAPFRAME
    · rw [if_pos hbig]
      exact wp_pure ⟨h, rfl⟩
    · rw [if_neg hbig]
      refine (uvmalloc_spec h.owned hspace.root hspace.size hspace.above (.inl (by omega))).bind ?_
      rintro sz t ⟨honly, ht, hcases⟩
      have hzero : sz = 0 → ∀ v, pages (s.sz p) ≤ v → (t.pt (some p)).leaf v = (s.pt (some p)).leaf v := by
        intro hz v hv
        rcases hcases with ⟨-, -, hfresh⟩ | ⟨-, hleaf⟩
        · refine hfresh.2 v ?_
          rw [hz, show pages 0 = 0 by decide]
          omega
        · rw [hleaf]
      refine wp_ite (fun hz => wp_pure ⟨resize_same h hm honly ht (hzero hz), honly.extra⟩) fun hz => ?_
      rcases hcases with ⟨hmax, hfit, hfresh⟩ | ⟨hz', -⟩
      · have hle' : pages (s.sz p) ≤ pages sz := pages_le (by omega)
        have hsize := hspace.size
        refine wp_modify_bind (wp_pure ⟨h.resize hm honly ht (by omega) (fun v hv hv' => ?_) fun v hv => ?_, honly.extra⟩)
        · rw [hfresh.2 v (by omega)]
          exact hspace.above v (by omega) hv'
        · exact hfresh.2 v (by omega)
      · exact absurd hz' hz
  · by_cases hneg : n < 0
    · rw [if_pos hneg]
      refine (uvmdealloc_spec h.owned hspace.size).bind ?_
      rintro sz t ⟨hmin, honly, ht, hcut⟩
      have hsize := hspace.size
      refine wp_modify_bind (wp_pure ⟨h.resize hm honly ht (by omega) (fun v hv hv' => ?_) fun v hv => ?_, honly.extra⟩)
      · rw [hcut, cut]
        split
        · rfl
        · rename_i hout
          refine hspace.above v ?_ hv'
          rcases Nat.le_total (u64 (s.sz p + (2 ^ 64 - n.natAbs))) (s.sz p) with hlt | hlt
          · rw [hmin, Nat.min_eq_left hlt] at hv
            omega
          · rwa [hmin, Nat.min_eq_right hlt] at hv
      · rw [hcut, cut, if_neg (by omega)]
    · rw [if_neg hneg]
      exact wp_pure ⟨h, rfl⟩

theorem sysSbrk_spec (n : Int) (lazy : Bool) :
    Wp (sysSbrk lo p n lazy) s (fun _ t => Sound lo trampoline t ∧ t.extra = s.extra) fun _ => False := by
  have hspace := ((h.slot p).space hm).2
  rw [sysSbrk]
  refine wp_ite (fun _ => growproc_spec h hm n) fun heager => ?_
  refine wp_get_bind ?_
  refine wp_ite (fun _ => wp_pure ⟨h, rfl⟩) fun hwrap => ?_
  refine wp_ite (fun _ => wp_pure ⟨h, rfl⟩) fun hbig => ?_
  have hle : pages (s.sz p) ≤ pages (u64 (s.sz p + n.toNat)) := pages_le (by omega)
  exact wp_modify_bind (wp_pure ⟨h.resize hm (Only.refl _ s) h.owned (by omega)
    (fun v hv hv' => hspace.above v (by omega) hv') fun _ _ => rfl, rfl⟩)

end Sizes

end AdaptiveXv6.SpaceSteps
