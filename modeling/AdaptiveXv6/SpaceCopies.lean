import AdaptiveXv6.SpaceSteps

namespace AdaptiveXv6.SpaceCopies

open MemLayout Programs PageTables PageOwnership PageMaps AddressSpaces SpaceSteps Function

variable {P : Type} {s t u : Vm P} {p r : P} {q : Option P}
  {lo trampoline sz v n x va : Nat}

/-- The memory is sound, and nothing has changed but the table of p, the free pages and the contents of pages.
-/
structure Kept (lo trampoline : Nat) (p : P) (s t : Vm P) : Prop where
  sound : Sound lo trampoline t
  only : Only (some p) s t

theorem Kept.refl (h : Sound lo trampoline s) (p : P) : Kept lo trampoline p s s := ⟨h, Only.refl _ s⟩

theorem Kept.trans (h : Kept lo trampoline p s t) (h' : Kept lo trampoline p t u) : Kept lo trampoline p s u :=
  ⟨h'.sound, h.only.trans h'.only⟩

theorem Kept.mode (h : Kept lo trampoline p s t) : t.mode = s.mode := h.only.mode

def SameArgs (s t : Vm P) : Prop := ∀ j, t.extra (.arg j) = s.extra (.arg j)

theorem SameArgs.trans (h : SameArgs s t) (h' : SameArgs t u) : SameArgs s u := fun j => (h' j).trans (h j)

theorem Kept.args (h : Kept lo trampoline p s t) : SameArgs s t := fun j => by rw [h.only.extra]

theorem sameArgs_elsewhere (h : Elsewhere p s t) : SameArgs s t := fun j => h.extra _ (by simp)

theorem Sound.quiet (h : Sound lo trampoline s) (hquiet : Quiet s t) (ht : Owned lo [] t) : Sound lo trampoline t := by
  refine ⟨ht, fun r => ?_, by rw [hquiet.pt]; exact h.making⟩
  exact (h.slot r).congr (by rw [hquiet.pt]) (by rw [hquiet.extra]) (by rw [hquiet.sz]) (by rw [hquiet.mode])

theorem kept_quiet (h : Sound lo trampoline s) (hquiet : Quiet s t) (ht : Owned lo [] t) (p : P) :
    Kept lo trampoline p s t := ⟨Sound.quiet h hquiet ht, hquiet.only _⟩

theorem kept_bytes (h : Sound lo trampoline s) (p : P) (f : (Nat → Nat → Bytes.Byte) → Nat → Nat → Bytes.Byte) :
    Kept lo trampoline p s { s with byte := f s.byte } :=
  kept_quiet (t := { s with byte := f s.byte }) h ⟨rfl, rfl, rfl, rfl, rfl⟩
    (h.owned.perm rfl rfl (List.Perm.refl _)) p

variable [DecidableEq P]

theorem walkaddr_spec (h : Shape (s.pt q)) (va : Nat) : Wp (walkaddr q va) s (fun x t => t = s ∧
    (x ≠ 0 → va / PGSIZE < MAXVA / PGSIZE ∧ (s.pt q).leaf (va / PGSIZE) ≠ none)) fun _ => False := by
  rw [walkaddr]
  refine wp_ite (fun _ => wp_pure ⟨rfl, fun hx => absurd rfl hx⟩) fun hva => ?_
  have hv : va / PGSIZE < MAXVA / PGSIZE := by
    change ¬va ≥ 2 ^ 38 at hva
    change va / 4096 < 2 ^ 38 / 4096
    omega
  refine wp_lookup h hv ?_
  cases hleaf : (s.pt q).leaf (va / PGSIZE) with
  | none => exact wp_pure ⟨rfl, fun hx => absurd rfl hx⟩
  | some e => exact wp_pure ⟨rfl, fun _ => ⟨hv, Option.some_ne_none e⟩⟩

section Copies

variable {old new : Option P}

theorem copyPage_spec (h : Owned lo [] s) (hv : v < UPAGES) (hroot : (s.pt new).root ≠ 0)
    (hnone : (s.pt new).leaf v = none) :
    Wp (copyPage lo old new v) s (fun r t => Only new s t ∧ Owned lo [] t ∧
      (∀ w, w ≠ v → (t.pt new).leaf w = (s.pt new).leaf w) ∧ (r = false → (t.pt new).leaf v = none))
      fun _ => False := by
  rw [copyPage]
  refine wp_lookup (h.shape old) (lt_vpages hv) ?_
  cases hleaf : (s.pt old).leaf v with
  | none => exact wp_pure ⟨Only.refl new s, h, fun _ _ => rfl, fun _ => hnone⟩
  | some e =>
    refine (kalloc_spec h).bind ?_
    rintro x s₁ ⟨hquiet, ⟨rfl, h₁⟩ | ⟨hx, h₁⟩⟩
    · rw [if_pos rfl]
      refine wp_pure ⟨hquiet.only new, h₁, fun w _ => by rw [hquiet.pt], fun _ => ?_⟩
      rw [hquiet.pt]
      exact hnone
    · rw [if_neg hx]
      refine wp_modify_bind ?_
      generalize hs₂ : { s₁ with byte := update s₁.byte x (s₁.byte e.page) } = s₂
      have hquiet₂ : Quiet s s₂ := hs₂ ▸ hquiet.trans ⟨rfl, rfl, rfl, rfl, rfl⟩
      have h₂ : Owned lo [x] s₂ := hs₂ ▸ h₁.perm rfl rfl (List.Perm.refl _)
      have hroot₂ : (s₂.pt new).root ≠ 0 := by rw [hquiet₂.pt]; exact hroot
      have hnone₂ : (s₂.pt new).leaf v = none := by rw [hquiet₂.pt]; exact hnone
      refine (mappages_spec (e := { e with page := x }) h₂ hv hroot₂ hnone₂).bind ?_
      rintro r s₃ ⟨honly, ⟨rfl, h₃, hleaf₃⟩ | ⟨rfl, h₃, hleaf₃⟩⟩
      · rw [if_pos rfl]
        refine wp_pure ⟨(hquiet₂.only new).trans honly, h₃, fun w hw => ?_, nofun⟩
        rw [hleaf₃, update_of_ne hw, hquiet₂.pt]
      · rw [if_neg Bool.false_ne_true]
        refine (kfree_spec h₃).bind ?_
        rintro _ s₄ ⟨hquiet₄, h₄⟩
        have hsame : (s₄.pt new).leaf = (s.pt new).leaf := by rw [hquiet₄.pt, hleaf₃, hquiet₂.pt]
        refine wp_pure ⟨((hquiet₂.only new).trans honly).trans (hquiet₄.only new), h₄, fun w _ => by rw [hsame],
          fun _ => ?_⟩
        rw [hsame]
        exact hnone

theorem uvmcopyLoop_spec (h : Owned lo [] s) (hv : v + n ≤ UPAGES) (hroot : (s.pt new).root ≠ 0)
    (hnone : ∀ w, v ≤ w → w < UPAGES → (s.pt new).leaf w = none) :
    Wp (uvmcopyLoop lo old new n v) s (fun r t => Only new s t ∧ Owned lo [] t ∧
      (∀ w, UPAGES ≤ w → (t.pt new).leaf w = (s.pt new).leaf w) ∧
      (∀ w, v + n ≤ w → w < UPAGES → (t.pt new).leaf w = none) ∧
      (r = false → ∀ w, w < UPAGES → (t.pt new).leaf w = none)) fun _ => False := by
  induction n generalizing s v with
  | zero => exact wp_pure ⟨Only.refl new s, h, fun _ _ => rfl, hnone, nofun⟩
  | succ n ih =>
    rw [uvmcopyLoop]
    refine (copyPage_spec h (by omega) hroot (hnone v (Nat.le_refl v) (by omega))).bind ?_
    rintro r s₁ ⟨honly, h₁, hleaf, hfail⟩
    cases r with
    | true =>
      rw [if_pos rfl]
      have hnone₁ : ∀ w, v + 1 ≤ w → w < UPAGES → (s₁.pt new).leaf w = none := by
        intro w hw hw'
        rw [hleaf w (by omega)]
        exact hnone w (by omega) hw'
      refine (ih h₁ (by omega) (by rw [honly.root]; exact hroot) hnone₁).imp ?_
      rintro r t ⟨honly₂, ht, hspecial, habove, hfalse⟩
      refine ⟨honly.trans honly₂, ht, fun w hw => ?_, fun w hw => habove w (by omega), hfalse⟩
      rw [hspecial w hw, hleaf w (by omega)]
    | false =>
      rw [if_neg Bool.false_ne_true]
      refine (uvmunmap_spec (v := 0) (n := v) h₁ (by omega)).bind ?_
      rintro _ t ⟨honly₂, ht, hcut⟩
      have hgone : ∀ w, w < UPAGES → (t.pt new).leaf w = none := by
        intro w hw
        rw [hcut, cut]
        split
        · rfl
        · by_cases hwv : w = v
          · rw [hwv]
            exact hfail rfl
          · rw [hleaf w hwv]
            exact hnone w (by omega) hw
      refine wp_pure ⟨honly.trans honly₂, ht, fun w hw => ?_, fun w _ => hgone w, fun _ => hgone⟩
      rw [hcut, cut, if_neg (by omega), hleaf w (by omega)]

end Copies

section Processes

theorem kfork_spec {np : P} (h : Sound lo trampoline s) (hm : s.mode p ≠ .unused) (hnp : s.mode np = .unused) :
    Wp (kfork lo trampoline p np) s (fun _ t => Sound lo trampoline t ∧ Elsewhere np s t) fun _ => False := by
  have hne : p ≠ np := fun heq => hm (heq ▸ hnp)
  rw [kfork]
  refine (allocproc_spec h hnp).bind ?_
  rintro r s₁ ⟨h₁, helse, ⟨rfl, hmode, hsz⟩ | ⟨rfl, -⟩⟩
  · rw [if_pos rfl]
    have hused : s₁.mode np ≠ .unused := by rw [hmode]; decide
    have hspace := ((h₁.slot np).space hused).2
    have hsize : s₁.sz p ≤ TRAPFRAME := by
      have hmp : s₁.mode p ≠ .unused := by rw [helse.mode p hne]; exact hm
      exact ((h₁.slot p).space hmp).2.size
    have hle := pages_le_upages hsize
    refine wp_get_bind ?_
    have hnone : ∀ w, 0 ≤ w → w < UPAGES → (s₁.pt (some np)).leaf w = none := by
      intro w _ hw
      refine hspace.above w ?_ hw
      rw [hsz, show pages 0 = 0 by decide]
      exact Nat.zero_le w
    refine (uvmcopyLoop_spec (v := 0) (n := pages (s₁.sz p)) h₁.owned (by omega) hspace.root hnone).bind ?_
    rintro r s₂ ⟨honly, h₂, hspecial, habove, hfail⟩
    have helse₂ := helse.trans (elsewhere_of_apart honly.toApart)
    cases r with
    | true =>
      rw [if_pos rfl]
      have hsound := h₁.resize hused honly h₂ hsize (fun v hv hv' => habove v (by omega) hv') hspecial
      refine wp_modify_bind (wp_modify_bind (wp_pure ⟨⟨hsound.owned.perm rfl rfl (List.Perm.refl _), fun r => ?_,
        hsound.making⟩, ?_⟩))
      · exact (hsound.slot r).congr rfl rfl rfl rfl
      · exact ⟨helse₂.pt, helse₂.extra, fun r hr => (update_of_ne hr ..).trans (helse₂.sz r hr), helse₂.mode,
          fun r hr => (update_of_ne hr ..).trans (helse₂.regs r hr)⟩
    | false =>
      rw [if_neg Bool.false_ne_true]
      have hsame : Sound lo trampoline s₂ := by
        refine resize_same h₁ hused honly h₂ fun v _ => ?_
        by_cases hv : v < UPAGES
        · rw [hfail rfl v hv, hnone v (Nat.zero_le v) hv]
        · exact hspecial v (by omega)
      refine (freeproc_sound hsame np).bind ?_
      rintro _ t ⟨ht, hreleased⟩
      exact wp_pure ⟨ht, helse₂.trans hreleased.toElsewhere⟩
  · rw [if_neg Bool.false_ne_true]
    exact wp_pure ⟨h₁, helse⟩

theorem kexit_spec (h : Sound lo trampoline s) (hm : s.mode p ≠ .unused) :
    Wp (kexit p) s (fun _ t => Sound lo trampoline t ∧ SameArgs s t) fun _ => False := by
  refine wp_modify ⟨h.update (p := p) ⟨fun _ _ => rfl, fun _ _ => rfl, fun _ _ => rfl, fun r hr =>
    update_of_ne hr .., fun _ _ => rfl⟩ (h.owned.perm rfl rfl (List.Perm.refl _)) ⟨fun hu => ?_, fun _ => ?_⟩,
    fun _ => rfl⟩
  · have hz : update s.mode p Mode.zombie p = .unused := hu
    rw [update_self] at hz
    cases hz
  · exact (h.slot p).space hm

end Processes

section Pipes

variable {a : Extra P}

theorem Sound.placed (h : Sound lo trampoline s) (ha : ∀ p, a ≠ .trapframe p) (hplaced : Placed a x s t)
    (ht : Owned lo [] t) : Sound lo trampoline t := by
  refine ⟨ht, fun r => ?_, by rw [hplaced.pt]; exact h.making⟩
  refine (h.slot r).congr (by rw [hplaced.pt]) ?_ (by rw [hplaced.sz]) (by rw [hplaced.mode])
  rw [hplaced.extra, update_of_ne fun heq => ha r heq.symm]

theorem freeExtra_sound (h : Sound lo trampoline s) (ha : ∀ p, a ≠ .trapframe p) :
    Wp (freeExtra lo a) s (fun _ t => Sound lo trampoline t ∧ Placed a 0 s t) fun _ => False :=
  (freeExtra_spec h.owned a).imp fun _ _ ht => ⟨Sound.placed h ha ht.1 ht.2, ht.1⟩

theorem sameArgs_pipe {k : Nat} (h : Placed (.pipe k) x s t) : SameArgs s t := fun j => by
  rw [h.extra, update_of_ne (by simp)]

theorem pipealloc_spec {k : Nat} (h : Sound lo trampoline s) (hk : s.extra (.pipe k) = 0) (files : Bool) :
    Wp (pipealloc k files) s (fun _ t => Sound lo trampoline t ∧ t.mode = s.mode ∧ SameArgs s t) fun _ => False := by
  rw [pipealloc]
  cases files with
  | false => exact wp_pure ⟨h, rfl, fun _ => rfl⟩
  | true =>
    rw [if_pos rfl]
    refine (kalloc_spec h.owned).bind ?_
    rintro x s₁ ⟨hquiet, ⟨rfl, h₁⟩ | ⟨hx, h₁⟩⟩
    · rw [if_pos rfl]
      exact wp_pure ⟨Sound.quiet h hquiet h₁, hquiet.mode, fun j => by rw [hquiet.extra]⟩
    · rw [if_neg hx]
      refine (setExtra_spec h₁ (by rw [hquiet.extra]; exact hk)).bind ?_
      rintro _ t ⟨hplaced, ht⟩
      have hplaced' : Placed (.pipe k) x s t := ⟨hplaced.pt.trans hquiet.pt, by rw [hplaced.extra, hquiet.extra],
        hplaced.sz.trans hquiet.sz, hplaced.mode.trans hquiet.mode, hplaced.regs.trans hquiet.regs⟩
      exact wp_pure ⟨Sound.placed h (fun _ => by simp) hplaced' ht, hplaced'.mode, sameArgs_pipe hplaced'⟩

end Pipes

end AdaptiveXv6.SpaceCopies
