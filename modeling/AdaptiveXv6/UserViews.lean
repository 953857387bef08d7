import AdaptiveXv6.PageFills

namespace AdaptiveXv6.UserViews

open MemLayout Bytes Programs PageTables PageOwnership PageMaps SpaceSteps SpaceCopies PageFills Function

variable {P : Type} {s t : Vm P} {p : P} {e : Pte} {lo trampoline n v x : Nat}

/-- The memory that a process sees below the trapframe. A missing page reads as zero. -/
def view (s : Vm P) (p : P) (va : Nat) : Byte :=
  if va < TRAPFRAME then ((s.pt (some p)).leaf (va / PGSIZE)).elim 0 fun e => s.byte e.page (va % PGSIZE) else 0

/-- The page v is mapped as a copy needs it, or not there yet and below the size. -/
def suitable (ok : Pte → Bool) (s : Vm P) (p : P) (v : Nat) : Bool :=
  ((s.pt (some p)).leaf v).elim (decide (v * PGSIZE < s.sz p)) ok

theorem div_lt_upages {va : Nat} (h : va < TRAPFRAME) : va / PGSIZE < UPAGES := by
  change va < 274877898752 at h
  change va / 4096 < 67108862
  omega

theorem div_page (v : Nat) : v * PGSIZE / PGSIZE = v := Nat.mul_div_cancel v (by decide)

theorem page_not_free (h : Owned lo [] s) (hv : v < UPAGES) (hleaf : (s.pt (some p)).leaf v = some e) :
    e.page ∉ s.free := by
  have hpage : holds s (.leaf (some p) v) = e.page := by
    rw [holds, userPage, if_pos hv, hleaf]
    rfl
  have hmark := h.held.marks (.leaf (some p) v) (by rw [hpage]; exact (h.shape _).page v e hv hleaf)
  rw [hpage, List.append_nil] at hmark
  exact of_decide_eq_true hmark

theorem page_inj (h : Owned lo [] s) {w : Nat} {d : Pte} (hv : v < UPAGES) (hw : w < UPAGES)
    (hleaf : (s.pt (some p)).leaf v = some e) (hleaf' : (s.pt (some p)).leaf w = some d) (heq : e.page = d.page) :
    v = w := by
  have hpage : ∀ u c, u < UPAGES → (s.pt (some p)).leaf u = some c → holds s (.leaf (some p) u) = c.page := by
    intro u c hu hc
    rw [holds, userPage, if_pos hu, hc]
    rfl
  have hne := (h.shape _).page v e hv hleaf
  have hplace := h.held.inj (.leaf (some p) v) (.leaf (some p) w) (by rw [hpage v e hv hleaf]; exact hne)
    (by rw [hpage v e hv hleaf, hpage w d hw hleaf', heq])
  cases hplace
  rfl

theorem user_below (h : Sound lo trampoline s) (hm : s.mode p ≠ .unused) (hleaf : (s.pt (some p)).leaf v = some e)
    (huser : e.user = true) : v < pages (s.sz p) := by
  have hspace := ((h.slot p).space hm).2
  have hlt : v < 67108864 := ((h.owned.shape (some p)).leaf v (by rw [hleaf]; exact Option.some_ne_none e)).2
  by_contra hout
  by_cases hv : v < UPAGES
  · rw [hspace.above v (by omega) hv] at hleaf
    cases hleaf
  · change ¬v < 67108862 at hv
    rcases (show v = 67108862 ∨ v = 67108863 by omega) with rfl | rfl
    · have hframe := hspace.frame
      change (s.pt (some p)).leaf 67108862 = _ at hframe
      rw [hframe] at hleaf
      cases hleaf
      cases huser
    · have htramp := hspace.tramp
      change (s.pt (some p)).leaf 67108863 = _ at htramp
      rw [htramp] at hleaf
      cases hleaf
      cases huser

/-- What kalloc() is asked for at most to have a page there: the page and two of the table. -/
def cost (e : Option Pte) : Nat := if e.isNone then 3 else 0

structure Reached (s : Vm P) (p : P) (v : Nat) (e : Pte) (t : Vm P) : Prop where
  leaf : (t.pt (some p)).leaf = update (s.pt (some p)).leaf v (some e)
  user : e.user = true
  below : v < pages (s.sz p)
  old : (s.pt (some p)).leaf v = some e ∨ (s.pt (some p)).leaf v = none ∧ e.write = true ∧ e.page ∈ s.free
  view : view t p = view s p

theorem Reached.other (h : Reached s p v e t) {w : Nat} (hw : w ≠ v) :
    (t.pt (some p)).leaf w = (s.pt (some p)).leaf w := by
  rw [h.leaf, update_of_ne hw]

theorem Reached.keeps (h : Reached s p v e t) (w : Nat) (d : Pte) (hd : (s.pt (some p)).leaf w = some d) :
    (t.pt (some p)).leaf w = some d := by
  by_cases hw : w = v
  · subst hw
    rcases h.old with hold | ⟨hnone, -⟩
    · rw [h.leaf, update_self, ← hold, hd]
    · rw [hnone] at hd
      cases hd
  · rw [h.other hw, hd]

theorem Reached.suits {ok : Pte → Bool} (h : Reached s p v e t) (hok : ok e = true) : suitable ok s p v = true := by
  rw [suitable]
  rcases h.old with hold | ⟨hnone, -⟩
  · rw [hold]
    exact hok
  · rw [hnone]
    have hbelow := h.below
    simp only [pages, PGROUNDUP, PGSIZE] at hbelow
    refine decide_eq_true ?_
    change v * 4096 < s.sz p
    omega

theorem view_same (h : Owned lo [] s) (ht : Takes n s t) (hleaf : (t.pt (some p)).leaf = (s.pt (some p)).leaf) :
    view t p = view s p := by
  funext va
  rw [view, view]
  by_cases hva : va < TRAPFRAME
  · rw [if_pos hva, if_pos hva, hleaf]
    cases hl : (s.pt (some p)).leaf (va / PGSIZE) with
    | none => rfl
    | some e => exact congrFun (ht.byte _ (page_not_free h (div_lt_upages hva) hl)) _
  · rw [if_neg hva, if_neg hva]

theorem view_fresh (h : Owned lo [] s) (ht : Takes n s t) (hnone : (s.pt (some p)).leaf v = none)
    (hleaf : (t.pt (some p)).leaf = update (s.pt (some p)).leaf v (some e))
    (hzero : t.byte e.page = fun _ => 0) : view t p = view s p := by
  funext va
  rw [view, view]
  by_cases hva : va < TRAPFRAME
  · rw [if_pos hva, if_pos hva, hleaf]
    by_cases hv : va / PGSIZE = v
    · rw [hv, update_self, hnone]
      exact congrFun hzero _
    · rw [update_of_ne hv]
      cases hl : (s.pt (some p)).leaf (va / PGSIZE) with
      | none => rfl
      | some e => exact congrFun (ht.byte _ (page_not_free h (div_lt_upages hva) hl)) _
  · rw [if_neg hva, if_neg hva]

theorem view_write (h : Owned lo [] s) (hv : v < UPAGES) (hleaf : (s.pt (some p)).leaf v = some e) {off : Nat}
    {l : List Byte} (hoff : off + l.length ≤ PGSIZE) :
    view { s with byte := update s.byte e.page (store (s.byte e.page) (off, l)) } p =
      store (view s p) (v * PGSIZE + off, l) := by
  have hlt : v < 67108862 := hv
  change off + l.length ≤ 4096 at hoff
  funext va
  by_cases hpage : va / PGSIZE = v
  · have hva : va < TRAPFRAME := by
      change va / 4096 = v at hpage
      change va < 274877898752
      omega
    have hmod : va % PGSIZE = va - v * PGSIZE := by
      change va / 4096 = v at hpage
      change va % 4096 = va - v * 4096
      omega
    have hle : off ≤ va - v * PGSIZE ↔ v * PGSIZE + off ≤ va := by
      change va / 4096 = v at hpage
      change off ≤ va - v * 4096 ↔ v * 4096 + off ≤ va
      omega
    rw [view, if_pos hva, store, view, if_pos hva, hpage, hleaf]
    dsimp only [Option.elim_some]
    rw [update_self, store, hmod]
    dsimp only
    simp only [hle, Nat.sub_sub]
  · have hout : ¬Within (v * PGSIZE + off, l) va := by
      rintro ⟨h₁, h₂⟩
      change v * 4096 + off ≤ va at h₁
      change va < v * 4096 + off + l.length at h₂
      change va / 4096 ≠ v at hpage
      omega
    rw [store_outside hout, view, view]
    by_cases hva : va < TRAPFRAME
    · rw [if_pos hva, if_pos hva]
      dsimp only
      cases hl : (s.pt (some p)).leaf (va / PGSIZE) with
      | none => rfl
      | some d =>
        have hne : d.page ≠ e.page := fun heq => hpage (page_inj h (div_lt_upages hva) hv hl hleaf heq)
        dsimp only [Option.elim_some]
        rw [update_of_ne hne]
    · rw [if_neg hva, if_neg hva]

variable [DecidableEq P]

variable (h : Sound lo trampoline s) (hm : s.mode p ≠ .unused)

include h hm

theorem vmfault_exact (va : Nat) : Wp (vmfault lo p (some p) va) s (fun x t => Kept lo trampoline p s t ∧
      Takes (cost ((s.pt (some p)).leaf (va / PGSIZE))) s t ∧
      (x = 0 ∧ (t.pt (some p)).leaf = (s.pt (some p)).leaf ∧
        (s.sz p ≤ va ∨ (s.pt (some p)).leaf (va / PGSIZE) ≠ none ∨
          (s.pt (some p)).leaf (va / PGSIZE) = none ∧ ¬Ample s 3) ∨
      x ≠ 0 ∧ ∃ e, e.page = x ∧ Reached s p (va / PGSIZE) e t)) fun _ => False := by
  have hspace := ((h.slot p).space hm).2
  have hz : 0 ∉ s.free := fun hmem => h.owned.ne_zero (y := 0) (by simpa using hmem) rfl
  rw [vmfault]
  refine wp_get_bind ?_
  refine wp_ite (fun hsz =>
      wp_pure ⟨Kept.refl h p, (Takes.refl s).mono (Nat.zero_le _), .inl ⟨rfl, rfl, .inl hsz⟩⟩) fun hsz => ?_
  have hpage : va / PGSIZE < pages (s.sz p) := by
    simp only [pages, PGROUNDUP, PGSIZE]
    omega
  generalize va / PGSIZE = v at hpage ⊢
  have hv : v < UPAGES := Nat.lt_of_lt_of_le hpage (pages_le_upages hspace.size)
  refine wp_lookup (h.owned.shape _) (lt_vpages hv) ?_
  cases hleaf : (s.pt (some p)).leaf v with
  | some e =>
    exact wp_pure ⟨Kept.refl h p, Takes.refl s, .inl ⟨rfl, rfl, .inr (.inl (Option.some_ne_none e))⟩⟩
  | none =>
    refine (((kalloc_spec h.owned).and (kalloc_takes hz)).mono (fun _ _ => id) fun _ h => h.1).bind ?_
    rintro x s₁ ⟨⟨hquiet, ⟨rfl, h₁⟩ | ⟨hx, h₁⟩⟩, htakes, hfail, hfree⟩
    · rw [if_pos rfl]
      refine wp_pure ⟨kept_quiet h hquiet h₁ p, htakes.mono (by decide),
        .inl ⟨rfl, by rw [hquiet.pt], .inr (.inr ⟨rfl, fun ha => ?_⟩)⟩⟩
      exact hfail rfl (ha.mono (by omega))
    · rw [if_neg hx]
      refine wp_modify_bind ?_
      generalize hs₂ : { s₁ with byte := update s₁.byte x fun _ => 0 } = s₂
      have hquiet₂ : Quiet s s₂ := hs₂ ▸ hquiet.trans ⟨rfl, rfl, rfl, rfl, rfl⟩
      have h₂ : Owned lo [x] s₂ := hs₂ ▸ h₁.perm rfl rfl (List.Perm.refl _)
      have htakes₂ : Takes 1 s s₂ := by
        subst hs₂
        refine htakes.write rfl rfl fun y hy => update_of_ne (fun heq => hy ?_) _ _
        rw [heq]
        exact hfree hx
      have hzero₂ : s₂.byte x = fun _ => 0 := by
        subst hs₂
        exact update_self ..
      have hroot₂ : (s₂.pt (some p)).root ≠ 0 := by rw [hquiet₂.pt]; exact hspace.root
      have hleaf₂ : (s₂.pt (some p)).leaf v = none := by rw [hquiet₂.pt]; exact hleaf
      have hz₂ : 0 ∉ s₂.free := fun hmem => hz (htakes₂.free 0 hmem)
      refine (((mappages_spec (e := ⟨x, true, false, true⟩) h₂ hv hroot₂ hleaf₂).and
        (mappages_takes (some p) v ⟨x, true, false, true⟩ hz₂)).mono (fun _ _ => id) fun _ h => h.1).bind ?_
      rintro r s₃ ⟨⟨honly, ⟨rfl, h₃, hleaf₃⟩ | ⟨rfl, h₃, hleaf₃⟩⟩, htakes₃, hfail₃⟩
      · rw [if_pos rfl]
        have htakes' : Takes 3 s s₃ := htakes₂.trans htakes₃
        have hnot : x ∉ s₂.free := by
          have hnodup := h₂.nodup
          intro hmem
          exact (List.nodup_append.mp hnodup).2.2 x hmem x List.mem_cons_self rfl
        have hleaf' : (s₃.pt (some p)).leaf =
            update (s.pt (some p)).leaf v (some ⟨x, true, false, true⟩) := by
          rw [hleaf₃, hquiet₂.pt]
        have honly' := (hquiet₂.only (some p)).trans honly
        have hkept : Kept lo trampoline p s s₃ := by
          refine ⟨resize_same h hm honly' h₃ fun w hw => ?_, honly'⟩
          rw [hleaf', update_of_ne (by omega)]
        refine wp_pure ⟨hkept, htakes', .inr ⟨hx, ⟨x, true, false, true⟩, rfl, ?_⟩⟩
        refine ⟨hleaf', rfl, hpage, .inr ⟨hleaf, rfl, hfree hx⟩, view_fresh h.owned htakes' hleaf hleaf' ?_⟩
        rw [htakes₃.byte x hnot, hzero₂]
      · rw [if_neg Bool.false_ne_true]
        have hkfree := (kfree_spec h₃).and (kfree_takes lo (htakes₂.trans htakes₃) (hfree hx))
        refine (hkfree.mono (fun _ _ => id) fun _ h => h.1).bind ?_
        rintro _ s₄ ⟨⟨hquiet₄, h₄⟩, htakes₄⟩
        have honly' := ((hquiet₂.only (some p)).trans honly).trans (hquiet₄.only (some p))
        have hsame : (s₄.pt (some p)).leaf = (s.pt (some p)).leaf := by rw [hquiet₄.pt, hleaf₃, hquiet₂.pt]
        refine wp_pure ⟨⟨resize_same h hm honly' h₄ fun w _ => by rw [hsame], honly'⟩, htakes₄,
          .inl ⟨rfl, hsame, .inr (.inr ⟨rfl, fun ha => ?_⟩)⟩⟩
        exact hfail₃ rfl (htakes₂.ample 2 ha)

theorem walkaddr_exact (v : Nat) : Wp (walkaddr (some p) (v * PGSIZE)) s (fun x t => t = s ∧
      (x = 0 ∧ (∀ e, (s.pt (some p)).leaf v = some e → e.user = false) ∨
        x ≠ 0 ∧ ∃ e, e.page = x ∧ e.user = true ∧ (s.pt (some p)).leaf v = some e)) fun _ => False := by
  have hspace := ((h.slot p).space hm).2
  rw [walkaddr, div_page]
  refine wp_ite (fun hva => ?_) fun hva => ?_
  · refine wp_pure ⟨rfl, .inl ⟨rfl, fun e he => ?_⟩⟩
    have hlt : v < 67108864 := ((h.owned.shape (some p)).leaf v (by rw [he]; exact Option.some_ne_none e)).2
    change v * 4096 ≥ 274877906944 at hva
    omega
  · have hv : v < MAXVA / PGSIZE := by
      change ¬v * 4096 ≥ 274877906944 at hva
      change v < 67108864
      omega
    refine wp_lookup (h.owned.shape _) hv ?_
    cases hleaf : (s.pt (some p)).leaf v with
    | none => exact wp_pure ⟨rfl, .inl ⟨rfl, fun e he => by cases he⟩⟩
    | some e =>
      dsimp only
      cases huser : e.user with
      | false =>
        refine wp_pure ⟨rfl, .inl ⟨rfl, fun d hd => ?_⟩⟩
        cases hd
        exact huser
      | true =>
        have hbelow := user_below h hm hleaf huser
        have hne := (h.owned.shape _).page v e (Nat.lt_of_lt_of_le hbelow (pages_le_upages hspace.size)) hleaf
        exact wp_pure ⟨rfl, .inr ⟨hne, e, rfl, huser, rfl⟩⟩

def Outcome (s : Vm P) (p : P) (v x : Nat) (t : Vm P) : Prop :=
  x = 0 ∧ (t.pt (some p)).leaf = (s.pt (some p)).leaf ∧
    (suitable Pte.user s p v = false ∨ (s.pt (some p)).leaf v = none ∧ ¬Ample s 3) ∨
  x ≠ 0 ∧ ∃ e, e.page = x ∧ Reached s p v e t

theorem reach_exact (v : Nat) : Wp (reach lo p (some p) (v * PGSIZE)) s
      (fun x t => Kept lo trampoline p s t ∧ Takes (cost ((s.pt (some p)).leaf v)) s t ∧ Outcome s p v x t)
      fun _ => False := by
  rw [reach]
  refine (walkaddr_exact h hm v).bind_reads ?_
  rintro x (⟨rfl, hnone⟩ | ⟨hx, e, rfl, huser, hleaf⟩)
  · rw [if_pos rfl]
    have hfault := vmfault_exact h hm (v * PGSIZE)
    rw [div_page] at hfault
    refine hfault.imp ?_
    rintro x t ⟨hkept, htakes, ⟨rfl, hsame, hwhy⟩ | hreached⟩
    · refine ⟨hkept, htakes, .inl ⟨rfl, hsame, ?_⟩⟩
      rw [suitable]
      cases hl : (s.pt (some p)).leaf v with
      | some e => exact .inl (hnone e hl)
      | none =>
        rcases hwhy with hsz | hmapped | ⟨-, hmem⟩
        · exact .inl (decide_eq_false (Nat.not_lt.mpr hsz))
        · exact absurd hl hmapped
        · exact .inr ⟨rfl, hmem⟩
    · exact ⟨hkept, htakes, .inr hreached⟩
  · rw [if_neg hx]
    refine wp_pure ⟨Kept.refl h p, (Takes.refl s).mono (Nat.zero_le _), .inr ⟨hx, e, rfl, ?_⟩⟩
    refine ⟨?_, huser, user_below h hm hleaf huser, .inl hleaf, rfl⟩
    rw [← hleaf, update_eq_self]

end AdaptiveXv6.UserViews
