import AdaptiveXv6.UserWrites

namespace AdaptiveXv6.UserReads

open MemLayout Bytes Programs PageTables PageOwnership PageMaps SpaceSteps SpaceCopies PageFills UserViews UserCopies
  UserWrites SpaceViews

variable {P : Type} {s s₁ t : Vm P} {p : P} {e : Pte} {lo trampoline va len n k : Nat}

theorem image_view (hturn : Turn va len n) (hleaf : (s.pt (some p)).leaf (va / PGSIZE) = some e)
    (hv : va / PGSIZE < UPAGES) :
    ((List.range n).map fun k => s.byte e.page (va - pageOf va + k)) = image (fun i => view s p (va + i)) n := by
  refine image_eq_iff.mpr fun i hi => ?_
  have hpage := hturn.page i hi
  have hva : va + i < TRAPFRAME := by
    change (va + i) / 4096 = va / 4096 at hpage
    change va / 4096 < 67108862 at hv
    change va + i < 274877898752
    omega
  have hmod : va - pageOf va + i = (va + i) % PGSIZE := by
    change (va + i) / 4096 = va / 4096 at hpage
    change va - va / 4096 * 4096 + i = (va + i) % 4096
    omega
  rw [view, if_pos hva, hpage, hleaf, hmod]
  rfl

theorem read_dataAt {f : Nat → Byte} {user write : Bool} (hturn : Turn va len n) :
    LazyMemory.Page.read ⟨user, write, dataAt f (va / PGSIZE)⟩ (va - pageOf va) n = image (fun i => f (va + i)) n := by
  refine image_eq_iff.mpr fun i hi => ?_
  have hfits := hturn.fits
  have hlt : va - pageOf va + i < PGSIZE := by
    rw [offset_eq]
    omega
  have hat : va / PGSIZE * PGSIZE + (va - pageOf va + i) = va + i := by
    change va / 4096 * 4096 + (va - va / 4096 * 4096 + i) = va + i
    omega
  change dataAt f (va / PGSIZE) (va - pageOf va + i) = f (va + i)
  rw [dataAt, if_pos hlt, hat]

/-- What copyin() has done when it returns, having delivered k bytes. -/
structure Delivered (lo trampoline : Nat) (p : P) (va len : Nat) (s : Vm P) (r : Bool × List Byte) (k : Nat)
    (t : Vm P) : Prop extends Passed lo trampoline Pte.user p va len s r.1 k t where
  data : r.2 = image (fun i => view s p (va + i)) k
  view : view t p = view s p
  frame : ∀ y, y ∉ s.free → t.byte y = s.byte y
  sim : ∀ turns, len ≤ turns → r.1 = false ∧ Starved s p va k ∨
    LazyMemory.copyinLoop turns (space s p) va len = (space t p, if r.1 then some r.2 else none)

theorem Delivered.stop (hpassed : Passed lo trampoline Pte.user p va len s false 0 t) (htakes : Takes n s t)
    (hview : UserViews.view t p = UserViews.view s p)
    (hsim : Starved s p va 0 ∨ ∀ turns, LazyMemory.copyinLoop (turns + 1) (space s p) va len = (space t p, none)) :
    Delivered lo trampoline p va len s (false, []) 0 t := by
  refine ⟨hpassed, rfl, hview, htakes.byte, fun turns hturns => ?_⟩
  obtain ⟨m, rfl⟩ := Nat.exists_eq_succ_of_ne_zero (Nat.ne_of_gt (Nat.lt_of_lt_of_le (hpassed.short rfl) hturns))
  exact hsim.imp (fun h => ⟨rfl, h⟩) fun h => h m

theorem Delivered.nil (h : Sound lo trampoline s) (p : P) (va : Nat) :
    Delivered lo trampoline p va 0 s (true, []) 0 s := by
  refine ⟨Passed.nil h p va, rfl, rfl, fun _ _ => rfl, fun turns _ => .inr ?_⟩
  cases turns <;> rfl

theorem Delivered.step {r : Bool × List Byte} (hturn : Turn va len n) (hkept : Kept lo trampoline p s s₁)
    (htakes : Takes (cost ((s.pt (some p)).leaf (va / PGSIZE))) s s₁) (hr : Reached s p (va / PGSIZE) e s₁)
    (hv : va / PGSIZE < UPAGES)
    (hrest : Delivered lo trampoline p (pageOf va + PGSIZE) (len - n) s₁ r k t) :
    Delivered lo trampoline p va len s
      (r.1, ((List.range n).map fun k => s₁.byte e.page (va - pageOf va + k)) ++ r.2) (n + k) t := by
  have hleaf : (s₁.pt (some p)).leaf (va / PGSIZE) = some e := by rw [hr.leaf, Function.update_self]
  refine ⟨Passed.step hturn hkept htakes hr hr.user (Kept.refl hkept.sound p) rfl rfl rfl hrest.toPassed, ?_,
    hrest.view.trans hr.view, fun y hy => ?_, fun turns hturns => ?_⟩
  · dsimp only
    rw [image_view hturn hleaf hv, image_add, hrest.data, hr.view]
    congr 1
    refine image_eq_iff.mpr fun i hi => ?_
    have hk := hrest.le
    rw [hturn.next (by omega), Nat.add_assoc]
  · exact (hrest.frame y fun hmem => hy (htakes.free y hmem)).trans (htakes.byte y hy)
  · have hpos := hturn.pos
    have hle := hturn.le
    obtain ⟨m, rfl⟩ : ∃ m, turns = m + 1 := ⟨turns - 1, by omega⟩
    refine (hrest.sim m (by omega)).imp
      (fun h => ⟨h.1, h.2.step hturn htakes hr rfl rfl rfl (hrest.short h.1)⟩) fun hsim => ?_
    rw [LazyMemory.copyinLoop, if_neg (by omega), pageOf, reach_some (congrFun hkept.only.sz p) hv hr, ← pageOf]
    dsimp only
    rw [hturn.eq, hsim, image_view hturn hleaf hv, hr.view, read_dataAt hturn]
    cases r.1 <;> rfl

variable [DecidableEq P]

theorem copyinLoop_delivered (turns : Nat) (h : Sound lo trampoline s) (hm : s.mode p ≠ .unused) (va len : Nat)
    (hturns : len ≤ turns) :
    Wp (copyinLoop lo p (some p) turns va len) s (fun r t => ∃ k, Delivered lo trampoline p va len s r k t)
      fun _ => False := by
  induction turns generalizing s va len with
  | zero =>
    obtain rfl := Nat.le_zero.mp hturns
    exact wp_pure ⟨0, Delivered.nil h p va⟩
  | succ turns ih =>
    rw [copyinLoop]
    refine wp_ite (fun hnil => ?_) fun hnil => ?_
    · subst hnil
      exact wp_pure ⟨0, Delivered.nil h p va⟩
    have hlen : 0 < len := Nat.pos_of_ne_zero hnil
    refine (reach_exact h hm (va / PGSIZE)).bind ?_
    rintro x s₁ ⟨hkept, htakes, ⟨rfl, hsame, hwhy⟩ | ⟨hx, e, rfl, hr⟩⟩
    · rw [if_pos rfl]
      have hview := view_same h.owned htakes hsame
      have hstop := @Passed.stop _ _ _ _ Pte.user _ _ va _ _ hkept htakes (fun v e he => by rw [hsame]; exact he) hlen
      rcases hwhy with hbad | ⟨hnone, hshort⟩
      · refine wp_pure ⟨0, Delivered.stop (hstop (.inl hbad)) htakes hview (.inr fun m => ?_)⟩
        rw [LazyMemory.copyinLoop, if_neg hnil, pageOf, reach_none h hm hbad,
          space_same (congrFun hkept.only.sz p) hsame hview]
      · have hstarved := starved_first hnone hshort
        exact wp_pure ⟨0, Delivered.stop (hstop (.inr hstarved)) htakes hview (.inl hstarved)⟩
    · rw [if_neg hx]
      refine wp_get_bind ?_
      dsimp only
      have hturn := turn va hlen
      have hpos := hturn.pos
      have hv : va / PGSIZE < UPAGES :=
        Nat.lt_of_lt_of_le hr.below (pages_le_upages ((h.slot p).space hm).2.size)
      refine (ih hkept.sound (by rw [hkept.mode]; exact hm) _ _ (by omega)).bind ?_
      rintro r t ⟨k, hrest⟩
      exact wp_pure ⟨_, Delivered.step hturn hkept htakes hr hv hrest⟩

end AdaptiveXv6.UserReads
