import AdaptiveXv6.SpaceViews
import AdaptiveXv6.UserCopies

namespace AdaptiveXv6.UserWrites

open MemLayout Bytes Programs PageTables PageOwnership PageMaps SpaceSteps SpaceCopies PageFills UserViews UserCopies
  SpaceViews Function

variable {P : Type} {s s₁ t : Vm P} {p : P} {e : Pte} {r : Bool} {src : List Byte} {lo trampoline va n k : Nat}

/-- What copyout() has done when it returns, having written k bytes. -/
structure Written (lo trampoline : Nat) (p : P) (va : Nat) (src : List Byte) (s : Vm P) (r : Bool) (k : Nat)
    (t : Vm P) : Prop extends Passed lo trampoline writable p va src.length s r k t where
  view : view t p = store (view s p) (va, src.take k)
  frame : ∀ y, y ∉ s.free →
    (∀ j < k, ∀ e, (s.pt (some p)).leaf ((va + j) / PGSIZE) = some e → e.page ≠ y) → t.byte y = s.byte y
  /-- Unless memory runs out, the call does on the space of the process what the lazy model does. -/
  sim : ∀ turns, src.length ≤ turns → r = false ∧ Starved s p va k ∨
    LazyMemory.copyoutLoop turns (space s p) va src = (space t p, r)

theorem Written.stop (hpassed : Passed lo trampoline writable p va src.length s false 0 t) (htakes : Takes n s t)
    (hview : UserViews.view t p = UserViews.view s p)
    (hsim : Starved s p va 0 ∨ ∀ turns, LazyMemory.copyoutLoop (turns + 1) (space s p) va src = (space t p, false)) :
    Written lo trampoline p va src s false 0 t := by
  refine ⟨hpassed, ?_, fun y hy _ => htakes.byte y hy, fun turns hturns => ?_⟩
  · rw [List.take_zero, store_nil, hview]
  · obtain ⟨m, rfl⟩ := Nat.exists_eq_succ_of_ne_zero (Nat.ne_of_gt (Nat.lt_of_lt_of_le (hpassed.short rfl) hturns))
    exact hsim.imp (fun h => ⟨rfl, h⟩) fun h => h m

def wrote (s : Vm P) (e : Pte) (off : Nat) (l : List Byte) : Vm P :=
  { s with byte := update s.byte e.page (store (s.byte e.page) (off, l)) }

theorem space_wrote {v off : Nat} {l : List Byte} (h : Sound lo trampoline s) (hv : v < UPAGES)
    (hleaf : (s.pt (some p)).leaf v = some e) (hoff : off + l.length ≤ PGSIZE) :
    space (wrote s e off l) p =
      (space s p).setPage v ⟨e.user, e.write, store (dataAt (UserViews.view s p) v) (off, l)⟩ := by
  have hwrite : UserViews.view (wrote s e off l) p = store (UserViews.view s p) (v * PGSIZE + off, l) :=
    view_write h.owned hv hleaf hoff
  have hsame : ((wrote s e off l).pt (some p)).leaf = update (s.pt (some p)).leaf v (some e) := by
    rw [← hleaf, update_eq_self]
    rfl
  refine (space_update (s := s) (t := wrote s e off l) hv rfl hsame fun w hw => ?_).trans ?_
  · rw [hwrite, dataAt_other hw hoff]
  · rw [hwrite, dataAt_write hoff]

theorem Written.nil (h : Sound lo trampoline s) (p : P) (va : Nat) : Written lo trampoline p va [] s true 0 s := by
  refine ⟨Passed.nil h p va, by rw [List.take_nil, store_nil], fun _ _ _ => rfl, fun turns _ => .inr ?_⟩
  cases turns <;> rfl

theorem Written.step (hturn : Turn va src.length n) (hkept : Kept lo trampoline p s s₁)
    (htakes : Takes (cost ((s.pt (some p)).leaf (va / PGSIZE))) s s₁) (hr : Reached s p (va / PGSIZE) e s₁)
    (hw : e.write = true) (hv : va / PGSIZE < UPAGES) (hva : ¬pageOf va ≥ MAXVA)
    (hrest : Written lo trampoline p (pageOf va + PGSIZE) (src.drop n)
      (wrote s₁ e (va - pageOf va) (src.take n)) r k t) : Written lo trampoline p va src s r (n + k) t := by
  have hle := hturn.le
  have hlen : (src.take n).length = n := by rw [List.length_take, Nat.min_eq_left hle]
  have hleaf : (s₁.pt (some p)).leaf (va / PGSIZE) = some e := by rw [hr.leaf, update_self]
  have hok : writable e = true := by rw [writable, hr.user, hw]; rfl
  have hpassed := hrest.toPassed
  rw [List.length_drop] at hpassed
  have hkept₂ : Kept lo trampoline p s₁ (wrote s₁ e (va - pageOf va) (src.take n)) :=
    kept_bytes hkept.sound p fun b => update b e.page (store (b e.page) (va - pageOf va, src.take n))
  have hoff : va - pageOf va + (src.take n).length ≤ PGSIZE := by
    rw [hlen, offset_eq]
    exact hturn.fits
  refine ⟨Passed.step hturn hkept htakes hr hok hkept₂ rfl rfl rfl hpassed, ?_, fun y hy hpages => ?_,
    fun turns hturns => ?_⟩
  · have hat : va / PGSIZE * PGSIZE + (va - pageOf va) = va := by
      change va / 4096 * 4096 + (va - va / 4096 * 4096) = va
      omega
    have hwrite := view_write hkept.sound.owned hv hleaf hoff
    rw [hat, hr.view] at hwrite
    rw [hrest.view, wrote, hwrite, List.take_add]
    by_cases hlast : n < src.length
    · rw [store_append, hlen, hturn.next hlast]
    · rw [List.drop_eq_nil_of_le (by omega), List.take_nil, store_nil, List.append_nil]
  · have hpage : y ≠ e.page := by
      rintro rfl
      rcases hr.old with hold | ⟨-, -, hfree⟩
      · refine hpages 0 (Nat.add_pos_left hturn.pos k) e ?_ rfl
        rwa [Nat.add_zero]
      · exact hy hfree
    have hbyte : (wrote s₁ e (va - pageOf va) (src.take n)).byte y = s₁.byte y := update_of_ne hpage _ _
    rw [hrest.frame y (fun hmem => hy (htakes.free y hmem)) ?_, hbyte, htakes.byte y hy]
    intro j hj d hd
    have hk := hpassed.le
    have hnext := hturn.next (by omega)
    refine hpages (n + j) (by omega) d ?_
    rw [← Nat.add_assoc, ← hnext]
    rwa [show (wrote s₁ e (va - pageOf va) (src.take n)).pt = s₁.pt from rfl, hr.other] at hd
    rw [hnext, Nat.add_assoc]
    exact hturn.later (n + j) (by omega) (by omega)
  · have hpos := hturn.pos
    obtain ⟨m, rfl⟩ : ∃ m, turns = m + 1 := ⟨turns - 1, by omega⟩
    refine (hrest.sim m (by rw [List.length_drop]; omega)).imp
      (fun h => ⟨h.1, h.2.step hturn htakes hr rfl rfl rfl (hpassed.short h.1)⟩) fun hsim => ?_
    rw [LazyMemory.copyoutLoop, if_neg (by omega), if_neg hva, pageOf, reach_some (congrFun hkept.only.sz p) hv hr,
      ← pageOf]
    dsimp only
    rw [hturn.eq, if_pos hw, ← hsim, space_wrote hkept.sound hv hleaf hoff, hr.view, hr.user]
    rfl

variable [DecidableEq P]

theorem copyoutLoop_written (turns : Nat) (h : Sound lo trampoline s) (hm : s.mode p ≠ .unused) (va : Nat)
    (src : List Byte) (hturns : src.length ≤ turns) :
    Wp (copyoutLoop lo p (some p) turns va src) s (fun r t => ∃ k, Written lo trampoline p va src s r k t)
      fun _ => False := by
  induction turns generalizing s va src with
  | zero =>
    obtain rfl := List.eq_nil_of_length_eq_zero (Nat.le_zero.mp hturns)
    exact wp_pure ⟨0, Written.nil h p va⟩
  | succ turns ih =>
    rw [copyoutLoop]
    refine wp_ite (fun hnil => ?_) fun hnil => ?_
    · obtain rfl := List.eq_nil_of_length_eq_zero hnil
      exact wp_pure ⟨0, Written.nil h p va⟩
    have hlen : 0 < src.length := Nat.pos_of_ne_zero hnil
    refine wp_ite (fun hva => ?_) fun hva => ?_
    · refine wp_pure ⟨0, Written.stop (Passed.stop (Kept.refl h p) (Takes.refl s) (fun _ _ => id) hlen
        (.inl (suitable_high h hm hva))) (Takes.refl s) rfl (.inr fun m => ?_)⟩
      rw [LazyMemory.copyoutLoop, if_neg hnil, if_pos hva]
    refine (reach_exact h hm (va / PGSIZE)).bind ?_
    rintro x s₁ ⟨hkept, htakes, ⟨rfl, hsame, hwhy⟩ | ⟨hx, e, rfl, hr⟩⟩
    · rw [if_pos rfl]
      have hview := view_same h.owned htakes hsame
      have hstop := @Passed.stop _ _ _ _ writable _ _ va _ _ hkept htakes (fun v e he => by rw [hsame]; exact he) hlen
      rcases hwhy with hbad | ⟨hnone, hshort⟩
      · refine wp_pure ⟨0, Written.stop (hstop (.inl (suitable_writable hbad))) htakes hview (.inr fun m => ?_)⟩
        rw [LazyMemory.copyoutLoop, if_neg hnil, if_neg hva, pageOf, reach_none h hm hbad,
          space_same (congrFun hkept.only.sz p) hsame hview]
      · have hstarved := starved_first hnone hshort
        exact wp_pure ⟨0, Written.stop (hstop (.inr hstarved)) htakes hview (.inl hstarved)⟩
    · rw [if_neg hx]
      have hv : va / PGSIZE < UPAGES :=
        Nat.lt_of_lt_of_le hr.below (pages_le_upages ((h.slot p).space hm).2.size)
      refine wp_lookup (hkept.sound.owned.shape _) (lt_vpages hv) ?_
      rw [hr.leaf, update_self]
      dsimp only
      cases hw : e.write with
      | true =>
        rw [if_pos rfl]
        refine wp_modify_bind ?_
        have hkept₂ := hkept.trans (kept_bytes hkept.sound p fun b => update b e.page
          (store (b e.page) (va - pageOf va, src.take (min (PGSIZE - (va - pageOf va)) src.length))))
        have hturn := turn va hlen
        have hpos := hturn.pos
        refine (ih hkept₂.sound (by rw [hkept₂.mode]; exact hm) _ _ ?_).imp ?_
        · rw [List.length_drop]
          omega
        · rintro r t ⟨k, hrest⟩
          exact ⟨_, Written.step hturn hkept htakes hr hw hv hva hrest⟩
      | false =>
        rw [if_neg Bool.false_ne_true]
        have hbad : suitable writable s p (va / PGSIZE) = false := by
          rcases hr.old with hold | ⟨-, hwrite, -⟩
          · rw [suitable, hold]
            change (e.user && e.write) = false
            rw [hw, Bool.and_false]
          · rw [hw] at hwrite
            cases hwrite
        refine wp_pure ⟨0, Written.stop (Passed.stop hkept htakes hr.keeps hlen (.inl hbad)) htakes hr.view
          (.inr fun m => ?_)⟩
        rw [LazyMemory.copyoutLoop, if_neg hnil, if_neg hva, pageOf, reach_some (congrFun hkept.only.sz p) hv hr]
        dsimp only
        rw [if_neg (by rw [hw]; decide)]

end AdaptiveXv6.UserWrites
