import AdaptiveXv6.PageMaps
import AdaptiveXv6.RadixUnmaps

namespace AdaptiveXv6.RadixViews

open MemLayout Words Programs PageTables PageOwnership PageTableSteps PageMaps RadixMaps RadixUnmaps Function

variable {P : Type} [DecidableEq P] {s t : Radix.Phys} {u : Vm P} {q : Option P} {L : List Nat} {pt pt' : PageTable}
  {lo root v : Nat} {e : Pte}

abbrev PTE_U : Nat := 16

def perm (e : Pte) : Nat :=
  Radix.PTE_R ||| (if e.write then Radix.PTE_W else 0) ||| (if e.exec then Radix.PTE_X else 0) |||
    if e.user then PTE_U else 0

/-- What the entry of a leaf says. -/
def binding (e : Pte) : Nat × Nat := (e.page * PGSIZE, perm e ||| Radix.PTE_V)

/-- The tables in memory translate every page as pt does. -/
structure Mirrors (lo : Nat) (s : Radix.Phys) (root : Nat) (pt : PageTable) : Prop where
  wellformed : Wellformed (lo * PGSIZE) s root
  leaf : ∀ v < MAXVA / PGSIZE, RadixMaps.lookup s root (v * PGSIZE) = (pt.leaf v).map binding

theorem perm_lt (e : Pte) : perm e < 1024 := by
  rw [perm]
  cases e.write <;> cases e.exec <;> cases e.user <;> decide

theorem page_mul (v : Nat) : v * PGSIZE / PGSIZE = v := Nat.mul_div_cancel v (by decide)

theorem mul_lt_maxva (hv : v < MAXVA / PGSIZE) : v * PGSIZE < MAXVA := by
  change v < 2 ^ 26 at hv
  change v * 4096 < 2 ^ 38
  omega

theorem Mirrors.create (hwf : Wellformed (lo * PGSIZE) s root) (hs : s.mem root = fun _ => 0)
    (hpt : ∀ v, pt.leaf v = none) : Mirrors lo s root pt := by
  refine ⟨hwf, fun v _ => ?_⟩
  rw [RadixMaps.lookup, RadixWalks.find_zero hs, hpt]
  rfl

theorem Mirrors.changed (h : Mirrors lo s root pt) (hwf : Wellformed (lo * PGSIZE) t root) {o : Option Pte}
    (hlookup : ∀ w < MAXVA, RadixMaps.lookup t root w =
      if w / PGSIZE = v * PGSIZE / PGSIZE then o.map binding else RadixMaps.lookup s root w)
    (hleaf : pt'.leaf = update pt.leaf v o) : Mirrors lo t root pt' := by
  refine ⟨hwf, fun w hw => ?_⟩
  rw [hlookup _ (mul_lt_maxva hw), page_mul, page_mul, hleaf, update_apply, h.leaf w hw]
  split <;> rfl

/-- The two calls do the same whenever they agree on whether a table could be allocated. -/
theorem Mirrors.mappages (h : Mirrors lo s root (u.pt q)) (hu : Owned lo L u) (hroot : (u.pt q).root ≠ 0)
    (hv : v < MAXVA / PGSIZE) (hnone : (u.pt q).leaf v = none) (he : e.page < STOPPAGE) :
    Wp (PageTables.mappages q v e) u (fun b u' => ∀ t, Radix.mappages root (v * PGSIZE) PGSIZE (e.page * PGSIZE)
      (perm e) s = .ok (if b then 0 else -1, t) → Mirrors lo t root (u'.pt q)) fun _ => False := by
  have ha := mul_lt_maxva hv
  have hpa : e.page * PGSIZE + PGSIZE ≤ 2 ^ 56 := by
    have : (e.page + 1) * PGSIZE ≤ STOPPAGE * PGSIZE := Nat.mul_le_mul_right _ he
    rw [Nat.succ_mul] at this
    exact Nat.le_trans this (by decide)
  have hone : Radix.mappages root (v * PGSIZE) PGSIZE (e.page * PGSIZE) (perm e) s =
      Radix.mapLoop root (v * PGSIZE) (perm e) 1 (v * PGSIZE) (e.page * PGSIZE) s := by
    rw [Radix.mappages, if_neg (by simp), if_neg (by simp), if_neg (by decide), Nat.add_sub_cancel,
      u64_of_lt (Nat.lt_trans ha (by decide)), Nat.div_self (by decide)]
  rw [hone]
  have hstep := mapLoop_step (v * PGSIZE) 0 h.wellformed ha hpa (perm_lt e)
  refine mappages_cases hu hv hroot hnone (fun u' _ hg t ht => ?_) fun u' _ hg _ _ t ht => ?_
  · rcases hstep with ⟨x, hx, hwf, hsame⟩ | ⟨-, hx⟩ | ⟨x, hx, -⟩
    · cases hx.symm.trans ht
      refine ⟨hwf, fun w hw => ?_⟩
      rw [hsame, hg.leaf, h.leaf w hw]
    · cases hx.symm.trans ht
    · rw [if_pos rfl] at hx
      cases hx.symm.trans ht
  · rcases hstep with ⟨x, hx, -⟩ | ⟨-, hx⟩ | ⟨x, hx, hwf, hadd⟩
    · cases hx.symm.trans ht
    · cases hx.symm.trans ht
    · rw [if_pos rfl] at hx
      cases hx.symm.trans ht
      rw [page_mul e.page] at hadd
      exact h.changed hwf (o := some e) hadd (grown_setLeaf hg v (some e)).2

theorem Mirrors.unmap {doFree : Bool} (h : Mirrors lo s root (u.pt q)) (hu : Shape (u.pt q))
    (hv : v < MAXVA / PGSIZE)
    (hrel : doFree = true → Releasable (lo * PGSIZE) s root (v * PGSIZE) (v * PGSIZE + PGSIZE)) :
    ∃ t, Radix.uvmunmap (lo * PGSIZE) root (v * PGSIZE) 1 doFree s = .ok t ∧
      Wp (PageTables.unmap lo q doFree v) u (fun _ u' => Mirrors lo t root (u'.pt q)) fun _ => False := by
  have ha := mul_lt_maxva hv
  have hstop : v * PGSIZE < v * PGSIZE + PGSIZE := Nat.lt_add_of_pos_right (by decide)
  obtain ⟨t, ht, hwf, hlookup, -⟩ := unmapLoop_step 0 h.wellformed ha hstop (Nat.mul_mod_left v PGSIZE) hrel
  have hone : Radix.uvmunmap (lo * PGSIZE) root (v * PGSIZE) 1 doFree s = .ok t := by
    have hlt : v * PGSIZE + PGSIZE < 2 ^ 64 := Nat.lt_trans (Nat.add_lt_add_right ha _) (by decide)
    rw [Radix.uvmunmap, if_neg (by simp), Nat.one_mul, u64_of_lt hlt, ht]
    exact if_neg (Nat.lt_irrefl _)
  refine ⟨t, hone, ?_⟩
  rw [PageTables.unmap]
  refine wp_lookup hu hv ?_
  cases hleaf : (u.pt q).leaf v with
  | none =>
    refine wp_pure (h.changed hwf (o := none) hlookup ?_)
    rw [← hleaf, update_eq_self]
  | some e =>
    have hdone := h.changed hwf (o := none) hlookup (leaf_withPt_setLeaf u q v none)
    cases doFree with
    | false => exact wp_pure_bind (wp_modify hdone)
    | true =>
      have hheld : Holds s root (v * PGSIZE) (v * PGSIZE + PGSIZE) (v * PGSIZE) (e.page * PGSIZE) :=
        ⟨Nat.le_refl _, hstop, ha, _, (h.leaf v hv).trans (by rw [hleaf]; rfl)⟩
      have hgood := (hrel rfl).good _ _ hheld
      have hfree := kfree_eq u (Nat.le_of_mul_le_mul_right hgood.low (by decide))
        (Nat.lt_of_mul_lt_mul_right (a := PGSIZE) hgood.high)
      exact wp_bind (wp_of_ok hfree (wp_modify hdone))

end AdaptiveXv6.RadixViews
