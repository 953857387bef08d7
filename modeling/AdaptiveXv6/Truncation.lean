import AdaptiveXv6.FileWrites

namespace AdaptiveXv6.Truncation

open Blocks Content Store Holdings Programs BlockMaps Allocation FileWrites Function

variable {sb : Superblock} {x y : Locked} {F : Nat → Bool} {i j k s : Nat}

def remaining (sb : Superblock) (i : Nat) (x : Locked) (F : Nat → Bool) (a : Nat × Nat) : Nat :=
  if a.1 = i ∧ F a.2 = true then 0 else slots sb (fam sb i x) x.disk a

structure Freeing (sb : Superblock) (i : Nat) (x : Locked) (F : Nat → Bool) (y : Locked) : Prop where
  held : Held (dataStart sb) sb.size (remaining sb i x F) (inUse sb y.disk)
  block : ∀ c, dataStart sb ≤ c → y.disk.block c = x.disk.block c
  dinode : ∀ j, j < sb.ninodes → dinode sb y.disk j = dinode sb x.disk j
  free : ∀ b, b < sb.size → inUse sb x.disk b = false → inUse sb y.disk b = false
  logs : Logs x.disk y.disk

namespace Freeing

theorem start (h : Good sb i x) : Freeing sb i x (fun _ => false) x where
  held := by
    have hnone : remaining sb i x (fun _ => false) = slots sb (fam sb i x) x.disk := by
      funext a
      rw [remaining, if_neg (by simp)]
    rw [hnone]
    exact h.valid.held
  block _ _ := rfl
  dinode _ _ := rfl
  free _ _ := id
  logs := Logs.refl x.disk

theorem congr {F' : Nat → Bool} (hy : Freeing sb i x F y) (h : Good sb i x)
    (hF : ∀ s, F s ≠ F' s → ptr x.ip x.disk s = 0) : Freeing sb i x F' y := by
  refine ⟨?_, hy.block, hy.dinode, hy.free, hy.logs⟩
  have hfun : remaining sb i x F' = remaining sb i x F := by
    funext ⟨j, s⟩
    rw [remaining, remaining]
    by_cases hj : j = i
    · subst hj
      by_cases hs : F s = F' s
      · simp only [hs]
      · have hzero : slots sb (fam sb j x) x.disk (j, s) = 0 := by
          rw [slots_eq h.lt h.own_type, fam_self]
          exact hF s hs
        simp only [hzero, ite_self]
    · simp only [hj, false_and]
  rw [hfun]
  exact hy.held

theorem bfree (hl : Layout sb) (hy : Freeing sb i x F y) (h : Good sb i x) (hs : ptr x.ip x.disk s ≠ 0)
    (hF : F s = false) :
    Wp (Content.bfree sb (ptr x.ip x.disk s)) y
      (fun _ z => z.ip = y.ip ∧ Freeing sb i x (update F s true) z) fun _ => False := by
  generalize hb : ptr x.ip x.disk s = b at hs
  have hslot : remaining sb i x F (i, s) = b := by
    rw [remaining, if_neg (by simp [hF]), slots_eq h.lt h.own_type, fam_self, hb]
  have hne : remaining sb i x F (i, s) ≠ 0 := by
    rw [hslot]
    exact hs
  have hused := hy.held.marks (i, s) hne
  have hrange := hy.held.range (i, s) hne
  have hdet := hy.held.detach hne
  rw [hslot] at hused hrange hdet
  have hmap := bblock_lt hrange.2
  rw [Wp, Content.bfree, if_pos hused]
  have hother : ∀ c, c ≠ sb.bblock b →
      (y.disk.logWrite (sb.bblock b) (clearBit (b % BPB) (y.disk.block (sb.bblock b)))).block c = y.disk.block c :=
    fun c hc => block_logWrite_of_ne hc _
  have huse : ∀ c, c < sb.size → inUse sb (y.disk.logWrite (sb.bblock b)
      (clearBit (b % BPB) (y.disk.block (sb.bblock b)))) c = update (inUse sb y.disk) b false c := by
    intro c _
    by_cases hc : sb.bblock c = sb.bblock b
    · rw [inUse, hc, block_logWrite_self, bit_clearBit]
      by_cases hcb : c = b
      · rw [hcb, update_self, decide_eq_true rfl, Bool.not_true, Bool.false_and]
      · rw [update_of_ne hcb, decide_eq_false (fun hm => hcb ((bblock_eq hc).mp hm)), Bool.not_false,
          Bool.true_and, inUse, hc]
    · have hcb : c ≠ b := by
        rintro rfl
        exact hc rfl
      rw [update_of_ne hcb]
      exact inUse_congr (hother _ hc)
  refine ⟨rfl, ?_, ?_, ?_, ?_, hy.logs.logWrite ..⟩
  · refine hdet.congr hl.data ?_ huse
    rintro ⟨j, s'⟩
    by_cases hj : j = i
    · subst hj
      by_cases hss : s' = s
      · rw [hss, update_self, remaining, if_pos ⟨rfl, update_self ..⟩]
      · rw [update_of_ne (fun heq => hss (Prod.mk.inj heq).2), remaining, remaining]
        simp only [update_of_ne hss]
    · rw [update_of_ne (fun heq => hj (Prod.mk.inj heq).1), remaining, remaining]
      simp only [hj, false_and]
  · intro c hc
    exact (hother c (by omega)).trans (hy.block c hc)
  · intro j hj
    have := iblock_lt hl hj
    have := @bmapstart_le sb b
    exact (dinode_congr (hother _ (by omega))).trans (hy.dinode j hj)
  · intro c hc hfree
    rw [huse c hc]
    by_cases hcb : c = b
    · rw [hcb, update_self]
    · rw [update_of_ne hcb]
      exact hy.free c hc hfree

end Freeing

structure Direct (sb : Superblock) (i : Nat) (x : Locked) (k : Nat) (y : Locked) : Prop where
  freeing : Freeing sb i x (fun s => decide (s < k)) y
  ip : ∃ addrs, y.ip = { x.ip with addrs := addrs }
  addr : ∀ k', Inode.addr y.ip k' = if k' < k then 0 else Inode.addr x.ip k'

theorem freeDirect_spec (hl : Layout sb) (h : Good sb i x) (hk : k < NDIRECT) (hy : Direct sb i x k y) :
    Wp (freeDirect sb k) y (fun _ => Direct sb i x (k + 1)) fun _ => False := by
  have hptr : ptr x.ip x.disk k = Inode.addr x.ip k := if_pos (Nat.le_of_lt hk)
  have haddr : Inode.addr y.ip k = Inode.addr x.ip k := by rw [hy.addr, if_neg (Nat.lt_irrefl _)]
  have hsucc : ∀ k', (if k' = k then 0 else Inode.addr y.ip k') = if k' < k + 1 then 0 else Inode.addr x.ip k' := by
    intro k'
    rw [hy.addr]
    by_cases h₁ : k' = k
    · rw [if_pos h₁, if_pos (by omega)]
    · rw [if_neg h₁]
      by_cases h₂ : k' < k
      · rw [if_pos h₂, if_pos (by omega)]
      · rw [if_neg h₂, if_neg (by omega)]
  rw [freeDirect]
  refine wp_get_bind ?_
  rw [haddr]
  by_cases h₀ : Inode.addr x.ip k = 0
  · rw [if_pos h₀]
    refine wp_pure ⟨?_, hy.ip, ?_⟩
    · refine hy.freeing.congr h fun s hs => ?_
      obtain rfl : s = k := by
        by_contra hne
        refine hs (decide_eq_decide.mpr ?_)
        omega
      rw [hptr, h₀]
    · intro k'
      rw [← hsucc]
      split
      · rename_i hkk
        rw [hkk, haddr, h₀]
      · rfl
  · rw [if_neg h₀, ← hptr]
    refine (hy.freeing.bfree hl h (by rw [hptr]; exact h₀) (by simp)).bind ?_
    rintro _ z ⟨hip, hz⟩
    obtain ⟨addrs, ha⟩ := hy.ip
    have hF : update (fun s => decide (s < k)) k true = fun s => decide (s < k + 1) := by
      funext s
      by_cases hs : s = k
      · rw [hs, update_self]
        simp
      · rw [update_of_ne hs, decide_eq_decide]
        omega
    rw [hF] at hz
    refine wp_modify ⟨⟨hz.held, hz.block, hz.dinode, hz.free, hz.logs⟩, ?_, ?_⟩
    · rw [hip, ha]
      exact ⟨_, rfl⟩
    · intro k'
      rw [← hsucc, hip]
      by_cases hkk : k' = k
      · rw [if_pos hkk, hkk, addr_setAddr_self (Nat.le_of_lt hk) (by decide)]
      · rw [if_neg hkk, addr_setAddr_of_ne 0 hkk]

def goneBelow (j : Nat) (s : Nat) : Bool := decide (s < NDIRECT ∨ NDIRECT < s ∧ s < NDIRECT + 1 + j)

structure Indirect (sb : Superblock) (i : Nat) (x w : Locked) (j : Nat) (y : Locked) : Prop where
  freeing : Freeing sb i x (goneBelow j) y
  ip : y.ip = w.ip

theorem freeIndirect_spec {w : Locked} (hl : Layout sb) (h : Good sb i x) (ha : Inode.addr x.ip NDIRECT ≠ 0)
    (hj : j < NINDIRECT) (hy : Indirect sb i x w j y) :
    Wp (freeIndirect sb (Inode.addr x.ip NDIRECT) j) y (fun _ => Indirect sb i x w (j + 1)) fun _ => False := by
  have hrange := h.range (s := NDIRECT) (by rw [ptr_indirect]; exact ha)
  rw [ptr_indirect] at hrange
  have hptr := ptr_entry x.ip x.disk hj ha
  have hF : ∀ s, goneBelow j s ≠ goneBelow (j + 1) s → s = NDIRECT + 1 + j := by
    intro s hs
    by_contra hne
    refine hs (decide_eq_decide.mpr ?_)
    omega
  rw [freeIndirect]
  refine wp_get_bind ?_
  rw [hy.freeing.block _ hrange.1, ← hptr]
  dsimp only
  refine wp_ite (fun h₀ => ?_) fun h₀ => ?_
  · refine wp_pure ⟨hy.freeing.congr h fun s hs => ?_, hy.ip⟩
    rw [hF s hs, h₀]
  · have hnot : goneBelow j (NDIRECT + 1 + j) = false := by
      refine decide_eq_false ?_
      omega
    refine (hy.freeing.bfree hl h h₀ hnot).imp ?_
    rintro _ z ⟨hip, hz⟩
    refine ⟨hz.congr h fun s hs => ?_, hip.trans hy.ip⟩
    by_cases hsj : s = NDIRECT + 1 + j
    · refine absurd ?_ hs
      rw [hsj, update_self]
      exact (decide_eq_true (by omega)).symm
    · rw [update_of_ne hsj] at hs
      exact absurd (hF s hs) hsj

structure Truncated (sb : Superblock) (i : Nat) (x z : Locked) : Prop where
  good : Good sb i z
  synced : dinode sb z.disk i = z.ip
  ip : z.ip = { x.ip with addrs := fun _ => 0, size := 0 }
  others : ∀ j, j < sb.ninodes → j ≠ i → Same sb x.disk z.disk j
  free : ∀ b, b < sb.size → inUse sb x.disk b = false → inUse sb z.disk b = false
  logs : Logs x.disk z.disk

theorem addrs_eq_zero {z : Inode} (h : ∀ k, k ≤ NDIRECT → Inode.addr z k = 0) : z.addrs = fun _ => 0 := by
  funext j
  have hj := h j.val (Nat.le_of_lt_succ j.isLt)
  rw [Inode.addr, dif_pos j.isLt] at hj
  exact BitVec.eq_of_toNat_eq hj

theorem ptr_bare {z : Inode} (h : z.addrs = fun _ => 0) (d : Store) (s : Nat) : ptr z d s = 0 := by
  have hk : ∀ k, Inode.addr z k = 0 := by
    intro k
    rw [Inode.addr, h]
    split <;> rfl
  rw [ptr]
  split
  · exact hk s
  · rw [if_neg (fun hs => hs.2 (hk _))]

theorem truncated (hl : Layout sb) (h : Good sb i x) (hy : Freeing sb i x F y)
    (hF : ∀ s, F s = false → ptr x.ip x.disk s = 0) (hip : ∃ addrs, y.ip = { x.ip with addrs := addrs })
    (haddr : ∀ k, k ≤ NDIRECT → Inode.addr y.ip k = 0) :
    Wp (do
      modify fun x => { x with ip := { x.ip with size := 0 } }
      iupdate sb i) y (fun _ => Truncated sb i x) fun _ => False := by
  have haddrs := addrs_eq_zero haddr
  obtain ⟨addrs, hfields⟩ := hip
  generalize hz : ({ y.ip with size := 0 } : Inode) = z
  have hzip : z = { x.ip with addrs := fun _ => 0, size := 0 } := by
    rw [hfields] at haddrs
    have haddrs' : addrs = fun _ => 0 := haddrs
    rw [← hz, hfields, haddrs']
  have hptr := ptr_bare (z := z) (by rw [← hz]; exact haddrs) y.disk
  have htype : z.type ≠ 0 := by
    rw [hzip]
    exact h.type
  have hsame : ∀ j, j < sb.ninodes → j ≠ i → Same sb x.disk y.disk j := by
    intro j hj hji
    exact h.same (y := ⟨z, y.disk⟩) (fun j hj _ => hy.dinode j hj) (fun c hc _ _ => hy.block c hc) hj hji
  have hgood : Good sb i ⟨z, y.disk⟩ := by
    refine h.of_same htype hsame (hy.held.congr hl.data ?_ fun _ _ => rfl) ?_
    · rintro ⟨j, s⟩
      rw [h.slots_eq_of_same (y := ⟨z, y.disk⟩) htype hsame, remaining]
      by_cases hj : j = i
      · subst hj
        rw [if_pos rfl, hptr]
        split
        · rfl
        · rename_i hs
          have hFs : F s = false := by
            cases hs' : F s with
            | false => rfl
            | true => exact absurd ⟨rfl, hs'⟩ hs
          rw [slots_eq h.lt h.own_type, fam_self, hF s hFs]
      · rw [if_neg hj, if_neg (fun ha => hj ha.1)]
    · intro bn hbn
      rw [hzip] at hbn
      exact absurd hbn (Nat.not_lt_zero _)
  obtain ⟨hstored, -, hsame', huse⟩ := storeInode hl hgood htype rfl fun bn hbn => hgood.filled hbn
  refine wp_modify_bind ?_
  rw [hz]
  refine wp_of_ok rfl ⟨hstored, dinode_setDinode_self .., hzip, ?_, ?_, hy.logs.logWrite ..⟩
  · exact fun j hj hji => (hsame j hj hji).trans (hsame' j hj hji)
  · intro b hb hfree
    rw [huse b hb]
    exact hy.free b hb hfree

theorem itrunc_spec (hl : Layout sb) (h : Good sb i x) :
    Wp (itrunc sb i) x (fun _ => Truncated sb i x) fun _ => False := by
  have hstart : Direct sb i x 0 x := by
    refine ⟨(Freeing.start h).congr h fun s hs => ?_, ⟨x.ip.addrs, rfl⟩, fun k' => ?_⟩
    · exact absurd (decide_eq_false (Nat.not_lt_zero s)).symm hs
    · rw [if_neg (Nat.not_lt_zero _)]
  have hdirect := each_range (I := Direct sb i x) (n := NDIRECT) (s := x) (E := fun _ => False)
    (fun k s hk hs => freeDirect_spec hl h hk hs) hstart
  rw [itrunc]
  refine hdirect.bind fun _ y hy => ?_
  have hind : Inode.addr y.ip NDIRECT = Inode.addr x.ip NDIRECT := by rw [hy.addr, if_neg (Nat.lt_irrefl _)]
  refine wp_get_bind ?_
  rw [hind]
  refine wp_ite (fun h₀ => ?_) fun h₀ => ?_
  · refine wp_pure_bind (truncated hl h hy.freeing ?_ hy.ip ?_)
    · intro s hs
      have hs' : ¬s < NDIRECT := of_decide_eq_false hs
      by_cases hsd : s = NDIRECT
      · rw [hsd, ptr_indirect, h₀]
      · rw [ptr, if_neg (by omega), if_neg (fun ha => ha.2 h₀)]
    · intro k hk
      rw [hy.addr]
      split
      · rfl
      · rename_i hlt
        obtain rfl : k = NDIRECT := by omega
        exact h₀
  · have hentries := each_range (I := Indirect sb i x y) (n := NINDIRECT) (s := y) (E := fun _ => False)
      (fun k s hk hs => freeIndirect_spec hl h h₀ hk hs)
      ⟨hy.freeing.congr h fun s hs => absurd (decide_eq_decide.mpr (by omega)) hs, rfl⟩
    refine hentries.bind fun _ z hz => ?_
    have hnot : goneBelow NINDIRECT NDIRECT = false := decide_eq_false (by omega)
    have hfree := hz.freeing.bfree hl h (s := NDIRECT) (by rw [ptr_indirect]; exact h₀) hnot
    rw [ptr_indirect] at hfree
    refine hfree.bind ?_
    rintro _ w ⟨hip, hw⟩
    refine wp_modify_bind (truncated (F := update (goneBelow NINDIRECT) NDIRECT true) hl h
      ⟨hw.held, hw.block, hw.dinode, hw.free, hw.logs⟩ ?_ ?_ ?_)
    · intro s hs
      have hsd : s ≠ NDIRECT := by
        rintro rfl
        rw [update_self] at hs
        cases hs
      rw [update_of_ne hsd] at hs
      have hs' := of_decide_eq_false hs
      have hbig : MAXFILE < s := by
        simp only [MAXFILE]
        omega
      rw [ptr, if_neg (by omega), if_neg (by omega)]
    · obtain ⟨addrs, ha⟩ := hy.ip
      rw [hip, hz.ip, ha]
      exact ⟨_, rfl⟩
    · intro k hk
      by_cases hkd : k = NDIRECT
      · rw [hkd, addr_setAddr_self (Nat.le_refl _) (by decide)]
      · rw [addr_setAddr_of_ne 0 hkd, hip, hz.ip, hy.addr, if_pos (by omega)]

theorem setDinode_bare {d : Store} {z : Inode} (hl : Layout sb) (h : Valid sb (dinode sb d) d) (hi : i < sb.ninodes)
    (hbare : ∀ s, slots sb (dinode sb d) d (i, s) = 0) (haddrs : z.addrs = fun _ => 0) (hsize : z.size = 0) :
    Valid sb (dinode sb (setDinode sb d i z)) (setDinode sb d i z) ∧
      (∀ j, j < sb.ninodes → j ≠ i → Same sb d (setDinode sb d i z) j) ∧
      ∀ b, b < sb.size → inUse sb (setDinode sb d i z) b = inUse sb d b := by
  have hlow := iblock_lt hl hi
  have hlow' := iblock_lt_dataStart hl hi
  generalize hd : setDinode sb d i z = d'
  have hself : dinode sb d' i = z := by
    rw [← hd, dinode_setDinode_self]
  have hdinode : ∀ j, j ≠ i → dinode sb d' j = dinode sb d j := by
    intro j hj
    rw [← hd, dinode_setDinode_of_ne hj]
  have hother : ∀ c, c ≠ sb.iblock i → d'.block c = d.block c := by
    intro c hc
    rw [← hd]
    exact block_logWrite_of_ne hc _
  have huse : ∀ b, b < sb.size → inUse sb d' b = inUse sb d b := by
    intro b _
    have := @bmapstart_le sb b
    exact inUse_congr (hother _ (by omega))
  have hsame : ∀ j, j < sb.ninodes → j ≠ i → Same sb d d' j := by
    intro j hj hji
    have hkept : (dinode sb d j).type ≠ 0 → ∀ s, ptr (dinode sb d j) d s ≠ 0 →
        d'.block (ptr (dinode sb d j) d s) = d.block (ptr (dinode sb d j) d s) := by
      intro ht s hs
      have := (h.range hj ht hs).1
      exact hother _ (by omega)
    have hptr : (dinode sb d j).type ≠ 0 → ∀ s, ptr (dinode sb d j) d' s = ptr (dinode sb d j) d s := by
      intro ht
      refine ptr_congr (fun _ _ => rfl) ?_
      have hind := hkept ht NDIRECT
      rw [ptr_indirect] at hind
      exact hind
    exact ⟨hdinode j hji, hptr, fun ht => content_congr (fun s _ => hptr ht s) fun s _ => hkept ht s⟩
  refine ⟨⟨h.held.congr hl.data ?_ huse, ?_⟩, hsame, huse⟩
  · rintro ⟨j, s⟩
    by_cases hji : j = i
    · subst hji
      rw [hbare, slots]
      dsimp only
      rw [hself, ptr_bare haddrs, ite_self]
    · rw [slots, slots]
      dsimp only
      by_cases hj : j < sb.ninodes
      · rw [hdinode j hji]
        by_cases ht : (dinode sb d j).type = 0
        · rw [if_neg (fun ha => ha.2 ht), if_neg (fun ha => ha.2 ht)]
        · rw [if_pos ⟨hj, ht⟩, if_pos ⟨hj, ht⟩, (hsame j hj hji).ptr ht]
      · rw [if_neg (fun ha => hj ha.1), if_neg (fun ha => hj ha.1)]
  · intro j hj ht bn hbn
    by_cases hji : j = i
    · subst hji
      rw [hself, hsize] at hbn
      exact absurd hbn (Nat.not_lt_zero _)
    · rw [hdinode j hji] at ht hbn ⊢
      rw [blockAt, (hsame j hj hji).ptr ht]
      exact h.filled j hj ht bn hbn

end AdaptiveXv6.Truncation
