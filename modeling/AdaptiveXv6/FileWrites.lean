import Mathlib.Order.MinMax
import AdaptiveXv6.Allocation

namespace AdaptiveXv6.FileWrites

open MemLayout Bytes Blocks CopyOut Words Content Store Programs BlockMaps Allocation Function

variable {sb : Superblock} {x y : Locked} {b i j k m n off src : Nat}

section Copying

variable {source : Source}

def Source.Readable : Source → Nat → Nat → Prop
  | .kernel _, _, _ => True
  | .user readable _, src, len => ∀ a, src ≤ a → a < src + len → readable (a / PGSIZE * PGSIZE) = true

theorem eitherCopyin_spec (source : Source) (src m : Nat) :
    Source.Readable source src (eitherCopyin source src m).1 ∧
    ((eitherCopyin source src m).2 = true → (eitherCopyin source src m).1 = m) ∧
    ((eitherCopyin source src m).2 = false → (eitherCopyin source src m).1 < m ∧
      ¬Source.Readable source (src + (eitherCopyin source src m).1) 1) := by
  cases source with
  | kernel _ => exact ⟨trivial, fun _ => rfl, nofun⟩
  | user readable _ =>
    obtain ⟨hread, hok, hfail⟩ := @copyLoop_spec readable m src m (Nat.le_refl m)
    refine ⟨hread, hok, fun h => ⟨(hfail h).1, fun hr => ?_⟩⟩
    exact Bool.noConfusion ((hr _ (Nat.le_refl _) (Nat.lt_succ_self _)).symm.trans (hfail h).2)

theorem eitherCopyin_le (source : Source) (src m : Nat) : (eitherCopyin source src m).1 ≤ m := by
  obtain ⟨-, hok, hfail⟩ := eitherCopyin_spec source src m
  cases h : (eitherCopyin source src m).2 with
  | true => exact Nat.le_of_eq (hok h)
  | false => exact Nat.le_of_lt (hfail h).1

theorem readable_zero (source : Source) (src : Nat) : Source.Readable source src 0 := by
  cases source with
  | kernel _ => trivial
  | user readable mem => exact fun a ha ha' => absurd ha' (Nat.not_lt.mpr ha)

theorem Source.Readable.sub {a len : Nat} (h : Source.Readable source src len) (ha : src ≤ a)
    (hlen : a + n ≤ src + len) : Source.Readable source a n := by
  cases source with
  | kernel _ => trivial
  | user readable mem => exact fun c hc hc' => h c (by omega) (by omega)

theorem Source.Readable.append (h : Source.Readable source src m) (h' : Source.Readable source (src + m) n) :
    Source.Readable source src (m + n) := by
  cases source with
  | kernel _ => trivial
  | user readable mem =>
    intro a ha ha'
    by_cases hin : a < src + m
    · exact h a ha hin
    · exact h' a (by omega) (by omega)

theorem eitherCopyin_of_readable (h : Source.Readable source src m) : (eitherCopyin source src m).2 = true := by
  by_contra hne
  obtain ⟨hlt, hbad⟩ := (eitherCopyin_spec source src m).2.2 (Bool.eq_false_iff.mpr hne)
  exact hbad (h.sub (Nat.le_add_right ..) (by omega))

end Copying

section Writing

variable {source : Source}

theorem overwrite {bn : Nat} {v : Block} (hl : Layout sb) (h : Good sb i x) (hbn : blockAt x.ip x.disk bn ≠ 0)
    (hip : y.ip = x.ip) (hd : y.disk.block = update x.disk.block (blockAt x.ip x.disk bn) v) :
    Good sb i y ∧ Grows sb i x y ∧ (∀ b, b < sb.size → inUse sb y.disk b = inUse sb x.disk b) ∧
      ∀ k, content y.ip y.disk k = if k / BSIZE = bn then v (k % BSIZE) else content x.ip x.disk k := by
  have hrange := h.range hbn
  have hother : ∀ c, c ≠ blockAt x.ip x.disk bn → y.disk.block c = x.disk.block c := by
    intro c hc
    rw [hd, update_of_ne hc]
  have hdinode : ∀ j, j < sb.ninodes → dinode sb y.disk j = dinode sb x.disk j := by
    intro j hj
    have := iblock_lt_dataStart hl hj
    exact dinode_congr (hother _ (by rw [blockAt]; omega))
  have huse : ∀ b, b < sb.size → inUse sb y.disk b = inUse sb x.disk b := by
    intro b hb
    have := bblock_lt hb
    exact inUse_congr (hother _ (by rw [blockAt]; omega))
  have hptr : ∀ s, ptr y.ip y.disk s = ptr x.ip x.disk s := by
    rw [hip]
    refine ptr_congr (fun _ _ => rfl) fun _ => hother _ ?_
    exact (h.blockAt_ne hbn).symm
  have hsame : ∀ j, j < sb.ninodes → j ≠ i → Same sb x.disk y.disk j := by
    intro j hj hji
    refine h.same (fun j hj _ => hdinode j hj) ?_ hj hji
    exact fun c _ _ hown => hother c (hown (slotOf bn)).symm
  refine ⟨?_, ⟨⟨x.ip.addrs, hip⟩, fun bn' _ => hptr _, hdinode i h.lt, hsame⟩, huse, ?_⟩
  · refine h.of_same (by rw [hip]; exact h.type) hsame (h.valid.held.congr hl.data ?_ huse) ?_
    · intro a
      rw [h.slots_eq_of_same (by rw [hip]; exact h.type) hsame]
      split
      · rename_i ha
        obtain ⟨j, s⟩ := a
        obtain rfl : j = i := ha
        rw [hptr, slots_eq h.lt h.own_type, fam_self]
      · rfl
    · intro bn' hbn'
      rw [hip] at hbn'
      rw [blockAt, hptr]
      exact h.filled hbn'
  · intro k
    rw [content, blockAt, hptr]
    by_cases hk : k / BSIZE = bn
    · have hbn' : ptr x.ip x.disk (slotOf bn) ≠ 0 := hbn
      rw [if_pos hk, hk, if_neg hbn', hd]
      exact congrFun (update_self ..) _
    · rw [if_neg hk, content, blockAt]
      split
      · rfl
      · rename_i hne
        rw [hother]
        intro heq
        exact hk (slotOf_inj (h.inj hne heq))

structure ChunkDone (sb : Superblock) (i : Nat) (source : Source) (m off src : Nat) (x : Locked) (ok : Bool)
    (y : Locked) : Prop where
  good : Good sb i y
  grows : Grows sb i x y
  done : ok = true → (eitherCopyin source src m).2 = true ∧ blockAt y.ip y.disk (off / BSIZE) ≠ 0
  failed : ok = false → Full sb y.disk ∧ content y.ip y.disk = content x.ip x.disk ∧
    blockAt x.ip x.disk (off / BSIZE) = 0 ∨ (eitherCopyin source src m).2 = false
  content : ∃ c, (c = (eitherCopyin source src m).1 ∨ c = 0 ∧ blockAt x.ip x.disk (off / BSIZE) = 0) ∧
    (ok = true → c = m) ∧ ∀ k, content y.ip y.disk k = if off ≤ k ∧ k < off + c then source.mem (src + (k - off)) else
      BlockMaps.content x.ip x.disk k
  hit : blockAt x.ip x.disk (off / BSIZE) ≠ 0 → ∀ b, b < sb.size → inUse sb y.disk b = inUse sb x.disk b
  room : ∀ n, Room sb x.disk (n + 2) → Room sb y.disk n

theorem writeChunk_spec (hl : Layout sb) (h : Good sb i x) (hoff : off / BSIZE < MAXFILE)
    (hm : m ≤ BSIZE - off % BSIZE) :
    Wp (writeChunk sb source m off src) x (ChunkDone sb i source m off src x) fun _ => False := by
  rw [writeChunk]
  refine (bmap_spec hl h hoff).bind fun a y hy => ?_
  refine wp_ite (fun ha => ?_) fun ha => ?_
  · have hmiss : blockAt x.ip x.disk (off / BSIZE) = 0 := by
      by_contra hne
      have hfound := hy.found
      rw [hy.hit hne] at hfound
      exact hne (hfound.symm.trans ha)
    refine wp_pure ⟨hy.good, hy.grows, by simp, fun _ => .inl ⟨hy.full ha, hy.content, hmiss⟩, ?_, ?_, hy.room⟩
    · refine ⟨0, .inr ⟨rfl, hmiss⟩, by simp, fun k => ?_⟩
      rw [if_neg (by omega), hy.content]
    · intro hhit b _
      rw [hy.hit hhit]
  · have hfound : a = blockAt y.ip y.disk (off / BSIZE) := hy.found
    subst hfound
    refine wp_get_bind ?_
    generalize hr : eitherCopyin source src m = r
    have hle : r.1 ≤ m := hr ▸ eitherCopyin_le source src m
    -- both ends of the turn store the same block
    have hstored : ∀ z : Locked, z.ip = y.ip → z.disk.block = update y.disk.block
        (blockAt y.ip y.disk (off / BSIZE))
        (fill source.mem src (off % BSIZE) r.1 (y.disk.block (blockAt y.ip y.disk (off / BSIZE)))) → ∀ ok : Bool,
        ok = r.2 → ChunkDone sb i source m off src x ok z := by
      intro z hzip hz ok hok
      obtain ⟨hg, hgrow, huse, hcont⟩ := overwrite hl hy.good ha hzip hz
      refine ⟨hg, hy.grows.trans hgrow, ?_, ?_, ⟨r.1, .inl (by rw [hr]), ?_, ?_⟩, ?_, ?_⟩
      · rintro rfl
        rw [hr]
        exact ⟨hok.symm, hgrow.blockAt_ne ha⟩
      · rintro rfl
        rw [hr]
        exact .inr hok.symm
      · rintro rfl
        rw [← hr]
        exact (eitherCopyin_spec source src m).2.1 (by rw [hr]; exact hok.symm)
      · intro k
        rw [hcont, fill, hy.content]
        have hdm := Nat.div_add_mod k BSIZE
        have hdm' := Nat.div_add_mod off BSIZE
        have hmod : k % BSIZE < BSIZE := Nat.mod_lt _ (by decide)
        by_cases hk : k / BSIZE = off / BSIZE
        · rw [if_pos hk]
          rw [hk] at hdm
          by_cases hin : off % BSIZE ≤ k % BSIZE ∧ k % BSIZE < off % BSIZE + r.1
          · rw [if_pos hin, if_pos (by omega), show k % BSIZE - off % BSIZE = k - off by omega]
          · rw [if_neg hin, if_neg (by omega), ← hy.content, content, hk, if_neg ha]
        · rw [if_neg hk, if_neg]
          rintro ⟨hlo, hhi⟩
          refine hk ?_
          simp only [BSIZE] at *
          omega
      · intro hhit b hb
        rw [huse b hb, hy.hit hhit]
      · intro n hn
        exact (hy.room n hn).congr fun b hb hfree => by rw [huse b hb]; exact hfree
    dsimp only
    refine wp_ite (fun hr₂ => ?_) fun hr₂ => ?_
    · refine wp_modify_bind (wp_pure ?_)
      exact hstored ⟨y.ip, y.disk.logWrite _ _⟩ rfl rfl true hr₂.symm
    · refine wp_modify_bind (wp_pure ?_)
      exact hstored ⟨y.ip, y.disk.dirty _ _⟩ rfl rfl false (Bool.eq_false_iff.mpr hr₂).symm

def chunk (n off tot : Nat) : Nat := min (n - tot) (BSIZE - (off + tot) % BSIZE)

/-- What a call has copied when it ends after r bytes: it stops at the start of a block, for want of one or in the
middle of a copy that fails. -/
structure Copied (sb : Superblock) (source : Source) (src off n : Nat) (x : Locked) (r : Nat) (y : Locked) :
    Prop where
  le : r ≤ n
  read : Source.Readable source src r
  aligned : r < n → r = 0 ∨ (off + r) % BSIZE = 0
  content : ∃ c, (c = 0 ∧ (r < n → blockAt x.ip x.disk ((off + r) / BSIZE) = 0) ∨
      (eitherCopyin source (src + r) (chunk n off r)).2 = false ∧
        c = (eitherCopyin source (src + r) (chunk n off r)).1) ∧
    ∀ k, content y.ip y.disk k = if off ≤ k ∧ k < off + r + c then source.mem (src + (k - off)) else
      BlockMaps.content x.ip x.disk k
  short : r < n → Full sb y.disk ∨ (eitherCopyin source (src + r) (chunk n off r)).2 = false

structure Written (sb : Superblock) (i : Nat) (source : Source) (src off n : Nat) (x : Locked) (r : Nat)
    (y : Locked) : Prop extends Copied sb source src off n x r y where
  good : Good sb i y
  grows : Grows sb i x y
  filled : ∀ k, off ≤ k → k < off + r → blockAt y.ip y.disk (k / BSIZE) ≠ 0

/-- The invariant of the loop: what was written so far, from the offset of the call. -/
theorem writeLoop_spec (source : Source) (src : Nat) (hl : Layout sb) {turns tot : Nat} (hturns : n - tot ≤ turns)
    (hmax : off + n ≤ MAXFILE * BSIZE) (h : Good sb i y) (hgrows : Grows sb i x y) (hle : tot ≤ n)
    (hread : Source.Readable source src tot) (halign : tot < n → tot = 0 ∨ (off + tot) % BSIZE = 0)
    (hfilled : ∀ k, off ≤ k → k < off + tot → blockAt y.ip y.disk (k / BSIZE) ≠ 0)
    (hcontent : ∀ k, content y.ip y.disk k = if off ≤ k ∧ k < off + tot then source.mem (src + (k - off)) else
      content x.ip x.disk k) :
    Wp (writeLoop sb source n turns tot (off + tot) (src + tot)) y (Written sb i source src off n x)
      fun _ => False := by
  induction turns generalizing y tot with
  | zero =>
    obtain rfl : tot = n := by omega
    have hirrefl : ¬tot < tot := Nat.lt_irrefl tot
    exact wp_pure ⟨⟨hle, hread, halign, ⟨0, .inl ⟨rfl, fun hlt => absurd hlt hirrefl⟩, hcontent⟩,
      fun hlt => absurd hlt hirrefl⟩, h, hgrows, hfilled⟩
  | succ turns ih =>
    rw [writeLoop]
    refine wp_ite (fun hlt => ?_) fun hlt => ?_
    · have hmod : (off + tot) % BSIZE < BSIZE := Nat.mod_lt _ (by decide)
      have hbn : (off + tot) / BSIZE < MAXFILE := by
        refine (Nat.div_lt_iff_lt_mul (by decide)).mpr ?_
        omega
      change Wp (writeChunk sb source (chunk n off tot) (off + tot) (src + tot) >>= fun goesOn =>
        if goesOn then writeLoop sb source n turns (tot + chunk n off tot) (off + tot + chunk n off tot)
          (src + tot + chunk n off tot) else pure tot) y _ _
      have hchunk : 0 < chunk n off tot ∧ chunk n off tot ≤ n - tot ∧
          chunk n off tot ≤ BSIZE - (off + tot) % BSIZE := by
        rw [chunk]
        omega
      refine (writeChunk_spec hl h hbn hchunk.2.2).bind fun ok z hz => ?_
      obtain ⟨c, hc, hcok, hcont⟩ := hz.content
      -- the bytes of this turn follow those before it
      have hbytes : ∀ k, content z.ip z.disk k = if off ≤ k ∧ k < off + tot + c then source.mem (src + (k - off)) else
          content x.ip x.disk k := by
        intro k
        rw [hcont, hcontent]
        by_cases h₁ : off + tot ≤ k ∧ k < off + tot + c
        · rw [if_pos h₁, if_pos (by omega), show src + tot + (k - (off + tot)) = src + (k - off) by omega]
        · rw [if_neg h₁]
          by_cases h₂ : off ≤ k ∧ k < off + tot
          · rw [if_pos h₂, if_pos (by omega)]
          · rw [if_neg h₂, if_neg (by omega)]
      cases ok with
      | false =>
        have hmiss : blockAt y.ip y.disk ((off + tot) / BSIZE) = 0 →
            blockAt x.ip x.disk ((off + tot) / BSIZE) = 0 := fun hy => by_contra fun hx => hgrows.blockAt_ne hx hy
        refine wp_pure ⟨⟨hle, hread, halign, ?_, fun _ => (hz.failed rfl).imp_left And.left⟩, hz.good,
          hgrows.trans hz.grows, fun k hk hk' => hz.grows.blockAt_ne (hfilled k hk hk')⟩
        rcases hc with hc | ⟨rfl, hnone⟩
        · rcases hz.failed rfl with ⟨-, hsame, hnone⟩ | hfail
          · exact ⟨0, .inl ⟨rfl, fun _ => hmiss hnone⟩, by rw [hsame]; exact hcontent⟩
          · exact ⟨c, .inr ⟨hfail, hc⟩, hbytes⟩
        · exact ⟨0, .inl ⟨rfl, fun _ => hmiss hnone⟩, hbytes⟩
      | true =>
        rw [if_pos rfl, Nat.add_assoc off, Nat.add_assoc src]
        have hcm := hcok rfl
        have hcopied := eitherCopyin_spec source (src + tot) (chunk n off tot)
        rw [hcopied.2.1 (hz.done rfl).1] at hcopied
        refine ih (by omega) hz.good (hgrows.trans hz.grows) (by omega) (hread.append hcopied.1) (fun hlt => .inr ?_)
          ?_ ?_
        · rw [chunk] at hlt ⊢
          simp only [BSIZE] at *
          omega
        · intro k hk hk'
          by_cases hold : k < off + tot
          · exact hz.grows.blockAt_ne (hfilled k hk hold)
          · have hsame : k / BSIZE = (off + tot) / BSIZE := by
              simp only [BSIZE] at *
              omega
            rw [hsame]
            exact (hz.done rfl).2
        · intro k
          rw [hbytes, hcm, ← Nat.add_assoc]
    · obtain rfl : tot = n := by omega
      exact wp_pure ⟨⟨hle, hread, halign, ⟨0, .inl ⟨rfl, fun h => absurd h hlt⟩, hcontent⟩,
        fun h => absurd h hlt⟩, h, hgrows, hfilled⟩

theorem storeInode {z : Inode} (hl : Layout sb) (h : Good sb i x) (hz : z.type ≠ 0) (haddrs : z.addrs = x.ip.addrs)
    (hfilled : ∀ bn, bn * BSIZE < z.size.toNat → blockAt x.ip x.disk bn ≠ 0) :
    Good sb i ⟨z, setDinode sb x.disk i z⟩ ∧ content z (setDinode sb x.disk i z) = content x.ip x.disk ∧
      (∀ j, j < sb.ninodes → j ≠ i → Same sb x.disk (setDinode sb x.disk i z) j) ∧
      ∀ b, b < sb.size → inUse sb (setDinode sb x.disk i z) b = inUse sb x.disk b := by
  have hother : ∀ c, c ≠ sb.iblock i → (setDinode sb x.disk i z).block c = x.disk.block c :=
    fun c hc => block_logWrite_of_ne hc _
  have hlow := iblock_lt hl h.lt
  have hlow' := iblock_lt_dataStart hl h.lt
  have haddr : ∀ k, Inode.addr z k = Inode.addr x.ip k := by
    intro k
    rw [Inode.addr, Inode.addr, haddrs]
  have hptr : ∀ s, ptr z (setDinode sb x.disk i z) s = ptr x.ip x.disk s := by
    refine ptr_congr (fun k _ => haddr k) fun hne => hother _ ?_
    have := (h.range (s := NDIRECT) (by rw [ptr_indirect]; exact hne)).1
    rw [ptr_indirect] at this
    omega
  have huse : ∀ b, b < sb.size → inUse sb (setDinode sb x.disk i z) b = inUse sb x.disk b := by
    intro b _
    have := @bmapstart_le sb b
    exact inUse_congr (hother _ (by omega))
  have hsame : ∀ j, j < sb.ninodes → j ≠ i → Same sb x.disk (setDinode sb x.disk i z) j := by
    intro j hj hji
    refine h.same (y := ⟨z, setDinode sb x.disk i z⟩) (fun j _ hji => dinode_setDinode_of_ne hji z) ?_ hj hji
    exact fun c hc _ _ => hother c (by omega)
  refine ⟨?_, ?_, hsame, huse⟩
  · refine h.of_same hz hsame (h.valid.held.congr hl.data ?_ huse) ?_
    · intro a
      rw [h.slots_eq_of_same hz hsame]
      split
      · rename_i ha
        obtain ⟨j, s⟩ := a
        obtain rfl : j = i := ha
        rw [hptr, slots_eq h.lt h.own_type, fam_self]
      · rfl
    · intro bn hbn
      rw [blockAt, hptr]
      exact hfilled bn hbn
  · refine content_congr (fun s _ => hptr s) fun s _ hs => hother _ ?_
    have := (h.range hs).1
    omega

structure WriteDone (sb : Superblock) (i : Nat) (source : Source) (src off n : Nat) (x : Locked) (r : Nat)
    (z : Locked) : Prop extends Copied sb source src off n x r z where
  good : Good sb i z
  synced : dinode sb z.disk i = z.ip
  ip : ∃ addrs size, z.ip = { x.ip with addrs := addrs, size := size }
  size : z.ip.size.toNat = max x.ip.size.toNat (off + r)
  others : ∀ j, j < sb.ninodes → j ≠ i → Same sb x.disk z.disk j

theorem MAXFILE_lt : MAXFILE * BSIZE < 2 ^ 31 := by decide

theorem writeDone {r : Nat} (hl : Layout sb) (hoff : off ≤ x.ip.size.toNat) (hmax : off + n ≤ MAXFILE * BSIZE)
    (hy : Written sb i source src off n x r y) :
    Wp (do
      modify fun x => if off + r > x.ip.size.toNat then
        { x with ip := { x.ip with size := BitVec.ofNat 32 (off + r) } } else x
      iupdate sb i
      pure (r : Int)) y
      (fun a z => a = r ∧ WriteDone sb i source src off n x r z ∧ ∀ b, b < sb.size → inUse sb z.disk b = inUse sb y.disk b)
      fun _ => False := by
  have hsize := hy.grows.size
  have hlt := MAXFILE_lt
  have hle := hy.le
  obtain ⟨addrs, hip⟩ := hy.grows.ip
  generalize hz : (if off + r > y.ip.size.toNat then { y.ip with size := BitVec.ofNat 32 (off + r) } else y.ip) = z
  have hzsize : z.size.toNat = max x.ip.size.toNat (off + r) := by
    rw [← hz, hsize]
    split
    · change (BitVec.ofNat 32 (off + r)).toNat = _
      rw [BitVec.toNat_ofNat, Nat.mod_eq_of_lt (by omega)]
      omega
    · rw [hsize]
      omega
  have hzfields : ∃ size, z = { y.ip with size := size } := by
    rw [← hz]
    split
    · exact ⟨_, rfl⟩
    · exact ⟨_, rfl⟩
  obtain ⟨size, hzf⟩ := hzfields
  have hfilled : ∀ bn, bn * BSIZE < z.size.toNat → blockAt y.ip y.disk bn ≠ 0 := by
    intro bn hbn
    rw [hzsize] at hbn
    by_cases hold : bn * BSIZE < x.ip.size.toNat
    · exact hy.good.filled (by rw [hsize]; exact hold)
    · have hold' := Nat.le_of_not_lt hold
      have hnew := hy.filled (bn * BSIZE) (Nat.le_trans hoff hold') ((lt_max_iff.mp hbn).resolve_left hold)
      rw [Nat.mul_div_cancel bn (show 0 < BSIZE by decide)] at hnew
      exact hnew
  have htype : z.type ≠ 0 := by
    rw [hzf]
    exact hy.good.type
  obtain ⟨hgood, hcont, hsame, huse⟩ := storeInode hl hy.good htype (by rw [hzf]) hfilled
  refine wp_modify_bind ?_
  have hstate : (if off + r > y.ip.size.toNat then
      { y with ip := { y.ip with size := BitVec.ofNat 32 (off + r) } } else y) = ⟨z, y.disk⟩ := by
    rw [← hz]
    split <;> rfl
  rw [hstate]
  have hcopied : Copied sb source src off n x r ⟨z, setDinode sb y.disk i z⟩ := by
    refine ⟨hle, hy.read, hy.aligned, ?_, fun hrn => (hy.short hrn).imp_left fun hfull b hb => ?_⟩
    · rw [hcont]
      exact hy.content
    · rw [huse b hb]
      exact hfull b hb
  refine wp_bind (wp_of_ok rfl (wp_pure ⟨rfl, ⟨hcopied, hgood, dinode_setDinode_self .., ?_, hzsize, ?_⟩, huse⟩))
  · exact ⟨addrs, size, by rw [hzf, hip]⟩
  · exact fun j hj hji => (hy.grows.others j hj hji).trans (hsame j hj hji)

theorem writei_spec (source : Source) (src : Nat) (hl : Layout sb) (h : Good sb i x) (hoff : off ≤ x.ip.size.toNat)
    (hmax : off + n ≤ MAXFILE * BSIZE) :
    Wp (writei sb i source src off n) x (fun a z => ∃ r : Nat, a = r ∧ WriteDone sb i source src off n x r z)
      fun _ => False := by
  have hlt := MAXFILE_lt
  have hu : u32 (off + n) = off + n := u32_of_lt (by omega)
  rw [writei]
  refine wp_get_bind ?_
  rw [hu, if_neg (by omega), if_neg (by omega)]
  have hloop := writeLoop_spec source src hl (Nat.le_of_eq (Nat.sub_zero n))
    hmax h (Grows.refl sb i x) (Nat.zero_le _) (readable_zero source src) (fun _ => .inl rfl)
    (fun k hk hk' => by omega) (fun k => by rw [if_neg (by omega)])
  refine hloop.bind fun r y hy => ?_
  exact (writeDone hl hoff hmax hy).imp fun a z hz => ⟨r, hz.1, hz.2.1⟩

theorem writei_refused (hoff : off < 2 ^ 32) (hn : n < 2 ^ 32)
    (h : x.ip.size.toNat < off ∨ 2 ^ 32 ≤ off + n ∨ MAXFILE * BSIZE < off + n) :
    writei sb i source src off n x = .ok (-1, x) := by
  have hu : off + n < 2 ^ 32 ∧ u32 (off + n) = off + n ∨ 2 ^ 32 ≤ off + n ∧ u32 (off + n) < off := by
    simp only [u32]
    omega
  have hwp : Wp (writei sb i source src off n) x (fun a y => a = -1 ∧ y = x) fun _ => False := by
    rw [writei]
    refine wp_get_bind ?_
    split
    · exact wp_pure ⟨rfl, rfl⟩
    · rw [if_pos (by omega)]
      exact wp_pure ⟨rfl, rfl⟩
  rw [Wp] at hwp
  split at hwp
  · rename_i a y heq
    rw [heq, hwp.1, hwp.2]
  · exact hwp.elim

end Writing

end AdaptiveXv6.FileWrites
