import AdaptiveXv6.Content
import AdaptiveXv6.Holdings

namespace AdaptiveXv6.BlockMaps

open Bytes Blocks Content Store Holdings Function

def dataStart (sb : Superblock) : Nat := sb.bmapstart + sb.size / BPB + 1

/-- The areas of the disk follow each other as fs.h says. -/
structure Layout (sb : Superblock) : Prop where
  log : sb.logstart + sb.nlog ≤ sb.inodestart
  inodes : sb.inodestart + sb.ninodes / IPB < sb.bmapstart
  data : dataStart sb ≤ sb.size
  size : sb.size < 2 ^ 31
  root : 1 < sb.ninodes

variable {sb : Superblock} {d d' : Store} {b c i j : Nat}

section Frames

@[simp] theorem block_logWrite_self (d : Store) (b : Nat) (v : Block) : (d.logWrite b v).block b = v :=
  update_self ..

theorem block_logWrite_of_ne (h : c ≠ b) (v : Block) : (d.logWrite b v).block c = d.block c :=
  update_of_ne h ..

/-- From d to d' only blocks that were logged on the way have changed. -/
def Logs (d d' : Store) : Prop := ∃ L, d'.logged = L ++ d.logged ∧ ∀ a, a ∉ L → d'.block a = d.block a

theorem Logs.refl (d : Store) : Logs d d := ⟨[], rfl, fun _ _ => rfl⟩

theorem Logs.logWrite (h : Logs d d') (b : Nat) (v : Block) : Logs d (d'.logWrite b v) := by
  obtain ⟨L, hL, hrest⟩ := h
  refine ⟨b :: L, congrArg (b :: ·) hL, fun a ha => ?_⟩
  rw [List.mem_cons, not_or] at ha
  rw [block_logWrite_of_ne ha.1, hrest a ha.2]

theorem dinode_congr (h : d'.block (sb.iblock i) = d.block (sb.iblock i)) : dinode sb d' i = dinode sb d i := by
  rw [dinode, dinode, h]

theorem inUse_congr (h : d'.block (sb.bblock b) = d.block (sb.bblock b)) : inUse sb d' b = inUse sb d b := by
  rw [inUse, inUse, h]

theorem dinode_setDinode_self (d : Store) (i : Nat) (x : Inode) : dinode sb (setDinode sb d i x) i = x := by
  rw [dinode, setDinode, block_logWrite_self]
  exact getDinode_putDinode_self ..

theorem dinode_setDinode_of_ne (h : j ≠ i) (x : Inode) : dinode sb (setDinode sb d i x) j = dinode sb d j := by
  by_cases hb : sb.iblock j = sb.iblock i
  · have hslot : j % IPB ≠ i % IPB := by
      simp only [Superblock.iblock, IPB, BSIZE] at hb ⊢
      omega
    rw [dinode, setDinode, hb, block_logWrite_self, getDinode_putDinode_of_ne _ _ hslot, dinode, hb]
  · exact dinode_congr (block_logWrite_of_ne hb _)

theorem iblock_lt (hl : Layout sb) (hi : i < sb.ninodes) : sb.iblock i < sb.bmapstart := by
  have h := hl.inodes
  have hle : i / IPB ≤ sb.ninodes / IPB := Nat.div_le_div_right (Nat.le_of_lt hi)
  simp only [Superblock.iblock]
  omega

theorem bmapstart_le : sb.bmapstart ≤ sb.bblock b := Nat.le_add_left ..

theorem bblock_lt (hb : b < sb.size) : sb.bblock b < dataStart sb := by
  have hle : b / BPB ≤ sb.size / BPB := Nat.div_le_div_right (Nat.le_of_lt hb)
  simp only [Superblock.bblock, dataStart]
  omega

theorem iblock_lt_dataStart (hl : Layout sb) (hi : i < sb.ninodes) : sb.iblock i < dataStart sb := by
  have h : sb.bmapstart ≤ dataStart sb := Nat.le_trans (Nat.le_add_right ..) (Nat.le_succ _)
  exact Nat.lt_of_lt_of_le (iblock_lt hl hi) h

theorem dataStart_pos : 0 < dataStart sb := Nat.succ_pos _

theorem bblock_eq (h : sb.bblock c = sb.bblock b) : c % BPB = b % BPB ↔ c = b := by
  simp only [Superblock.bblock, BPB, BSIZE] at h ⊢
  omega

end Frames

section Slots

/-- The places of an inode: 0 to 11 direct, 12 the indirect block, from 13 on its entries. -/
def ptr (x : Inode) (d : Store) (s : Nat) : Nat :=
  if s ≤ NDIRECT then Inode.addr x s
  else if s ≤ MAXFILE ∧ Inode.addr x NDIRECT ≠ 0 then
    (word (d.block (Inode.addr x NDIRECT)) (4 * (s - (NDIRECT + 1)))).toNat
  else 0

def slotOf (bn : Nat) : Nat := if bn < NDIRECT then bn else bn + 1

def blockAt (x : Inode) (d : Store) (bn : Nat) : Nat := ptr x d (slotOf bn)

def content (x : Inode) (d : Store) (k : Nat) : Byte :=
  if blockAt x d (k / BSIZE) = 0 then 0 else d.block (blockAt x d (k / BSIZE)) (k % BSIZE)

theorem slotOf_ne (bn : Nat) : slotOf bn ≠ NDIRECT := by
  rw [slotOf]
  split <;> omega

theorem slotOf_inj {bn bn' : Nat} (h : slotOf bn = slotOf bn') : bn = bn' := by
  rw [slotOf, slotOf] at h
  split at h <;> split at h <;> omega

theorem ptr_indirect (x : Inode) (d : Store) : ptr x d NDIRECT = Inode.addr x NDIRECT := if_pos (Nat.le_refl _)

theorem ptr_congr {x x' : Inode} (haddr : ∀ k, k ≤ NDIRECT → Inode.addr x' k = Inode.addr x k)
    (hblock : Inode.addr x NDIRECT ≠ 0 → d'.block (Inode.addr x NDIRECT) = d.block (Inode.addr x NDIRECT))
    (s : Nat) : ptr x' d' s = ptr x d s := by
  rw [ptr, ptr]
  split
  · rename_i hs
    exact haddr s hs
  · rw [haddr NDIRECT (Nat.le_refl _)]
    split
    · rename_i hs
      rw [hblock hs.2]
    · rfl

theorem content_congr {x x' : Inode} (hptr : ∀ s, s ≠ NDIRECT → ptr x' d' s = ptr x d s)
    (hblock : ∀ s, s ≠ NDIRECT → ptr x d s ≠ 0 → d'.block (ptr x d s) = d.block (ptr x d s)) :
    content x' d' = content x d := by
  funext k
  rw [content, content, blockAt, blockAt, hptr _ (slotOf_ne _)]
  split
  · rfl
  · rename_i h
    rw [hblock _ (slotOf_ne _) h]

end Slots

section Families

variable {f : Nat → Inode}

def slots (sb : Superblock) (f : Nat → Inode) (d : Store) (a : Nat × Nat) : Nat :=
  if a.1 < sb.ninodes ∧ (f a.1).type ≠ 0 then ptr (f a.1) d a.2 else 0

/-- Block ownership without holes. -/
structure Valid (sb : Superblock) (f : Nat → Inode) (d : Store) : Prop where
  held : Held (dataStart sb) sb.size (slots sb f d) (inUse sb d)
  filled : ∀ i, i < sb.ninodes → (f i).type ≠ 0 → ∀ bn, bn * BSIZE < (f i).size.toNat → blockAt (f i) d bn ≠ 0

theorem slots_eq (hi : i < sb.ninodes) (ht : (f i).type ≠ 0) (s : Nat) : slots sb f d (i, s) = ptr (f i) d s :=
  if_pos ⟨hi, ht⟩

namespace Valid

variable (h : Valid sb f d) (hi : i < sb.ninodes) (ht : (f i).type ≠ 0)

include h hi ht

theorem range {s : Nat} (hs : ptr (f i) d s ≠ 0) : dataStart sb ≤ ptr (f i) d s ∧ ptr (f i) d s < sb.size := by
  have hr := h.held.range (i, s)
  rw [slots_eq hi ht] at hr
  exact hr hs

theorem inUse_ptr {s : Nat} (hs : ptr (f i) d s ≠ 0) : inUse sb d (ptr (f i) d s) = true := by
  have hm := h.held.marks (i, s)
  rw [slots_eq hi ht] at hm
  exact hm hs

theorem ptr_inj (hj : j < sb.ninodes)
    (ht' : (f j).type ≠ 0) {s r : Nat} (hs : ptr (f i) d s ≠ 0) (heq : ptr (f i) d s = ptr (f j) d r) :
    i = j ∧ s = r := by
  have hinj := h.held.inj (i, s) (j, r)
  rw [slots_eq hi ht, slots_eq hj ht'] at hinj
  exact Prod.mk.inj (hinj hs heq)

end Valid

end Families

/-- The inodes, with the locked one as it is in memory. -/
def fam (sb : Superblock) (i : Nat) (x : Locked) : Nat → Inode := update (dinode sb x.disk) i x.ip

@[simp] theorem fam_self (x : Locked) : fam sb i x i = x.ip := update_self ..

theorem fam_of_ne (h : j ≠ i) (x : Locked) : fam sb i x j = dinode sb x.disk j := update_of_ne h ..

structure Good (sb : Superblock) (i : Nat) (x : Locked) : Prop where
  valid : Valid sb (fam sb i x) x.disk
  lt : i < sb.ninodes
  type : x.ip.type ≠ 0

structure Same (sb : Superblock) (d d' : Store) (j : Nat) : Prop where
  dinode : dinode sb d' j = dinode sb d j
  ptr : (Store.dinode sb d j).type ≠ 0 → ∀ s, ptr (Store.dinode sb d j) d' s = ptr (Store.dinode sb d j) d s
  content : (Store.dinode sb d j).type ≠ 0 →
    content (Store.dinode sb d j) d' = content (Store.dinode sb d j) d

theorem Same.refl (sb : Superblock) (d : Store) (j : Nat) : Same sb d d j := ⟨rfl, fun _ _ => rfl, fun _ => rfl⟩

theorem Same.trans {d'' : Store} (h : Same sb d d' j) (h' : Same sb d' d'' j) : Same sb d d'' j := by
  obtain ⟨hi', hp', hc'⟩ := h'
  rw [h.dinode] at hi' hp' hc'
  exact ⟨hi', fun ht s => (hp' ht s).trans (h.ptr ht s), fun ht => (hc' ht).trans (h.content ht)⟩

namespace Good

variable {x y : Locked} {s r : Nat}

theorem own_type (h : Good sb i x) : (fam sb i x i).type ≠ 0 := by
  rw [fam_self]
  exact h.type

theorem own_ptr (i : Nat) (x : Locked) (s : Nat) : ptr (fam sb i x i) x.disk s = ptr x.ip x.disk s := by rw [fam_self]

variable (h : Good sb i x)

include h

theorem range (hs : ptr x.ip x.disk s ≠ 0) : dataStart sb ≤ ptr x.ip x.disk s ∧ ptr x.ip x.disk s < sb.size := by
  have hr := h.valid.range h.lt h.own_type (s := s)
  rw [own_ptr] at hr
  exact hr hs

theorem inUse_ptr (hs : ptr x.ip x.disk s ≠ 0) : inUse sb x.disk (ptr x.ip x.disk s) = true := by
  have hr := h.valid.inUse_ptr h.lt h.own_type (s := s)
  rw [own_ptr] at hr
  exact hr hs

theorem inj (hs : ptr x.ip x.disk s ≠ 0) (heq : ptr x.ip x.disk s = ptr x.ip x.disk r) : s = r := by
  have hr := h.valid.ptr_inj h.lt h.own_type h.lt h.own_type (s := s) (r := r)
  rw [own_ptr, own_ptr] at hr
  exact (hr hs heq).2

theorem filled {bn : Nat} (hbn : bn * BSIZE < x.ip.size.toNat) : blockAt x.ip x.disk bn ≠ 0 := by
  have hf := h.valid.filled i h.lt h.own_type bn
  rw [fam_self] at hf
  exact hf hbn

theorem blockAt_ne {bn : Nat} (hbn : blockAt x.ip x.disk bn ≠ 0) :
    blockAt x.ip x.disk bn ≠ Inode.addr x.ip NDIRECT := by
  intro heq
  rw [← ptr_indirect x.ip x.disk] at heq
  exact slotOf_ne bn (h.inj hbn heq)

theorem same (hdinode : ∀ j, j < sb.ninodes → j ≠ i → dinode sb y.disk j = dinode sb x.disk j)
    (hblock : ∀ c, dataStart sb ≤ c → inUse sb x.disk c = true → (∀ s, ptr x.ip x.disk s ≠ c) →
      y.disk.block c = x.disk.block c) (hj : j < sb.ninodes) (hji : j ≠ i) : Same sb x.disk y.disk j := by
  have hfam : fam sb i x j = dinode sb x.disk j := fam_of_ne hji x
  have hkept : (dinode sb x.disk j).type ≠ 0 → ∀ s, ptr (dinode sb x.disk j) x.disk s ≠ 0 →
      y.disk.block (ptr (dinode sb x.disk j) x.disk s) = x.disk.block (ptr (dinode sb x.disk j) x.disk s) := by
    intro ht s hs
    rw [← hfam] at ht hs ⊢
    refine hblock _ (h.valid.range hj ht hs).1 (h.valid.inUse_ptr hj ht hs) ?_
    intro s' heq
    rw [← own_ptr i] at heq
    exact hji (h.valid.ptr_inj hj ht h.lt h.own_type hs heq.symm).1
  have hptr : (dinode sb x.disk j).type ≠ 0 → ∀ s,
      ptr (dinode sb x.disk j) y.disk s = ptr (dinode sb x.disk j) x.disk s := by
    intro ht
    refine ptr_congr (fun _ _ => rfl) ?_
    have hind := hkept ht NDIRECT
    rw [ptr_indirect] at hind
    exact hind
  exact ⟨hdinode j hj hji, hptr, fun ht => content_congr (fun s _ => hptr ht s) fun s _ => hkept ht s⟩

theorem slots_eq_of_same (htype : y.ip.type ≠ 0)
    (hsame : ∀ j, j < sb.ninodes → j ≠ i → Same sb x.disk y.disk j) (a : Nat × Nat) :
    slots sb (fam sb i y) y.disk a =
      if a.1 = i then ptr y.ip y.disk a.2 else slots sb (fam sb i x) x.disk a := by
  obtain ⟨j, s⟩ := a
  by_cases hji : j = i
  · subst hji
    rw [if_pos rfl, slots_eq h.lt (by rw [fam_self]; exact htype), fam_self]
  · rw [if_neg hji, slots, slots]
    simp only [fam_of_ne hji]
    by_cases hj : j < sb.ninodes
    · have hs := hsame j hj hji
      rw [hs.dinode]
      by_cases ht : (dinode sb x.disk j).type = 0
      · rw [if_neg (by simp [ht]), if_neg (by simp [ht])]
      · rw [if_pos ⟨hj, ht⟩, if_pos ⟨hj, ht⟩, hs.ptr ht]
    · rw [if_neg (fun h => hj h.1), if_neg (fun h => hj h.1)]

theorem of_same (htype : y.ip.type ≠ 0) (hsame : ∀ j, j < sb.ninodes → j ≠ i → Same sb x.disk y.disk j)
    (hheld : Held (dataStart sb) sb.size (slots sb (fam sb i y) y.disk) (inUse sb y.disk))
    (hfilled : ∀ bn, bn * BSIZE < y.ip.size.toNat → blockAt y.ip y.disk bn ≠ 0) : Good sb i y := by
  refine ⟨⟨hheld, ?_⟩, h.lt, htype⟩
  intro j hj ht bn hbn
  by_cases hji : j = i
  · subst hji
    rw [fam_self] at hbn ⊢
    exact hfilled bn hbn
  · have hs := hsame j hj hji
    rw [fam_of_ne hji, hs.dinode] at ht hbn ⊢
    have hf := h.valid.filled j hj (by rw [fam_of_ne hji]; exact ht) bn (by rw [fam_of_ne hji]; exact hbn)
    rw [fam_of_ne hji] at hf
    rw [blockAt, hs.ptr ht]
    exact hf

end Good

end AdaptiveXv6.BlockMaps
