import AdaptiveXv6.Bytes
import AdaptiveXv6.LogDisk

namespace AdaptiveXv6.Blocks

open Bytes Function

export LogDisk (BSIZE)

abbrev NDIRECT : Nat := 12
abbrev NINDIRECT : Nat := BSIZE / 4
abbrev MAXFILE : Nat := NDIRECT + NINDIRECT
abbrev IPB : Nat := BSIZE / 64
abbrev BPB : Nat := BSIZE * 8

/-- A disk block, of which the first BSIZE bytes matter. -/
abbrev Block := Nat → Byte

def half (v : Block) (o : Nat) : BitVec 16 := v (o + 1) ++ v o

def word (v : Block) (o : Nat) : BitVec 32 := v (o + 3) ++ v (o + 2) ++ v (o + 1) ++ v o

/-- A byte of a number in memory, the lowest first. -/
def piece {w : Nat} (x : BitVec w) (r : Nat) : Byte := x.extractLsb' (8 * r) 8

theorem pieces_half (x : BitVec 16) : piece x 1 ++ piece x 0 = x := by
  ext i hi
  simp only [piece, BitVec.getElem_append, BitVec.getElem_extractLsb']
  split
  · rw [Nat.mul_zero, Nat.zero_add]
    exact BitVec.getLsbD_eq_getElem hi
  · rw [show 8 * 1 + (i - 8) = i by omega]
    exact BitVec.getLsbD_eq_getElem hi

theorem pieces_word (x : BitVec 32) : piece x 3 ++ piece x 2 ++ piece x 1 ++ piece x 0 = x := by
  ext i hi
  simp only [piece, BitVec.getElem_append, BitVec.getElem_extractLsb']
  split
  · rw [Nat.mul_zero, Nat.zero_add]
    exact BitVec.getLsbD_eq_getElem hi
  · split
    · rw [show 8 * 1 + (i - 8) = i by omega]
      exact BitVec.getLsbD_eq_getElem hi
    · split
      · rw [show 8 * 2 + (i - 8 - 8) = i by omega]
        exact BitVec.getLsbD_eq_getElem hi
      · rw [show 8 * 3 + (i - 8 - 8 - 8) = i by omega]
        exact BitVec.getLsbD_eq_getElem hi

section Words

variable {v w : Block} {o : Nat}

theorem half_congr (h : ∀ i, o ≤ i → i < o + 2 → v i = w i) : half v o = half w o := by
  rw [half, half, h o (Nat.le_refl _) (by omega), h (o + 1) (by omega) (by omega)]

theorem word_congr (h : ∀ i, o ≤ i → i < o + 4 → v i = w i) : word v o = word w o := by
  rw [word, word, h o (Nat.le_refl _) (by omega), h (o + 1) (by omega) (by omega),
    h (o + 2) (by omega) (by omega), h (o + 3) (by omega) (by omega)]

theorem half_eq (x : BitVec 16) (h : ∀ r, r < 2 → v (o + r) = piece x r) : half v o = x := by
  have h₀ := h 0 (by omega)
  rw [Nat.add_zero] at h₀
  rw [half, h₀, h 1 (by omega)]
  exact pieces_half x

theorem word_eq (x : BitVec 32) (h : ∀ r, r < 4 → v (o + r) = piece x r) : word v o = x := by
  have h₀ := h 0 (by omega)
  rw [Nat.add_zero] at h₀
  rw [word, h₀, h 1 (by omega), h 2 (by omega), h 3 (by omega)]
  exact pieces_word x

def putWord (x : BitVec 32) (o : Nat) (v : Block) : Block := fun i =>
  if o ≤ i ∧ i < o + 4 then piece x (i - o) else v i

theorem word_putWord_self (x : BitVec 32) (o : Nat) (v : Block) : word (putWord x o v) o = x := by
  refine word_eq x fun r hr => ?_
  rw [putWord, if_pos ⟨by omega, by omega⟩, Nat.add_sub_cancel_left]

theorem word_putWord_of_ne (x : BitVec 32) {o o' : Nat} (v : Block) (h : o + 4 ≤ o' ∨ o' + 4 ≤ o) :
    word (putWord x o v) o' = word v o' := by
  refine word_congr fun i hi hi' => ?_
  rw [putWord, if_neg (by omega)]

end Words

structure Inode where
  type : BitVec 16
  major : BitVec 16
  minor : BitVec 16
  nlink : BitVec 16
  size : BitVec 32
  addrs : Fin (NDIRECT + 1) → BitVec 32

def Inode.zero : Inode := ⟨0, 0, 0, 0, 0, fun _ => 0⟩

def getDinode (v : Block) (k : Nat) : Inode where
  type := half v (64 * k)
  major := half v (64 * k + 2)
  minor := half v (64 * k + 4)
  nlink := half v (64 * k + 6)
  size := word v (64 * k + 8)
  addrs j := word v (64 * k + 12 + 4 * j.val)

def Inode.byte (x : Inode) (r : Nat) : Byte :=
  if r < 2 then piece x.type r
  else if r < 4 then piece x.major (r - 2)
  else if r < 6 then piece x.minor (r - 4)
  else if r < 8 then piece x.nlink (r - 6)
  else if r < 12 then piece x.size (r - 8)
  else if h : (r - 12) / 4 < NDIRECT + 1 then piece (x.addrs ⟨(r - 12) / 4, h⟩) ((r - 12) % 4) else 0

def putDinode (x : Inode) (k : Nat) (v : Block) : Block := fun i =>
  if 64 * k ≤ i ∧ i < 64 * k + 64 then x.byte (i - 64 * k) else v i

theorem putDinode_inside (x : Inode) (k : Nat) (v : Block) {r : Nat} (hr : r < 64) :
    putDinode x k v (64 * k + r) = x.byte r := by
  rw [putDinode, if_pos ⟨by omega, by omega⟩, Nat.add_sub_cancel_left]

theorem getDinode_putDinode_self (x : Inode) (k : Nat) (v : Block) : getDinode (putDinode x k v) k = x := by
  have haddrs : ∀ j : Fin (NDIRECT + 1), word (putDinode x k v) (64 * k + 12 + 4 * j.val) = x.addrs j := by
    intro j
    have hj : j.val < 13 := j.isLt
    refine word_eq _ fun r hr => ?_
    rw [show 64 * k + 12 + 4 * j.val + r = 64 * k + (12 + 4 * j.val + r) by omega,
      putDinode_inside x k v (by omega), Inode.byte, if_neg (by omega), if_neg (by omega), if_neg (by omega),
      if_neg (by omega), if_neg (by omega)]
    have hdiv : (12 + 4 * j.val + r - 12) / 4 = j.val := by omega
    have hmod : (12 + 4 * j.val + r - 12) % 4 = r := by omega
    rw [dif_pos (by rw [hdiv]; exact j.isLt), hmod]
    simp only [hdiv]
  have hhalf : ∀ (o : Nat) (y : BitVec 16), o + 2 ≤ 64 → (∀ r, r < 2 → x.byte (o + r) = piece y r) →
      half (putDinode x k v) (64 * k + o) = y := by
    intro o y ho hy
    refine half_eq y fun r hr => ?_
    rw [Nat.add_assoc, putDinode_inside x k v (by omega), hy r hr]
  have hsize : word (putDinode x k v) (64 * k + 8) = x.size := by
    refine word_eq _ fun r hr => ?_
    rw [Nat.add_assoc, putDinode_inside x k v (by omega), Inode.byte, if_neg (by omega), if_neg (by omega),
      if_neg (by omega), if_neg (by omega), if_pos (by omega), Nat.add_sub_cancel_left]
  have htype := hhalf 0 x.type (by omega) (fun r hr => by rw [Nat.zero_add, Inode.byte, if_pos hr])
  have hmajor := hhalf 2 x.major (by omega) fun r hr => by
    rw [Inode.byte, if_neg (by omega), if_pos (by omega), Nat.add_sub_cancel_left]
  have hminor := hhalf 4 x.minor (by omega) fun r hr => by
    rw [Inode.byte, if_neg (by omega), if_neg (by omega), if_pos (by omega), Nat.add_sub_cancel_left]
  have hnlink := hhalf 6 x.nlink (by omega) fun r hr => by
    rw [Inode.byte, if_neg (by omega), if_neg (by omega), if_neg (by omega), if_pos (by omega),
      Nat.add_sub_cancel_left]
  rw [Nat.add_zero] at htype
  simp only [getDinode, htype, hmajor, hminor, hnlink, hsize, haddrs]

theorem getDinode_congr {v w : Block} {k : Nat} (h : ∀ i, 64 * k ≤ i → i < 64 * k + 64 → v i = w i) :
    getDinode v k = getDinode w k := by
  have haddrs : ∀ j : Fin (NDIRECT + 1), word v (64 * k + 12 + 4 * j.val) = word w (64 * k + 12 + 4 * j.val) := by
    intro j
    have hj : j.val < 13 := j.isLt
    exact word_congr fun i hi hi' => h i (by omega) (by omega)
  simp only [getDinode, haddrs]
  rw [half_congr fun i hi hi' => h i (by omega) (by omega), half_congr fun i hi hi' => h i (by omega) (by omega),
    half_congr fun i hi hi' => h i (by omega) (by omega), half_congr fun i hi hi' => h i (by omega) (by omega),
    word_congr fun i hi hi' => h i (by omega) (by omega)]

theorem getDinode_putDinode_of_ne (x : Inode) {j k : Nat} (v : Block) (h : j ≠ k) :
    getDinode (putDinode x k v) j = getDinode v j := by
  refine getDinode_congr fun i hi hi' => ?_
  rw [putDinode, if_neg (by omega)]

structure Superblock where
  magic : Nat
  size : Nat
  nblocks : Nat
  ninodes : Nat
  nlog : Nat
  logstart : Nat
  inodestart : Nat
  bmapstart : Nat

def Superblock.iblock (sb : Superblock) (i : Nat) : Nat := i / IPB + sb.inodestart

def Superblock.bblock (sb : Superblock) (b : Nat) : Nat := b / BPB + sb.bmapstart

section Bits

def bit (v : Block) (bi : Nat) : Bool := (v (bi / 8) &&& 1#8 <<< (bi % 8)) != 0

def setBit (bi : Nat) (v : Block) : Block := update v (bi / 8) (v (bi / 8) ||| 1#8 <<< (bi % 8))

def clearBit (bi : Nat) (v : Block) : Block := update v (bi / 8) (v (bi / 8) &&& ~~~(1#8 <<< (bi % 8)))

theorem and_mask (x : Byte) {j : Nat} (hj : j < 8) : ((x &&& 1#8 <<< j) != 0) = x.getLsbD j := by
  have h : ∀ x : Byte, ∀ j : Fin 8, ((x &&& 1#8 <<< j.val) != 0) = x.getLsbD j.val := by decide +kernel
  exact h x ⟨j, hj⟩

theorem getLsbD_mask {j k : Nat} (hj : j < 8) (hk : k < 8) : (1#8 <<< j).getLsbD k = decide (k = j) := by
  have h : ∀ j k : Fin 8, (1#8 <<< j.val).getLsbD k.val = decide (k.val = j.val) := by decide
  exact h ⟨j, hj⟩ ⟨k, hk⟩

theorem bit_setBit (v : Block) (bi bj : Nat) : bit (setBit bi v) bj = (decide (bj = bi) || bit v bj) := by
  have hi : bi % 8 < 8 := Nat.mod_lt _ (by decide)
  have hj : bj % 8 < 8 := Nat.mod_lt _ (by decide)
  by_cases h : bj / 8 = bi / 8
  · have hiff : bj % 8 = bi % 8 ↔ bj = bi := by omega
    rw [bit, setBit, h, update_self, and_mask _ hj, BitVec.getLsbD_or, getLsbD_mask hi hj, Bool.or_comm,
      bit, h, and_mask _ hj, decide_eq_decide.mpr hiff]
  · have hne : bj ≠ bi := by
      rintro rfl
      exact h rfl
    rw [bit, setBit, update_of_ne h, decide_eq_false hne, Bool.false_or, bit]

theorem bit_clearBit (v : Block) (bi bj : Nat) : bit (clearBit bi v) bj = (!decide (bj = bi) && bit v bj) := by
  have hi : bi % 8 < 8 := Nat.mod_lt _ (by decide)
  have hj : bj % 8 < 8 := Nat.mod_lt _ (by decide)
  by_cases h : bj / 8 = bi / 8
  · have hiff : bj % 8 = bi % 8 ↔ bj = bi := by omega
    rw [bit, clearBit, h, update_self, and_mask _ hj, BitVec.getLsbD_and, BitVec.getLsbD_not,
      getLsbD_mask hi hj, Bool.and_comm, bit, h, and_mask _ hj, decide_eq_decide.mpr hiff, decide_eq_true hj,
      Bool.true_and]
  · have hne : bj ≠ bi := by
      rintro rfl
      exact h rfl
    rw [bit, clearBit, update_of_ne h, decide_eq_false hne, Bool.not_false, Bool.true_and, bit]

end Bits

end AdaptiveXv6.Blocks
