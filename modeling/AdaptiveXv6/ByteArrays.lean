import AdaptiveXv6.FileReads
import AdaptiveXv6.FileWrites

namespace AdaptiveXv6.ByteArrays

open Bytes Blocks Content Store Programs BlockMaps Allocation FileReads FileWrites

variable {sb : Superblock} {x : Locked} {i j k n off src dst : Nat}

def contents (x : Inode) (d : Store) : List Byte := image (content x d) x.size.toNat

/-- A byte array in which the bytes w replace those from off on, or are appended. -/
def splice (s : List Byte) (off : Nat) (w : List Byte) : List Byte := s.take off ++ w ++ s.drop (off + w.length)

theorem image_splice {f g : Nat → Byte} {w : List Byte} {size : Nat} (hoff : off ≤ size)
    (hin : ∀ k, k < w.length → w[k]? = some (g (off + k)))
    (hout : ∀ k, k < off ∨ off + w.length ≤ k → g k = f k) :
    image g (max size (off + w.length)) = splice (image f size) off w := by
  have hlen : (image g (max size (off + w.length))).length = (splice (image f size) off w).length := by
    simp only [splice, List.length_append, List.length_take, List.length_drop, length_image]
    omega
  refine List.ext_getElem? fun k => ?_
  by_cases hk : k < max size (off + w.length)
  · rw [getElem?_image g hk, splice]
    by_cases h₁ : k < off
    · have hl : k < ((image f size).take off).length := by
        rw [List.length_take, length_image]
        omega
      rw [List.append_assoc, List.getElem?_append_left hl, List.getElem?_take_of_lt h₁,
        getElem?_image f (by omega), hout k (.inl h₁)]
    · have hl : ((image f size).take off).length = off := by
        rw [List.length_take, length_image]
        omega
      by_cases h₂ : k < off + w.length
      · have hkw := hin (k - off) (by omega)
        rw [show off + (k - off) = k by omega] at hkw
        rw [List.append_assoc, List.getElem?_append_right (by omega), hl, List.getElem?_append_left (by omega), hkw]
      · rw [List.getElem?_append_right (by rw [List.length_append]; omega), List.length_append, hl,
          List.getElem?_drop, getElem?_image f (by omega), hout k (.inr (by omega))]
        congr 2
        omega
  · rw [List.getElem?_eq_none (by rw [length_image]; omega),
      List.getElem?_eq_none (by rw [← hlen, length_image]; omega)]

def taken (source : Source) (src r : Nat) : List Byte := image (fun k => source.mem (src + k)) r

theorem contents_written {source : Source} {r : Nat} {z : Locked} (hoff : off ≤ x.ip.size.toNat)
    (hsize : z.ip.size.toNat = max x.ip.size.toNat (off + r))
    (hz : ∀ k, content z.ip z.disk k = if off ≤ k ∧ k < off + r then source.mem (src + (k - off)) else
      content x.ip x.disk k) :
    contents z.ip z.disk = splice (contents x.ip x.disk) off (taken source src r) := by
  have hlen : (taken source src r).length = r := length_image ..
  rw [contents, contents, hsize]
  have h := image_splice (f := content x.ip x.disk) (g := content z.ip z.disk) (w := taken source src r) hoff
  rw [hlen] at h
  refine h ?_ ?_
  · intro k hk
    rw [taken, getElem?_image _ hk, hz, if_pos (by omega), Nat.add_sub_cancel_left]
  · intro k hk
    rw [hz, if_neg (by omega)]

theorem delivered_eq (x : Locked) (off n : Nat) :
    delivered x off (min (off + n) x.ip.size.toNat - off) = ((contents x.ip x.disk).drop off).take n := by
  refine List.ext_getElem? fun k => ?_
  by_cases hk : k < min (off + n) x.ip.size.toNat - off
  · rw [delivered, getElem?_image _ hk, List.getElem?_take_of_lt (by omega), List.getElem?_drop, contents,
      getElem?_image _ (by omega)]
  · rw [delivered, List.getElem?_eq_none (by rw [length_image]; omega), List.getElem?_eq_none]
    rw [List.length_take, List.length_drop, contents, length_image]
    omega

/-- Inodes are byte arrays: a write replaces or appends bytes, as far as there are blocks, a refused one
changes nothing, and a read delivers what is there. -/
theorem inode_byte_array (hl : Layout sb) (h : Good sb i x) (source : Source) (dest : Dest) (src dst : Nat)
    (hoff : off < 2 ^ 32) (hn : n < 2 ^ 32) :
    (off ≤ x.ip.size.toNat → off + n ≤ MAXFILE * BSIZE → Source.Readable source src n →
      ∃ (r : Nat) (z : Locked), writei sb i source src off n x = .ok ((r : Int), z) ∧ r ≤ n ∧
        (r < n → Full sb z.disk) ∧ Good sb i z ∧
        contents z.ip z.disk = splice (contents x.ip x.disk) off (taken source src r) ∧
        z.ip.size.toNat = max x.ip.size.toNat (off + r) ∧
        ∀ j, j < sb.ninodes → j ≠ i → dinode sb z.disk j = dinode sb x.disk j ∧
          ((dinode sb x.disk j).type ≠ 0 →
            contents (dinode sb z.disk j) z.disk = contents (dinode sb x.disk j) x.disk)) ∧
    (x.ip.size.toNat < off ∨ 2 ^ 32 ≤ off + n ∨ MAXFILE * BSIZE < off + n →
      writei sb i source src off n x = .ok (-1, x)) ∧
    (off + n < 2 ^ 32 → Dest.Accepts dest dst n →
      ∃ ws, readi sb dest dst off n x = .ok ((ws, (((contents x.ip x.disk).drop off).take n).length), x) ∧
        ∀ mem, stores mem ws = store mem (dst, ((contents x.ip x.disk).drop off).take n)) := by
  refine ⟨?_, writei_refused hoff hn, ?_⟩
  · intro hle hmax hread
    have hw := writei_spec source src hl h hle hmax
    rw [Wp] at hw
    split at hw
    · rename_i a z heq
      obtain ⟨r, rfl, hz⟩ := hw
      -- no copy fails, so the loop ends early only for want of a block
      have hcopy : r < n → (eitherCopyin source (src + r) (chunk n off r)).2 ≠ false := by
        intro hr
        have hsub : Source.Readable source (src + r) (chunk n off r) :=
          hread.sub (Nat.le_add_right ..) (by rw [chunk]; omega)
        rw [eitherCopyin_of_readable hsub]
        decide
      obtain ⟨c, hc, hcont⟩ := hz.content
      have hc₀ : c = 0 := by
        rcases hc with ⟨hc, -⟩ | ⟨hfail, hc⟩
        · exact hc
        · rcases Nat.lt_or_ge r n with hr | hr
          · exact absurd hfail (hcopy hr)
          · have hle := eitherCopyin_le source (src + r) (chunk n off r)
            have hnone : chunk n off r = 0 := by
              rw [chunk]
              omega
            omega
      rw [hc₀, Nat.add_zero] at hcont
      refine ⟨r, z, heq, hz.le, fun hr => (hz.short hr).resolve_right (hcopy hr), hz.good,
        contents_written hle hz.size hcont, hz.size, ?_⟩
      intro j hj hji
      have hs := hz.others j hj hji
      refine ⟨hs.dinode, fun ht => ?_⟩
      rw [hs.dinode, contents, hs.content ht, contents]
    · exact hw.elim
  · intro hno hacc
    have hr := readi_spec hl h dest dst hoff hn
    rw [Wp] at hr
    split at hr
    · rename_i r z heq
      obtain ⟨rfl, hr⟩ := hr
      obtain ⟨hlen, hst⟩ := hr hno hacc
      rw [← delivered_eq]
      refine ⟨r.1, ?_, hst⟩
      rw [heq, delivered, length_image, ← hlen]
    · exact hr.elim

section Example

/-- A disk with six data blocks, of which a file of two bytes has one. As a directory its second entry would be
"a", for itself. -/
def tinySuperblock : Superblock := ⟨0, 10, 6, 2, 0, 2, 2, 3⟩

def tiny : Locked where
  ip := ⟨2, 0, 0, 1, 2, fun j => if j.val = 0 then 4 else 0⟩
  disk := ⟨fun b k => if b = 3 ∧ k = 0 then 31 else if b = 4 ∧ k = 16 then 1 else if b = 4 ∧ k = 18 then 97 else 0, []⟩

theorem tiny_layout : Layout tinySuperblock := ⟨by decide, by decide, by decide, by decide, by decide⟩

theorem tiny_slots (a : Nat × Nat) :
    slots tinySuperblock (fam tinySuperblock 1 tiny) tiny.disk a = if a = (1, 0) then 4 else 0 := by
  obtain ⟨i, s⟩ := a
  by_cases hi : i = 1
  · subst hi
    rw [slots_eq (by decide) (by rw [fam_self]; decide), fam_self]
    by_cases hs : s = 0
    · rw [hs]
      rfl
    · have hind : Inode.addr tiny.ip NDIRECT = 0 := rfl
      rw [if_neg (by simp [hs]), ptr]
      by_cases hle : s ≤ NDIRECT
      · have hlt : s < NDIRECT + 1 := Nat.lt_succ_of_le hle
        rw [if_pos hle]
        simp only [Inode.addr, dif_pos hlt, tiny, if_neg hs]
        rfl
      · rw [if_neg hle, if_neg (fun h => h.2 hind)]
  · rw [if_neg (by simp [hi]), slots, if_neg]
    rintro ⟨hlt, ht⟩
    rw [fam_of_ne hi] at ht
    obtain rfl : i = 0 := by
      simp only [tinySuperblock] at hlt
      omega
    exact ht rfl

theorem tiny_good : Good tinySuperblock 1 tiny where
  valid := by
    have hmarks : ∀ b, b < 10 → (inUse tinySuperblock tiny.disk b = true ↔ b < 5) := by decide
    refine ⟨⟨?_, ?_, ?_, ?_, ?_⟩, ?_⟩
    · intro a ha
      rw [tiny_slots] at ha ⊢
      split at ha
      · rw [if_pos (by assumption)]
        decide
      · exact absurd rfl ha
    · intro a ha
      rw [tiny_slots] at ha ⊢
      split at ha
      · rw [if_pos (by assumption)]
        decide
      · exact absurd rfl ha
    · intro a b ha hab
      rw [tiny_slots] at ha hab
      rw [tiny_slots] at hab
      split at ha
      · rename_i h
        rw [if_pos h] at hab
        split at hab
        · rename_i h'
          rw [h, h']
        · cases hab
      · exact absurd rfl ha
    · intro b hb
      exact (hmarks b (Nat.lt_trans hb (by decide))).mpr (Nat.lt_trans hb (by decide))
    · intro b hb hb' hm
      refine ⟨(1, 0), ?_⟩
      rw [tiny_slots, if_pos rfl]
      have := (hmarks b hb').mp hm
      have : 4 ≤ b := hb
      omega
    · intro j hj ht bn hbn
      by_cases hj₁ : j = 1
      · subst hj₁
        rw [fam_self] at hbn ⊢
        obtain rfl : bn = 0 := by
          have : bn * 1024 < 2 := hbn
          omega
        decide
      · rw [fam_of_ne hj₁] at ht
        obtain rfl : j = 0 := by
          have : j < 2 := hj
          omega
        exact absurd rfl ht
  lt := by decide
  type := by decide

theorem inode_byte_array_tiny : ∃ (r : Nat) (z : Locked),
    writei tinySuperblock 1 (.kernel fun _ => 7) 0 2 3 tiny = .ok ((r : Int), z) ∧
      contents z.ip z.disk = splice (contents tiny.ip tiny.disk) 2 (taken (.kernel fun _ => 7) 0 r) := by
  obtain ⟨hw, -⟩ := inode_byte_array tiny_layout tiny_good (.kernel fun _ => 7) .kernel 0 0 (show 2 < 2 ^ 32 by decide)
    (show 3 < 2 ^ 32 by decide)
  obtain ⟨r, z, hr, -, -, -, hc, -⟩ := hw (by decide) (by decide) trivial
  exact ⟨r, z, hr, hc⟩

end Example

end AdaptiveXv6.ByteArrays
