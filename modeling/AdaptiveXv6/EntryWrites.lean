import AdaptiveXv6.InodeSteps

namespace AdaptiveXv6.EntryWrites

open Words Bytes Blocks Content Store Programs BlockMaps Allocation FileReads FileWrites InodeTable Nodes

variable {sb : Superblock} {i s : Nat} {x : Locked}

structure EntryDone (sb : Superblock) (i s : Nat) (mem : Nat → Byte) (x : Locked) (a : Int) (z : Locked) : Prop where
  good : Good sb i z
  synced : dinode sb x.disk i = x.ip → dinode sb z.disk i = z.ip
  others : ∀ j, j < sb.ninodes → j ≠ i → Same sb x.disk z.disk j
  node : node z.ip z.disk = if a = 16 then (node x.ip x.disk).put s mem else node x.ip x.disk
  room : ∀ k, Room sb x.disk (k + 2) → Room sb z.disk k
  covered : 16 * s / BSIZE * BSIZE < x.ip.size.toNat →
    a = 16 ∧ ∀ b, b < sb.size → inUse sb z.disk b = inUse sb x.disk b
  failed : a ≠ 16 → Full sb z.disk ∨ MAXFILE * BSIZE < 16 * s + 16

theorem aligned (s : Nat) : 16 ≤ BSIZE - 16 * s % BSIZE := by
  simp only [BSIZE]
  omega

theorem writeLoop_entry (hl : Layout sb) (h : Good sb i x) (hmax : 16 * s + 16 ≤ MAXFILE * BSIZE) (mem : Nat → Byte) :
    Wp (writeLoop sb (.kernel mem) 16 16 0 (16 * s) 0) x
      (fun r y => (r = 0 ∨ r = 16) ∧ (∀ k, Room sb x.disk (k + 2) → Room sb y.disk k) ∧
        (16 * s / BSIZE * BSIZE < x.ip.size.toNat →
          r = 16 ∧ ∀ b, b < sb.size → inUse sb y.disk b = inUse sb x.disk b)) fun _ => False := by
  have hchunk : min (16 - 0) (BSIZE - 16 * s % BSIZE) = 16 := Nat.min_eq_left (aligned s)
  have hbn : 16 * s / BSIZE < MAXFILE := (Nat.div_lt_iff_lt_mul (by decide)).mpr (by omega)
  rw [writeLoop, if_pos (by decide)]
  dsimp only
  rw [hchunk]
  refine (writeChunk_spec hl h hbn (aligned s)).bind fun ok y hy => ?_
  cases ok with
  | false =>
    refine wp_pure ⟨.inl rfl, hy.room, fun hc => ?_⟩
    rcases hy.failed rfl with ⟨-, -, hmiss⟩ | hcopy
    · exact absurd hmiss (h.filled hc)
    · cases hcopy
  | true =>
    rw [if_pos rfl, writeLoop, if_neg (by decide)]
    exact wp_pure ⟨.inr rfl, hy.room, fun hc => ⟨rfl, hy.hit (h.filled hc)⟩⟩

theorem writei_entry (hl : Layout sb) (h : Good sb i x) (hs : 16 * s ≤ x.ip.size.toNat) (mem : Nat → Byte) :
    Wp (writei sb i (.kernel mem) 0 (16 * s) 16) x (EntryDone sb i s mem x) fun _ => False := by
  have hlt := MAXFILE_lt
  have hsize : x.ip.size.toNat < 2 ^ 32 := x.ip.size.isLt
  by_cases hmax : 16 * s + 16 ≤ MAXFILE * BSIZE
  · have hu : u32 (16 * s + 16) = 16 * s + 16 := u32_of_lt (by omega)
    rw [writei]
    refine wp_get_bind ?_
    rw [hu, if_neg (by omega), if_neg (by omega)]
    have hloop := writeLoop_spec (.kernel mem) 0 hl (show 16 - 0 ≤ 16 by decide)
      hmax h (Grows.refl sb i x) (Nat.zero_le _) trivial (fun _ => .inl rfl) (fun k hk hk' => by omega)
      (fun k => by rw [if_neg (by omega)])
    have hboth := (hloop.and (writeLoop_entry hl h hmax mem)).mono (fun _ _ => id) (fun _ hf => hf.1)
    refine hboth.bind ?_
    rintro r y ⟨hy, hr, hroom, hcovered⟩
    refine (writeDone hl hs hmax hy).imp ?_
    rintro a z ⟨rfl, hz, huse⟩
    obtain ⟨c, hc, hcont⟩ := hz.content
    obtain rfl : c = 0 := by
      rcases hc with ⟨hc, -⟩ | ⟨hcopy, -⟩
      · exact hc
      · cases hcopy
    obtain ⟨addrs, size, hip⟩ := hz.ip
    have hsize' := hz.size
    refine ⟨hz.good, fun _ => hz.synced, hz.others, ?_, ?_, ?_, ?_⟩
    · have htype : z.ip.type = x.ip.type := by rw [hip]
      have hmajor : z.ip.major = x.ip.major := by rw [hip]
      have hminor : z.ip.minor = x.ip.minor := by rw [hip]
      have hnlink : z.ip.nlink = x.ip.nlink := by rw [hip]
      have hbytes : (node z.ip z.disk).bytes = fun k => if k < max x.ip.size.toNat (16 * s + r) then
          (if 16 * s ≤ k ∧ k < 16 * s + r then mem (k - 16 * s) else content x.ip x.disk k) else 0 := by
        funext k
        change (if k < z.ip.size.toNat then content z.ip z.disk k else 0) = _
        rw [hcont k, hsize', Nat.zero_add]
        rfl
      rcases hr with rfl | rfl
      · rw [if_neg (by decide)]
        rw [Nat.add_zero, Nat.max_eq_left hs] at hbytes hsize'
        refine Node.ext htype hmajor hminor hnlink hsize' (hbytes.trans ?_)
        funext k
        rw [if_neg (c := 16 * s ≤ k ∧ k < 16 * s) (by omega)]
        rfl
      · rw [if_pos (show ((16 : Nat) : Int) = 16 from rfl)]
        refine Node.ext htype hmajor hminor hnlink hsize' (hbytes.trans ?_)
        funext k
        dsimp only [Node.put, node]
        by_cases hk : 16 * s ≤ k ∧ k < 16 * s + 16
        · rw [if_pos hk, if_pos hk, if_pos (lt_max_of_lt_right hk.2)]
        · rw [if_neg hk, if_neg hk]
          by_cases hk' : k < x.ip.size.toNat
          · rw [if_pos hk', if_pos (lt_max_of_lt_left hk')]
          · rw [if_neg hk', if_neg]
            rw [lt_max_iff]
            omega
    · exact fun k hk => (hroom k hk).congr fun b hb hfree => (huse b hb).trans hfree
    · intro hcov
      obtain ⟨rfl, hsame⟩ := hcovered hcov
      exact ⟨rfl, fun b hb => (huse b hb).trans (hsame b hb)⟩
    · intro ha
      refine .inl ?_
      rcases hz.short (by omega) with hfull | hcopy
      · exact hfull
      · cases hcopy
  · refine wp_of_ok (writei_refused (by omega) (by decide) (.inr (.inr (by omega)))) ?_
    refine ⟨h, id, fun j _ _ => Same.refl sb x.disk j, (if_neg (by decide)).symm, fun k hk => hk.mono (by omega), ?_,
      fun _ => .inr (by omega)⟩
    intro hcov
    have hb := blockAt_lt (h.filled hcov)
    simp only [MAXFILE, BSIZE, NDIRECT, NINDIRECT] at hmax hb
    omega

end AdaptiveXv6.EntryWrites
