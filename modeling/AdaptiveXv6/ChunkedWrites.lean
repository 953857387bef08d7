import AdaptiveXv6.ExactWrites
import AdaptiveXv6.WriteBudget

namespace AdaptiveXv6.ChunkedWrites

open Words Blocks Content Programs BlockMaps Allocation FileWrites ByteArrays ExactWrites FileCalls
open WriteBudget

variable {sb : Superblock} {x y z : Locked} {source : Source} {i k m n off src addr : Nat} {f g : File}

theorem exactly_append (h : Exactly source src off k x y) (h' : Exactly source (src + k) (off + k) m y z) :
    Exactly source src off (k + m) x z := by
  intro a
  rw [h' a, h a]
  by_cases hnew : off + k ≤ a ∧ a < off + k + m
  · rw [if_pos hnew, if_pos (by omega), show src + k + (a - (off + k)) = src + (a - off) by omega]
  · rw [if_neg hnew]
    exact if_congr (by omega) rfl rfl

/-- The first k bytes of a call are in the file. -/
structure Progress (sb : Superblock) (i : Nat) (source : Source) (addr : Nat) (f : File) (x : Locked) (k : Nat)
    (z : Locked) (g : File) : Prop where
  good : Good sb i z
  file : g = { f with off := f.off + k }
  size : z.ip.size.toNat = max x.ip.size.toNat (f.off + k)
  bytes : Exactly source addr f.off k x z
  others : ∀ j, j < sb.ninodes → j ≠ i → Same sb x.disk z.disk j

namespace Progress

theorem start (h : Good sb i x) (hoff : f.off ≤ x.ip.size.toNat) : Progress sb i source addr f x 0 x f :=
  ⟨h, rfl, by omega, fun a => (if_neg (by omega)).symm, fun j _ _ => Same.refl sb x.disk j⟩

theorem off_le (h : Progress sb i source addr f x k y g) : g.off ≤ y.ip.size.toNat := by
  rw [h.size, h.file]
  exact Nat.le_max_right ..

theorem append {r : Nat} (h : Progress sb i source addr f x k y g)
    (hz : WriteDone sb i source (addr + k) g.off n y r z) (hread : Source.Readable source (addr + k) n) :
    Progress sb i source addr f x (k + r) z { g with off := g.off + r } ∧ (r < n → Full sb z.disk) := by
  have hcopy : (eitherCopyin source (addr + k + r) (chunk n g.off r)).2 = true := by
    have hle := hz.le
    exact eitherCopyin_of_readable (hread.sub (Nat.le_add_right ..) (by rw [chunk]; omega))
  have hfile := h.file
  subst hfile
  obtain ⟨c, hc, hcont⟩ := hz.content
  obtain rfl : c = 0 := (hc.resolve_right fun hfail => Bool.false_ne_true (hfail.1.symm.trans hcopy)).1
  refine ⟨⟨hz.good, by rw [Nat.add_assoc], ?_, exactly_append h.bytes hcont, fun j hj hji => ?_⟩, fun hr => ?_⟩
  · rw [hz.size, h.size]
    dsimp only
    omega
  · exact (h.others j hj hji).trans (hz.others j hj hji)
  · exact (hz.short hr).resolve_right (by rw [hcopy]; exact Bool.noConfusion)

/-- One transaction of the call. A chunk beyond the largest file is refused as a whole. -/
theorem op (hl : Layout sb) (h : Progress sb i source addr f x k y g) (hn : 0 < n) (hle : n ≤ maxChunk)
    (hread : Source.Readable source (addr + k) n) :
    Wp (filewriteOp sb i source g (addr + k) n) y (fun r z => ∃ m ≤ n, (r.1 = n ↔ m = n) ∧
      Progress sb i source addr f x (k + m) z r.2 ∧
      (m < n → Full sb z.disk ∨ MAXFILE * BSIZE < f.off + (k + n))) fun _ => False := by
  have hlt := MAXFILE_lt
  rw [filewriteOp]
  by_cases hmax : g.off + n ≤ MAXFILE * BSIZE
  · refine (writei_spec source (addr + k) hl h.good h.off_le hmax).bind ?_
    rintro _ z ⟨r, rfl, hz⟩
    obtain ⟨hp, hfull⟩ := h.append hz hread
    have hr := hz.le
    have hu : u32 (g.off + (r : Int).toNat) = g.off + r := u32_of_lt (by omega)
    split
    · rw [hu]
      exact wp_pure ⟨r, hr, Int.ofNat_inj, hp, fun hm => .inl (hfull hm)⟩
    · obtain rfl : r = 0 := by omega
      exact wp_pure ⟨0, hr, Int.ofNat_inj, hp, fun hm => .inl (hfull hm)⟩
  · have hchunk : maxChunk < 2 ^ 32 := by decide
    have hoff : g.off < 2 ^ 32 := Nat.lt_of_le_of_lt h.off_le y.ip.size.isLt
    have hrefused : writei sb i source (addr + k) g.off n y = .ok (-1, y) :=
      writei_refused hoff (by omega) (.inr (.inr (Nat.lt_of_not_le hmax)))
    refine wp_bind (wp_of_ok hrefused (wp_pure ⟨0, Nat.zero_le _, ?_, h, fun _ => .inr ?_⟩))
    · change (-1 : Int) = n ↔ _
      omega
    · rw [h.file] at hmax
      dsimp only at hmax
      omega

theorem loop (hl : Layout sb) (haddr : addr + n ≤ 2 ^ 64) (hread : Source.Readable source addr n) {turns : Nat}
    (hturns : n - k ≤ turns) (hk : k ≤ n) (h : Progress sb i source addr f x k y g) :
    Wp (filewriteLoop sb i source addr n turns k g) y (fun r z => (∃ m ≤ n, (r.1 = n ↔ m = n) ∧
      Progress sb i source addr f x m z r.2.1 ∧ (m < n → Full sb z.disk ∨ MAXFILE * BSIZE < f.off + n)) ∧
      ∀ op ∈ r.2.2, op.toFinset.card ≤ LogDisk.MAXOPBLOCKS) fun _ => False := by
  induction turns generalizing y k g with
  | zero => exact wp_pure ⟨⟨k, hk, Iff.rfl, h, by omega⟩, List.forall_mem_nil _⟩
  | succ turns ih =>
    rw [filewriteLoop]
    by_cases hlt : k < n
    · have hu : u64 (addr + k) = addr + k := u64_of_lt (by omega)
      have hchunk : 0 < maxChunk := by decide
      rw [if_pos hlt, hu]
      dsimp only
      generalize hn₁ : min (n - k) maxChunk = n₁
      have hle : n₁ ≤ maxChunk := by omega
      have hfits := filewriteOp_spec hl h.good g (addr + k) source hle
        (Nat.lt_of_le_of_lt h.off_le y.ip.size.isLt)
      have hop := h.op hl (by omega) hle (hread.sub (Nat.le_add_right ..) (by omega))
      refine wp_get_bind (((hfits.and hop).mono (fun _ _ => id) fun _ he => he.1).bind ?_)
      rintro r z ⟨⟨⟨L, hL, hcard⟩, -, -⟩, m, hm, heq, hp, hfull⟩
      have hlogged : z.disk.logged.take (z.disk.logged.length - y.disk.logged.length) = L := by
        rw [hL, List.length_append, Nat.add_sub_cancel, List.take_left]
      refine wp_get_bind ?_
      rw [hlogged]
      refine wp_ite (fun hr => ?_) fun hr => ?_
      · rw [heq.mp hr] at hp
        refine (ih (by omega) (by omega) hp).bind ?_
        rintro rest w ⟨hrest, hops⟩
        exact wp_pure ⟨hrest, List.forall_mem_cons.mpr ⟨hcard, hops⟩⟩
      · have hm' : m < n₁ := Nat.lt_of_le_of_ne hm fun h => hr (heq.mpr h)
        have hfull' := (hfull hm').imp_right fun hbig => Nat.lt_of_lt_of_le hbig (show _ ≤ f.off + n by omega)
        exact wp_pure ⟨⟨k + m, by omega, by omega, hp, fun _ => hfull'⟩, List.forall_mem_singleton.mpr hcard⟩
    · rw [if_neg hlt]
      exact wp_pure ⟨⟨k, hk, Iff.rfl, h, fun hm => absurd hm hlt⟩, List.forall_mem_nil _⟩

end Progress

/-- If nobody else writes in between, a write in chunks is one write, as far as there are blocks, and each
chunk keeps to its log reservation. The offset is behind the last byte written also where the call fails. -/
theorem filewrite_chunked (hl : Layout sb) (h : Good sb i x) (pages : Nat → Bool) (mem : Nat → Bytes.Byte)
    (hf : f.writable = true) (hoff : f.off ≤ x.ip.size.toNat) (haddr : addr + n ≤ 2 ^ 64)
    (hread : Source.Readable (.user pages mem) addr n) :
    Wp (filewrite sb i pages mem f addr n) x (fun r z => ∃ k ≤ n, r.1 = (if k = n then (n : Int) else -1) ∧
      (k < n → Full sb z.disk ∨ MAXFILE * BSIZE < f.off + n) ∧ r.2.1 = { f with off := f.off + k } ∧
      contents z.ip z.disk = splice (contents x.ip x.disk) f.off (taken (.user pages mem) addr k) ∧
      (∀ j, j < sb.ninodes → j ≠ i → Same sb x.disk z.disk j) ∧ Good sb i z ∧
      ∀ op ∈ r.2.2, op.toFinset.card ≤ LogDisk.MAXOPBLOCKS) fun _ => False := by
  rw [filewrite, if_neg (by rw [hf]; exact Bool.noConfusion), Int.toNat_natCast]
  refine (Progress.loop hl haddr hread (Nat.sub_le ..) (Nat.zero_le n) (.start h hoff)).bind ?_
  rintro r z ⟨⟨k, hk, heq, hp, hfull⟩, hops⟩
  refine wp_pure ⟨k, hk, ?_, hfull, hp.file, contents_written hoff hp.size hp.bytes, hp.others, hp.good, hops⟩
  exact if_congr (Int.ofNat_inj.trans heq) rfl rfl

theorem filewrite_chunked_tiny : ∃ r z,
    filewrite tinySuperblock 1 (fun _ => true) (fun _ => 7) ⟨true, true, 1⟩ 0 4000 tiny = .ok (r, z) ∧
      r.1 = 4000 ∧ r.2.1.off = 4001 ∧ r.2.2.length = 2 ∧
      contents z.ip z.disk = splice (contents tiny.ip tiny.disk) 1 (taken (.user (fun _ => true) fun _ => 7) 0 4000) := by
  obtain ⟨r, z, hrun, hret, hops⟩ : ∃ r z,
      filewrite tinySuperblock 1 (fun _ => true) (fun _ => 7) ⟨true, true, 1⟩ 0 4000 tiny = .ok (r, z) ∧
        r.1 = 4000 ∧ r.2.2.length = 2 := ⟨_, _, rfl, rfl, rfl⟩
  obtain ⟨k, -, hr, -, hfile, hcontents, -⟩ := (filewrite_chunked (n := 4000) tiny_layout tiny_good (fun _ => true)
    (fun _ => 7) rfl (by decide) (by decide) fun _ _ _ => rfl).of_ok hrun
  have hk : k = 4000 := by
    by_contra hne
    rw [hret, if_neg hne] at hr
    cases hr
  subst hk
  exact ⟨r, z, hrun, hret, by rw [hfile], hops, hcontents⟩

end AdaptiveXv6.ChunkedWrites
