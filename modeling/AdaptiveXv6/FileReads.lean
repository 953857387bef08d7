import AdaptiveXv6.Allocation

namespace AdaptiveXv6.FileReads

open MemLayout Bytes Blocks CopyOut Words Content Programs BlockMaps Allocation

variable {sb : Superblock} {d : Store} {x : Locked} {i k m n off dst : Nat}

theorem blockAt_lt {x : Inode} {bn : Nat} (h : blockAt x d bn ≠ 0) : bn < MAXFILE := by
  by_contra hge
  have hge' : MAXFILE ≤ bn := Nat.le_of_not_lt hge
  have hd : ¬bn < NDIRECT := by
    simp only [MAXFILE] at hge'
    omega
  rw [blockAt, slotOf, if_neg hd, ptr, if_neg (by omega), if_neg (by omega)] at h
  exact h rfl

theorem bmap_hit {bn : Nat} (hl : Layout sb) (h : Good sb i x) (hbn : blockAt x.ip x.disk bn ≠ 0) :
    Wp (bmap sb bn) x (fun a y => y = x ∧ a = blockAt x.ip x.disk bn) fun _ => False := by
  refine (bmap_spec hl h (blockAt_lt hbn)).imp fun a y hy => ?_
  have hyx := hy.hit hbn
  rw [hyx] at hy
  exact ⟨hyx, hy.found⟩

theorem content_within {x : Inode} (h : blockAt x d (off / BSIZE) ≠ 0) (hk : k < BSIZE - off % BSIZE) :
    content x d (off + k) = d.block (blockAt x d (off / BSIZE)) (off % BSIZE + k) := by
  have hdiv : (off + k) / BSIZE = off / BSIZE := by
    simp only [BSIZE] at hk ⊢
    omega
  have hmod : (off + k) % BSIZE = off % BSIZE + k := by
    simp only [BSIZE] at hk ⊢
    omega
  rw [content, hdiv, hmod, if_neg h]

def Dest.Accepts : Dest → Nat → Nat → Prop
  | .kernel, _, _ => True
  | .user writable, dst, len => CopyOut.Accepts writable dst len

theorem Dest.Accepts.sub {dest : Dest} {a len : Nat} (h : Dest.Accepts dest dst len) (ha : dst ≤ a)
    (hlen : a + n ≤ dst + len) : Dest.Accepts dest a n := by
  cases dest with
  | kernel => trivial
  | user writable => exact fun c hc hc' => h c (by omega) (by omega)

theorem eitherCopyout_stores {dest : Dest} {s : List Byte} (h : Dest.Accepts dest dst s.length) (mem : Nat → Byte) :
    (eitherCopyout dest dst s).2 = 0 ∧ stores mem (eitherCopyout dest dst s).1 = store mem (dst, s) := by
  cases dest with
  | kernel => exact ⟨rfl, rfl⟩
  | user writable => exact copyout_stores h mem

theorem eitherCopyout_confined (dest : Dest) (dst : Nat) (s : List Byte) :
    Confined (eitherCopyout dest dst s).1 dst s.length := by
  cases dest with
  | kernel => exact confined_cons (Nat.le_refl _) (Nat.le_refl _) confined_nil
  | user pages => exact (copyoutLoop_stores (Nat.le_refl _)).2.1

/-- The first byte can be stored. -/
def Dest.opens : Dest → Nat → Bool
  | .kernel, _ => true
  | .user pages, dst => pageOk pages (dst / PGSIZE * PGSIZE)

theorem eitherCopyout_first (dest : Dest) (dst : Nat) {s : List Byte} (hs : 0 < s.length) :
    (Dest.opens dest dst = false → eitherCopyout dest dst s = ([], -1)) ∧
    (Dest.opens dest dst = true → ∃ w ∈ (eitherCopyout dest dst s).1, w.1 = dst ∧ 0 < w.2.length) := by
  cases dest with
  | kernel => exact ⟨nofun, fun _ => ⟨_, List.mem_singleton_self _, rfl, hs⟩⟩
  | user pages => exact copyout_first pages dst hs

def delivered (x : Locked) (off n : Nat) : List Byte := image (fun k => content x.ip x.disk (off + k)) n

/-- What a read of len bytes leaves that returns n unless a copy fails. -/
structure Reads (dest : Dest) (dst : Nat) (x : Locked) (off len : Nat) (n : Int)
    (r : List (Nat × List Byte) × Int) : Prop where
  result : r.2 = -1 ∨ r.2 = n
  confined : Confined r.1 dst len
  accepted : Dest.Accepts dest dst len → r.2 = n ∧ ∀ mem, stores mem r.1 = store mem (dst, delivered x off len)
  refused : 0 < len → Dest.opens dest dst = false → r = ([], -1)
  first : 0 < len → Dest.opens dest dst = true → ∃ w ∈ r.1, w.1 = dst ∧ 0 < w.2.length

namespace Reads

variable {dest : Dest} {len : Nat} {z : Int}

theorem nil (dest : Dest) (dst : Nat) (x : Locked) (off : Nat) (z : Int) : Reads dest dst x off 0 z ([], z) :=
  ⟨.inr rfl, confined_nil, fun _ => ⟨rfl, fun mem => (store_nil mem dst).symm⟩, nofun, nofun⟩

theorem fail (hm : 0 < m) (hle : m ≤ len) (h : (eitherCopyout dest dst (delivered x off m)).2 = -1) :
    Reads dest dst x off len z ((eitherCopyout dest dst (delivered x off m)).1, -1) := by
  have hlen : (delivered x off m).length = m := length_image ..
  obtain ⟨hrefused, hfirst⟩ := eitherCopyout_first dest dst (hlen ▸ hm)
  refine ⟨.inl rfl, ?_, fun hacc => ?_, fun _ hw => by rw [hrefused hw], fun _ hw => hfirst hw⟩
  · exact (eitherCopyout_confined dest dst _).mono (Nat.le_refl _) (by rw [hlen]; omega)
  · have hok := eitherCopyout_stores (s := delivered x off m)
      (hacc.sub (Nat.le_refl _) (by rw [hlen]; omega)) (fun _ => 0)
    rw [hok.1] at h
    cases h

theorem next {r : List (Nat × List Byte) × Int} (hm : 0 < m) (hle : m ≤ len)
    (h : ¬(eitherCopyout dest dst (delivered x off m)).2 = -1)
    (hrest : Reads dest (dst + m) x (off + m) (len - m) z r) :
    Reads dest dst x off len z ((eitherCopyout dest dst (delivered x off m)).1 ++ r.1, r.2) := by
  have hlen : (delivered x off m).length = m := length_image ..
  obtain ⟨hrefused, hfirst⟩ := eitherCopyout_first dest dst (hlen ▸ hm)
  refine ⟨hrest.result, .append ?_ (hrest.confined.mono (by omega) (by omega)), fun hacc => ?_,
    fun _ hw => absurd (congrArg Prod.snd (hrefused hw)) h, fun _ hw => ?_⟩
  · exact (eitherCopyout_confined dest dst _).mono (Nat.le_refl _) (by rw [hlen]; omega)
  · have hok := @eitherCopyout_stores dst _ (delivered x off m) (hacc.sub (Nat.le_refl _) (by rw [hlen]; omega))
    obtain ⟨hr, hst⟩ := hrest.accepted (hacc.sub (by omega) (by omega))
    refine ⟨hr, fun mem => ?_⟩
    have hsplit : delivered x off len = delivered x off m ++ delivered x (off + m) (len - m) := by
      rw [show len = m + (len - m) by omega, delivered, image_add, Nat.add_sub_cancel_left]
      simp only [delivered, Nat.add_assoc]
    rw [stores_append, (hok mem).2, hst, hsplit, store_append, hlen]
  · obtain ⟨w, hmem, hw⟩ := hfirst hw
    exact ⟨w, List.mem_append_left _ hmem, hw⟩

end Reads

variable (hl : Layout sb) (h : Good sb i x) (dest : Dest)

include hl h dest

theorem readLoop_spec {turns tot : Nat} (htot : tot ≤ n)
    (hturns : n - tot ≤ turns) (hsize : off + (n - tot) ≤ x.ip.size.toNat) :
    Wp (readLoop sb dest n turns tot off dst) x (fun r y => y = x ∧ Reads dest dst x off (n - tot) n r)
      fun _ => False := by
  induction turns generalizing tot off dst with
  | zero =>
    obtain rfl : tot = n := by omega
    rw [Nat.sub_self]
    exact wp_pure ⟨rfl, .nil ..⟩
  | succ turns ih =>
    rw [readLoop]
    by_cases hlt : tot < n
    · have hmod : off % BSIZE < BSIZE := Nat.mod_lt _ (by decide)
      have hblock : off / BSIZE * BSIZE < x.ip.size.toNat := by
        have := Nat.div_mul_le_self off BSIZE
        omega
      have hbn := h.filled hblock
      rw [if_pos hlt]
      refine (bmap_hit hl h hbn).bind_reads fun a ha => ?_
      subst ha
      rw [if_neg hbn]
      refine wp_get_bind ?_
      generalize hm : min (n - tot) (BSIZE - off % BSIZE) = m
      -- the bytes of one turn are those of the file
      have hchunk : image (fun k => x.disk.block (blockAt x.ip x.disk (off / BSIZE)) (off % BSIZE + k)) m =
          delivered x off m := by
        refine image_eq_iff.mpr fun k hk => ?_
        exact (content_within hbn (by omega)).symm
      simp only [hchunk]
      refine wp_ite (fun hfail => wp_pure ⟨rfl, .fail (by omega) (by omega) hfail⟩) fun hok => ?_
      refine Wp.bind_reads (ih (show tot + m ≤ n by omega) (by omega) (by omega)) fun r hrest => ?_
      rw [← Nat.sub_sub] at hrest
      exact wp_pure ⟨rfl, hrest.next (by omega) (by omega) hok⟩
    · rw [if_neg hlt]
      obtain rfl : tot = n := by omega
      rw [Nat.sub_self]
      exact wp_pure ⟨rfl, .nil ..⟩

/-- How many bytes readi() goes for. -/
def readLength (size off n : Nat) : Nat := if off + n < 2 ^ 32 then min (off + n) size - off else 0

theorem readi_reads (dst : Nat) (hoff : off < 2 ^ 32) (hn : n < 2 ^ 32) :
    Wp (readi sb dest dst off n) x (fun r y => y = x ∧
      Reads dest dst x off (readLength x.ip.size.toNat off n) (readLength x.ip.size.toNat off n) r)
      fun _ => False := by
  rw [readi]
  refine wp_get_bind ?_
  dsimp only
  by_cases hout : off > x.ip.size.toNat ∨ u32 (off + n) < off
  · have hzero : readLength x.ip.size.toNat off n = 0 := by
      rw [readLength]
      split
      · rename_i hno
        rw [u32_of_lt hno] at hout
        omega
      · rfl
    rw [if_pos hout, hzero]
    exact wp_pure ⟨rfl, .nil ..⟩
  · have hno : off + n < 2 ^ 32 := by
      by_contra hov
      have : u32 (off + n) = off + n - 2 ^ 32 := by
        rw [u32]
        omega
      omega
    have hlen : (if off + n > x.ip.size.toNat then x.ip.size.toNat - off else n) =
        readLength x.ip.size.toNat off n := by
      rw [readLength, if_pos hno]
      rw [u32_of_lt hno] at hout
      split <;> omega
    rw [if_neg hout, u32_of_lt hno, hlen]
    exact readLoop_spec (n := readLength x.ip.size.toNat off n) hl h dest (Nat.zero_le _) (Nat.le_refl _)
      (by rw [readLength, if_pos hno]; omega)

theorem readi_spec (dst : Nat) (hoff : off < 2 ^ 32) (hn : n < 2 ^ 32) : Wp (readi sb dest dst off n) x
      (fun r y => y = x ∧ (off + n < 2 ^ 32 → Dest.Accepts dest dst n →
        r.2 = (min (off + n) x.ip.size.toNat - off : Nat) ∧
        ∀ mem, stores mem r.1 = store mem (dst, delivered x off (min (off + n) x.ip.size.toNat - off))))
      fun _ => False := by
  refine (readi_reads hl h dest dst hoff hn).imp fun r y hy => ⟨hy.1, fun hno hacc => ?_⟩
  have hr := hy.2.accepted
  rw [readLength, if_pos hno] at hr
  exact hr (hacc.sub (Nat.le_refl _) (by omega))

end AdaptiveXv6.FileReads
