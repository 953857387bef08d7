import AdaptiveXv6.ByteArrays

namespace AdaptiveXv6.FileCalls

open MemLayout Bytes Blocks CopyOut Words Content Programs BlockMaps FileReads ByteArrays

structure File where
  readable : Bool
  writable : Bool
  off : Nat

variable (sb : Superblock)

/-- The stores to user memory, the result and the file. The signed count becomes the unsigned one of readi().
-/
def fileread (pages : Nat → Bool) (f : File) (addr : Nat) (n : Int) :
    LockedM (List (Nat × List Byte) × Int × File) :=
  if f.readable = false then pure ([], -1, f)
  else do
    let r ← readi sb (.user pages) addr f.off (u32OfInt n)
    if r.2 > 0 then pure (r.1, r.2, { f with off := u32 (f.off + r.2.toNat) })
    else pure (r.1, r.2, f)

def maxChunk : Nat := ((LogDisk.MAXOPBLOCKS - 1 - 1 - 2) / 2) * BSIZE

/-- filewrite() between begin_op() and end_op(), with n1 bytes to write from addr on. -/
def filewriteOp (i : Nat) (source : Source) (f : File) (addr n1 : Nat) : LockedM (Int × File) := do
  let r ← writei sb i source addr f.off n1
  if r > 0 then pure (r, { f with off := u32 (f.off + r.toNat) })
  else pure (r, f)

def filewriteLoop (i : Nat) (source : Source) (addr n : Nat) :
    Nat → Nat → File → LockedM (Nat × File × List (List Nat))
  | 0, k, f => pure (k, f, [])
  | turns + 1, k, f =>
    if k < n then do
      let n1 := min (n - k) maxChunk
      let x ← get
      let r ← filewriteOp sb i source f (u64 (addr + k)) n1
      let y ← get
      let op := y.disk.logged.take (y.disk.logged.length - x.disk.logged.length)
      if r.1 = n1 then do
        let rest ← filewriteLoop i source addr n turns (k + n1) r.2
        pure (rest.1, rest.2.1, op :: rest.2.2)
      else pure (k, r.2, [op])
    else pure (k, f, [])

def filewrite (i : Nat) (pages : Nat → Bool) (mem : Nat → Byte) (f : File) (addr : Nat) (n : Int) :
    LockedM (Int × File × List (List Nat)) :=
  if f.writable = false then pure (-1, f, [])
  else do
    let r ← filewriteLoop sb i (.user pages mem) addr n.toNat n.toNat 0 f
    pure (if (r.1 : Int) = n then n else -1, r.2)

section Reads

variable {sb} {x : Locked} {i n off dst : Nat}

theorem u32OfInt_neg {z : Int} (hlo : -2 ^ 31 ≤ z) (hz : z < 0) : (u32OfInt z : Int) = 2 ^ 32 + z := by
  rw [u32OfInt, BitVec.toNat_ofInt]
  omega

theorem readLength_bounds (size off n : Nat) :
    readLength size off n ≤ n ∧ (0 < readLength size off n → off + readLength size off n ≤ size) := by
  rw [readLength]
  split <;> omega

theorem readLength_signed {size : Nat} {z : Int} (hlo : -2 ^ 31 ≤ z) (hhi : z < 2 ^ 31)
    (hz : 0 ≤ z ∨ -z ≤ off ∨ size ≤ off) : (readLength size off (u32OfInt z) : Int) ≤ max z 0 := by
  by_cases hneg : z < 0
  · have hword := u32OfInt_neg hlo hneg
    have hzero : readLength size off (u32OfInt z) = 0 := by
      rw [readLength]
      split <;> omega
    rw [hzero]
    omega
  · have hword := u32OfInt_of_range (Int.not_lt.mp hneg) (by omega)
    have hle := (readLength_bounds size off (u32OfInt z)).1
    omega

theorem fileread_confined (hl : Layout sb) (h : Good sb i x) (pages : Nat → Bool) (f : File) (addr : Nat) (n : Int)
    (hoff : f.off < 2 ^ 32) {len : Nat} (hlen : readLength x.ip.size.toNat f.off (u32OfInt n) = len) :
    Wp (fileread sb pages f addr n) x (fun r y => y = x ∧ (r.2.1 = -1 ∨ r.2.1 = len) ∧ Confined r.1 addr len ∧
      (r.2.2.off : Int) = f.off + max r.2.1 0) fun _ => False := by
  rw [fileread]
  by_cases hr : f.readable = false
  · rw [if_pos hr]
    exact wp_pure ⟨rfl, .inl rfl, confined_nil, (Int.add_zero _).symm⟩
  · rw [if_neg hr]
    have hsize : x.ip.size.toNat < 2 ^ 32 := x.ip.size.isLt
    have hbound := (readLength_bounds x.ip.size.toNat f.off (u32OfInt n)).2
    have hread := readi_reads hl h (.user pages) addr hoff (BitVec.isLt (BitVec.ofInt 32 n))
    rw [show (BitVec.ofInt 32 n).toNat = u32OfInt n from rfl, hlen] at hread
    rw [hlen] at hbound
    refine Wp.bind_reads hread ?_
    intro r hreads
    have hr := hreads.result
    have hws := hreads.confined
    by_cases hpos : r.2 > 0
    · have hadvance : u32 (f.off + r.2.toNat) = f.off + r.2.toNat := u32_of_lt (by omega)
      rw [if_pos hpos, hadvance]
      refine wp_pure ⟨rfl, hr, hws, ?_⟩
      dsimp only
      omega
    · rw [if_neg hpos]
      refine wp_pure ⟨rfl, hr, hws, ?_⟩
      dsimp only
      omega

/-- A call keeps to its count unless the count is negative, adding it to the offset does not wrap, there is
something to read, and the first page can be written to. -/
theorem fileread_count (hl : Layout sb) (h : Good sb i x) (pages : Nat → Bool) (f : File) (addr : Nat) (n : Int)
    (hoff : f.off < 2 ^ 32) (hlo : -2 ^ 31 ≤ n) (hhi : n < 2 ^ 31) :
    Wp (fileread sb pages f addr n) x (fun r _ => r.2.1 ≤ max n 0 ∧ Confined r.1 addr (max n 0).toNat ∧
      (r.2.2.off : Int) = f.off + max r.2.1 0) (fun _ => False) ↔
    f.readable = false ∨ 0 ≤ n ∨ -n ≤ f.off ∨ x.ip.size.toNat ≤ f.off ∨ Dest.opens (.user pages) addr = false := by
  by_cases hn : 0 ≤ n ∨ -n ≤ f.off ∨ x.ip.size.toNat ≤ f.off
  · refine iff_of_true ?_ (by tauto)
    have hlen := readLength_signed hlo hhi hn
    refine (fileread_confined hl h pages f addr n hoff rfl).imp ?_
    rintro r y ⟨-, hr, hws, hadvance⟩
    exact ⟨by omega, hws.mono (Nat.le_refl _) (by omega), hadvance⟩
  · have hword := u32OfInt_neg hlo (by omega)
    have hread := readi_reads hl h (.user pages) addr hoff (show u32OfInt n < 2 ^ 32 by omega)
    have hlen : 0 < readLength x.ip.size.toNat f.off (u32OfInt n) := by
      rw [readLength, if_pos (by omega)]
      omega
    rw [fileread]
    by_cases hf : f.readable = false
    · rw [if_pos hf]
      exact iff_of_true (wp_pure ⟨by dsimp only; omega, confined_nil, (Int.add_zero _).symm⟩) (.inl hf)
    · rw [if_neg hf]
      cases hw : Dest.opens (.user pages) addr with
      | false =>
        refine iff_of_true (hread.bind_reads fun r hr => ?_) (by tauto)
        rw [hr.refused hlen hw, if_neg (by decide)]
        exact wp_pure ⟨by dsimp only; omega, confined_nil, (Int.add_zero _).symm⟩
      | true =>
        refine iff_of_false (fun hwp => ?_) (by simp [hf]; omega)
        -- the first store is not empty, and the range for the count is
        have hstored := hread.bind_reads (R := fun r _ => ∃ w ∈ r.1, w.1 = addr ∧ 0 < w.2.length)
          (f := fun r => if r.2 > 0 then pure (r.1, r.2, { f with off := u32 (f.off + r.2.toNat) })
            else pure (r.1, r.2, f)) fun r hr => by split <;> exact wp_pure (hr.first hlen hw)
        obtain ⟨r, y, hok, -, hws, -⟩ | ⟨_, -, hfalse⟩ := hwp.cases
        · obtain ⟨w, hmem, hfirst⟩ := hstored.of_ok hok
          have := hws w hmem
          omega
        · exact hfalse

theorem fileread_count_tiny :
    Wp (fileread tinySuperblock (fun _ => false) ⟨true, true, 0⟩ 4096 (-1)) tiny (fun r _ => r.2.1 ≤ max (-1) 0 ∧
      Confined r.1 4096 (max (-1) 0 : Int).toNat ∧ (r.2.2.off : Int) = (0 : Nat) + max r.2.1 0) fun _ => False :=
  (fileread_count tiny_layout tiny_good (fun _ => false) ⟨true, true, 0⟩ 4096 (-1) (by decide) (by decide)
    (by decide)).mpr (by decide)

theorem size_le (h : Good sb i x) : x.ip.size.toNat ≤ MAXFILE * BSIZE := by
  by_contra hlt
  exact Nat.lt_irrefl _ (blockAt_lt (h.filled (Nat.not_le.mp hlt)))

theorem fileread_negative (hl : Layout sb) (h : Good sb i x) {pages : Nat → Bool} {f : File} {addr : Nat} {n : Int}
    (hf : f.readable = true) (hlo : -2 ^ 31 ≤ n) (hn : (f.off : Int) < -n) (hsize : f.off < x.ip.size.toNat)
    (hpages : Dest.Accepts (.user pages) addr (u32OfInt n)) :
    Wp (fileread sb pages f addr n) x (fun r _ => r.2.1 = (x.ip.size.toNat - f.off : Nat)) fun _ => False := by
  have hword := u32OfInt_neg hlo (by omega)
  have hbound := size_le h
  simp only [MAXFILE, NDIRECT, NINDIRECT, BSIZE] at hbound
  have hread := readi_spec hl h (.user pages) addr (show f.off < 2 ^ 32 by omega) (show u32OfInt n < 2 ^ 32 by omega)
  rw [fileread, if_neg (by rw [hf]; decide)]
  refine Wp.bind_reads hread ?_
  intro r hr
  obtain ⟨hlen, -⟩ := hr (by omega) hpages
  rw [Nat.min_eq_right (by omega)] at hlen
  rw [if_pos (by omega)]
  exact wp_pure hlen

theorem tiny_pages : Dest.Accepts (.user fun _ => true) 4096 (u32OfInt (-1)) := by
  intro a _ ha
  have hword : u32OfInt (-1) = 4294967295 := rfl
  refine ⟨?_, rfl⟩
  rw [hword] at ha
  change a / 4096 * 4096 < 2 ^ 38
  omega

theorem fileread_all :
    Wp (fileread tinySuperblock (fun _ => true) ⟨true, true, 0⟩ 4096 (-1)) tiny (fun r _ => r.2.1 = 2)
      fun _ => False :=
  fileread_negative tiny_layout tiny_good rfl (by decide) (by decide) (by decide) tiny_pages

end Reads

end AdaptiveXv6.FileCalls
