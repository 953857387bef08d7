import AdaptiveXv6.FileCalls
import Mathlib.Data.Finset.Card

namespace AdaptiveXv6.WriteBudget

open Blocks Words Content Store Programs BlockMaps Allocation ByteArrays FileCalls

def indirect (x : Locked) : Nat := Inode.addr x.ip NDIRECT

def pending (x : Locked) : Nat := if indirect x = 0 then 1 else 0

/-- What was logged on the way from x to y is in M or is the indirect block, whose allocation pays for itself,
once. -/
structure Spends (x y : Locked) (c : Nat) (M : List Nat) : Prop where
  logged : ∃ L, y.disk.logged = L ++ x.disk.logged ∧ ∀ b ∈ L, b ∈ M ∨ b = indirect y ∧ indirect y ≠ 0
  cost : M.length + pending y ≤ c + pending x
  keeps : indirect x ≠ 0 → indirect y = indirect x

variable {sb : Superblock} {x y z : Locked} {c c' : Nat} {M N : List Nat}

theorem Spends.refl (x : Locked) (c : Nat) (h : M.length ≤ c) : Spends x x c M :=
  ⟨⟨[], rfl, fun _ hb => absurd hb List.not_mem_nil⟩, by omega, fun _ => rfl⟩

theorem Spends.trans (h : Spends x y c M) (h' : Spends y z c' N) : Spends x z (c + c') (M ++ N) where
  logged := by
    obtain ⟨L, hL, hin⟩ := h.logged
    obtain ⟨L', hL', hin'⟩ := h'.logged
    refine ⟨L' ++ L, by rw [hL', hL, List.append_assoc], ?_⟩
    intro b hb
    rcases List.mem_append.mp hb with hb | hb
    · exact (hin' b hb).imp_left (List.mem_append_right M)
    · rcases hin b hb with hb | ⟨hb, hne⟩
      · exact .inl (List.mem_append_left N hb)
      · rw [← h'.keeps hne] at hb hne
        exact .inr ⟨hb, hne⟩
  cost := by
    have := h.cost
    have := h'.cost
    rw [List.length_append]
    omega
  keeps hne := by
    have := h.keeps hne
    rw [h'.keeps (by rw [this]; exact hne), this]

theorem Spends.mono (h : Spends x y c M) (hc : c ≤ c') : Spends x y c' M :=
  ⟨h.logged, Nat.le_trans h.cost (Nat.add_le_add_right hc _), h.keeps⟩

theorem Spends.log (h : Spends x y c M) {b : Nat} (hb : b ∈ M ∨ b = indirect y ∧ indirect y ≠ 0) (v : Block) :
    Spends x { y with disk := y.disk.logWrite b v } c M where
  logged := by
    obtain ⟨L, hL, hin⟩ := h.logged
    refine ⟨b :: L, congrArg (b :: ·) hL, ?_⟩
    intro b' hb'
    rcases List.mem_cons.mp hb' with rfl | hb'
    · exact hb
    · exact hin b' hb'
  cost := h.cost
  keeps := h.keeps

theorem Spends.congr (h : Spends x y c M) (hlog : z.disk.logged = y.disk.logged)
    (hind : indirect z = indirect y) : Spends x z c M where
  logged := by
    rw [hlog, hind]
    exact h.logged
  cost := by
    rw [pending, hind]
    exact h.cost
  keeps hne := hind.trans (h.keeps hne)

section Bmap

variable {i k bn : Nat}

theorem grab_spends (x : Locked) (b : Nat) : Spends x { x with disk := grab sb x.disk b } 2 [b, sb.bblock b] := by
  refine ⟨⟨[b, sb.bblock b], rfl, fun _ h => .inl h⟩, Nat.le_refl _, fun _ => rfl⟩

theorem addrSlot_direct (h : Good sb i x) (hk : k < NDIRECT) :
    Wp (addrSlot sb k) x (fun a y => ∃ M, Spends x y 2 M ∧ (a ≠ 0 → a ∈ M)) fun _ => True := by
  rw [Wp, addrSlot]
  by_cases h₀ : Inode.addr x.ip k = 0
  · rw [if_pos h₀]
    rcases balloc_cases sb x.disk with ⟨hr, -⟩ | ⟨b, -, hfree, hr⟩
    · simp only [hr, if_true]
      exact ⟨[], .refl x 2 (by decide), fun h => absurd rfl h⟩
    · have hb₀ : b ≠ 0 := Nat.pos_iff_ne_zero.mp (Nat.lt_of_lt_of_le dataStart_pos (h.valid.held.lo_le hfree))
      have hsame : indirect ⟨Inode.setAddr x.ip k b, grab sb x.disk b⟩ = indirect x :=
        addr_setAddr_of_ne b (Nat.ne_of_gt hk)
      simp only [hr, if_neg hb₀]
      exact ⟨_, (grab_spends x b).congr rfl hsame, fun _ => List.mem_cons_self⟩
  · rw [if_neg h₀]
    exact ⟨[Inode.addr x.ip k], .refl x 2 (Nat.le_succ 1), fun _ => List.mem_singleton_self _⟩

theorem addrSlot_indirect (hl : Layout sb) (h : Good sb i x) :
    Wp (addrSlot sb NDIRECT) x (fun a y => a = indirect y ∧ ∃ M, Spends x y 0 M) fun _ => True := by
  rw [Wp, addrSlot]
  by_cases h₀ : Inode.addr x.ip NDIRECT = 0
  · rw [if_pos h₀]
    rcases balloc_cases sb x.disk with ⟨hr, -⟩ | ⟨b, hb, hfree, hr⟩
    · simp only [hr, if_true]
      exact ⟨h₀.symm, [], .refl x 0 (by decide)⟩
    · have hb₀ : b ≠ 0 := Nat.pos_iff_ne_zero.mp (Nat.lt_of_lt_of_le dataStart_pos (h.valid.held.lo_le hfree))
      have hb32 : b < 2 ^ 32 := Nat.lt_trans hb (Nat.lt_trans hl.size (by decide))
      simp only [hr, if_neg hb₀]
      have hnew : indirect ⟨Inode.setAddr x.ip NDIRECT b, grab sb x.disk b⟩ = b :=
        addr_setAddr_self (Nat.le_refl _) hb32
      refine ⟨hnew.symm, [sb.bblock b], ⟨[b, sb.bblock b], rfl, ?_⟩, ?_, fun hne => absurd h₀ hne⟩
      · rw [hnew]
        intro b' hb'
        rcases List.mem_cons.mp hb' with rfl | hb'
        · exact .inr ⟨rfl, hb₀⟩
        · exact .inl hb'
      · rw [pending, pending, hnew, if_neg hb₀, if_pos (show indirect x = 0 from h₀)]
        exact Nat.le_refl _
  · rw [if_neg h₀]
    exact ⟨rfl, [], .refl x 0 (by decide)⟩

theorem indirectSlot_spends (h : Good sb i x) (ha : indirect x ≠ 0) :
    Wp (indirectSlot sb (indirect x) k) x (fun a y => ∃ M, Spends x y 2 M ∧ (a ≠ 0 → a ∈ M)) fun _ => True := by
  rw [Wp, indirectSlot]
  by_cases h₀ : (word (x.disk.block (indirect x)) (4 * k)).toNat = 0
  · simp only [if_pos h₀]
    rcases balloc_cases sb x.disk with ⟨hr, -⟩ | ⟨b, -, hfree, hr⟩
    · simp only [hr, if_true]
      exact ⟨[], .refl x 2 (by decide), fun h => absurd rfl h⟩
    · have hb₀ : b ≠ 0 := Nat.pos_iff_ne_zero.mp (Nat.lt_of_lt_of_le dataStart_pos (h.valid.held.lo_le hfree))
      simp only [hr, if_neg hb₀]
      exact ⟨_, (grab_spends x b).log (.inr ⟨rfl, ha⟩) _, fun _ => List.mem_cons_self⟩
  · simp only [if_neg h₀]
    exact ⟨[_], .refl x 2 (Nat.le_succ 1), fun _ => List.mem_singleton_self _⟩

theorem bmap_spends (hl : Layout sb) (h : Good sb i x) :
    Wp (bmap sb bn) x (fun a y => ∃ M, Spends x y 2 M ∧ (a ≠ 0 → a ∈ M)) fun _ => True := by
  rw [bmap]
  refine wp_ite (fun hd => addrSlot_direct h hd) fun hd => ?_
  refine wp_ite (fun hk => ?_) fun _ => wp_throw trivial
  have hslot := (addrSlot_indirect hl h).and (addrSlot_spec hl h (Nat.le_refl NDIRECT))
  refine Wp.bind (hslot.mono (fun _ _ => id) fun _ _ => trivial) ?_
  rintro a y ⟨⟨rfl, M, hM⟩, hy⟩
  refine wp_ite (fun _ => wp_pure ⟨M, hM.mono (Nat.zero_le _), fun h => absurd rfl h⟩) fun ha => ?_
  refine (indirectSlot_spends hy.good ha).imp ?_
  rintro a z ⟨N, hN, hmem⟩
  refine ⟨M ++ N, (hM.trans hN).mono (by omega), fun h => List.mem_append_right M (hmem h)⟩

end Bmap

section Writes

variable {i m n off src : Nat} {source : Source}

def price (x : Locked) (bn : Nat) : Nat := if blockAt x.ip x.disk bn = 0 then 2 else 1

theorem writeChunk_spends (hl : Layout sb) (h : Good sb i x) :
    Wp (writeChunk sb source m off src) x (fun _ y => ∃ M, Spends x y (price x (off / BSIZE)) M) fun _ => True := by
  have hbmap : Wp (bmap sb (off / BSIZE)) x
      (fun a y => ∃ M, Spends x y (price x (off / BSIZE)) M ∧ (a ≠ 0 → a ∈ M)) fun _ => True := by
    rw [price]
    by_cases hmiss : blockAt x.ip x.disk (off / BSIZE) = 0
    · rw [if_pos hmiss]
      exact bmap_spends hl h
    · rw [if_neg hmiss]
      refine (FileReads.bmap_hit hl h hmiss).mono ?_ fun _ _ => trivial
      rintro a y ⟨rfl, -⟩
      exact ⟨[a], .refl y 1 (Nat.le_refl 1), fun _ => List.mem_singleton_self _⟩
  rw [writeChunk]
  refine hbmap.bind ?_
  rintro a y ⟨M, hM, hmem⟩
  refine wp_ite (fun _ => wp_pure ⟨M, hM⟩) fun ha => ?_
  refine wp_get_bind ?_
  dsimp only
  split
  · exact wp_modify_bind (wp_pure ⟨M, hM.log (.inl (hmem ha)) _⟩)
  · exact wp_modify_bind (wp_pure ⟨M, hM.congr rfl rfl⟩)

theorem price_le (x : Locked) (bn : Nat) : price x bn ≤ 2 := by
  rw [price]
  split <;> decide

theorem writeChunk_turn (hl : Layout sb) (h : Good sb i x) (hoff : off / BSIZE < MAXFILE)
    (hm : m ≤ BSIZE - off % BSIZE) :
    Wp (writeChunk sb source m off src) x
      (fun _ y => Good sb i y ∧ ∃ M, Spends x y (price x (off / BSIZE)) M) fun _ => True := by
  refine Wp.mono (Wp.and (FileWrites.writeChunk_spec hl h hoff hm) (writeChunk_spends hl h)) ?_ fun _ _ => trivial
  rintro _ y ⟨hdone, hspends⟩
  exact ⟨hdone.good, hspends⟩

def blocks (k : Nat) : Nat := (k + (BSIZE - 1)) / BSIZE

theorem writeLoop_aligned (hl : Layout sb) (h : Good sb i x) {turns tot : Nat} (hturns : n - tot ≤ turns)
    (hmax : off + (n - tot) ≤ MAXFILE * BSIZE) (hoff : off % BSIZE = 0 ∨ n ≤ tot) :
    Wp (writeLoop sb source n turns tot off src) x (fun _ y => ∃ M, Spends x y (2 * blocks (n - tot)) M)
      fun _ => True := by
  induction turns generalizing x tot off src with
  | zero => exact wp_pure ⟨[], .refl x _ (Nat.zero_le _)⟩
  | succ turns ih =>
    rw [writeLoop]
    by_cases hlt : tot < n
    · have haligned : off % BSIZE = 0 := by omega
      have hbn : off / BSIZE < MAXFILE := by
        refine (Nat.div_lt_iff_lt_mul (by decide)).mpr ?_
        omega
      rw [if_pos hlt]
      dsimp only
      generalize hm : min (n - tot) (BSIZE - off % BSIZE) = m
      have hpos : 0 < m := by
        simp only [BSIZE] at hm haligned
        omega
      have hblocks : blocks (n - tot) = 1 + blocks (n - (tot + m)) := by
        simp only [blocks, BSIZE] at hm haligned ⊢
        omega
      refine (writeChunk_turn hl h hbn (by omega)).bind ?_
      rintro goesOn y ⟨hgood, M, hM⟩
      have hM' := hM.mono (price_le x (off / BSIZE))
      split
      · refine (ih hgood (by omega) (by omega) ?_).imp ?_
        · simp only [BSIZE] at hm haligned ⊢
          omega
        · rintro _ z ⟨N, hN⟩
          exact ⟨M ++ N, (hM'.trans hN).mono (by omega)⟩
      · exact wp_pure ⟨M, hM'.mono (by omega)⟩
    · rw [if_neg hlt]
      exact wp_pure ⟨[], .refl x _ (Nat.zero_le _)⟩

-- The block in which an unaligned write begins is one of the file's.
theorem writeLoop_spends (hl : Layout sb) (h : Good sb i x) (hn : n ≤ maxChunk) (hoff : off ≤ x.ip.size.toNat)
    (hmax : off + n ≤ MAXFILE * BSIZE) :
    Wp (writeLoop sb source n n 0 off src) x (fun _ y => ∃ M, Spends x y 7 M) fun _ => True := by
  change n ≤ 3072 at hn
  by_cases haligned : off % BSIZE = 0
  · refine (writeLoop_aligned hl h (Nat.le_of_eq (Nat.sub_zero n)) hmax (.inl haligned)).imp ?_
    rintro _ y ⟨M, hM⟩
    refine ⟨M, hM.mono ?_⟩
    simp only [blocks, BSIZE]
    omega
  · cases n with
    | zero => exact wp_pure ⟨[], .refl x _ (Nat.zero_le _)⟩
    | succ n =>
      have hbn : off / BSIZE < MAXFILE := by
        refine (Nat.div_lt_iff_lt_mul (by decide)).mpr ?_
        omega
      have hprice : price x (off / BSIZE) = 1 := by
        refine if_neg (h.filled ?_)
        have := Nat.div_add_mod off BSIZE
        rw [Nat.mul_comm] at this
        omega
      rw [writeLoop, if_pos (Nat.succ_pos n)]
      dsimp only
      generalize hm : min (n + 1 - 0) (BSIZE - off % BSIZE) = m
      have hpos : 0 < m := by
        simp only [BSIZE] at hm
        omega
      refine (writeChunk_turn hl h hbn (by omega)).bind ?_
      rintro goesOn y ⟨hgood, M, hM⟩
      rw [hprice] at hM
      split
      · refine (writeLoop_aligned hl hgood (by omega) (by omega) ?_).imp ?_
        · simp only [BSIZE] at hm haligned ⊢
          omega
        · rintro _ z ⟨N, hN⟩
          refine ⟨M ++ N, (hM.trans hN).mono ?_⟩
          simp only [blocks, BSIZE] at hm haligned ⊢
          omega
      · exact wp_pure ⟨M, hM.mono (by decide)⟩

def Fits (x y : Locked) : Prop :=
  ∃ L, y.disk.logged = L ++ x.disk.logged ∧ L.toFinset.card ≤ LogDisk.MAXOPBLOCKS

theorem Fits.refl (x : Locked) : Fits x x := ⟨[], rfl, Nat.zero_le _⟩

theorem Spends.fits (h : Spends x y 7 M) (i : Nat) (w : Inode) :
    Fits x { ip := w, disk := setDinode sb y.disk i w } := by
  obtain ⟨L, hL, hin⟩ := h.logged
  refine ⟨sb.iblock i :: L, congrArg (sb.iblock i :: ·) hL, ?_⟩
  have hsub : (sb.iblock i :: L).toFinset ⊆ (sb.iblock i :: indirect y :: M).toFinset := by
    intro b hb
    simp only [List.mem_toFinset, List.mem_cons] at hb ⊢
    rcases hb with rfl | hb
    · exact .inl rfl
    · rcases hin b hb with hb | ⟨hb, -⟩
      · exact .inr (.inr hb)
      · exact .inr (.inl hb)
  have hlen : (sb.iblock i :: indirect y :: M).length ≤ 10 := by
    have hcost := h.cost
    have hpending : pending x ≤ 1 := by
      rw [pending]
      split <;> decide
    simp only [List.length_cons]
    omega
  exact Nat.le_trans (Finset.card_le_card hsub) (Nat.le_trans (List.toFinset_card_le _) hlen)

theorem Spends.iupdate_fits (h : Spends x y 7 M) (i : Nat) (hz : z.disk = y.disk) :
    Wp (iupdate sb i) z (fun _ w => Fits x w) fun _ => True := by
  have hfits : Fits x { ip := z.ip, disk := setDinode sb y.disk i z.ip } := h.fits i z.ip
  rw [← hz] at hfits
  exact wp_of_ok rfl hfits

theorem writei_fits (hl : Layout sb) (h : Good sb i x) (hn : n ≤ maxChunk) (hoff : off < 2 ^ 32) :
    Wp (writei sb i source src off n) x (fun _ y => Fits x y ∧ Good sb i y) fun _ => False := by
  have hn32 : n < 2 ^ 32 := Nat.lt_of_le_of_lt hn (by decide)
  by_cases hrefused : x.ip.size.toNat < off ∨ 2 ^ 32 ≤ off + n ∨ MAXFILE * BSIZE < off + n
  · exact wp_of_ok (FileWrites.writei_refused hoff hn32 hrefused) ⟨Fits.refl x, h⟩
  · have hsize : off ≤ x.ip.size.toNat := by omega
    have hmax : off + n ≤ MAXFILE * BSIZE := by omega
    have hlogged : Wp (writei sb i source src off n) x (fun _ y => Fits x y) fun _ => True := by
      have hu : u32 (off + n) = off + n := u32_of_lt (by omega)
      rw [writei]
      refine wp_get_bind ?_
      rw [hu, if_neg (by omega), if_neg (by omega)]
      refine (writeLoop_spends hl h hn hsize hmax).bind ?_
      rintro tot y ⟨M, hM⟩
      refine wp_modify_bind ?_
      refine Wp.bind (hM.iupdate_fits i ?_) fun _ _ hw => wp_pure hw
      split <;> rfl
    refine (hlogged.and (FileWrites.writei_spec source src hl h hsize hmax)).mono ?_ fun _ he => he.2
    rintro _ y ⟨hfits, r, -, hdone⟩
    exact ⟨hfits, hdone.good⟩

theorem filewriteOp_spec (hl : Layout sb) (h : Good sb i x) (f : File) (addr : Nat) (source : Source)
    (hn : n ≤ maxChunk) (hoff : f.off < 2 ^ 32) :
    Wp (filewriteOp sb i source f addr n) x (fun r y => Fits x y ∧ Good sb i y ∧ r.2.off < 2 ^ 32)
      fun _ => False := by
  rw [filewriteOp]
  refine (writei_fits hl h hn hoff).bind ?_
  rintro r y ⟨hfits, hgood⟩
  split
  · exact wp_pure ⟨hfits, hgood, Nat.mod_lt _ (by decide)⟩
  · exact wp_pure ⟨hfits, hgood, hoff⟩

/-- Between begin_op() and end_op() filewrite() keeps to the reservation in the log. -/
theorem filewriteOp_fits (hl : Layout sb) (h : Good sb i x) (f : File) (addr n : Nat) (source : Source)
    (hn : n ≤ maxChunk) (hoff : f.off ≤ x.ip.size.toNat) :
    Wp (filewriteOp sb i source f addr n) x
      (fun _ y => ∃ L, y.disk.logged = L ++ x.disk.logged ∧ L.toFinset.card ≤ LogDisk.MAXOPBLOCKS)
      fun _ => False := by
  have hsize : f.off < 2 ^ 32 := Nat.lt_of_le_of_lt hoff x.ip.size.isLt
  exact (filewriteOp_spec hl h f addr source hn hsize).imp fun _ _ hy => hy.1

theorem filewriteOp_fits_tiny :
    Wp (filewriteOp tinySuperblock 1 (.kernel fun _ => 7) ⟨true, true, 1⟩ 0 1500) tiny
      (fun _ y => ∃ L, y.disk.logged = L ++ [] ∧ L.toFinset.card ≤ 10) fun _ => False :=
  filewriteOp_fits tiny_layout tiny_good ⟨true, true, 1⟩ 0 1500 (.kernel fun _ => 7) (by decide) (by decide)

end Writes

end AdaptiveXv6.WriteBudget
