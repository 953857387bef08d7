import AdaptiveXv6.BlockMaps

namespace AdaptiveXv6.Allocation

open Blocks Content Store Programs BlockMaps Function

variable {sb : Superblock} {d d' : Store} {b c i j : Nat}

section Balloc

def grab (sb : Superblock) (d : Store) (b : Nat) : Store :=
  (d.logWrite (sb.bblock b) (setBit (b % BPB) (d.block (sb.bblock b)))).logWrite b fun _ => 0

def Full (sb : Superblock) (d : Store) : Prop := ∀ b, b < sb.size → inUse sb d b = true

theorem balloc_cases (sb : Superblock) (d : Store) : (balloc sb d = (0, d) ∧ Full sb d) ∨
    ∃ b, b < sb.size ∧ inUse sb d b = false ∧ balloc sb d = (b, grab sb d b) := by
  rw [balloc]
  cases hf : (List.range sb.size).find? fun b => !inUse sb d b with
  | none =>
    refine .inl ⟨rfl, ?_⟩
    intro b hb
    simpa using List.find?_eq_none.mp hf b (List.mem_range.mpr hb)
  | some b =>
    have hb := List.mem_range.mp (List.mem_of_find?_eq_some hf)
    have hfree : inUse sb d b = false := by simpa using List.find?_some hf
    exact .inr ⟨b, hb, hfree, rfl⟩

theorem block_grab_self (d : Store) (b : Nat) : (grab sb d b).block b = fun _ => 0 := block_logWrite_self ..

theorem block_grab_of_ne (hb : c ≠ b) (hc : c ≠ sb.bblock b) : (grab sb d b).block c = d.block c := by
  rw [grab, block_logWrite_of_ne hb, block_logWrite_of_ne hc]

theorem dinode_grab (hl : Layout sb) (hb : dataStart sb ≤ b) (hj : j < sb.ninodes) :
    dinode sb (grab sb d b) j = dinode sb d j := by
  have h := iblock_lt hl hj
  have h' := iblock_lt_dataStart hl hj
  have hmap := @bmapstart_le sb b
  exact dinode_congr (block_grab_of_ne (by omega) (by omega))

theorem inUse_grab (hb : dataStart sb ≤ b) (hc : c < sb.size) :
    inUse sb (grab sb d b) c = update (inUse sb d) b true c := by
  have hne : sb.bblock c ≠ b := by
    have := bblock_lt hc
    omega
  rw [inUse, grab, block_logWrite_of_ne hne]
  by_cases h : sb.bblock c = sb.bblock b
  · rw [h, block_logWrite_self, bit_setBit]
    by_cases hcb : c = b
    · rw [hcb, update_self, decide_eq_true rfl, Bool.true_or]
    · rw [update_of_ne hcb, decide_eq_false (fun hm => hcb ((bblock_eq h).mp hm)), Bool.false_or, inUse, h]
  · have hcb : c ≠ b := by
      rintro rfl
      exact h rfl
    rw [block_logWrite_of_ne h, update_of_ne hcb, inUse]

end Balloc

section Growth

variable {x x' : Locked}

structure Grows (sb : Superblock) (i : Nat) (x x' : Locked) : Prop where
  ip : ∃ addrs, x'.ip = { x.ip with addrs := addrs }
  keeps : ∀ bn, blockAt x.ip x.disk bn ≠ 0 → blockAt x'.ip x'.disk bn = blockAt x.ip x.disk bn
  own : dinode sb x'.disk i = dinode sb x.disk i
  others : ∀ j, j < sb.ninodes → j ≠ i → Same sb x.disk x'.disk j

namespace Grows

theorem refl (sb : Superblock) (i : Nat) (x : Locked) : Grows sb i x x :=
  ⟨⟨x.ip.addrs, rfl⟩, fun _ _ => rfl, rfl, fun j _ _ => Same.refl sb x.disk j⟩

theorem trans {y : Locked} (h : Grows sb i x x') (h' : Grows sb i x' y) : Grows sb i x y where
  ip := by
    obtain ⟨a, ha⟩ := h.ip
    obtain ⟨a', ha'⟩ := h'.ip
    exact ⟨a', by rw [ha', ha]⟩
  keeps bn hbn := by
    have h₁ := h.keeps bn hbn
    rw [← h₁]
    exact h'.keeps bn (by rw [h₁]; exact hbn)
  own := h'.own.trans h.own
  others j hj hji := (h.others j hj hji).trans (h'.others j hj hji)

theorem size (h : Grows sb i x x') : x'.ip.size = x.ip.size := by
  obtain ⟨a, ha⟩ := h.ip
  rw [ha]

theorem blockAt_ne (h : Grows sb i x x') {bn : Nat} (hbn : blockAt x.ip x.disk bn ≠ 0) :
    blockAt x'.ip x'.disk bn ≠ 0 := by
  rw [h.keeps bn hbn]
  exact hbn

end Grows

end Growth

section Room

def Room (sb : Superblock) (d : Store) (n : Nat) : Prop :=
  ∃ l : List Nat, l.Nodup ∧ n ≤ l.length ∧ ∀ b ∈ l, b < sb.size ∧ inUse sb d b = false

theorem Room.zero (sb : Superblock) (d : Store) : Room sb d 0 := ⟨[], List.nodup_nil, Nat.zero_le _, by simp⟩

theorem Room.mono {m n : Nat} (h : Room sb d n) (hmn : m ≤ n) : Room sb d m := by
  obtain ⟨l, hnd, hlen, hl⟩ := h
  exact ⟨l, hnd, Nat.le_trans hmn hlen, hl⟩

theorem Room.congr {n : Nat} (h : Room sb d n)
    (huse : ∀ b, b < sb.size → inUse sb d b = false → inUse sb d' b = false) : Room sb d' n := by
  obtain ⟨l, hnd, hlen, hl⟩ := h
  exact ⟨l, hnd, hlen, fun b hb => ⟨(hl b hb).1, huse b (hl b hb).1 (hl b hb).2⟩⟩

theorem Room.take {n : Nat} (h : Room sb d (n + 1))
    (huse : ∀ c, c < sb.size → inUse sb d' c = update (inUse sb d) b true c) : Room sb d' n := by
  obtain ⟨l, hnd, hlen, hl⟩ := h
  refine ⟨l.erase b, hnd.erase b, ?_, ?_⟩
  · have := List.length_erase_le (a := b) (l := l)
    have := List.le_length_erase (a := b) (l := l)
    omega
  · intro c hc
    obtain ⟨hcb, hc⟩ := hnd.mem_erase_iff.mp hc
    rw [huse c (hl c hc).1, update_of_ne hcb]
    exact hl c hc

end Room

section Bmap

variable {x x' : Locked} {a k s : Nat}

theorem addr_setAddr_self {x : Inode} (hk : k ≤ NDIRECT) (ha : a < 2 ^ 32) :
    Inode.addr (Inode.setAddr x k a) k = a := by
  have hk' : k < NDIRECT + 1 := Nat.lt_succ_of_le hk
  simp only [Inode.addr, Inode.setAddr, dif_pos hk', if_pos, BitVec.toNat_ofNat, Nat.mod_eq_of_lt ha]

theorem addr_setAddr_of_ne {x : Inode} {k k' : Nat} (a : Nat) (h : k' ≠ k) :
    Inode.addr (Inode.setAddr x k a) k' = Inode.addr x k' := by
  simp only [Inode.addr, Inode.setAddr, if_neg h]

structure Allocates (sb : Superblock) (i s cost : Nat) (x : Locked) (a : Nat) (x' : Locked) : Prop where
  good : Good sb i x'
  grows : Grows sb i x x'
  content : content x'.ip x'.disk = content x.ip x.disk
  found : a = ptr x'.ip x'.disk s
  full : a = 0 → Full sb x'.disk
  hit : ptr x.ip x.disk s ≠ 0 → x' = x
  room : ∀ n, Room sb x.disk (n + cost) → Room sb x'.disk n

namespace Allocates

theorem none (h : Good sb i x) (hs : ptr x.ip x.disk s = 0) (hfull : Full sb x.disk) (cost : Nat) :
    Allocates sb i s cost x 0 x :=
  ⟨h, Grows.refl sb i x, rfl, hs.symm, fun _ => hfull, fun _ => rfl, fun _ hn => hn.mono (Nat.le_add_right ..)⟩

theorem found_already (h : Good sb i x) (hs : ptr x.ip x.disk s ≠ 0) (cost : Nat) :
    Allocates sb i s cost x (ptr x.ip x.disk s) x :=
  ⟨h, Grows.refl sb i x, rfl, rfl, fun h₀ => absurd h₀ hs, fun _ => rfl, fun _ hn => hn.mono (Nat.le_add_right ..)⟩

end Allocates

theorem attach {y : Locked} (hl : Layout sb) (h : Good sb i x) (hs : ptr x.ip x.disk s = 0) (hb : b < sb.size)
    (hfree : inUse sb x.disk b = false) (hip : ∃ addrs, y.ip = { x.ip with addrs := addrs })
    (hdinode : ∀ j, j < sb.ninodes → dinode sb y.disk j = dinode sb x.disk j)
    (huse : ∀ c, c < sb.size → inUse sb y.disk c = update (inUse sb x.disk) b true c)
    (hptr : ∀ s', ptr y.ip y.disk s' = update (ptr x.ip x.disk) s b s')
    (hblock : ∀ c, dataStart sb ≤ c → c ≠ b → c ≠ Inode.addr x.ip NDIRECT → y.disk.block c = x.disk.block c)
    (hzero : y.disk.block b = fun _ => 0) : Allocates sb i s 1 x b y := by
  have hlo := h.valid.held.lo_le hfree
  have hb₀ : b ≠ 0 := Nat.pos_iff_ne_zero.mp (Nat.lt_of_lt_of_le dataStart_pos hlo)
  have hfree' : ∀ s', ptr x.ip x.disk s' ≠ b := by
    rintro s' rfl
    rw [h.inUse_ptr hb₀] at hfree
    cases hfree
  have htype : y.ip.type = x.ip.type ∧ y.ip.size = x.ip.size := by
    obtain ⟨a, ha⟩ := hip
    rw [ha]
    exact ⟨rfl, rfl⟩
  have hsame : ∀ j, j < sb.ninodes → j ≠ i → Same sb x.disk y.disk j := by
    intro j hj hji
    refine h.same (fun j hj _ => hdinode j hj) ?_ hj hji
    intro c hc hused hown
    refine hblock c hc ?_ ?_
    · rintro rfl
      rw [hused] at hfree
      cases hfree
    · rw [← ptr_indirect x.ip x.disk]
      exact (hown NDIRECT).symm
  have hkeeps : ∀ bn, blockAt x.ip x.disk bn ≠ 0 → blockAt y.ip y.disk bn = blockAt x.ip x.disk bn := by
    intro bn hbn
    rw [blockAt, blockAt, hptr]
    refine update_of_ne ?_ ..
    intro heq
    rw [blockAt, heq] at hbn
    exact hbn hs
  refine ⟨h.of_same (by rw [htype.1]; exact h.type) hsame ?_ ?_, ⟨hip, hkeeps, hdinode i h.lt, hsame⟩, ?_,
    by rw [hptr, update_self], fun h => absurd h hb₀, fun h' => absurd hs h', fun n hn => hn.take huse⟩
  · have hslot : slots sb (fam sb i x) x.disk (i, s) = 0 := by
      rw [slots_eq h.lt h.own_type, fam_self]
      exact hs
    refine (h.valid.held.attach hslot hfree dataStart_pos hb).congr hl.data ?_ huse
    rintro ⟨j, s'⟩
    rw [h.slots_eq_of_same (by rw [htype.1]; exact h.type) hsame]
    by_cases hji : j = i
    · subst hji
      rw [if_pos rfl, hptr s']
      by_cases hss : s' = s
      · rw [hss, update_self, update_self]
      · rw [update_of_ne hss, update_of_ne (fun heq => hss (Prod.mk.inj heq).2),
          slots_eq h.lt h.own_type, fam_self]
    · rw [if_neg hji, update_of_ne (fun heq => hji (Prod.mk.inj heq).1)]
  · intro bn hbn
    rw [htype.2] at hbn
    rw [hkeeps bn (h.filled hbn)]
    exact h.filled hbn
  · funext k
    rw [content, content]
    by_cases h₀ : blockAt x.ip x.disk (k / BSIZE) = 0
    · rw [if_pos h₀]
      by_cases hk : slotOf (k / BSIZE) = s
      · have hk' : blockAt y.ip y.disk (k / BSIZE) = b := by rw [blockAt, hptr, hk, update_self]
        rw [hk', if_neg hb₀, hzero]
      · have hk' : blockAt y.ip y.disk (k / BSIZE) = 0 := by
          rw [blockAt, hptr, update_of_ne hk]
          exact h₀
        rw [if_pos hk']
    · rw [hkeeps _ h₀, if_neg h₀, if_neg h₀,
        hblock (blockAt x.ip x.disk (k / BSIZE)) (h.range h₀).1 (hfree' _) (h.blockAt_ne h₀)]

theorem addrSlot_spec (hl : Layout sb) (h : Good sb i x) (hk : k ≤ NDIRECT) :
    Wp (addrSlot sb k) x (Allocates sb i k 1 x) fun _ => False := by
  have hptr : ptr x.ip x.disk k = Inode.addr x.ip k := if_pos hk
  rw [Wp, addrSlot]
  by_cases h₀ : Inode.addr x.ip k = 0
  · rw [if_pos h₀]
    rcases balloc_cases sb x.disk with ⟨hr, hfull⟩ | ⟨b, hb, hfree, hr⟩
    · simp only [hr, if_true]
      exact .none h (by rw [hptr, h₀]) hfull 1
    · have hlo := h.valid.held.lo_le hfree
      have hb₀ : b ≠ 0 := Nat.pos_iff_ne_zero.mp (Nat.lt_of_lt_of_le dataStart_pos hlo)
      have hb32 : b < 2 ^ 32 := Nat.lt_trans hb (Nat.lt_trans hl.size (by decide))
      -- a new indirect block has no entries, and without one there were none
      have hptr' : ∀ s', ptr (Inode.setAddr x.ip k b) (grab sb x.disk b) s' =
          update (ptr x.ip x.disk) k b s' := by
        intro s'
        by_cases hs : s' = k
        · rw [hs, update_self, ptr, if_pos hk, addr_setAddr_self hk hb32]
        · rw [update_of_ne hs, ptr, ptr, addr_setAddr_of_ne b hs]
          split
          · rfl
          · rename_i hs'
            by_cases hkd : k = NDIRECT
            · subst hkd
              rw [addr_setAddr_self hk hb32, block_grab_self, h₀]
              simp [word]
            · have hne : NDIRECT ≠ k := fun heq => hkd heq.symm
              rw [addr_setAddr_of_ne b hne]
              split
              · rename_i hind
                have hrange := h.range (s := NDIRECT) (by rw [ptr_indirect]; exact hind.2)
                have hused := h.inUse_ptr (s := NDIRECT) (by rw [ptr_indirect]; exact hind.2)
                rw [ptr_indirect] at hrange hused
                have hmap := bblock_lt hb
                rw [block_grab_of_ne ?_ (by omega)]
                rintro rfl
                rw [hused] at hfree
                cases hfree
              · rfl
      simp only [hr, if_neg hb₀]
      exact attach (y := ⟨Inode.setAddr x.ip k b, grab sb x.disk b⟩) hl h (by rw [hptr, h₀]) hb hfree ⟨_, rfl⟩
        (fun j hj => dinode_grab hl hlo hj) (fun c hc => inUse_grab hlo hc) hptr'
        (fun c hc hcb _ => block_grab_of_ne hcb (by have := bblock_lt hb; omega)) (block_grab_self ..)
  · rw [if_neg h₀]
    have hf := Allocates.found_already h (s := k) (by rw [hptr]; exact h₀) 1
    rw [hptr] at hf
    exact hf

theorem ptr_entry (x : Inode) (d : Store) (hk : k < NINDIRECT) (h : Inode.addr x NDIRECT ≠ 0) :
    ptr x d (NDIRECT + 1 + k) = (word (d.block (Inode.addr x NDIRECT)) (4 * k)).toNat := by
  have hs : ¬NDIRECT + 1 + k ≤ NDIRECT := by omega
  have hs' : NDIRECT + 1 + k ≤ MAXFILE := by
    simp only [MAXFILE]
    omega
  rw [ptr, if_neg hs, if_pos ⟨hs', h⟩, Nat.add_sub_cancel_left]

theorem indirectSlot_spec (hl : Layout sb) (h : Good sb i x) (ha : Inode.addr x.ip NDIRECT ≠ 0) (hk : k < NINDIRECT) :
    Wp (indirectSlot sb (Inode.addr x.ip NDIRECT) k) x (Allocates sb i (NDIRECT + 1 + k) 1 x) fun _ => False := by
  have hptr := ptr_entry x.ip x.disk hk ha
  generalize haddr : Inode.addr x.ip NDIRECT = addr at ha hptr
  have hind : ptr x.ip x.disk NDIRECT = addr := by rw [ptr_indirect, haddr]
  have hrange := h.range (s := NDIRECT) (by rw [hind]; exact ha)
  have hused := h.inUse_ptr (s := NDIRECT) (by rw [hind]; exact ha)
  rw [hind] at hrange hused
  rw [Wp, indirectSlot]
  by_cases h₀ : (word (x.disk.block addr) (4 * k)).toNat = 0
  · simp only [if_pos h₀]
    rcases balloc_cases sb x.disk with ⟨hr, hfull⟩ | ⟨b, hb, hfree, hr⟩
    · simp only [hr, if_true]
      exact .none h (by rw [hptr, h₀]) hfull 1
    · have hlo := h.valid.held.lo_le hfree
      have hb₀ : b ≠ 0 := Nat.pos_iff_ne_zero.mp (Nat.lt_of_lt_of_le dataStart_pos hlo)
      have hb32 : b < 2 ^ 32 := Nat.lt_trans hb (Nat.lt_trans hl.size (by decide))
      have hmap := bblock_lt hb
      have hba : addr ≠ b := by
        rintro rfl
        rw [hused] at hfree
        cases hfree
      have hblock : (grab sb x.disk b).block addr = x.disk.block addr := block_grab_of_ne hba (by omega)
      simp only [hr, if_neg hb₀, hblock]
      generalize hd : (grab sb x.disk b).logWrite addr
        (putWord (BitVec.ofNat 32 b) (4 * k) (x.disk.block addr)) = d
      have hd_addr : d.block addr = putWord (BitVec.ofNat 32 b) (4 * k) (x.disk.block addr) := by
        rw [← hd, block_logWrite_self]
      have hd_other : ∀ c, c ≠ addr → d.block c = (grab sb x.disk b).block c := by
        intro c hc
        rw [← hd, block_logWrite_of_ne hc]
      have huse : ∀ c, c < sb.size → inUse sb d c = update (inUse sb x.disk) b true c := by
        intro c hc
        have := bblock_lt hc
        rw [inUse_congr (hd_other _ (by omega)), inUse_grab hlo hc]
      have hptr' : ∀ s', ptr x.ip d s' = update (ptr x.ip x.disk) (NDIRECT + 1 + k) b s' := by
        intro s'
        by_cases hs : s' = NDIRECT + 1 + k
        · rw [hs, update_self, ptr_entry x.ip d hk (by rw [haddr]; exact ha), haddr, hd_addr,
            word_putWord_self, BitVec.toNat_ofNat, Nat.mod_eq_of_lt hb32]
        · rw [update_of_ne hs, ptr, ptr, haddr, hd_addr]
          split
          · rfl
          · split
            · rw [word_putWord_of_ne _ _ (by omega)]
            · rfl
      exact attach (y := ⟨x.ip, d⟩) hl h (by rw [hptr, h₀]) hb hfree ⟨_, rfl⟩
        (fun j hj => by
          have := iblock_lt_dataStart hl hj
          rw [dinode_congr (hd_other _ (by omega)), dinode_grab hl hlo hj])
        huse hptr'
        (fun c hc hcb hca => by
          rw [haddr] at hca
          rw [hd_other c hca, block_grab_of_ne hcb (by omega)])
        (by rw [hd_other b (Ne.symm hba), block_grab_self])
  · simp only [if_neg h₀]
    have hf := Allocates.found_already h (s := NDIRECT + 1 + k) (by rw [hptr]; exact h₀) 1
    rw [hptr] at hf
    exact hf

theorem bmap_spec {bn : Nat} (hl : Layout sb) (h : Good sb i x) (hbn : bn < MAXFILE) :
    Wp (bmap sb bn) x (Allocates sb i (slotOf bn) 2 x) fun _ => False := by
  rw [bmap]
  by_cases hd : bn < NDIRECT
  · rw [if_pos hd, slotOf, if_pos hd]
    refine (addrSlot_spec hl h (Nat.le_of_lt hd)).imp fun a y hy => ?_
    exact ⟨hy.good, hy.grows, hy.content, hy.found, hy.full, hy.hit, fun n hn => hy.room n (hn.mono (by omega))⟩
  · have hk : bn - NDIRECT < NINDIRECT := by
      simp only [MAXFILE] at hbn
      omega
    have hslot : slotOf bn = NDIRECT + 1 + (bn - NDIRECT) := by
      rw [slotOf, if_neg hd]
      omega
    rw [if_neg hd, if_pos hk, hslot]
    refine (addrSlot_spec hl h (Nat.le_refl _)).bind fun a y hy => ?_
    rw [hy.found, ptr_indirect]
    by_cases ha : Inode.addr y.ip NDIRECT = 0
    · -- no block for the indirect block: x had none either, and so no entries
      have hx₀ : Inode.addr x.ip NDIRECT = 0 := by
        by_contra hne
        have := hy.hit (by rw [ptr_indirect]; exact hne)
        rw [this] at ha
        exact hne ha
      have hentry : ∀ (x : Inode) (d : Store), Inode.addr x NDIRECT = 0 → ptr x d (NDIRECT + 1 + (bn - NDIRECT)) = 0 := by
        intro x d hx
        rw [ptr, if_neg (by omega), if_neg (fun h => h.2 hx)]
      rw [if_pos ha]
      refine wp_pure ⟨hy.good, hy.grows, hy.content, (hentry _ _ ha).symm, fun _ => hy.full ?_, ?_, ?_⟩
      · rw [hy.found, ptr_indirect, ha]
      · exact fun hne => absurd (hentry _ _ hx₀) hne
      · exact fun n hn => hy.room n (hn.mono (by omega))
    · rw [if_neg ha]
      refine (indirectSlot_spec hl hy.good ha hk).imp fun a z hz => ?_
      refine ⟨hz.good, hy.grows.trans hz.grows, hz.content.trans hy.content, hz.found, hz.full, ?_, ?_⟩
      · intro hne
        have hx : Inode.addr x.ip NDIRECT ≠ 0 := by
          intro hx
          rw [ptr, if_neg (by omega), if_neg (fun h => h.2 hx)] at hne
          exact hne rfl
        have hyx := hy.hit (by rw [ptr_indirect]; exact hx)
        rw [hyx] at hz
        exact hz.hit hne
      · intro n hn
        exact hz.room n (hy.room (n + 1) hn)

end Bmap

end AdaptiveXv6.Allocation
