import AdaptiveXv6.HeapFrees

namespace AdaptiveXv6.HeapMallocs

open Words Links UserHeap HeapBlocks HeapFrees Function

variable {m : Layout} {h : Heap} {x y : Block} {l L R : List Block} {n : Nat}

theorem Sound.nodup (hs : Sound m h l) : (m.base :: frees l).Nodup :=
  (base_sorted hs.tiles).imp fun h => Nat.ne_of_lt h

structure Given (m : Layout) (h h' : Heap) (l : List Block) (n ap : Nat) (l' : List Block) : Prop where
  sound : Sound m h' l'
  given : ∃ y ∈ l', y.live = true ∧ y.size = n ∧ y.addr + 16 = ap ∧ (lives l').Perm (y :: lives l)

theorem carve_all (hs : Sound m h (L ++ x :: R)) (hx : x.live = false) (hn : x.size = n) :
    Given m h (h.carve n (last m.base (frees L)) x.addr).1 (L ++ x :: R) n
      (h.carve n (last m.base (frees L)) x.addr).2 (L ++ ⟨x.addr, x.size, true⟩ :: R) := by
  obtain ⟨hL, hpos, hR⟩ := tiles_around hs.tiles
  have hring := hs.ring
  rw [frees_append, frees_free hx] at hring
  obtain ⟨hwalk, hlink⟩ := linked_append.mp hring
  obtain ⟨-, hlink⟩ := linked_cons.mp hlink
  have hlast : last m.base (frees L) < x.addr := below_lt hL last_mem
  have happ := apart_append_cons.mp hs.apart
  rw [Heap.carve, if_pos ((hs.sizes x (by simp)).trans hn)]
  refine ⟨⟨tiles_build hL hpos hR, ?_, hs.zero, ?_, ?_, ?_⟩, ⟨x.addr, x.size, true⟩, by simp, rfl, hn, rfl, ?_⟩
  · intro z hz
    rcases List.mem_append.mp hz with hz | hz
    · exact hs.sizes z (by simp [hz])
    rcases List.mem_cons.mp hz with rfl | hz
    · exact hs.sizes x (by simp)
    · exact hs.sizes z (by simp [hz])
  · rw [frees_append, frees_live rfl]
    refine linked_append.mpr ⟨?_, ?_⟩
    · exact walk_congr hwalk (base_nodup hL) fun c _ hc => update_of_ne hc _ _
    · refine linked_shift hlink (update_self _ _ _) fun c hc => update_of_ne ?_ _ _
      exact Nat.ne_of_gt (Nat.lt_trans hlast (above_gt hpos hR hc))
  · rw [frees_append, frees_live rfl, ← List.cons_append]
    exact List.mem_append_left _ last_mem
  · exact apart_append_cons.mpr ⟨happ.1, happ.2.1, fun _ _ => .inr rfl, fun _ _ => .inl rfl⟩
  · rw [lives_append, lives_append, lives_live rfl, lives_free hx]
    exact List.perm_middle

theorem carve_tail (hs : Sound m h (L ++ x :: R)) (hx : x.live = false) (hpos : 0 < n) (hn : n < x.size) :
    Given m h (h.carve n (last m.base (frees L)) x.addr).1 (L ++ x :: R) n
      (h.carve n (last m.base (frees L)) x.addr).2
      (L ++ ⟨x.addr, x.size - n, false⟩ :: ⟨x.addr + 16 * (x.size - n), n, true⟩ :: R) := by
  obtain ⟨hL, -, hR⟩ := tiles_around hs.tiles
  have hsx : h.size x.addr = x.size := hs.sizes x (by simp)
  have happ := apart_append_cons.mp hs.apart
  have hend : x.addr + 16 * (x.size - n) + 16 * n = x.addr + 16 * x.size := by omega
  have hbase := base_lt_of_tiles hL
  rw [Heap.carve, if_neg (by omega), hsx]
  have hother : ∀ z : Block, z.addr < x.addr ∨ x.addr + 16 * x.size ≤ z.addr → h.size z.addr = z.size →
      update (update h.size x.addr (x.size - n)) (x.addr + 16 * (x.size - n)) n z.addr = z.size := by
    intro z hz hsz
    rw [update_of_ne (by omega), update_of_ne (by omega)]
    exact hsz
  refine ⟨⟨?_, ?_, ?_, ?_, ?_, ?_⟩, ⟨x.addr + 16 * (x.size - n), n, true⟩, by simp, rfl, rfl, rfl, ?_⟩
  · refine tiles_build hL (Nat.sub_pos_of_lt hn) ⟨rfl, hpos, ?_⟩
    rw [hend]
    exact hR
  · intro z hz
    rcases List.mem_append.mp hz with hz | hz
    · have := tiles_mem hL hz
      exact hother z (.inl (by omega)) (hs.sizes z (by simp [hz]))
    rcases List.mem_cons.mp hz with rfl | hz
    · change update (update h.size x.addr (x.size - n)) (x.addr + 16 * (x.size - n)) n x.addr = _
      rw [update_of_ne (by omega), update_self]
    rcases List.mem_cons.mp hz with rfl | hz
    · exact update_self _ _ _
    · exact hother z (.inr (tiles_mem hR hz).1) (hs.sizes z (by simp [hz]))
  · exact hother ⟨m.base, 0, true⟩ (.inl hbase) hs.zero
  · have hring := hs.ring
    rw [frees_append, frees_free hx] at hring
    rw [frees_append, frees_free rfl, frees_live rfl]
    exact hring
  · rw [frees_append, ← List.cons_append]
    exact List.mem_append_left _ last_mem
  · refine apart_append_cons.mpr ⟨happ.1, ?_, ?_, ?_⟩
    · exact List.isChain_cons.mpr ⟨fun _ _ => .inl rfl, happ.2.1⟩
    · intro z hz
      exact (happ.2.2.1 z hz).imp_right fun hlive => by rw [hx] at hlive; cases hlive
    · rintro _ ⟨⟩
      exact .inr rfl
  · rw [lives_append, lives_append, lives_free rfl, lives_live rfl, lives_free hx]
    exact List.perm_middle

theorem carve_brk (h : Heap) (n b c : Nat) : (h.carve n b c).1.brk = h.brk := by
  rw [Heap.carve]
  split <;> rfl

theorem exists_carve (hs : Sound m h l) (hn : 0 < n) {b c : Nat} (hb : b ∈ m.base :: frees l)
    (hc : c ∈ m.base :: frees l) (hbc : h.ptr b = c) (hsize : n ≤ h.size c) :
    ∃ l', Given m h (h.carve n b c).1 l n (h.carve n b c).2 l' := by
  rcases List.mem_cons.mp hc with rfl | hc
  · rw [hs.zero] at hsize
    omega
  · obtain ⟨x, hx, hfree, rfl⟩ := mem_frees.mp hc
    obtain ⟨L, R, rfl⟩ := List.append_of_mem hx
    have hring := hs.ring
    rw [frees_append, frees_free hfree] at hring
    obtain ⟨-, hlink⟩ := linked_append.mp hring
    have hlast : last m.base (frees L) ∈ m.base :: frees (L ++ x :: R) := by
      rw [frees_append, ← List.cons_append]
      exact List.mem_append_left _ last_mem
    obtain rfl := ring_inj hs.ring (Sound.nodup hs) hb hlast (hbc.trans (linked_cons.mp hlink).1.symm)
    have hsx : h.size x.addr = x.size := hs.sizes x hx
    rw [hsx] at hsize
    rcases Nat.lt_or_eq_of_le hsize with hlt | heq
    · exact ⟨_, carve_tail hs hfree hn hlt⟩
    · exact ⟨_, carve_all hs hfree heq.symm⟩

def afterScan (sbrk : Nat → Int → Bool) (n fuel : Nat) (h : Heap) : Option (Heap × Nat) :=
  match Heap.morecore fuel sbrk h n with
  | none => none
  | some (h, p) => if p = 0 then some (h, 0) else Heap.mallocLoop sbrk n fuel h p (h.ptr p)

theorem scan {sbrk : Nat → Int → Bool} {V : List Nat} {a : Nat} (hlink : Linked h.ptr a V h.freep) (hV : h.freep ∉ V) :
    (∃ b c, b ∈ a :: V ∧ c ∈ h.freep :: V ∧ h.ptr b = c ∧ n ≤ h.size c ∧
      ∀ k, Heap.mallocLoop sbrk n (V.length + 1 + k) h a (h.ptr a) = some (h.carve n b c)) ∨
    (∀ c ∈ h.freep :: V, h.size c < n) ∧
      ∀ k, Heap.mallocLoop sbrk n (V.length + 1 + k) h a (h.ptr a) = afterScan sbrk n k h := by
  induction V generalizing a with
  | nil =>
    have hnext : h.ptr a = h.freep := hlink.2
    by_cases hsize : n ≤ h.size h.freep
    · refine .inl ⟨a, h.freep, by simp, by simp, hnext, hsize, fun k => ?_⟩
      rw [List.length_nil, Nat.zero_add, Nat.add_comm, Heap.mallocLoop, hnext]
      exact if_pos hsize
    · refine .inr ⟨fun c hc => ?_, fun k => ?_⟩
      · rw [List.mem_singleton.mp hc]
        exact Nat.lt_of_not_le hsize
      · rw [List.length_nil, Nat.zero_add, Nat.add_comm, Heap.mallocLoop, hnext, if_neg hsize, if_pos rfl]
        rfl
  | cons c V ih =>
    obtain ⟨hnext, hlink⟩ := linked_cons.mp hlink
    have hne : c ≠ h.freep := fun hc => hV (by rw [hc]; exact List.mem_cons_self)
    by_cases hsize : n ≤ h.size c
    · refine .inl ⟨a, c, by simp, by simp, hnext, hsize, fun k => ?_⟩
      rw [List.length_cons, Nat.add_right_comm, Heap.mallocLoop, hnext]
      exact if_pos hsize
    · have hstep : ∀ k, Heap.mallocLoop sbrk n ((c :: V).length + 1 + k) h a (h.ptr a) =
          Heap.mallocLoop sbrk n (V.length + 1 + k) h c (h.ptr c) := by
        intro k
        rw [List.length_cons, Nat.add_right_comm, Heap.mallocLoop, hnext, if_neg hsize, if_neg hne]
      rcases ih hlink (fun hmem => hV (List.mem_cons_of_mem _ hmem)) with ⟨b, d, hb, hd, hrest⟩ | ⟨hsmall, hrest⟩
      · refine .inl ⟨b, d, List.mem_cons_of_mem _ hb, ?_, hrest.1, hrest.2.1, fun k => (hstep k).trans (hrest.2.2 k)⟩
        rcases List.mem_cons.mp hd with rfl | hd
        · exact List.mem_cons_self
        · exact List.mem_cons_of_mem _ (List.mem_cons_of_mem _ hd)
      · refine .inr ⟨fun d hd => ?_, fun k => (hstep k).trans (hrest k)⟩
        rcases List.mem_cons.mp hd with rfl | hd
        · exact hsmall _ List.mem_cons_self
        rcases List.mem_cons.mp hd with rfl | hd
        · exact Nat.lt_of_not_le hsize
        · exact hsmall d (List.mem_cons_of_mem _ hd)

theorem exists_ring (hs : Sound m h l) :
    ∃ V, Linked h.ptr h.freep V h.freep ∧ (h.freep :: V).Perm (m.base :: frees l) := by
  rcases List.mem_cons.mp hs.freep with heq | hmem
  · refine ⟨frees l, ?_, ?_⟩
    · rw [heq]
      exact hs.ring
    · rw [heq]
  · obtain ⟨F₁, F₂, hF⟩ := List.append_of_mem hmem
    have hring := hs.ring
    rw [hF] at hring ⊢
    refine ⟨F₂ ++ m.base :: F₁, linked_rotate hring, ?_⟩
    rw [← List.cons_append, ← List.cons_append]
    exact List.perm_append_comm

theorem search (hs : Sound m h l) (sbrk : Nat → Int → Bool) (hn : 0 < n) :
    ∃ fuel, (∃ h' ap l', (∀ k, Heap.mallocLoop sbrk n (fuel + k) h h.freep (h.ptr h.freep) = some (h', ap)) ∧
      h'.brk = h.brk ∧ Given m h h' l n ap l') ∨
    (∀ x ∈ l, x.live = false → x.size < n) ∧
      ∀ k, Heap.mallocLoop sbrk n (fuel + k) h h.freep (h.ptr h.freep) = afterScan sbrk n k h := by
  obtain ⟨V, hlink, hperm⟩ := exists_ring hs
  have hnodup := hperm.nodup_iff.mpr (Sound.nodup hs)
  refine ⟨V.length + 1, ?_⟩
  rcases scan hlink (List.nodup_cons.mp hnodup).1 with ⟨b, c, hb, hc, hbc, hsize, hrun⟩ | ⟨hsmall, hrun⟩
  · obtain ⟨l', hgiven⟩ := exists_carve hs hn (hperm.mem_iff.mp hb) (hperm.mem_iff.mp hc) hbc hsize
    exact .inl ⟨_, _, l', hrun, carve_brk h n b c, hgiven⟩
  · refine .inr ⟨fun x hx hfree => ?_, hrun⟩
    rw [← hs.sizes x hx]
    exact hsmall _ (hperm.mem_iff.mpr (List.mem_cons_of_mem _ (mem_frees.mpr ⟨x, hx, hfree, rfl⟩)))

theorem sound_grow (hs : Sound m h l) (hn : 0 < n) (hint : n * 16 < 2 ^ 31) :
    Sound m (h.grow n) (l ++ ⟨h.brk, n, true⟩ :: []) ∧ (h.grow n).brk = h.brk + 16 * n := by
  have hbrk : (h.grow n).brk = h.brk + 16 * n := by
    rw [Heap.grow, i32_of_range (by omega) (by omega), Heap.newSize, if_neg (by omega)]
    change ((h.brk : Int) + (n * 16 : Nat)).toNat = _
    omega
  have hbase : m.base < h.brk := base_lt_of_tiles hs.tiles
  have hfrees : frees (l ++ ⟨h.brk, n, true⟩ :: []) = frees l := by
    rw [frees_append, frees_live rfl]
    exact List.append_nil _
  refine ⟨⟨?_, ?_, ?_, ?_, ?_, ?_⟩, hbrk⟩
  · rw [hbrk]
    exact tiles_build hs.tiles hn rfl
  · intro x hx
    rcases List.mem_append.mp hx with hx | hx
    · have := tiles_mem hs.tiles hx
      exact (update_of_ne (by omega) _ _).trans (hs.sizes x hx)
    · rw [List.mem_singleton.mp hx]
      exact update_self _ _ _
  · exact (update_of_ne (Nat.ne_of_lt hbase) _ _).trans hs.zero
  · rw [hfrees]
    exact hs.ring
  · rw [hfrees]
    exact hs.freep
  · exact apart_append_cons.mpr ⟨hs.apart, List.isChain_nil, fun _ _ => .inr rfl, nofun⟩

theorem coreUnits_bounds (hn : n * 16 < 2 ^ 31) :
    n ≤ Heap.coreUnits n ∧ 0 < Heap.coreUnits n ∧ Heap.coreUnits n * 16 < 2 ^ 31 := by
  rw [Heap.coreUnits]
  split <;> omega

theorem exists_afterScan (hs : Sound m h l) {sbrk : Nat → Int → Bool} (hpos : 0 < n) (hn : n * 16 < 2 ^ 31)
    (hok : sbrk h.brk (i32 (Heap.coreUnits n * 16 : Nat)) = true)
    (hmem : h.brk + 16 * Heap.coreUnits n < m.start + 2 ^ 31) :
    ∃ fuel h' ap l', (∀ k, afterScan sbrk n (fuel + k) h = some (h', ap)) ∧
      h'.brk = h.brk + 16 * Heap.coreUnits n ∧ Given m h h' l n ap l' := by
  obtain ⟨hle, hcore, hint⟩ := coreUnits_bounds hn
  obtain ⟨hgrown, hbrk⟩ := sound_grow hs hcore hint
  obtain ⟨f₁, h₁, l₁, hfree, hfreed⟩ := exists_free hgrown rfl (by rw [hbrk]; exact hmem)
  obtain ⟨f₂, hsearch⟩ := search hfreed.sound sbrk hpos
  have hlives : lives l₁ = lives l := by
    rw [hfreed.lives]
    exact List.append_nil _
  have hfreep : h₁.freep ≠ 0 := by
    have hpos := m.pos
    rcases List.mem_cons.mp hfreed.sound.freep with heq | hmem
    · omega
    · have := hfreed.sound.base_frees hmem
      omega
  rcases hsearch with ⟨h', ap, l', hrun, hbrk', hgiven⟩ | ⟨hsmall, -⟩
  · refine ⟨f₁ + f₂, h', ap, l', fun k => ?_, by rw [hbrk', hfreed.brk, hbrk], hgiven.sound, ?_⟩
    · have hmore : Heap.morecore (f₁ + f₂ + k) sbrk h n = some (h₁, h₁.freep) := by
        rw [Heap.morecore, if_pos hok, Nat.add_assoc, hfree (f₂ + k)]
        rfl
      rw [afterScan, hmore]
      dsimp only
      rw [if_neg hfreep, Nat.add_comm f₁, Nat.add_assoc]
      exact hrun (f₁ + k)
    · rw [← hlives]
      exact hgiven.given
  · obtain ⟨y, hy, hyfree, hysize⟩ := hfreed.room
    have := hsmall y hy hyfree
    have : Heap.coreUnits n ≤ y.size := hysize
    omega

theorem exists_mallocLoop (hs : Sound m h l) (sbrk : Nat → Int → Bool) (hpos : 0 < n) (hn : n * 16 < 2 ^ 31)
    (hmem : sbrk h.brk (i32 (Heap.coreUnits n * 16 : Nat)) = true →
      h.brk + 16 * Heap.coreUnits n < m.start + 2 ^ 31) :
    ∃ fuel h' ap, (∀ k, Heap.mallocLoop sbrk n (fuel + k) h h.freep (h.ptr h.freep) = some (h', ap)) ∧
      ((ap = 0 ∧ h' = h ∧ sbrk h.brk (i32 (Heap.coreUnits n * 16 : Nat)) = false) ∨
        (h'.brk = h.brk ∨ h.brk < h'.brk ∧ h'.brk < m.start + 2 ^ 31) ∧ ∃ l', Given m h h' l n ap l') := by
  obtain ⟨f₁, ⟨h', ap, l', hrun, hbrk, hgiven⟩ | ⟨-, hrun⟩⟩ := search hs sbrk hpos
  · exact ⟨f₁, h', ap, hrun, .inr ⟨.inl hbrk, l', hgiven⟩⟩
  · cases hok : sbrk h.brk (i32 (Heap.coreUnits n * 16 : Nat)) with
    | false =>
      refine ⟨f₁, h, 0, fun k => ?_, .inl ⟨rfl, rfl, rfl⟩⟩
      rw [hrun k, afterScan, Heap.morecore, hok]
      rfl
    | true =>
      obtain ⟨f₂, h', ap, l', hafter, hbrk, hgiven⟩ := exists_afterScan hs hpos hn hok (hmem hok)
      refine ⟨f₁ + f₂, h', ap, fun k => ?_, .inr ⟨.inr ?_, l', hgiven⟩⟩
      · rw [Nat.add_assoc, hrun]
        exact hafter k
      · have hcore := (coreUnits_bounds hn).2.1
        rw [hbrk]
        exact ⟨by omega, hmem hok⟩

end AdaptiveXv6.HeapMallocs
