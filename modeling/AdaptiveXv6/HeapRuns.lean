import AdaptiveXv6.HeapMallocs

namespace AdaptiveXv6.HeapRuns

open Words Runs Links UserHeap HeapBlocks HeapFrees HeapMallocs Function

variable {m : Layout} {h : Heap} {s t : Program} {l : List Block} {n : Nat}

section Fuel

variable {fuel k : Nat} {sbrk : Nat → Int → Bool}

theorem free_mono {ap : Nat} {h' : Heap} (hf : h.free fuel ap = some h') : h.free (fuel + k) ap = some h' := by
  rw [Heap.free, Option.map_eq_some_iff] at hf
  obtain ⟨p, hp, rfl⟩ := hf
  rw [Heap.free, findPlace_mono hp]
  rfl

theorem morecore_mono {x : Heap × Nat} (hf : Heap.morecore fuel sbrk h n = some x) :
    Heap.morecore (fuel + k) sbrk h n = some x := by
  rw [Heap.morecore] at hf ⊢
  split at hf
  · rename_i hok
    rw [if_pos hok]
    rw [Option.map_eq_some_iff] at hf
    obtain ⟨h', hfree, rfl⟩ := hf
    rw [free_mono hfree]
    rfl
  · rename_i hok
    rw [if_neg hok]
    exact hf

theorem mallocLoop_mono {prevp p : Nat} {x : Heap × Nat} (hf : Heap.mallocLoop sbrk n fuel h prevp p = some x) :
    Heap.mallocLoop sbrk n (fuel + k) h prevp p = some x := by
  induction fuel generalizing h prevp p with
  | zero => cases hf
  | succ fuel ih =>
    rw [Nat.add_right_comm]
    rw [Heap.mallocLoop] at hf ⊢
    split at hf
    · rename_i hsize
      rw [if_pos hsize]
      exact hf
    rename_i hsize
    rw [if_neg hsize]
    split at hf
    · rename_i hfreep
      rw [if_pos hfreep]
      cases hmore : Heap.morecore fuel sbrk h n with
      | none =>
        rw [hmore] at hf
        cases hf
      | some y =>
        rw [hmore] at hf
        rw [morecore_mono hmore]
        dsimp only at hf ⊢
        split at hf
        · rename_i hzero
          rw [if_pos hzero]
          exact hf
        · rename_i hzero
          rw [if_neg hzero]
          exact ih hf
    · rename_i hfreep
      rw [if_neg hfreep]
      exact ih hf

end Fuel

theorem Sound.freep_ne (hs : Sound m h l) : h.freep ≠ 0 := by
  have hpos := m.pos
  rcases List.mem_cons.mp hs.freep with heq | hmem
  · omega
  · have := hs.base_frees hmem
    omega

theorem init_of_ne (hne : h.freep ≠ 0) : h.init m = h := if_neg hne

theorem init_brk (m : Layout) (h : Heap) : (h.init m).brk = h.brk := by
  rw [Heap.init]
  split <;> rfl

theorem units_bounds {nbytes : Nat} (hn : nbytes + 32 ≤ 2 ^ 31) :
    0 < Heap.units nbytes ∧ Heap.units nbytes * 16 < 2 ^ 31 ∧ nbytes + 16 ≤ 16 * Heap.units nbytes := by
  rw [Heap.units, u32_of_lt (by omega)]
  omega

def Bounded (m : Layout) (sbrk : Nat → Int → Bool) : Prop :=
  ∀ b z, sbrk b z = true → (b : Int) + z < m.start + 2 ^ 31

def Grants (m : Layout) (sbrk : Nat → Int → Bool) : Prop :=
  ∀ b z, 0 < z → sbrk b z = true → (b : Int) + z < m.start + 2 ^ 31

theorem Bounded.grants {sbrk : Nat → Int → Bool} (h : Bounded m sbrk) : Grants m sbrk := fun b z _ hz => h b z hz

theorem exists_malloc (hs : Sound m (h.init m) l) {sbrk : Nat → Int → Bool} (hsbrk : Grants m sbrk) {nbytes : Nat}
    (hn : nbytes + 32 ≤ 2 ^ 31) :
    ∃ fuel h' ap, (∀ k, h.malloc m (fuel + k) sbrk nbytes = some (h', ap)) ∧
      ((ap = 0 ∧ h' = h.init m ∧ sbrk h.brk (i32 (Heap.coreUnits (Heap.units nbytes) * 16 : Nat)) = false) ∨
        (h'.brk = h.brk ∨ h.brk < h'.brk ∧ h'.brk < m.start + 2 ^ 31) ∧
          ∃ l', Given m (h.init m) h' l (Heap.units nbytes) ap l') := by
  obtain ⟨hpos, hle, -⟩ := units_bounds hn
  have hbrk := init_brk m h
  obtain ⟨fuel, h', ap, hrun, hres⟩ := exists_mallocLoop hs sbrk hpos hle fun hok => by
    obtain ⟨-, hcore, hint⟩ := coreUnits_bounds hle
    rw [i32_of_range (by omega) (by omega)] at hok
    have hlt := hsbrk _ _ (by omega) hok
    omega
  rw [hbrk] at hres
  exact ⟨fuel, h', ap, hrun, hres⟩

structure Owns (m : Layout) (s : Program) (l : List Block) : Prop where
  sound : Sound m (s.heap.init m) l
  bound : s.heap.brk < m.start + 2 ^ 31
  fresh : s.heap.freep = 0 → l = []
  live : ∀ ap, s.live ap = true ↔ ∃ x ∈ lives l, x.addr + 16 = ap

theorem owns_exec (m : Layout) : Owns m (.exec m) [] := by
  refine ⟨⟨rfl, nofun, ?_, ⟨trivial, ?_⟩, ?_, List.isChain_nil⟩, ?_, fun _ => rfl, fun ap => ?_⟩
  · exact update_self _ _ _
  · exact update_self _ _ _
  · exact List.mem_cons_self
  · exact Nat.lt_add_of_pos_right (by decide)
  · simp [Program.exec, lives]

theorem mem_lives {x : Block} : x ∈ lives l ↔ x ∈ l ∧ x.live = true := List.mem_filter

theorem addr_inj {L R : List Block} {x z : Block} {a b : Nat} (ht : Tiles a (L ++ x :: R) b) (hz : z ∈ L ∨ z ∈ R) :
    z.addr < x.addr ∨ x.addr + 16 * x.size ≤ z.addr := by
  obtain ⟨hL, hpos, hR⟩ := tiles_around ht
  rcases hz with hz | hz
  · have := tiles_mem hL hz
    exact .inl (by omega)
  · exact .inr (tiles_mem hR hz).1

theorem addr_nodup {a b : Nat} (ht : Tiles a l b) : (l.map Block.addr).Nodup := by
  induction l generalizing a with
  | nil => exact List.nodup_nil
  | cons x l ih =>
    rw [List.map_cons, List.nodup_cons]
    refine ⟨fun hx => ?_, ih ht.2.2⟩
    obtain ⟨z, hz, heq⟩ := List.mem_map.mp hx
    have := (tiles_mem ht.2.2 hz).1
    have := ht.1
    have := ht.2.1
    omega

theorem owns_malloc (ho : Owns m s l) {nbytes fuel : Nat} {sbrk : Nat → Int → Bool} (hn : nbytes + 32 ≤ 2 ^ 31)
    (hsbrk : Grants m sbrk) (hs : s.step m (.malloc nbytes fuel sbrk) = some t) : ∃ l', Owns m t l' := by
  obtain ⟨f, h', ap, hrun, hres⟩ := exists_malloc ho.sound hsbrk hn
  rw [Program.step, Option.map_eq_some_iff] at hs
  obtain ⟨x, hx, rfl⟩ := hs
  have heq : s.heap.malloc m (f + fuel) sbrk nbytes = some x := by
    rw [Nat.add_comm]
    exact mallocLoop_mono hx
  rw [hrun fuel] at heq
  cases heq
  rcases hres with ⟨rfl, rfl, -⟩ | ⟨hbrk, l', hgiven⟩
  · have hne := Sound.freep_ne ho.sound
    refine ⟨l, ?_, ?_, fun hz => absurd hz hne, ho.live⟩
    · rw [init_of_ne hne]
      exact ho.sound
    · rw [init_brk]
      exact ho.bound
  · obtain ⟨y, hy, hlive, hsize, rfl, hperm⟩ := hgiven.given
    have hne := Sound.freep_ne hgiven.sound
    refine ⟨l', ?_, ?_, fun hz => absurd hz hne, fun ap => ?_⟩
    · rw [init_of_ne hne]
      exact hgiven.sound
    · rcases hbrk with hbrk | hbrk
      · exact hbrk.trans_lt ho.bound
      · exact hbrk.2
    · dsimp only
      rw [if_neg (Nat.succ_ne_zero _)]
      simp only [hperm.mem_iff, List.mem_cons]
      by_cases hap : ap = y.addr + 16
      · subst hap
        rw [update_self]
        exact ⟨fun _ => ⟨y, .inl rfl, rfl⟩, fun _ => rfl⟩
      · rw [update_of_ne hap, ho.live]
        constructor
        · rintro ⟨x, hx, hxap⟩
          exact ⟨x, .inr hx, hxap⟩
        · rintro ⟨x, rfl | hx, hxap⟩
          · exact absurd hxap.symm hap
          · exact ⟨x, hx, hxap⟩

theorem Owns.split (ho : Owns m s l) {ap : Nat} (hap : s.live ap = true) :
    ∃ L x R, l = L ++ x :: R ∧ x.live = true ∧ x.addr + 16 = ap ∧ s.heap.init m = s.heap := by
  obtain ⟨x, hx, rfl⟩ := (ho.live ap).mp hap
  obtain ⟨hx, hlive⟩ := mem_lives.mp hx
  obtain ⟨L, R, rfl⟩ := List.append_of_mem hx
  refine ⟨L, x, R, rfl, hlive, rfl, init_of_ne fun hz => ?_⟩
  have := ho.fresh hz
  simp at this

theorem owns_free (ho : Owns m s l) {ap fuel : Nat} (hs : s.step m (.free ap fuel) = some t) : ∃ l', Owns m t l' := by
  rw [Program.step] at hs
  split at hs
  · rename_i hap
    obtain ⟨L, x, R, rfl, hx, rfl, hinit⟩ := ho.split hap
    have hsound := ho.sound
    rw [hinit] at hsound
    obtain ⟨f, h', l', hrun, hfreed⟩ := exists_free hsound hx ho.bound
    rw [Option.map_eq_some_iff] at hs
    obtain ⟨h'', hfree, rfl⟩ := hs
    have heq : s.heap.free (f + fuel) (x.addr + 16) = some h'' := by
      rw [Nat.add_comm]
      exact free_mono hfree
    rw [hrun fuel] at heq
    cases heq
    have hne := Sound.freep_ne hfreed.sound
    refine ⟨l', ?_, hfreed.brk.trans_lt ho.bound, fun hz => absurd hz hne, fun ap => ?_⟩
    · rw [init_of_ne hne]
      exact hfreed.sound
    · have hother : ∀ z ∈ lives L ++ lives R, z.addr ≠ x.addr := by
        intro z hz
        have hpos := (tiles_around ho.sound.tiles).2.1
        rcases List.mem_append.mp hz with hz | hz
        · have := addr_inj ho.sound.tiles (.inl (mem_lives.mp hz).1)
          omega
        · have := addr_inj ho.sound.tiles (.inr (mem_lives.mp hz).1)
          omega
      dsimp only
      rw [hfreed.lives]
      by_cases hap : ap = x.addr + 16
      · subst hap
        rw [update_self]
        refine ⟨nofun, ?_⟩
        rintro ⟨z, hz, heq⟩
        exact absurd (Nat.add_right_cancel heq) (hother z hz)
      · rw [update_of_ne hap, ho.live, lives_append, lives_live hx]
        constructor
        · rintro ⟨z, hz, hzap⟩
          rcases List.mem_append.mp hz with hz | hz
          · exact ⟨z, List.mem_append_left _ hz, hzap⟩
          rcases List.mem_cons.mp hz with rfl | hz
          · exact absurd hzap.symm hap
          · exact ⟨z, List.mem_append_right _ hz, hzap⟩
        · rintro ⟨z, hz, hzap⟩
          rcases List.mem_append.mp hz with hz | hz
          · exact ⟨z, List.mem_append_left _ hz, hzap⟩
          · exact ⟨z, List.mem_append_right _ (List.mem_cons_of_mem _ hz), hzap⟩
  · cases hs

theorem owns_write (ho : Owns m s l) {ap i ptr size : Nat} (hs : s.step m (.write ap i ptr size) = some t) :
    ∃ l', Owns m t l' := by
  rw [Program.step] at hs
  split at hs
  · rename_i hgo
    obtain ⟨hap, hi⟩ := hgo
    cases hs
    obtain ⟨L, x, R, rfl, hx, rfl, hinit⟩ := ho.split hap
    have hsound := ho.sound
    rw [hinit] at hsound
    rw [Nat.add_sub_cancel, hsound.sizes x (by simp)] at hi
    have hbase := hsound.base_lt (x := x) (by simp)
    have hne : ∀ z ∈ L ++ x :: R, z.addr ≠ x.addr + 16 + i := by
      intro z hz
      rcases List.mem_append.mp hz with hz | hz
      · have := addr_inj hsound.tiles (.inl hz)
        omega
      rcases List.mem_cons.mp hz with rfl | hz
      · omega
      · have := addr_inj hsound.tiles (.inr hz)
        omega
    have hsound' : Sound m { s.heap with
        ptr := update s.heap.ptr (x.addr + 16 + i) ptr
        size := update s.heap.size (x.addr + 16 + i) size } (L ++ x :: R) := by
      refine ⟨hsound.tiles, fun z hz => ?_, ?_, ?_, hsound.freep, hsound.apart⟩
      · exact (update_of_ne (hne z hz) _ _).trans (hsound.sizes z hz)
      · exact (update_of_ne (by omega) _ _).trans hsound.zero
      · refine linked_congr hsound.ring fun c hc => update_of_ne ?_ _ _
        rcases List.mem_cons.mp hc with rfl | hc
        · omega
        · obtain ⟨z, hz, -, rfl⟩ := mem_frees.mp hc
          exact hne z hz
    refine ⟨L ++ x :: R, ?_, ho.bound, ho.fresh, ho.live⟩
    rw [init_of_ne (Sound.freep_ne hsound')]
    exact hsound'
  · cases hs

/-- What the calls of malloc() have to keep to. -/
def Fair (m : Layout) : Event → Prop
  | .malloc nbytes _ sbrk => nbytes < 2 ^ 30 ∧ Bounded m sbrk
  | _ => True

def Small (m : Layout) : Event → Prop
  | .malloc nbytes _ sbrk => nbytes + 32 ≤ 2 ^ 31 ∧ Grants m sbrk
  | _ => True

theorem Fair.small {e : Event} (h : Fair m e) : Small m e := by
  cases e with
  | malloc nbytes fuel sbrk => exact ⟨by have := h.1; omega, h.2.grants⟩
  | free ap fuel => trivial
  | write ap i ptr size => trivial

theorem owns_step (ho : Owns m s l) {e : Event} (hsmall : Small m e) (hs : s.step m e = some t) : ∃ l', Owns m t l' := by
  cases e with
  | malloc nbytes fuel sbrk => exact owns_malloc ho hsmall.1 hsmall.2 hs
  | free ap fuel => exact owns_free ho hs
  | write ap i ptr size => exact owns_write ho hs

theorem run_owns (r : Run (Program.step m) (.exec m)) (hsmall : ∀ k e, r.event k = some e → Small m e) (k : Nat) :
    ∃ l, Owns m (r.state k) l := by
  induction k with
  | zero =>
    rw [r.start]
    exact ⟨[], owns_exec m⟩
  | succ k ih =>
    obtain ⟨l, ho⟩ := ih
    cases he : r.event k with
    | none =>
      rw [r.state_of_no_event he]
      exact ⟨l, ho⟩
    | some e => exact owns_step ho (hsmall k e he) (r.step_of_event he)

/-- The blocks of a heap and its free list. -/
structure Tidy (m : Layout) (s : Program) (l : List Block) : Prop where
  tiles : Tiles m.start l s.heap.brk
  headers : ∀ x ∈ l, s.heap.size x.addr = x.size
  disjoint : l.Pairwise fun x y => x.addr + 16 * x.size ≤ y.addr
  apart : Apart l
  sorted : (m.base :: frees l).Pairwise (· < ·)
  ring : s.heap.freep ≠ 0 → Linked s.heap.ptr m.base (frees l) m.base ∧ s.heap.freep ∈ m.base :: frees l
  live : ∀ ap, s.live ap = true ↔ ∃ x ∈ l, x.live = true ∧ x.addr + 16 = ap

theorem Owns.tidy (ho : Owns m s l) : Tidy m s l := by
  have htiles := ho.sound.tiles
  rw [init_brk] at htiles
  have hsizes : ∀ x ∈ l, s.heap.size x.addr = x.size := by
    intro x hx
    have hs := ho.sound.sizes x hx
    rw [Heap.init] at hs
    split at hs
    · rename_i hz
      rw [ho.fresh hz] at hx
      cases hx
    · exact hs
  refine ⟨htiles, hsizes, tiles_pairwise htiles, ho.sound.apart, base_sorted htiles, fun hne => ?_, fun ap => ?_⟩
  · have hsound := ho.sound
    rw [init_of_ne hne] at hsound
    exact ⟨hsound.ring, hsound.freep⟩
  · rw [ho.live]
    simp only [mem_lives, and_assoc]

end AdaptiveXv6.HeapRuns
