import AdaptiveXv6.HeapBlocks

namespace AdaptiveXv6.HeapFrees

open Words Links UserHeap HeapBlocks Function

variable {m : Layout} {h : Heap} {x y : Block} {l L R : List Block} {bp s : Nat}

def lives (l : List Block) : List Block := l.filter Block.live

theorem lives_append {l₁ l₂ : List Block} : lives (l₁ ++ l₂) = lives l₁ ++ lives l₂ :=
  List.filter_append l₁ l₂

theorem lives_live (hx : x.live = true) : lives (x :: l) = x :: lives l := List.filter_cons_of_pos hx

theorem lives_free (hx : x.live = false) : lives (x :: l) = lives l := List.filter_cons_of_neg (by simp [hx])

theorem apart_append_cons : Apart (L ++ x :: R) ↔ Apart L ∧ Apart R ∧
    (∀ y ∈ L.getLast?, y.live = true ∨ x.live = true) ∧ ∀ y ∈ R.head?, x.live = true ∨ y.live = true := by
  rw [Apart, List.isChain_append, List.isChain_cons]
  constructor
  · rintro ⟨hL, ⟨hx, hR⟩, hend⟩
    exact ⟨hL, hR, fun y hy => hend y hy x rfl, hx⟩
  · rintro ⟨hL, hR, hend, hx⟩
    refine ⟨hL, ⟨hx, hR⟩, ?_⟩
    rintro y hy _ ⟨⟩
    exact hend y hy

structure Half (m : Layout) (h : Heap) (L : List Block) (bp s : Nat) (R : List Block) : Prop where
  below : Tiles m.start L bp
  pos : 0 < s
  above : Tiles (bp + 16 * s) R h.brk
  sizes : ∀ x ∈ L ++ R, h.size x.addr = x.size
  size : h.size bp = s
  zero : h.size m.base = 0
  walk : Walk h.ptr m.base (frees L)
  link : Linked h.ptr bp (frees R) m.base
  apartL : Apart L
  apartR : Apart R
  next : ∀ y ∈ R.head?, y.live = true

theorem base_lt_of_tiles (hL : Tiles m.start L bp) : m.base < bp := by
  have := tiles_le hL
  have := m.below
  omega

theorem below_lt (hL : Tiles m.start L bp) {c : Nat} (hc : c ∈ m.base :: frees L) : c < bp := by
  rcases List.mem_cons.mp hc with rfl | hc
  · exact base_lt_of_tiles hL
  · exact (frees_range hL hc).2

theorem above_gt {e : Nat} (hpos : 0 < s) (hR : Tiles (bp + 16 * s) R e) {c : Nat} (hc : c ∈ frees R) : bp < c := by
  have := (frees_range hR hc).1
  omega

theorem base_nodup (hL : Tiles m.start L bp) : (m.base :: frees L).Nodup :=
  (base_sorted hL).imp fun h => Nat.ne_of_lt h

section Upper

variable (hs : Sound m h (L ++ x :: R)) (hx : x.live = true)
include hs hx

theorem ring_parts : Walk h.ptr m.base (frees L) ∧ Linked h.ptr (last m.base (frees L)) (frees R) m.base := by
  have hring := hs.ring
  rw [frees_append, frees_live hx] at hring
  exact linked_append.mp hring

theorem upper_joins (hy : y.live = false) (hR : R = y :: l) (hmem : h.brk < m.start + 2 ^ 31) :
    Half m (h.joinUpper x.addr (last m.base (frees L))) L x.addr (x.size + y.size) l := by
  subst hR
  obtain ⟨hL, hpos, hyR⟩ := tiles_around hs.tiles
  obtain ⟨hyaddr, hypos, htail⟩ := hyR
  obtain ⟨hwalk, hlink⟩ := ring_parts hs hx
  rw [frees_free hy] at hlink
  obtain ⟨hnext, hlink⟩ := linked_cons.mp hlink
  have hsx : h.size x.addr = x.size := hs.sizes x (by simp)
  have hsy : h.size y.addr = y.size := hs.sizes y (by simp)
  have htouch : x.addr + 16 * h.size x.addr = h.ptr (last m.base (frees L)) := by
    rw [hsx, hnext, hyaddr]
  have hsum : u32 (x.size + y.size) = x.size + y.size := by
    refine u32_of_lt ?_
    have := tiles_le hL
    have := tiles_le htail
    omega
  rw [Heap.joinUpper, if_pos htouch, hnext, hsx, hsy, hsum]
  have happ := (apart_append_cons.mp hs.apart)
  have hyapart := List.isChain_cons.mp happ.2.1
  have hend : Tiles (x.addr + 16 * (x.size + y.size)) l h.brk := by
    rw [Nat.mul_add, ← Nat.add_assoc]
    exact htail
  refine ⟨hL, Nat.add_pos_left hpos _, hend, ?_, update_self _ _ _, ?_, ?_, ?_, happ.1, hyapart.2, ?_⟩
  · intro z hz
    have hne : z.addr ≠ x.addr := by
      rcases List.mem_append.mp hz with hz | hz
      · have := tiles_mem hL hz
        omega
      · have := tiles_mem hend hz
        omega
    refine (update_of_ne hne _ _).trans (hs.sizes z ?_)
    rcases List.mem_append.mp hz with hz | hz
    · exact List.mem_append_left _ hz
    · exact List.mem_append_right _ (List.mem_cons_of_mem _ (List.mem_cons_of_mem _ hz))
  · exact (update_of_ne (Nat.ne_of_lt (base_lt_of_tiles hL)) _ _).trans hs.zero
  · exact walk_congr hwalk (base_nodup hL) fun c hc _ => update_of_ne (Nat.ne_of_lt (below_lt hL hc)) _ _
  · refine linked_shift hlink (update_self _ _ _) fun c hc => ?_
    exact update_of_ne (Nat.ne_of_gt (above_gt (Nat.add_pos_left hpos _) hend hc)) _ _
  · intro z hz
    exact (hyapart.1 z hz).resolve_left (by rw [hy]; decide)

theorem upper_stays (hR : ∀ y ∈ R.head?, y.live = true) :
    Half m (h.joinUpper x.addr (last m.base (frees L))) L x.addr x.size R := by
  obtain ⟨hL, hpos, hRt⟩ := tiles_around hs.tiles
  obtain ⟨hwalk, hlink⟩ := ring_parts hs hx
  have hsx : h.size x.addr = x.size := hs.sizes x (by simp)
  have hbase := base_lt_of_tiles hL
  have happ := apart_append_cons.mp hs.apart
  have hapart : x.addr + 16 * h.size x.addr ≠ h.ptr (last m.base (frees L)) := by
    rw [hsx]
    cases R with
    | nil =>
      rw [show h.ptr (last m.base (frees L)) = m.base from hlink.2]
      omega
    | cons y l =>
      have hy := hR y rfl
      obtain ⟨hyaddr, hypos, htail⟩ := hRt
      rw [frees_live hy] at hlink
      cases hF : frees l with
      | nil =>
        rw [hF] at hlink
        rw [show h.ptr (last m.base (frees L)) = m.base from hlink.2]
        omega
      | cons c F =>
        rw [hF] at hlink
        rw [(linked_cons.mp hlink).1]
        have := (frees_range htail (by rw [hF]; exact List.mem_cons_self : c ∈ frees l)).1
        omega
  rw [Heap.joinUpper, if_neg hapart]
  refine ⟨hL, hpos, hRt, ?_, hsx, hs.zero, ?_, ?_, happ.1, happ.2.1, hR⟩
  · intro z hz
    refine hs.sizes z ?_
    rcases List.mem_append.mp hz with hz | hz
    · exact List.mem_append_left _ hz
    · exact List.mem_append_right _ (List.mem_cons_of_mem _ hz)
  · exact walk_congr hwalk (base_nodup hL) fun c hc _ => update_of_ne (Nat.ne_of_lt (below_lt hL hc)) _ _
  · refine linked_shift hlink (update_self _ _ _) fun c hc => ?_
    exact update_of_ne (Nat.ne_of_gt (above_gt hpos hRt hc)) _ _

theorem exists_half (hmem : h.brk < m.start + 2 ^ 31) :
    ∃ s R', Half m (h.joinUpper x.addr (last m.base (frees L))) L x.addr s R' ∧ x.size ≤ s ∧ lives R' = lives R := by
  cases R with
  | nil => exact ⟨_, _, upper_stays hs hx nofun, Nat.le_refl _, rfl⟩
  | cons y l =>
    cases hy : y.live with
    | true =>
      refine ⟨_, _, upper_stays hs hx ?_, Nat.le_refl _, rfl⟩
      rintro _ ⟨⟩
      exact hy
    | false => exact ⟨_, l, upper_joins hs hx hy rfl hmem, Nat.le_add_right _ _, (lives_free hy).symm⟩

end Upper

theorem joinUpper_brk (h : Heap) (bp p : Nat) : (h.joinUpper bp p).brk = h.brk := by
  rw [Heap.joinUpper]
  split <;> rfl

theorem joinLower_brk (h : Heap) (bp p : Nat) : (h.joinLower bp p).brk = h.brk ∧ (h.joinLower bp p).freep = p := by
  rw [Heap.joinLower]
  split <;> exact ⟨rfl, rfl⟩

section Lower

variable (hh : Half m h L bp s R)
include hh

theorem lower_joins {z : Block} (hz : z.live = false) (hL : L = l ++ [z]) (hmem : h.brk < m.start + 2 ^ 31) :
    Sound m (h.joinLower bp (last m.base (frees L))) (l ++ ⟨z.addr, z.size + s, false⟩ :: R) := by
  subst hL
  obtain ⟨hl, hzpos, hzend⟩ := tiles_around hh.below
  have hzend : z.addr + 16 * z.size = bp := hzend
  have hfrees : frees (l ++ [z]) = frees l ++ [z.addr] := by
    rw [frees_append, frees_free hz]
    rfl
  have hlast : last m.base (frees (l ++ [z])) = z.addr := by rw [hfrees, last_concat]
  have hsz : h.size z.addr = z.size := hh.sizes z (by simp)
  have hsum : u32 (z.size + s) = z.size + s := by
    refine u32_of_lt ?_
    have := tiles_le hl
    have := tiles_le hh.above
    omega
  have hend : Tiles (z.addr + 16 * (z.size + s)) R h.brk := by
    rw [Nat.mul_add, ← Nat.add_assoc, hzend]
    exact hh.above
  rw [hlast, Heap.joinLower, if_pos (by rw [hsz, hzend]), hsz, hh.size, hsum]
  have hlt : ∀ c ∈ frees R, z.addr < c := fun c hc => above_gt (Nat.add_pos_left hzpos s) hend hc
  refine ⟨tiles_build hl (Nat.add_pos_left hzpos s) hend, ?_, ?_, ?_, ?_, ?_⟩
  · intro y hy
    rcases List.mem_append.mp hy with hy | hy
    · have hne : y.addr ≠ z.addr := by
        have := tiles_mem hl hy
        omega
      exact (update_of_ne hne _ _).trans (hh.sizes y (by simp [hy]))
    rcases List.mem_cons.mp hy with rfl | hy
    · exact update_self _ _ _
    · have hne : y.addr ≠ z.addr := by
        have := tiles_mem hend hy
        omega
      exact (update_of_ne hne _ _).trans (hh.sizes y (by simp [hy]))
  · exact (update_of_ne (Nat.ne_of_lt (base_lt_of_tiles hl)) _ _).trans hh.zero
  · rw [frees_append, frees_free rfl, ← List.singleton_append, ← List.append_assoc, ← hfrees]
    refine linked_append.mpr ⟨?_, ?_⟩
    · refine walk_congr hh.walk (base_nodup hh.below) fun c _ hc => ?_
      rw [hlast] at hc
      exact update_of_ne hc _ _
    · rw [hlast]
      exact linked_shift hh.link (update_self _ _ _)
        fun c hc => update_of_ne (Nat.ne_of_gt (hlt c hc)) _ _
  · rw [frees_append, frees_free rfl]
    simp
  · have happ := apart_append_cons.mp hh.apartL
    refine apart_append_cons.mpr ⟨happ.1, hh.apartR, fun y hy => ?_, fun y hy => .inr (hh.next y hy)⟩
    exact (happ.2.2.1 y hy).imp_right fun hlive => by rw [hz] at hlive; cases hlive

theorem lower_stays (hL : ∀ y ∈ L.getLast?, y.live = true) :
    Sound m (h.joinLower bp (last m.base (frees L))) (L ++ ⟨bp, s, false⟩ :: R) := by
  have hbase := base_lt_of_tiles hh.below
  have hlast : last m.base (frees L) < bp := below_lt hh.below last_mem
  have hapart : last m.base (frees L) + 16 * h.size (last m.base (frees L)) ≠ bp := by
    rcases List.mem_cons.mp (last_mem (a := m.base) (l := frees L)) with heq | hmem
    · rw [heq, hh.zero]
      omega
    · obtain ⟨z, hz, hfree, haddr⟩ := mem_frees.mp hmem
      rcases List.eq_nil_or_concat L with hnil | ⟨l, w, hw⟩
      · rw [hnil] at hz
        cases hz
      · rw [List.concat_eq_append] at hw
        have hlive : w.live = true := hL w (by rw [hw]; simp)
        have hbelow := hh.below
        rw [hw] at hz hbelow
        obtain ⟨hl, hwpos, hwend⟩ := tiles_around hbelow
        have hwend : w.addr + 16 * w.size = bp := hwend
        have hzl : z ∈ l := by
          rcases List.mem_append.mp hz with hz | hz
          · exact hz
          · rw [List.mem_singleton.mp hz, hlive] at hfree
            cases hfree
        have := tiles_mem hl hzl
        rw [← haddr, hh.sizes z (by rw [hw]; simp [hzl])]
        omega
  rw [Heap.joinLower, if_neg hapart]
  refine ⟨tiles_build hh.below hh.pos hh.above, ?_, hh.zero, ?_, ?_, ?_⟩
  · intro y hy
    rcases List.mem_append.mp hy with hy | hy
    · exact hh.sizes y (by simp [hy])
    rcases List.mem_cons.mp hy with rfl | hy
    · exact hh.size
    · exact hh.sizes y (by simp [hy])
  · rw [frees_append, frees_free rfl]
    refine linked_append.mpr ⟨?_, linked_cons.mpr ⟨update_self _ _ _, ?_⟩⟩
    · exact walk_congr hh.walk (base_nodup hh.below) fun c _ hc => update_of_ne hc _ _
    · refine linked_congr hh.link fun c hc => update_of_ne ?_ _ _
      rcases List.mem_cons.mp hc with rfl | hc
      · exact Nat.ne_of_gt hlast
      · exact Nat.ne_of_gt (Nat.lt_trans hlast (above_gt hh.pos hh.above hc))
  · rw [frees_append, ← List.cons_append]
    exact List.mem_append_left _ last_mem
  · exact apart_append_cons.mpr ⟨hh.apartL, hh.apartR, fun y hy => .inl (hL y hy), fun y hy => .inr (hh.next y hy)⟩

end Lower

structure Freed (m : Layout) (h h' : Heap) (L : List Block) (x : Block) (R l : List Block) : Prop where
  sound : Sound m h' l
  brk : h'.brk = h.brk
  lives : lives l = lives L ++ lives R
  room : ∃ y ∈ l, y.live = false ∧ x.size ≤ y.size

theorem exists_freed (hs : Sound m h (L ++ x :: R)) (hx : x.live = true) (hmem : h.brk < m.start + 2 ^ 31) :
    ∃ l, Freed m h ((h.joinUpper x.addr (last m.base (frees L))).joinLower x.addr (last m.base (frees L))) L x R l := by
  obtain ⟨s, R', hh, hsize, hlives⟩ := exists_half hs hx hmem
  have hbrk := joinUpper_brk h x.addr (last m.base (frees L))
  have hmem' : (h.joinUpper x.addr (last m.base (frees L))).brk < m.start + 2 ^ 31 := by
    rw [hbrk]
    exact hmem
  have hbrk' := (joinLower_brk (h.joinUpper x.addr (last m.base (frees L))) x.addr (last m.base (frees L))).1
  have hstay : (∀ y ∈ L.getLast?, y.live = true) →
      ∃ l, Freed m h ((h.joinUpper x.addr (last m.base (frees L))).joinLower x.addr (last m.base (frees L))) L x R l := by
    intro hL
    refine ⟨_, lower_stays hh hL, hbrk'.trans hbrk, ?_, ⟨x.addr, s, false⟩, by simp, rfl, hsize⟩
    rw [lives_append, lives_free rfl, hlives]
  rcases List.eq_nil_or_concat L with hnil | ⟨l, z, hL⟩
  · refine hstay ?_
    rw [hnil]
    rintro _ ⟨⟩
  · rw [List.concat_eq_append] at hL
    cases hz : z.live with
    | true =>
      refine hstay ?_
      rw [hL]
      intro y hy
      rw [List.getLast?_concat] at hy
      cases hy
      exact hz
    | false =>
      refine ⟨_, lower_joins hh hz hL hmem', hbrk'.trans hbrk, ?_, ⟨z.addr, z.size + s, false⟩, by simp, rfl, ?_⟩
      · rw [lives_append, lives_free rfl, hlives, hL, lives_append, lives_free hz]
        simp [lives]
      · exact Nat.le_trans hsize (Nat.le_add_left _ _)

theorem exists_free (hs : Sound m h (L ++ x :: R)) (hx : x.live = true) (hmem : h.brk < m.start + 2 ^ 31) :
    ∃ fuel h' l, (∀ k, h.free (fuel + k) (x.addr + 16) = some h') ∧ Freed m h h' L x R l := by
  obtain ⟨fuel, hfind⟩ := exists_findPlace hs hx
  obtain ⟨l, hfreed⟩ := exists_freed hs hx hmem
  refine ⟨fuel, _, l, fun k => ?_, hfreed⟩
  rw [Heap.free, Nat.add_sub_cancel, findPlace_mono hfind]
  rfl

end AdaptiveXv6.HeapFrees
