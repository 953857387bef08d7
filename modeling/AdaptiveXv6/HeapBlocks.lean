import Mathlib.Data.List.Chain
import AdaptiveXv6.Links
import AdaptiveXv6.UserHeap

namespace AdaptiveXv6.HeapBlocks

open Links UserHeap

/-- A block with its header, and whether the program has it. -/
structure Block where
  addr : Nat
  size : Nat
  live : Bool

variable {a b c : Nat} {x y : Block} {l l₁ l₂ L R : List Block}

/-- The blocks fill the memory from a to b. -/
def Tiles : Nat → List Block → Nat → Prop
  | a, [], b => a = b
  | a, x :: l, b => x.addr = a ∧ 0 < x.size ∧ Tiles (a + 16 * x.size) l b

theorem tiles_append : Tiles a (l₁ ++ l₂) c ↔ ∃ b, Tiles a l₁ b ∧ Tiles b l₂ c := by
  induction l₁ generalizing a with
  | nil => simp [Tiles]
  | cons x l ih => simp [Tiles, ih, and_assoc]

theorem tiles_le (h : Tiles a l b) : a ≤ b := by
  induction l generalizing a with
  | nil => exact Nat.le_of_eq h
  | cons x l ih =>
    have := ih h.2.2
    omega

theorem tiles_mem (h : Tiles a l b) (hx : x ∈ l) : a ≤ x.addr ∧ x.addr + 16 * x.size ≤ b ∧ 0 < x.size := by
  induction l generalizing a with
  | nil => cases hx
  | cons y l ih =>
    obtain ⟨hy, hpos, hl⟩ := h
    have hle := tiles_le hl
    rcases List.mem_cons.mp hx with rfl | hx
    · exact ⟨hy.ge, by omega, hpos⟩
    · obtain ⟨h₁, h₂⟩ := ih hl hx
      exact ⟨by omega, h₂⟩

theorem tiles_pairwise (h : Tiles a l b) : l.Pairwise fun x y => x.addr + 16 * x.size ≤ y.addr := by
  induction l generalizing a with
  | nil => exact List.Pairwise.nil
  | cons x l ih =>
    refine List.Pairwise.cons (fun y hy => ?_) (ih h.2.2)
    rw [h.1]
    exact (tiles_mem h.2.2 hy).1

theorem tiles_around (h : Tiles a (L ++ x :: R) b) :
    Tiles a L x.addr ∧ 0 < x.size ∧ Tiles (x.addr + 16 * x.size) R b := by
  obtain ⟨c, hL, hx, hpos, hR⟩ := tiles_append.mp h
  rw [hx]
  exact ⟨hL, hpos, hR⟩

theorem tiles_build (hL : Tiles a L x.addr) (hpos : 0 < x.size) (hR : Tiles (x.addr + 16 * x.size) R b) :
    Tiles a (L ++ x :: R) b := tiles_append.mpr ⟨_, hL, rfl, hpos, hR⟩

def frees (l : List Block) : List Nat := (l.filter fun x => !x.live).map Block.addr

theorem frees_append : frees (l₁ ++ l₂) = frees l₁ ++ frees l₂ := by
  rw [frees, List.filter_append, List.map_append]
  rfl

theorem frees_live (hx : x.live = true) : frees (x :: l) = frees l := by
  rw [frees, List.filter_cons_of_neg (by simp [hx])]
  rfl

theorem frees_free (hx : x.live = false) : frees (x :: l) = x.addr :: frees l := by
  rw [frees, List.filter_cons_of_pos (by simp [hx])]
  rfl

theorem mem_frees {p : Nat} : p ∈ frees l ↔ ∃ x ∈ l, x.live = false ∧ x.addr = p := by
  simp [frees, and_assoc]

theorem frees_sorted (h : Tiles a l b) : (frees l).Pairwise (· < ·) := by
  induction l generalizing a with
  | nil => exact List.Pairwise.nil
  | cons x l ih =>
    cases hx : x.live with
    | true =>
      rw [frees_live hx]
      exact ih h.2.2
    | false =>
      rw [frees_free hx]
      refine List.Pairwise.cons (fun p hp => ?_) (ih h.2.2)
      obtain ⟨y, hy, -, rfl⟩ := mem_frees.mp hp
      have := (tiles_mem h.2.2 hy).1
      have := h.1
      have := h.2.1
      omega

theorem frees_range {p : Nat} (h : Tiles a l b) (hp : p ∈ frees l) : a ≤ p ∧ p < b := by
  obtain ⟨x, hx, -, rfl⟩ := mem_frees.mp hp
  have := tiles_mem h hx
  omega

/-- No two free blocks touch. -/
def Apart (l : List Block) : Prop := l.IsChain fun x y => x.live = true ∨ y.live = true

structure Sound (m : Layout) (h : Heap) (l : List Block) : Prop where
  tiles : Tiles m.start l h.brk
  sizes : ∀ x ∈ l, h.size x.addr = x.size
  zero : h.size m.base = 0
  ring : Linked h.ptr m.base (frees l) m.base
  freep : h.freep ∈ m.base :: frees l
  apart : Apart l

variable {m : Layout} {h : Heap}

theorem Sound.base_lt (hs : Sound m h l) (hx : x ∈ l) : m.base + 16 ≤ x.addr :=
  m.below.trans (tiles_mem hs.tiles hx).1

theorem Sound.base_frees (hs : Sound m h l) {p : Nat} (hp : p ∈ frees l) : m.base < p := by
  have := (frees_range hs.tiles hp).1
  have := m.below
  omega

theorem base_sorted (h : Tiles m.start l b) : (m.base :: frees l).Pairwise (· < ·) := by
  refine List.Pairwise.cons (fun p hp => ?_) (frees_sorted h)
  have := (frees_range h hp).1
  have := m.below
  omega

section Search

variable {bp fuel p q : Nat} {F : List Nat}

theorem findPlace_mono {k : Nat} (hf : h.findPlace bp fuel p = some q) : h.findPlace bp (fuel + k) p = some q := by
  induction fuel generalizing p with
  | zero => cases hf
  | succ fuel ih =>
    rw [Nat.succ_add]
    rw [Heap.findPlace] at hf ⊢
    split at hf
    · rename_i hc
      rw [if_pos hc]
      exact hf
    · rename_i hc
      rw [if_neg hc]
      split at hf
      · rename_i hc'
        rw [if_pos hc']
        exact hf
      · rename_i hc'
        rw [if_neg hc']
        exact ih hf

theorem findPlace_below (hwalk : Walk h.ptr p F) (hsorted : (p :: F).Pairwise (· < ·)) (hbelow : ∀ c ∈ p :: F, c < bp)
    (hstop : bp < h.ptr (last p F) ∨ h.ptr (last p F) ≤ last p F) :
    h.findPlace bp (F.length + 1) p = some (last p F) := by
  have hp := hbelow p List.mem_cons_self
  induction F generalizing p with
  | nil =>
    rw [List.length_nil, Heap.findPlace]
    rcases hstop with hstop | hstop
    · exact if_pos ⟨hp, hstop⟩
    · split
      · rfl
      · exact if_pos ⟨hstop, .inl hp⟩
  | cons q F ih =>
    obtain ⟨hnext, hwalk⟩ := hwalk
    have hq := hbelow q (by simp)
    have hpq := (List.pairwise_cons.mp hsorted).1 q (by simp)
    rw [List.length_cons, Heap.findPlace, hnext, if_neg (by omega), if_neg (by omega)]
    exact ih hwalk (List.pairwise_cons.mp hsorted).2 (fun c hc => hbelow c (List.mem_cons_of_mem _ hc)) hstop hq

theorem findPlace_above {k base : Nat} (hlink : Linked h.ptr p F base) (hsorted : (p :: F).Pairwise (· < ·))
    (habove : ∀ c ∈ p :: F, bp < c) (hbase : base < bp) :
    h.findPlace bp (F.length + 1 + k) p = h.findPlace bp k base := by
  have hp := habove p List.mem_cons_self
  induction F generalizing p with
  | nil =>
    have hnext : h.ptr p = base := hlink.2
    rw [List.length_nil, Nat.zero_add, Nat.add_comm, Heap.findPlace, hnext, if_neg (by omega), if_neg (by omega)]
  | cons q F ih =>
    obtain ⟨hnext, hlink⟩ := linked_cons.mp hlink
    have hpq := (List.pairwise_cons.mp hsorted).1 q (by simp)
    have hq := habove q (by simp)
    rw [List.length_cons, Nat.add_right_comm, Heap.findPlace, hnext, if_neg (by omega), if_neg (by omega)]
    exact ih hlink (List.pairwise_cons.mp hsorted).2 (fun c hc => habove c (List.mem_cons_of_mem _ hc)) hq

theorem exists_findPlace (hs : Sound m h (L ++ x :: R)) (hx : x.live = true) :
    ∃ fuel, h.findPlace x.addr fuel h.freep = some (last m.base (frees L)) := by
  obtain ⟨hL, hpos, hR⟩ := tiles_around hs.tiles
  have hring := hs.ring
  have hfreep := hs.freep
  rw [frees_append, frees_live hx] at hring hfreep
  obtain ⟨hwalk, hrest⟩ := linked_append.mp hring
  have hsorted := base_sorted hL
  have hbelow : ∀ c ∈ m.base :: frees L, c < x.addr := by
    intro c hc
    rcases List.mem_cons.mp hc with rfl | hc
    · have := m.below
      have := tiles_le hL
      omega
    · exact (frees_range hL hc).2
  have habove : ∀ c ∈ frees R, x.addr < c := by
    intro c hc
    have := (frees_range hR hc).1
    omega
  have hstop : x.addr < h.ptr (last m.base (frees L)) ∨ h.ptr (last m.base (frees L)) ≤ last m.base (frees L) := by
    cases hfR : frees R with
    | nil =>
      rw [hfR] at hrest
      rw [show h.ptr (last m.base (frees L)) = m.base from hrest.2]
      rcases List.mem_cons.mp (last_mem (a := m.base) (l := frees L)) with heq | hmem
      · exact .inr heq.ge
      · exact .inr (Nat.le_of_lt ((List.pairwise_cons.mp hsorted).1 _ hmem))
    | cons c F =>
      rw [hfR] at hrest
      rw [(linked_cons.mp hrest).1]
      exact .inl (habove c (by rw [hfR]; exact List.mem_cons_self))
  have hfrom : ∀ p, p ∈ m.base :: frees L → ∃ fuel, h.findPlace x.addr fuel p = some (last m.base (frees L)) := by
    intro p hp
    obtain ⟨F₁, F₂, hF, rfl⟩ := exists_cut hp
    rw [hF] at hwalk hsorted hbelow hstop ⊢
    rw [last_append] at hstop ⊢
    have hsub : (last m.base F₁ :: F₂).Sublist (m.base :: (F₁ ++ F₂)) := by
      rcases List.eq_nil_or_concat F₁ with rfl | ⟨F, c, rfl⟩
      · exact List.Sublist.refl _
      · rw [List.concat_eq_append, last_concat, List.append_assoc]
        exact (List.sublist_append_right F _).trans (List.sublist_cons_self _ _)
    exact ⟨_, findPlace_below (walk_append.mp hwalk).2 (hsorted.sublist hsub) (fun c hc => hbelow c (hsub.subset hc)) hstop⟩
  rw [← List.cons_append] at hfreep
  rcases List.mem_append.mp hfreep with hp | hp
  · exact hfrom _ hp
  · obtain ⟨fuel, hbase⟩ := hfrom m.base List.mem_cons_self
    obtain ⟨F₁, F₂, hF⟩ := List.append_of_mem hp
    rw [hF] at hrest habove
    have hfR := frees_sorted hR
    rw [hF] at hfR
    have hlink := (linked_cons.mp (linked_append.mp hrest).2).2
    refine ⟨F₂.length + 1 + fuel, ?_⟩
    rw [findPlace_above hlink (hfR.sublist (List.sublist_append_right _ _))
      (fun c hc => habove c (List.mem_append_right _ hc)) (hbelow m.base List.mem_cons_self)]
    exact hbase

end Search

end AdaptiveXv6.HeapBlocks
