import Mathlib.Order.Interval.Finset.Nat
import AdaptiveXv6.Holdings
import AdaptiveXv6.PageTables

namespace AdaptiveXv6.PageOwnership

open MemLayout Programs Holdings PageTables Function

variable {P : Type} {s t u : Vm P} {q : Option P} {L : List Nat} {lo v x : Nat}

/-- The pages below the trapframe, which belong to the leaves that map them. -/
abbrev UPAGES : Nat := TRAPFRAME / PGSIZE

inductive Place (P : Type)
  | table (q : Option P) (l i : Nat)
  | leaf (q : Option P) (v : Nat)
  | extra (a : Extra P)
deriving DecidableEq

def userPage (pt : PageTable) (v : Nat) : Nat := if v < UPAGES then (pt.leaf v).elim 0 Pte.page else 0

def holds (s : Vm P) : Place P → Nat
  | .table q l i => (s.pt q).table l i
  | .leaf q v => userPage (s.pt q) v
  | .extra a => s.extra a

/-- A page table is a tree: what is below a table is there only with the table. -/
structure Shape (pt : PageTable) : Prop where
  parent : ∀ l i, l < 2 → pt.table l i ≠ 0 → pt.table (l + 1) (i / 512) ≠ 0
  bound : ∀ l i, pt.table l i ≠ 0 → l ≤ 2 ∧ i < 512 ^ (2 - l)
  leaf : ∀ v, pt.leaf v ≠ none → pt.table 0 (v / 512) ≠ 0 ∧ v < MAXVA / PGSIZE
  page : ∀ v e, v < UPAGES → pt.leaf v = some e → e.page ≠ 0

/-- Each page after the kernel is on the free list once, or in the list L of pages taken by the running code
once, or has one owner. -/
structure Owned (lo : Nat) (L : List Nat) (s : Vm P) : Prop where
  held : Held lo STOPPAGE (holds s) fun y => decide (y ∉ s.free ++ L)
  nodup : (s.free ++ L).Nodup
  below : ∀ y ∈ s.free ++ L, y < STOPPAGE
  shape : ∀ q, Shape (s.pt q)
  pos : 0 < lo

structure Apart (q : Option P) (s t : Vm P) : Prop where
  others : ∀ r, r ≠ q → t.pt r = s.pt r
  extra : t.extra = s.extra
  sz : t.sz = s.sz
  mode : t.mode = s.mode
  regs : t.regs = s.regs

theorem Apart.refl (q : Option P) (s : Vm P) : Apart q s s := ⟨fun _ _ => rfl, rfl, rfl, rfl, rfl⟩

theorem Apart.trans (h : Apart q s t) (h' : Apart q t u) : Apart q s u :=
  ⟨fun r hr => (h'.others r hr).trans (h.others r hr), h'.extra.trans h.extra, h'.sz.trans h.sz, h'.mode.trans h.mode,
    h'.regs.trans h.regs⟩

structure Only (q : Option P) (s t : Vm P) : Prop extends Apart q s t where
  root : (t.pt q).root = (s.pt q).root

theorem Only.refl (q : Option P) (s : Vm P) : Only q s s := ⟨Apart.refl q s, rfl⟩

theorem Only.trans (h : Only q s t) (h' : Only q t u) : Only q s u :=
  ⟨h.toApart.trans h'.toApart, h'.root.trans h.root⟩

structure Quiet (s t : Vm P) : Prop where
  pt : t.pt = s.pt
  extra : t.extra = s.extra
  sz : t.sz = s.sz
  mode : t.mode = s.mode
  regs : t.regs = s.regs

theorem Quiet.only (h : Quiet s t) (q : Option P) : Only q s t :=
  ⟨⟨fun r _ => by rw [h.pt], h.extra, h.sz, h.mode, h.regs⟩, by rw [h.pt]⟩

theorem Quiet.trans (h : Quiet s t) (h' : Quiet t u) : Quiet s u :=
  ⟨h'.pt.trans h.pt, h'.extra.trans h.extra, h'.sz.trans h.sz, h'.mode.trans h.mode, h'.regs.trans h.regs⟩

theorem holds_congr (hpt : t.pt = s.pt) (hextra : t.extra = s.extra) : holds t = holds s := by
  funext a
  cases a with
  | table q l i => simp only [holds, hpt]
  | leaf q v => simp only [holds, hpt]
  | extra a => simp only [holds, hextra]

namespace Owned

theorem perm {L' : List Nat} (h : Owned lo L s) (hpt : t.pt = s.pt) (hextra : t.extra = s.extra)
    (hp : (t.free ++ L').Perm (s.free ++ L)) : Owned lo L' t := by
  have hmem : ∀ y, y ∈ t.free ++ L' ↔ y ∈ s.free ++ L := fun y => hp.mem_iff
  refine ⟨?_, hp.nodup_iff.mpr h.nodup, fun y hy => h.below y ((hmem y).mp hy), fun q => by rw [hpt]; exact h.shape q,
    h.pos⟩
  rw [holds_congr hpt hextra]
  simp only [hmem]
  exact h.held

theorem of_holds (h : Owned lo L s) (ht : holds t = holds s) (hfree : t.free = s.free)
    (hshape : ∀ q, Shape (t.pt q)) : Owned lo L t := by
  refine ⟨?_, by rw [hfree]; exact h.nodup, by rw [hfree]; exact h.below, hshape, h.pos⟩
  rw [ht, hfree]
  exact h.held

theorem range (h : Owned lo L s) {y : Nat} (hy : y ∈ s.free ++ L) : lo ≤ y ∧ y < STOPPAGE :=
  ⟨h.held.lo_le (decide_eq_false (not_not.mpr hy)), h.below y hy⟩

theorem ne_zero (h : Owned lo L s) {y : Nat} (hy : y ∈ s.free ++ L) : y ≠ 0 := by
  have := (h.range hy).1
  have := h.pos
  omega

end Owned

section Alloc

theorem kalloc_cases {Q : Nat → Vm P → Prop} {E : Panic → Prop}
    (hfail : s.luck 0 = false ∨ s.free = [] → Q 0 { s with luck := fun k => s.luck (k + 1) })
    (htake : ∀ x free, s.free = x :: free →
      Q x { s with luck := fun k => s.luck (k + 1), free := free, byte := update s.byte x fun _ => 5 }) :
    Wp kalloc s Q E := by
  cases hl : s.luck 0 with
  | false => exact wp_of_ok (by simp [kalloc, hl]) (hfail (.inl hl))
  | true => cases hf : s.free with
    | nil => exact wp_of_ok (by simp [kalloc, hl, hf]) (hfail (.inr hf))
    | cons x free => exact wp_of_ok (by simp [kalloc, hl, hf]) (htake x free hf)

theorem kalloc_spec (h : Owned lo L s) : Wp kalloc s
    (fun x t => Quiet s t ∧ (x = 0 ∧ Owned lo L t ∨ x ≠ 0 ∧ Owned lo (x :: L) t)) fun _ => False := by
  refine kalloc_cases (fun _ => ⟨⟨rfl, rfl, rfl, rfl, rfl⟩, .inl ⟨rfl, h.perm rfl rfl (List.Perm.refl _)⟩⟩) ?_
  intro x free hf
  refine ⟨⟨rfl, rfl, rfl, rfl, rfl⟩, .inr ⟨h.ne_zero (by rw [hf]; simp), h.perm rfl rfl ?_⟩⟩
  rw [hf]
  exact List.perm_middle

theorem kfree_eq (s : Vm P) (hlo : lo ≤ x) (hhi : x < STOPPAGE) :
    kfree lo x s = .ok ((), { s with free := x :: s.free, byte := update s.byte x fun _ => 1 }) := by
  rw [kfree, if_neg (by omega)]

theorem kfree_spec (h : Owned lo (x :: L) s) :
    Wp (kfree lo x) s (fun _ t => Quiet s t ∧ Owned lo L t) fun _ => False := by
  obtain ⟨hlo, hhi⟩ := h.range (y := x) (by simp)
  refine wp_of_ok (kfree_eq s hlo hhi) ?_
  exact ⟨⟨rfl, rfl, rfl, rfl, rfl⟩, h.perm rfl rfl List.perm_middle.symm⟩

theorem memset_spec (h : Owned lo L s) (x : Nat) (b : Bytes.Byte) :
    Wp (memset x b) s (fun _ t => Quiet s t ∧ Owned lo L t) fun _ => False :=
  ⟨⟨rfl, rfl, rfl, rfl, rfl⟩, h.perm rfl rfl (List.Perm.refl _)⟩

end Alloc

variable [DecidableEq P]

theorem apart_withPt (s : Vm P) (q : Option P) (pt : PageTable) : Apart q s (s.withPt q pt) :=
  ⟨fun _ hr => update_of_ne hr .., rfl, rfl, rfl, rfl⟩

section Moves

namespace Owned

theorem attach (h : Owned lo (x :: L) s) {a : Place P} (ha : holds s a = 0) (hfree : t.free = s.free)
    (ht : holds t = update (holds s) a x) (hshape : ∀ q, Shape (t.pt q)) : Owned lo L t := by
  have hx : x ∈ s.free ++ x :: L := by simp
  have hperm : (s.free ++ x :: L).Perm (x :: (s.free ++ L)) := List.perm_middle
  have hnodup := hperm.nodup_iff.mp h.nodup
  obtain ⟨hnot, hrest⟩ := List.nodup_cons.mp hnodup
  have hheld := h.held.attach ha (decide_eq_false (not_not.mpr hx)) h.pos (h.range hx).2
  refine ⟨?_, by rw [hfree]; exact hrest, ?_, hshape, h.pos⟩
  · rw [ht, hfree]
    convert hheld using 1
    funext y
    by_cases hy : y = x
    · rw [hy, update_self]
      exact decide_eq_true hnot
    · rw [update_of_ne hy]
      have hiff : y ∈ s.free ++ L ↔ y ∈ s.free ++ x :: L := by simp [hy]
      exact decide_eq_decide.mpr (not_congr hiff)
  · intro y hy
    rw [hfree] at hy
    exact h.below y (hperm.mem_iff.mpr (List.mem_cons_of_mem _ hy))

theorem detach (h : Owned lo L s) {a : Place P} (ha : holds s a ≠ 0) (hfree : t.free = s.free)
    (ht : holds t = update (holds s) a 0) (hshape : ∀ q, Shape (t.pt q)) :
    Owned lo (holds s a :: L) t := by
  have hmark := of_decide_eq_true (h.held.marks a ha)
  have hperm : (s.free ++ holds s a :: L).Perm (holds s a :: (s.free ++ L)) := List.perm_middle
  have hheld := h.held.detach ha
  refine ⟨?_, ?_, ?_, hshape, h.pos⟩
  · rw [ht, hfree]
    convert hheld using 1
    funext y
    by_cases hy : y = holds s a
    · rw [hy, update_self]
      exact decide_eq_false (not_not.mpr (by simp))
    · rw [update_of_ne hy]
      have hiff : y ∈ s.free ++ holds s a :: L ↔ y ∈ s.free ++ L := by simp [hy]
      exact decide_eq_decide.mpr (not_congr hiff)
  · rw [hfree]
    exact hperm.nodup_iff.mpr (List.nodup_cons.mpr ⟨hmark, h.nodup⟩)
  · intro y hy
    rw [hfree] at hy
    rcases List.mem_cons.mp (hperm.mem_iff.mp hy) with rfl | hy
    · exact (h.held.range a ha).2
    · exact h.below y hy

end Owned

end Moves

end AdaptiveXv6.PageOwnership
