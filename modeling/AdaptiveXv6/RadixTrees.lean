import Mathlib.Data.List.Nodup
import Mathlib.Data.List.Lattice
import Mathlib.Data.List.Pairwise
import AdaptiveXv6.Radix

namespace AdaptiveXv6.RadixTrees

open MemLayout Words Radix

section Words

variable {pa pte f : Nat}

theorem pte_words (hpa : pa < 2 ^ 56) (hf : f < 1024) : PA2PTE pa ||| f = pa / 4096 * 1024 + f := by
  have hshift : (pa >>> 12) <<< 10 = pa / 4096 * 1024 := by
    rw [Nat.shiftRight_eq_div_pow, Nat.shiftLeft_eq]
  rw [PA2PTE, u64_of_lt (by rw [hshift]; omega), ← Nat.shiftLeft_add_eq_or_of_lt (by exact hf), hshift]

theorem pte2pa_eq (hpte : pte < 2 ^ 62) : PTE2PA pte = pte / 1024 * 4096 := by
  rw [PTE2PA, Nat.shiftRight_eq_div_pow, Nat.shiftLeft_eq, u64_of_lt (by omega)]

theorem pte2pa_pa2pte (hpa : pa < 2 ^ 56) (hf : f < 1024) : PTE2PA (PA2PTE pa ||| f) = pa / 4096 * 4096 := by
  rw [pte_words hpa hf, pte2pa_eq (by omega)]
  omega

theorem flags_pa2pte (hpa : pa < 2 ^ 56) (hf : f < 1024) : PTE_FLAGS (PA2PTE pa ||| f) = f := by
  rw [pte_words hpa hf, PTE_FLAGS, show (0x3FF : Nat) = 2 ^ 10 - 1 from rfl, Nat.and_two_pow_sub_one_eq_mod]
  omega

theorem px_eq (level va : Nat) : PX level va = va / 2 ^ (12 + 9 * level) % 512 := by
  rw [PX, Nat.shiftRight_eq_div_pow, show (0x1FF : Nat) = 2 ^ 9 - 1 from rfl, Nat.and_two_pow_sub_one_eq_mod]

theorem px_lt (level va : Nat) : PX level va < 512 := by
  rw [px_eq]
  exact Nat.mod_lt _ (by decide)

theorem px_parts {va : Nat} (hva : va < MAXVA) :
    va = ((PX 2 va * 512 + PX 1 va) * 512 + PX 0 va) * PGSIZE + va % PGSIZE := by
  have hva : va < 4096 * (512 * (512 * 512)) := by
    change va < 2 ^ 38 at hva
    omega
  simp only [px_eq, Nat.reduceMul, Nat.reduceAdd, Nat.reducePow]
  have hq : va / 4096 < 512 * (512 * 512) := Nat.div_lt_of_lt_mul hva
  have hmid : va / 2097152 = va / 4096 / 512 := (Nat.div_div_eq_div_mul va 4096 512).symm
  have htop : va / 1073741824 = va / 4096 / 512 / 512 := by
    rw [Nat.div_div_eq_div_mul, Nat.div_div_eq_div_mul]
  have hlt : va / 4096 / 512 / 512 < 512 := Nat.div_lt_of_lt_mul (Nat.div_lt_of_lt_mul hq)
  rw [htop, hmid, Nat.mod_eq_of_lt hlt, Nat.div_add_mod', Nat.div_add_mod', Nat.div_add_mod']

theorem valid_pte (hpa : pa < 2 ^ 56) : (PA2PTE pa ||| PTE_V) &&& PTE_V ≠ 0 ∧
    (PA2PTE pa ||| PTE_V) &&& (PTE_R ||| PTE_W ||| PTE_X) = 0 := by
  rw [pte_words hpa (by decide)]
  constructor
  · rw [Nat.and_one_is_mod]
    change (pa / 4096 * 1024 + 1) % 2 ≠ 0
    omega
  · have h : ∀ x : Nat, x &&& 14 = x % 16 &&& 14 := by
      intro x
      rw [← Nat.and_two_pow_sub_one_eq_mod x 4, Nat.and_assoc]
      rfl
    have hmod : (pa / 4096 * 1024 + 1) % 16 = 1 := by omega
    rw [show PTE_R ||| PTE_W ||| PTE_X = 14 from rfl, h, hmod]
    rfl

end Words

def child (s : Phys) (x i : Nat) : Option Nat :=
  if s.mem x i &&& PTE_V ≠ 0 then some (PTE2PA (s.mem x i)) else none

/-- The pages of the table at x, which is at the given level. -/
def pages (s : Phys) : Nat → Nat → List Nat
  | 0, x => [x]
  | level + 1, x => x :: indices.flatMap fun i => ((child s x i).map (pages s level)).getD []

/-- The valid entry for va below the table at x. -/
def find (s : Phys) (va : Nat) : Nat → Nat → Option Nat
  | 0, x => if s.mem x (PX 0 va) &&& PTE_V ≠ 0 then some (s.mem x (PX 0 va)) else none
  | level + 1, x => (child s x (PX (level + 1) va)).bind (find s va level)

/-- Valid entries above the last level have no leaf bits. -/
def Pointers (s : Phys) : Nat → Nat → Prop
  | 0, _ => True
  | level + 1, x => ∀ i c, i < 512 → child s x i = some c →
    s.mem x i &&& (PTE_R ||| PTE_W ||| PTE_X) = 0 ∧ Pointers s level c

variable {s t : Phys} {level x i c va : Nat}

def below (s : Phys) (level x i : Nat) : List Nat := ((child s x i).map (pages s level)).getD []

theorem pages_succ : pages s (level + 1) x = x :: indices.flatMap (below s level x) := by
  rw [pages]
  rfl

theorem mem_indices : i ∈ indices ↔ i < 512 := List.mem_range

theorem nodup_indices : indices.Nodup := List.nodup_range

theorem below_some (hc : child s x i = some c) : below s level x i = pages s level c := by
  rw [below, hc]
  rfl

theorem below_none (hc : child s x i = none) : below s level x i = [] := by
  rw [below, hc]
  rfl

theorem self_mem : x ∈ pages s level x := by
  cases level with
  | zero => exact List.mem_cons_self
  | succ level =>
    rw [pages_succ]
    exact List.mem_cons_self

theorem below_mem (hi : i < 512) {y : Nat} (hy : y ∈ below s level x i) : y ∈ pages s (level + 1) x := by
  rw [pages_succ]
  exact List.mem_cons_of_mem _ (List.mem_flatMap.mpr ⟨i, mem_indices.mpr hi, hy⟩)

theorem child_pages (hi : i < 512) (hc : child s x i = some c) {y : Nat} (hy : y ∈ pages s level c) :
    y ∈ pages s (level + 1) x := by
  rw [← below_some hc] at hy
  exact below_mem hi hy

theorem child_congr (h : t.mem x = s.mem x) (i : Nat) : child t x i = child s x i := by
  rw [child, child, h]

theorem below_congr (hc : child t x i = child s x i) (h : ∀ c, child s x i = some c → pages t level c = pages s level c) :
    below t level x i = below s level x i := by
  rw [below, hc]
  cases hs : child s x i with
  | none => exact (below_none hs).symm
  | some c =>
    rw [below_some hs]
    exact h c hs

theorem find_succ_congr (hc : child t x (PX (level + 1) va) = child s x (PX (level + 1) va))
    (h : ∀ c, child s x (PX (level + 1) va) = some c → find t va level c = find s va level c) :
    find t va (level + 1) x = find s va (level + 1) x := by
  rw [find, find, hc]
  cases hs : child s x (PX (level + 1) va) with
  | none => rfl
  | some c => exact h c hs

theorem pages_congr (h : ∀ y ∈ pages s level x, t.mem y = s.mem y) : pages t level x = pages s level x := by
  induction level generalizing x with
  | zero => rfl
  | succ level ih =>
    rw [pages_succ, pages_succ]
    refine congrArg (List.cons x) (List.flatMap_congr fun i hi => ?_)
    refine below_congr (child_congr (h x self_mem) i) fun c hc => ?_
    exact ih fun y hy => h y (child_pages (mem_indices.mp hi) hc hy)

theorem find_congr (h : ∀ y ∈ pages s level x, t.mem y = s.mem y) : find t va level x = find s va level x := by
  induction level generalizing x with
  | zero => rw [find, find, h x self_mem]
  | succ level ih =>
    refine find_succ_congr (child_congr (h x self_mem) _) fun c hc => ?_
    exact ih fun y hy => h y (child_pages (px_lt _ _) hc hy)

theorem pointers_congr (h : ∀ y ∈ pages s level x, t.mem y = s.mem y) (hp : Pointers s level x) :
    Pointers t level x := by
  induction level generalizing x with
  | zero => trivial
  | succ level ih =>
    intro i c hi hc
    rw [child_congr (h x self_mem)] at hc
    obtain ⟨hw, hpc⟩ := hp i c hi hc
    rw [h x self_mem]
    exact ⟨hw, ih (fun y hy => h y (child_pages hi hc hy)) hpc⟩

section Disjoint

variable (hn : (pages s (level + 1) x).Nodup)
include hn

theorem self_not_below (hi : i < 512) : x ∉ below s level x i := by
  rw [pages_succ] at hn
  exact fun hx => (List.nodup_cons.mp hn).1 (List.mem_flatMap.mpr ⟨i, mem_indices.mpr hi, hx⟩)

theorem nodup_below (hi : i < 512) : (below s level x i).Nodup := by
  rw [pages_succ] at hn
  exact (List.nodup_flatMap.mp (List.nodup_cons.mp hn).2).1 i (mem_indices.mpr hi)

theorem disjoint_below {j : Nat} (hi : i < 512) (hj : j < 512) (hne : i ≠ j) :
    List.Disjoint (below s level x i) (below s level x j) := by
  have : Std.Symm (Function.onFun List.Disjoint (below s level x)) := ⟨fun _ _ h => List.Disjoint.symm h⟩
  rw [pages_succ] at hn
  exact (List.nodup_flatMap.mp (List.nodup_cons.mp hn).2).2.forall (mem_indices.mpr hi) (mem_indices.mpr hj) hne

end Disjoint

theorem flatMap_one {l : List Nat} {f g : Nat → List Nat} {new : List Nat} (hl : l.Nodup) (hi : i ∈ l)
    (h : ∀ j ∈ l, j ≠ i → g j = f j) (hgi : (g i).Perm (f i ++ new)) :
    (l.flatMap g).Perm (l.flatMap f ++ new) := by
  induction l with
  | nil => cases hi
  | cons a l ih =>
    rw [List.flatMap_cons, List.flatMap_cons]
    by_cases ha : a = i
    · subst ha
      have hrest : l.flatMap g = l.flatMap f := List.flatMap_congr fun j hj =>
        h j (List.mem_cons_of_mem _ hj) (fun heq => (List.nodup_cons.mp hl).1 (heq ▸ hj))
      rw [hrest]
      refine (hgi.append_right _).trans ?_
      rw [List.append_assoc, List.append_assoc]
      exact List.perm_append_comm.append_left _
    · rw [h a List.mem_cons_self ha, List.append_assoc]
      refine List.Perm.append_left _ (ih (List.nodup_cons.mp hl).2 ?_ fun j hj => h j (List.mem_cons_of_mem _ hj))
      exact (List.mem_cons.mp hi).resolve_left fun heq => ha heq.symm

structure Extends (s t : Phys) (level x : Nat) (new : List Nat) : Prop where
  pages : (pages t level x).Perm (pages s level x ++ new)
  outside : ∀ y, y ∉ RadixTrees.pages s level x → y ∉ new → t.mem y = s.mem y
  pointers : Pointers s level x → Pointers t level x

theorem extends_of_mem (h : t.mem = s.mem) : Extends s t level x [] where
  pages := by
    rw [pages_congr fun y _ => congrFun h y, List.append_nil]
  outside y _ _ := congrFun h y
  pointers := pointers_congr fun y _ => congrFun h y

theorem Extends.trans {u : Phys} {new new' : List Nat} (h : Extends s t level x new) (h' : Extends t u level x new') :
    Extends s u level x (new ++ new') where
  pages := by
    rw [← List.append_assoc]
    exact h'.pages.trans (h.pages.append_right _)
  outside y hy hnew := by
    rw [List.mem_append, not_or] at hnew
    have hy' : y ∉ RadixTrees.pages t level x := fun hmem => by
      rcases List.mem_append.mp (h.pages.mem_iff.mp hmem) with hmem | hmem
      · exact hy hmem
      · exact hnew.1 hmem
    rw [h'.outside y hy' hnew.2, h.outside y hy hnew.1]
  pointers hp := h'.pointers (h.pointers hp)

theorem Extends.lift {new : List Nat} (hn : (RadixTrees.pages s (level + 1) x).Nodup) (hi : i < 512)
    (hc : child s x i = some c) (h : Extends s t level c new)
    (hnew : ∀ y ∈ new, y ∉ RadixTrees.pages s (level + 1) x) :
    Extends s t (level + 1) x new ∧ t.mem x = s.mem x ∧
      ∀ va, find t va (level + 1) x =
        if PX (level + 1) va = i then find t va level c else find s va (level + 1) x := by
  have hbelow : below s level x i = RadixTrees.pages s level c := below_some hc
  have hx : t.mem x = s.mem x := by
    refine h.outside x ?_ fun hx => hnew x hx self_mem
    rw [← hbelow]
    exact self_not_below hn hi
  have hsame : ∀ j, j < 512 → j ≠ i → ∀ d, child s x j = some d →
      ∀ y ∈ RadixTrees.pages s level d, t.mem y = s.mem y := by
    intro j hj hne d hd y hy
    rw [← below_some hd] at hy
    refine h.outside y (fun hyc => ?_) fun hynew => hnew y hynew (below_mem hj hy)
    rw [← hbelow] at hyc
    exact disjoint_below hn hj hi hne hy hyc
  refine ⟨⟨?_, ?_, ?_⟩, hx, ?_⟩
  · rw [pages_succ, pages_succ, List.cons_append]
    refine (flatMap_one nodup_indices (mem_indices.mpr hi) (fun j hj hne => ?_) ?_).cons x
    · refine below_congr (child_congr hx j) fun d hd => ?_
      exact pages_congr (hsame j (mem_indices.mp hj) hne d hd)
    · rw [hbelow, below_some ((child_congr hx i).trans hc)]
      exact h.pages
  · intro y hy hynew
    refine h.outside y (fun hyc => hy ?_) hynew
    rw [← hbelow] at hyc
    exact below_mem hi hyc
  · intro hp j d hj hd
    rw [child_congr hx] at hd
    obtain ⟨hw, hpd⟩ := hp j d hj hd
    rw [hx]
    refine ⟨hw, ?_⟩
    by_cases hji : j = i
    · rw [hji, hc] at hd
      cases hd
      exact h.pointers hpd
    · exact pointers_congr (hsame j hj hji d hd) hpd
  · intro va
    by_cases hpx : PX (level + 1) va = i
    · rw [if_pos hpx, find, child_congr hx, hpx, hc]
      rfl
    · rw [if_neg hpx]
      exact find_succ_congr (child_congr hx _) fun d hd => find_congr (hsame _ (px_lt _ _) hpx d hd)

end AdaptiveXv6.RadixTrees
