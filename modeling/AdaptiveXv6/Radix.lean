import Mathlib.Logic.Function.Basic
import AdaptiveXv6.MemLayout
import AdaptiveXv6.Words

namespace AdaptiveXv6.Radix

open MemLayout Words Function

abbrev PTE_V : Nat := 1
abbrev PTE_R : Nat := 2
abbrev PTE_W : Nat := 4
abbrev PTE_X : Nat := 8

def PA2PTE (pa : Nat) : Nat := u64 ((pa >>> 12) <<< 10)

def PTE2PA (pte : Nat) : Nat := u64 ((pte >>> 10) <<< 12)

def PTE_FLAGS (pte : Nat) : Nat := pte &&& 0x3FF

def PX (level va : Nat) : Nat := (va >>> (12 + 9 * level)) &&& 0x1FF

inductive Panic
  | walk
  | vaAligned
  | sizeAligned
  | size
  | remap
  | unmapAligned
  | freewalkLeaf
  | kfree
  deriving DecidableEq, Repr

inductive Error
  | fuel
  | panic (p : Panic)
  deriving DecidableEq, Repr

/-- Physical memory: the 512 words of the page at an address, and the free pages. -/
structure Phys where
  mem : Nat → Nat → Nat
  free : List Nat

namespace Phys

def fill (s : Phys) (x w : Nat) : Phys := { s with mem := update s.mem x fun _ => w }

def store (s : Phys) (x i w : Nat) : Phys :=
  { s with mem := update s.mem x (update (s.mem x) i w) }

end Phys

def kalloc (s : Phys) : Nat × Phys := match s.free with
  | [] => (0, s)
  | x :: free => (x, { s.fill x 0x0505050505050505 with free := free })

section Tables

-- lo is the address of the first page after the kernel
variable (lo : Nat)

def kfree (x : Nat) (s : Phys) : Except Error Phys :=
  if x % PGSIZE ≠ 0 ∨ x < lo ∨ PHYSTOP ≤ x then .error (.panic .kfree)
  else .ok { s.fill x 0x0101010101010101 with free := x :: s.free }

def walkLoop (va : Nat) (alloc : Bool) : Nat → Nat → Phys → Option (Nat × Nat) × Phys
  | 0, pagetable, s => (some (pagetable, PX 0 va), s)
  | level + 1, pagetable, s =>
    if s.mem pagetable (PX (level + 1) va) &&& PTE_V ≠ 0 then
      walkLoop va alloc level (PTE2PA (s.mem pagetable (PX (level + 1) va))) s
    else if alloc = false then (none, s)
    else if (kalloc s).1 = 0 then (none, (kalloc s).2)
    else
      walkLoop va alloc level (kalloc s).1
        (((kalloc s).2.fill (kalloc s).1 0).store pagetable (PX (level + 1) va) (PA2PTE (kalloc s).1 ||| PTE_V))

def walk (pagetable va : Nat) (alloc : Bool) (s : Phys) : Except Error (Option (Nat × Nat) × Phys) :=
  if va ≥ MAXVA then .error (.panic .walk) else .ok (walkLoop va alloc 2 pagetable s)

def mapLoop (pagetable last perm : Nat) : Nat → Nat → Nat → Phys → Except Error (Int × Phys)
  | 0, _, _, _ => .error .fuel
  | fuel + 1, a, pa, s => match walk pagetable a true s with
    | .error e => .error e
    | .ok (none, s) => .ok (-1, s)
    | .ok (some (x, i), s) =>
      if s.mem x i &&& PTE_V ≠ 0 then .error (.panic .remap)
      else if a = last then .ok (0, s.store x i (PA2PTE pa ||| perm ||| PTE_V))
      else mapLoop pagetable last perm fuel (u64 (a + PGSIZE)) (u64 (pa + PGSIZE))
        (s.store x i (PA2PTE pa ||| perm ||| PTE_V))

def mappages (pagetable va size pa perm : Nat) (s : Phys) : Except Error (Int × Phys) :=
  if va % PGSIZE ≠ 0 then .error (.panic .vaAligned)
  else if size % PGSIZE ≠ 0 then .error (.panic .sizeAligned)
  else if size = 0 then .error (.panic .size)
  else mapLoop pagetable (u64 (va + size - PGSIZE)) perm (size / PGSIZE) va pa s

def unmapLoop (pagetable stop : Nat) (doFree : Bool) : Nat → Nat → Phys → Except Error Phys
  | 0, a, s => if a < stop then .error .fuel else .ok s
  | fuel + 1, a, s =>
    if a < stop then
      match walk pagetable a false s with
      | .error e => .error e
      | .ok (none, s) => unmapLoop pagetable stop doFree fuel (u64 (a + PGSIZE)) s
      | .ok (some (x, i), s) =>
        if s.mem x i &&& PTE_V = 0 then unmapLoop pagetable stop doFree fuel (u64 (a + PGSIZE)) s
        else if doFree then
          match kfree lo (PTE2PA (s.mem x i)) s with
          | .error e => .error e
          | .ok s => unmapLoop pagetable stop doFree fuel (u64 (a + PGSIZE)) (s.store x i 0)
        else unmapLoop pagetable stop doFree fuel (u64 (a + PGSIZE)) (s.store x i 0)
    else .ok s

def uvmunmap (pagetable va npages : Nat) (doFree : Bool) (s : Phys) : Except Error Phys :=
  if va % PGSIZE ≠ 0 then .error (.panic .unmapAligned)
  else unmapLoop lo pagetable (u64 (va + npages * PGSIZE)) doFree npages va s

def indices : List Nat := List.range 512

/-- The loop of freewalk() over the entries; the recursive call is an argument. -/
def freeEntries (freewalk : Nat → Phys → Except Error Phys) (pagetable : Nat) :
    List Nat → Phys → Except Error Phys
  | [], s => .ok s
  | i :: is, s =>
    if s.mem pagetable i &&& PTE_V ≠ 0 ∧ s.mem pagetable i &&& (PTE_R ||| PTE_W ||| PTE_X) = 0 then
      match freewalk (PTE2PA (s.mem pagetable i)) s with
      | .error e => .error e
      | .ok s => freeEntries freewalk pagetable is (s.store pagetable i 0)
    else if s.mem pagetable i &&& PTE_V ≠ 0 then .error (.panic .freewalkLeaf)
    else freeEntries freewalk pagetable is s

/-- The fuel bounds the depth of the recursion. -/
def freewalk : Nat → Nat → Phys → Except Error Phys
  | 0, _, _ => .error .fuel
  | depth + 1, pagetable, s => do
    let s ← freeEntries (freewalk depth) pagetable indices s
    kfree lo pagetable s

end Tables

end AdaptiveXv6.Radix
