import Mathlib.Algebra.Group.Nat.Defs

namespace AdaptiveXv6.MemLayout

abbrev PGSIZE : Nat := 4096
abbrev MAXVA : Nat := 2 ^ 38
abbrev TRAMPOLINE : Nat := MAXVA - PGSIZE
abbrev TRAPFRAME : Nat := TRAMPOLINE - PGSIZE
abbrev KERNBASE : Nat := 0x80000000
abbrev PHYSTOP : Nat := KERNBASE + 128 * 1024 * 1024

def PGROUNDUP (n : Nat) : Nat := (n + PGSIZE - 1) / PGSIZE * PGSIZE

/-- PGROUNDDOWN -/
def pageOf (va : Nat) : Nat := va / PGSIZE * PGSIZE

theorem page_bounds (va : Nat) : va / PGSIZE * PGSIZE ≤ va ∧ va < va / PGSIZE * PGSIZE + PGSIZE := by
  have := Nat.div_add_mod va PGSIZE
  have := Nat.mod_lt va (show 0 < PGSIZE by decide)
  rw [Nat.mul_comm]
  omega

theorem page_of_lt {va a : Nat} (h : va ≤ a) (ha : a < va / PGSIZE * PGSIZE + PGSIZE) :
    a / PGSIZE * PGSIZE = va / PGSIZE * PGSIZE := by
  rw [Nat.div_eq_of_lt_le (k := va / PGSIZE)]
  · exact Nat.le_trans (page_bounds va).1 h
  · rw [Nat.succ_mul]
    exact ha

end AdaptiveXv6.MemLayout
