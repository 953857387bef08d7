import Mathlib.Algebra.Group.Int.Defs
import Mathlib.Algebra.Group.Nat.Defs
import Mathlib.Data.Int.Order.Basic

namespace AdaptiveXv6.Words

def u32 (n : Nat) : Nat := n % 2 ^ 32

def u64 (n : Nat) : Nat := n % 2 ^ 64

/-- Two's complement truncation to a signed 32-bit word, for conversions and for sums that overflow. -/
def i32 (z : Int) : Int := (BitVec.ofInt 32 z).toInt

/-- The unsigned word with the same bits as a signed one. -/
def u32OfInt (z : Int) : Nat := (BitVec.ofInt 32 z).toNat

theorem u32_of_lt {n : Nat} (h : n < 2 ^ 32) : u32 n = n := Nat.mod_eq_of_lt h

theorem u64_of_lt {n : Nat} (h : n < 2 ^ 64) : u64 n = n := Nat.mod_eq_of_lt h

theorem u32_add_left (m n : Nat) : u32 (u32 m + n) = u32 (m + n) := Nat.mod_add_mod m (2 ^ 32) n

theorem u64_lt (n : Nat) : u64 n < 2 ^ 64 := Nat.mod_lt _ (by decide)

theorem u64_add_left (m n : Nat) : u64 (u64 m + n) = u64 (m + n) := Nat.mod_add_mod m (2 ^ 64) n

theorem i32_of_range {z : Int} (hl : -2 ^ 31 ≤ z) (hu : z < 2 ^ 31) : i32 z = z := by
  rw [i32, BitVec.toInt_ofInt]
  apply Int.bmod_eq_of_le <;> omega

theorem i32_range (z : Int) : -2 ^ 31 ≤ i32 z ∧ i32 z < 2 ^ 31 :=
  ⟨BitVec.le_toInt (BitVec.ofInt 32 z), BitVec.toInt_lt (x := BitVec.ofInt 32 z)⟩

theorem i32_bmod (z : Int) : i32 z = z.bmod (2 ^ 32) := by rw [i32, BitVec.toInt_ofInt]

theorem i32_add_right (a b : Int) : i32 (a + i32 b) = i32 (a + b) := by simp [i32_bmod]

theorem i32_sub_left (a b : Int) : i32 (i32 a - b) = i32 (a - b) := by simp [i32_bmod]

theorem i32_u32 (n : Nat) : i32 (u32 n : Nat) = i32 n := by
  rw [i32_bmod, i32_bmod, u32, Int.natCast_emod]
  exact Int.emod_bmod (n : Int) (2 ^ 32)

theorem i32_u64 (n : Nat) : i32 (u64 n : Nat) = i32 n := by
  rw [← i32_u32 (u64 n), ← i32_u32 n, u32, u32, u64, Nat.mod_mod_of_dvd _ (by decide)]

theorem u32OfInt_of_range {z : Int} (hl : 0 ≤ z) (hu : z < 2 ^ 32) : u32OfInt z = z.toNat := by
  rw [u32OfInt, BitVec.toNat_ofInt, Int.emod_eq_of_lt hl (by simpa using hu)]

theorem u64_double_lt_iff {n : Nat} (h : n < 2 ^ 64) : u64 (n * 2) < n ↔ 2 ^ 63 ≤ n := by
  rw [u64]
  omega

end AdaptiveXv6.Words
