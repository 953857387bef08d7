import AdaptiveXv6.Bytes
import AdaptiveXv6.Words

namespace AdaptiveXv6.Memmove

open Bytes Words Function

/-- A flat memory; its cells are bytes, but the loops only carry them. -/
abbrev Memory (β : Type) := Nat → β

variable {β : Type}

def advance (a : Nat) (z : Int) : Nat := ((a + z) % 2 ^ 64).toNat

/-- The loop `while (n-- > 0) *d++ = *s++`. -/
def forward : Nat → Nat → Nat → Memory β → Memory β
  | 0, _, _, m => m
  | n + 1, d, s, m => forward n (advance d 1) (advance s 1) (update m d (m s))

/-- The loop `while (n-- > 0) *--d = *--s`. -/
def backward : Nat → Nat → Nat → Memory β → Memory β
  | 0, _, _, m => m
  | n + 1, d, s, m =>
    backward n (advance d (-1)) (advance s (-1)) (update m (advance d (-1)) (m (advance s (-1))))

/-- The kernel's memmove(), with an unsigned count; it returns the destination. -/
def stringMemmove (dst src n : Nat) (m : Memory β) : Nat × Memory β :=
  if n = 0 then (dst, m)
  else if src < dst ∧ advance src n > dst then (dst, backward n (advance dst n) (advance src n) m)
  else (dst, forward n dst src m)

/-- The user library's memmove(), whose count is signed: a negative one copies nothing. -/
def ulibMemmove (dst src : Nat) (n : Int) (m : Memory β) : Nat × Memory β :=
  if src > dst then (dst, forward n.toNat dst src m)
  else (dst, backward n.toNat (advance dst n) (advance src n) m)

/-- All source bytes are read first, then written to the destination. -/
def moved (dst src n : Nat) (m : Memory β) : Memory β := store m (dst, image (fun k => m (src + k)) n)

theorem moved_apply (dst src n : Nat) (m : Memory β) (a : Nat) :
    moved dst src n m a = if dst ≤ a ∧ a < dst + n then m (src + (a - dst)) else m a :=
  store_image m _ dst n a

theorem moved_zero (dst src : Nat) (m : Memory β) : moved dst src 0 m = m := store_nil m dst

theorem advance_natCast (a k : Nat) : advance a k = u64 (a + k) := by
  rw [advance, u64]
  omega

theorem advance_u64 (a : Nat) : advance (u64 a) 1 = u64 (a + 1) := by
  rw [advance, u64, u64]
  omega

theorem advance_u64_neg (a : Nat) : advance (u64 (a + 1)) (-1) = u64 a := by
  rw [advance, u64, u64]
  omega

theorem moved_first {d s n : Nat} (h : d ≤ s ∨ s + (n + 1) ≤ d) (m : Memory β) :
    moved (d + 1) (s + 1) n (update m d (m s)) = moved d s (n + 1) m := by
  funext a
  rw [moved_apply, moved_apply]
  by_cases ha : a = d
  · subst ha
    rw [if_neg (by omega), if_pos (by omega), update_self, Nat.sub_self, Nat.add_zero]
  · by_cases hin : d + 1 ≤ a ∧ a < d + 1 + n
    · have hsrc : s + 1 + (a - (d + 1)) = s + (a - d) := by omega
      rw [if_pos hin, if_pos (by omega), hsrc, update_of_ne (by omega)]
    · rw [if_neg hin, if_neg (by omega), update_of_ne ha]

theorem moved_last {d s n : Nat} (h : s ≤ d) (m : Memory β) :
    moved d s n (update m (d + n) (m (s + n))) = moved d s (n + 1) m := by
  funext a
  rw [moved_apply, moved_apply]
  by_cases ha : a = d + n
  · subst ha
    rw [if_neg (by omega), if_pos (by omega), update_self, Nat.add_sub_cancel_left]
  · by_cases hin : d ≤ a ∧ a < d + n
    · rw [if_pos hin, if_pos (by omega), update_of_ne (by omega)]
    · rw [if_neg hin, if_neg (by omega), update_of_ne ha]

-- The pointers are taken modulo 2^64: after the last byte they may have wrapped to 0.
theorem forward_moved (n d s : Nat) (m : Memory β) (hd : d + n ≤ 2 ^ 64) (hs : s + n ≤ 2 ^ 64)
    (h : d ≤ s ∨ s + n ≤ d) : forward n (u64 d) (u64 s) m = moved d s n m := by
  induction n generalizing d s m with
  | zero =>
    rw [forward, moved_zero]
  | succ n ih =>
    have hrest : d + 1 ≤ s + 1 ∨ s + 1 + n ≤ d + 1 := by omega
    rw [forward, advance_u64, advance_u64, ih (d + 1) (s + 1) _ (by omega) (by omega) hrest,
      u64_of_lt (by omega), u64_of_lt (by omega)]
    exact moved_first h m

theorem backward_moved (n d s : Nat) (m : Memory β) (hd : d + n ≤ 2 ^ 64) (hs : s + n ≤ 2 ^ 64)
    (h : s ≤ d) : backward n (u64 (d + n)) (u64 (s + n)) m = moved d s n m := by
  induction n generalizing m with
  | zero =>
    rw [backward, moved_zero]
  | succ n ih =>
    have hend : ∀ a, a + (n + 1) = a + n + 1 := fun a => rfl
    rw [backward, hend, hend, advance_u64_neg, advance_u64_neg, ih _ (by omega) (by omega),
      u64_of_lt (by omega), u64_of_lt (by omega)]
    exact moved_last h m

-- The kernel's test s + n > d cannot wrap: a source below the destination ends below its end.
theorem stringMemmove_moved {dst src n : Nat} (hs : src + n ≤ 2 ^ 64) (hd : dst + n ≤ 2 ^ 64) (m : Memory β) :
    stringMemmove dst src n m = (dst, moved dst src n m) := by
  rw [stringMemmove]
  by_cases hn : n = 0
  · subst hn
    rw [if_pos rfl, moved_zero]
  · rw [if_neg hn, advance_natCast, advance_natCast]
    by_cases hback : src < dst ∧ u64 (src + n) > dst
    · rw [if_pos hback, backward_moved n dst src m hd hs (Nat.le_of_lt hback.1)]
    · have hapart : dst ≤ src ∨ src + n ≤ dst := by
        by_contra hover
        apply hback
        rw [u64_of_lt (by omega)]
        omega
      have hloop := forward_moved n dst src m hd hs hapart
      rw [u64_of_lt (by omega), u64_of_lt (by omega)] at hloop
      rw [if_neg hback, hloop]

theorem ulibMemmove_moved {dst src n : Nat} (hs : src + n ≤ 2 ^ 64) (hd : dst + n ≤ 2 ^ 64) (m : Memory β) :
    ulibMemmove dst src n m = (dst, moved dst src n m) := by
  rw [ulibMemmove, Int.toNat_natCast, advance_natCast, advance_natCast]
  by_cases hlow : src > dst
  · rw [if_pos hlow]
    cases n with
    | zero => rw [forward, moved_zero]
    | succ n =>
      have hloop := forward_moved (n + 1) dst src m hd hs (.inl (Nat.le_of_lt hlow))
      rw [u64_of_lt (by omega), u64_of_lt (by omega)] at hloop
      rw [hloop]
  · rw [if_neg hlow, backward_moved n dst src m hd hs (by omega)]

/-- Whatever the overlap, either memmove() moves the n bytes as if all were read first, and leaves every other
byte. -/
theorem memmove_overlap (m : Memory β) (dst src n : Nat) (hn : n < 2 ^ 31) (hs : src + n ≤ 2 ^ 64)
    (hd : dst + n ≤ 2 ^ 64) :
    stringMemmove dst src (u32 n) m = (dst, moved dst src n m) ∧
      ulibMemmove dst src (i32 n) m = (dst, moved dst src n m) ∧
      (∀ k < n, moved dst src n m (dst + k) = m (src + k)) ∧
      (∀ a, a < dst ∨ dst + n ≤ a → moved dst src n m a = m a) ∧
      stringMemmove dst src (u32 n) m = ulibMemmove dst src (i32 n) m := by
  have huint : u32 n = n := u32_of_lt (by omega)
  have hint : i32 n = n := i32_of_range (by omega) (by omega)
  have hkernel := stringMemmove_moved hs hd m
  have huser := ulibMemmove_moved hs hd m
  rw [huint, hint]
  refine ⟨hkernel, huser, ?_, ?_, ?_⟩
  · intro k hk
    rw [moved_apply, if_pos (by omega), Nat.add_sub_cancel_left]
  · intro a ha
    rw [moved_apply, if_neg (by omega)]
  · rw [hkernel, huser]

theorem memmove_overlap_shift :
    (ulibMemmove 1 0 (i32 3) (BitVec.ofNat 8)).2 3 = 2#8 ∧
      stringMemmove 1 0 (u32 3) (BitVec.ofNat 8) = ulibMemmove 1 0 (i32 3) (BitVec.ofNat 8) := by
  have h := memmove_overlap (BitVec.ofNat 8) 1 0 3 (by decide) (by decide) (by decide)
  refine ⟨?_, h.2.2.2.2⟩
  rw [show i32 3 = i32 (3 : Nat) from rfl, h.2.1]
  exact h.2.2.1 2 (by decide)

end AdaptiveXv6.Memmove
