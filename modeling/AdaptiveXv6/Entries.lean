import AdaptiveXv6.Nodes

namespace AdaptiveXv6.Entries

open Bytes Blocks Directories Nodes

section Names

theorem strncmp_eq_zero (k : Nat) (p q : Name) : strncmp k p q = 0 ↔ strncpy k p = strncpy k q := by
  induction k generalizing p q with
  | zero => exact ⟨fun _ => rfl, fun _ => rfl⟩
  | succ k ih =>
    rw [strncmp, strncpy, strncpy]
    by_cases hp : p.headD 0 = 0
    · rw [if_neg (fun h => h.1 hp), if_pos hp, hp]
      by_cases hq : q.headD 0 = 0
      · rw [if_pos hq, hq]
        exact ⟨fun _ => rfl, fun _ => rfl⟩
      · rw [if_neg hq]
        constructor
        · intro h
          refine absurd (BitVec.eq_of_toNat_eq ?_) hq
          have h₀ : (0 : Byte).toNat = 0 := rfl
          omega
        · intro h
          rw [List.replicate_succ] at h
          exact absurd (List.cons.inj h).1.symm hq
    · rw [if_neg hp]
      by_cases heq : p.headD 0 = q.headD 0
      · rw [if_pos ⟨hp, heq⟩, ih, if_neg (by rw [← heq]; exact hp), heq]
        exact ⟨fun h => by rw [h], fun h => (List.cons.inj h).2⟩
      · rw [if_neg (fun h => heq h.2)]
        constructor
        · intro h
          exact absurd (BitVec.eq_of_toNat_eq (by omega)) heq
        · intro h
          split at h
          · rw [List.replicate_succ] at h
            exact absurd (List.cons.inj h).1 hp
          · exact absurd (List.cons.inj h).1 heq

@[simp] theorem length_strncpy (k : Nat) (p : Name) : (strncpy k p).length = k := by
  induction k generalizing p with
  | zero => rfl
  | succ k ih =>
    rw [strncpy]
    split
    · exact List.length_replicate ..
    · rw [List.length_cons, ih]

theorem strncpy_replicate (k l : Nat) : strncpy k (List.replicate l 0) = List.replicate k 0 := by
  cases k with
  | zero => rfl
  | succ k =>
    rw [strncpy, if_pos]
    cases l with
    | zero => rfl
    | succ l => rfl

theorem strncpy_strncpy (k : Nat) (p : Name) : strncpy k (strncpy k p) = strncpy k p := by
  induction k generalizing p with
  | zero => rfl
  | succ k ih =>
    by_cases hp : p.headD 0 = 0
    · have hzero : strncpy (k + 1) p = List.replicate (k + 1) 0 := by rw [strncpy, if_pos hp]
      rw [hzero, strncpy_replicate]
    · have hcons : strncpy (k + 1) p = p.headD 0 :: strncpy k p.tail := by rw [strncpy, if_neg hp]
      rw [hcons, strncpy, if_neg (by exact hp), List.headD_cons, List.tail_cons, ih]

/-- A name as a directory entry has it. -/
def canon (name : Name) : Name := strncpy DIRSIZ name

theorem namecmp_eq_zero {p q : Name} : namecmp p q = 0 ↔ canon p = canon q := strncmp_eq_zero ..

theorem canon_canon (p : Name) : canon (canon p) = canon p := strncpy_strncpy ..

end Names

section Put

variable {n : Node} {s s' : Nat} {mem : Nat → Byte}

theorem getDirent_byte {de : Dirent} (h : de.name.length = DIRSIZ) : getDirent de.byte = de := by
  have hinum : half de.byte 0 = de.inum := by
    refine half_eq _ fun r hr => ?_
    rw [Nat.zero_add, Dirent.byte, if_pos hr]
  have hname : image (fun k => de.byte (2 + k)) DIRSIZ = de.name := by
    refine List.ext_getElem (by simp [image, h]) fun k hk hk' => ?_
    have hlt : k < DIRSIZ := by rw [← h]; exact hk'
    simp only [image, List.getElem_map, List.getElem_range]
    rw [Dirent.byte, if_neg (by omega), Nat.add_sub_cancel_left, List.getD_eq_getElem?_getD,
      List.getElem?_eq_getElem hk', Option.getD_some]
  rw [getDirent, hinum, hname]

theorem dirent_put_self (n : Node) (s : Nat) (mem : Nat → Byte) : (n.put s mem).dirent s = getDirent mem := by
  refine half_getDirent fun k hk => ?_
  change (if 16 * s ≤ 16 * s + k ∧ 16 * s + k < 16 * s + 16 then mem (16 * s + k - 16 * s) else _) = _
  rw [if_pos (by omega), Nat.add_sub_cancel_left]

theorem dirent_put_of_ne (h : s' ≠ s) : (n.put s mem).dirent s' = n.dirent s' := by
  refine half_getDirent fun k hk => ?_
  change (if 16 * s ≤ 16 * s' + k ∧ 16 * s' + k < 16 * s + 16 then mem (16 * s' + k - 16 * s) else _) = _
  rw [if_neg (by omega)]

theorem slots_put (n : Node) (s : Nat) (mem : Nat → Byte) : (n.put s mem).slots = max n.slots (s + 1) := by
  simp only [Node.slots, Node.put]
  omega

end Put

end AdaptiveXv6.Entries
