import AdaptiveXv6.HeapRuns
import AdaptiveXv6.LazyMemory

namespace AdaptiveXv6.HeapLimits

open MemLayout Words Runs LazyMemory UserHeap HeapBlocks HeapFrees HeapRuns

/-- The memory of the machine. -/
abbrev RAM : Nat := PHYSTOP - KERNBASE

/-- The calls of sbrk() go to growproc(). Pages above the start of the heap are the machine's, so uvmalloc()
fails for more than there are. -/
def Served (m : Layout) (sbrk : Nat → Int → Bool) : Prop :=
  ∃ found : Nat → Int → Bool, (∀ b z, found b z = true → (b : Int) + z ≤ m.start + RAM) ∧
    ∀ s z, sbrk s.sz z = ((growproc s z).isSome && (decide (z ≤ 0) || found s.sz z))

variable {m : Layout}

theorem Served.grants {sbrk : Nat → Int → Bool} (h : Served m sbrk) : Grants m sbrk := by
  obtain ⟨found, hram, hsbrk⟩ := h
  intro b z hz hok
  have hserved := hsbrk ⟨b, fun _ => none⟩ z
  rw [hok, decide_eq_false (Int.not_le.mpr hz), Bool.false_or, eq_comm, Bool.and_eq_true] at hserved
  have hle := hram b z hserved.2
  change (b : Int) + z ≤ m.start + (134217728 : Nat) at hle
  omega

theorem apart_of_tiles {l : List Block} {x y : Block} {a b : Nat} (ht : Tiles a l b) (hx : x ∈ l) (hy : y ∈ l)
    (hne : x.addr ≠ y.addr) : x.addr + 16 * x.size ≤ y.addr ∨ y.addr + 16 * y.size ≤ x.addr := by
  obtain ⟨L, R, rfl⟩ := List.append_of_mem hy
  obtain ⟨hL, -, hR⟩ := tiles_around ht
  rcases List.mem_append.mp hx with hx | hx
  · exact .inl (tiles_mem hL hx).2.1
  rcases List.mem_cons.mp hx with rfl | hx
  · exact absurd rfl hne
  · exact .inr (tiles_mem hR hx).1

/-- Memory for every process, up to all there is. -/
def plenty (start b : Nat) (z : Int) : Bool :=
  (growproc ⟨b, fun _ => none⟩ z).isSome && (decide (z ≤ 0) || decide ((b : Int) + z ≤ start + RAM))

theorem plenty_served (m : Layout) : Served m (plenty m.start) := by
  refine ⟨fun b z => decide ((b : Int) + z ≤ m.start + RAM), fun _ _ h => of_decide_eq_true h, fun s z => ?_⟩
  have hsize : (growproc ⟨s.sz, fun _ => none⟩ z).isSome = (growproc s z).isSome := by
    rw [growproc, growproc]
    split
    · split <;> rfl
    · split <;> rfl
  rw [plenty, hsize]

end AdaptiveXv6.HeapLimits
