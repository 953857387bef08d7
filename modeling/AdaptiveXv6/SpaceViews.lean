import AdaptiveXv6.LazyMemory
import AdaptiveXv6.UserViews

namespace AdaptiveXv6.SpaceViews

open MemLayout Bytes PageTables PageOwnership PageMaps SpaceSteps SpaceCopies UserViews Function

variable {P : Type} {s t : Vm P} {p : P} {e : Pte} {lo trampoline v off : Nat} {f : Nat → Byte} {l : List Byte}

def dataAt (f : Nat → Byte) (v k : Nat) : Byte := if k < PGSIZE then f (v * PGSIZE + k) else 0

/-- The memory of a process without the numbers of its pages. -/
def space (s : Vm P) (p : P) : LazyMemory.Space where
  sz := s.sz p
  page v := if v < UPAGES then ((s.pt (some p)).leaf v).map fun e => ⟨e.user, e.write, dataAt (view s p) v⟩
    else LazyMemory.procPage v

theorem dataAt_write (hoff : off + l.length ≤ PGSIZE) :
    dataAt (store f (v * PGSIZE + off, l)) v = store (dataAt f v) (off, l) := by
  funext k
  by_cases hk : k < PGSIZE
  · have hle : v * PGSIZE + off ≤ v * PGSIZE + k ↔ off ≤ k := Nat.add_le_add_iff_left
    simp only [dataAt, if_pos hk, store, hle, Nat.add_sub_add_left]
  · rw [store_outside fun hw => hk (Nat.lt_of_lt_of_le hw.2 hoff), dataAt, dataAt, if_neg hk, if_neg hk]

theorem dataAt_other {w : Nat} (hw : w ≠ v) (hoff : off + l.length ≤ PGSIZE) :
    dataAt (store f (v * PGSIZE + off, l)) w = dataAt f w := by
  funext k
  rw [dataAt, dataAt]
  split
  · refine store_outside fun hin => hw ?_
    have h₁ : v * PGSIZE + off ≤ w * PGSIZE + k := hin.1
    have h₂ : w * PGSIZE + k < v * PGSIZE + off + l.length := hin.2
    simp only [PGSIZE] at *
    omega
  · rfl

theorem space_same (hsz : t.sz p = s.sz p) (hleaf : (t.pt (some p)).leaf = (s.pt (some p)).leaf)
    (hview : view t p = view s p) : space t p = space s p := by
  rw [space, space, hsz, hleaf, hview]

theorem page_some (hv : v < UPAGES) (hleaf : (s.pt (some p)).leaf v = some e) :
    (space s p).page v = some ⟨e.user, e.write, dataAt (view s p) v⟩ := by
  rw [space]
  dsimp only
  rw [if_pos hv, hleaf]
  rfl

theorem page_none (hv : v < UPAGES) (hleaf : (s.pt (some p)).leaf v = none) : (space s p).page v = none := by
  rw [space]
  dsimp only
  rw [if_pos hv, hleaf]
  rfl

theorem space_update (hv : v < UPAGES) (hsz : t.sz p = s.sz p)
    (hleaf : (t.pt (some p)).leaf = update (s.pt (some p)).leaf v (some e))
    (hview : ∀ w, w ≠ v → dataAt (view t p) w = dataAt (view s p) w) :
    space t p = (space s p).setPage v ⟨e.user, e.write, dataAt (view t p) v⟩ := by
  rw [space, space, LazyMemory.Space.setPage, hsz, hleaf]
  congr 1
  funext w
  by_cases hw : w = v
  · rw [hw, update_self, update_self, if_pos hv]
    rfl
  · rw [update_of_ne hw, update_of_ne hw, hview w hw]

/-- The page that is not there reads as zero. -/
theorem dataAt_none (hleaf : (s.pt (some p)).leaf v = none) : dataAt (view s p) v = fun _ => 0 := by
  funext k
  rw [dataAt]
  split
  · rename_i hk
    have hpage : (v * PGSIZE + k) / PGSIZE = v := by
      change k < 4096 at hk
      change (v * 4096 + k) / 4096 = v
      omega
    rw [view, hpage, hleaf]
    exact ite_self _
  · rfl

theorem walkaddr_none (h : (space s p).page v = none ∨ ∃ x, (space s p).page v = some x ∧ x.user = false) :
    (space s p).walkaddr (v * PGSIZE) = none := by
  rw [LazyMemory.Space.walkaddr, div_page]
  split
  · rfl
  · rcases h with h | ⟨x, h, huser⟩
    · rw [h]
    · rw [h]
      dsimp only
      rw [huser]
      rfl

theorem reach_none (h : Sound lo trampoline s) (hm : s.mode p ≠ .unused) (hbad : suitable Pte.user s p v = false) :
    (space s p).reach (v * PGSIZE) = none := by
  have hsize : s.sz p ≤ 274877898752 := ((h.slot p).space hm).2.size
  have hout : ¬v < UPAGES → s.sz p ≤ v * PGSIZE := by
    intro hv
    change ¬v < 67108862 at hv
    change s.sz p ≤ v * 4096
    omega
  have hfault : s.sz p ≤ v * PGSIZE ∨ (space s p).page v ≠ none →
      (space s p).vmfault (v * PGSIZE) = none := by
    rw [LazyMemory.Space.vmfault, div_page]
    rintro (hsz | hsome)
    · exact if_pos hsz
    · rw [Option.ne_none_iff_isSome.mp hsome, if_pos rfl]
      exact ite_self _
  have hboth : (space s p).walkaddr (v * PGSIZE) = none ∧ (space s p).vmfault (v * PGSIZE) = none := by
    by_cases hv : v < UPAGES
    · rw [suitable] at hbad
      cases hleaf : (s.pt (some p)).leaf v with
      | none =>
        rw [hleaf] at hbad
        exact ⟨walkaddr_none (.inl (page_none hv hleaf)), hfault (.inl (Nat.not_lt.mp (of_decide_eq_false hbad)))⟩
      | some e =>
        rw [hleaf] at hbad
        have hpage := page_some hv hleaf
        exact ⟨walkaddr_none (.inr ⟨_, hpage, hbad⟩), hfault (.inr (by rw [hpage]; exact Option.some_ne_none _))⟩
    · refine ⟨walkaddr_none ?_, hfault (.inl (hout hv))⟩
      have hpage : (space s p).page v = LazyMemory.procPage v := if_neg hv
      rw [hpage, LazyMemory.procPage]
      split
      · exact .inr ⟨_, rfl, rfl⟩
      · exact .inl rfl
  rw [LazyMemory.Space.reach, hboth.1, hboth.2]

theorem reach_some (hsz : t.sz p = s.sz p) (hv : v < UPAGES) (hr : Reached s p v e t) :
    (space s p).reach (v * PGSIZE) = some (space t p, ⟨true, e.write, dataAt (view s p) v⟩) := by
  rw [LazyMemory.Space.reach]
  rcases hr.old with hold | ⟨hnone, hwrite, -⟩
  · have hva : ¬v * PGSIZE ≥ MAXVA := by
      change v < 67108862 at hv
      change ¬v * 4096 ≥ 274877906944
      omega
    have hsame : space t p = space s p :=
      space_same hsz (by rw [hr.leaf, ← hold, update_eq_self]) hr.view
    rw [LazyMemory.Space.walkaddr, if_neg hva, div_page, page_some hv hold, hsame, hr.user]
    rfl
  · have hbelow : ¬v * PGSIZE ≥ (space s p).sz := by
      have h := hr.below
      simp only [pages, PGROUNDUP, PGSIZE] at h
      change ¬v * 4096 ≥ s.sz p
      omega
    have hfresh : space t p = (space s p).setPage v LazyMemory.zeroPage := by
      rw [space_update hv hsz hr.leaf fun w _ => by rw [hr.view], hr.view, dataAt_none hnone, hr.user, hwrite]
      rfl
    rw [walkaddr_none (.inl (page_none hv hnone)), LazyMemory.Space.vmfault, if_neg hbelow, div_page,
      page_none hv hnone, hfresh, dataAt_none hnone, hwrite]
    rfl

end AdaptiveXv6.SpaceViews
