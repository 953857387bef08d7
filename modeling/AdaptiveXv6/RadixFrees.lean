import AdaptiveXv6.RadixUnmaps

namespace AdaptiveXv6.RadixFrees

open MemLayout Words Radix RadixTrees RadixWalks RadixMaps RadixUnmaps Function

def Bare (s : Phys) : Nat → Nat → Prop
  | 0, x => ∀ i < 512, s.mem x i &&& PTE_V = 0
  | level + 1, x => ∀ i c, i < 512 → child s x i = some c → Bare s level c

variable {s t u : Phys} {lo root x level : Nat}

theorem bare_congr (h : ∀ y ∈ pages s level x, t.mem y = s.mem y) (hb : Bare s level x) : Bare t level x := by
  induction level generalizing x with
  | zero =>
    intro i hi
    rw [h x self_mem]
    exact hb i hi
  | succ level ih =>
    intro i c hi hc
    rw [child_congr (h x self_mem)] at hc
    exact ih (fun y hy => h y (child_pages hi hc hy)) (hb i c hi hc)

structure Freeable (lo : Nat) (s : Phys) (level x : Nat) : Prop where
  nodup : (pages s level x).Nodup
  pointers : Pointers s level x
  bare : Bare s level x
  good : ∀ y ∈ pages s level x, Good lo y

structure Freed (s t : Phys) (level x : Nat) : Prop where
  free : t.free.Perm (pages s level x ++ s.free)
  outside : ∀ y, y ∉ pages s level x → t.mem y = s.mem y

theorem Freeable.congr (h : Freeable lo s level x) (hmem : ∀ y ∈ pages s level x, t.mem y = s.mem y) :
    Freeable lo t level x where
  nodup := by
    rw [pages_congr hmem]
    exact h.nodup
  pointers := pointers_congr hmem h.pointers
  bare := bare_congr hmem h.bare
  good := by
    rw [pages_congr hmem]
    exact h.good

theorem Freeable.child {i c : Nat} (h : Freeable lo s (level + 1) x) (hi : i < 512) (hc : child s x i = some c) :
    Freeable lo s level c where
  nodup := child_nodup h.nodup hi hc
  pointers := (h.pointers i c hi hc).2
  bare := h.bare i c hi hc
  good y hy := h.good y (child_pages hi hc hy)

theorem freeEntries_none {f : Nat → Phys → Except Error Phys} {is : List Nat}
    (h : ∀ i ∈ is, s.mem x i &&& PTE_V = 0) : freeEntries f x is s = .ok s := by
  induction is with
  | nil => rfl
  | cons i is ih =>
    have hv : ¬ s.mem x i &&& PTE_V ≠ 0 := not_not.mpr (h i List.mem_cons_self)
    rw [freeEntries, if_neg fun hand => hv hand.1, if_neg hv]
    exact ih fun j hj => h j (List.mem_cons_of_mem _ hj)

theorem freeEntries_spec (hs : Freeable lo s (level + 1) x)
    (hrec : ∀ c u, Freeable lo u level c → ∃ t, freewalk lo (level + 1) c u = .ok t ∧ Freed u t level c)
    {is : List Nat} (hnd : is.Nodup) (his : ∀ i ∈ is, i < 512) (hentry : ∀ i ∈ is, u.mem x i = s.mem x i)
    (hbelow : ∀ i ∈ is, ∀ y ∈ below s level x i, u.mem y = s.mem y) :
    ∃ t, freeEntries (freewalk lo (level + 1)) x is u = .ok t ∧
      t.free.Perm (is.flatMap (below s level x) ++ u.free) ∧
      ∀ y, y ≠ x → y ∉ is.flatMap (below s level x) → t.mem y = u.mem y := by
  induction is generalizing u with
  | nil => exact ⟨u, rfl, List.Perm.refl _, fun _ _ _ => rfl⟩
  | cons i is ih =>
    obtain ⟨hnotin, hnd⟩ := List.nodup_cons.mp hnd
    have hi := his i List.mem_cons_self
    have his : ∀ j ∈ is, j < 512 := fun j hj => his j (List.mem_cons_of_mem _ hj)
    rw [freeEntries, hentry i List.mem_cons_self]
    by_cases hv : s.mem x i &&& PTE_V ≠ 0
    · have hc : child s x i = some (PTE2PA (s.mem x i)) := if_pos hv
      have hpages : below s level x i = pages s level (PTE2PA (s.mem x i)) := below_some hc
      have hsame := hbelow i List.mem_cons_self
      rw [hpages] at hsame
      obtain ⟨t₁, hrun, hfree, hout⟩ := hrec _ u ((hs.child hi hc).congr hsame)
      rw [pages_congr hsame, ← hpages] at hfree hout
      have hx : t₁.mem x = u.mem x := hout x (self_not_below hs.nodup hi)
      rw [if_pos ⟨hv, (hs.pointers i _ hi hc).1⟩, hrun]
      have hstep : ∀ y, y ≠ x → y ∉ below s level x i → (t₁.store x i 0).mem y = u.mem y :=
        fun y hyx hy => (update_of_ne hyx _ _).trans (hout y hy)
      have hentry' : ∀ j ∈ is, (t₁.store x i 0).mem x j = s.mem x j := by
        intro j hj
        have hne : j ≠ i := fun heq => hnotin (heq ▸ hj)
        have hself : (t₁.store x i 0).mem x = update (t₁.mem x) i 0 := update_self _ _ _
        rw [hself, update_of_ne hne, hx]
        exact hentry j (List.mem_cons_of_mem _ hj)
      have hbelow' : ∀ j ∈ is, ∀ y ∈ below s level x j, (t₁.store x i 0).mem y = s.mem y := by
        intro j hj y hy
        have hne : j ≠ i := fun heq => hnotin (heq ▸ hj)
        have hyx : y ≠ x := fun heq => self_not_below hs.nodup (his j hj) (heq ▸ hy)
        rw [hstep y hyx (disjoint_below hs.nodup (his j hj) hi hne hy)]
        exact hbelow j (List.mem_cons_of_mem _ hj) y hy
      obtain ⟨t, hrest, hperm, hmem⟩ := ih hnd his hentry' hbelow'
      refine ⟨t, hrest, ?_, fun y hyx hy => ?_⟩
      · rw [List.flatMap_cons]
        refine (hperm.trans (hfree.append_left _)).trans ?_
        rw [← List.append_assoc]
        exact List.perm_append_comm.append_right _
      · rw [List.flatMap_cons, List.mem_append, not_or] at hy
        rw [hmem y hyx hy.2, hstep y hyx hy.1]
    · have hc : child s x i = none := if_neg hv
      rw [if_neg fun hand => hv hand.1, if_neg hv, List.flatMap_cons, below_none hc]
      exact ih hnd his (fun j hj => hentry j (List.mem_cons_of_mem _ hj))
        fun j hj => hbelow j (List.mem_cons_of_mem _ hj)

theorem freewalk_of_entries {depth : Nat} (h : freeEntries (freewalk lo depth) x indices s = .ok t) :
    freewalk lo (depth + 1) x s = kfree lo x t := by
  rw [freewalk, h]
  rfl

theorem freewalk_spec (h : Freeable lo s level x) :
    ∃ t, freewalk lo (level + 1) x s = .ok t ∧ Freed s t level x := by
  induction level generalizing s x with
  | zero =>
    have hloop : freeEntries (freewalk lo 0) x indices s = .ok s :=
      freeEntries_none fun i hi => h.bare i (mem_indices.mp hi)
    rw [freewalk_of_entries hloop]
    refine ⟨_, kfree_good (h.good x self_mem), List.Perm.refl _, fun y hy => ?_⟩
    have hne : y ≠ x := fun heq => hy (heq ▸ self_mem)
    exact update_of_ne hne _ _
  | succ level ih =>
    obtain ⟨t, hloop, hfree, hout⟩ := freeEntries_spec h (fun c u hc => ih hc) (u := s) nodup_indices
      (fun i hi => mem_indices.mp hi) (fun _ _ => rfl) fun _ _ _ _ => rfl
    rw [freewalk_of_entries hloop]
    refine ⟨_, kfree_good (h.good x self_mem), ?_, fun y hy => ?_⟩
    · rw [pages_succ]
      exact hfree.cons x
    · rw [pages_succ, List.mem_cons, not_or] at hy
      exact (update_of_ne hy.1 _ _).trans (hout y hy.1 hy.2)

/-- Page tables are finite maps. -/
theorem page_tables_are_maps (lo root : Nat) (s : Phys) (hwf : Wellformed lo s root) :
    (∀ va < MAXVA, ∃ r, walk root va false s = .ok (r, s) ∧
      ((r.bind fun p => valid (s.mem p.1 p.2)).map fun w => (PTE2PA w, PTE_FLAGS w)) = lookup s root va) ∧
    (∀ va size pa perm, va < 2 ^ 64 → size < 2 ^ 64 → pa + size ≤ 2 ^ 56 → perm < 1024 →
      (∀ code t, mappages root va size pa perm s = .ok (code, t) →
        Wellformed lo t root ∧ ∃ n, Added s t root va pa perm n ∧
          (code = 0 ∧ n = size / PGSIZE ∨ code = -1 ∧ n < size / PGSIZE)) ∧
      (va % PGSIZE = 0 → size % PGSIZE = 0 → 0 < size → va + size ≤ MAXVA →
        (∀ v, va ≤ v → v < va + size → lookup s root v = none) →
        ∃ r, mappages root va size pa perm s = .ok r)) ∧
    (∀ va n doFree, va % PGSIZE = 0 →
      (doFree = true → Releasable lo s root va (u64 (va + n * PGSIZE))) →
      (∀ t, uvmunmap lo root va n doFree s = .ok t →
        Wellformed lo t root ∧ ∀ v < MAXVA, lookup t root v =
          if va ≤ v ∧ v < u64 (va + n * PGSIZE) then none else lookup s root v) ∧
      (va + n * PGSIZE ≤ MAXVA → ∃ t, uvmunmap lo root va n doFree s = .ok t)) ∧
    (∀ pa flags, pa < PHYSTOP → flags < 1024 →
      PTE2PA (PA2PTE pa ||| flags) = pa / PGSIZE * PGSIZE ∧ PTE_FLAGS (PA2PTE pa ||| flags) = flags) ∧
    (∀ va < MAXVA, va = ((PX 2 va * 512 + PX 1 va) * 512 + PX 0 va) * PGSIZE + va % PGSIZE) ∧
    (Bare s 2 root → ∃ t, freewalk lo 3 root s = .ok t ∧
      t.free.Perm (pages s 2 root ++ s.free) ∧ t.free.Nodup) := by
  refine ⟨fun va hva => walk_lookup hva, fun va size pa perm hva hsize hpa hperm => ⟨fun code t h => ?_, ?_⟩,
    fun va n doFree hva hrel => ⟨fun t h => ?_, fun hle => ?_⟩, fun pa flags hpa hflags => ?_,
    fun va hva => px_parts hva, fun hbare => ?_⟩
  · exact mappages_spec hwf hva hsize hpa hperm h
  · exact fun hv hs hz hle hnone => mappages_total hwf hv hs hz hle hpa hperm hnone
  · rw [uvmunmap, if_neg (not_not.mpr hva)] at h
    exact unmapLoop_spec hwf hva (stop_aligned hva n) hrel h
  · have hu : u64 (va + n * PGSIZE) = va + n * PGSIZE := u64_of_lt (Nat.lt_of_le_of_lt hle (by decide))
    rw [uvmunmap, if_neg (not_not.mpr hva)]
    rw [hu] at hrel ⊢
    exact unmapLoop_total hwf hva hle (Nat.le_refl _) hrel
  · have hlt : pa < 2 ^ 56 := Nat.lt_trans hpa (by decide)
    exact ⟨pte2pa_pa2pte hlt hflags, flags_pa2pte hlt hflags⟩
  · have hfreeable : Freeable lo s 2 root := ⟨hwf.nodup.of_append_left, hwf.pointers, hbare, fun y hy =>
      hwf.good y (List.mem_append_left _ hy)⟩
    obtain ⟨t, hrun, hfreed⟩ := freewalk_spec hfreeable
    exact ⟨t, hrun, hfreed.free, hfreed.free.nodup_iff.mpr hwf.nodup⟩

/-- An empty table at the first page after the kernel, with two free pages. -/
def emptyTable : Phys := ⟨fun _ _ => 0, [0x80002000, 0x80003000]⟩

theorem emptyTable_wellformed : Wellformed 0x80001000 emptyTable 0x80001000 := by
  have hpages : pages emptyTable 2 0x80001000 = [0x80001000] := pages_zero rfl
  refine ⟨?_, ?_, ?_⟩
  · rw [hpages]
    decide
  · intro i c _ hc
    rw [child_zero rfl] at hc
    cases hc
  · rw [hpages]
    intro y hy
    have hy : y = 0x80001000 ∨ y = 0x80002000 ∨ y = 0x80003000 := by simpa [emptyTable] using hy
    rcases hy with rfl | rfl | rfl <;> exact ⟨by decide, by decide, by decide, by decide⟩

theorem page_tables_are_maps_empty : ∃ t u, mappages 0x80001000 0 4096 0x80004000 6 emptyTable = .ok (0, t) ∧
    lookup t 0x80001000 5 = some (0x80004000, 7) ∧ uvmunmap 0x80001000 0x80001000 0 1 false t = .ok u ∧
    lookup u 0x80001000 5 = none ∧ Wellformed 0x80001000 u 0x80001000 := by
  have hcode : ((mappages 0x80001000 0 4096 0x80004000 6 emptyTable).toOption.map Prod.fst) = some 0 := by
    decide +kernel
  obtain ⟨hmaps, htotal⟩ := (page_tables_are_maps _ _ _ emptyTable_wellformed).2.1 0 4096 0x80004000 6 (by decide)
    (by decide) (by decide) (by decide)
  obtain ⟨⟨code, t⟩, ht⟩ := htotal (by decide) (by decide) (by decide) (by decide)
    fun v _ _ => congrArg (Option.map _) (find_zero rfl v)
  rw [ht] at hcode
  obtain rfl : code = 0 := Option.some.inj hcode
  obtain ⟨hwf, n, hadded, ⟨-, rfl⟩ | ⟨hne, -⟩⟩ := hmaps _ t ht
  · obtain ⟨hunmap, hdone⟩ := (page_tables_are_maps _ _ _ hwf).2.2.1 0 1 false (by decide) nofun
    obtain ⟨u, hu⟩ := hdone (by decide)
    obtain ⟨hwf', hlookup⟩ := hunmap u hu
    refine ⟨t, u, ht, ?_, hu, ?_, hwf'⟩
    · rw [hadded 5 (by decide)]
      decide
    · rw [hlookup 5 (by decide)]
      exact if_pos (by decide)
  · cases hne

end AdaptiveXv6.RadixFrees
