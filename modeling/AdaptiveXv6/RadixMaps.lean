import AdaptiveXv6.RadixWalks

namespace AdaptiveXv6.RadixMaps

open MemLayout Words Radix RadixTrees RadixWalks

/-- A page table as a partial map from virtual addresses to pages and flags. -/
def lookup (s : Phys) (root va : Nat) : Option (Nat × Nat) :=
  (find s va 2 root).map fun w => (PTE2PA w, PTE_FLAGS w)

/-- The pages of the table are distinct and none of them is free. -/
structure Wellformed (lo : Nat) (s : Phys) (root : Nat) : Prop where
  nodup : (pages s 2 root ++ s.free).Nodup
  pointers : Pointers s 2 root
  good : ∀ y ∈ pages s 2 root ++ s.free, Good lo y

variable {s t : Phys} {lo root va v w a pa perm last fuel x : Nat}

theorem px_page (k va : Nat) : PX k va = va / PGSIZE / 2 ^ (9 * k) % 512 := by
  rw [px_eq, Nat.pow_add, Nat.div_div_eq_div_mul]

theorem div_of_parts {q r : Nat} (h : v = q * PGSIZE + r) (hr : r < PGSIZE) : v / PGSIZE = q := by
  change v = q * 4096 + r at h
  change r < 4096 at hr
  change v / 4096 = q
  omega

theorem page_eq (hva : va < MAXVA) : va / PGSIZE = (PX 2 va * 512 + PX 1 va) * 512 + PX 0 va :=
  div_of_parts (px_parts hva) (Nat.mod_lt va (by decide))

theorem same_iff (ha : a < MAXVA) (hv : v < MAXVA) : Same 2 a v ↔ v / PGSIZE = a / PGSIZE := by
  constructor
  · intro h
    rw [page_eq ha, page_eq hv, h 0 (by decide), h 1 (by decide), h 2 (by decide)]
  · intro h k _
    rw [px_page, px_page, h]

theorem Wellformed.extends {new : List Nat} (hwf : Wellformed lo s root) (hfree : s.free = new ++ t.free)
    (h : Extends s t 2 root new) : Wellformed lo t root := by
  have hperm : (pages t 2 root ++ t.free).Perm (pages s 2 root ++ s.free) := by
    rw [hfree, ← List.append_assoc]
    exact h.pages.append_right _
  exact ⟨hperm.nodup_iff.mpr hwf.nodup, h.pointers hwf.pointers, fun y hy => hwf.good y (hperm.mem_iff.mp hy)⟩

theorem Wellformed.walk (hwf : Wellformed lo s root) (ha : a < MAXVA) :
    ∃ r t, walk root a true s = .ok (r, t) ∧ Wellformed lo t root ∧
      (∀ v, find t v 2 root = find s v 2 root) ∧
      ∀ p, r = some p → p.2 = PX 0 a ∧ leafTable t a 2 root = some p.1 := by
  have h : Walked s (walkLoop a true 2 root s).2 a 2 root (walkLoop a true 2 root s).1 :=
    walkLoop_spec hwf.nodup fun y hy => hwf.good y (List.mem_append_right _ hy)
  obtain ⟨⟨new, hfree, hext⟩, hfind, hleaf⟩ := h
  exact ⟨_, _, if_neg (Nat.not_le.mpr ha), hwf.extends hfree hext, hfind, hleaf⟩

theorem Wellformed.store (hwf : Wellformed lo s root) (ha : a < MAXVA)
    (hleaf : leafTable s a 2 root = some x) (w : Nat) :
    Wellformed lo (s.store x (PX 0 a) w) root ∧
      ∀ v < MAXVA, find (s.store x (PX 0 a) w) v 2 root =
        if v / PGSIZE = a / PGSIZE then valid w else find s v 2 root := by
  obtain ⟨hext, hfind⟩ := store_spec hwf.nodup.of_append_left hleaf w
  refine ⟨hwf.extends rfl hext, fun v hv => ?_⟩
  split
  · rename_i h
    exact (hfind v).1 ((same_iff ha hv).mpr h)
  · rename_i h
    exact (hfind v).2 fun hsame => h ((same_iff ha hv).mp hsame)

theorem walk_lookup (hva : va < MAXVA) : ∃ r, walk root va false s = .ok (r, s) ∧
    ((r.bind fun p => valid (s.mem p.1 p.2)).map fun w => (PTE2PA w, PTE_FLAGS w)) = lookup s root va := by
  refine ⟨_, (if_neg (Nat.not_le.mpr hva)).trans (congrArg Except.ok walkLoop_read), ?_⟩
  rw [lookup, find_eq_leafTable]
  cases leafTable s va 2 root <;> rfl

section Arithmetic

theorem same_page (ha : a % PGSIZE = 0) : v / PGSIZE = a / PGSIZE ↔ a ≤ v ∧ v < a + PGSIZE := by
  change v / 4096 = a / 4096 ↔ a ≤ v ∧ v < a + 4096
  change a % 4096 = 0 at ha
  omega

theorem next_page (h : a + PGSIZE ≤ v) : (pa + PGSIZE) / PGSIZE * PGSIZE + (v - (a + PGSIZE)) / PGSIZE * PGSIZE =
    pa / PGSIZE * PGSIZE + (v - a) / PGSIZE * PGSIZE := by
  change a + 4096 ≤ v at h
  change (pa + 4096) / 4096 * 4096 + (v - (a + 4096)) / 4096 * 4096 = pa / 4096 * 4096 + (v - a) / 4096 * 4096
  omega

theorem valid_leaf (w : Nat) : valid (w ||| PTE_V) = some (w ||| PTE_V) := by
  refine if_pos fun h => ?_
  rw [Nat.and_or_distrib_right] at h
  exact absurd (Nat.or_eq_zero_iff.mp h).2 (by decide)

end Arithmetic

/-- The map has got the first n of the bindings of mappages(). -/
def Added (s t : Phys) (root a pa perm n : Nat) : Prop :=
  ∀ v < MAXVA, lookup t root v =
    if a ≤ v ∧ v < a + n * PGSIZE then some (pa / PGSIZE * PGSIZE + (v - a) / PGSIZE * PGSIZE, perm ||| PTE_V)
    else lookup s root v

theorem added_zero (h : ∀ v, lookup t root v = lookup s root v) : Added s t root a pa perm 0 := by
  intro v _
  rw [if_neg (by omega)]
  exact h v

theorem added_succ {u : Phys} {n : Nat} (ha : a % PGSIZE = 0)
    (h : ∀ v < MAXVA, lookup t root v =
      if v / PGSIZE = a / PGSIZE then some (pa / PGSIZE * PGSIZE, perm ||| PTE_V) else lookup s root v)
    (hrest : Added t u root (a + PGSIZE) (pa + PGSIZE) perm n) : Added s u root a pa perm (n + 1) := by
  intro v hv
  rw [hrest v hv, h v hv]
  have hpage := same_page (v := v) ha
  have hmul : (n + 1) * PGSIZE = n * PGSIZE + PGSIZE := Nat.succ_mul n PGSIZE
  by_cases hfirst : v / PGSIZE = a / PGSIZE
  · obtain ⟨hle, hlt⟩ := hpage.mp hfirst
    have hzero : (v - a) / PGSIZE = 0 := Nat.div_eq_of_lt (by omega)
    rw [if_neg (by omega), if_pos hfirst, if_pos ⟨hle, by omega⟩, hzero, Nat.zero_mul, Nat.add_zero]
  · rw [if_neg hfirst]
    by_cases hin : a + PGSIZE ≤ v ∧ v < a + PGSIZE + n * PGSIZE
    · rw [if_pos hin, if_pos ⟨by omega, by omega⟩, next_page hin.1]
    · rw [if_neg hin, if_neg]
      rintro ⟨hle, hlt⟩
      have hout := mt hpage.mpr hfirst
      omega

theorem mapLoop_step (last fuel : Nat) (hwf : Wellformed lo s root) (ha : a < MAXVA)
    (hpa : pa + PGSIZE ≤ 2 ^ 56) (hperm : perm < 1024) :
    (∃ t, mapLoop root last perm (fuel + 1) a pa s = .ok (-1, t) ∧ Wellformed lo t root ∧
      ∀ v, lookup t root v = lookup s root v) ∨
    (lookup s root a ≠ none ∧ mapLoop root last perm (fuel + 1) a pa s = .error (.panic .remap)) ∨
    ∃ t, mapLoop root last perm (fuel + 1) a pa s =
        (if a = last then .ok (0, t) else mapLoop root last perm fuel (a + PGSIZE) (pa + PGSIZE) t) ∧
      Wellformed lo t root ∧
      ∀ v < MAXVA, lookup t root v =
        if v / PGSIZE = a / PGSIZE then some (pa / PGSIZE * PGSIZE, perm ||| PTE_V) else lookup s root v := by
  obtain ⟨r, u, hwalk, hwf', hfind, hleaf⟩ := hwf.walk ha
  have hlookup : ∀ v, lookup u root v = lookup s root v := fun v => by rw [lookup, hfind, lookup]
  rw [mapLoop, hwalk]
  cases r with
  | none => exact Or.inl ⟨u, rfl, hwf', hlookup⟩
  | some p =>
    obtain ⟨x, i⟩ := p
    obtain ⟨hi, hx⟩ := hleaf (x, i) rfl
    change i = PX 0 a at hi
    subst hi
    refine Or.inr ?_
    by_cases hv : u.mem x (PX 0 a) &&& PTE_V ≠ 0
    · refine Or.inl ⟨?_, if_pos hv⟩
      rw [← hlookup, lookup, find_eq_leafTable, hx]
      simp only [Option.bind_some, valid, if_pos hv, Option.map_some]
      exact Option.some_ne_none _
    · refine Or.inr ?_
      obtain ⟨hwf'', hfind''⟩ := hwf'.store ha hx (PA2PTE pa ||| perm ||| PTE_V)
      refine ⟨_, ?_, hwf'', fun v hva => ?_⟩
      · have hu : u64 (a + PGSIZE) = a + PGSIZE := u64_of_lt (by
          change a < 2 ^ 38 at ha
          change a + 4096 < 2 ^ 64
          omega)
        have hu' : u64 (pa + PGSIZE) = pa + PGSIZE := u64_of_lt (Nat.lt_of_le_of_lt hpa (by decide))
        refine (if_neg hv).trans ?_
        rw [hu, hu']
      · have hlt : pa < 2 ^ 56 := by
          change pa + 4096 ≤ 2 ^ 56 at hpa
          omega
        have hflags : perm ||| PTE_V < 1024 := Nat.or_lt_two_pow (n := 10) hperm (by decide)
        rw [lookup, hfind'' v hva]
        split
        · rw [valid_leaf, Option.map_some, Nat.or_assoc, pte2pa_pa2pte hlt hflags, flags_pa2pte hlt hflags]
        · exact hlookup v

theorem mapLoop_spec {code : Int} (hwf : Wellformed lo s root) (ha : a % PGSIZE = 0)
    (hpa : pa + fuel * PGSIZE ≤ 2 ^ 56) (hperm : perm < 1024) (h : mapLoop root last perm fuel a pa s = .ok (code, t)) :
    Wellformed lo t root ∧ ∃ n, Added s t root a pa perm n ∧
      (code = 0 ∧ n ≤ fuel ∧ last + PGSIZE = a + n * PGSIZE ∨ code = -1 ∧ n < fuel) := by
  induction fuel generalizing a pa s with
  | zero => cases h
  | succ fuel ih =>
    have hmul : (fuel + 1) * PGSIZE = fuel * PGSIZE + PGSIZE := Nat.succ_mul fuel PGSIZE
    have hpa' : pa + PGSIZE ≤ 2 ^ 56 := by omega
    by_cases hva : a < MAXVA
    · rcases mapLoop_step last fuel hwf hva hpa' hperm with
        ⟨u, hstep, hwf', hsame⟩ | ⟨_, hstep⟩ | ⟨u, hstep, hwf', hadd⟩
      · cases hstep.symm.trans h
        exact ⟨hwf', 0, added_zero hsame, Or.inr ⟨rfl, Nat.succ_pos fuel⟩⟩
      · cases hstep.symm.trans h
      · have hrun := hstep.symm.trans h
        by_cases hlast : a = last
        · rw [if_pos hlast] at hrun
          cases hrun
          refine ⟨hwf', 1, added_succ ha hadd (added_zero fun _ => rfl), Or.inl ⟨rfl, Nat.succ_pos fuel, ?_⟩⟩
          rw [hlast, Nat.one_mul]
        · rw [if_neg hlast] at hrun
          have hnext : (a + PGSIZE) % PGSIZE = 0 := (Nat.add_mod_right a PGSIZE).trans ha
          obtain ⟨hwf'', n, hrest, hcode⟩ := ih hwf' hnext (by omega) hrun
          have hn : (n + 1) * PGSIZE = n * PGSIZE + PGSIZE := Nat.succ_mul n PGSIZE
          refine ⟨hwf'', n + 1, added_succ ha hadd hrest, ?_⟩
          rcases hcode with ⟨hc, hle, hl⟩ | ⟨hc, hlt⟩
          · exact Or.inl ⟨hc, Nat.succ_le_succ hle, by omega⟩
          · exact Or.inr ⟨hc, Nat.succ_lt_succ hlt⟩
    · have hpanic : walk root a true s = .error (.panic .walk) := if_pos (Nat.not_lt.mp hva)
      rw [mapLoop, hpanic] at h
      cases h

theorem mapLoop_total (hwf : Wellformed lo s root) (ha : a % PGSIZE = 0) (hpa : pa + fuel * PGSIZE ≤ 2 ^ 56)
    (hperm : perm < 1024) (hfuel : 0 < fuel) (hlast : last + PGSIZE = a + fuel * PGSIZE)
    (hva : a + fuel * PGSIZE ≤ MAXVA) (hnone : ∀ v, a ≤ v → v < a + fuel * PGSIZE → lookup s root v = none) :
    ∃ r, mapLoop root last perm fuel a pa s = .ok r := by
  induction fuel generalizing a pa s with
  | zero => cases hfuel
  | succ fuel ih =>
    have hmul : (fuel + 1) * PGSIZE = fuel * PGSIZE + PGSIZE := Nat.succ_mul fuel PGSIZE
    have hpage : 0 < PGSIZE := by decide
    have hva' : a < MAXVA := by omega
    have hpa' : pa + PGSIZE ≤ 2 ^ 56 := by omega
    rcases mapLoop_step last fuel hwf hva' hpa' hperm with
      ⟨u, hstep, _, _⟩ | ⟨hsome, _⟩ | ⟨u, hstep, hwf', hadd⟩
    · exact ⟨_, hstep⟩
    · exact absurd (hnone a (Nat.le_refl a) (by omega)) hsome
    · rw [hstep]
      by_cases hl : a = last
      · exact ⟨_, if_pos hl⟩
      · rw [if_neg hl]
        have hpos : 0 < fuel := by
          rcases Nat.eq_zero_or_pos fuel with hz | hz
          · rw [hz] at hlast
            omega
          · exact hz
        have hnext : (a + PGSIZE) % PGSIZE = 0 := (Nat.add_mod_right a PGSIZE).trans ha
        refine ih hwf' hnext (by omega) hpos (by omega) (by omega) fun v hle hlt => ?_
        have hout : v / PGSIZE ≠ a / PGSIZE := fun heq => by
          have hin := (same_page ha).mp heq
          omega
        rw [hadd v (by omega), if_neg hout]
        exact hnone v (by omega) (by omega)

section Mappages

variable {size : Nat}

theorem mappages_spec {code : Int} (hwf : Wellformed lo s root) (hva : va < 2 ^ 64) (hsize : size < 2 ^ 64)
    (hpa : pa + size ≤ 2 ^ 56) (hperm : perm < 1024) (h : mappages root va size pa perm s = .ok (code, t)) :
    Wellformed lo t root ∧ ∃ n, Added s t root va pa perm n ∧
      (code = 0 ∧ n = size / PGSIZE ∨ code = -1 ∧ n < size / PGSIZE) := by
  rw [mappages] at h
  split at h
  · cases h
  · rename_i hv
    split at h
    · cases h
    · rename_i hs
      split at h
      · cases h
      · rename_i hz
        have hparts : size / PGSIZE * PGSIZE = size := by
          change size / 4096 * 4096 = size
          change ¬size % 4096 ≠ 0 at hs
          omega
        obtain ⟨hwf', n, hadd, hcode⟩ := mapLoop_spec hwf (not_not.mp hv) (by rw [hparts]; exact hpa) hperm h
        refine ⟨hwf', n, hadd, ?_⟩
        rcases hcode with ⟨hc, hle, hlast⟩ | hcode
        · refine Or.inl ⟨hc, ?_⟩
          -- the loop stops at the last page before the sum could come round
          change (va + size - 4096) % 2 ^ 64 + 4096 = va + n * 4096 at hlast
          change size / 4096 * 4096 = size at hparts
          change n ≤ size / 4096 at hle
          change n = size / 4096
          omega
        · exact Or.inr hcode

theorem mappages_total (hwf : Wellformed lo s root) (hv : va % PGSIZE = 0) (hs : size % PGSIZE = 0) (hz : 0 < size)
    (hva : va + size ≤ MAXVA) (hpa : pa + size ≤ 2 ^ 56) (hperm : perm < 1024)
    (hnone : ∀ v, va ≤ v → v < va + size → lookup s root v = none) :
    ∃ r, mappages root va size pa perm s = .ok r := by
  have hparts : size / PGSIZE * PGSIZE = size := Nat.div_mul_cancel (Nat.dvd_of_mod_eq_zero hs)
  have hpos : 0 < size / PGSIZE := Nat.div_pos (Nat.le_of_dvd hz (Nat.dvd_of_mod_eq_zero hs)) (by decide)
  have hpage : PGSIZE ≤ size := Nat.le_of_dvd hz (Nat.dvd_of_mod_eq_zero hs)
  have hlt : va + size - PGSIZE < 2 ^ 64 := Nat.lt_of_le_of_lt (Nat.sub_le _ _) (Nat.lt_of_le_of_lt hva (by decide))
  rw [mappages, if_neg (not_not.mpr hv), if_neg (not_not.mpr hs), if_neg (Nat.ne_of_gt hz), u64_of_lt hlt]
  refine mapLoop_total hwf hv ?_ hperm hpos ?_ ?_ ?_ <;> rw [hparts]
  · exact hpa
  · omega
  · exact hva
  · exact hnone

end Mappages

end AdaptiveXv6.RadixMaps
