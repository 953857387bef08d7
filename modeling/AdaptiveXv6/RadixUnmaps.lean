import AdaptiveXv6.RadixMaps

namespace AdaptiveXv6.RadixUnmaps

open MemLayout Words Radix RadixTrees RadixWalks RadixMaps

variable {s t : Phys} {lo root va v a pa fuel level x stop : Nat} {doFree : Bool}

theorem find_page (h : v / PGSIZE = a / PGSIZE) : find s v level x = find s a level x := by
  have hpx : ∀ k, PX k v = PX k a := fun k => by rw [px_page, px_page, h]
  induction level generalizing x with
  | zero => rw [find, find, hpx]
  | succ level ih =>
    rw [find, find, hpx]
    cases child s x (PX (level + 1) a) with
    | none => rfl
    | some c => exact ih

theorem leafTable_congr (h : ∀ y ∈ pages s level x, t.mem y = s.mem y) :
    leafTable t va level x = leafTable s va level x := by
  induction level generalizing x with
  | zero => rfl
  | succ level ih =>
    rw [leafTable, leafTable, child_congr (h x self_mem)]
    cases hc : child s x (PX (level + 1) va) with
    | none => rfl
    | some c => exact ih fun y hy => h y (child_pages (px_lt _ _) hc hy)

/-- The page of memory that the table has at v, in the range from a to stop. -/
def Holds (s : Phys) (root a stop v pa : Nat) : Prop :=
  a ≤ v ∧ v < stop ∧ v < MAXVA ∧ ∃ flags, lookup s root v = some (pa, flags)

/-- The pages of memory in the range are allocated, and none is there twice. -/
structure Releasable (lo : Nat) (s : Phys) (root a stop : Nat) : Prop where
  good : ∀ v pa, Holds s root a stop v pa → Good lo pa
  apart : ∀ v pa, Holds s root a stop v pa → pa ∉ pages s 2 root ++ s.free
  once : ∀ v v' pa, Holds s root a stop v pa → Holds s root a stop v' pa → v / PGSIZE = v' / PGSIZE

theorem kfree_good (hgood : Good lo pa) :
    kfree lo pa s = .ok { s.fill pa 0x0101010101010101 with free := pa :: s.free } := by
  refine if_neg ?_
  rintro (h | h | h)
  · exact h hgood.aligned
  · exact Nat.not_lt.mpr hgood.low h
  · exact Nat.not_le.mpr hgood.high h

theorem kfree_spec (hwf : Wellformed lo s root) (hgood : Good lo pa) (hout : pa ∉ pages s 2 root ++ s.free) :
    ∃ t, kfree lo pa s = .ok t ∧ Wellformed lo t root ∧ t.free = pa :: s.free ∧
      ∀ y ∈ pages s 2 root, t.mem y = s.mem y := by
  have hmem : ∀ y ∈ pages s 2 root, (s.fill pa 0x0101010101010101).mem y = s.mem y := by
    intro y hy
    have hne : y ≠ pa := fun heq => hout (heq ▸ List.mem_append_left _ hy)
    exact Function.update_of_ne hne _ _
  refine ⟨_, kfree_good hgood, ?_, rfl, hmem⟩
  have hpages : pages { s.fill pa 0x0101010101010101 with free := pa :: s.free } 2 root = pages s 2 root :=
    pages_congr hmem
  have hperm : (pages s 2 root ++ pa :: s.free).Perm (pa :: (pages s 2 root ++ s.free)) := List.perm_middle
  refine ⟨?_, pointers_congr hmem hwf.pointers, ?_⟩
  · rw [hpages]
    exact hperm.nodup_iff.mpr (List.nodup_cons.mpr ⟨hout, hwf.nodup⟩)
  · intro y hy
    rw [hpages] at hy
    rcases List.mem_cons.mp (hperm.mem_iff.mp hy) with heq | hy
    · exact heq ▸ hgood
    · exact hwf.good y hy

theorem lookup_none (h : find s a 2 root = none) :
    ∀ v < MAXVA, lookup s root v = if v / PGSIZE = a / PGSIZE then none else lookup s root v := by
  intro v _
  split
  · rename_i heq
    rw [lookup, find_page heq, h]
    rfl
  · rfl

theorem Releasable.rest (h : Releasable lo s root a stop) : Releasable lo s root (a + PGSIZE) stop := by
  have hsub : ∀ {v pa}, Holds s root (a + PGSIZE) stop v pa → Holds s root a stop v pa := fun hv =>
    ⟨Nat.le_trans (Nat.le_add_right _ _) hv.1, hv.2⟩
  exact ⟨fun v pa hv => h.good v pa (hsub hv), fun v pa hv => h.apart v pa (hsub hv),
    fun v v' pa hv hv' => h.once v v' pa (hsub hv) (hsub hv')⟩

theorem Releasable.freed (h : Releasable lo s root a stop) (ha : a % PGSIZE = 0) (hheld : Holds s root a stop a pa)
    (hlook : ∀ v < MAXVA, lookup t root v = if v / PGSIZE = a / PGSIZE then none else lookup s root v)
    (hpages : ∀ y ∈ pages t 2 root, y ∈ pages s 2 root) (hfree : t.free = pa :: s.free) :
    Releasable lo t root (a + PGSIZE) stop := by
  have hsub : ∀ {v pa'}, Holds t root (a + PGSIZE) stop v pa' →
      v / PGSIZE ≠ a / PGSIZE ∧ Holds s root a stop v pa' := by
    rintro v pa' ⟨hle, hlt, hvm, f, hf⟩
    have hne : v / PGSIZE ≠ a / PGSIZE := fun heq => Nat.not_lt.mpr hle ((same_page ha).mp heq).2
    rw [hlook v hvm, if_neg hne] at hf
    exact ⟨hne, Nat.le_trans (Nat.le_add_right _ _) hle, hlt, hvm, f, hf⟩
  refine ⟨fun v pa' hv => h.good v pa' (hsub hv).2, fun v pa' hv hmem => ?_, fun v v' pa' hv hv' =>
    h.once v v' pa' (hsub hv).2 (hsub hv').2⟩
  rcases List.mem_append.mp hmem with hp | hp
  · exact h.apart v pa' (hsub hv).2 (List.mem_append_left _ (hpages pa' hp))
  · rw [hfree] at hp
    rcases List.mem_cons.mp hp with heq | hp
    · exact (hsub hv).1 (h.once v a pa' (hsub hv).2 (heq ▸ hheld))
    · exact h.apart v pa' (hsub hv).2 (List.mem_append_right _ hp)

theorem unmapLoop_step (fuel : Nat) (hwf : Wellformed lo s root) (ha : a < MAXVA) (hstop : a < stop)
    (halign : a % PGSIZE = 0) (hrel : doFree = true → Releasable lo s root a stop) :
    ∃ t, unmapLoop lo root stop doFree (fuel + 1) a s = unmapLoop lo root stop doFree fuel (a + PGSIZE) t ∧
      Wellformed lo t root ∧
      (∀ v < MAXVA, lookup t root v = if v / PGSIZE = a / PGSIZE then none else lookup s root v) ∧
      (doFree = true → Releasable lo t root (a + PGSIZE) stop) := by
  have hu : u64 (a + PGSIZE) = a + PGSIZE := u64_of_lt (by
    change a < 2 ^ 38 at ha
    change a + 4096 < 2 ^ 64
    omega)
  have hwalk : walk root a false s = .ok ((leafTable s a 2 root).map fun p => (p, PX 0 a), s) :=
    (if_neg (Nat.not_le.mpr ha)).trans (congrArg Except.ok walkLoop_read)
  have hfind : find s a 2 root = (leafTable s a 2 root).bind fun p => valid (s.mem p (PX 0 a)) :=
    find_eq_leafTable
  rw [unmapLoop, if_pos hstop, hwalk, hu]
  cases hx : leafTable s a 2 root with
  | none =>
    rw [hx] at hfind
    exact ⟨s, rfl, hwf, lookup_none hfind, fun hd => (hrel hd).rest⟩
  | some x =>
    rw [hx] at hfind
    simp only [Option.map_some]
    by_cases hv : s.mem x (PX 0 a) &&& PTE_V = 0
    · rw [if_pos hv]
      exact ⟨s, rfl, hwf, lookup_none (hfind.trans (if_neg (not_not.mpr hv))), fun hd => (hrel hd).rest⟩
    · rw [if_neg hv]
      have hfind : find s a 2 root = some (s.mem x (PX 0 a)) := hfind.trans (if_pos hv)
      cases doFree with
      | false =>
        obtain ⟨hwf', hnew⟩ := hwf.store ha hx 0
        refine ⟨_, rfl, hwf', fun v hvm => ?_, nofun⟩
        rw [lookup, hnew v hvm]
        split <;> rfl
      | true =>
        have hrel := hrel rfl
        have hheld : Holds s root a stop a (PTE2PA (s.mem x (PX 0 a))) :=
          ⟨Nat.le_refl a, hstop, ha, _, congrArg (Option.map _) hfind⟩
        obtain ⟨u, hfree, hwfu, hfl, hmem⟩ := kfree_spec hwf (hrel.good _ _ hheld) (hrel.apart _ _ hheld)
        have hxu : leafTable u a 2 root = some x := (leafTable_congr hmem).trans hx
        obtain ⟨hwf', hnew⟩ := hwfu.store ha hxu 0
        have hlook : ∀ v < MAXVA, lookup (u.store x (PX 0 a) 0) root v =
            if v / PGSIZE = a / PGSIZE then none else lookup s root v := by
          intro v hvm
          rw [lookup, hnew v hvm, find_congr hmem]
          split <;> rfl
        have hpages := (store_spec hwfu.nodup.of_append_left hxu 0).1.pages
        rw [List.append_nil, pages_congr hmem] at hpages
        refine ⟨u.store x (PX 0 a) 0, ?_, hwf', hlook, fun _ => ?_⟩
        · rw [if_pos rfl, hfree]
        · exact hrel.freed halign hheld hlook (fun y hy => hpages.mem_iff.mp hy) hfl

theorem unmapLoop_spec (hwf : Wellformed lo s root) (ha : a % PGSIZE = 0) (hs : stop % PGSIZE = 0)
    (hrel : doFree = true → Releasable lo s root a stop) (h : unmapLoop lo root stop doFree fuel a s = .ok t) :
    Wellformed lo t root ∧
      ∀ v < MAXVA, lookup t root v = if a ≤ v ∧ v < stop then none else lookup s root v := by
  induction fuel generalizing a s with
  | zero =>
    rw [unmapLoop] at h
    split at h
    · cases h
    · cases h
      exact ⟨hwf, fun v _ => (if_neg (by omega)).symm⟩
  | succ fuel ih =>
    by_cases hstop : a < stop
    · by_cases hva : a < MAXVA
      · obtain ⟨u, hstep, hwf', hlook, hrel'⟩ := unmapLoop_step fuel hwf hva hstop ha hrel
        have hnext : (a + PGSIZE) % PGSIZE = 0 := (Nat.add_mod_right a PGSIZE).trans ha
        obtain ⟨hwf'', hrest⟩ := ih hwf' hnext hrel' (hstep.symm.trans h)
        refine ⟨hwf'', fun v hv => ?_⟩
        have hpage := same_page (v := v) ha
        have hle : a + PGSIZE ≤ stop := by
          change a % 4096 = 0 at ha
          change stop % 4096 = 0 at hs
          change a + 4096 ≤ stop
          omega
        rw [hrest v hv, hlook v hv]
        by_cases hfirst : v / PGSIZE = a / PGSIZE
        · rw [if_pos hfirst, ite_self, if_pos]
          have hin := hpage.mp hfirst
          omega
        · rw [if_neg hfirst]
          have hout := mt hpage.mpr hfirst
          by_cases hin : a + PGSIZE ≤ v ∧ v < stop
          · rw [if_pos hin, if_pos (by omega)]
          · rw [if_neg hin, if_neg (by omega)]
      · have hpanic : walk root a false s = .error (.panic .walk) := if_pos (Nat.not_lt.mp hva)
        rw [unmapLoop, if_pos hstop, hpanic] at h
        cases h
    · rw [unmapLoop, if_neg hstop] at h
      cases h
      exact ⟨hwf, fun v _ => (if_neg (by omega)).symm⟩

theorem unmapLoop_total (hwf : Wellformed lo s root) (ha : a % PGSIZE = 0) (hstop : stop ≤ MAXVA)
    (hfuel : stop ≤ a + fuel * PGSIZE) (hrel : doFree = true → Releasable lo s root a stop) :
    ∃ t, unmapLoop lo root stop doFree fuel a s = .ok t := by
  induction fuel generalizing a s with
  | zero => exact ⟨s, if_neg (by omega)⟩
  | succ fuel ih =>
    by_cases hlt : a < stop
    · obtain ⟨u, hstep, hwf', _, hrel'⟩ :=
        unmapLoop_step fuel hwf (Nat.lt_of_lt_of_le hlt hstop) hlt ha hrel
      have hnext : (a + PGSIZE) % PGSIZE = 0 := (Nat.add_mod_right a PGSIZE).trans ha
      have hmul : (fuel + 1) * PGSIZE = fuel * PGSIZE + PGSIZE := Nat.succ_mul fuel PGSIZE
      rw [hstep]
      exact ih hwf' hnext (by omega) hrel'
    · exact ⟨s, if_neg hlt⟩

theorem stop_aligned (ha : a % PGSIZE = 0) (n : Nat) : u64 (a + n * PGSIZE) % PGSIZE = 0 := by
  change a % 4096 = 0 at ha
  change (a + n * 4096) % 2 ^ 64 % 4096 = 0
  omega

end AdaptiveXv6.RadixUnmaps
