import AdaptiveXv6.Waiting
import AdaptiveXv6.Profiles
import AdaptiveXv6.SleepCycle

namespace AdaptiveXv6.AgingOverflow

open Words Process Ops Machine Kernel Steps SlotHistory Waiting Sweeps Rounds Runs SleepCycle Profiles

variable {n : Nat} {x : Proc}

/-- The sum that calc_dynamic_priority() clamps, before it is cut to an int. -/
def exactPriority (p : Proc) : Int := basePriority p.procType + 2 * p.waitticks - i32 p.estBurst

theorem rawPriority_wraps (p : Proc) : rawPriority p = i32 (exactPriority p) := by
  have hwait : ((p.waitticks * AGING_WEIGHT : Nat) : Int) = 2 * p.waitticks := by
    rw [AGING_WEIGHT]
    omega
  rw [rawPriority, exactPriority, i32_sub_left, i32_u64, i32_u32, BURST_PENALTY_WEIGHT, Nat.mul_one, hwait,
    ← i32_sub_left, i32_add_right, i32_sub_left]

theorem rawPriority_exact (h : exactPriority x < 2 ^ 31) : rawPriority x = exactPriority x := by
  have hb := basePriority_bounds x.procType
  have he := i32_range (x.estBurst : Int)
  rw [rawPriority_wraps]
  refine i32_of_range ?_ h
  rw [exactPriority]
  omega

/-- While the score of a waiting process fits into an int, the passes find scores that do not decrease. -/
theorem aging_monotone (r : Run n) (p : Slot) {v j : Nat} (hvj : v ≤ j)
    (hrun : ∀ k, v ≤ k → k ≤ j → ((r.state k).procs p).state = .runnable)
    (hfit : ∀ k, v ≤ k → k ≤ j → exactPriority ((r.state k).procs p) < 2 ^ 31)
    (hv : sectionAt r v p = some .rescore) (hj : sectionAt r j p = some .rescore) :
    ((r.state (v + 1)).procs p).priority ≤ ((r.state (j + 1)).procs p).priority := by
  have hscore : ∀ k, v ≤ k → k ≤ j → sectionAt r k p = some .rescore →
      ((r.state (k + 1)).procs p).priority = min 100 (max 1 (exactPriority ((r.state k).procs p))) := by
    intro k hk hkj hs
    rw [section_apply r hs, Op.apply, rescore, if_pos (hrun k hk hkj)]
    dsimp only
    rw [calcDynamicPriority_eq, rawPriority_exact (hfit k hk hkj)]
  have hwait : ∀ k, v ≤ k → k ≤ j → ((r.state k).procs p).waitticks + 1 < 2 ^ 64 := by
    intro k hk hkj
    have hf := hfit k hk hkj
    have hb := basePriority_bounds ((r.state k).procs p).procType
    have he := i32_range (((r.state k).procs p).estBurst : Int)
    rw [exactPriority] at hf
    omega
  obtain ⟨hle, hest, htype⟩ := waits_place r hvj hrun hwait
  rw [hscore v (Nat.le_refl v) hvj hv, hscore j hvj (Nat.le_refl j) hj, exactPriority, exactPriority, hest, htype]
  omega

theorem idle_clock_path {s : Kernel n} {c : Fin n} {T : Slot → Proc} {t : Nat} {K : Slot → Proc → Prop}
    (hlock : ∀ i, s.lock i = none) (hc : c.val = 0) (hK : ∀ j, K j (T j))
    (hK' : ∀ j, K j (wakeup ticksChan (T j)))
    (hK'' : ∀ j, K j (accountWait (u32 (t + 1)) (wakeup ticksChan (T j)))) :
    Path Kernel.step (Slots K) (put s c ⟨none, .top⟩ T t)
      (put s c ⟨none, .top⟩ (fun i => accountWait (u32 (t + 1)) (wakeup ticksChan (T i))) (u32 (t + 1))) := by
  have htimer : (put s c ⟨none, .top⟩ T t).step (.timer c) =
      some (put s c ⟨none, .wakeup ticksChan 0 true .top⟩ T (u32 (t + 1))) := by
    refine step_eq_some.mpr ⟨_, .timerTop c put_pc hc, rfl, ?_⟩
    simp [put, perform, Kernel.clockMove, Kernel.proc]
  have hvisited : ∀ j, K j (if (none : Option Slot) = some j then T j else wakeup ticksChan (T j)) := by
    simpa using hK'
  have hwake := wakeup_path (c := c) (t := u32 (t + 1)) hlock hK ticksChan true .top hvisited
  simp only [reduceCtorEq, if_false, if_true] at hwake
  exact .cons hK htimer (hwake.trans (account_path hlock hK' .top hK''))

def Waits (N : Nat) (j : Slot) (x : Proc) : Prop := j.val = 0 → ∃ w, w ≤ N ∧ Profile .runnable w 0 0 x

variable {N w : Nat}

theorem waits_only (hx : Profile .runnable w 0 0 x) (hw : w ≤ N) (j : Slot) : Waits N j (only x j) := by
  intro hj
  obtain rfl : j = 0 := Fin.ext hj
  exact ⟨w, hw, hx⟩

theorem idle_path {s : Kernel n} {c : Fin n} (hlock : ∀ i, s.lock i = none) (hc : c.val = 0)
    (hx : Profile .runnable 0 0 0 x) (hN : N < 2 ^ 64) (hw : w ≤ N) :
    ∃ y t, Profile .runnable w 0 0 y ∧ Path Kernel.step (Slots (Waits N)) (put s c ⟨none, .top⟩ (only x) 0)
      (put s c ⟨none, .top⟩ (only y) t) := by
  induction w with
  | zero => exact ⟨x, 0, hx, .refl (waits_only hx hw)⟩
  | succ w ih =>
    obtain ⟨y, t, hy, hpath⟩ := ih (by omega)
    have hwake : wakeup ticksChan y = y := wakeup_eq (.inl (by rw [hy.state]; decide))
    have hnext := hy.accountWait (by omega) (u32 (t + 1))
    have hmap : (fun j => accountWait (u32 (t + 1)) (wakeup ticksChan (only y j))) =
        only (accountWait (u32 (t + 1)) y) := by
      rw [only_map (f := fun _ z => accountWait (u32 (t + 1)) (wakeup ticksChan z)) (fun _ => rfl), hwake]
    have hwoken : ∀ j, Waits N j (wakeup ticksChan (only y j)) := by
      intro j hj
      obtain rfl : j = 0 := Fin.ext hj
      refine ⟨w, by omega, ?_⟩
      change Profile .runnable w 0 0 (wakeup ticksChan y)
      rw [hwake]
      exact hy
    have hcounted : ∀ j, Waits N j (accountWait (u32 (t + 1)) (wakeup ticksChan (only y j))) := by
      intro j
      rw [congrFun hmap j]
      exact waits_only hnext hw j
    have hclock := idle_clock_path (s := s) (c := c) hlock hc (waits_only hy (by omega)) hwoken hcounted
    rw [hmap] at hclock
    exact ⟨_, _, hnext, hpath.trans hclock⟩

theorem step_visit {s : Kernel n} {c : Fin n} {t : Nat} (hlock : s.lock 0 = none) :
    (put s c ⟨none, .pass1 0 none (-1)⟩ (only x) t).step (.visit c) =
      some (put s c ⟨none, afterVisit 0 (better (only x) 0 none (-1))⟩ (only (rescore x)) t) := by
  have h := step_locked hlock
    (Moves.visit (s := put s c ⟨none, .pass1 0 none (-1)⟩ (only x) t) c 0 none (-1) put_pc)
  rw [put_procs] at h
  rw [h]
  exact congrArg (fun T => some (put s c _ T t)) (only_update x _)

theorem visited_again (hN : N < 2 ^ 64) : ∃ (r : Run 2) (v j : Nat), v ≤ j ∧
    (∀ k, v ≤ k → k ≤ j → ∃ w, w ≤ N ∧ Profile .runnable w 0 0 ((r.state k).procs 0)) ∧
    sectionAt r v 0 = some .rescore ∧ sectionAt r j 0 = some .rescore ∧
    Profile .runnable 0 0 0 ((r.state v).procs 0) ∧ Profile .runnable N 0 0 ((r.state j).procs 0) := by
  have hinit : Profile .runnable 0 0 0 userinit := ⟨rfl, rfl, rfl, rfl, rfl⟩
  have hstart : Path Kernel.step (Slots (Waits N)) (boot 2)
      (put (boot 2) 1 ⟨none, .pass1 0 none (-1)⟩ (only userinit) 0) := by
    have hbegin := step_jump (Moves.startPass (s := put (boot 2) 1 ⟨none, .top⟩ (only userinit) 0) 1 put_pc)
    rw [← boot_put] at hbegin
    refine .one ?_ hbegin (waits_only hinit (Nat.zero_le N))
    rw [boot_put 2 1]
    exact waits_only hinit (Nat.zero_le N)
  have hfirst := step_visit (s := boot 2) (c := 1) (x := userinit) (t := 0) rfl
  -- from now on CPU 1 does not move
  generalize hb : (⟨none, afterVisit 0 (better (only userinit) 0 none (-1))⟩ : Cpu) = b at hfirst
  obtain ⟨y, t, hy, hwait⟩ := idle_path (s := put (boot 2) 1 b (only (rescore userinit)) 0) (c := 0) (fun _ => rfl) rfl
    hinit.rescore hN (Nat.le_refl N)
  have hbegin := step_jump (Moves.startPass
    (s := put (put (boot 2) 1 b (only (rescore userinit)) 0) 0 ⟨none, .top⟩ (only y) t) 0 put_pc)
  have hmid := hwait.snoc hbegin (waits_only hy (Nat.le_refl N))
  rw [← put_other (s := boot 2) (c := 1) (d := 0) (by decide) (show (boot 2).cpus 0 = ⟨none, .top⟩ from rfl) b
    (only (rescore userinit)) 0] at hmid
  have hsecond := step_visit (s := put (boot 2) 1 b (only (rescore userinit)) 0) (c := 0) (x := y) (t := t) rfl
  obtain ⟨r, i, j, hij, hi, hei, -, hj, hej, -, -, hbetween, -⟩ := hstart.exists_run_between hfirst hmid hsecond
  have hprofile : Profile .runnable 0 0 0 ((r.state i).procs 0) := by
    rw [hi]
    exact hinit
  refine ⟨r, i, j, hij.le, ?_, ?_, ?_, hprofile, ?_⟩
  · intro k hik hkj
    rcases Nat.eq_or_lt_of_le hik with rfl | hlt
    · exact ⟨0, Nat.zero_le N, hprofile⟩
    · exact hbetween k hlt hkj 0 rfl
  · exact section_of_moves r hei (.visit 1 0 none (-1) (by rw [hi]; exact put_pc)) rfl
  · exact section_of_moves r hej (.visit 0 0 none (-1) (by rw [hj]; exact put_pc)) rfl
  · rw [hj]
    exact hy

theorem exactPriority_new (hx : Profile .runnable w 0 0 x) : exactPriority x = 50 + 2 * w := by
  rw [exactPriority, hx.type, hx.wait, hx.est, i32_of_range (by decide) (by decide)]
  change (50 : Int) + 2 * w - 0 = _
  omega

theorem aging_monotone_tick : ∃ (r : Run 2) (v j : Nat), ((r.state j).procs 0).waitticks = 1 ∧
    ((r.state (v + 1)).procs 0).priority ≤ ((r.state (j + 1)).procs 0).priority := by
  obtain ⟨r, v, j, hvj, hwaits, hv, hj, -, hlast⟩ := visited_again (N := 1) (by decide)
  refine ⟨r, v, j, hlast.wait, aging_monotone r 0 hvj ?_ ?_ hv hj⟩
  · intro k hk hkj
    obtain ⟨w, -, hw⟩ := hwaits k hk hkj
    exact hw.state
  · intro k hk hkj
    obtain ⟨w, hle, hw⟩ := hwaits k hk hkj
    rw [exactPriority_new hw]
    omega

/-- After 2^30 ticks of waiting the score of init has fallen from 50 to 1. -/
theorem aging_overflows : ∃ (r : Run 2) (v j : Nat), v ≤ j ∧
    (∀ k, v ≤ k → k ≤ j → ((r.state k).procs 0).state = .runnable) ∧
    sectionAt r v 0 = some .rescore ∧ sectionAt r j 0 = some .rescore ∧
    ((r.state (v + 1)).procs 0).priority = 50 ∧ ((r.state (j + 1)).procs 0).priority = 1 := by
  obtain ⟨r, v, j, hvj, hwaits, hv, hj, hfirst, hlast⟩ := visited_again (N := 2 ^ 30) (by decide)
  have hscore : ∀ k w, sectionAt r k 0 = some .rescore → Profile .runnable w 0 0 ((r.state k).procs 0) →
      ((r.state (k + 1)).procs 0).priority = min 100 (max 1 (i32 (50 + 2 * w))) := by
    intro k w hs hw
    rw [section_apply r hs, Op.apply, rescore, if_pos hw.state]
    dsimp only
    rw [calcDynamicPriority_eq, rawPriority_wraps, exactPriority_new hw]
  refine ⟨r, v, j, hvj, ?_, hv, hj, ?_, ?_⟩
  · intro k hk hkj
    obtain ⟨w, -, hw⟩ := hwaits k hk hkj
    exact hw.state
  · rw [hscore v 0 hv hfirst]
    decide
  · rw [hscore j _ hj hlast]
    decide

end AdaptiveXv6.AgingOverflow
