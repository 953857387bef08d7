import AdaptiveXv6.Estimator
import AdaptiveXv6.LongBurst

namespace AdaptiveXv6.Aging

open Process Machine SlotHistory Estimator Runs Sweeps LongBurst Rotation

variable {n B : Nat}

/-- With bursts below B ticks, a wait of half of B plus 20 ticks lifts a process
above all that have not waited yet. -/
theorem aging_bound (r : Run n) (hB : B ≤ 2 ^ 29) (hb : BurstsBelow r B) (k : Nat) (p q : Slot)
    (hw : (B + 41) / 2 ≤ ((r.state k).procs p).waitticks)
    (hlt : ((r.state k).procs p).waitticks < 2 ^ 29)
    (hq0 : ((r.state k).procs q).waitticks = 0) :
    calcDynamicPriority ((r.state k).procs q) < calcDynamicPriority ((r.state k).procs p) := by
  have hep := (run_estimated r (by omega) hb p k).below
  have heq := (run_estimated r (by omega) hb q k).below
  have hbp := basePriority_bounds ((r.state k).procs p).procType
  have hbq := basePriority_bounds ((r.state k).procs q).procType
  rw [calcDynamicPriority_eq, calcDynamicPriority_eq, rawPriority_eq hlt (by omega),
    rawPriority_eq (by omega) (by omega), hq0]
  omega

theorem aging_bound_rotation : ∃ (r : Run 1) (k : Nat), BurstsBelow r 3 ∧
    ((r.state k).procs 27).waitticks = 27 ∧ ((r.state k).procs 26).waitticks = 0 ∧
    calcDynamicPriority ((r.state k).procs 26) < calcDynamicPriority ((r.state k).procs 27) := by
  obtain ⟨s, prio, T, hlock, hT, hpath⟩ := chosen_path (τ := 27) (by omega) (by omega)
  obtain ⟨r, k, hk, hshort⟩ := hpath.exists_reached
  have hb : BurstsBelow r 3 := burstsBelow_of_short hshort (by omega) (by omega)
  have hp : ((r.state k).procs 27).waitticks = 27 := by
    rw [hk]
    exact ((hT 27).row (by decide)).wait
  have hq : ((r.state k).procs 26).waitticks = 0 := by
    rw [hk]
    exact ((hT 26).row (by decide)).wait
  exact ⟨r, k, hb, hp, hq, aging_bound r (by omega) hb k 27 26 (by omega) (by omega) hq⟩

theorem behind_new {W : Nat} (hW : W < 2 ^ 29) : ∃ (r : Run 1) (k : Nat),
    ((r.state k).procs 1).state = .runnable ∧ ((r.state k).procs 2).state = .runnable ∧
    ((r.state k).procs 1).waitticks = W ∧ ((r.state k).procs 2).waitticks = 0 ∧
    calcDynamicPriority ((r.state k).procs 1) < calcDynamicPriority ((r.state k).procs 2) := by
  obtain ⟨s, T, t, hlock, hp, hq, hpath⟩ := behind_path hW
  obtain ⟨r, k, hk, -⟩ := hpath.exists_reached
  have hone : calcDynamicPriority (T 1) = 1 := long_score hW (Nat.le_refl W) hp
  have hfifty : calcDynamicPriority (T 2) = 50 := hq.score (by omega) (by omega)
  refine ⟨r, k, ?_⟩
  rw [hk, put_procs, hone, hfifty]
  exact ⟨hp.state, hq.state, hp.wait, hq.wait, by decide⟩

/-- Without a bound on the bursts no wait below the overflow threshold suffices. -/
theorem aging_unbounded : ¬∃ W, W < 2 ^ 29 ∧ ∀ (n : Nat) (r : Run n) (k : Nat) (p q : Slot),
    ((r.state k).procs p).state = .runnable → W ≤ ((r.state k).procs p).waitticks →
    ((r.state k).procs p).waitticks < 2 ^ 29 →
    ((r.state k).procs q).state = .runnable → ((r.state k).procs q).waitticks = 0 →
    calcDynamicPriority ((r.state k).procs q) < calcDynamicPriority ((r.state k).procs p) := by
  rintro ⟨W, hW, h⟩
  obtain ⟨r, k, hp, hq, hwp, hwq, hlt⟩ := behind_new hW
  have hgt := h 1 r k 1 2 hp hwp.ge (by omega) hq hwq
  omega

end AdaptiveXv6.Aging
