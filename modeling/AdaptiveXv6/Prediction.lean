import AdaptiveXv6.Forecasts

namespace AdaptiveXv6.Prediction

open Words Process Health Detection Ops Machine SlotHistory Counters Estimator Forecasts Runs
  Sweeps Rounds SleepCycle

variable {n b : Nat} {x y : Proc}

structure Predicted (x : Proc) (g : Tally) : Prop where
  estimated : Estimated (2 ^ 29) x g.burst
  forecast : x.state ≠ .unused → Forecast x

theorem Predicted.op {ticks : Nat} {op : Op} {g : Tally} (hpre : op.Pre x) (h : Predicted x g)
    (hb : (count op x g).burst < 2 ^ 29) : Predicted (op.apply ticks x) (count op x g) :=
  ⟨h.estimated.op (by omega) (by omega) hb, Forecast.op hpre h.estimated hb h.forecast⟩

theorem run_predicted (r : Run n) (hb : BurstsBelow r (2 ^ 29)) (p : Slot) (k : Nat) :
    Predicted ((r.state k).procs p) (tally r p k) := by
  refine slot_always r p (Q := fun g => g.burst < 2 ^ 29) (J := Predicted) (hb p) ?_ ?_ k
  · refine ⟨?_, ?_⟩
    · have h := run_estimated r (by omega) hb p 0
      rwa [r.start] at h
    · intro hu
      simp only [boot] at hu ⊢
      split
      · exact forecast_fresh rfl rfl rfl rfl rfl
      · rename_i hp
        rw [if_neg hp] at hu
        exact absurd rfl hu
  · intro ticks op x g hpre hj _ hg
    exact hj.op hpre hg

/-- At position k sched() calls update_prediction_and_health() on the process in
slot p, with the record y. -/
def UpdatedAt (r : Run n) (p : Slot) (k : Nat) (y : Proc) : Prop :=
  ∃ op z, sectionAt r k p = some op ∧ op.atSched ((r.state k).procs p) = some z ∧
    healthCall z = some y

theorem completed_of_healthCall {op : Op} {z : Proc} (hx : Estimated (2 ^ 29) x b)
    (hz : op.atSched x = some z) (hy : healthCall z = some y) :
    Completed x y ∧ y.waitticks = x.waitticks ∧ y.schedCount = x.schedCount ∧
      y.switches = u64 (x.switches + 1) := by
  have hsmooth := smooth_eq hx.covers (Nat.lt_trans hx.below (by omega))
  have hc := hx.covers
  cases op with
  | yield =>
    cases hz
    rw [healthCall, if_neg (by simp [yielding]), if_neg (by simp [yielding]; omega)] at hy
    cases hy
  | sleep chan =>
    cases hz
    rw [healthCall, if_pos (.inl rfl)] at hy
    cases hy
    exact ⟨⟨rfl, hsmooth, rfl, rfl⟩, rfl, rfl, rfl⟩
  | kexit status =>
    cases hz
    rw [healthCall, if_pos (.inr rfl)] at hy
    cases hy
    exact ⟨⟨rfl, hsmooth, rfl, rfl⟩, rfl, rfl, rfl⟩
  | _ => cases hz

theorem thrashing_iff {d : Nat} (hs : y.schedCount = u64 d) (hx : y.switches = u64 d) :
    thrashing (predict y) = false ↔ u64 d < 2 ^ 63 := by
  have hlt := u64_lt d
  have hd := u64_double_lt_iff hlt
  have hs' : (predict y).schedCount = u64 d := hs
  have hx' : (predict y).switches = u64 d := hx
  simp only [thrashing, hs', hx', Bool.and_eq_false_iff, decide_eq_false_iff_not]
  omega

/-- With bursts below 2^29 ticks the trend stays from -5 to 0 and the prediction from 1 to the estimate.
Thrashing is reported just once the dispatch counter has reached 2^63, where its double wraps. -/
theorem prediction_bounds (r : Run n) (hb : BurstsBelow r (2 ^ 29)) (p : Slot) (k : Nat) :
    (((r.state k).procs p).state ≠ .unused →
      -5 ≤ ((r.state k).procs p).burstTrend ∧ ((r.state k).procs p).burstTrend ≤ 0 ∧
      1 ≤ ((r.state k).procs p).predictedBurst ∧
      ((r.state k).procs p).predictedBurst ≤ max 1 ((r.state k).procs p).estBurst) ∧
    (∀ y, UpdatedAt r p k y →
      detectFlags (predict y) &&& ANOMALY_BURST_SURGE = 0 ∧
      detectFlags (predict y) &&& ANOMALY_STARVATION = 0 ∧
      (detectFlags (predict y) &&& ANOMALY_THRASHING = 0 ↔ (tally r p k).dispatches % 2 ^ 64 < 2 ^ 63)) := by
  have hpred := run_predicted r hb p k
  have hcount := run_counted r p k
  constructor
  · intro hu
    obtain ⟨h5, h0, h1, hmax, -, -, -⟩ := hpred.forecast hu
    exact ⟨h5, h0, h1, hmax⟩
  · rintro y ⟨op, z, hop, hz, hy⟩
    have hrun : ((r.state k).procs p).state = .running := by
      have hpre := section_pre r hop
      cases op with
      | yield | sleep chan | kexit status => exact hpre
      | _ => cases hz
    have hf := hpred.forecast (by simp [hrun])
    obtain ⟨hdone, hwait, hsched, hsw⟩ := completed_of_healthCall hpred.estimated hz hy
    refine ⟨?_, ?_, ?_⟩
    · rw [detectFlags_surge]
      exact hdone.burstSurge_eq_false hpred.estimated hf
    · rw [detectFlags_starvation]
      have hzero : (predict y).waitticks = 0 := hwait.trans (hcount.idle (by simp [hrun]))
      simp [starvation, hzero]
    · rw [detectFlags_thrashing]
      exact thrashing_iff (hsched.trans hcount.sched) (hsw.trans (hcount.inside hrun))

theorem exists_updated (d : Nat) : ∃ (r : Run 1) (k : Nat) (y : Proc), BurstsBelow r (2 ^ 29) ∧
    UpdatedAt r initproc k y ∧ y.schedCount = u64 (d + 1) ∧ y.switches = u64 (d + 1) := by
  obtain ⟨x, hx, hrest, hnaps⟩ := naps_path (n := 1) 0 d
  have hturn := turn_only (s := boot 1) (c := 0) (t := 0) (fun _ => rfl) hx hrest.burst
  obtain ⟨-, hsched, hswitches, hburst⟩ := turn_eq 0 hx
  have hzero : (sleep 7 0 (turn 0 x)).currentBurst = 0 :=
    (sched_completes_same 0 (fallingAsleep 7 (turn 0 x)) (.inl rfl)).currentBurst
  have hsleep := step_sleep (s := boot 1) (c := 0) (p := initproc) (T := only (turn 0 x)) (t := 0) rfl 7
  obtain ⟨r, k, hk, he, hfresh⟩ := (hnaps.trans hturn).exists_run_last hsleep
    (Slots.update (K := Fresh) (only_fresh (hburst.trans hrest.burst)) (by rw [only_self]; exact hzero))
  have hproc : (r.state k).procs initproc = turn 0 x := by
    rw [hk, put_procs, only_self]
  have hsec : sectionAt r k initproc = some (.sleep 7) :=
    section_of_moves r he (.sleep 0 initproc 7 (by rw [hk]; exact put_pc) (by rw [hk]; exact put_proc)) rfl
  refine ⟨r, k, completeBurst (countSwitch (fallingAsleep 7 (turn 0 x))), ?_, ?_, ?_, ?_⟩
  · exact burstsBelow_of_currentBurst r (by omega) (fun l p => by rw [hfresh l p]; omega)
  · exact ⟨.sleep 7, fallingAsleep 7 (turn 0 x), hsec, by rw [hproc]; rfl, if_pos (.inl rfl)⟩
  · change (turn 0 x).schedCount = u64 (d + 1)
    rw [hsched, hrest.sched, u64_add_left]
  · change u64 ((turn 0 x).switches + 1) = u64 (d + 1)
    rw [hswitches, hrest.switches, u64_add_left]

theorem prediction_bounds_first : ∃ (r : Run 1) (k : Nat) (y : Proc), UpdatedAt r initproc k y ∧
    detectFlags (predict y) &&& ANOMALY_BURST_SURGE = 0 ∧
    detectFlags (predict y) &&& ANOMALY_STARVATION = 0 := by
  obtain ⟨r, k, y, hb, hy, -, -⟩ := exists_updated 0
  obtain ⟨hsurge, hstarve, -⟩ := (prediction_bounds r hb initproc k).2 y hy
  exact ⟨r, k, y, hy, hsurge, hstarve⟩

/-- Its sleep after the dispatch number 2^63 raises the thrashing flag. -/
theorem thrashing_reported : ∃ (r : Run 1) (k : Nat) (y : Proc), BurstsBelow r (2 ^ 29) ∧
    UpdatedAt r initproc k y ∧ detectFlags (predict y) &&& ANOMALY_THRASHING ≠ 0 := by
  obtain ⟨r, k, y, hb, hy, hs, hx⟩ := exists_updated (2 ^ 63 - 1)
  refine ⟨r, k, y, hb, hy, ?_⟩
  rw [Ne, detectFlags_thrashing, thrashing_iff hs hx]
  decide

end AdaptiveXv6.Prediction
