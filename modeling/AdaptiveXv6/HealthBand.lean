import AdaptiveXv6.Prediction

namespace AdaptiveXv6.HealthBand

open Words Process Health Detection Ops Machine Kernel SlotHistory Waiting Estimator Forecasts Prediction
  Rotation

variable {n b : Nat} {x y : Proc}

structure Banded (x : Proc) : Prop where
  lower : 0 ≤ x.anomalyScore
  upper : x.anomalyScore ≤ 100
  band : x.healthStatus = classifyHealth x.anomalyScore

theorem Banded.congr (h : Banded x) (hs : y.anomalyScore = x.anomalyScore)
    (hh : y.healthStatus = x.healthStatus) : Banded y := by
  refine ⟨?_, ?_, ?_⟩
  · rw [hs]; exact h.lower
  · rw [hs]; exact h.upper
  · rw [hs, hh]; exact h.band

theorem Banded.same (h : Banded x) (hs : SameHealth y x) : Banded y :=
  h.congr hs.anomalyScore hs.healthStatus

theorem remedies_band (p : Proc) :
    (remedyThrashing (remedyBurst (remedyStarvation p))).anomalyScore = p.anomalyScore ∧
      (remedyThrashing (remedyBurst (remedyStarvation p))).healthStatus = p.healthStatus := by
  obtain ⟨prio, slice, h⟩ := remedies_eq p
  rw [h]
  split <;> exact ⟨rfl, rfl⟩

theorem Banded.relieve (h : Banded x) (ticks : Nat) : Banded (relieve ticks x) := by
  have hl := h.lower
  have hu := h.upper
  have hrel : relievedScore x.anomalyScore =
      if x.anomalyScore > 20 then x.anomalyScore - 15 else x.anomalyScore := by
    rw [relievedScore]
    split
    · exact i32_of_range (by omega) (by omega)
    · rfl
  have hband := h.band
  refine ⟨?_, ?_, ?_⟩
  · change 0 ≤ relievedScore x.anomalyScore
    rw [hrel]
    split <;> omega
  · change relievedScore x.anomalyScore ≤ 100
    rw [hrel]
    split <;> omega
  · change (if relievedScore x.anomalyScore < 30 then HealthStatus.normal
      else if relievedScore x.anomalyScore < 70 then .warning else x.healthStatus) =
        classifyHealth (relievedScore x.anomalyScore)
    by_cases h30 : relievedScore x.anomalyScore < 30
    · rw [if_pos h30, classifyHealth, if_neg (by omega), if_neg (by omega)]
    · by_cases h70 : relievedScore x.anomalyScore < 70
      · rw [if_neg h30, if_pos h70, classifyHealth, if_neg (by omega), if_pos (by omega)]
      · have hle : relievedScore x.anomalyScore ≤ x.anomalyScore := by
          rw [hrel]
          split <;> omega
        rw [if_neg h30, if_neg h70, hband, classifyHealth, classifyHealth, if_pos (by omega),
          if_pos (by omega)]

theorem Banded.heal (h : Banded x) (ticks : Nat) : Banded (applySelfHealing ticks x) := by
  obtain ⟨hs, hh⟩ := remedies_band x
  rw [applySelfHealing]
  split
  · exact (h.congr hs hh).relieve ticks
  · exact h.congr hs hh

theorem Banded.flagStarvation (h : Banded x) : Banded (flagStarvation x) := by
  have hl := h.lower
  have hu := h.upper
  have hraise : raisedScore x.anomalyScore = min 100 (x.anomalyScore + 40) := by
    rw [raisedScore, i32_of_range (by omega) (by omega), MAX_ANOMALY_SCORE]
    split <;> omega
  refine ⟨?_, ?_, ?_⟩
  · change 0 ≤ raisedScore x.anomalyScore
    omega
  · change raisedScore x.anomalyScore ≤ 100
    omega
  · change (if raisedScore x.anomalyScore ≥ 70 then HealthStatus.critical else .warning) =
      classifyHealth (raisedScore x.anomalyScore)
    by_cases h70 : raisedScore x.anomalyScore ≥ 70
    · rw [if_pos h70, classifyHealth, if_pos h70]
    · rw [if_neg h70, classifyHealth, if_neg h70, if_pos (by omega)]

theorem update_banded (ticks : Nat) (h : predictionErrorOf y < 2 ^ 29) :
    Banded (updatePredictionAndHealth ticks y) := by
  have hscore : detectScore (predict y) = min 100 (signalScore (predict y) + 3 * predictionErrorOf y) :=
    detectScore_eq h
  have hsig := signalScore_bounds (predict y)
  have hassess : Banded (assess y) := by
    refine ⟨?_, ?_, rfl⟩
    · change 0 ≤ detectScore (predict y)
      omega
    · change detectScore (predict y) ≤ 100
      omega
  rw [updatePredictionAndHealth]
  split
  · exact hassess.heal ticks
  · exact hassess

theorem sched_banded {op : Op} {z : Proc} (hx : Estimated (2 ^ 29) x b) (hf : Forecast x)
    (h : Banded x) (hz : op.atSched x = some z) (hsame : SameHealth z x) (ticks : Nat) :
    Banded (sched ticks z) := by
  rw [sched_healthCall]
  cases hy : healthCall z with
  | none =>
    dsimp only
    exact (h.same hsame).congr rfl rfl
  | some y =>
    obtain ⟨hdone, -⟩ := completed_of_healthCall hx hz hy
    have hu := update_banded ticks (hdone.error_lt hx hf)
    dsimp only
    split
    · exact hu
    · exact hu.congr rfl rfl

theorem Banded.op {ticks : Nat} {op : Op} {g : Tally} (hpre : op.Pre x) (hp : Predicted x g)
    (h : Banded x) : Banded (op.apply ticks x) := by
  cases op with
  | rescore | dispatch | resume | chargeTick | wakeup | kkill | setkilled | makeRunnable | unlock =>
    exact h.same (Op.plain_same rfl ticks x)
  | yield =>
    have hs : x.state = .running := hpre
    have hz : Op.yield.atSched x = some (yielding x) := rfl
    exact sched_banded hp.estimated (hp.forecast (by simp [hs])) h hz (by constructor <;> rfl) ticks
  | sleep chan =>
    have hs : x.state = .running := hpre
    have hz : (Op.sleep chan).atSched x = some (fallingAsleep chan x) := rfl
    exact sched_banded hp.estimated (hp.forecast (by simp [hs])) h hz (by constructor <;> rfl) ticks
  | kexit status =>
    have hs : x.state = .running := hpre
    have hz : (Op.kexit status).atSched x = some (exiting status x) := rfl
    exact sched_banded hp.estimated (hp.forecast (by simp [hs])) h hz (by constructor <;> rfl) ticks
  | allocproc pid | freeproc => exact ⟨Int.le_refl _, show (0 : Int) ≤ 100 by decide, rfl⟩
  | accountWait =>
    have hw : Banded (countWait x) := h.congr rfl rfl
    simp only [Op.apply, accountWait]
    split
    · split
      · exact hw.flagStarvation.heal ticks
      · exact hw
    · exact h

theorem run_banded (r : Run n) (hb : BurstsBelow r (2 ^ 29)) (p : Slot) (k : Nat) :
    Banded ((r.state k).procs p) := by
  have hinv : Predicted ((r.state k).procs p) (tally r p k) ∧ Banded ((r.state k).procs p) := by
    refine slot_always r p (Q := fun g => g.burst < 2 ^ 29) (J := fun x g => Predicted x g ∧ Banded x)
      (hb p) ?_ ?_ k
    · have h := run_predicted r hb p 0
      rw [r.start] at h
      refine ⟨h, ?_⟩
      simp only [boot]
      split <;> exact ⟨Int.le_refl _, show (0 : Int) ≤ 100 by decide, rfl⟩
    · rintro ticks op x g hpre ⟨hp, hx⟩ _ hg
      exact ⟨hp.op hpre hg, hx.op hpre hp⟩
  exact hinv.2

theorem classifyHealth_iff (score : Int) :
    (classifyHealth score = .normal ↔ score < 30) ∧
      (classifyHealth score = .warning ↔ 30 ≤ score ∧ score < 70) ∧
      (classifyHealth score = .critical ↔ 70 ≤ score) := by
  rw [classifyHealth]
  split
  · simp; omega
  · split <;> simp <;> omega

/-- With bursts below 2^29 ticks every slot has a score from 0 to 100 and the health of that score, whichever
of the three writers came last. -/
theorem health_consistent (r : Run n) (hb : BurstsBelow r (2 ^ 29)) (p : Slot) (k : Nat) :
    0 ≤ ((r.state k).procs p).anomalyScore ∧ ((r.state k).procs p).anomalyScore ≤ 100 ∧
    (((r.state k).procs p).healthStatus = .normal ↔ ((r.state k).procs p).anomalyScore < 30) ∧
    (((r.state k).procs p).healthStatus = .warning ↔
      30 ≤ ((r.state k).procs p).anomalyScore ∧ ((r.state k).procs p).anomalyScore < 70) ∧
    (((r.state k).procs p).healthStatus = .critical ↔ 70 ≤ ((r.state k).procs p).anomalyScore) := by
  have h := run_banded r hb p k
  rw [h.band]
  exact ⟨h.lower, h.upper, classifyHealth_iff _⟩

theorem health_consistent_healed : ∃ (r : Run 1) (k : Nat), BurstsBelow r (2 ^ 29) ∧
    flagged ((r.state k).procs 27) = true ∧
    0 ≤ ((r.state k).procs 27).anomalyScore ∧ ((r.state k).procs 27).anomalyScore ≤ 100 := by
  obtain ⟨s, prio, T, hlock, hT, hpath⟩ := chosen_path (τ := 27) (by omega) (by omega)
  obtain ⟨r, k, hk, hshort⟩ := hpath.exists_reached
  have hb : BurstsBelow r (2 ^ 29) := burstsBelow_of_short hshort (by omega) (by omega)
  obtain ⟨hlower, hupper, -⟩ := health_consistent r hb 27 k
  refine ⟨r, k, hb, ?_, hlower, hupper⟩
  rw [hk]
  exact ((hT 27).row (by decide)).flag

end AdaptiveXv6.HealthBand
