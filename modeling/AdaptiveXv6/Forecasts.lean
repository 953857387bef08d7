import AdaptiveXv6.Estimator

namespace AdaptiveXv6.Forecasts

open Words Process Health Detection Ops SlotHistory Estimator

variable {b : Nat} {x y : Proc}

structure Forecast (x : Proc) : Prop where
  trend_lower : -5 ≤ x.burstTrend
  trend_upper : x.burstTrend ≤ 0
  positive : 1 ≤ x.predictedBurst
  upper : x.predictedBurst ≤ max 1 x.estBurst
  anchored : (x.predictedBurst : Int) = max 1 (x.estBurst + x.burstTrend) ∨ x.currentBurst = x.estBurst
  surge : x.anomalyFlags &&& ANOMALY_BURST_SURGE = 0
  unstable : x.anomalyFlags &&& ANOMALY_INSTABILITY ≠ 0 → 1 ≤ x.estBurst

theorem trendOf_eq (hl : y.lastBurst ≤ y.estBurst) (he : y.estBurst < 2 ^ 29)
    (h5 : -5 ≤ y.burstTrend) (h0 : y.burstTrend ≤ 0) :
    trendOf y = -(((y.estBurst : Int) - y.lastBurst - y.burstTrend) / 2) := by
  have hlast : i32 (y.lastBurst : Int) = y.lastBurst := i32_of_range (by omega) (by omega)
  have hest : i32 (y.estBurst : Int) = y.estBurst := i32_of_range (by omega) (by omega)
  have hdiff : i32 ((y.lastBurst : Int) - y.estBurst) = (y.lastBurst : Int) - y.estBurst :=
    i32_of_range (by omega) (by omega)
  have hsum : i32 ((y.lastBurst : Int) - y.estBurst + y.burstTrend) =
      -((y.estBurst : Int) - y.lastBurst - y.burstTrend) := by
    rw [i32_of_range (by omega) (by omega)]
    omega
  rw [trendOf, hlast, hest, hdiff, hsum, Int.neg_tdiv, Int.tdiv_eq_ediv_of_nonneg (by omega)]

theorem nextPrediction_eq (hl : y.lastBurst ≤ y.estBurst) (he : y.estBurst < 2 ^ 29)
    (h5 : -5 ≤ y.burstTrend) (h0 : y.burstTrend ≤ 0) :
    nextPrediction y = max 1 (y.estBurst + trendOf y) := by
  have ht := trendOf_eq hl he h5 h0
  have hest : i32 (y.estBurst : Int) = y.estBurst := i32_of_range (by omega) (by omega)
  have hsum : i32 ((y.estBurst : Int) + trendOf y) = y.estBurst + trendOf y :=
    i32_of_range (by omega) (by omega)
  simp only [nextPrediction, hest, hsum]
  split <;> omega

structure Completed (x y : Proc) : Prop where
  last : y.lastBurst = x.currentBurst
  est : y.estBurst = (x.currentBurst + x.estBurst) / 2
  predicted : y.predictedBurst = x.predictedBurst
  trend : y.burstTrend = x.burstTrend

theorem Completed.error_eq (hy : Completed x y) (hf : Forecast x) :
    predictionErrorOf y = ((x.currentBurst : Int) - x.predictedBurst).natAbs := by
  have hp := hf.positive
  rw [predictionErrorOf, hy.last, hy.predicted, if_pos (by omega)]
  split <;> omega

section Completion

variable (hx : Estimated (2 ^ 29) x b) (hf : Forecast x) (hy : Completed x y)

include hx hf hy

theorem Completed.trendOf_eq :
    trendOf y = -((((x.currentBurst + x.estBurst) / 2 : Nat) - (x.currentBurst : Int) - x.burstTrend) / 2) := by
  have hc := hx.covers
  have hb := hx.below
  have h := Forecasts.trendOf_eq (y := y) (by rw [hy.last, hy.est]; omega) (by rw [hy.est]; omega)
    (by rw [hy.trend]; exact hf.trend_lower) (by rw [hy.trend]; exact hf.trend_upper)
  rw [h, hy.last, hy.est, hy.trend]

theorem Completed.nextPrediction_eq :
    nextPrediction y = max 1 (((x.currentBurst + x.estBurst) / 2 : Nat) + trendOf y) := by
  have hc := hx.covers
  have hb := hx.below
  have h := Forecasts.nextPrediction_eq (y := y) (by rw [hy.last, hy.est]; omega)
    (by rw [hy.est]; omega) (by rw [hy.trend]; exact hf.trend_lower)
    (by rw [hy.trend]; exact hf.trend_upper)
  rw [h, hy.est]

theorem Completed.trend_nonpos : trendOf y ≤ 0 := by
  have ht := hy.trendOf_eq hx hf
  have hc := hx.covers
  have h0 := hf.trend_upper
  omega

theorem Completed.error_lt : predictionErrorOf y < 2 ^ 29 := by
  have he := hy.error_eq hf
  have hc := hx.covers
  have hb := hx.below
  have hp := hf.positive
  have hu := hf.upper
  omega

theorem Completed.trend_lower (herr : predictionErrorOf y < 6) : -5 ≤ trendOf y := by
  have ht := hy.trendOf_eq hx hf
  have he := hy.error_eq hf
  have hc := hx.covers
  have h5 := hf.trend_lower
  have h0 := hf.trend_upper
  rcases hf.anchored with ha | ha <;> omega

theorem Completed.no_surge (herr : 4 ≤ predictionErrorOf y) :
    (x.currentBurst : Int) ≤ 2 * nextPrediction y := by
  have ht := hy.trendOf_eq hx hf
  have hn := hy.nextPrediction_eq hx hf
  have he := hy.error_eq hf
  have hc := hx.covers
  have h5 := hf.trend_lower
  have h0 := hf.trend_upper
  have hp := hf.positive
  have hu := hf.upper
  rcases hf.anchored with ha | ha <;> omega

theorem Completed.est_pos (herr : 6 ≤ predictionErrorOf y) : 1 ≤ y.estBurst := by
  have he := hy.error_eq hf
  have hc := hx.covers
  have hp := hf.positive
  have hu := hf.upper
  have hest := hy.est
  omega

theorem Completed.predict_predictedBurst :
    ((predict y).predictedBurst : Int) = max 1 (y.estBurst + trendOf y) := by
  have hn := hy.nextPrediction_eq hx hf
  have ht := hy.trend_nonpos hx hf
  have hest := hy.est
  have hc := hx.covers
  have hb := hx.below
  have hpred : (predict y).predictedBurst = (nextPrediction y).toNat :=
    u32OfInt_of_range (by omega) (by omega)
  omega

theorem Completed.burstSurge_eq_false : burstSurge (predict y) = false := by
  have hn := hy.nextPrediction_eq hx hf
  have hpred := hy.predict_predictedBurst hx hf
  have ht := hy.trend_nonpos hx hf
  have hest := hy.est
  have hc := hx.covers
  have hb := hx.below
  have hdouble : u32 ((predict y).predictedBurst * 2) = (predict y).predictedBurst * 2 :=
    u32_of_lt (by omega)
  have hlast : (predict y).lastBurst = x.currentBurst := hy.last
  have herr : (predict y).predictionError = predictionErrorOf y := rfl
  have hno := hy.no_surge hx hf
  simp only [burstSurge, hdouble, hlast, herr, BURST_SURGE_THRESH, Bool.and_eq_false_iff,
    decide_eq_false_iff_not]
  by_cases h4 : 4 ≤ predictionErrorOf y
  · have := hno h4
    right; omega
  · left; omega

theorem Completed.erratic_iff : erratic (detectFlags (predict y)) ↔ 6 ≤ predictionErrorOf y := by
  rw [detectFlags_erratic, hy.burstSurge_eq_false hx hf]
  simp [instability, predict]

theorem Completed.forecast (ticks : Nat) :
    Forecast { updatePredictionAndHealth ticks y with currentBurst := 0 } := by
  have hsame := updatePredictionAndHealth_same ticks y
  have htrend := updatePredictionAndHealth_burstTrend ticks (hy.error_lt hx hf)
  have hpred := updatePredictionAndHealth_predictedBurst ticks (hy.error_lt hx hf)
  have hflags := updatePredictionAndHealth_anomalyFlags (p := y) ticks
  have hnext := hy.predict_predictedBurst hx hf
  have hnonpos := hy.trend_nonpos hx hf
  have herr := hy.erratic_iff hx hf
  have hsurge : (updatePredictionAndHealth ticks y).anomalyFlags &&& ANOMALY_BURST_SURGE = 0 := by
    rw [hflags, detectFlags_surge]
    exact hy.burstSurge_eq_false hx hf
  have hunstable : (updatePredictionAndHealth ticks y).anomalyFlags &&& ANOMALY_INSTABILITY ≠ 0 →
      1 ≤ (updatePredictionAndHealth ticks y).estBurst := by
    rw [hflags, hsame.estBurst, Ne, detectFlags_instability]
    intro hi
    exact hy.est_pos hx hf (by simpa [instability, predict] using hi)
  have hest := hsame.estBurst
  generalize updatePredictionAndHealth ticks y = u at *
  have hanchor : -5 ≤ u.burstTrend ∧ u.burstTrend ≤ 0 ∧
      (u.predictedBurst : Int) = max 1 (u.estBurst + u.burstTrend) := by
    by_cases h6 : 6 ≤ predictionErrorOf y
    · -- healing has reset the trend and anchored the prediction at the estimate
      have hpos := hy.est_pos hx hf h6
      rw [if_pos (herr.mpr h6)] at htrend hpred
      omega
    · have hlower := hy.trend_lower hx hf (by omega)
      rw [if_neg (mt herr.mp h6)] at htrend hpred
      rw [hest, htrend, ← hnext, hpred]
      exact ⟨hlower, hnonpos, rfl⟩
  obtain ⟨h5, h0, ha⟩ := hanchor
  exact ⟨h5, h0, show 1 ≤ u.predictedBurst by omega, show u.predictedBurst ≤ max 1 u.estBurst by omega,
    .inl ha, hsurge, hunstable⟩

end Completion

theorem Forecast.congr (h : Forecast x) (ht : y.burstTrend = x.burstTrend)
    (hp : y.predictedBurst = x.predictedBurst) (he : y.estBurst = x.estBurst)
    (hc : y.currentBurst = x.currentBurst) (hf : y.anomalyFlags = x.anomalyFlags) : Forecast y := by
  obtain ⟨h1, h2, h3, h4, h5, h6, h7⟩ := h
  constructor
  · rw [ht]; exact h1
  · rw [ht]; exact h2
  · rw [hp]; exact h3
  · rw [hp, he]; exact h4
  · rw [hp, he, ht, hc]; exact h5
  · rw [hf]; exact h6
  · rw [hf, he]; exact h7

theorem forecast_fresh (ht : x.burstTrend = 0) (hp : x.predictedBurst = 1) (he : x.estBurst = 0)
    (hc : x.currentBurst = 0) (hf : x.anomalyFlags = 0) : Forecast x := by
  constructor <;> simp [ht, hp, he, hc, hf]

theorem Forecast.chargeTick (h : Forecast x) (hx : Estimated (2 ^ 29) x b) (hb : b + 1 < 2 ^ 29) :
    Forecast (chargeTick x) := by
  have hcount : (countTick x).currentBurst = x.currentBurst + 1 := by
    have := hx.burst
    exact u32_of_lt (by omega)
  have hgrow : Forecast (growEstimate (countTick x)) := by
    obtain ⟨h1, h2, h3, h4, h5, h6, h7⟩ := h
    have hest : (countTick x).estBurst = x.estBurst := rfl
    rw [growEstimate]
    split
    · rename_i hlt
      refine ⟨h1, h2, h3, ?_, .inr rfl, h6, ?_⟩
      · exact Nat.le_trans h4 (by dsimp only; omega)
      · intro hi
        have := h7 hi
        dsimp only
        omega
    · exact ⟨h1, h2, h3, h4, .inl (h5.resolve_right (by omega)), h6, h7⟩
  rw [Ops.chargeTick]
  split
  · exact hgrow.congr rfl rfl rfl rfl rfl
  · exact hgrow

theorem Forecast.heal (h : Forecast x) (ticks : Nat) : Forecast (applySelfHealing ticks x) := by
  have htrend := applySelfHealing_burstTrend ticks x
  have hpred := applySelfHealing_predictedBurst ticks x
  have hflags := applySelfHealing_anomalyFlags ticks x
  have hest := (applySelfHealing_same ticks x).estBurst
  have hcur := (applySelfHealing_same ticks x).currentBurst
  by_cases he : erratic x.anomalyFlags
  · rw [if_pos he] at htrend hpred
    have hpos := h.unstable ((erratic_of_no_surge h.surge).mp he)
    obtain ⟨h1, h2, h3, h4, h5, h6, h7⟩ := h
    rw [← hest] at hpred hpos
    refine ⟨by omega, by omega, by omega, by omega, .inl (by omega), ?_, ?_⟩
    · rw [hflags]; exact h6
    · intro _; exact hpos
  · rw [if_neg he] at htrend hpred
    exact h.congr htrend hpred hest hcur hflags

theorem Forecast.flagStarvation (h : Forecast x) : Forecast (flagStarvation x) := by
  have hsurge := raise_and x.anomalyFlags ANOMALY_BURST_SURGE rfl
  have hunstable := raise_and x.anomalyFlags ANOMALY_INSTABILITY rfl
  obtain ⟨h1, h2, h3, h4, h5, h6, h7⟩ := h
  exact ⟨h1, h2, h3, h4, h5, hsurge.trans h6, fun hi => h7 (by rw [← hunstable]; exact hi)⟩

theorem Forecast.sched_completes (h : Forecast x) (hx : Estimated (2 ^ 29) x b) (ticks : Nat)
    (hs : x.state = .sleeping ∨ x.state = .zombie) : Forecast (sched ticks x) := by
  have hy : Completed x (completeBurst (countSwitch x)) :=
    ⟨rfl, smooth_eq hx.covers (Nat.lt_trans hx.below (by omega)), rfl, rfl⟩
  rw [sched, if_pos hs]
  exact hy.forecast hx h ticks

theorem Forecast.idle_op {ticks : Nat} {op : Op} (hpre : op.Pre x) (hop : op.idle) (hplain : op.plain)
    (h : x.state ≠ .unused → Forecast x) (hu : (op.apply ticks x).state ≠ .unused) : Forecast (op.apply ticks x) := by
  have hs := Op.idle_same hop ticks x
  have hh := Op.plain_same hplain ticks x
  rw [Ne, Op.idle_unused hpre hop] at hu
  exact (h hu).congr hh.burstTrend hh.predictedBurst hs.estBurst hs.currentBurst hh.anomalyFlags

theorem Forecast.op {ticks : Nat} {op : Op} {g : Tally} (hpre : op.Pre x)
    (hx : Estimated (2 ^ 29) x g.burst) (hb : (count op x g).burst < 2 ^ 29)
    (h : x.state ≠ .unused → Forecast x) (hu : (op.apply ticks x).state ≠ .unused) :
    Forecast (op.apply ticks x) := by
  cases op with
  | rescore | resume | wakeup | kkill | setkilled | makeRunnable | unlock => exact Forecast.idle_op hpre rfl rfl h hu
  | dispatch =>
    have hf := h (by intro hx; exact hu (by simp [Op.apply, dispatch_state, hx]))
    simp only [Op.apply, dispatch]
    split <;> exact hf.congr rfl rfl rfl rfl rfl
  | chargeTick => exact (h (by simpa [Op.apply] using hu)).chargeTick hx hb
  | yield =>
    have hs : x.state = .running := hpre
    have hf : Forecast (yielding x) := (h (by simp [hs])).congr rfl rfl rfl rfl rfl
    have hr : Estimated (2 ^ 29) (yielding x) g.burst := hx.congr rfl rfl rfl
    simp only [Op.apply, yield, hr.sched_runnable ticks rfl]
    exact hf.congr rfl rfl rfl rfl rfl
  | sleep chan =>
    have hs : x.state = .running := hpre
    have hf : Forecast (fallingAsleep chan x) := (h (by simp [hs])).congr rfl rfl rfl rfl rfl
    exact hf.sched_completes (hx.congr rfl rfl rfl) ticks (.inl rfl)
  | kexit status =>
    have hs : x.state = .running := hpre
    have hf : Forecast (exiting status x) := (h (by simp [hs])).congr rfl rfl rfl rfl rfl
    exact hf.sched_completes (hx.congr rfl rfl rfl) ticks (.inr rfl)
  | allocproc pid => exact forecast_fresh rfl rfl rfl rfl rfl
  | freeproc => exact absurd rfl hu
  | accountWait =>
    have hf := h (by simpa [Op.apply] using hu)
    have hw : Forecast (countWait x) := hf.congr rfl rfl rfl rfl rfl
    simp only [Op.apply, accountWait]
    split
    · split
      · exact hw.flagStarvation.heal ticks
      · exact hw
    · exact hf

end AdaptiveXv6.Forecasts
