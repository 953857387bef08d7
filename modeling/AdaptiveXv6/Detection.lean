import AdaptiveXv6.Health

namespace AdaptiveXv6.Detection

open Words Process Health

abbrev erratic (flags : Nat) : Prop := flags &&& (ANOMALY_BURST_SURGE ||| ANOMALY_INSTABILITY) ≠ 0

theorem raise_and (flags mask : Nat) (h : ANOMALY_STARVATION &&& mask = 0) :
    (flags ||| ANOMALY_STARVATION) &&& mask = flags &&& mask := by
  rw [Nat.and_or_distrib_right, h, Nat.or_zero]

theorem raise_starvation (flags : Nat) : (flags ||| ANOMALY_STARVATION) &&& ANOMALY_STARVATION ≠ 0 := by
  rw [Nat.and_or_distrib_right, Ne, Nat.or_eq_zero_iff]
  simp

theorem erratic_of_no_surge {flags : Nat} (h : flags &&& ANOMALY_BURST_SURGE = 0) :
    erratic flags ↔ flags &&& ANOMALY_INSTABILITY ≠ 0 := by
  rw [erratic, Nat.and_or_distrib_left, h, Nat.zero_or]

section Healing

variable (ticks : Nat) (p : Proc)

theorem applySelfHealing_anomalyFlags : (applySelfHealing ticks p).anomalyFlags = p.anomalyFlags := by
  obtain ⟨prio, slice, h⟩ := remedies_eq p
  simp only [applySelfHealing, relieve, h]
  split <;> split <;> rfl

theorem applySelfHealing_burstTrend :
    (applySelfHealing ticks p).burstTrend = if erratic p.anomalyFlags then 0 else p.burstTrend := by
  obtain ⟨prio, slice, h⟩ := remedies_eq p
  simp only [applySelfHealing, relieve, h]
  split <;> split <;> rfl

theorem applySelfHealing_predictedBurst :
    (applySelfHealing ticks p).predictedBurst =
      if erratic p.anomalyFlags then p.estBurst else p.predictedBurst := by
  obtain ⟨prio, slice, h⟩ := remedies_eq p
  simp only [applySelfHealing, relieve, h]
  split <;> split <;> rfl

theorem applySelfHealing_starvation (hs : p.anomalyFlags &&& ANOMALY_STARVATION ≠ 0) :
    (applySelfHealing ticks p).healingActions = u32 (p.healingActions + 1) := by
  obtain ⟨prio, slice, h⟩ := remedies_eq p
  have hh : healed p = true := by simp [healed, hs]
  simp only [applySelfHealing, relieve, hh, if_true, h]
  split <;> rfl

end Healing

section Detection

variable (p : Proc)

theorem flag_and (b : Bool) (flag mask : Nat) :
    (if b then flag else 0) &&& mask = 0 ↔ (b = true → flag &&& mask = 0) := by
  cases b with
  | false => simp
  | true => simp

theorem detectFlags_and (mask : Nat) : detectFlags p &&& mask = 0 ↔
    (burstSurge p = true → ANOMALY_BURST_SURGE &&& mask = 0) ∧
    (starvation p = true → ANOMALY_STARVATION &&& mask = 0) ∧
    (instability p = true → ANOMALY_INSTABILITY &&& mask = 0) ∧
    (thrashing p = true → ANOMALY_THRASHING &&& mask = 0) := by
  rw [detectFlags, Nat.zero_or]
  simp only [Nat.and_or_distrib_right, Nat.or_eq_zero_iff, flag_and, and_assoc]

theorem detectFlags_surge : detectFlags p &&& ANOMALY_BURST_SURGE = 0 ↔ burstSurge p = false := by
  rw [detectFlags_and]
  simp [ANOMALY_BURST_SURGE, ANOMALY_STARVATION, ANOMALY_INSTABILITY, ANOMALY_THRASHING]

theorem detectFlags_starvation : detectFlags p &&& ANOMALY_STARVATION = 0 ↔ starvation p = false := by
  rw [detectFlags_and]
  simp [ANOMALY_BURST_SURGE, ANOMALY_STARVATION, ANOMALY_INSTABILITY, ANOMALY_THRASHING]

theorem detectFlags_thrashing : detectFlags p &&& ANOMALY_THRASHING = 0 ↔ thrashing p = false := by
  rw [detectFlags_and]
  simp [ANOMALY_BURST_SURGE, ANOMALY_STARVATION, ANOMALY_INSTABILITY, ANOMALY_THRASHING]

theorem detectFlags_instability :
    detectFlags p &&& ANOMALY_INSTABILITY = 0 ↔ instability p = false := by
  rw [detectFlags_and]
  simp [ANOMALY_BURST_SURGE, ANOMALY_STARVATION, ANOMALY_INSTABILITY, ANOMALY_THRASHING]

theorem detectFlags_erratic : erratic (detectFlags p) ↔ burstSurge p = true ∨ instability p = true := by
  rw [erratic, Ne, detectFlags_and]
  cases burstSurge p <;>
    simp [ANOMALY_BURST_SURGE, ANOMALY_STARVATION, ANOMALY_INSTABILITY, ANOMALY_THRASHING]

theorem signalScore_bounds : 0 ≤ signalScore p ∧ signalScore p ≤ 120 := by
  rw [signalScore]
  cases burstSurge p <;> cases starvation p <;> cases instability p <;> cases thrashing p <;> decide

theorem signalScore_surge (h : burstSurge p = true) : 35 ≤ signalScore p := by
  rw [signalScore]
  rw [h]
  cases starvation p <;> cases instability p <;> cases thrashing p <;> decide

theorem signalScore_instability (h : instability p = true) : 25 ≤ signalScore p := by
  rw [signalScore]
  rw [h]
  cases burstSurge p <;> cases starvation p <;> cases thrashing p <;> decide

variable {p}

theorem detectScore_eq (h : p.predictionError < 2 ^ 29) :
    detectScore p = min 100 (signalScore p + 3 * p.predictionError) := by
  obtain ⟨hl, hu⟩ := signalScore_bounds p
  have herr : i32 (u32 (p.predictionError * 3)) = 3 * (p.predictionError : Int) := by
    rw [u32_of_lt (by omega), i32_of_range (by omega) (by omega)]
    omega
  have hsum : i32 (signalScore p + 3 * (p.predictionError : Int)) =
      signalScore p + 3 * (p.predictionError : Int) :=
    i32_of_range (by omega) (by omega)
  simp only [detectScore, herr, hsum, MAX_ANOMALY_SCORE]
  split <;> omega

theorem classifyHealth_erratic (h : p.predictionError < 2 ^ 29) (he : erratic (detectFlags p)) :
    classifyHealth (detectScore p) ≠ .normal := by
  have hscore : 30 ≤ detectScore p := by
    rw [detectScore_eq h]
    rcases (detectFlags_erratic p).mp he with hs | hi
    · have := signalScore_surge p hs
      omega
    · have := signalScore_instability p hi
      have herr : 6 ≤ p.predictionError := by simpa [instability] using hi
      omega
  rw [classifyHealth]
  split <;> simp

theorem updatePredictionAndHealth_burstTrend (ticks : Nat) (h : predictionErrorOf p < 2 ^ 29) :
    (updatePredictionAndHealth ticks p).burstTrend =
      if erratic (detectFlags (predict p)) then 0 else trendOf p := by
  rw [updatePredictionAndHealth]
  split
  · exact applySelfHealing_burstTrend ticks (assess p)
  · rename_i hn
    rw [if_neg]
    · rfl
    · intro he
      exact hn (.inl (classifyHealth_erratic h he))

theorem updatePredictionAndHealth_predictedBurst (ticks : Nat) (h : predictionErrorOf p < 2 ^ 29) :
    (updatePredictionAndHealth ticks p).predictedBurst =
      if erratic (detectFlags (predict p)) then p.estBurst else u32OfInt (nextPrediction p) := by
  rw [updatePredictionAndHealth]
  split
  · exact applySelfHealing_predictedBurst ticks (assess p)
  · rename_i hn
    rw [if_neg]
    · rfl
    · intro he
      exact hn (.inl (classifyHealth_erratic h he))

theorem updatePredictionAndHealth_anomalyFlags (ticks : Nat) :
    (updatePredictionAndHealth ticks p).anomalyFlags = detectFlags (predict p) := by
  rw [updatePredictionAndHealth]
  split
  · exact applySelfHealing_anomalyFlags ticks (assess p)
  · rfl

end Detection

end AdaptiveXv6.Detection
