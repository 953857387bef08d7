import AdaptiveXv6.Process

namespace AdaptiveXv6.Health

open Words Process

def remedyStarvation (p : Proc) : Proc :=
  if p.anomalyFlags &&& ANOMALY_STARVATION ≠ 0 then
    let prio := i32 (p.priority + 25)
    { p with priority := if prio > MAX_PRIORITY then MAX_PRIORITY else prio, timeSlice := 2 }
  else p

def remedyBurst (p : Proc) : Proc :=
  if p.anomalyFlags &&& (ANOMALY_BURST_SURGE ||| ANOMALY_INSTABILITY) ≠ 0 then
    { p with burstTrend := 0, predictedBurst := p.estBurst, timeSlice := calcTimeSlice p }
  else p

def remedyThrashing (p : Proc) : Proc :=
  if p.anomalyFlags &&& ANOMALY_THRASHING ≠ 0 then { p with timeSlice := 2 } else p

/-- The local variable healed of apply_self_healing() at its last test. -/
def healed (p : Proc) : Bool :=
  p.anomalyFlags &&& ANOMALY_STARVATION ≠ 0 ||
  p.anomalyFlags &&& (ANOMALY_BURST_SURGE ||| ANOMALY_INSTABILITY) ≠ 0 ||
  p.anomalyFlags &&& ANOMALY_THRASHING ≠ 0

def relievedScore (score : Int) : Int := if score > 20 then i32 (score - 15) else score

/-- Only the two lower bands are assigned again; above them the caller's status is kept. -/
def relieve (ticks : Nat) (p : Proc) : Proc :=
  { p with
    healingActions := u32 (p.healingActions + 1)
    lastHealTick := ticks
    anomalyScore := relievedScore p.anomalyScore
    healthStatus :=
      if relievedScore p.anomalyScore < 30 then .normal
      else if relievedScore p.anomalyScore < 70 then .warning
      else p.healthStatus }

def applySelfHealing (ticks : Nat) (p : Proc) : Proc :=
  let q := remedyThrashing (remedyBurst (remedyStarvation p))
  if healed p then relieve ticks q else q

def predictionErrorOf (p : Proc) : Nat :=
  if p.predictedBurst > 0 then
    if p.lastBurst ≥ p.predictedBurst then p.lastBurst - p.predictedBurst
    else p.predictedBurst - p.lastBurst
  else 0

/-- The division is C's, towards zero. -/
def trendOf (p : Proc) : Int :=
  (i32 (i32 (i32 p.lastBurst - i32 p.estBurst) + p.burstTrend)).tdiv 2

def nextPrediction (p : Proc) : Int :=
  let nextPred := i32 (i32 p.estBurst + trendOf p)
  if nextPred < 1 then 1 else nextPred

def predict (p : Proc) : Proc :=
  { p with
    predictionError := predictionErrorOf p
    burstTrend := trendOf p
    predictedBurst := u32OfInt (nextPrediction p) }

/-- The surge test comes after the prediction was replaced: it compares the burst with the next prediction. -/
def burstSurge (p : Proc) : Bool :=
  p.predictionError ≥ BURST_SURGE_THRESH && p.lastBurst > u32 (p.predictedBurst * 2)

def starvation (p : Proc) : Bool := p.waitticks ≥ STARVATION_THRESH_TICKS

def instability (p : Proc) : Bool := p.predictionError ≥ 6

def thrashing (p : Proc) : Bool := p.switches > u64 (p.schedCount * 2) && p.schedCount > 5

def detectFlags (p : Proc) : Nat :=
  ANOMALY_NONE ||| (if burstSurge p then ANOMALY_BURST_SURGE else 0) |||
    (if starvation p then ANOMALY_STARVATION else 0) |||
    (if instability p then ANOMALY_INSTABILITY else 0) |||
    (if thrashing p then ANOMALY_THRASHING else 0)

def signalScore (p : Proc) : Int :=
  (if burstSurge p then 35 else 0) + (if starvation p then 40 else 0) +
    (if instability p then 25 else 0) + (if thrashing p then 20 else 0)

def detectScore (p : Proc) : Int :=
  let score := i32 (signalScore p + i32 (u32 (p.predictionError * 3)))
  if score > MAX_ANOMALY_SCORE then MAX_ANOMALY_SCORE else score

def classifyHealth (score : Int) : HealthStatus :=
  if score ≥ 70 then .critical else if score ≥ 30 then .warning else .normal

/-- The record at the point where update_prediction_and_health() decides
whether to heal. -/
def assess (p : Proc) : Proc :=
  { predict p with
    anomalyFlags := detectFlags (predict p)
    anomalyScore := detectScore (predict p)
    healthStatus := classifyHealth (detectScore (predict p)) }

def updatePredictionAndHealth (ticks : Nat) (p : Proc) : Proc :=
  if (assess p).healthStatus ≠ .normal ∨ (assess p).anomalyFlags &&& ANOMALY_STARVATION ≠ 0 then
    applySelfHealing ticks (assess p)
  else assess p

structure SameSched (p q : Proc) : Prop where
  state : p.state = q.state
  chan : p.chan = q.chan
  killed : p.killed = q.killed
  xstate : p.xstate = q.xstate
  pid : p.pid = q.pid
  context : p.context = q.context
  cputicks : p.cputicks = q.cputicks
  waitticks : p.waitticks = q.waitticks
  schedCount : p.schedCount = q.schedCount
  switches : p.switches = q.switches
  creationTick : p.creationTick = q.creationTick
  lastSchedTick : p.lastSchedTick = q.lastSchedTick
  currentBurst : p.currentBurst = q.currentBurst
  lastBurst : p.lastBurst = q.lastBurst
  estBurst : p.estBurst = q.estBurst
  procType : p.procType = q.procType
  ticksInSlice : p.ticksInSlice = q.ticksInSlice

structure SameHealth (p q : Proc) : Prop where
  predictedBurst : p.predictedBurst = q.predictedBurst
  predictionError : p.predictionError = q.predictionError
  burstTrend : p.burstTrend = q.burstTrend
  anomalyScore : p.anomalyScore = q.anomalyScore
  anomalyFlags : p.anomalyFlags = q.anomalyFlags
  healthStatus : p.healthStatus = q.healthStatus
  healingActions : p.healingActions = q.healingActions
  lastHealTick : p.lastHealTick = q.lastHealTick

theorem SameHealth.refl (p : Proc) : SameHealth p p := by constructor <;> rfl

theorem SameSched.refl (p : Proc) : SameSched p p := by constructor <;> rfl

theorem SameSched.trans {p q r : Proc} (h : SameSched p q) (k : SameSched q r) : SameSched p r := by
  cases h; cases k
  constructor <;> simp_all

theorem SameSched.setCurrentBurst {p q : Proc} (h : SameSched p q) (b : Nat) :
    SameSched { p with currentBurst := b } { q with currentBurst := b } := by
  cases h
  constructor <;> first | assumption | rfl

theorem remedyStarvation_eq (p : Proc) :
    ∃ prio slice, remedyStarvation p = { p with priority := prio, timeSlice := slice } := by
  rw [remedyStarvation]
  split
  · exact ⟨_, _, rfl⟩
  · exact ⟨p.priority, p.timeSlice, rfl⟩

theorem remedyThrashing_eq (p : Proc) : ∃ slice, remedyThrashing p = { p with timeSlice := slice } := by
  rw [remedyThrashing]
  split
  · exact ⟨_, rfl⟩
  · exact ⟨p.timeSlice, rfl⟩

theorem remedies_eq (p : Proc) : ∃ prio slice,
    remedyThrashing (remedyBurst (remedyStarvation p)) =
      if p.anomalyFlags &&& (ANOMALY_BURST_SURGE ||| ANOMALY_INSTABILITY) ≠ 0 then
        { p with priority := prio, timeSlice := slice, burstTrend := 0, predictedBurst := p.estBurst }
      else { p with priority := prio, timeSlice := slice } := by
  obtain ⟨prio, slice, hs⟩ := remedyStarvation_eq p
  obtain ⟨slice', ht⟩ := remedyThrashing_eq (remedyBurst (remedyStarvation p))
  refine ⟨prio, slice', ?_⟩
  rw [ht, hs, remedyBurst]
  by_cases h : p.anomalyFlags &&& (ANOMALY_BURST_SURGE ||| ANOMALY_INSTABILITY) ≠ 0
  · rw [if_pos h, if_pos h]
  · rw [if_neg h, if_neg h]

theorem remedies_same (p : Proc) : SameSched (remedyThrashing (remedyBurst (remedyStarvation p))) p := by
  obtain ⟨prio, slice, h⟩ := remedies_eq p
  rw [h]
  split <;> constructor <;> rfl

theorem applySelfHealing_same (ticks : Nat) (p : Proc) : SameSched (applySelfHealing ticks p) p := by
  have hq := remedies_same p
  rw [applySelfHealing]
  split
  · cases hq
    constructor <;> assumption
  · exact hq

theorem updatePredictionAndHealth_same (ticks : Nat) (p : Proc) :
    SameSched (updatePredictionAndHealth ticks p) p := by
  have hq : SameSched (assess p) p := by constructor <;> simp only [assess, predict]
  rw [updatePredictionAndHealth]
  split
  · exact (applySelfHealing_same ticks _).trans hq
  · exact hq

end AdaptiveXv6.Health
