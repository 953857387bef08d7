import AdaptiveXv6.Words

namespace AdaptiveXv6.Process

open Words

inductive ProcState
  | unused | used | sleeping | runnable | running | zombie
  deriving DecidableEq, Repr

inductive ProcType
  | interactive | cpuBound | mixed
  deriving DecidableEq, Repr

inductive HealthStatus
  | normal | warning | critical
  deriving DecidableEq, Repr

/-- What the return address saved by swtch() leads to: forkret(), or the caller of sched() that gave up the
CPU. -/
inductive Context
  | forkret | yield | sleep | kexit
  deriving DecidableEq, Repr

abbrev NPROC : Nat := 64

abbrev Slot := Fin NPROC

abbrev INTERACTIVE_BURST_THRESH : Nat := 2
abbrev CPU_BOUND_BURST_THRESH : Nat := 8
abbrev PRIO_BASE_INTERACTIVE : Int := 50
abbrev PRIO_BASE_MIXED : Int := 30
abbrev PRIO_BASE_CPU_BOUND : Int := 10
abbrev AGING_WEIGHT : Nat := 2
abbrev BURST_PENALTY_WEIGHT : Nat := 1
abbrev MAX_PRIORITY : Int := 100
abbrev MIN_PRIORITY : Int := 1
abbrev STARVATION_THRESH_TICKS : Nat := 20
abbrev BURST_SURGE_THRESH : Nat := 4
abbrev MAX_ANOMALY_SCORE : Int := 100
abbrev ANOMALY_NONE : Nat := 0x00
abbrev ANOMALY_BURST_SURGE : Nat := 0x01
abbrev ANOMALY_STARVATION : Nat := 0x02
abbrev ANOMALY_THRASHING : Nat := 0x04
abbrev ANOMALY_INSTABILITY : Nat := 0x08

/-- The fields of struct proc that scheduling uses. uint and uint64 counters are naturals and int fields
integers, truncated wherever the kernel stores to them. -/
structure Proc where
  state : ProcState
  chan : Nat
  killed : Bool
  xstate : Int
  pid : Int
  context : Context
  cputicks : Nat
  waitticks : Nat
  schedCount : Nat
  switches : Nat
  creationTick : Nat
  lastSchedTick : Nat
  currentBurst : Nat
  lastBurst : Nat
  estBurst : Nat
  procType : ProcType
  priority : Int
  timeSlice : Nat
  ticksInSlice : Nat
  predictedBurst : Nat
  predictionError : Nat
  burstTrend : Int
  anomalyScore : Int
  anomalyFlags : Nat
  healthStatus : HealthStatus
  healingActions : Nat
  lastHealTick : Nat
  deriving DecidableEq, Repr

def procinit : Proc where
  state := .unused
  chan := 0
  killed := false
  xstate := 0
  pid := 0
  context := .forkret
  cputicks := 0
  waitticks := 0
  schedCount := 0
  switches := 0
  creationTick := 0
  lastSchedTick := 0
  currentBurst := 0
  lastBurst := 0
  estBurst := 0
  procType := .interactive
  priority := 0
  timeSlice := 0
  ticksInSlice := 0
  predictedBurst := 0
  predictionError := 0
  burstTrend := 0
  anomalyScore := 0
  anomalyFlags := ANOMALY_NONE
  healthStatus := .normal
  healingActions := 0
  lastHealTick := 0

/-- The slot found by allocproc(), initialised and still locked; chan, killed and xstate keep what it held
before. -/
def allocproc (pid : Int) (ticks : Nat) (p : Proc) : Proc :=
  { p with
    pid := pid
    state := .used
    context := .forkret
    cputicks := 0
    waitticks := 0
    schedCount := 0
    switches := 0
    creationTick := ticks
    lastSchedTick := 0
    currentBurst := 0
    lastBurst := 0
    estBurst := 0
    procType := .interactive
    priority := PRIO_BASE_INTERACTIVE
    timeSlice := 1
    ticksInSlice := 0
    predictedBurst := 1
    predictionError := 0
    burstTrend := 0
    anomalyScore := 0
    anomalyFlags := ANOMALY_NONE
    healthStatus := .normal
    healingActions := 0
    lastHealTick := 0 }

def freeproc (p : Proc) : Proc :=
  { p with
    pid := 0
    chan := 0
    killed := false
    xstate := 0
    state := .unused
    cputicks := 0
    waitticks := 0
    schedCount := 0
    switches := 0
    creationTick := 0
    lastSchedTick := 0
    currentBurst := 0
    lastBurst := 0
    estBurst := 0
    procType := .interactive
    priority := PRIO_BASE_INTERACTIVE
    timeSlice := 1
    ticksInSlice := 0
    predictedBurst := 0
    predictionError := 0
    burstTrend := 0
    anomalyScore := 0
    anomalyFlags := ANOMALY_NONE
    healthStatus := .normal
    healingActions := 0
    lastHealTick := 0 }

def basePriority : ProcType → Int
  | .interactive => PRIO_BASE_INTERACTIVE
  | .mixed => PRIO_BASE_MIXED
  | .cpuBound => PRIO_BASE_CPU_BOUND

/-- The score before clamping. The aging term is a 64-bit product, the burst term a 32-bit one; both and the
two sums are cut to int. -/
def rawPriority (p : Proc) : Int :=
  i32 (i32 (basePriority p.procType + i32 (u64 (p.waitticks * AGING_WEIGHT))) -
    i32 (u32 (p.estBurst * BURST_PENALTY_WEIGHT)))

def calcDynamicPriority (p : Proc) : Int :=
  let prio := rawPriority p
  let prio := if prio < MIN_PRIORITY then MIN_PRIORITY else prio
  if prio > MAX_PRIORITY then MAX_PRIORITY else prio

def calcTimeSlice (p : Proc) : Nat :=
  match p.procType with
  | .interactive => 1
  | .mixed => 2
  | .cpuBound => 4

def classify (estBurst : Nat) : ProcType :=
  if estBurst ≤ INTERACTIVE_BURST_THRESH then .interactive
  else if estBurst ≥ CPU_BOUND_BURST_THRESH then .cpuBound
  else .mixed

/-- The classification of a burst that is still growing, with the two questions in the other order. -/
def classifyOngoing (estBurst : Nat) : ProcType :=
  if estBurst ≥ CPU_BOUND_BURST_THRESH then .cpuBound
  else if estBurst ≤ INTERACTIVE_BURST_THRESH then .interactive
  else .mixed

theorem classifyOngoing_eq (n : Nat) : classifyOngoing n = classify n := by
  simp only [classifyOngoing, classify, CPU_BOUND_BURST_THRESH, INTERACTIVE_BURST_THRESH]
  split <;> split <;> first | rfl | omega

theorem basePriority_bounds (t : ProcType) : 10 ≤ basePriority t ∧ basePriority t ≤ 50 := by
  cases t <;> decide

theorem calcDynamicPriority_eq (p : Proc) :
    calcDynamicPriority p = min 100 (max 1 (rawPriority p)) := by
  simp only [calcDynamicPriority, MIN_PRIORITY, MAX_PRIORITY]
  split <;> split <;> omega

theorem calcDynamicPriority_bounds (p : Proc) :
    1 ≤ calcDynamicPriority p ∧ calcDynamicPriority p ≤ 100 := by
  have h := calcDynamicPriority_eq p
  omega

theorem rawPriority_eq {p : Proc} (hw : p.waitticks < 2 ^ 29) (he : p.estBurst < 2 ^ 31) :
    rawPriority p = basePriority p.procType + 2 * p.waitticks - p.estBurst := by
  have hb := basePriority_bounds p.procType
  have h64 : u64 (p.waitticks * AGING_WEIGHT) = 2 * p.waitticks := by
    rw [AGING_WEIGHT, u64_of_lt (by omega), Nat.mul_comm]
  have h32 : u32 (p.estBurst * BURST_PENALTY_WEIGHT) = p.estBurst := by
    rw [BURST_PENALTY_WEIGHT, Nat.mul_one, u32_of_lt (by omega)]
  rw [rawPriority, h64, h32, i32_of_range (z := ((2 * p.waitticks : Nat) : Int)) (by omega) (by omega),
    i32_of_range (z := (p.estBurst : Int)) (by omega) (by omega),
    i32_of_range (z := basePriority p.procType + _) (by omega) (by omega),
    i32_of_range (by omega) (by omega)]
  push_cast
  rfl

theorem calcDynamicPriority_congr {p q : Proc} (ht : p.procType = q.procType)
    (hw : p.waitticks = q.waitticks) (he : p.estBurst = q.estBurst) :
    calcDynamicPriority p = calcDynamicPriority q := by
  have hraw : rawPriority p = rawPriority q := by simp only [rawPriority, ht, hw, he]
  unfold calcDynamicPriority
  rw [hraw]

theorem calcDynamicPriority_mono {p q : Proc} (ht : p.procType = q.procType)
    (he : p.estBurst = q.estBurst) (hw : p.waitticks ≤ q.waitticks) (hq : q.waitticks < 2 ^ 29)
    (hest : q.estBurst < 2 ^ 31) : calcDynamicPriority p ≤ calcDynamicPriority q := by
  have hraw : rawPriority p ≤ rawPriority q := by
    rw [rawPriority_eq (by omega) (by omega), rawPriority_eq hq hest, ht, he]
    omega
  rw [calcDynamicPriority_eq, calcDynamicPriority_eq]
  omega

theorem calcDynamicPriority_eq_max_iff (p : Proc) :
    calcDynamicPriority p = MAX_PRIORITY ↔ MAX_PRIORITY ≤ rawPriority p := by
  rw [calcDynamicPriority_eq, MAX_PRIORITY]
  omega

end AdaptiveXv6.Process
