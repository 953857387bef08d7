import AdaptiveXv6.Health

namespace AdaptiveXv6.Ops

open Words Process Health

def countTick (p : Proc) : Proc :=
  { p with
    cputicks := u64 (p.cputicks + 1)
    currentBurst := u32 (p.currentBurst + 1)
    ticksInSlice := u32 (p.ticksInSlice + 1) }

def growEstimate (p : Proc) : Proc :=
  if p.currentBurst > p.estBurst then
    { p with estBurst := p.currentBurst, procType := classifyOngoing p.currentBurst }
  else p

def sliceOver (p : Proc) : Bool := p.ticksInSlice ≥ p.timeSlice

def chargeTick (p : Proc) : Proc :=
  if sliceOver (growEstimate (countTick p)) then
    { growEstimate (countTick p) with ticksInSlice := 0 }
  else growEstimate (countTick p)

def shouldYield (p : Proc) : Bool := sliceOver (growEstimate (countTick p))

def countSwitch (p : Proc) : Proc := { p with switches := u64 (p.switches + 1) }

def smooth (lastBurst estBurst : Nat) : Nat :=
  if estBurst = 0 then lastBurst else u32 (lastBurst + estBurst) / 2

theorem smooth_eq {last est : Nat} (hl : last ≤ est) (he : est < 2 ^ 31) :
    smooth last est = (last + est) / 2 := by
  rw [smooth]
  split
  · omega
  · rw [u32_of_lt (by omega)]

/-- The burst ends with the process giving up the CPU by itself. -/
def completeBurst (p : Proc) : Proc :=
  { p with
    lastBurst := p.currentBurst
    estBurst := smooth p.currentBurst p.estBurst
    procType := classify (smooth p.currentBurst p.estBurst) }

/-- The burst goes on after a preemption and already exceeds its estimate. -/
def extendBurst (p : Proc) : Proc :=
  { p with
    estBurst := p.currentBurst
    procType := classifyOngoing p.currentBurst
    lastBurst := p.currentBurst }

def sched (ticks : Nat) (p : Proc) : Proc :=
  if p.state = .sleeping ∨ p.state = .zombie then
    { updatePredictionAndHealth ticks (completeBurst (countSwitch p)) with currentBurst := 0 }
  else if p.state = .runnable then
    if p.currentBurst > p.estBurst then
      updatePredictionAndHealth ticks (extendBurst (countSwitch p))
    else countSwitch p
  else countSwitch p

/-- The record with which sched() calls update_prediction_and_health(), if it does. -/
def healthCall (p : Proc) : Option Proc :=
  if p.state = .sleeping ∨ p.state = .zombie then some (completeBurst (countSwitch p))
  else if p.state = .runnable ∧ p.currentBurst > p.estBurst then some (extendBurst (countSwitch p))
  else none

/-- The test in clock_tick_accounting() that leads to self-healing, on a record with this wait counted. -/
def starved (p : Proc) : Bool :=
  p.waitticks ≥ STARVATION_THRESH_TICKS && p.anomalyFlags &&& ANOMALY_STARVATION = 0

def raisedScore (score : Int) : Int :=
  if i32 (score + 40) > MAX_ANOMALY_SCORE then MAX_ANOMALY_SCORE else i32 (score + 40)

def flagStarvation (p : Proc) : Proc :=
  { p with
    anomalyFlags := p.anomalyFlags ||| ANOMALY_STARVATION
    anomalyScore := raisedScore p.anomalyScore
    healthStatus := if raisedScore p.anomalyScore ≥ 70 then .critical else .warning }

def countWait (p : Proc) : Proc := { p with waitticks := u64 (p.waitticks + 1) }

def accountWait (ticks : Nat) (p : Proc) : Proc :=
  if p.state = .runnable then
    if starved (countWait p) then applySelfHealing ticks (flagStarvation (countWait p))
    else countWait p
  else p

def rescore (p : Proc) : Proc :=
  if p.state = .runnable then { p with priority := calcDynamicPriority p } else p

def dispatch (ticks : Nat) (p : Proc) : Proc :=
  if p.state = .runnable then
    { p with
      state := .running
      schedCount := u64 (p.schedCount + 1)
      lastSchedTick := ticks
      timeSlice := calcTimeSlice p
      ticksInSlice := 0
      waitticks := 0 }
  else p

def resume (p : Proc) : Proc :=
  match p.context with
  | .sleep => { p with chan := 0 }
  | .forkret | .yield | .kexit => p

/-- The records with which yield(), sleep() and kexit() enter sched(), with the context to which its swtch()
will return. -/
def yielding (p : Proc) : Proc := { p with state := .runnable, context := .yield }

def fallingAsleep (chan : Nat) (p : Proc) : Proc :=
  { p with chan := chan, state := .sleeping, context := .sleep }

def exiting (status : Int) (p : Proc) : Proc :=
  { p with xstate := status, state := .zombie, context := .kexit }

def yield (ticks : Nat) (p : Proc) : Proc := sched ticks (yielding p)

def sleep (chan ticks : Nat) (p : Proc) : Proc := sched ticks (fallingAsleep chan p)

def kexit (status : Int) (ticks : Nat) (p : Proc) : Proc := sched ticks (exiting status p)

def wakeup (chan : Nat) (p : Proc) : Proc :=
  if p.state = .sleeping ∧ p.chan = chan then { p with state := .runnable } else p

def kkill (pid : Int) (p : Proc) : Proc :=
  if p.pid = pid then
    { p with killed := true, state := if p.state = .sleeping then .runnable else p.state }
  else p

def setkilled (p : Proc) : Proc := { p with killed := true }

def makeRunnable (p : Proc) : Proc := { p with state := .runnable }

inductive Op
  | rescore
  | dispatch
  | resume
  | chargeTick
  | yield
  | sleep (chan : Nat)
  | kexit (status : Int)
  | wakeup (chan : Nat)
  | kkill (pid : Int)
  | setkilled
  | allocproc (pid : Int)
  | makeRunnable
  | freeproc
  | accountWait
  | unlock
  deriving DecidableEq, Repr

def Op.apply (ticks : Nat) : Op → Proc → Proc
  | .rescore => Ops.rescore
  | .dispatch => Ops.dispatch ticks
  | .resume => Ops.resume
  | .chargeTick => Ops.chargeTick
  | .yield => Ops.yield ticks
  | .sleep chan => Ops.sleep chan ticks
  | .kexit status => Ops.kexit status ticks
  | .wakeup chan => Ops.wakeup chan
  | .kkill pid => Ops.kkill pid
  | .setkilled => Ops.setkilled
  | .allocproc pid => Process.allocproc pid ticks
  | .makeRunnable => Ops.makeRunnable
  | .freeproc => Process.freeproc
  | .accountWait => Ops.accountWait ticks
  | .unlock => id

def Op.Pre : Op → Proc → Prop
  | .resume, p | .chargeTick, p | .yield, p | .sleep _, p | .kexit _, p | .setkilled, p =>
    p.state = .running
  | .allocproc _, p => p.state = .unused
  | .makeRunnable, p => p.state = .used
  | .freeproc, p => p.state = .zombie ∨ p.state = .used
  | .rescore, _ | .dispatch, _ | .wakeup _, _ | .kkill _, _ | .accountWait, _ | .unlock, _ => True

/-- The record with which a critical section enters sched(), if it does. -/
def Op.atSched : Op → Proc → Option Proc
  | .yield, p => some (yielding p)
  | .sleep chan, p => some (fallingAsleep chan p)
  | .kexit status, p => some (exiting status p)
  | _, _ => none

section State

variable (ticks : Nat) (p : Proc)

@[simp] theorem growEstimate_state : (growEstimate p).state = p.state := by
  rw [growEstimate]
  split <;> rfl

@[simp] theorem chargeTick_state : (chargeTick p).state = p.state := by
  rw [chargeTick]
  split <;> simp [countTick]

theorem sched_completes_same (h : p.state = .sleeping ∨ p.state = .zombie) :
    SameSched (sched ticks p) { completeBurst (countSwitch p) with currentBurst := 0 } := by
  rw [sched, if_pos h]
  exact (updatePredictionAndHealth_same ticks _).setCurrentBurst 0

theorem sched_preempted_same (h : ¬(p.state = .sleeping ∨ p.state = .zombie)) :
    SameSched (sched ticks p)
      (if p.state = .runnable ∧ p.currentBurst > p.estBurst then extendBurst (countSwitch p)
        else countSwitch p) := by
  rw [sched, if_neg h]
  by_cases hr : p.state = .runnable
  · by_cases hc : p.currentBurst > p.estBurst
    · rw [if_pos hr, if_pos hc, if_pos ⟨hr, hc⟩]
      exact updatePredictionAndHealth_same ticks _
    · rw [if_pos hr, if_neg hc, if_neg (fun hh => hc hh.2)]
      exact SameSched.refl _
  · rw [if_neg hr, if_neg (fun hh => hr hh.1)]
    exact SameSched.refl _

theorem sched_healthCall : sched ticks p = match healthCall p with
    | some q =>
      if p.state = .runnable then updatePredictionAndHealth ticks q
      else { updatePredictionAndHealth ticks q with currentBurst := 0 }
    | none => countSwitch p := by
  rw [sched, healthCall]
  by_cases h : p.state = .sleeping ∨ p.state = .zombie
  · have hr : p.state ≠ .runnable := by rcases h with h | h <;> simp [h]
    simp only [if_pos h, if_neg hr]
  · rw [if_neg h, if_neg h]
    by_cases hr : p.state = .runnable
    · by_cases hc : p.currentBurst > p.estBurst <;> simp [hr, hc]
    · simp [hr]

theorem sched_keeps : (sched ticks p).state = p.state ∧ (sched ticks p).switches = u64 (p.switches + 1) ∧
    (sched ticks p).schedCount = p.schedCount ∧ (sched ticks p).waitticks = p.waitticks := by
  by_cases h : p.state = .sleeping ∨ p.state = .zombie
  · have hs := sched_completes_same ticks p h
    exact ⟨hs.state, hs.switches, hs.schedCount, hs.waitticks⟩
  · have hs := sched_preempted_same ticks p h
    rw [hs.state, hs.switches, hs.schedCount, hs.waitticks]
    split <;> exact ⟨rfl, rfl, rfl, rfl⟩

@[simp] theorem sched_state : (sched ticks p).state = p.state := (sched_keeps ticks p).1

@[simp] theorem sched_switches : (sched ticks p).switches = u64 (p.switches + 1) := (sched_keeps ticks p).2.1

@[simp] theorem sched_schedCount : (sched ticks p).schedCount = p.schedCount := (sched_keeps ticks p).2.2.1

@[simp] theorem sched_waitticks : (sched ticks p).waitticks = p.waitticks := (sched_keeps ticks p).2.2.2

theorem accountWait_same :
    SameSched (accountWait ticks p) (if p.state = .runnable then countWait p else p) := by
  rw [accountWait]
  split
  · split
    · have hf : SameSched (flagStarvation (countWait p)) (countWait p) := by constructor <;> rfl
      exact (applySelfHealing_same ticks _).trans hf
    · exact SameSched.refl _
  · exact SameSched.refl _

@[simp] theorem accountWait_state : (accountWait ticks p).state = p.state := by
  rw [(accountWait_same ticks p).state]
  split <;> rfl

@[simp] theorem rescore_state : (rescore p).state = p.state := by
  rw [rescore]
  split <;> rfl

@[simp] theorem resume_state : (resume p).state = p.state := by
  rw [resume]
  split <;> rfl

theorem dispatch_state :
    (dispatch ticks p).state = if p.state = .runnable then .running else p.state := by
  rw [dispatch]
  split <;> rfl

@[simp] theorem yield_state : (yield ticks p).state = .runnable := by simp [yield, yielding]

@[simp] theorem sleep_state (chan : Nat) : (sleep chan ticks p).state = .sleeping := by
  simp [sleep, fallingAsleep]

@[simp] theorem kexit_state (status : Int) : (kexit status ticks p).state = .zombie := by
  simp [kexit, exiting]

theorem wakeup_state (chan : Nat) :
    (wakeup chan p).state = if p.state = .sleeping ∧ p.chan = chan then .runnable else p.state := by
  rw [wakeup]
  split <;> rfl

theorem kkill_state (pid : Int) :
    (kkill pid p).state = if p.pid = pid ∧ p.state = .sleeping then .runnable else p.state := by
  rw [kkill]
  split <;> simp_all

end State

def Op.plain : Op → Bool
  | .rescore | .dispatch | .resume | .chargeTick | .wakeup _ | .kkill _ | .setkilled | .makeRunnable
  | .unlock => true
  | .yield | .sleep _ | .kexit _ | .allocproc _ | .freeproc | .accountWait => false

theorem Op.plain_same {op : Op} (h : op.plain) (ticks : Nat) (p : Proc) :
    SameHealth (op.apply ticks p) p := by
  cases op with
  | rescore | dispatch | resume | wakeup | kkill =>
    simp only [Op.apply, Ops.rescore, Ops.dispatch, Ops.resume, Ops.wakeup, Ops.kkill]
    split <;> constructor <;> rfl
  | chargeTick =>
    simp only [Op.apply, Ops.chargeTick, Ops.growEstimate]
    split <;> split <;> constructor <;> rfl
  | setkilled | makeRunnable | unlock => constructor <;> rfl
  | yield | sleep | kexit | allocproc | freeproc | accountWait => cases h

/-- The sections that leave the accounts of a process alone. -/
def Op.idle : Op → Bool
  | .rescore | .resume | .wakeup _ | .kkill _ | .setkilled | .makeRunnable | .unlock => true
  | .dispatch | .chargeTick | .yield | .sleep _ | .kexit _ | .allocproc _ | .freeproc | .accountWait => false

structure SameAccounts (p q : Proc) : Prop where
  pid : p.pid = q.pid
  cputicks : p.cputicks = q.cputicks
  waitticks : p.waitticks = q.waitticks
  schedCount : p.schedCount = q.schedCount
  switches : p.switches = q.switches
  currentBurst : p.currentBurst = q.currentBurst
  lastBurst : p.lastBurst = q.lastBurst
  estBurst : p.estBurst = q.estBurst
  procType : p.procType = q.procType

theorem Op.idle_same {op : Op} (h : op.idle) (ticks : Nat) (p : Proc) : SameAccounts (op.apply ticks p) p := by
  cases op with
  | rescore | resume | wakeup | kkill =>
    simp only [Op.apply, Ops.rescore, Ops.resume, Ops.wakeup, Ops.kkill]
    split <;> constructor <;> rfl
  | setkilled | makeRunnable | unlock => constructor <;> rfl
  | dispatch | chargeTick | yield | sleep | kexit | allocproc | freeproc | accountWait => cases h

theorem Op.idle_state {op : Op} {p : Proc} (hpre : op.Pre p) (h : op.idle) (ticks : Nat) :
    (op.apply ticks p).state = p.state ∨
      (p.state = .sleeping ∨ p.state = .used) ∧ (op.apply ticks p).state = .runnable := by
  cases op with
  | rescore => exact .inl (rescore_state ..)
  | resume => exact .inl (resume_state ..)
  | wakeup chan =>
    rw [Op.apply, wakeup_state]
    split
    · exact .inr ⟨.inl (And.left ‹_›), rfl⟩
    · exact .inl rfl
  | kkill pid =>
    rw [Op.apply, kkill_state]
    split
    · exact .inr ⟨.inl (And.right ‹_›), rfl⟩
    · exact .inl rfl
  | makeRunnable => exact .inr ⟨.inr hpre, rfl⟩
  | setkilled | unlock => exact .inl rfl
  | dispatch | chargeTick | yield | sleep | kexit | allocproc | freeproc | accountWait => cases h

theorem Op.idle_unused {op : Op} {p : Proc} (hpre : op.Pre p) (h : op.idle) (ticks : Nat) :
    (op.apply ticks p).state = .unused ↔ p.state = .unused := by
  rcases Op.idle_state hpre h ticks with hst | ⟨hp | hp, hst⟩
  · rw [hst]
  · simp [hp, hst]
  · simp [hp, hst]

end AdaptiveXv6.Ops
