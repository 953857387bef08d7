import AdaptiveXv6.Exclusion
import AdaptiveXv6.SleepCycle

namespace AdaptiveXv6.NonInterference

open Process Health Ops Machine Kernel Steps Exclusion Sweeps SleepCycle

variable {n : Nat} {x y : Proc} {s t s' t' : Kernel n} {e : Event n}

/-- Agreement on what scheduling depends on: not on the slice of a process that is not running, nor on what
prediction and healing write. -/
structure SameView (x y : Proc) : Prop where
  state : x.state = y.state
  chan : x.chan = y.chan
  killed : x.killed = y.killed
  pid : x.pid = y.pid
  context : x.context = y.context
  waitticks : x.waitticks = y.waitticks
  currentBurst : x.currentBurst = y.currentBurst
  estBurst : x.estBurst = y.estBurst
  procType : x.procType = y.procType
  slice : x.state = .running → x.timeSlice = y.timeSlice ∧ x.ticksInSlice = y.ticksInSlice

theorem SameView.refl (x : Proc) : SameView x x := by constructor <;> simp

theorem SameView.of_same {u v : Proc} (h : SameView x y) (hx : SameSched u x) (hy : SameSched v y)
    (hr : x.state ≠ .running) : SameView u v := by
  cases h; cases hx; cases hy
  constructor <;> simp_all

theorem SameView.calcDynamicPriority (h : SameView x y) :
    calcDynamicPriority x = calcDynamicPriority y :=
  calcDynamicPriority_congr h.procType h.waitticks h.estBurst

theorem SameView.calcTimeSlice (h : SameView x y) : calcTimeSlice x = calcTimeSlice y := by
  simp only [Process.calcTimeSlice, h.procType]

theorem SameView.countTick (h : SameView x y) (hr : x.state = .running) :
    SameView (countTick x) (countTick y) := by
  obtain ⟨hts, htis⟩ := h.slice hr
  cases h
  constructor <;> simp_all [Ops.countTick]

theorem SameView.growEstimate (h : SameView x y) : SameView (growEstimate x) (growEstimate y) := by
  cases h
  unfold Ops.growEstimate
  constructor <;> split <;> split <;> simp_all

theorem SameView.sliceOver (h : SameView x y) (hr : x.state = .running) : sliceOver x = sliceOver y := by
  obtain ⟨hts, htis⟩ := h.slice hr
  simp only [Ops.sliceOver, hts, htis]

theorem SameView.shouldYield (h : SameView x y) (hr : x.state = .running) :
    shouldYield x = shouldYield y :=
  (h.countTick hr).growEstimate.sliceOver (by simpa [Ops.countTick] using hr)

theorem SameView.chargeTick (h : SameView x y) (hr : x.state = .running) :
    SameView (chargeTick x) (chargeTick y) := by
  have hg := (h.countTick hr).growEstimate
  have hs := h.shouldYield hr
  unfold Ops.shouldYield at hs
  unfold Ops.chargeTick
  rw [hs]
  split
  · cases hg
    constructor <;> simp_all
  · exact hg

theorem SameView.sched (h : SameView x y) (hr : x.state ≠ .running) (ticks ticks' : Nat) :
    SameView (sched ticks x) (sched ticks' y) := by
  by_cases hc : x.state = .sleeping ∨ x.state = .zombie
  · have hc' : y.state = .sleeping ∨ y.state = .zombie := by rw [← h.state]; exact hc
    have hv : SameView { completeBurst (countSwitch x) with currentBurst := 0 }
        { completeBurst (countSwitch y) with currentBurst := 0 } := by
      cases h
      constructor <;> simp_all [completeBurst, countSwitch]
    exact hv.of_same (sched_completes_same ticks x hc) (sched_completes_same ticks' y hc') hr
  · have hc' : ¬(y.state = .sleeping ∨ y.state = .zombie) := by rw [← h.state]; exact hc
    have hv : SameView
        (if x.state = .runnable ∧ x.currentBurst > x.estBurst then extendBurst (countSwitch x)
          else countSwitch x)
        (if y.state = .runnable ∧ y.currentBurst > y.estBurst then extendBurst (countSwitch y)
          else countSwitch y) := by
      rw [← h.state, ← h.currentBurst, ← h.estBurst]
      cases h
      split <;> constructor <;> simp_all [extendBurst, countSwitch]
    refine hv.of_same (sched_preempted_same ticks x hc) (sched_preempted_same ticks' y hc') ?_
    split <;> exact hr

theorem SameView.op {op : Op} (hpre : op.Pre x) (h : SameView x y) (ticks ticks' : Nat) :
    SameView (op.apply ticks x) (op.apply ticks' y) := by
  cases op with
  | rescore =>
    simp only [Op.apply, rescore, ← h.state]
    cases h
    split <;> constructor <;> simp_all
  | dispatch =>
    have hts := h.calcTimeSlice
    simp only [Op.apply, dispatch, ← h.state]
    cases h
    split <;> constructor <;> simp_all
  | resume =>
    simp only [Op.apply, resume, ← h.context]
    cases h
    split <;> constructor <;> simp_all
  | chargeTick => exact h.chargeTick hpre
  | yield =>
    have hv : SameView (yielding x) (yielding y) := by
      cases h
      constructor <;> simp_all [yielding]
    exact hv.sched (by simp [yielding]) ticks ticks'
  | sleep chan =>
    have hv : SameView (fallingAsleep chan x) (fallingAsleep chan y) := by
      cases h
      constructor <;> simp_all [fallingAsleep]
    exact hv.sched (by simp [fallingAsleep]) ticks ticks'
  | kexit status =>
    have hv : SameView (exiting status x) (exiting status y) := by
      cases h
      constructor <;> simp_all [exiting]
    exact hv.sched (by simp [exiting]) ticks ticks'
  | wakeup chan =>
    simp only [Op.apply, wakeup, ← h.state, ← h.chan]
    cases h
    split <;> constructor <;> simp_all
  | kkill pid =>
    by_cases hp : x.pid = pid
    · simp only [Op.apply, kkill, ← h.pid, if_pos hp, ← h.state]
      by_cases hs : x.state = .sleeping
      · cases h
        constructor <;> simp_all
      · simp only [if_neg hs]
        cases h
        constructor <;> simp_all
    · simp only [Op.apply, kkill, ← h.pid, if_neg hp]
      exact h
  | setkilled =>
    cases h
    constructor <;> simp_all [Op.apply, setkilled]
  | allocproc pid =>
    cases h
    constructor <;> simp_all [Op.apply, allocproc]
  | makeRunnable =>
    cases h
    constructor <;> simp_all [Op.apply, makeRunnable]
  | freeproc =>
    cases h
    constructor <;> simp_all [Op.apply, freeproc]
  | accountWait =>
    by_cases hr : x.state = .runnable
    · have hx := accountWait_same ticks x
      have hy := accountWait_same ticks' y
      rw [if_pos hr] at hx
      rw [if_pos (h.state ▸ hr)] at hy
      have hv : SameView (countWait x) (countWait y) := by
        cases h
        constructor <;> simp_all [countWait]
      exact hv.of_same hx hy (by simp [countWait, hr])
    · simp only [Op.apply, accountWait, ← h.state, if_neg hr]
      exact h
  | unlock => exact h

structure Agree (s t : Kernel n) : Prop where
  procs : ∀ p, SameView (s.procs p) (t.procs p)
  lock : s.lock = t.lock
  cpus : s.cpus = t.cpus
  ticks : s.ticks = t.ticks
  nextpid : s.nextpid = t.nextpid

theorem Agree.better (h : Agree s t) (i : Slot) (bestP : Option Slot) (bestPrio : Int) :
    better s.procs i bestP bestPrio = better t.procs i bestP bestPrio := by
  simp only [Machine.better, (h.procs i).state, (h.procs i).calcDynamicPriority]

theorem Agree.moves {m : Move n} (h : Agree s t) (hx : Exclusive s) (hm : Moves s e m) :
    Moves t e m := by
  have hproc : ∀ c, s.proc c = t.proc c := fun c => by simp only [Kernel.proc, h.cpus]
  have hpc : ∀ c, s.pc c = t.pc c := fun c => by simp only [Kernel.pc, h.cpus]
  have hstate : ∀ p, (s.procs p).state = (t.procs p).state := fun p => (h.procs p).state
  have hjump : ∀ c pc, s.jump c pc = t.jump c pc := fun c pc => by
    simp only [Kernel.jump, hproc, h.ticks, h.nextpid]
  have hlocked : ∀ c p op pc, s.locked c p op pc = t.locked c p op pc := fun c p op pc => by
    simp only [Kernel.locked, hproc, h.ticks, h.nextpid]
  have hunlock : ∀ c p op cpu, s.unlock c p op cpu = t.unlock c p op cpu := fun c p op cpu => by
    simp only [Kernel.unlock, h.ticks, h.nextpid]
  have hleave : ∀ c p op, s.leave c p op = t.leave c p op := fun c p op => by
    simp only [Kernel.leave, h.ticks, h.nextpid]
  have hclock : ∀ c ret, s.clockMove c ret = t.clockMove c ret := fun c ret => by
    simp only [Kernel.clockMove, hproc, h.ticks, h.nextpid]
  have halloc : ∀ c p, s.allocMove c p = t.allocMove c p := fun c p => by
    simp only [Kernel.allocMove, hproc, h.ticks, h.nextpid]
  have hrun : ∀ c p, s.pc c = .timer → s.proc c = some p →
      shouldYield (s.procs p) = shouldYield (t.procs p) := fun c p hc hp =>
    (h.procs p).shouldYield ((hx.running c p hp).mpr (by simp [hc]))
  cases hm with
  | visit c i bestP bestPrio hc =>
    rw [hlocked, h.better]
    exact .visit c i bestP bestPrio (by rw [← hpc, hc])
  | charge c p hc hp =>
    rw [hlocked, hrun c p hc hp]
    exact .charge c p (by rw [← hpc, hc]) (by rw [← hproc, hp])
  | startPass c hc => rw [hjump]; exact .startPass c (by rw [← hpc, hc])
  | pickNone c prio hc => rw [hjump]; exact .pickNone c prio (by rw [← hpc, hc])
  | pickGone c p prio hc hp =>
    rw [hlocked]
    exact .pickGone c p prio (by rw [← hpc, hc]) (by rw [← hstate]; exact hp)
  | pick c p prio hc hp =>
    rw [h.ticks, h.nextpid]
    exact .pick c p prio (by rw [← hpc, hc]) (by rw [← hstate]; exact hp)
  | interrupt c hc => rw [hjump]; exact .interrupt c (by rw [← hpc, hc])
  | resume c p hc hp => rw [hunlock]; exact .resume c p (by rw [← hpc, hc]) (by rw [← hproc, hp])
  | timerTop c hc h0 => rw [hclock]; exact .timerTop c (by rw [← hpc, hc]) h0
  | timerProc c hc h0 => rw [hclock]; exact .timerProc c (by rw [← hpc, hc]) h0
  | timerOther c hc h0 => rw [hjump]; exact .timerOther c (by rw [← hpc, hc]) h0
  | wakeupTop c chan hc => rw [hjump]; exact .wakeupTop c chan (by rw [← hpc, hc])
  | wakeupProc c chan hc => rw [hjump]; exact .wakeupProc c chan (by rw [← hpc, hc])
  | wakeupSelf c chan i clock ret hc hp =>
    rw [hjump]
    exact .wakeupSelf c chan i clock ret (by rw [← hpc, hc]) (by rw [← hproc, hp])
  | wakeupVisit c chan i clock ret hc hp =>
    rw [hlocked]
    exact .wakeupVisit c chan i clock ret (by rw [← hpc, hc]) (by rw [← hproc]; exact hp)
  | accountVisit c i ret hc => rw [hlocked]; exact .accountVisit c i ret (by rw [← hpc, hc])
  | uncharged c p hc hp hk =>
    rw [hjump]
    exact .uncharged c p (by rw [← hpc, hc]) (by rw [← hproc, hp]) (by rw [← (h.procs p).killed, hk])
  | yield c p hc hp => rw [hleave]; exact .yield c p (by rw [← hpc, hc]) (by rw [← hproc, hp])
  | sleep c p chan hc hp => rw [hleave]; exact .sleep c p chan (by rw [← hpc, hc]) (by rw [← hproc, hp])
  | kexit c p status hc hp hi =>
    rw [hleave]
    exact .kexit c p status (by rw [← hpc, hc]) (by rw [← hproc, hp]) hi
  | swtch c p hc hp => rw [hunlock]; exact .swtch c p (by rw [← hpc, hc]) (by rw [← hproc, hp])
  | kkill c pid p hc => rw [hlocked]; exact .kkill c pid p (by rw [← hpc, hc])
  | setkilled c p hc hp => rw [hlocked]; exact .setkilled c p (by rw [← hpc, hc]) (by rw [← hproc, hp])
  | allocproc c p hc hp =>
    rw [halloc]
    exact .allocproc c p (by rw [← hpc, hc]) (by rw [← hstate, hp])
  | forkFail c p hc => rw [hunlock, hproc]; exact .forkFail c p (by rw [← hpc, hc])
  | forkDone c p hc => rw [hunlock, hproc]; exact .forkDone c p (by rw [← hpc, hc])
  | forkRun c p hc hp =>
    rw [hlocked]
    exact .forkRun c p (by rw [← hpc, hc]) (by rw [← hstate, hp])
  | kwait c p hc hp =>
    rw [hlocked]
    exact .kwait c p (by rw [← hpc, hc]) (by rw [← hstate, hp])

theorem Agree.perform {m : Move n} (h : Agree s t) (hx : Exclusive s) (hm : Moves s e m) :
    Agree (s.perform m) (t.perform m) := by
  have hmt := h.moves hx hm
  refine ⟨?_, ?_, ?_, rfl, rfl⟩
  · intro p
    have hop : opAt t e p = opAt s e p := by
      simp only [opAt, move_of_moves hm, move_of_moves hmt]
    rw [perform_procs p (move_of_moves hm), perform_procs p (move_of_moves hmt), hop]
    cases ho : opAt s e p with
    | none => exact h.procs p
    | some op => exact (h.procs p).op (hx.pre ho) s.ticks t.ticks
  · simp only [Kernel.perform, h.lock]
  · simp only [Kernel.perform, h.cpus]

theorem Agree.step (h : Agree s t) (hx : Exclusive s) (hs : s.step e = some s') :
    ∃ t', t.step e = some t' ∧ Agree s' t' := by
  obtain ⟨m, hm, hr, rfl⟩ := step_eq_some.mp hs
  refine ⟨t.perform m, step_eq_some.mpr ⟨m, h.moves hx hm, ?_, rfl⟩, h.perform hx hm⟩
  rw [ready_iff] at hr ⊢
  rw [← h.lock]
  exact hr

/-- Two runs fed the same events, from kernels that agree on what scheduling reads: every CPU is at the same
place with the same process, slice and ticks used. -/
theorem scheduling_independent {s₀ t₀ : Kernel n} (hx : Exclusive s₀) (h : Agree s₀ t₀)
    (r : Runs.Run Kernel.step s₀) :
    (∃ q : Runs.Run Kernel.step t₀, q.event = r.event) ∧
    ∀ q : Runs.Run Kernel.step t₀, q.event = r.event → ∀ k,
      (∀ c, (q.state k).proc c = (r.state k).proc c ∧ (q.state k).pc c = (r.state k).pc c) ∧
      (∀ p, ((q.state k).procs p).state = ((r.state k).procs p).state ∧
        calcDynamicPriority ((q.state k).procs p) = calcDynamicPriority ((r.state k).procs p) ∧
        (((r.state k).procs p).state = .running →
          ((q.state k).procs p).timeSlice = ((r.state k).procs p).timeSlice ∧
          ((q.state k).procs p).ticksInSlice = ((r.state k).procs p).ticksInSlice)) := by
  have hstep : ∀ (s t : Kernel n) e s', Exclusive s ∧ Agree s t → s.step e = some s' →
      ∃ t', t.step e = some t' ∧ Exclusive s' ∧ Agree s' t' := by
    rintro s t e s' ⟨hxs, hst⟩ hs
    obtain ⟨t', ht, hag⟩ := hst.step hxs hs
    exact ⟨t', ht, hxs.step hs, hag⟩
  refine ⟨r.simulate (R := fun s t => Exclusive s ∧ Agree s t) ⟨hx, h⟩ hstep, ?_⟩
  intro q he k
  obtain ⟨-, hk⟩ := r.lockstep q he (R := fun s t => Exclusive s ∧ Agree s t) ⟨hx, h⟩
    (fun s t e s' t' hst hs ht => by
      obtain ⟨u, hu, hinv⟩ := hstep s t e s' hst hs
      rw [ht] at hu
      cases hu
      exact hinv) k
  refine ⟨fun c => ⟨?_, ?_⟩, fun p => ⟨(hk.procs p).state.symm, (hk.procs p).calcDynamicPriority.symm, ?_⟩⟩
  · simp only [Kernel.proc, hk.cpus]
  · simp only [Kernel.pc, hk.cpus]
  · intro hr
    obtain ⟨hts, htis⟩ := (hk.procs p).slice hr
    exact ⟨hts.symm, htis.symm⟩

/-- The kernel after boot, with every slot boosted for starvation. -/
def boosted (n : Nat) : Kernel n :=
  { boot n with procs := fun p => applySelfHealing 0 (flagStarvation ((boot n).procs p)) }

theorem agree_boosted (n : Nat) : Agree (boot n) (boosted n) := by
  refine ⟨?_, rfl, rfl, rfl, rfl⟩
  intro p
  have hflag : SameSched (flagStarvation ((boot n).procs p)) ((boot n).procs p) := by constructor <;> rfl
  refine (SameView.refl ((boot n).procs p)).of_same (SameSched.refl _)
    ((applySelfHealing_same 0 _).trans hflag) ?_
  simp only [boot]
  split <;> simp [userinit, procinit]

theorem scheduling_independent_boosted : ∃ (r : Run 1) (q : Runs.Run Kernel.step (boosted 1)) (k : Nat),
    q.event = r.event ∧ (r.state k).proc 0 = some initproc ∧ (q.state k).proc 0 = some initproc := by
  have hturn := turn_only (s := boot 1) (c := 0) (t := 0) (x := userinit) (fun _ => rfl) rfl rfl
  rw [← boot_put] at hturn
  obtain ⟨r, k, hk, -⟩ := hturn.exists_reached
  have hproc : (r.state k).proc 0 = some initproc := by rw [hk, put_proc]
  obtain ⟨⟨q, hq⟩, hsame⟩ := scheduling_independent (boot_exclusive 1) (agree_boosted 1) r
  exact ⟨r, q, k, hq, hproc, ((hsame q hq k).1 0).1.trans hproc⟩

end AdaptiveXv6.NonInterference
