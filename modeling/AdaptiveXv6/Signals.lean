import AdaptiveXv6.Exclusion

namespace AdaptiveXv6.Signals

open Process Health Ops Machine Kernel Steps Exclusion

variable {n : Nat} {s t : Kernel n} {e : Event n} {c d : Fin n} {p q : Slot}

structure Signal where
  state : ProcState
  chan : Nat
  killed : Bool
  xstate : Int
  pid : Int
  context : Context
  deriving DecidableEq, Repr

def ofProc (x : Proc) : Signal := ⟨x.state, x.chan, x.killed, x.xstate, x.pid, x.context⟩

def onSignal : Op → Signal → Signal
  | .rescore, g | .chargeTick, g | .accountWait, g | .unlock, g => g
  | .dispatch, g => if g.state = .runnable then { g with state := .running } else g
  | .resume, g => if g.context = .sleep then { g with chan := 0 } else g
  | .yield, g => { g with state := .runnable, context := .yield }
  | .sleep chan, g => { g with chan := chan, state := .sleeping, context := .sleep }
  | .kexit status, g => { g with xstate := status, state := .zombie, context := .kexit }
  | .wakeup chan, g => if g.state = .sleeping ∧ g.chan = chan then { g with state := .runnable } else g
  | .kkill pid, g =>
    if g.pid = pid then
      { g with killed := true, state := if g.state = .sleeping then .runnable else g.state }
    else g
  | .setkilled, g => { g with killed := true }
  | .allocproc pid, g => { g with pid := pid, state := .used, context := .forkret }
  | .makeRunnable, g => { g with state := .runnable }
  | .freeproc, g => { g with pid := 0, chan := 0, killed := false, xstate := 0, state := .unused }

theorem ofProc_same {x y : Proc} (h : SameSched x y) : ofProc x = ofProc y := by
  rw [ofProc, ofProc, h.state, h.chan, h.killed, h.xstate, h.pid, h.context]

theorem ofProc_sched (ticks : Nat) (x : Proc) : ofProc (sched ticks x) = ofProc x := by
  by_cases h : x.state = .sleeping ∨ x.state = .zombie
  · rw [ofProc_same (sched_completes_same ticks x h)]
    rfl
  · rw [ofProc_same (sched_preempted_same ticks x h)]
    split <;> rfl

theorem ofProc_apply (op : Op) (ticks : Nat) (x : Proc) : ofProc (op.apply ticks x) = onSignal op (ofProc x) := by
  cases op with
  | rescore =>
    simp only [Op.apply, Ops.rescore]
    split <;> rfl
  | dispatch =>
    simp only [Op.apply, Ops.dispatch, onSignal]
    split <;> simp_all [ofProc]
  | resume =>
    simp only [Op.apply, Ops.resume, onSignal]
    split <;> simp_all [ofProc]
  | chargeTick =>
    simp only [Op.apply, Ops.chargeTick, Ops.growEstimate]
    split <;> split <;> rfl
  | yield => exact ofProc_sched ticks _
  | sleep chan => exact ofProc_sched ticks _
  | kexit status => exact ofProc_sched ticks _
  | wakeup chan =>
    by_cases h : x.state = .sleeping ∧ x.chan = chan <;> simp [Op.apply, Ops.wakeup, onSignal, ofProc, h]
  | kkill pid =>
    simp only [Op.apply, Ops.kkill, onSignal]
    split <;> simp_all [ofProc]
  | accountWait =>
    rw [Op.apply, ofProc_same (accountWait_same ticks x)]
    split <;> rfl
  | setkilled | allocproc | makeRunnable | freeproc | unlock => rfl

def sig (s : Kernel n) (q : Slot) : Signal := ofProc (s.procs q)

def alive : ProcState → Bool
  | .sleeping | .runnable | .running => true
  | .unused | .used | .zombie => false

def background : Event n → Bool
  | .kexit _ _ | .allocproc _ _ | .forkFail _ | .forkRun _ _ | .kwait _ _ => false
  | _ => true

def steady : Op → Bool
  | .kexit _ | .allocproc _ | .makeRunnable | .freeproc => false
  | _ => true

section Sections

theorem sig_step (h : s.step e = some t) (q : Slot) :
    sig t q = match opAt s e q with
      | some op => onSignal op (sig s q)
      | none => sig s q := by
  rw [sig, step_procs h]
  cases opAt s e q with
  | none => rfl
  | some op => exact ofProc_apply op s.ticks _

theorem background_op {op : Op} (hb : background e) (hop : opAt s e q = some op) : steady op := by
  obtain ⟨m, k, hm, hk, -, rfl⟩ := opAt_eq_some hop
  cases hm <;> cases hk <;> first | rfl | cases hb

theorem background_state (hx : Exclusive s) (hb : background e) (h : s.step e = some t) (q : Slot) :
    (sig t q).state = (sig s q).state ∨ (alive (sig s q).state = true ∧ alive (sig t q).state = true) := by
  rw [sig_step h]
  cases hop : opAt s e q with
  | none => exact .inl rfl
  | some op =>
    have hpre := hx.pre hop
    have hop' := background_op hb hop
    cases op with
    | rescore | chargeTick | accountWait | unlock | setkilled => exact .inl rfl
    | dispatch =>
      simp only [onSignal]
      split
      · exact .inr ⟨by rw [‹(sig s q).state = _›]; rfl, rfl⟩
      · exact .inl rfl
    | resume =>
      simp only [onSignal]
      split <;> exact .inl rfl
    | yield | sleep chan => exact .inr ⟨by rw [show (sig s q).state = .running from hpre]; rfl, rfl⟩
    | wakeup chan =>
      simp only [onSignal]
      split
      · rename_i hs
        exact .inr ⟨by rw [hs.1]; rfl, rfl⟩
      · exact .inl rfl
    | kkill pid =>
      simp only [onSignal]
      split
      · by_cases hs : (sig s q).state = .sleeping
        · exact .inr ⟨by rw [hs]; rfl, by simp [hs, alive]⟩
        · exact .inl (by simp [hs])
      · exact .inl rfl
    | kexit | allocproc | makeRunnable | freeproc => cases hop'

theorem background_identity (hb : background e) (h : s.step e = some t) (q : Slot) :
    (sig t q).pid = (sig s q).pid ∧ (sig t q).xstate = (sig s q).xstate := by
  rw [sig_step h]
  cases hop : opAt s e q with
  | none => exact ⟨rfl, rfl⟩
  | some op =>
    have hop' := background_op hb hop
    cases op with
    | dispatch | resume | wakeup | kkill =>
      simp only [onSignal]
      split <;> exact ⟨rfl, rfl⟩
    | kexit | allocproc | makeRunnable | freeproc => cases hop'
    | _ => exact ⟨rfl, rfl⟩

theorem sleep_op {chan : Nat} (hop : opAt s e q = some (.sleep chan)) :
    ∃ c, e = .sleep c chan ∧ s.proc c = some q := by
  obtain ⟨m, k, hm, hk, rfl, hsleep⟩ := opAt_eq_some hop
  cases hm with
  | sleep c p chan' hc hp =>
    cases hk
    cases hsleep
    exact ⟨c, rfl, hp⟩
  | _ => cases hk <;> cases hsleep

theorem kkill_op {pid : Int} (hop : opAt s e q = some (.kkill pid)) : ∃ c, e = .kkill c pid q := by
  obtain ⟨m, k, hm, hk, rfl, hkill⟩ := opAt_eq_some hop
  cases hm with
  | kkill c pid' p hc =>
    cases hk
    cases hkill
    exact ⟨c, rfl⟩
  | _ => cases hk <;> cases hkill

theorem setkilled_op (hop : opAt s e q = some .setkilled) : ∃ c, e = .setkilled c ∧ s.proc c = some q := by
  obtain ⟨m, k, hm, hk, rfl, hset⟩ := opAt_eq_some hop
  cases hm with
  | setkilled c p hc hp =>
    cases hk
    exact ⟨c, rfl, hp⟩
  | _ => cases hk <;> cases hset

theorem killed_step (h : s.step e = some t) (hq : (sig t q).killed = true) : (sig s q).killed = true ∨
    (∃ c, e = .kkill c (sig s q).pid q) ∨ ∃ c, e = .setkilled c ∧ s.proc c = some q := by
  rw [sig_step h] at hq
  cases hop : opAt s e q with
  | none =>
    rw [hop] at hq
    exact .inl hq
  | some op =>
    rw [hop] at hq
    cases op with
    | kkill pid =>
      simp only [onSignal] at hq
      split at hq
      · rename_i hpid
        obtain ⟨c, rfl⟩ := kkill_op hop
        exact .inr (.inl ⟨c, by rw [hpid]⟩)
      · exact .inl hq
    | setkilled => exact .inr (.inr (setkilled_op hop))
    | dispatch | resume | wakeup =>
      simp only [onSignal] at hq
      split at hq <;> exact .inl hq
    | freeproc => cases hq
    | _ => exact .inl hq

theorem sleeping_step (hx : Exclusive s) (h : s.step e = some t) (hs : (sig t q).state = .sleeping) :
    sig t q = sig s q ∨ ∃ c chan, e = .sleep c chan ∧ s.proc c = some q := by
  rw [sig_step h] at hs ⊢
  cases hop : opAt s e q with
  | none => exact .inl rfl
  | some op =>
    have hpre := hx.pre hop
    rw [hop] at hs
    simp only at hs ⊢
    cases op with
    | rescore | chargeTick | accountWait | unlock => exact .inl rfl
    | dispatch =>
      simp only [onSignal] at hs ⊢
      split at hs
      · cases hs
      · rw [if_neg ‹_›]
        exact .inl rfl
    | resume =>
      have hrun : (sig s q).state = .running := hpre
      simp only [onSignal] at hs
      split at hs <;> simp [hrun] at hs
    | setkilled =>
      have hrun : (sig s q).state = .running := hpre
      simp [onSignal, hrun] at hs
    | wakeup chan =>
      simp only [onSignal] at hs ⊢
      split at hs
      · cases hs
      · rw [if_neg ‹_›]
        exact .inl rfl
    | kkill pid =>
      simp only [onSignal] at hs ⊢
      split at hs
      · simp only at hs
        split at hs
        · cases hs
        · contradiction
      · rw [if_neg ‹_›]
        exact .inl rfl
    | sleep chan =>
      obtain ⟨c, he, hc⟩ := sleep_op hop
      exact .inr ⟨c, chan, he, hc⟩
    | yield | kexit | allocproc | makeRunnable | freeproc => cases hs

theorem unused_step (hx : Exclusive s) (hb : background e) (h : s.step e = some t)
    (hs : (sig s q).state = .unused) (hkill : ∀ c pid, e = .kkill c pid q → (sig s q).pid ≠ pid) :
    sig t q = sig s q := by
  rw [sig_step h]
  cases hop : opAt s e q with
  | none => rfl
  | some op =>
    have hpre := hx.pre hop
    have hsteady := background_op hb hop
    have hrun : (s.procs q).state ≠ .running := by
      simp [show (s.procs q).state = .unused from hs]
    simp only
    cases op with
    | rescore | chargeTick | accountWait | unlock => rfl
    | resume | yield | sleep | setkilled => exact absurd hpre hrun
    | dispatch | wakeup => simp [onSignal, hs]
    | kkill pid =>
      obtain ⟨c, rfl⟩ := kkill_op hop
      simp [onSignal, hkill c pid rfl]
    | kexit | allocproc | makeRunnable | freeproc => cases hsteady

end Sections

section Effects

def cpuOf : Event n → Fin n
  | .startPass c | .visit c | .pick c | .interrupt c | .resume c | .timer c | .wakeup c _ | .wakeupVisit c
  | .accountVisit c | .charge c | .uncharged c | .yield c | .sleep c _ | .kexit c _ | .swtch c | .kkill c _ _
  | .setkilled c | .allocproc c _ | .forkFail c | .forkDone c | .forkRun c _ | .kwait c _ => c

theorem moves_cpu {m : Move n} (hm : Moves s e m) : m.cpu = cpuOf e := by cases hm <;> rfl

theorem cpu_frame (h : s.step e = some t) (hd : d ≠ cpuOf e) : t.proc d = s.proc d ∧ t.pc d = s.pc d := by
  obtain ⟨m, hm, -, rfl⟩ := step_eq_some.mp h
  rw [perform_proc, perform_pc, moves_cpu hm, if_neg hd, if_neg hd]
  exact ⟨rfl, rfl⟩

theorem sig_section {a : Cpu} {k : Section n} {ticks : Nat} {pid : Int} (q : Slot) :
    sig (s.perform ⟨c, a, some k, ticks, pid⟩) q =
      if q = k.slot then onSignal k.op (sig s q) else sig s q := by
  rw [sig, perform_slot]
  split
  · exact ofProc_apply k.op s.ticks _
  · rfl

theorem wakeup_effect {chan : Nat} (h : s.step (.wakeup c chan) = some t) (hrun : s.pc c = .running) :
    (∀ q, sig t q = sig s q) ∧ t.proc c = s.proc c ∧ t.pc c = .wakeup chan 0 false .running := by
  obtain ⟨m, hm, -, rfl⟩ := step_eq_some.mp h
  cases hm with
  | wakeupTop _ _ hc => rw [hrun] at hc; cases hc
  | wakeupProc => exact ⟨fun _ => rfl, by rw [perform_proc]; simp [jump], by rw [perform_pc]; simp [jump]⟩

theorem kexit_effect {status : Int} (h : s.step (.kexit c status) = some t) (hp : s.proc c = some p) (q : Slot) :
    sig t q = if q = p then onSignal (.kexit status) (sig s q) else sig s q := by
  obtain ⟨m, hm, -, rfl⟩ := step_eq_some.mp h
  cases hm with
  | kexit _ p' _ _ hp' =>
    obtain rfl : p' = p := Option.some.inj (hp'.symm.trans hp)
    exact sig_section q

theorem sleep_effect {chan : Nat} (h : s.step (.sleep c chan) = some t) (hp : s.proc c = some p) (q : Slot) :
    sig t q = if q = p then onSignal (.sleep chan) (sig s q) else sig s q := by
  obtain ⟨m, hm, -, rfl⟩ := step_eq_some.mp h
  cases hm with
  | sleep _ p' _ _ hp' =>
    obtain rfl : p' = p := Option.some.inj (hp'.symm.trans hp)
    exact sig_section q

theorem allocproc_effect (h : s.step (.allocproc c p) = some t) : (sig s p).state = .unused ∧
    t.pc c = .forking p ∧ t.proc c = s.proc c ∧
    ∀ q, sig t q = if q = p then onSignal (.allocproc s.nextpid) (sig s q) else sig s q := by
  obtain ⟨m, hm, -, rfl⟩ := step_eq_some.mp h
  cases hm with
  | allocproc _ _ _ hp =>
    exact ⟨hp, by rw [perform_pc]; simp [allocMove], by rw [perform_proc]; simp [allocMove], fun q => sig_section q⟩

theorem forkFail_effect (h : s.step (.forkFail c) = some t) (hc : s.pc c = .forking p) : t.pc c = .running ∧
    ∀ q, sig t q = if q = p then onSignal .freeproc (sig s q) else sig s q := by
  obtain ⟨m, hm, -, rfl⟩ := step_eq_some.mp h
  cases hm with
  | forkFail _ p' hc' =>
    obtain rfl : p' = p := Pc.forking.inj (hc'.symm.trans hc)
    exact ⟨by rw [perform_pc]; simp [Kernel.unlock], fun q => sig_section q⟩

theorem forkDone_effect (h : s.step (.forkDone c) = some t) : t.pc c = .running ∧ ∀ q, sig t q = sig s q := by
  obtain ⟨m, hm, -, rfl⟩ := step_eq_some.mp h
  cases hm with
  | forkDone =>
    refine ⟨by rw [perform_pc]; simp [Kernel.unlock], fun q => ?_⟩
    rw [Kernel.unlock, sig_section]
    split <;> rfl

theorem forkRun_effect (h : s.step (.forkRun c p) = some t) : (sig s p).state = .used ∧
    ∀ q, sig t q = if q = p then onSignal .makeRunnable (sig s q) else sig s q := by
  obtain ⟨m, hm, -, rfl⟩ := step_eq_some.mp h
  cases hm with
  | forkRun _ _ _ hp => exact ⟨hp, fun q => sig_section q⟩

theorem kwait_effect (h : s.step (.kwait c p) = some t) (q : Slot) :
    sig t q = if q = p then onSignal .freeproc (sig s q) else sig s q := by
  obtain ⟨m, hm, -, rfl⟩ := step_eq_some.mp h
  cases hm with
  | kwait => exact sig_section q

theorem forking_step (h : s.step e = some t) (hc : t.pc c = .forking p) (he : ∀ c p, e ≠ .allocproc c p) :
    s.pc c = .forking p ∧ t.proc c = s.proc c := by
  by_cases hcpu : c = cpuOf e
  · obtain ⟨m, hm, -, rfl⟩ := step_eq_some.mp h
    rw [perform_pc, moves_cpu hm, if_pos hcpu] at hc
    cases hm with
    | visit c i bestP bestPrio => exact absurd hc ((quiet_ne (afterVisit_place i _).1).2.2 p)
    | wakeupSelf c chan i clock ret | wakeupVisit c chan i clock ret =>
      exact absurd hc ((quiet_ne (afterWakeup_place chan i clock ret).1).2.2 p)
    | accountVisit c i ret => exact absurd hc ((quiet_ne (afterAccount_place i ret).1).2.2 p)
    | charge c q hc' hp =>
      simp only [locked] at hc
      split at hc <;> cases hc
    | allocproc c q => exact absurd rfl (he c q)
    | _ => cases hc
  · obtain ⟨hproc, hpc⟩ := cpu_frame h hcpu
    exact ⟨by rw [← hpc, hc], hproc⟩

theorem waking_step {chan : Nat} {i : Slot} (h : s.step e = some t) (hc : s.pc c = .wakeup chan i false .running) :
    (t.proc c = s.proc c ∧ t.pc c = s.pc c) ∨
      (t.proc c = s.proc c ∧ t.pc c = afterWakeup chan i false .running ∧
        (s.proc c ≠ some i → sig t i = onSignal (.wakeup chan) (sig s i))) := by
  by_cases hcpu : c = cpuOf e
  · obtain ⟨m, hm, -, rfl⟩ := step_eq_some.mp h
    have hpc := hc
    rw [hcpu] at hpc
    cases hm with
    | wakeupSelf _ chan' i' clock ret hc' hp =>
      subst hcpu
      obtain ⟨rfl, rfl, rfl, rfl⟩ := Pc.wakeup.inj (hc.symm.trans hc')
      exact .inr ⟨by rw [perform_proc]; simp [jump], by rw [perform_pc]; simp [jump],
        fun hne => absurd hp hne⟩
    | wakeupVisit _ chan' i' clock ret hc' hp =>
      subst hcpu
      obtain ⟨rfl, rfl, rfl, rfl⟩ := Pc.wakeup.inj (hc.symm.trans hc')
      refine .inr ⟨by rw [perform_proc]; simp [locked], by rw [perform_pc]; simp [locked], ?_⟩
      intro _
      rw [locked, sig_section, if_pos rfl]
    | _ => simp_all [cpuOf]
  · exact .inl (cpu_frame h hcpu)

end Effects

end AdaptiveXv6.Signals
