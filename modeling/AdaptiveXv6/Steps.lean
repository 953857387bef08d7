import AdaptiveXv6.Machine

namespace AdaptiveXv6.Steps

open Process Ops Machine Kernel Function

variable {n : Nat} {s t : Kernel n} {e : Event n} {m : Move n}

inductive Moves (s : Kernel n) : Event n → Move n → Prop
  | startPass (c) (h : s.pc c = .top) : Moves s (.startPass c) (s.jump c (.pass1 0 none (-1)))
  | visit (c i bestP bestPrio) (h : s.pc c = .pass1 i bestP bestPrio) :
      Moves s (.visit c) (s.locked c i .rescore (afterVisit i (better s.procs i bestP bestPrio)))
  | pickNone (c bestPrio) (h : s.pc c = .pass2 none bestPrio) : Moves s (.pick c) (s.jump c .wfi)
  | pickGone (c p bestPrio) (h : s.pc c = .pass2 (some p) bestPrio)
      (hp : (s.procs p).state ≠ .runnable) : Moves s (.pick c) (s.locked c p .dispatch .wfi)
  | pick (c p bestPrio) (h : s.pc c = .pass2 (some p) bestPrio)
      (hp : (s.procs p).state = .runnable) :
      Moves s (.pick c) ⟨c, ⟨some p, .resumed⟩, some ⟨p, .dispatch, none, some c⟩, s.ticks, s.nextpid⟩
  | interrupt (c) (h : s.pc c = .wfi) : Moves s (.interrupt c) (s.jump c .top)
  | resume (c p) (h : s.pc c = .resumed) (hp : s.proc c = some p) :
      Moves s (.resume c) (s.unlock c p .resume ⟨some p, .running⟩)
  | timerTop (c) (h : s.pc c = .top) (hc : c.val = 0) : Moves s (.timer c) (s.clockMove c .top)
  | timerProc (c) (h : s.pc c = .running) (hc : c.val = 0) : Moves s (.timer c) (s.clockMove c .timer)
  | timerOther (c) (h : s.pc c = .running) (hc : c.val ≠ 0) : Moves s (.timer c) (s.jump c .timer)
  | wakeupTop (c chan) (h : s.pc c = .top) :
      Moves s (.wakeup c chan) (s.jump c (.wakeup chan 0 false .top))
  | wakeupProc (c chan) (h : s.pc c = .running) :
      Moves s (.wakeup c chan) (s.jump c (.wakeup chan 0 false .running))
  | wakeupSelf (c chan i clock ret) (h : s.pc c = .wakeup chan i clock ret) (hp : s.proc c = some i) :
      Moves s (.wakeupVisit c) (s.jump c (afterWakeup chan i clock ret))
  | wakeupVisit (c chan i clock ret) (h : s.pc c = .wakeup chan i clock ret) (hp : s.proc c ≠ some i) :
      Moves s (.wakeupVisit c) (s.locked c i (.wakeup chan) (afterWakeup chan i clock ret))
  | accountVisit (c i ret) (h : s.pc c = .accounting i ret) :
      Moves s (.accountVisit c) (s.locked c i .accountWait (afterAccount i ret))
  | charge (c p) (h : s.pc c = .timer) (hp : s.proc c = some p) :
      Moves s (.charge c)
        (s.locked c p .chargeTick (if shouldYield (s.procs p) then .expired else .running))
  | uncharged (c p) (h : s.pc c = .timer) (hp : s.proc c = some p) (hk : (s.procs p).killed) :
      Moves s (.uncharged c) (s.jump c .running)
  | yield (c p) (h : s.pc c = .expired) (hp : s.proc c = some p) : Moves s (.yield c) (s.leave c p .yield)
  | sleep (c p chan) (h : s.pc c = .running) (hp : s.proc c = some p) :
      Moves s (.sleep c chan) (s.leave c p (.sleep chan))
  | kexit (c p status) (h : s.pc c = .running) (hp : s.proc c = some p) (hi : p ≠ initproc) :
      Moves s (.kexit c status) (s.leave c p (.kexit status))
  | swtch (c p) (h : s.pc c = .switching) (hp : s.proc c = some p) :
      Moves s (.swtch c) (s.unlock c p .unlock ⟨none, .top⟩)
  | kkill (c pid p) (h : s.pc c = .running) : Moves s (.kkill c pid p) (s.locked c p (.kkill pid) .running)
  | setkilled (c p) (h : s.pc c = .running) (hp : s.proc c = some p) :
      Moves s (.setkilled c) (s.locked c p .setkilled .running)
  | allocproc (c p) (h : s.pc c = .running) (hp : (s.procs p).state = .unused) :
      Moves s (.allocproc c p) (s.allocMove c p)
  | forkFail (c p) (h : s.pc c = .forking p) :
      Moves s (.forkFail c) (s.unlock c p .freeproc ⟨s.proc c, .running⟩)
  | forkDone (c p) (h : s.pc c = .forking p) :
      Moves s (.forkDone c) (s.unlock c p .unlock ⟨s.proc c, .running⟩)
  | forkRun (c p) (h : s.pc c = .running) (hp : (s.procs p).state = .used) :
      Moves s (.forkRun c p) (s.locked c p .makeRunnable .running)
  | kwait (c p) (h : s.pc c = .running) (hp : (s.procs p).state = .zombie) :
      Moves s (.kwait c p) (s.locked c p .freeproc .running)

theorem moves_of_move (h : s.move e = some m) : Moves s e m := by
  cases e with
  | startPass c | visit c | interrupt c | accountVisit c | kkill c | forkFail c | forkDone c =>
    simp only [move] at h
    split at h
    · cases h
      constructor
      assumption
    · cases h
  | resume c | charge c | yield c | sleep c | swtch c | setkilled c =>
    simp only [move] at h
    split at h
    · cases h
      constructor <;> assumption
    · cases h
  | allocproc c | forkRun c | kwait c =>
    simp only [move] at h
    split at h
    · split at h
      · cases h
        constructor <;> assumption
      · cases h
    · cases h
  | uncharged c | kexit c =>
    simp only [move] at h
    split at h
    · split at h
      all_goals cases h
      constructor <;> assumption
    · cases h
  | pick c =>
    simp only [move] at h
    split at h
    · cases h
      exact .pickNone c _ ‹_›
    · cases h
      rw [pickMove]
      split
      · exact .pick c _ _ ‹_› ‹_›
      · exact .pickGone c _ _ ‹_› ‹_›
    · cases h
  | timer c =>
    simp only [move] at h
    split at h
    · split at h
      · cases h
        exact .timerTop c ‹_› ‹_›
      · cases h
    · split at h
      · cases h
        exact .timerProc c ‹_› ‹_›
      · cases h
        exact .timerOther c ‹_› ‹_›
    · cases h
  | wakeup c chan =>
    simp only [move] at h
    split at h
    · cases h
      exact .wakeupTop c chan ‹_›
    · cases h
      exact .wakeupProc c chan ‹_›
    · cases h
  | wakeupVisit c =>
    simp only [move] at h
    split at h
    · split at h
      · cases h
        exact .wakeupSelf c _ _ _ _ ‹_› ‹_›
      · cases h
        exact .wakeupVisit c _ _ _ _ ‹_› ‹_›
    · cases h

theorem move_of_moves (h : Moves s e m) : s.move e = some m := by
  cases h <;> simp_all [move, pickMove]

theorem step_eq_some : s.step e = some t ↔ ∃ m, Moves s e m ∧ s.Ready m ∧ t = s.perform m := by
  constructor
  · intro h
    rw [step] at h
    split at h
    · rename_i m hm
      split at h
      · exact ⟨m, moves_of_move hm, ‹_›, (Option.some.inj h).symm⟩
      · cases h
    · cases h
  · rintro ⟨m, hm, hr, rfl⟩
    simp [step, move_of_moves hm, hr]

theorem ready_iff : s.Ready m ↔ ∀ k, m.crit = some k → s.lock k.slot = k.held := by
  rw [Ready]
  split <;> simp_all

theorem perform_proc (m : Move n) (d : Fin n) :
    (s.perform m).proc d = if d = m.cpu then m.after.proc else s.proc d := by
  simp only [Kernel.proc, perform, update_apply]
  split <;> rfl

theorem perform_pc (m : Move n) (d : Fin n) :
    (s.perform m).pc d = if d = m.cpu then m.after.pc else s.pc d := by
  simp only [Kernel.pc, perform, update_apply]
  split <;> rfl

theorem perform_lock (c : Fin n) (a : Cpu) (k : Section n) (ticks : Nat) (nextpid : Int) (p : Slot) :
    (s.perform ⟨c, a, some k, ticks, nextpid⟩).lock p = if p = k.slot then k.left else s.lock p := by
  simp only [perform, update_apply]

theorem perform_slot (c : Fin n) (a : Cpu) (k : Section n) (ticks : Nat) (nextpid : Int) (p : Slot) :
    (s.perform ⟨c, a, some k, ticks, nextpid⟩).procs p =
      if p = k.slot then k.op.apply s.ticks (s.procs p) else s.procs p := by
  simp only [perform, update_apply]
  split <;> simp_all

/-- The critical section that an event runs on slot p, if it runs one. -/
def opAt (s : Kernel n) (e : Event n) (p : Slot) : Option Op :=
  match s.move e with
  | some m => match m.crit with
    | some k => if k.slot = p then some k.op else none
    | none => none
  | none => none

def applyOp (ticks : Nat) : Option Op → Proc → Proc
  | some op, x => op.apply ticks x
  | none, x => x

theorem perform_procs (p : Slot) (hm : s.move e = some m) :
    (s.perform m).procs p = applyOp s.ticks (opAt s e p) (s.procs p) := by
  cases hk : m.crit with
  | none => simp [perform, opAt, hm, hk, applyOp]
  | some k =>
    by_cases hp : k.slot = p
    · subst hp
      simp [perform, opAt, hm, hk, applyOp]
    · simp [perform, opAt, hm, hk, applyOp, hp, update_of_ne (Ne.symm hp)]

theorem step_procs (h : s.step e = some t) (p : Slot) :
    t.procs p = applyOp s.ticks (opAt s e p) (s.procs p) := by
  obtain ⟨m, hm, -, rfl⟩ := step_eq_some.mp h
  exact perform_procs p (move_of_moves hm)

theorem opAt_eq_some {p : Slot} {op : Op} (h : opAt s e p = some op) :
    ∃ m k, Moves s e m ∧ m.crit = some k ∧ k.slot = p ∧ k.op = op := by
  rw [opAt] at h
  split at h
  · rename_i m hm
    split at h
    · rename_i k hk
      split at h
      · exact ⟨m, k, moves_of_move hm, hk, ‹_›, Option.some.inj h⟩
      · cases h
    · cases h
  · cases h

end AdaptiveXv6.Steps
