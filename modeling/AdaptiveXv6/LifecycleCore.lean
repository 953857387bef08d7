import AdaptiveXv6.LifecycleSteps
import AdaptiveXv6.Signals

namespace AdaptiveXv6.LifecycleCore

open Process Machine Lifecycle World LifecycleSteps Signals Exclusion

variable {n : Nat} {w v : World n} {e : Lifecycle.Event n} {c : Fin n} {p : Slot}

theorem core_step (h : Acts w e v) : ∃ e', Runs.Follows Kernel.step w.core e' v.core := by
  cases h with
  | core ha hk => exact ⟨some _, hk⟩
  | allocproc hme hp hk | forkFail hme hp hk | forkDone hme hp hk | forkRun hme hp hk | wakeInit hme hp hk
  | wakeParent hme hp hk | zombie hme hp hk | full hme hp hk | doze hme hp hk | post hme hp hk
  | reap hme hp hi hs ho hk => exact ⟨some _, hk⟩
  | _ => exact ⟨none, rfl⟩

/-- Whatever processes do when they fork, exit and wait, the scheduler sees one of
its own runs. -/
theorem exists_core_run (r : Lifecycle.Run n) : ∃ q : Machine.Run n, ∀ k, q.state k = (r.state k).core := by
  have hstep : ∀ k, ∃ e', Runs.Follows Kernel.step (r.state k).core e' (r.state (k + 1)).core := by
    intro k
    cases he : r.event k with
    | none => exact ⟨none, by rw [r.state_of_no_event he]; rfl⟩
    | some e => exact core_step (acts_of_step (r.step_of_event he))
  obtain ⟨event, hevent⟩ := Classical.skolem.mp hstep
  exact ⟨⟨fun k => (r.state k).core, event, by rw [r.start]; rfl, hevent⟩, fun _ => rfl⟩

theorem core_exclusive (r : Lifecycle.Run n) (k : Nat) : Exclusive (r.state k).core := by
  obtain ⟨q, hq⟩ := exists_core_run r
  rw [← hq k]
  exact run_exclusive q k

theorem me_eq_some (h : w.me c = some p) : w.core.pc c = .running ∧ w.core.proc c = some p := by
  rw [me] at h
  split at h
  · exact ⟨‹_›, h⟩
  · cases h

theorem me_running (hx : Exclusive w.core) (h : w.me c = some p) : (sig w.core p).state = .running := by
  obtain ⟨hc, hp⟩ := me_eq_some h
  exact (hx.running c p hp).mpr (by simp [hc])

theorem me_ne (hx : Exclusive w.core) (hme : w.me c = some p) {z : Slot} (hz : (sig w.core z).state ≠ .running) :
    p ≠ z := by
  rintro rfl
  exact hz (me_running hx hme)

theorem forking_states {np : Slot} (hx : Exclusive w.core) (hpc : w.core.pc c = .forking np)
    (hpr : w.core.proc c = some p) :
    (sig w.core np).state = .used ∧ (sig w.core p).state = .running ∧ p ≠ np := by
  have hused : (sig w.core np).state = .used := (hx.creating c np hpc).1
  have hrun : (sig w.core p).state = .running := (hx.running c p hpr).mpr (by simp [hpc])
  refine ⟨hused, hrun, ?_⟩
  rintro rfl
  rw [hused] at hrun
  cases hrun

theorem step_run {o : Choice} {y : Code} (hme : w.me c = some p) (hp : w.code p = y) :
    w.step (.run c o) = w.next c p o y := by
  simp only [step, hme, hp]

theorem allows_background {e : Machine.Event n} (h : w.allows e) : background e := by
  cases e <;> first | rfl | cases h

theorem allows_sleep {chan : Nat} (h : w.allows (.sleep c chan)) (hp : w.core.proc c = some p) :
    mayBlock (w.code p) = true ∧ isProcChan chan = false := by
  simp only [allows, me, hp] at h
  split at h
  · simpa using h
  · cases h

theorem allows_setkilled (h : w.allows (.setkilled c)) (hp : w.core.proc c = some p) : w.code p = .user := by
  simp only [allows, me, hp] at h
  split at h
  · simpa using h
  · cases h

theorem run_acts (r : Lifecycle.Run n) (k : Nat) : r.state (k + 1) = r.state k ∨
    ∃ e, r.event k = some e ∧ Acts (r.state k) e (r.state (k + 1)) := by
  cases he : r.event k with
  | none => exact .inl (r.state_of_no_event he)
  | some e => exact .inr ⟨e, rfl, acts_of_step (r.step_of_event he)⟩

theorem run_always (r : Lifecycle.Run n) {I : World n → Prop} (h₀ : I (Lifecycle.boot n))
    (hstep : ∀ k e, r.event k = some e → I (r.state k) → Acts (r.state k) e (r.state (k + 1)) →
      I (r.state (k + 1))) (k : Nat) : I (r.state k) := by
  induction k with
  | zero =>
    rw [r.start]
    exact h₀
  | succ k ih =>
    rcases run_acts r k with hk | ⟨e, he, ha⟩
    · rw [hk]
      exact ih
    · exact hstep k e he ih ha

def turn (c : Fin n) : List (Lifecycle.Event n) :=
  .core (.startPass c) :: List.replicate NPROC (.core (.visit c)) ++ [.core (.pick c), .core (.resume c)]

def fork (c : Fin n) (np : Slot) : List (Lifecycle.Event n) :=
  [.allocproc c np, .forkDone c, .run c .ok, .run c .ok]

def waits (c : Fin n) : List (Lifecycle.Event n) :=
  [.call c (.wait 0), .run c .ok] ++ List.replicate NPROC (.run c .ok) ++ [.run c .ok, .run c .ok]

end AdaptiveXv6.LifecycleCore
