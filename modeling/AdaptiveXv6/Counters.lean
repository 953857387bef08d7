import AdaptiveXv6.SlotHistory

namespace AdaptiveXv6.Counters

open Words Process Ops Machine Kernel Exclusion SlotHistory

variable {n d : Nat} {x : Proc}

structure Counted (x : Proc) (d : Nat) : Prop where
  idle : x.state ≠ .runnable → x.waitticks = 0
  sched : x.schedCount = u64 d
  inside : x.state = .running → u64 (x.switches + 1) = u64 d
  outside : x.state ≠ .running → x.switches = u64 d

theorem Counted.congr {y : Proc} (h : Counted x d) (hs : y.state = x.state)
    (hw : y.waitticks = x.waitticks) (hc : y.schedCount = x.schedCount)
    (hx : y.switches = x.switches) : Counted y d := by
  refine ⟨?_, ?_, ?_, ?_⟩
  · rw [hs, hw]; exact h.idle
  · rw [hc]; exact h.sched
  · rw [hs, hx]; exact h.inside
  · rw [hs, hx]; exact h.outside

theorem Counted.released {y : Proc} (h : Counted x d) (hx : x.state ≠ .running)
    (hy : y.state = .runnable) (hc : y.schedCount = x.schedCount) (hs : y.switches = x.switches) :
    Counted y d := by
  refine ⟨?_, ?_, ?_, ?_⟩
  · intro hn; exact absurd hy hn
  · rw [hc]; exact h.sched
  · intro hr; rw [hy] at hr; cases hr
  · intro _; rw [hs]; exact h.outside hx

theorem counted_zero (hs : x.state ≠ .running) (hw : x.waitticks = 0) (hc : x.schedCount = 0)
    (hx : x.switches = 0) : Counted x 0 :=
  ⟨fun _ => hw, hc, fun h => absurd h hs, fun _ => hx⟩

theorem Counted.dispatch (h : Counted x d) (ticks : Nat) (hs : x.state = .runnable) :
    Counted (dispatch ticks x) (d + 1) := by
  have hout : x.switches = u64 d := h.outside (by rw [hs]; simp)
  rw [Ops.dispatch, if_pos hs]
  refine ⟨fun _ => rfl, ?_, ?_, ?_⟩
  · change u64 (x.schedCount + 1) = u64 (d + 1)
    rw [h.sched, u64_add_left]
  · intro _
    change u64 (x.switches + 1) = u64 (d + 1)
    rw [hout, u64_add_left]
  · intro hn; exact absurd rfl hn

theorem Counted.sched_leaves {y : Proc} (h : Counted x d) (hs : x.state = .running) (ticks : Nat)
    (hy : y.state ≠ .running) (hw : y.waitticks = x.waitticks) (hc : y.schedCount = x.schedCount)
    (hx : y.switches = x.switches) : Counted (Ops.sched ticks y) d := by
  have hidle : x.waitticks = 0 := h.idle (by rw [hs]; simp)
  refine ⟨?_, ?_, ?_, ?_⟩
  · intro _; rw [sched_waitticks, hw, hidle]
  · rw [sched_schedCount, hc, h.sched]
  · intro hr; rw [sched_state] at hr; exact absurd hr hy
  · intro _; rw [sched_switches, hx]; exact h.inside hs

theorem Counted.idle_op {op : Op} (h : Counted x d) (hpre : op.Pre x) (hop : op.idle) (ticks : Nat) :
    Counted (op.apply ticks x) d := by
  have hs := Op.idle_same hop ticks x
  rcases Op.idle_state hpre hop ticks with hst | ⟨hfrom, hto⟩
  · exact h.congr hst hs.waitticks hs.schedCount hs.switches
  · exact h.released (by rcases hfrom with hx | hx <;> simp [hx]) hto hs.schedCount hs.switches

theorem Counted.op {ticks : Nat} {op : Op} {g : Tally} (hpre : op.Pre x)
    (h : Counted x g.dispatches) : Counted (op.apply ticks x) (count op x g).dispatches := by
  cases op with
  | rescore | resume | wakeup | kkill | setkilled | makeRunnable | unlock => exact h.idle_op hpre rfl ticks
  | dispatch =>
    simp only [Op.apply, count]
    by_cases hs : x.state = .runnable
    · rw [if_pos hs]; exact h.dispatch ticks hs
    · rw [if_neg hs, Ops.dispatch, if_neg hs]; exact h
  | chargeTick =>
    have hg : Counted (growEstimate (countTick x)) g.dispatches := by
      rw [growEstimate]
      split <;> exact h.congr rfl rfl rfl rfl
    simp only [Op.apply, Ops.chargeTick]
    split
    · exact hg.congr rfl rfl rfl rfl
    · exact hg
  | yield => exact h.sched_leaves (y := yielding x) hpre ticks (by simp [yielding]) rfl rfl rfl
  | sleep chan =>
    exact h.sched_leaves (y := fallingAsleep chan x) hpre ticks (by simp [fallingAsleep]) rfl rfl rfl
  | kexit status => exact h.sched_leaves (y := exiting status x) hpre ticks (by simp [exiting]) rfl rfl rfl
  | allocproc pid | freeproc => exact counted_zero (by simp [Op.apply, allocproc, freeproc]) rfl rfl rfl
  | accountWait =>
    have hs := accountWait_same ticks x
    by_cases hr : x.state = .runnable
    · rw [if_pos hr] at hs
      exact h.released (by rw [hr]; simp) (hs.state.trans hr) hs.schedCount hs.switches
    · rw [if_neg hr] at hs
      exact h.congr hs.state hs.waitticks hs.schedCount hs.switches

theorem run_counted (r : Run n) (p : Slot) (k : Nat) :
    Counted ((r.state k).procs p) (tally r p k).dispatches := by
  refine slot_always r p (Q := fun _ => True) (J := fun x g => Counted x g.dispatches)
    (fun _ => trivial) ?_ (fun ticks op x g hpre hj _ _ => hj.op hpre) k
  simp only [boot]
  split <;> exact counted_zero (by simp [procinit, userinit]) rfl rfl rfl

theorem currentBurst_op {ticks : Nat} {op : Op} {g : Tally} (hx : x.currentBurst = g.burst)
    (hlt : x.currentBurst + 1 < 2 ^ 32) : (op.apply ticks x).currentBurst = (count op x g).burst := by
  cases op with
  | chargeTick =>
    have hg : (growEstimate (countTick x)).currentBurst = g.burst + 1 := by
      have hc : (countTick x).currentBurst = g.burst + 1 := by
        rw [← hx]
        exact u32_of_lt hlt
      rw [growEstimate]
      split <;> exact hc
    simp only [Op.apply, Ops.chargeTick, count]
    split <;> exact hg
  | rescore | resume | wakeup | kkill | setkilled | makeRunnable | unlock =>
    exact (Op.idle_same rfl ticks x).currentBurst.trans hx
  | dispatch =>
    simp only [Op.apply, Ops.dispatch, count]
    split <;> exact hx
  | yield =>
    have hs := sched_preempted_same ticks (yielding x) (by simp [yielding])
    simp only [Op.apply, yield, hs.currentBurst, count]
    split <;> exact hx
  | sleep chan => exact (sched_completes_same ticks (fallingAsleep chan x) (.inl rfl)).currentBurst
  | kexit status => exact (sched_completes_same ticks (exiting status x) (.inr rfl)).currentBurst
  | allocproc pid | freeproc => rfl
  | accountWait =>
    have hs := accountWait_same ticks x
    rw [Op.apply, hs.currentBurst]
    split <;> exact hx

theorem burstsBelow_of_currentBurst (r : Run n) {B : Nat} (hB : B < 2 ^ 32)
    (h : ∀ k p, ((r.state k).procs p).currentBurst < B) : BurstsBelow r B := by
  intro p k
  have heq : ((r.state k).procs p).currentBurst = (tally r p k).burst := by
    induction k with
    | zero =>
      rw [r.start]
      simp only [boot]
      split <;> rfl
    | succ k ih =>
      have hlt := h k p
      cases hs : sectionAt r k p with
      | none => rw [section_none r hs, tally_none r hs, ih]
      | some op =>
        rw [section_apply r hs, tally_section r hs]
        exact currentBurst_op ih (by omega)
  rw [← heq]
  exact h k p

end AdaptiveXv6.Counters
