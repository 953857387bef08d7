import AdaptiveXv6.Rotation

namespace AdaptiveXv6.Estimator

open Words Process Ops Machine Kernel SlotHistory Sweeps Rounds Rotation

variable {n : Nat} {B b : Nat} {x : Proc}

structure Estimated (B : Nat) (x : Proc) (b : Nat) : Prop where
  burst : x.currentBurst = b
  covers : x.currentBurst ≤ x.estBurst
  below : x.estBurst < B
  type : x.procType = classify x.estBurst

theorem Estimated.congr {y : Proc} (h : Estimated B x b) (hc : y.currentBurst = x.currentBurst)
    (he : y.estBurst = x.estBurst) (ht : y.procType = x.procType) : Estimated B y b :=
  ⟨hc ▸ h.burst, by rw [hc, he]; exact h.covers, he ▸ h.below, by rw [ht, he]; exact h.type⟩

theorem estimated_zero (hB : 0 < B) (hc : x.currentBurst = 0) (he : x.estBurst = 0)
    (ht : x.procType = .interactive) : Estimated B x 0 :=
  ⟨hc, by omega, by rw [he]; exact hB, by rw [ht, he]; rfl⟩

theorem Estimated.chargeTick (h : Estimated B x b) (hb : b + 1 < B) (hB : B ≤ 2 ^ 31) :
    Estimated B (chargeTick x) (b + 1) := by
  have hcount : (countTick x).currentBurst = b + 1 := by
    simp only [countTick, h.burst]
    exact u32_of_lt (by omega)
  have hgrow : Estimated B (growEstimate (countTick x)) (b + 1) := by
    have hest : (countTick x).estBurst = x.estBurst := rfl
    rw [growEstimate]
    split
    · exact ⟨hcount, Nat.le_refl _, by simpa only [hcount] using hb, classifyOngoing_eq _⟩
    · refine ⟨hcount, by omega, h.below, h.type⟩
  rw [Ops.chargeTick]
  split
  · exact hgrow.congr rfl rfl rfl
  · exact hgrow

theorem Estimated.sched_runnable (h : Estimated B x b) (ticks : Nat) (hs : x.state = .runnable) :
    sched ticks x = countSwitch x := by
  have hc := h.covers
  rw [sched_healthCall, healthCall, if_neg (by simp [hs]), if_neg (by omega)]

theorem Estimated.sched_completes (h : Estimated B x b) (hB : B ≤ 2 ^ 31) (ticks : Nat)
    (hs : x.state = .sleeping ∨ x.state = .zombie) : Estimated B (sched ticks x) 0 := by
  have hb := h.below
  have hc := h.covers
  have hsame := sched_completes_same ticks x hs
  have hest : (sched ticks x).estBurst = (x.currentBurst + x.estBurst) / 2 := by
    rw [hsame.estBurst]
    exact @smooth_eq x.currentBurst x.estBurst hc (by omega)
  have hcur : (sched ticks x).currentBurst = 0 := hsame.currentBurst
  refine ⟨hcur, by omega, by omega, ?_⟩
  rw [hsame.estBurst, hsame.procType]
  rfl

theorem Estimated.idle_op {op : Op} (h : Estimated B x b) (hop : op.idle) (ticks : Nat) :
    Estimated B (op.apply ticks x) b := by
  have hs := Op.idle_same hop ticks x
  exact h.congr hs.currentBurst hs.estBurst hs.procType

theorem Estimated.op (hB : B ≤ 2 ^ 31) (hpos : 0 < B) {ticks : Nat} {op : Op} {g : Tally}
    (h : Estimated B x g.burst) (hb : (count op x g).burst < B) :
    Estimated B (op.apply ticks x) (count op x g).burst := by
  cases op with
  | rescore | resume | wakeup | kkill | setkilled | makeRunnable | unlock => exact h.idle_op rfl ticks
  | dispatch =>
    simp only [Op.apply, dispatch, count]
    split <;> exact h.congr rfl rfl rfl
  | chargeTick => exact h.chargeTick hb hB
  | yield =>
    have hr : Estimated B (yielding x) g.burst := h.congr rfl rfl rfl
    simp only [Op.apply, yield, hr.sched_runnable ticks rfl]
    exact hr.congr rfl rfl rfl
  | sleep chan =>
    have hs : Estimated B (fallingAsleep chan x) g.burst := h.congr rfl rfl rfl
    exact hs.sched_completes hB ticks (.inl rfl)
  | kexit status =>
    have hz : Estimated B (exiting status x) g.burst := h.congr rfl rfl rfl
    exact hz.sched_completes hB ticks (.inr rfl)
  | allocproc pid | freeproc => exact estimated_zero hpos rfl rfl rfl
  | accountWait =>
    have hs := accountWait_same ticks x
    split at hs <;> exact h.congr hs.currentBurst hs.estBurst hs.procType

theorem run_estimated (r : Run n) (hB : B ≤ 2 ^ 31) (hb : BurstsBelow r B) (p : Slot) (k : Nat) :
    Estimated B ((r.state k).procs p) (tally r p k).burst := by
  have hpos : 0 < B := Nat.lt_of_le_of_lt (Nat.zero_le _) (hb p 0)
  refine slot_always r p (Q := fun g => g.burst < B) (J := fun x g => Estimated B x g.burst) (hb p) ?_
    (fun ticks op x g _ hj _ hg => hj.op hB hpos hg) k
  simp only [boot]
  split <;> exact estimated_zero hpos rfl rfl rfl

theorem classify_iff (est : Nat) :
    (classify est = .interactive ↔ est ≤ 2) ∧ (classify est = .cpuBound ↔ 8 ≤ est) ∧
      (classify est = .mixed ↔ 2 < est ∧ est < 8) := by
  simp only [classify, INTERACTIVE_BURST_THRESH, CPU_BOUND_BURST_THRESH]
  split
  · simp; omega
  · split <;> simp <;> omega

/-- With bursts below 2^31 ticks the estimate covers the current burst and fixes the class, so a preemption
changes no prediction or health field. -/
theorem estimator_invariant (r : Run n) (hb : BurstsBelow r (2 ^ 31)) (p : Slot) (k : Nat) :
    (((r.state k).procs p).state ≠ .unused →
      ((r.state k).procs p).currentBurst ≤ ((r.state k).procs p).estBurst ∧
      (((r.state k).procs p).procType = .interactive ↔ ((r.state k).procs p).estBurst ≤ 2) ∧
      (((r.state k).procs p).procType = .cpuBound ↔ 8 ≤ ((r.state k).procs p).estBurst) ∧
      (((r.state k).procs p).procType = .mixed ↔
        2 < ((r.state k).procs p).estBurst ∧ ((r.state k).procs p).estBurst < 8)) ∧
    (sectionAt r k p = some .yield →
      healthCall (yielding ((r.state k).procs p)) = none ∧
      ((r.state (k + 1)).procs p).estBurst = ((r.state k).procs p).estBurst ∧
      ((r.state (k + 1)).procs p).lastBurst = ((r.state k).procs p).lastBurst ∧
      ((r.state (k + 1)).procs p).predictedBurst = ((r.state k).procs p).predictedBurst ∧
      ((r.state (k + 1)).procs p).predictionError = ((r.state k).procs p).predictionError ∧
      ((r.state (k + 1)).procs p).burstTrend = ((r.state k).procs p).burstTrend ∧
      ((r.state (k + 1)).procs p).anomalyScore = ((r.state k).procs p).anomalyScore ∧
      ((r.state (k + 1)).procs p).anomalyFlags = ((r.state k).procs p).anomalyFlags ∧
      ((r.state (k + 1)).procs p).healthStatus = ((r.state k).procs p).healthStatus) := by
  have h := run_estimated r (Nat.le_refl _) hb p k
  have hc := h.covers
  constructor
  · intro _
    rw [h.type]
    exact ⟨hc, classify_iff _⟩
  · intro hop
    have hr : Estimated (2 ^ 31) (yielding ((r.state k).procs p)) _ := h.congr rfl rfl rfl
    rw [section_apply r hop]
    simp only [Op.apply, yield, hr.sched_runnable _ rfl]
    simp [healthCall, countSwitch, yielding, hc]

theorem estimator_invariant_preempted : ∃ (r : Run 1) (k : Nat), BurstsBelow r (2 ^ 31) ∧
    sectionAt r k 0 = some .yield ∧ healthCall (yielding ((r.state k).procs 0)) = none ∧
    ((r.state (k + 1)).procs 0).estBurst = ((r.state k).procs 0).estBurst := by
  obtain ⟨s, T, hlock, hT, hpath⟩ := expired_path (τ := 0) (by omega)
  obtain ⟨r, k, hk, he, hshort⟩ := hpath.exists_run_last (step_yield (hlock _))
    (fun j => (hT.yield 1 j).burst_le (by omega))
  have hb : BurstsBelow r (2 ^ 31) := burstsBelow_of_short hshort (by omega) (by omega)
  have hsec : sectionAt r k 0 = some .yield :=
    section_of_moves r he (.yield 0 0 (by rw [hk]; exact put_pc) (by rw [hk]; exact put_proc)) rfl
  obtain ⟨hcall, hest, -⟩ := (estimator_invariant r hb 0 k).2 hsec
  exact ⟨r, k, hb, hsec, hcall, hest⟩

end AdaptiveXv6.Estimator
