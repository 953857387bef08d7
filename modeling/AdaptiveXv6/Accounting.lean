import Mathlib.Algebra.GroupWithZero.Nat
import AdaptiveXv6.Counters
import AdaptiveXv6.SleepCycle

namespace AdaptiveXv6.Accounting

open Words Process Ops Machine Kernel SlotHistory Sweeps Rounds SleepCycle Runs

variable {n : Nat} {x y : Proc}

/-- Completed bursts, latest first, the ticks of the burst in progress, the dispatches, and the accounting
passes of the present wait. -/
structure Ledger where
  bursts : List Nat
  burst : Nat
  dispatches : Nat
  waits : Nat

variable {g : Ledger}

def opened : Ledger := ⟨[], 0, 0, 0⟩

/-- Sleeping and exiting end a burst, being preempted does not. -/
def enter : Op → Proc → Ledger → Ledger
  | .chargeTick, _, g => { g with burst := g.burst + 1 }
  | .sleep _, _, g | .kexit _, _, g => { g with bursts := g.burst :: g.bursts, burst := 0 }
  | .allocproc _, _, _ | .freeproc, _, _ => opened
  | .dispatch, x, g =>
    if x.state = .runnable then { g with dispatches := g.dispatches + 1, waits := 0 } else g
  | .accountWait, x, g => if x.state = .runnable then { g with waits := g.waits + 1 } else g
  | .rescore, _, g | .resume, _, g | .yield, _, g | .wakeup _, _, g | .kkill _, _, g
  | .setkilled, _, g | .makeRunnable, _, g | .unlock, _, g => g

def ledger (r : Run n) (p : Slot) : Nat → Ledger := along enter opened r p

def charged (g : Ledger) : Nat := g.bursts.sum + g.burst

structure Accounted (x : Proc) (g : Ledger) : Prop where
  ticks : x.cputicks = u64 (charged g)
  burst : x.currentBurst = u32 g.burst
  last : x.lastBurst = u32 (g.bursts.headD 0)
  covers : x.currentBurst ≤ x.estBurst
  sched : x.schedCount = u64 g.dispatches
  inside : x.state = .running → ∃ d, g.dispatches = d + 1 ∧ x.switches = u64 d
  outside : x.state ≠ .running → x.switches = u64 g.dispatches
  waits : x.waitticks = u64 g.waits
  idle : x.state ≠ .runnable → g.waits = 0

theorem Accounted.congr (h : Accounted x g) (hr : y.state = .running ↔ x.state = .running)
    (hw : y.state ≠ .runnable → x.state ≠ .runnable) (ht : y.cputicks = x.cputicks)
    (hc : y.currentBurst = x.currentBurst) (hl : y.lastBurst = x.lastBurst)
    (he : y.estBurst = x.estBurst) (hs : y.schedCount = x.schedCount) (hx : y.switches = x.switches)
    (hq : y.waitticks = x.waitticks) : Accounted y g where
  ticks := ht ▸ h.ticks
  burst := hc ▸ h.burst
  last := hl ▸ h.last
  covers := by rw [hc, he]; exact h.covers
  sched := hs ▸ h.sched
  inside hy := hx ▸ h.inside (hr.mp hy)
  outside hy := hx ▸ h.outside (fun hn => hy (hr.mpr hn))
  waits := hq ▸ h.waits
  idle hy := h.idle (hw hy)

theorem Accounted.quiet (h : Accounted x g) (hs : y.state = x.state) (ht : y.cputicks = x.cputicks)
    (hc : y.currentBurst = x.currentBurst) (hl : y.lastBurst = x.lastBurst)
    (he : y.estBurst = x.estBurst) (hd : y.schedCount = x.schedCount) (hx : y.switches = x.switches)
    (hq : y.waitticks = x.waitticks) : Accounted y g :=
  h.congr (by rw [hs]) (by rw [hs]; exact id) ht hc hl he hd hx hq

theorem accounted_opened (hs : x.state ≠ .running) (ht : x.cputicks = 0) (hc : x.currentBurst = 0)
    (hl : x.lastBurst = 0) (hd : x.schedCount = 0) (hx : x.switches = 0) (hw : x.waitticks = 0) :
    Accounted x opened :=
  ⟨ht, hc, hl, by rw [hc]; exact Nat.zero_le _, hd, fun h => absurd h hs, fun _ => hx, hw, fun _ => rfl⟩

theorem Accounted.chargeTick (h : Accounted x g) :
    Accounted (chargeTick x) { g with burst := g.burst + 1 } := by
  have hticks : u64 (x.cputicks + 1) = u64 (charged { g with burst := g.burst + 1 }) := by
    rw [h.ticks, u64_add_left, charged, charged, Nat.add_assoc]
  have hburst : u32 (x.currentBurst + 1) = u32 (g.burst + 1) := by
    rw [h.burst, u32_add_left]
  have hgrow : Accounted (growEstimate (countTick x)) { g with burst := g.burst + 1 } := by
    rw [growEstimate]
    split
    · exact ⟨hticks, hburst, h.last, Nat.le_refl _, h.sched, h.inside, h.outside, h.waits, h.idle⟩
    · rename_i hle
      exact ⟨hticks, hburst, h.last, Nat.not_lt.mp hle, h.sched, h.inside, h.outside, h.waits, h.idle⟩
  rw [Ops.chargeTick]
  split
  · exact hgrow.quiet rfl rfl rfl rfl rfl rfl rfl rfl
  · exact hgrow

theorem Accounted.completes (h : Accounted x g) (hx : x.state = .running) (ticks : Nat)
    (hy : y.state = .sleeping ∨ y.state = .zombie) (ht : y.cputicks = x.cputicks)
    (hc : y.currentBurst = x.currentBurst) (hd : y.schedCount = x.schedCount)
    (hs : y.switches = x.switches) (hw : y.waitticks = x.waitticks) :
    Accounted (Ops.sched ticks y) { g with bursts := g.burst :: g.bursts, burst := 0 } := by
  have hsame := sched_completes_same ticks y hy
  have hburst : (Ops.sched ticks y).currentBurst = 0 := hsame.currentBurst
  obtain ⟨d, hd', hsw⟩ := h.inside hx
  refine ⟨?_, hburst, ?_, by rw [hburst]; exact Nat.zero_le _, ?_, ?_, fun _ => ?_, ?_, fun _ => ?_⟩
  · rw [hsame.cputicks]
    change y.cputicks = _
    rw [ht, h.ticks, charged, charged, List.sum_cons, Nat.add_zero, Nat.add_comm]
  · rw [hsame.lastBurst]
    exact hc.trans h.burst
  · rw [sched_schedCount, hd, h.sched]
  · intro hr
    rw [sched_state] at hr
    rcases hy with hy | hy <;> rw [hy] at hr <;> cases hr
  · rw [sched_switches, hs, hsw, u64_add_left, hd']
  · rw [sched_waitticks, hw, h.waits]
  · exact h.idle (by rw [hx]; simp)

theorem Accounted.yield (h : Accounted x g) (hx : x.state = .running) (ticks : Nat) :
    Accounted (Ops.yield ticks x) g := by
  have hle : ¬(yielding x).currentBurst > (yielding x).estBurst := Nat.not_lt.mpr h.covers
  have hsched : Ops.yield ticks x = countSwitch (yielding x) := by
    rw [Ops.yield, Ops.sched, if_neg (by simp [yielding]), if_pos (show (yielding x).state = .runnable from rfl),
      if_neg hle]
  obtain ⟨d, hd, hsw⟩ := h.inside hx
  rw [hsched]
  refine ⟨h.ticks, h.burst, h.last, h.covers, h.sched, (fun hr => by cases hr), fun _ => ?_, h.waits,
    fun hn => absurd rfl hn⟩
  change u64 (x.switches + 1) = _
  rw [hsw, u64_add_left, hd]

theorem Accounted.dispatch (h : Accounted x g) (hx : x.state = .runnable) (ticks : Nat) :
    Accounted (Ops.dispatch ticks x) { g with dispatches := g.dispatches + 1, waits := 0 } := by
  have hsw : x.switches = u64 g.dispatches := h.outside (by rw [hx]; simp)
  have hcount : u64 (x.schedCount + 1) = u64 (g.dispatches + 1) := by rw [h.sched, u64_add_left]
  rw [Ops.dispatch, if_pos hx]
  exact ⟨h.ticks, h.burst, h.last, h.covers, hcount, fun _ => ⟨_, rfl, hsw⟩, fun hn => absurd rfl hn, rfl,
    fun _ => rfl⟩

theorem Accounted.accountWait (h : Accounted x g) (ticks : Nat) :
    Accounted (Ops.accountWait ticks x) (enter .accountWait x g) := by
  have hs := accountWait_same ticks x
  simp only [enter]
  by_cases hr : x.state = .runnable
  · rw [if_pos hr] at hs ⊢
    have hq : (Ops.accountWait ticks x).state = .runnable := hs.state.trans hr
    have hw : (Ops.accountWait ticks x).waitticks = u64 (g.waits + 1) := by
      rw [hs.waitticks, ← u64_add_left, ← h.waits]
      rfl
    have hcov : (countWait x).currentBurst ≤ (countWait x).estBurst := h.covers
    refine ⟨hs.cputicks.trans h.ticks, hs.currentBurst.trans h.burst, hs.lastBurst.trans h.last, ?_,
      hs.schedCount.trans h.sched, ?_, ?_, hw, fun hn => absurd hq hn⟩
    · rw [hs.currentBurst, hs.estBurst]
      exact hcov
    · intro hn
      rw [hq] at hn
      cases hn
    · intro _
      exact hs.switches.trans (h.outside (by rw [hr]; simp))
  · rw [if_neg hr] at hs ⊢
    exact h.quiet hs.state hs.cputicks hs.currentBurst hs.lastBurst hs.estBurst hs.schedCount hs.switches
      hs.waitticks

theorem Accounted.idle_op {op : Op} (h : Accounted x g) (hpre : op.Pre x) (hop : op.idle) (ticks : Nat) :
    Accounted (op.apply ticks x) g := by
  have hs := Op.idle_same hop ticks x
  have hstate : ((op.apply ticks x).state = .running ↔ x.state = .running) ∧
      ((op.apply ticks x).state ≠ .runnable → x.state ≠ .runnable) := by
    rcases Op.idle_state hpre hop ticks with hst | ⟨hx | hx, hst⟩
    · simp [hst]
    · simp [hx, hst]
    · simp [hx, hst]
  exact h.congr hstate.1 hstate.2 hs.cputicks hs.currentBurst hs.lastBurst hs.estBurst hs.schedCount hs.switches
    hs.waitticks

theorem Accounted.op {ticks : Nat} {op : Op} (hpre : op.Pre x) (h : Accounted x g) :
    Accounted (op.apply ticks x) (enter op x g) := by
  cases op with
  | rescore | resume | wakeup | kkill | setkilled | makeRunnable | unlock => exact h.idle_op hpre rfl ticks
  | dispatch =>
    simp only [Op.apply, enter]
    by_cases hs : x.state = .runnable
    · rw [if_pos hs]; exact h.dispatch hs ticks
    · rw [if_neg hs, Ops.dispatch, if_neg hs]; exact h
  | chargeTick => exact h.chargeTick
  | yield => exact h.yield hpre ticks
  | sleep chan => exact h.completes (y := fallingAsleep chan x) hpre ticks (.inl rfl) rfl rfl rfl rfl rfl
  | kexit status => exact h.completes (y := exiting status x) hpre ticks (.inr rfl) rfl rfl rfl rfl rfl
  | allocproc pid | freeproc =>
    exact accounted_opened (by simp [Op.apply, allocproc, freeproc]) rfl rfl rfl rfl rfl rfl
  | accountWait => exact h.accountWait ticks

theorem run_accounted (r : Run n) (p : Slot) (k : Nat) : Accounted ((r.state k).procs p) (ledger r p k) := by
  refine along_always enter opened r p (J := Accounted) ?_ (fun ticks op x g hpre hj => hj.op hpre) k
  simp only [boot]
  split <;> exact accounted_opened (by simp [procinit, userinit]) rfl rfl rfl rfl rfl rfl

structure InRange (g : Ledger) : Prop where
  charged : charged g < 2 ^ 64
  burst : g.burst < 2 ^ 32
  last : g.bursts.headD 0 < 2 ^ 32
  dispatches : g.dispatches < 2 ^ 64
  waits : g.waits < 2 ^ 64

theorem enter_le (op : Op) (x : Proc) (g : Ledger) : charged (enter op x g) ≤ charged g + 1 ∧
    (enter op x g).dispatches ≤ g.dispatches + 1 ∧ (enter op x g).waits ≤ g.waits + 1 := by
  cases op with
  | dispatch | accountWait =>
    simp only [enter]
    split <;> simp [charged]
  | _ => simp [enter, charged, opened] <;> omega

theorem inRange_of_le (hc : charged g < 2 ^ 32) (hd : g.dispatches < 2 ^ 64) (hw : g.waits < 2 ^ 64) :
    InRange g := by
  have hlast : g.bursts.headD 0 ≤ g.bursts.sum := by
    cases g.bursts with
    | nil => exact Nat.le_refl _
    | cons b bs => simp
  rw [charged] at hc
  exact ⟨by rw [charged]; omega, by omega, by omega, hd, hw⟩

def Young (x : Proc) : Prop := x.cputicks ≤ 1 ∧ x.schedCount ≤ 1 ∧ x.waitticks = 0

instance : DecidablePred Young := fun _ => inferInstanceAs (Decidable (_ ∧ _ ∧ _))

theorem inRange_of_young (r : Run n) (p : Slot) (h : ∀ k, Young ((r.state k).procs p)) (k : Nat) :
    InRange (ledger r p k) := by
  have hle : charged (ledger r p k) ≤ 2 ∧ (ledger r p k).dispatches ≤ 2 ∧ (ledger r p k).waits ≤ 2 := by
    induction k with
    | zero => exact ⟨Nat.zero_le _, Nat.zero_le _, Nat.zero_le _⟩
    | succ k ih =>
      obtain ⟨hc, hd, hw⟩ := h k
      have hacc := run_accounted r p k
      rw [hacc.ticks, u64_of_lt (by omega)] at hc
      rw [hacc.sched, u64_of_lt (by omega)] at hd
      rw [hacc.waits, u64_of_lt (by omega)] at hw
      cases hs : sectionAt r k p with
      | none =>
        rw [ledger, along_none enter opened r hs]
        exact ih
      | some op =>
        obtain ⟨hc', hd', hw'⟩ := enter_le op ((r.state k).procs p) (ledger r p k)
        have hl : ledger r p (k + 1) = enter op _ (ledger r p k) := along_section enter opened r hs
        rw [hl]
        exact ⟨by omega, by omega, by omega⟩
  exact inRange_of_le (by omega) (by omega) (by omega)

/-- Whatever other CPUs do, the counters of a process record its bursts, dispatches and waits. -/
theorem accounting_conserved (r : Run n) (p : Slot) (k : Nat) (hrange : InRange (ledger r p k)) :
    ((r.state k).procs p).cputicks = (ledger r p k).bursts.sum + ((r.state k).procs p).currentBurst ∧
      ((r.state k).procs p).currentBurst = (ledger r p k).burst ∧
      ((r.state k).procs p).lastBurst = (ledger r p k).bursts.headD 0 ∧
      ((r.state k).procs p).schedCount =
        ((r.state k).procs p).switches + (if ((r.state k).procs p).state = .running then 1 else 0) ∧
      ((r.state k).procs p).schedCount = (ledger r p k).dispatches ∧
      ((r.state k).procs p).waitticks = (ledger r p k).waits ∧
      (((r.state k).procs p).state ≠ .runnable → ((r.state k).procs p).waitticks = 0) := by
  have h := run_accounted r p k
  have hburst := h.burst.trans (u32_of_lt hrange.burst)
  have hwaits := h.waits.trans (u64_of_lt hrange.waits)
  have hsched := h.sched.trans (u64_of_lt hrange.dispatches)
  have hd := hrange.dispatches
  refine ⟨?_, hburst, h.last.trans (u32_of_lt hrange.last), ?_, hsched, hwaits, fun hn => ?_⟩
  · rw [h.ticks, u64_of_lt hrange.charged, hburst, charged]
  · rw [hsched]
    split
    · rename_i hr
      obtain ⟨d, heq, hsw⟩ := h.inside hr
      rw [hsw, heq, u64_of_lt (by omega)]
    · rename_i hr
      rw [h.outside hr, u64_of_lt hd, Nat.add_zero]
  · rw [hwaits, h.idle hn]

def preempted : Proc := yield 1 (chargeTick (turn 0 userinit))

theorem preempted_path : Path Kernel.step (Slots fun _ => Young) (boot 1)
    (put (boot 1) 0 ⟨none, .top⟩ (only preempted) 1) := by
  have hyoung : ∀ {x}, Young x → ∀ j, Young (only x j) := fun hx => only_all (by decide) hx
  have hturn := turn_kept (K := Young) (s := boot 1) (c := 0) (t := 0) (x := userinit) (fun _ => rfl) rfl
    (by decide) (by decide) (by decide) (by decide) (by decide)
  rw [← boot_put] at hturn
  have hmap := only_map (f := fun _ x => accountWait 1 (wakeup ticksChan x)) (fun _ => rfl) (turn 0 userinit)
  have htick := tick_path (K := fun _ => Young) (s := boot 1) (c := 0) (t := 0) (T := only (turn 0 userinit))
    (p := initproc) (fun _ => rfl) rfl (by rw [only_self]; rfl) (hyoung (by decide))
    (fun j hj => by rw [only_of_ne hj]; decide) (fun j hj => by rw [only_of_ne hj]; decide)
    (by rw [only_self]; decide)
  rw [show u32 (0 + 1) = 1 from rfl, hmap, only_update, only_self] at htick
  have hyield := yield_path (K := fun _ => Young) (s := boot 1) (c := 0) (t := 1)
    (T := only (chargeTick (turn 0 userinit))) (p := initproc) (hyoung (by decide)) rfl
    (by rw [only_self]; decide)
  rw [only_update, only_self] at hyield
  exact hturn.trans (htick.trans hyield)

theorem accounting_conserved_preempted : ∃ (r : Run 1) (k : Nat), InRange (ledger r initproc k) ∧
    ((r.state k).procs initproc).cputicks = 1 ∧
    ((r.state k).procs initproc).cputicks =
      (ledger r initproc k).bursts.sum + ((r.state k).procs initproc).currentBurst := by
  obtain ⟨r, k, hk, hyoung⟩ := preempted_path.exists_reached
  have hrange := inRange_of_young r initproc (fun j => hyoung j initproc) k
  refine ⟨r, k, hrange, ?_, (accounting_conserved r initproc k hrange).1⟩
  rw [hk, put_procs, only_self]
  decide

end AdaptiveXv6.Accounting
