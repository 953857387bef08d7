import Mathlib.Data.List.FinRange
import AdaptiveXv6.SlotHistory

namespace AdaptiveXv6.KillTargets

open Process Ops Machine Kernel SlotHistory Runs Function

variable {n : Nat} {pid : Int} {T : Slot → Proc} {l : List Slot}

def kkillFrom (pid : Int) (T : Slot → Proc) : List Slot → Int × (Slot → Proc)
  | [] => (-1, T)
  | i :: rest =>
    if (T i).pid = pid then (0, update T i (Ops.kkill pid (T i))) else kkillFrom pid T rest

def kkill (pid : Int) (T : Slot → Proc) : Int × (Slot → Proc) := kkillFrom pid T (List.finRange NPROC)

theorem kkillFrom_cases (pid : Int) (T : Slot → Proc) {l : List Slot} (hl : l.Pairwise (· < ·)) :
    (∃ p ∈ l, (T p).pid = pid ∧ (∀ q ∈ l, q < p → (T q).pid ≠ pid) ∧
      kkillFrom pid T l = (0, update T p (Ops.kkill pid (T p)))) ∨
      (∀ p ∈ l, (T p).pid ≠ pid) ∧ kkillFrom pid T l = (-1, T) := by
  induction l with
  | nil => exact .inr ⟨fun p hp => (by cases hp), rfl⟩
  | cons i rest ih =>
    obtain ⟨hi, hrest⟩ := List.pairwise_cons.mp hl
    rw [kkillFrom]
    by_cases hpid : (T i).pid = pid
    · rw [if_pos hpid]
      refine .inl ⟨i, List.mem_cons_self, hpid, fun q hq hlt => ?_, rfl⟩
      rcases List.mem_cons.mp hq with rfl | hq
      · exact absurd hlt (Nat.lt_irrefl q)
      · exact absurd (hi q hq) (Nat.lt_asymm hlt)
    · rw [if_neg hpid]
      rcases ih hrest with ⟨p, hp, hfound, hfirst, heq⟩ | ⟨hnone, heq⟩
      · refine .inl ⟨p, List.mem_cons_of_mem i hp, hfound, fun q hq hlt => ?_, heq⟩
        rcases List.mem_cons.mp hq with rfl | hq
        · exact hpid
        · exact hfirst q hq hlt
      · exact .inr ⟨List.forall_mem_cons.mpr ⟨hpid, hnone⟩, heq⟩

theorem kkill_cases (pid : Int) (T : Slot → Proc) :
    (∃ p, (T p).pid = pid ∧ (∀ q < p, (T q).pid ≠ pid) ∧
      kkill pid T = (0, update T p (Ops.kkill pid (T p)))) ∨
      (∀ p, (T p).pid ≠ pid) ∧ kkill pid T = (-1, T) := by
  rcases kkillFrom_cases pid T (List.pairwise_lt_finRange NPROC) with ⟨p, -, hpid, hfirst, heq⟩ | ⟨hnone, heq⟩
  · exact .inl ⟨p, hpid, fun q => hfirst q (List.mem_finRange q), heq⟩
  · exact .inr ⟨fun p => hnone p (List.mem_finRange p), heq⟩

theorem unused_pid_op {ticks : Nat} {op : Op} {x : Proc} (hpre : op.Pre x)
    (hx : x.state = .unused → x.pid = 0) : (op.apply ticks x).state = .unused → (op.apply ticks x).pid = 0 := by
  intro h
  cases op with
  | freeproc => rfl
  | rescore | resume | wakeup | kkill | setkilled | makeRunnable | unlock =>
    rw [Op.idle_unused hpre rfl] at h
    exact (Op.idle_same rfl ticks x).pid.trans (hx h)
  | dispatch =>
    have hne : x.state ≠ .runnable := by
      intro hr
      simp [Op.apply, Ops.dispatch, hr] at h
    simp only [Op.apply, Ops.dispatch, if_neg hne] at h ⊢
    exact hx h
  | accountWait =>
    rw [Op.apply, accountWait_state] at h
    rw [Op.apply, Ops.accountWait, if_neg (by simp [h])]
    exact hx h
  | chargeTick =>
    have hr : x.state = .running := hpre
    simp [Op.apply, hr] at h
  | yield | sleep | kexit | allocproc => simp [Op.apply, Process.allocproc] at h

theorem unused_pid (r : Run n) (p : Slot) (k : Nat) :
    ((r.state k).procs p).state = .unused → ((r.state k).procs p).pid = 0 := by
  refine slot_always r p (Q := fun _ => True) (J := fun x _ => x.state = .unused → x.pid = 0)
    (fun _ => trivial) ?_ (fun ticks op x g hpre hj _ _ => unused_pid_op hpre hj) k
  simp only [boot]
  split
  · intro h
    cases h
  · exact fun _ => rfl

/-- What kill() is to do: it succeeds just if a process has the pid, and changes at most that process. -/
def HitsTarget (pid : Int) (T : Slot → Proc) : Prop :=
  ((kkill pid T).1 = 0 ↔ ∃ p, (T p).state ≠ .unused ∧ (T p).pid = pid) ∧
  ((kkill pid T).1 = 0 → ∃ p, (T p).state ≠ .unused ∧ (T p).pid = pid ∧
    (kkill pid T).2 = update T p { T p with
      killed := true
      state := if (T p).state = .sleeping then .runnable else (T p).state }) ∧
  ((kkill pid T).1 ≠ 0 → (kkill pid T).1 = -1 ∧ (kkill pid T).2 = T)

theorem hitsTarget_of_live (h : ∀ p, (T p).pid = pid → (∀ q < p, (T q).pid ≠ pid) → (T p).state ≠ .unused) :
    HitsTarget pid T := by
  rw [HitsTarget]
  rcases kkill_cases pid T with ⟨p, hp, hfirst, heq⟩ | ⟨hnone, heq⟩
  · have hlive := h p hp hfirst
    rw [heq]
    refine ⟨iff_of_true rfl ⟨p, hlive, hp⟩, fun _ => ⟨p, hlive, hp, ?_⟩, fun h => absurd rfl h⟩
    dsimp only
    rw [Ops.kkill, if_pos hp]
  · rw [heq]
    refine ⟨iff_of_false (by simp) ?_, fun h => by simp at h, fun _ => ⟨rfl, rfl⟩⟩
    rintro ⟨p, -, hp⟩
    exact hnone p hp

theorem kkill_unused {p : Slot} (hu : (T p).state = .unused) (hp : (T p).pid = pid)
    (hfirst : ∀ q < p, (T q).pid ≠ pid) : kkill pid T = (0, update T p { T p with killed := true }) := by
  rcases kkill_cases pid T with ⟨p', hp', hfirst', heq⟩ | ⟨hnone, -⟩
  · obtain rfl : p' = p := by
      rcases Nat.lt_trichotomy p'.val p.val with h | h | h
      · exact absurd hp' (hfirst p' h)
      · exact Fin.ext h
      · exact absurd hp (hfirst' p h)
    have hs : (T p').state ≠ .sleeping := by simp [hu]
    rw [heq, Ops.kkill, if_pos hp, if_neg hs]
  · exact absurd hp (hnone p)

theorem hitsTarget_iff_of_unused {p : Slot} (hu : (T p).state = .unused) (hp : (T p).pid = pid)
    (hfirst : ∀ q < p, (T q).pid ≠ pid) :
    HitsTarget pid T ↔ (T p).killed = true ∧
      ∃ q, (T q).state ≠ .unused ∧ (T q).pid = pid ∧ (T q).killed = true ∧ (T q).state ≠ .sleeping := by
  have hkill := kkill_unused hu hp hfirst
  constructor
  · rintro ⟨-, hhit, -⟩
    rw [hkill] at hhit
    obtain ⟨q, hq, hqpid, heq⟩ := hhit rfl
    have hne : q ≠ p := by
      rintro rfl
      exact hq hu
    have hatp := congrFun heq p
    have hatq := congrFun heq q
    simp only [update_self, update_of_ne hne, update_of_ne hne.symm] at hatp hatq
    have hkilled : (T q).killed = true := by rw [hatq]
    have hstate := congrArg Proc.state hatq
    refine ⟨by rw [← hatp], q, hq, hqpid, hkilled, fun hs => ?_⟩
    simp [hs] at hstate
  · rintro ⟨hkilled, q, hq, hqpid, hqkilled, hs⟩
    have hsame : kkill pid T = (0, T) := by
      rw [hkill, ← hkilled]
      exact congrArg (Prod.mk 0) (update_eq_self p T)
    rw [HitsTarget, hsame]
    refine ⟨iff_of_true rfl ⟨q, hq, hqpid⟩, fun _ => ⟨q, hq, hqpid, ?_⟩, fun h => absurd rfl h⟩
    dsimp only
    rw [if_neg hs, ← hqkilled]
    exact (update_eq_self q T).symm

/-- The call kill(0) goes wrong where a free slot comes before every process with the pid 0, unless all that
is to be done has been done before. -/
theorem kill_hits_target (r : Run n) (k : Nat) (pid : Int) :
    HitsTarget pid (r.state k).procs ↔
      (pid = 0 → ∀ p, ((r.state k).procs p).state = .unused → (∀ q < p, ((r.state k).procs q).pid ≠ 0) →
        ((r.state k).procs p).killed = true ∧ ∃ q, ((r.state k).procs q).state ≠ .unused ∧
          ((r.state k).procs q).pid = 0 ∧ ((r.state k).procs q).killed = true ∧
          ((r.state k).procs q).state ≠ .sleeping) := by
  constructor
  · rintro h rfl p hu hfirst
    exact (hitsTarget_iff_of_unused hu (unused_pid r p k hu) hfirst).mp h
  · intro h
    by_cases hex : ∃ p, ((r.state k).procs p).state = .unused ∧ ((r.state k).procs p).pid = pid ∧
        ∀ q < p, ((r.state k).procs q).pid ≠ pid
    · obtain ⟨p, hu, hp, hfirst⟩ := hex
      obtain rfl : pid = 0 := hp.symm.trans (unused_pid r p k hu)
      exact (hitsTarget_iff_of_unused hu hp hfirst).mpr (h rfl p hu hfirst)
    · exact hitsTarget_of_live fun p hp hfirst hu => hex ⟨p, hu, hp, hfirst⟩

/-- After boot kill(0) succeeds, although no process has the pid 0, and marks a free slot. -/
theorem kill_hits_unused : ∃ r : Run 1,
    (¬∃ p, ((r.state 0).procs p).state ≠ .unused ∧ ((r.state 0).procs p).pid = 0) ∧
    (kkill 0 (r.state 0).procs).1 = 0 ∧ ∃ p, ((r.state 0).procs p).state = .unused ∧
      ((r.state 0).procs p).killed = false ∧ ((kkill 0 (r.state 0).procs).2 p).killed = true := by
  refine ⟨Run.still Kernel.step (boot 1), ?_, by decide +kernel, 1, by decide, by decide, by decide +kernel⟩
  rintro ⟨p, hstate, hp⟩
  by_cases hi : p = initproc
  · rw [hi] at hp
    exact absurd hp (by decide)
  · refine hstate ?_
    change (if p = initproc then userinit else procinit).state = .unused
    rw [if_neg hi]
    rfl

end AdaptiveXv6.KillTargets
