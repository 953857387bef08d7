import AdaptiveXv6.SleepCycle
import AdaptiveXv6.Exclusion

namespace AdaptiveXv6.Pids

open Words Process Ops Machine Kernel Steps Exclusion Sweeps Rounds SleepCycle Runs Function

variable {n : Nat} {s t : Kernel n} {e : Event n} {x : Proc} {a : Nat}

def given : Event n → Nat → Nat
  | .allocproc _ _, a => a + 1
  | _, a => a

/-- How many pids allocproc() has given out, failed forks included. -/
def allocations (r : Run n) : Nat → Nat := r.history (fun _ e a => given e a) 0

theorem op_live {ticks : Nat} {op : Op} (hpre : op.Pre x) (hop : ∀ pid, op ≠ .allocproc pid)
    (h : (op.apply ticks x).state ≠ .unused) : x.state ≠ .unused ∧ (op.apply ticks x).pid = x.pid := by
  cases op with
  | allocproc pid => exact absurd rfl (hop pid)
  | freeproc => exact absurd rfl h
  | rescore | resume | wakeup | kkill | setkilled | makeRunnable | unlock =>
    rw [Ne, Op.idle_unused hpre rfl] at h
    exact ⟨h, (Op.idle_same rfl ticks x).pid⟩
  | chargeTick =>
    refine ⟨by rw [show x.state = .running from hpre]; simp, ?_⟩
    simp only [Op.apply, chargeTick, growEstimate]
    split <;> split <;> rfl
  | yield =>
    refine ⟨by rw [show x.state = .running from hpre]; simp, ?_⟩
    have hs := (sched_preempted_same ticks (yielding x) (by simp [yielding])).pid
    exact hs.trans (by split <;> rfl)
  | sleep chan =>
    refine ⟨by rw [show x.state = .running from hpre]; simp, ?_⟩
    exact (sched_completes_same ticks (fallingAsleep chan x) (.inl rfl)).pid
  | kexit status =>
    refine ⟨by rw [show x.state = .running from hpre]; simp, ?_⟩
    exact (sched_completes_same ticks (exiting status x) (.inr rfl)).pid
  | dispatch =>
    simp only [Op.apply, dispatch] at h ⊢
    split at h
    · rename_i hs
      exact ⟨by rw [hs]; simp, by rw [if_pos hs]⟩
    · rename_i hs
      exact ⟨h, by rw [if_neg hs]⟩
  | accountWait =>
    have hs := accountWait_same ticks x
    refine ⟨by rwa [Op.apply, accountWait_state] at h, ?_⟩
    rw [Op.apply, hs.pid]
    split <;> rfl

theorem opAt_allocproc {p : Slot} {pid : Int} (h : opAt s e p = some (.allocproc pid)) :
    ∃ c, e = .allocproc c p := by
  obtain ⟨m, k, hm, hk, rfl, hop⟩ := opAt_eq_some h
  cases hm with
  | allocproc c p =>
    cases hk
    exact ⟨c, rfl⟩
  | _ =>
    cases hk
    try cases hop

theorem step_allocating {c : Fin n} {p : Slot} (he : s.step (.allocproc c p) = some t) :
    (s.procs p).state = .unused ∧ t.nextpid = i32 (s.nextpid + 1) ∧
      t.procs = update s.procs p (allocproc s.nextpid s.ticks (s.procs p)) := by
  obtain ⟨m, hm, -, rfl⟩ := step_eq_some.mp he
  cases hm with
  | allocproc c p hpc hp => exact ⟨hp, rfl, rfl⟩

theorem step_nextpid (he : s.step e = some t) (hne : ∀ c p, e ≠ .allocproc c p) :
    t.nextpid = s.nextpid := by
  obtain ⟨m, hm, -, rfl⟩ := step_eq_some.mp he
  cases hm with
  | allocproc c p => exact absurd rfl (hne c p)
  | _ => rfl

theorem given_other (hne : ∀ c p, e ≠ .allocproc c p) (a : Nat) : given e a = a := by
  cases e with
  | allocproc c p => exact absurd rfl (hne c p)
  | _ => rfl

/-- Pids are given out in order, so the live ones lie below the next. -/
structure Numbered (s : Kernel n) (a : Nat) : Prop where
  range : ∀ p, (s.procs p).state ≠ .unused → 0 < (s.procs p).pid ∧ (s.procs p).pid ≤ a + 1
  distinct : ∀ p q, (s.procs p).state ≠ .unused → (s.procs q).state ≠ .unused →
    (s.procs p).pid = (s.procs q).pid → p = q

theorem boot_numbered (n : Nat) : Numbered (boot n) 0 := by
  have hinit : ∀ p, ((boot n).procs p).state ≠ .unused → p = initproc := by
    intro p hp
    by_contra hne
    simp [boot, hne, procinit] at hp
  refine ⟨?_, ?_⟩
  · intro p hp
    rw [hinit p hp]
    exact ⟨Int.one_pos, Int.le_refl _⟩
  · intro p q hp hq _
    rw [hinit p hp, hinit q hq]

theorem Numbered.keep (h : Numbered s a) (hlive : ∀ p, (t.procs p).state ≠ .unused →
    (s.procs p).state ≠ .unused ∧ (t.procs p).pid = (s.procs p).pid) : Numbered t a := by
  refine ⟨?_, ?_⟩
  · intro p hp
    rw [(hlive p hp).2]
    exact h.range p (hlive p hp).1
  · intro p q hp hq heq
    rw [(hlive p hp).2, (hlive q hq).2] at heq
    exact h.distinct p q (hlive p hp).1 (hlive q hq).1 heq

theorem Numbered.allocproc (h : Numbered s a) {p : Slot} {ticks : Nat} (hnext : s.nextpid = a + 2)
    (ht : t.procs = update s.procs p (allocproc s.nextpid ticks (s.procs p))) :
    Numbered t (a + 1) := by
  have hnew : (t.procs p).pid = a + 2 := by rw [ht, update_self]; exact hnext
  have hold : ∀ q, q ≠ p → t.procs q = s.procs q := fun q hq => by rw [ht, update_of_ne hq]
  -- an old pid is at most a + 1 and the new one is a + 2
  have hrange : ∀ q, q ≠ p → (t.procs q).state ≠ .unused →
      0 < (t.procs q).pid ∧ (t.procs q).pid ≤ a + 1 := by
    intro q hq hl
    rw [hold q hq] at hl ⊢
    exact h.range q hl
  refine ⟨?_, ?_⟩
  · intro q hl
    by_cases hq : q = p
    · rw [hq, hnew]
      omega
    · have := hrange q hq hl
      omega
  · intro q q' hl hl' heq
    by_cases hq : q = p
    · by_cases hq' : q' = p
      · rw [hq, hq']
      · have := hrange q' hq' hl'
        rw [hq, hnew] at heq
        omega
    · by_cases hq' : q' = p
      · have := hrange q hq hl
        rw [hq', hnew] at heq
        omega
      · rw [hold q hq] at hl heq
        rw [hold q' hq'] at hl' heq
        exact h.distinct q q' hl hl' heq

theorem i32_succ (z : Int) : i32 (i32 z + 1) = i32 (z + 1) := by
  simp [i32, BitVec.ofInt_add]

theorem run_numbered (r : Run n) (k : Nat) : Exclusive (r.state k) ∧
    (r.state k).nextpid = i32 (allocations r k + 2) ∧
    (allocations r k ≤ 2 ^ 31 - 2 → Numbered (r.state k) (allocations r k)) := by
  refine r.always_history (B := fun _ => True) (I := fun s (a : Nat) => Exclusive s ∧ s.nextpid = i32 (a + 2) ∧
    (a ≤ 2 ^ 31 - 2 → Numbered s a)) (fun _ => trivial) ⟨boot_exclusive n, rfl, fun _ => boot_numbered n⟩ ?_ k
  intro s e t a ⟨hx, hnext, hnum⟩ _ _ he
  refine ⟨hx.step he, ?_⟩
  by_cases halloc : ∃ c p, e = .allocproc c p
  · obtain ⟨c, p, rfl⟩ := halloc
    obtain ⟨-, hn, ht⟩ := step_allocating he
    refine ⟨?_, fun hle => ?_⟩
    · rw [hn, hnext, i32_succ]
      simp only [given]
      congr 1
    · simp only [given] at hle ⊢
      refine (hnum (by omega)).allocproc ?_ ht
      rw [hnext]
      exact i32_of_range (by omega) (by omega)
  · have hne : ∀ c p, e ≠ .allocproc c p := fun c p h => halloc ⟨c, p, h⟩
    rw [given_other hne, step_nextpid he hne]
    refine ⟨hnext, fun hle => (hnum hle).keep ?_⟩
    intro p hp
    rw [step_procs he] at hp ⊢
    cases ho : opAt s e p with
    | none =>
      rw [ho] at hp
      exact ⟨hp, rfl⟩
    | some op =>
      rw [ho] at hp
      refine op_live (hx.pre ho) ?_ hp
      rintro pid rfl
      obtain ⟨c, rfl⟩ := opAt_allocproc ho
      exact hne c p rfl

/-- Until the pid counter passes the largest int, every process has a positive pid of its own. -/
theorem pids_distinct (r : Run n) (k : Nat) (h : allocations r k ≤ 2 ^ 31 - 2) (p q : Slot)
    (hp : ((r.state k).procs p).state ≠ .unused) (hq : ((r.state k).procs q).state ≠ .unused) :
    0 < ((r.state k).procs p).pid ∧ (((r.state k).procs p).pid = ((r.state k).procs q).pid → p = q) :=
  have hnum := (run_numbered r k).2.2 h
  ⟨(hnum.range p hp).1, hnum.distinct p q hp hq⟩

theorem allocations_le (r : Run n) {M : Nat} (hM : M + 2 < 2 ^ 31) (h : ∀ k p, ((r.state k).procs p).pid ≤ M)
    (k : Nat) : allocations r k ≤ M := by
  induction k with
  | zero => exact Nat.zero_le _
  | succ k ih =>
    cases he : r.event k with
    | none =>
      rw [allocations, r.history_no_event _ _ he]
      exact ih
    | some e =>
      rw [allocations, r.history_event _ _ he]
      change given e (allocations r k) ≤ M
      by_cases halloc : ∃ c p, e = .allocproc c p
      · obtain ⟨c, p, rfl⟩ := halloc
        obtain ⟨-, -, ht⟩ := step_allocating (r.step_of_event he)
        -- the pid just given out is the count plus two
        have hpid := h (k + 1) p
        rw [ht, update_self] at hpid
        change (r.state k).nextpid ≤ M at hpid
        rw [(run_numbered r k).2.1, i32_of_range (by omega) (by omega)] at hpid
        simp only [given]
        omega
      · rw [given_other (fun c p h => halloc ⟨c, p, h⟩)]
        exact ih

theorem pids_distinct_forked : ∃ (r : Run 1) (k : Nat), allocations r k ≤ 2 ^ 31 - 2 ∧
    ((r.state k).procs initproc).pid ≠ ((r.state k).procs 1).pid := by
  have hturn := turn_kept (K := fun x => x.pid ≤ 2) (s := boot 1) (c := 0) (t := 0) (x := userinit)
    (fun _ => rfl) rfl (by decide) (by decide) (by decide) (by decide) (by decide)
  have hfork := fork_path (K := fun _ x => x.pid ≤ 2) (s := boot 1) (c := 0) (t := 0) (q := 1)
    (a := some initproc) (T := only (turn 0 userinit)) rfl rfl
    (only_all (K := fun x => x.pid ≤ 2) (by decide) (by decide)) (by decide) (by decide)
  rw [← boot_put] at hturn
  obtain ⟨r, k, hk, hsmall⟩ := (hturn.trans hfork).exists_reached
  have hle : allocations r k ≤ 2 ^ 31 - 2 := by
    have := allocations_le r (M := 2) (by decide) hsmall k
    omega
  refine ⟨r, k, hle, fun heq => ?_⟩
  have hinit : ((r.state k).procs initproc).state ≠ .unused := by
    rw [hk, put_procs, update_of_ne (by decide), only_self]
    decide
  have hchild : ((r.state k).procs 1).state ≠ .unused := by
    rw [hk, put_procs, update_self]
    decide
  exact absurd ((pids_distinct r k hle initproc 1 hinit hchild).2 heq) (by decide)

def freed : Proc := freeproc (allocproc 0 0 procinit)

theorem freed_eq (pid : Int) (ticks : Nat) (x : Proc) : freeproc (allocproc pid ticks x) = freed := rfl

def alone (q : Slot) : Slot → Proc := update (only (turn 0 userinit)) q freed

theorem forkFails_path (N : Nat) : ∃ s : Kernel 1, (∀ i, s.lock i = none) ∧ s.nextpid = i32 (N + 3) ∧
    Path Kernel.step (Slots Any) (boot 1) (put s 0 ⟨some initproc, .running⟩ (alone 1) 0) := by
  induction N with
  | zero =>
    have hturn := (turn_only (s := boot 1) (c := 0) (t := 0) (x := userinit) (fun _ => rfl) rfl rfl).mono
      (J := Slots Any) (fun _ _ _ => trivial)
    have hfail := forkFail_path (K := Any) (s := boot 1) (c := 0) (t := 0) (q := 1)
      (a := some initproc) (T := only (turn 0 userinit)) rfl rfl (fun _ => trivial) trivial trivial
    rw [← boot_put] at hturn
    exact ⟨numbered (boot 1), fun _ => rfl, rfl, hturn.trans hfail⟩
  | succ N ih =>
    obtain ⟨s, hlock, hnext, hpath⟩ := ih
    have hfail := forkFail_path (K := Any) (s := s) (c := 0) (t := 0) (q := 1) (a := some initproc)
      (T := alone 1) (hlock 1) (by rw [alone, update_self]; rfl) (fun _ => trivial) trivial trivial
    rw [freed_eq, alone, update_idem] at hfail
    refine ⟨numbered s, hlock, ?_, hpath.trans hfail⟩
    simp only [numbered, hnext, i32_succ]
    congr 1

theorem child_pid (N : Nat) : ∃ (r : Run 1) (k : Nat), ((r.state k).procs initproc).state = .running ∧
    ((r.state k).procs initproc).pid = 1 ∧ ((r.state k).procs 1).state = .runnable ∧
    ((r.state k).procs 1).pid = i32 (N + 3) := by
  obtain ⟨s, hlock, hnext, hpath⟩ := forkFails_path N
  have hfork := fork_path (K := Any) (s := s) (c := 0) (t := 0) (q := 1) (a := some initproc)
    (T := alone 1) (hlock 1) (by rw [alone, update_self]; rfl) (fun _ => trivial) trivial trivial
  obtain ⟨r, k, hk, -⟩ := (hpath.trans hfork).exists_reached
  have hinit : (r.state k).procs initproc = turn 0 userinit := by
    rw [hk, put_procs, update_of_ne (by decide), alone, update_of_ne (by decide), only_self]
  have hchild : (r.state k).procs 1 = newborn s.nextpid 0 (alone 1 1) := by
    rw [hk, put_procs, update_self]
  refine ⟨r, k, by rw [hinit]; rfl, by rw [hinit]; rfl, by rw [hchild]; rfl, ?_⟩
  rw [hchild, ← hnext]
  rfl

/-- After enough forks a child gets a negative pid, and after twice as many the pid
of the first process. -/
theorem pids_wrap :
    (∃ (r : Run 1) (k : Nat) (p : Slot), ((r.state k).procs p).state ≠ .unused ∧
      ((r.state k).procs p).pid < 0) ∧
    (∃ (r : Run 1) (k : Nat) (p q : Slot), p ≠ q ∧ ((r.state k).procs p).state ≠ .unused ∧
      ((r.state k).procs q).state ≠ .unused ∧ ((r.state k).procs p).pid = ((r.state k).procs q).pid) := by
  refine ⟨?_, ?_⟩
  · obtain ⟨r, k, -, -, hs, hpid⟩ := child_pid (2 ^ 31 - 3)
    exact ⟨r, k, 1, by rw [hs]; simp, by rw [hpid]; decide⟩
  · obtain ⟨r, k, hi, hone, hs, hpid⟩ := child_pid (2 ^ 32 - 2)
    exact ⟨r, k, initproc, 1, by decide, by rw [hi]; simp, by rw [hs]; simp, by rw [hone, hpid]; decide⟩

end AdaptiveXv6.Pids
