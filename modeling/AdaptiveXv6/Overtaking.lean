import AdaptiveXv6.Passes
import AdaptiveXv6.Estimator

namespace AdaptiveXv6.Overtaking

open Words Process Ops Machine Kernel Steps SlotHistory Estimator Waiting Scan Passes FirstMax Runs Sweeps
  Rounds RoundRobin Rotation

variable {s t : Kernel 1} {e : Event 1} {p q : Slot}

def Scanning (s : Kernel 1) : Prop :=
  ∀ m b, progress (s.pc 0) = some (m, b) → Leads (fun p => candidate (s.procs p)) m (-1) b

theorem Scanning.step (h : Scanning s) (hs : s.step e = some t) : Scanning t := by
  intro m b hp
  rcases progress_inv hs hp with ⟨-, hm, hb⟩ | ⟨i, b', -, hpc, hm, hb, hcand⟩ | ⟨hother, -⟩
  · rw [hm, hb]
    exact leads_zero _ _
  · rw [hm, hb, hcand]
    exact (h i.val b' (by rw [hpc]; rfl)).improve i.isLt
  · obtain ⟨mv, -, hcpu⟩ := hother
    exact absurd (Subsingleton.elim _ _) hcpu

theorem run_scanning (r : Run 1) (k : Nat) : Scanning (r.state k) :=
  r.always (fun m b hp => by cases hp) (fun _ _ _ h hs => h.step hs) k

variable (r : Run 1) {j k : Nat}

theorem dispatch_first (hd : DispatchedBy r 0 j p)
    (hq : ((r.state j).procs q).state = .runnable) :
    calcDynamicPriority ((r.state j).procs q) ≤ calcDynamicPriority ((r.state j).procs p) ∧
      (calcDynamicPriority ((r.state j).procs q) = calcDynamicPriority ((r.state j).procs p) → p ≤ q) := by
  obtain ⟨prio, hpc⟩ := hd.place
  have hl := run_scanning r j NPROC (some p, prio) (by rw [hpc]; rfl)
  obtain ⟨-, hp⟩ := hl.chosen p rfl
  obtain ⟨-, hprio⟩ := candidate_eq_some.mp hp
  have hcq : candidate ((r.state j).procs q) = some (calcDynamicPriority ((r.state j).procs q)) :=
    candidate_eq_some.mpr ⟨hq, rfl⟩
  rw [hprio]
  refine ⟨hl.above q _ q.isLt hcq, ?_⟩
  intro heq
  by_contra hlt
  have hfirst := hl.first p q _ rfl (not_le.mp hlt) hcq
  rw [heq] at hfirst
  exact absurd hfirst (lt_irrefl _)

def lag (p q : Slot) : Pc → Nat
  | .accounting i _ => if p < i ∧ i ≤ q then 1 else 0
  | _ => 0

theorem lag_afterAccount (i : Slot) (ret : Ret) :
    lag p q (afterAccount i ret) = if p ≤ i ∧ i < q then 1 else 0 := by
  unfold afterAccount next?
  by_cases h : i.val + 1 < NPROC
  · simp only [dif_pos h, lag, Fin.lt_def, Fin.le_def]
    congr 1
    simp only [Nat.lt_succ_iff, Nat.succ_le_iff]
  · have hi : ¬(p ≤ i ∧ i < q) := by
      have := q.isLt
      rw [Fin.lt_def]
      omega
    rw [dif_neg h, if_neg hi]
    cases ret <;> rfl

theorem waitticks_op (ticks : Nat) {op : Op} (x : Proc) (h : op ≠ .accountWait) :
    (op.apply ticks x).waitticks ≤ x.waitticks := by
  cases op with
  | accountWait => exact absurd rfl h
  | rescore | resume | wakeup | kkill | setkilled | makeRunnable | unlock =>
    exact Nat.le_of_eq (Op.idle_same rfl ticks x).waitticks
  | dispatch =>
    simp only [Op.apply, dispatch]
    split
    · exact Nat.zero_le _
    · exact Nat.le_refl _
  | chargeTick =>
    simp only [Op.apply, chargeTick, growEstimate]
    split <;> split <;> exact Nat.le_refl _
  | yield => exact Nat.le_of_eq (sched_waitticks _ _)
  | sleep chan => exact Nat.le_of_eq (sched_waitticks _ _)
  | kexit status => exact Nat.le_of_eq (sched_waitticks _ _)
  | allocproc pid | freeproc => exact Nat.zero_le _

theorem waitticks_section (h : sectionAt r k p ≠ some .accountWait) :
    ((r.state (k + 1)).procs p).waitticks ≤ ((r.state k).procs p).waitticks := by
  cases hs : sectionAt r k p with
  | none => rw [section_none r hs]
  | some op =>
    rw [section_apply r hs]
    exact waitticks_op _ _ (fun ho => h (by rw [hs, ho]))

theorem waitticks_account (h : sectionAt r k p = some .accountWait) :
    ((r.state (k + 1)).procs p).waitticks ≤ ((r.state k).procs p).waitticks + 1 := by
  have ha := accountWait_same (r.state k).ticks ((r.state k).procs p)
  rw [section_apply r h, Op.apply, ha.waitticks]
  split
  · exact Nat.mod_le _ _
  · exact Nat.le_succ _

theorem account_place (h : sectionAt r k p = some .accountWait) :
    ∃ ret, (r.state k).pc 0 = .accounting p ret ∧ (r.state (k + 1)).pc 0 = afterAccount p ret := by
  obtain ⟨e, he, hop⟩ := Option.bind_eq_some_iff.mp h
  obtain ⟨mv, sec, hm, hcrit, hslot, hsec⟩ := opAt_eq_some hop
  obtain ⟨mv', hm', -, hst⟩ := step_eq_some.mp (r.step_of_event he)
  cases hm with
  | accountVisit c i ret hc =>
    have hc0 : c = 0 := Subsingleton.elim _ _
    subst hc0
    cases hcrit
    cases hslot
    refine ⟨ret, hc, ?_⟩
    cases hm' with
    | accountVisit _ i' ret' hc' =>
      rw [hc] at hc'
      cases hc'
      rw [hst, perform_pc]
      exact if_pos rfl
  | startPass | pickNone | interrupt | timerTop | timerProc | timerOther | wakeupTop | wakeupProc
  | wakeupSelf | uncharged => cases hcrit
  | visit | pickGone | pick | resume | wakeupVisit | charge | yield | sleep | kexit | swtch | kkill
  | setkilled | allocproc | forkFail | forkDone | forkRun | kwait =>
    cases hcrit
    cases hsec

theorem accounting_section {i : Slot} {ret : Ret} (hpc : (r.state k).pc 0 = .accounting i ret)
    (he : r.event k = some e) :
    sectionAt r k i = some .accountWait ∧ ∀ x, x ≠ i → sectionAt r k x = none := by
  obtain ⟨mv, hm, -, -⟩ := step_eq_some.mp (r.step_of_event he)
  cases hm with
  | accountVisit c i' ret' hc =>
    have hc0 : c = 0 := Subsingleton.elim _ _
    subst hc0
    have hmove := move_of_moves (.accountVisit 0 i' ret' hc)
    rw [hpc] at hc
    cases hc
    refine ⟨?_, ?_⟩
    · simp [sectionAt, he, opAt, hmove, Kernel.locked]
    · intro x hx
      simp [sectionAt, he, opAt, hmove, Kernel.locked, Ne.symm hx]
  | startPass c hc | visit c i b pr hc | pickNone c pr hc | pickGone c x pr hc | pick c x pr hc
  | interrupt c hc | resume c x hc | timerTop c hc | timerProc c hc | timerOther c hc
  | wakeupTop c ch hc | wakeupProc c ch hc | wakeupSelf c ch x b rt hc | wakeupVisit c ch x b rt hc
  | charge c x hc | uncharged c x hc | yield c x hc | sleep c x ch hc | kexit c x st hc | swtch c x hc
  | kkill c pid x hc | setkilled c x hc | allocproc c x hc | forkFail c x hc | forkDone c x hc
  | forkRun c x hc | kwait c x hc =>
    rw [Subsingleton.elim c 0, hpc] at hc
    cases hc

theorem lag_step (hpq : p < q) (hq : ((r.state k).procs q).state = .runnable)
    (hq' : ((r.state (k + 1)).procs q).state = .runnable)
    (hw : ((r.state k).procs q).waitticks + 1 < 2 ^ 64) :
    ((r.state (k + 1)).procs p).waitticks + ((r.state k).procs q).waitticks +
        lag p q ((r.state k).pc 0) ≤
      ((r.state k).procs p).waitticks + ((r.state (k + 1)).procs q).waitticks +
        lag p q ((r.state (k + 1)).pc 0) := by
  cases he : r.event k with
  | none => rw [r.state_of_no_event he]
  | some e =>
    obtain ⟨hge, -, -, -⟩ := waits_step r hq hq' hw
    by_cases hacc : ∃ i ret, (r.state k).pc 0 = .accounting i ret
    · obtain ⟨i, ret, hpc⟩ := hacc
      obtain ⟨hi, hother⟩ := accounting_section r hpc he
      obtain ⟨ret', hpc', hafter⟩ := account_place r hi
      rw [hpc, hafter, lag_afterAccount]
      have hqstep : q = i → ((r.state (k + 1)).procs q).waitticks = ((r.state k).procs q).waitticks + 1 := by
        rintro rfl
        have ha := accountWait_same (r.state k).ticks ((r.state k).procs q)
        rw [if_pos hq] at ha
        rw [section_apply r hi, Op.apply, ha.waitticks]
        exact u64_of_lt hw
      have hpstep : ((r.state (k + 1)).procs p).waitticks ≤
          ((r.state k).procs p).waitticks + if p = i then 1 else 0 := by
        by_cases hpi : p = i
        · rw [if_pos hpi]
          exact waitticks_account r (by rw [hpi]; exact hi)
        · rw [if_neg hpi, section_none r (hother p hpi)]
          exact Nat.le_refl _
      simp only [lag, Fin.lt_def, Fin.le_def, Fin.ext_iff] at hpq hqstep hpstep ⊢
      split at hpstep <;> split <;> split <;> omega
    · have hnone : ∀ x, sectionAt r k x ≠ some .accountWait := by
        intro x hx
        obtain ⟨ret, hpc, -⟩ := account_place r hx
        exact hacc ⟨x, ret, hpc⟩
      have hlag : lag p q ((r.state k).pc 0) = 0 := by
        unfold lag
        split
        · exact absurd ⟨_, _, ‹_›⟩ hacc
        · rfl
      have hp := waitticks_section r (hnone p)
      omega

theorem lag_run (hpq : p < q) {i : Nat} (hij : i ≤ j)
    (hq : ∀ k, i ≤ k → k ≤ j → ((r.state k).procs q).state = .runnable)
    (hw : ∀ k, i ≤ k → k ≤ j → ((r.state k).procs q).waitticks < 2 ^ 29) :
    ((r.state j).procs p).waitticks + ((r.state i).procs q).waitticks + lag p q ((r.state i).pc 0) ≤
      ((r.state i).procs p).waitticks + ((r.state j).procs q).waitticks + lag p q ((r.state j).pc 0) := by
  induction j, hij using Nat.le_induction with
  | base => exact Nat.le_refl _
  | succ j hij ih =>
    have h := ih (fun k hk hkj => hq k hk (by omega)) (fun k hk hkj => hw k hk (by omega))
    have hlt := hw j hij (Nat.le_succ j)
    have hstep := lag_step r hpq (hq j hij (Nat.le_succ j)) (hq (j + 1) (by omega) (Nat.le_refl _))
      (by omega)
    omega

section Saturated

variable {i l : Nat} (hb : BurstsBelow r (2 ^ 31))
  (hq : ∀ k, i ≤ k → k ≤ l → ((r.state k).procs q).state = .runnable)
  (hw : ∀ k, i ≤ k → k ≤ l → ((r.state k).procs q).waitticks < 2 ^ 29)
  (hmax : calcDynamicPriority ((r.state i).procs q) = MAX_PRIORITY)

include hb hq hw hmax

theorem dispatch_saturated (hij : i ≤ j) (hjl : j ≤ l) (hne : p ≠ q) (hd : DispatchedBy r 0 j p) :
    p < q ∧ calcDynamicPriority ((r.state j).procs p) = MAX_PRIORITY := by
  have hest := (run_estimated r (Nat.le_refl _) hb q j).below
  obtain ⟨-, -, -, hmono⟩ := waits_score r hij (fun k hk hkj => hq k hk (by omega))
    (fun k hk hkj => hw k hk (by omega)) hest
  obtain ⟨hle, hfirst⟩ := dispatch_first r hd (hq j hij hjl)
  have hbq := (calcDynamicPriority_bounds ((r.state j).procs q)).2
  have hbp := (calcDynamicPriority_bounds ((r.state j).procs p)).2
  rw [hmax, MAX_PRIORITY] at hmono
  have hp : calcDynamicPriority ((r.state j).procs p) = 100 := by omega
  exact ⟨lt_of_le_of_ne (hfirst (by omega)) hne, hp⟩

theorem dispatch_again {j₁ j₂ : Nat} (hi : i ≤ j₁) (hj : j₁ < j₂) (hl : j₂ ≤ l)
    (h₁ : DispatchedBy r 0 j₁ p) (h₂ : DispatchedBy r 0 j₂ p) :
    ((r.state j₁).procs q).waitticks + 25 ≤ ((r.state j₂).procs q).waitticks := by
  have hdisp : (r.state (j₁ + 1)).procs p = dispatch (r.state j₁).ticks ((r.state j₁).procs p) :=
    section_apply r h₁.2.1
  have hzero : ((r.state (j₁ + 1)).procs p).waitticks = 0 := by
    rw [hdisp, dispatch, if_pos h₁.2.2]
  have hne : p ≠ q := by
    rintro rfl
    have hrun := hq (j₁ + 1) (by omega) (by omega)
    rw [hdisp, dispatch_state, if_pos h₁.2.2] at hrun
    cases hrun
  obtain ⟨hpq, hscore⟩ := dispatch_saturated r hb hq hw hmax (by omega) hl hne h₂
  have hlag := lag_run r hpq (show j₁ + 1 ≤ j₂ from hj) (fun k hk hkj => hq k (by omega) (by omega))
    (fun k hk hkj => hw k (by omega) (by omega))
  have hwq₁ := hw j₁ (by omega) (by omega)
  have hwq₂ := hw j₂ (by omega) (by omega)
  obtain ⟨hge, -, -, -⟩ := waits_step r (hq j₁ hi (by omega)) (hq (j₁ + 1) (by omega) (by omega))
    (by omega)
  obtain ⟨prio, hpc⟩ := h₂.place
  have hlag₂ : lag p q ((r.state j₂).pc 0) = 0 := by rw [hpc]; rfl
  rw [hzero, hlag₂] at hlag
  -- p itself must have waited 25 ticks to be saturated again
  have hest := (run_estimated r (Nat.le_refl _) hb p j₂).below
  have hbase := (basePriority_bounds ((r.state j₂).procs p).procType).2
  rw [calcDynamicPriority_eq_max_iff, rawPriority_eq (by omega) hest, MAX_PRIORITY] at hscore
  omega

end Saturated

/-- On one CPU, while q waits at MAX_PRIORITY from position i to l, every other process dispatched is in a
lower slot and at MAX_PRIORITY too, and q waits at least 25 ticks between two dispatches of the same process.
-/
theorem overtaking_bounded (r : Run 1) (hb : BurstsBelow r (2 ^ 31)) {i l : Nat} {q : Slot}
    (hq : ∀ k, i ≤ k → k ≤ l → ((r.state k).procs q).state = .runnable)
    (hw : ∀ k, i ≤ k → k ≤ l → ((r.state k).procs q).waitticks < 2 ^ 29)
    (hmax : calcDynamicPriority ((r.state i).procs q) = MAX_PRIORITY) :
    (∀ j p, i ≤ j → j ≤ l → p ≠ q → DispatchedBy r 0 j p →
      p < q ∧ calcDynamicPriority ((r.state j).procs p) = MAX_PRIORITY) ∧
    (∀ j₁ j₂ p, i ≤ j₁ → j₁ < j₂ → j₂ ≤ l → DispatchedBy r 0 j₁ p → DispatchedBy r 0 j₂ p →
      ((r.state j₁).procs q).waitticks + 25 ≤ ((r.state j₂).procs q).waitticks) :=
  ⟨fun _ _ hij hjl hne hd => dispatch_saturated r hb hq hw hmax hij hjl hne hd,
    fun _ _ _ hi hj hl h₁ h₂ => dispatch_again r hb hq hw hmax hi hj hl h₁ h₂⟩

theorem rotation_overtakes : ∃ (r : Run 1) (i j : Nat), i < j ∧
    DispatchedBy r 0 i 0 ∧ DispatchedBy r 0 j 0 ∧
    (∀ k, Slots Short (r.state k)) ∧
    Expected 27 27 ((r.state i).procs 27) ∧
    ∀ k, i ≤ k → k ≤ j →
      ((r.state k).procs 27).state = .runnable ∧ ((r.state k).procs 27).waitticks ≤ 54 := by
  obtain ⟨s, prio, T, hlock, hT, hpath⟩ := chosen_path (τ := 27) (by omega) (by omega)
  obtain ⟨prio', T', hT', hmid⟩ := between_path 54 (q := 27) hlock hT (by omega) (by omega) (by decide)
    (fun σ _ _ he => by rw [Fin.ext_iff] at he; exact absurd he (Nat.ne_of_lt (Nat.mod_lt σ (by decide))))
  have hpick := step_pick (s := s) (c := 0) (t := 27) prio (hlock 0) ((hT 0).row (by decide)).state
  have hpick' := step_pick (s := s) (c := 0) (t := 54) prio' (hlock 0)
    ((hT' 0).row (by decide)).state
  obtain ⟨r, i, j, hij, hi, hei, hi', hj, hej, hj', hI, hJ, hend⟩ :=
    hpath.exists_run_between hpick hmid hpick'
  refine ⟨r, i, j, hij, ?_, ?_, ?_, ?_, ?_⟩
  · exact dispatchedBy_of_place hei (by rw [hi]; exact put_pc)
      (by rw [hi]; exact ((hT 0).row (by decide)).state)
  · exact dispatchedBy_of_place hej (by rw [hj]; exact put_pc)
      (by rw [hj]; exact ((hT' 0).row (by decide)).state)
  · intro k p
    rcases Nat.lt_or_ge i k with hik | hki
    · rcases Nat.lt_or_ge j k with hjk | hkj
      · rw [hend k hjk]
        refine Slots.update (K := Short) (fun j => (hT' j).burst_le (by omega)) ?_ p
        rw [Short, (((hT' 0).row (by decide)).dispatch (by decide) 54).burst]
        decide
      · exact (hJ k hik hkj p).1
    · exact hI k hki p
  · rw [hi]
    exact hT 27
  · intro k hik hkj
    rcases Nat.lt_or_ge i k with hlt | hge
    · exact (hJ k hlt hkj 27).2 rfl
    · obtain rfl : k = i := by omega
      rw [hi]
      exact (Expected.waits (hT 27) (by omega) (q := 27) (by decide)).2 rfl

/-- Slot 0 is dispatched twice while slot 27 waits at MAX_PRIORITY. -/
theorem overtaken_twice : ∃ (r : Run 1) (q p : Slot) (i j₁ j₂ : Nat), p ≠ q ∧ i ≤ j₁ ∧ j₁ < j₂ ∧
    calcDynamicPriority ((r.state i).procs q) = MAX_PRIORITY ∧
    (∀ k, i ≤ k → k ≤ j₂ → ((r.state k).procs q).state = .runnable) ∧
    DispatchedBy r 0 j₁ p ∧ DispatchedBy r 0 j₂ p := by
  obtain ⟨r, i, j, hij, hdi, hdj, -, hq, hwait⟩ := rotation_overtakes
  refine ⟨r, 27, 0, i, i, j, by decide, Nat.le_refl i, hij, ?_, fun k hk hk' => (hwait k hk hk').1, hdi, hdj⟩
  exact (hq.row (by decide)).score (by decide) (by decide)

theorem overtaking_bounded_rotation : ∃ (r : Run 1) (i j : Nat), i < j ∧ DispatchedBy r 0 i 0 ∧
    DispatchedBy r 0 j 0 ∧
    ((r.state i).procs 27).waitticks + 25 ≤ ((r.state j).procs 27).waitticks := by
  obtain ⟨r, i, j, hij, hdi, hdj, hburst, hq, hwait⟩ := rotation_overtakes
  have hb : BurstsBelow r (2 ^ 31) := burstsBelow_of_short hburst (by omega) (by omega)
  have hbound := overtaking_bounded r hb (i := i) (l := j) (fun k hk hk' => (hwait k hk hk').1)
    (fun k hk hk' => Nat.lt_of_le_of_lt (hwait k hk hk').2 (by omega))
    ((hq.row (by decide)).score (by decide) (by decide))
  exact ⟨r, i, j, hij, hdi, hdj, hbound.2 i j 0 (Nat.le_refl i) hij (Nat.le_refl j) hdi hdj⟩

end AdaptiveXv6.Overtaking
