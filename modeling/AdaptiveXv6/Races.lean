import AdaptiveXv6.Passes
import AdaptiveXv6.Rotation

namespace AdaptiveXv6.Races

open Process Ops Machine Steps Scan Waiting Passes Runs Sweeps Rounds Profiles RoundRobin Rotation
  Function

variable {n : Nat} {c : Fin n} {r : Run n} {i j : Nat}

/-- A CPU that goes idle after a pass, although some process q stayed runnable since its start, had chosen a
candidate that another CPU dispatched after its visit. -/
theorem idle_explained (h : Pass r c i j) (hwfi : (r.state (j + 1)).pc c = .wfi) {q : Slot}
    (hq : ∀ k, i ≤ k → k ≤ j → ((r.state k).procs q).state = .runnable) :
    ∃ p bestPrio v d k, (r.state j).pc c = .pass2 (some p) bestPrio ∧ p ≠ q ∧ d ≠ c ∧
      i < v ∧ v ≤ k ∧ k < j ∧ VisitedAt r c v p ∧ DispatchedBy r d k p := by
  obtain ⟨bestP, bestPrio, sample, hpc, hl, hv⟩ := h.complete
  obtain ⟨vq, hivq, hvqj, -, hsq⟩ := hv q
  rw [candidate, if_pos (hq vq (by omega) (by omega))] at hsq
  have hpos := (calcDynamicPriority_bounds ((r.state vq).procs q)).1
  obtain ⟨p, hp⟩ := hl.exists_leader q.isLt hsq (by omega)
  cases hp
  obtain ⟨v, hiv, hvj, hvis, hs⟩ := hv p
  rw [(hl.chosen p rfl).2] at hs
  have hrun := (candidate_eq_some.mp hs.symm).1
  -- pass 2 found the candidate gone
  have hgone : ((r.state j).procs p).state ≠ .runnable := by
    obtain ⟨mv, hm, -, hst⟩ := step_eq_some.mp (r.step_of_event h.finish)
    cases hm with
    | pickNone _ prio hc => rw [hpc] at hc; cases hc
    | pickGone _ p' prio hc hp => rw [hpc] at hc; cases hc; exact hp
    | pick _ p' prio hc hp => simp [hst, perform_pc] at hwfi
  obtain ⟨d, k, hvk, hkj, hd⟩ := exists_dispatch hrun (by omega) hgone
  refine ⟨p, bestPrio, v, d, k, hpc, ?_, ?_, hiv, hvk, hkj, hvis, hd⟩
  · rintro rfl
    exact hgone (hq j (by omega) (Nat.le_refl j))
  · rintro rfl
    exact h.first k (by omega) hkj hd.1

theorem best_child {T : Slot → Proc} (h0 : (T 0).state = .runnable → calcDynamicPriority (T 0) < 50)
    (h1 : Row 0 0 false (T 1)) (h : ∀ q, q ≠ 0 → (T q).state = .runnable → Row 0 0 false (T q)) :
    (best T NPROC).1 = some 1 := by
  have hscore : ∀ x, Row 0 0 false x → calcDynamicPriority x = 50 :=
    fun x hx => hx.score (by omega) (by omega)
  rw [best_eq (p := 1) h1.state]
  · intro q hq hr
    have hq0 : q = 0 := Fin.ext (Nat.lt_one_iff.mp hq)
    rw [hscore _ h1, hq0]
    exact h0 (by rw [← hq0]; exact hr)
  · intro q hr
    rw [hscore _ h1]
    by_cases hq : q = 0
    · rw [hq] at hr ⊢
      exact le_of_lt (h0 hr)
    · rw [hscore _ (h q hq hr)]

theorem row_of_runnable {m : Nat} {T : Slot → Proc} (h : Born m T) (q : Slot) (hq : q ≠ 0)
    (hr : (T q).state = .runnable) : Row 0 0 false (T q) := by
  by_cases hm : q.val ≤ m
  · exact h.row q (Nat.one_le_iff_ne_zero.mpr (fun hv => hq (Fin.ext hv))) hm
  · rw [(h.free q (by omega)).1] at hr
    cases hr

theorem row_children {T : Slot → Proc} (h : Born 2 T) (q : Slot) (hq : q = 1 ∨ q = 2) :
    Row 0 0 false (T q) := by
  rcases hq with rfl | rfl
  · exact h.row 1 (by decide) (by decide)
  · exact h.row 2 (by decide) (by decide)

theorem preempted_path : ∃ s T, (∀ i, s.lock i = none) ∧ (∀ d, s.cpus d = ⟨none, .top⟩) ∧
    Row 0 1 false (T 0) ∧ Row 0 0 false (T 1) ∧
    (∀ q, q ≠ 0 → (T q).state = .runnable → Row 0 0 false (T q)) ∧
    Path Kernel.step (Slots Any) (boot 2) (put s 1 ⟨none, .top⟩ T 0) := by
  obtain ⟨s, T, hlock, hcpus, hT, hforks⟩ := forks_path (n := 2) 1 (m := 1) (by omega)
  obtain ⟨hover, hcharged⟩ := hT.init.chargeTick (by omega)
  have hany : Path Kernel.step (Slots Any) _ _ := hforks.mono (fun _ _ _ => trivial)
  have htick := last_tick_path (K := Any) (s := s) (c := 1) (t := 0) (hlock 0) (by decide) hover
    (fun _ => trivial) trivial trivial
  refine ⟨s, _, hlock, hcpus, ?_, ?_, ?_, hany.trans htick⟩
  · rw [update_self]
    exact hcharged.yield 0
  · rw [update_of_ne (by decide)]
    exact hT.row 1 (by decide) (by decide)
  · intro q hq
    rw [update_of_ne hq]
    exact row_of_runnable hT q hq

theorem idle_run : ∃ (r : Run 2) (i j : Nat), Pass r 1 i j ∧ (r.state (j + 1)).pc 1 = .wfi ∧
    ∀ k, i ≤ k → k ≤ j + 1 → ((r.state k).procs 0).state = .runnable := by
  obtain ⟨s, T, hlock, hcpus, h0, h1, hnew, hpath⟩ := preempted_path
  have hlow : ∀ x, Row 0 1 false x → calcDynamicPriority x < 50 := by
    intro x hx
    rw [hx.score (by omega) (by omega)]
    decide
  have hbest := best_child (fun _ => hlow _ h0) h1 hnew
  have hbest' : (best (fun q => rescore (T q)) NPROC).1 = some 1 := by
    refine best_child (fun _ => hlow _ h0.rescore) h1.rescore ?_
    intro q hq hr
    exact (hnew q hq (by simpa using hr)).rescore
  -- CPU 0 looks first
  have hscan := scan_path (K := Any) (s := put s 1 ⟨none, .top⟩ T 0) (c := 0) (T := T) (t := 0) hlock
    (fun _ => trivial) (fun _ => trivial)
  rw [← put_other (by decide) (hcpus 0), hbest, put_comm (by decide)] at hscan
  -- then CPU 1, which finds the same child
  have hvisits := visits_path (K := fun q x => q = 0 → x.state = .runnable) (c := 1) (t := 0)
    (s := put s 0 ⟨none, .pass2 (some 1) (best T NPROC).2⟩ T 0) (T := fun q => rescore (T q)) hlock
    (fun q hq => by rw [hq]; exact h0.rescore.state) (fun q hq => by rw [hq]; exact h0.rescore.rescore.state)
  rw [hbest'] at hvisits
  have hrow := h1.rescore.rescore
  have hpick := pick_path (K := fun q x => q = 0 → x.state = .runnable) (c := 0) (t := 0) (p := 1)
    (s := put s 1 ⟨none, .pass2 (some 1) (best (fun q => rescore (T q)) NPROC).2⟩ T 0)
    (T := fun q => rescore (rescore (T q))) (fun q hq => by rw [hq]; exact h0.rescore.rescore.state)
    (best T NPROC).2 (hlock 1) hrow.state
    (fun hq => absurd hq (by decide)) (fun hq => absurd hq (by decide))
  rw [put_comm (c := 1) (d := 0) (by decide), put_comm (c := 1) (d := 0) (by decide)] at hpick
  have hgone := step_pick_gone (c := 1) (t := 0) (p := 1)
    (s := put s 0 ⟨some 1, .running⟩ T 0)
    (T := update (fun q => rescore (rescore (T q))) 1
      (resume (dispatch 0 (rescore (rescore (T 1))))))
    (best (fun q => rescore (T q)) NPROC).2 (hlock 1)
    (by rw [update_self, (hrow.dispatch (by omega) 0).resume.state]; simp)
  obtain ⟨r, i, j, hpass, -, hj', hmid⟩ := exists_pass_run (c := 1) (hpath.trans hscan)
    (by rw [put_pc]; rfl) (fun q hq => by rw [hq]; exact h0.rescore.state) step_startPass
    (hvisits.trans hpick) hgone
  refine ⟨r, i, j, hpass, by rw [hj', put_pc], ?_⟩
  intro k hik hkj
  rcases Nat.le_succ_iff.mp hkj with hkj | rfl
  · exact hmid k hik hkj 0 rfl
  · rw [hj', put_procs, update_of_ne (by decide)]
    exact h0.rescore.rescore.state

/-- CPU 1 goes idle there although init stays runnable. -/
theorem idle_with_runnable : ∃ (r : Run 2) (c : Fin 2) (i j : Nat) (q : Slot), Pass r c i j ∧
    (r.state (j + 1)).pc c = .wfi ∧ ∀ k, i ≤ k → k ≤ j + 1 → ((r.state k).procs q).state = .runnable := by
  obtain ⟨r, i, j, hpass, hwfi, hq⟩ := idle_run
  exact ⟨r, 1, i, j, 0, hpass, hwfi, hq⟩

theorem idle_explained_child : ∃ (r : Run 2) (i j k : Nat) (d : Fin 2) (p : Slot), Pass r 1 i j ∧
    (r.state (j + 1)).pc 1 = .wfi ∧ i < k ∧ k < j ∧ d ≠ 1 ∧ p ≠ 0 ∧ DispatchedBy r d k p := by
  obtain ⟨r, i, j, hpass, hwfi, hq⟩ := idle_run
  obtain ⟨p, prio, v, d, k, -, hp, hd, hiv, hvk, hkj, -, hdisp⟩ := idle_explained hpass hwfi
    (fun k hk hkj => hq k hk (by omega))
  exact ⟨r, i, j, k, d, p, hpass, hwfi, by omega, hkj, hd, hp, hdisp⟩

/-- A process that no CPU dispatched between its visit in pass 1 and its dispatch in pass 2 scores at least as
much as every process that waited unchanged all through the pass. -/
theorem dispatch_not_stale (h : Pass r c i j) {p q : Slot} (hd : DispatchedBy r c j p)
    (hstay : ∀ v k d, i < v → VisitedAt r c v p → v ≤ k → k < j → ¬DispatchedBy r d k p)
    (hw : ∀ k, i ≤ k → k ≤ j → ((r.state k).procs p).waitticks < 2 ^ 29)
    (he : ((r.state j).procs p).estBurst < 2 ^ 31)
    (hq : ∀ k, i ≤ k → k ≤ j → ((r.state k).procs q).state = .runnable ∧
      ((r.state k).procs q).waitticks = ((r.state j).procs q).waitticks ∧
      ((r.state k).procs q).procType = ((r.state j).procs q).procType ∧
      ((r.state k).procs q).estBurst = ((r.state j).procs q).estBurst) :
    calcDynamicPriority ((r.state j).procs q) ≤ calcDynamicPriority ((r.state j).procs p) := by
  obtain ⟨bestP, bestPrio, sample, hpc, hl, hv⟩ := h.complete
  obtain ⟨prio, hplace⟩ := hd.place
  rw [hpc] at hplace
  cases hplace
  obtain ⟨v, hiv, hvj, hvis, hs⟩ := hv p
  rw [(hl.chosen p rfl).2] at hs
  obtain ⟨hrun, hscore⟩ := candidate_eq_some.mp hs.symm
  -- p was runnable from its visit on
  have hstays : ∀ k, v ≤ k → k ≤ j → ((r.state k).procs p).state = .runnable := by
    intro k hvk hkj
    by_contra hn
    obtain ⟨d, l, hvl, hlk, hdl⟩ := exists_dispatch hrun hvk hn
    exact hstay v l d hiv hvis hvl (by omega) hdl
  obtain ⟨-, -, -, hmono⟩ := waits_score r (by omega) hstays (fun k hk hkj => hw k (by omega) hkj) he
  obtain ⟨vq, hivq, hvqj, -, hsq⟩ := hv q
  obtain ⟨hqrun, hqw, hqt, hqe⟩ := hq vq (by omega) (by omega)
  rw [candidate, if_pos hqrun, calcDynamicPriority_congr hqt hqw hqe] at hsq
  calc calcDynamicPriority ((r.state j).procs q) ≤ bestPrio := hl.above q _ q.isLt hsq
    _ = calcDynamicPriority ((r.state v).procs p) := hscore.symm
    _ ≤ calcDynamicPriority ((r.state j).procs p) := hmono

theorem children_path : ∃ s T prio, (∀ i, s.lock i = none) ∧ Born 2 T ∧
    Path Kernel.step (Slots Any) (boot 2) (put (put s 1 ⟨some 0, .running⟩ T 0) 0 ⟨none, .top⟩ T 0) ∧
    Path Kernel.step (Slots fun q x => q = 1 ∨ q = 2 → Row 0 0 false x)
      (put (put s 1 ⟨some 0, .running⟩ T 0) 0 ⟨none, scanPc T 0⟩ T 0)
      (put (put s 1 ⟨some 0, .running⟩ T 0) 0 ⟨none, .pass2 (some 1) prio⟩ (fun i => rescore (T i)) 0) := by
  obtain ⟨s, T, hlock, hcpus, hT, hforks⟩ := forks_path (n := 2) 1 (m := 2) (by omega)
  have hrow := row_children hT
  have hbest : (best T NPROC).1 = some 1 := by
    refine best_child ?_ (hrow 1 (.inl rfl)) (row_of_runnable hT)
    intro hr
    rw [hT.init.state] at hr
    cases hr
  have hvisits := visits_path (K := fun q x => q = 1 ∨ q = 2 → Row 0 0 false x) (c := 0) (t := 0)
    (s := put s 1 ⟨some 0, .running⟩ T 0) hlock hrow (fun q hq => (hrow q hq).rescore)
  rw [hbest] at hvisits
  refine ⟨s, T, _, hlock, hT, ?_, hvisits⟩
  rw [← put_other (by decide) (hcpus 0)]
  exact hforks.mono (fun _ _ _ => trivial)

theorem dispatch_not_stale_child : ∃ (r : Run 2) (i j : Nat), Pass r 0 i j ∧ DispatchedBy r 0 j 1 ∧
    ((r.state j).procs 2).state = .runnable ∧
    calcDynamicPriority ((r.state j).procs 2) ≤ calcDynamicPriority ((r.state j).procs 1) := by
  obtain ⟨s, T, prio, hlock, hT, hpath, hvisits⟩ := children_path
  have hrow := row_children hT
  have hpick := step_pick (c := 0) (t := 0) (p := 1) (s := put s 1 ⟨some 0, .running⟩ T 0)
    (T := fun i => rescore (T i)) prio (hlock 1) (hrow 1 (.inl rfl)).rescore.state
  obtain ⟨r, i, j, hpass, hj, -, hnew⟩ := exists_pass_run (c := 0) hpath (by rw [put_pc]; rfl) hrow
    step_startPass hvisits hpick
  have hj1 := hnew j (Nat.le_of_lt hpass.lt) (Nat.le_refl j) 1 (.inl rfl)
  have hj2 := hnew j (Nat.le_of_lt hpass.lt) (Nat.le_refl j) 2 (.inr rfl)
  have hd : DispatchedBy r 0 j 1 := dispatchedBy_of_place hpass.finish (by rw [hj]; exact put_pc) hj1.state
  refine ⟨r, i, j, hpass, hd, hj2.state, dispatch_not_stale hpass hd ?_ ?_ ?_ ?_⟩
  · intro v k d hiv _ hvk hkj hdk
    have hrun := hdk.running
    rw [(hnew (k + 1) (by omega) (by omega) 1 (.inl rfl)).state] at hrun
    cases hrun
  · intro k hik hkj
    rw [(hnew k hik hkj 1 (.inl rfl)).wait]
    omega
  · rw [hj1.est]
    omega
  · intro k hik hkj
    have hk := hnew k hik hkj 2 (.inr rfl)
    exact ⟨hk.state, hk.wait.trans hj2.wait.symm, hk.type.trans hj2.type.symm, hk.est.trans hj2.est.symm⟩

theorem child_path {s : Kernel 2} {T : Slot → Proc} (hlock : ∀ i, s.lock i = none)
    (h0 : Served 0 false (T 0)) (h1 : Row 0 0 false (T 1)) (h2 : Row 0 0 false (T 2))
    (hnew : ∀ q, q ≠ 0 → (T q).state = .runnable → Row 0 0 false (T q)) :
    ∃ T', Row 0 1 false (T' 1) ∧
      Path Kernel.step (Slots fun q x => q = 2 → Row 0 0 false x) (put s 1 ⟨some 0, .running⟩ T 0)
        (put s 1 ⟨none, .top⟩ T' 0) := by
  have hsleep := sleep_path (K := fun q x => q = 2 → Row 0 0 false x) (s := s) (c := 1) (t := 0)
    (fun q hq => by rw [hq]; exact h2) (hlock 0) 7 (fun hq => absurd hq (by decide))
  obtain ⟨hasleep, -⟩ := h0.toProfile.sleep (Nat.le_refl 0) (by omega) 7 0
  generalize sleep 7 0 (T 0) = y at hsleep hasleep
  have hother : ∀ q, q ≠ 0 → update T 0 y q = T q := fun q hq => update_of_ne hq _ _
  have h1' : Row 0 0 false (update T 0 y 1) := by rw [hother 1 (by decide)]; exact h1
  have h2' : Row 0 0 false (update T 0 y 2) := by rw [hother 2 (by decide)]; exact h2
  have hbest : (best (update T 0 y) NPROC).1 = some 1 := by
    refine best_child ?_ h1' ?_
    · rw [update_self, hasleep.state]
      intro hr
      cases hr
    · intro q hq
      rw [hother q hq]
      exact hnew q hq
  have hserved := (h1'.rescore.dispatch (by omega) 0).resume
  have hturn := turn_path (K := fun q x => q = 2 → Row 0 0 false x) (s := s) (c := 1) (t := 0)
    (fun q hq => by rw [hq]; exact h2') hlock hbest h1'.state (fun q hq => by rw [hq]; exact h2'.rescore)
    (fun hq => absurd hq (by decide)) (fun hq => absurd hq (by decide))
  obtain ⟨hover, hcharged⟩ := hserved.chargeTick (by omega)
  have hlast := last_tick_path (K := fun q x => q = 2 → Row 0 0 false x) (s := s) (c := 1) (t := 0) (p := 1)
    (T := update (fun i => rescore (update T 0 y i)) 1
      (resume (dispatch 0 (rescore (update T 0 y 1))))) (hlock 1) (by decide)
    (by rw [update_self]; exact hover) hturn.last
    (fun hq => absurd hq (by decide)) (fun hq => absurd hq (by decide))
  refine ⟨_, ?_, (hsleep.trans hturn).trans hlast⟩
  rw [update_self, update_self]
  exact hcharged.yield 0

/-- CPU 1 runs the first child for a tick between its choice and its dispatch by CPU 0, which thus takes a
lower score than the second child's. -/
theorem dispatch_stale : ∃ (r : Run 2) (c : Fin 2) (i j : Nat) (p q : Slot), Pass r c i j ∧
    DispatchedBy r c j p ∧
    (∀ k, i ≤ k → k ≤ j → ((r.state k).procs q).state = .runnable ∧
      ((r.state k).procs q).waitticks = ((r.state j).procs q).waitticks ∧
      ((r.state k).procs q).procType = ((r.state j).procs q).procType ∧
      ((r.state k).procs q).estBurst = ((r.state j).procs q).estBurst) ∧
    calcDynamicPriority ((r.state j).procs p) < calcDynamicPriority ((r.state j).procs q) := by
  obtain ⟨s, T, prio, hlock, hT, hpath, hvisits⟩ := children_path
  have h2 := row_children hT 2 (.inr rfl)
  have h0 : rescore (T 0) = T 0 := rescore_eq (by simp [hT.init.state])
  obtain ⟨T', h1', hchild⟩ := child_path (s := put s 0 ⟨none, .pass2 (some 1) prio⟩ T 0)
    (T := fun i => rescore (T i)) hlock (by rw [h0]; exact hT.init)
    (row_children hT 1 (.inl rfl)).rescore h2.rescore
    (fun q hq hr => (row_of_runnable hT q hq (by simpa using hr)).rescore)
  rw [put_comm (c := 0) (d := 1) (by decide), put_comm (c := 0) (d := 1) (by decide)] at hchild
  have hpick := step_pick (c := 0) (t := 0) (p := 1) (s := put s 1 ⟨none, .top⟩ T 0) prio (hlock 1) h1'.state
  have hmid := (hvisits.mono (fun _ hs q hq => hs q (.inr hq))).trans hchild
  obtain ⟨r, i, j, hpass, hj, -, hnew⟩ := exists_pass_run (c := 0) hpath (by rw [put_pc]; rfl)
    (fun q hq => by rw [hq]; exact h2) step_startPass hmid hpick
  have hj1 : Row 0 1 false ((r.state j).procs 1) := by
    rw [hj]
    exact h1'
  have hj2 := hnew j (Nat.le_of_lt hpass.lt) (Nat.le_refl j) 2 rfl
  have hd : DispatchedBy r 0 j 1 := dispatchedBy_of_place hpass.finish (by rw [hj]; exact put_pc) hj1.state
  refine ⟨r, 0, i, j, 1, 2, hpass, hd, ?_, ?_⟩
  · intro k hik hkj
    have hk := hnew k hik hkj 2 rfl
    exact ⟨hk.state, hk.wait.trans hj2.wait.symm, hk.type.trans hj2.type.symm, hk.est.trans hj2.est.symm⟩
  · rw [hj1.score (by omega) (by omega), hj2.score (by omega) (by omega)]
    decide

end AdaptiveXv6.Races
