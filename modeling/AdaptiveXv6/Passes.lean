import AdaptiveXv6.Scan
import AdaptiveXv6.Waiting

namespace AdaptiveXv6.Passes

open Process Ops Machine Steps SlotHistory Scan Waiting FirstMax Runs Function

variable {n m : Nat} {s t : Kernel n} {e : Event n} {c : Fin n} {b : Option Slot × Int}

theorem progress_step (hs : s.step e = some t) (hp : progress (s.pc c) = some (m, b))
    (he : e ≠ .pick c) :
    t.pc c = s.pc c ∨
      ∃ i : Slot, e = .visit c ∧ i.val = m ∧ s.pc c = .pass1 i b.1 b.2 ∧
        progress (t.pc c) = some (m + 1, improve b i (candidate (s.procs i))) := by
  obtain ⟨mv, hm, -, rfl⟩ := step_eq_some.mp hs
  by_cases hc : c = mv.cpu
  · right
    cases hm with
    | visit d i bestP bestPrio hd =>
      have hcd : c = d := hc
      subst hcd
      rw [hd] at hp
      cases hp
      refine ⟨i, rfl, rfl, hd, ?_⟩
      rw [perform_pc, if_pos hc, ← better_eq]
      exact progress_afterVisit i _
    | pickNone d prio hd | pickGone d p prio hd | pick d p prio hd =>
      have hcd : c = d := hc
      rw [hcd] at he
      exact absurd rfl he
    | startPass d hd | interrupt d hd | resume d p hd | timerTop d hd | timerProc d hd | timerOther d hd
    | wakeupTop d chan hd | wakeupProc d chan hd | wakeupSelf d chan i clock ret hd
    | wakeupVisit d chan i clock ret hd | accountVisit d i ret hd | charge d p hd | uncharged d p hd
    | yield d p hd | sleep d p chan hd | kexit d p status hd | swtch d p hd | kkill d pid p hd
    | setkilled d p hd | allocproc d p hd | forkFail d p hd | forkDone d p hd | forkRun d p hd
    | kwait d p hd =>
      have hcd : c = d := hc
      rw [hcd, hd] at hp
      cases hp
  · left
    rw [perform_pc, if_neg hc]

theorem progress_inv (hs : s.step e = some t) (hp : progress (t.pc c) = some (m, b)) :
    (e = .startPass c ∧ m = 0 ∧ b = (none, -1)) ∨
    (∃ (i : Slot) (b' : Option Slot × Int), e = .visit c ∧ s.pc c = .pass1 i b'.1 b'.2 ∧ m = i.val + 1 ∧
      b = improve b' i (candidate (s.procs i)) ∧
      (fun p => candidate (t.procs p)) = fun p => candidate (s.procs p)) ∨
    ((∃ mv, Moves s e mv ∧ mv.cpu ≠ c) ∧ e ≠ .pick c ∧ t.pc c = s.pc c) := by
  obtain ⟨mv, hm, -, rfl⟩ := step_eq_some.mp hs
  by_cases hc : c = mv.cpu
  · rw [perform_pc, if_pos hc] at hp
    cases hm with
    | startPass d hd =>
      cases hp
      exact .inl ⟨by rw [hc]; rfl, rfl, rfl⟩
    | visit d i bestP bestPrio hd =>
      have hcd : c = d := hc
      subst hcd
      have hprog := hp.symm.trans (progress_afterVisit i _)
      cases hprog
      refine .inr (.inl ⟨i, (bestP, bestPrio), rfl, hd, rfl, better_eq _ _ _ _, ?_⟩)
      funext p
      rw [Kernel.locked, perform_slot]
      split
      · exact candidate_rescore _
      · rfl
    | wakeupSelf | wakeupVisit =>
      exact absurd hp (by simp [Kernel.jump, Kernel.locked, progress_afterWakeup])
    | accountVisit => exact absurd hp (by simp [Kernel.locked, progress_afterAccount])
    | charge =>
      simp only [Kernel.locked] at hp
      split at hp <;> cases hp
    | pickNone | pickGone | pick | interrupt | resume | timerTop | timerProc | timerOther | wakeupTop
    | wakeupProc | uncharged | yield | sleep | kexit | swtch | kkill | setkilled | allocproc | forkFail
    | forkDone | forkRun | kwait => cases hp
  · refine .inr (.inr ⟨⟨mv, hm, fun he => hc he.symm⟩, ?_, by rw [perform_pc, if_neg hc]⟩)
    rintro rfl
    cases hm <;> exact hc rfl

/-- A pass of scheduler() on CPU c, from its start at position i to its pass 2 at j. -/
structure Pass (r : Run n) (c : Fin n) (i j : Nat) : Prop where
  start : r.event i = some (.startPass c)
  finish : r.event j = some (.pick c)
  lt : i < j
  first : ∀ k, i < k → k < j → r.event k ≠ some (.pick c)

theorem exists_pass {r : Run n} {a j : Nat} (ha : progress ((r.state a).pc c) = none) (haj : a ≤ j)
    (hj : r.event j = some (.pick c)) : ∃ i, a ≤ i ∧ Pass r c i j := by
  have hinv : ∀ k, a ≤ k → progress ((r.state k).pc c) ≠ none →
      ∃ i, a ≤ i ∧ i < k ∧ r.event i = some (.startPass c) ∧
        ∀ l, i < l → l < k → r.event l ≠ some (.pick c) := by
    intro k hak
    induction k, hak using Nat.le_induction with
    | base => exact fun hne => absurd ha hne
    | succ k hak ih =>
      intro hne
      -- a pass in progress before position k goes on unless the event is its pick
      have hkeep : progress ((r.state k).pc c) ≠ none → r.event k ≠ some (.pick c) →
          ∃ i, a ≤ i ∧ i < k + 1 ∧ r.event i = some (.startPass c) ∧
            ∀ l, i < l → l < k + 1 → r.event l ≠ some (.pick c) := by
        intro hp hk
        obtain ⟨i, hai, hik, hi, hfirst⟩ := ih hp
        refine ⟨i, hai, Nat.lt_succ_of_lt hik, hi, ?_⟩
        intro l hil hlk
        rcases Nat.lt_succ_iff_lt_or_eq.mp hlk with hl | rfl
        · exact hfirst l hil hl
        · exact hk
      cases he : r.event k with
      | none => exact hkeep (by rwa [r.state_of_no_event he] at hne) (by simp [he])
      | some e =>
        obtain ⟨⟨m, b⟩, hp⟩ := Option.ne_none_iff_exists'.mp hne
        rcases progress_inv (r.step_of_event he) hp with ⟨hs, -, -⟩ | ⟨i, b', hv, hpc, -⟩ | ⟨-, hpick, hpc⟩
        · refine ⟨k, hak, Nat.lt_succ_self k, by rw [he, hs], ?_⟩
          intro l hkl hlk
          omega
        · exact hkeep (by rw [hpc]; simp [progress]) (by rw [he, hv]; simp)
        · exact hkeep (by rwa [← hpc]) (by rw [he]; simpa using hpick)
  have hplace : progress ((r.state j).pc c) ≠ none := by
    obtain ⟨mv, hm, -, -⟩ := step_eq_some.mp (r.step_of_event hj)
    cases hm with
    | pickNone _ prio hc => simp [hc, progress]
    | pickGone _ p prio hc | pick _ p prio hc => simp [hc, progress]
  obtain ⟨i, hai, hij, hi, hfirst⟩ := hinv j haj hplace
  exact ⟨i, hai, hi, hj, hij, hfirst⟩

theorem exists_pass_run {I J : Kernel n → Prop} {s₁ s₂ s₃ s₄ : Kernel n}
    (h : Path Kernel.step I (boot n) s₁) (htop : progress (s₁.pc c) = none) (hJ : J s₁)
    (h₁ : s₁.step (.startPass c) = some s₂) (hmid : Path Kernel.step J s₂ s₃)
    (h₂ : s₃.step (.pick c) = some s₄) :
    ∃ (r : Run n) (i j : Nat), Pass r c i j ∧ r.state j = s₃ ∧ r.state (j + 1) = s₄ ∧
      ∀ k, i ≤ k → k ≤ j → J (r.state k) := by
  obtain ⟨r, a, j, haj, ha, -, -, hj, hej, hj', -, hkeep, -⟩ := h.exists_run_between h₁ hmid h₂
  obtain ⟨i, hai, hpass⟩ := exists_pass (by rw [ha, htop]) (Nat.le_of_lt haj) hej
  refine ⟨r, i, j, hpass, hj, hj', ?_⟩
  intro k hik hkj
  rcases Nat.eq_or_lt_of_le (Nat.le_trans hai hik) with rfl | hak
  · rw [ha]
    exact hJ
  · exact hkeep k hak hkj

/-- The visit of pass 1 on CPU c to slot p. -/
def VisitedAt (r : Run n) (c : Fin n) (v : Nat) (p : Slot) : Prop :=
  r.event v = some (.visit c) ∧ ∃ bestP bestPrio, (r.state v).pc c = .pass1 p bestP bestPrio

structure Sampled (r : Run n) (c : Fin n) (i k : Nat) (m : Nat) (b : Option Slot × Int) : Prop where
  at_place : progress ((r.state k).pc c) = some (m, b)
  leads : ∃ sample, Leads sample m (-1) b ∧ ∀ p : Slot, p.val < m →
    ∃ v, i < v ∧ v < k ∧ VisitedAt r c v p ∧ sample p = candidate ((r.state v).procs p)

variable {r : Run n} {i j k : Nat}

theorem Sampled.wait (h : Sampled r c i k m b) (hpc : (r.state (k + 1)).pc c = (r.state k).pc c) :
    Sampled r c i (k + 1) m b := by
  obtain ⟨hp, sample, hl, hv⟩ := h
  refine ⟨by rw [hpc]; exact hp, sample, hl, ?_⟩
  intro p hm
  obtain ⟨v, hiv, hvk, hvis, hs⟩ := hv p hm
  exact ⟨v, hiv, Nat.lt_succ_of_lt hvk, hvis, hs⟩

theorem Sampled.visit (h : Sampled r c i k m b) (hik : i < k) {p : Slot} (hp : p.val = m)
    (hv : VisitedAt r c k p)
    (hpc : progress ((r.state (k + 1)).pc c) =
      some (m + 1, improve b p (candidate ((r.state k).procs p)))) :
    Sampled r c i (k + 1) (m + 1) (improve b p (candidate ((r.state k).procs p))) := by
  obtain ⟨-, sample, hl, hold⟩ := h
  subst hp
  refine ⟨hpc, update sample p (candidate ((r.state k).procs p)), ?_, ?_⟩
  · have hc : Leads (update sample p (candidate ((r.state k).procs p))) p.val (-1) b := by
      refine hl.congr ?_
      intro q hq
      exact update_of_ne (fun he => by rw [he] at hq; omega) _ _
    have himp := hc.improve p.isLt
    rwa [update_self] at himp
  · intro q hq
    by_cases he : q = p
    · subst he
      exact ⟨k, hik, Nat.lt_succ_self k, hv, update_self _ _ _⟩
    · have hne : q.val ≠ p.val := fun hv => he (Fin.ext hv)
      obtain ⟨v, hiv, hvk, hvis, hs⟩ := hold q (by omega)
      exact ⟨v, hiv, Nat.lt_succ_of_lt hvk, hvis, by rw [update_of_ne he]; exact hs⟩

theorem Pass.sampled (h : Pass r c i j) (hik : i < k) (hkj : k ≤ j) :
    ∃ m b, Sampled r c i k m b := by
  induction k, hik using Nat.le_induction with
  | base =>
    refine ⟨0, (none, -1), ?_, fun _ => none, leads_zero _ _, fun p hp => absurd hp (Nat.not_lt_zero _)⟩
    obtain ⟨mv, hm, -, hst⟩ := step_eq_some.mp (r.step_of_event h.start)
    cases hm
    simp [hst, perform_pc, Kernel.jump, progress]
  | succ k hik ih =>
    obtain ⟨m, b, hs⟩ := ih (by omega)
    cases he : r.event k with
    | none => exact ⟨m, b, hs.wait (by rw [r.state_of_no_event he])⟩
    | some e =>
      have hne : e ≠ .pick c := by
        intro hp
        rw [hp] at he
        exact h.first k hik (by omega) he
      rcases progress_step (r.step_of_event he) hs.at_place hne with hpc | ⟨p, hev, hp, hpc, hnext⟩
      · exact ⟨m, b, hs.wait hpc⟩
      · rw [hev] at he
        exact ⟨m + 1, _, hs.visit hik hp ⟨he, _, _, hpc⟩ hnext⟩

theorem Pass.complete (h : Pass r c i j) :
    ∃ bestP bestPrio sample, (r.state j).pc c = .pass2 bestP bestPrio ∧
      Leads sample NPROC (-1) (bestP, bestPrio) ∧
      ∀ p, ∃ v, i < v ∧ v < j ∧ VisitedAt r c v p ∧ sample p = candidate ((r.state v).procs p) := by
  have hplace : ∃ bestP bestPrio, (r.state j).pc c = .pass2 bestP bestPrio := by
    obtain ⟨mv, hm, -, -⟩ := step_eq_some.mp (r.step_of_event h.finish)
    cases hm with
    | pickNone c prio hc => exact ⟨none, prio, hc⟩
    | pickGone c p prio hc | pick c p prio hc => exact ⟨some p, prio, hc⟩
  obtain ⟨bestP, bestPrio, hpc⟩ := hplace
  obtain ⟨m, b, hat, sample, hl, hv⟩ := h.sampled h.lt (Nat.le_refl j)
  rw [hpc] at hat
  cases hat
  exact ⟨bestP, bestPrio, sample, hpc, hl, fun p => hv p p.isLt⟩

def DispatchedBy (r : Run n) (d : Fin n) (k : Nat) (p : Slot) : Prop :=
  r.event k = some (.pick d) ∧ sectionAt r k p = some .dispatch ∧
    ((r.state k).procs p).state = .runnable

theorem DispatchedBy.place {d : Fin n} {p : Slot} (h : DispatchedBy r d k p) :
    ∃ prio, (r.state k).pc d = .pass2 (some p) prio := by
  obtain ⟨hev, hsec, -⟩ := h
  obtain ⟨e, he, hop⟩ := Option.bind_eq_some_iff.mp hsec
  rw [hev] at he
  cases he
  obtain ⟨mv, sec, hm, hcrit, hslot, -⟩ := opAt_eq_some hop
  cases hm with
  | pickNone => cases hcrit
  | pickGone _ p' prio hc | pick _ p' prio hc =>
    cases hcrit
    cases hslot
    exact ⟨prio, hc⟩

theorem DispatchedBy.running {d : Fin n} {p : Slot} (h : DispatchedBy r d k p) :
    ((r.state (k + 1)).procs p).state = .running := by
  rw [section_apply r h.2.1, Op.apply, dispatch_state, if_pos h.2.2]

theorem dispatchedBy_of_place {d : Fin n} {p : Slot} {prio : Int} (he : r.event k = some (.pick d))
    (hpc : (r.state k).pc d = .pass2 (some p) prio) (hp : ((r.state k).procs p).state = .runnable) :
    DispatchedBy r d k p :=
  ⟨he, section_of_moves r he (.pick d p prio hpc hp) rfl, hp⟩

theorem dispatchedBy_of_section {p : Slot} (hs : sectionAt r k p = some .dispatch)
    (hr : ((r.state k).procs p).state = .runnable) : ∃ d, DispatchedBy r d k p := by
  obtain ⟨e, he, hop⟩ := Option.bind_eq_some_iff.mp hs
  obtain ⟨mv, sec, hm, hcrit, -, hsec⟩ := opAt_eq_some hop
  cases hm with
  | pickGone d q prio hd | pick d q prio hd => exact ⟨d, he, hs, hr⟩
  | startPass | pickNone | interrupt | timerTop | timerProc | timerOther | wakeupTop | wakeupProc
  | wakeupSelf | uncharged => cases hcrit
  | visit | resume | wakeupVisit | accountVisit | charge | yield | sleep | kexit | swtch | kkill
  | setkilled | allocproc | forkFail | forkDone | forkRun | kwait =>
    cases hcrit
    cases hsec

theorem exists_dispatch {p : Slot} {v : Nat} (hv : ((r.state v).procs p).state = .runnable)
    (hvj : v ≤ j) (hj : ((r.state j).procs p).state ≠ .runnable) :
    ∃ d k, v ≤ k ∧ k < j ∧ DispatchedBy r d k p := by
  induction j, hvj using Nat.le_induction with
  | base => exact absurd hv hj
  | succ j hvj ih =>
    by_cases hr : ((r.state j).procs p).state = .runnable
    · obtain ⟨d, hd⟩ := dispatchedBy_of_section (leaves_runnable r hr hj) hr
      exact ⟨d, j, hvj, Nat.lt_succ_self j, hd⟩
    · obtain ⟨d, k, hvk, hkj, hd⟩ := ih hr
      exact ⟨d, k, hvk, Nat.lt_succ_of_lt hkj, hd⟩

end AdaptiveXv6.Passes
