import AdaptiveXv6.RoundRobin
import AdaptiveXv6.SleepCycle

namespace AdaptiveXv6.Rotation

open Words Process Ops Machine SlotHistory Counters Sweeps Rounds Runs Waiting SleepCycle Profiles
  RoundRobin Function

variable {s : Kernel 1} {T : Slot → Proc} {τ : Nat} {x : Proc} {j : Slot}

def Kept (τ : Nat) (j : Slot) (x : Proc) : Prop :=
  Expected τ j x ∨ Expected (τ + 1) j x ∨ (j = runner τ ∧ x.currentBurst ≤ 2)

structure Serving (τ τ' : Nat) (T : Slot → Proc) : Prop where
  others : ∀ j, j ≠ runner τ → Expected τ' j (T j)
  served : Served (charged τ' (runner τ)) (warned τ' (runner τ)) (T (runner τ))

theorem Serving.kept {τ' : Nat} (h : Serving τ τ' T) (h' : τ' = τ ∨ τ' = τ + 1) (hτ : τ < 54) (j : Slot) :
    Kept τ j (T j) := by
  by_cases hj : j = runner τ
  · rw [hj]
    refine .inr (.inr ⟨rfl, ?_⟩)
    rw [h.served.burst]
    exact charged_le _ (by omega)
  · rcases h' with rfl | rfl
    · exact .inl (h.others j hj)
    · exact .inr (.inl (h.others j hj))

theorem serve_path (hlock : ∀ i, s.lock i = none) (hτ : τ < 54) (h : Serving τ τ T) :
    ∃ T', Serving τ (τ + 1) T' ∧
      Path Kernel.step (Slots (Kept τ)) (put s 0 ⟨some (runner τ), .running⟩ T τ)
        (put s 0 ⟨some (runner τ), .expired⟩ T' (τ + 1)) := by
  have hclock : u32 (τ + 1) = τ + 1 := u32_of_lt (by omega)
  have hwake : ∀ i, i ≠ runner τ → Expected τ i (wakeup ticksChan (T i)) :=
    fun i hi => (h.others i hi).wakeup ticksChan
  have hwait : ∀ i, i ≠ runner τ → Expected (τ + 1) i (accountWait (τ + 1) (wakeup ticksChan (T i))) :=
    fun i hi => (hwake i hi).account hi hτ _
  have hgrow : charged (τ + 1) (runner τ) = charged τ (runner τ) + 1 := charged_runner
  have hwarn : warned (τ + 1) (runner τ) = warned τ (runner τ) := warned_runner
  have hle := charged_le (τ := τ + 1) (runner τ) (by omega)
  obtain ⟨hover, hcharge⟩ := h.served.chargeTick (by omega)
  have hserving : Serving τ (τ + 1) (update
      (fun i => accountWait (τ + 1) (wakeup ticksChan (T i))) (runner τ) (chargeTick (T (runner τ)))) := by
    refine ⟨?_, ?_⟩
    · intro i hi
      rw [update_of_ne hi]
      exact hwait i hi
    · rw [update_self, hgrow, hwarn]
      exact hcharge
  have hpath := tick_path (K := Kept τ) (s := s) (c := 0) (t := τ) hlock rfl h.served.state
    (h.kept (.inl rfl) hτ) (fun i hi => .inl (hwake i hi))
    (fun i hi => .inr (.inl (by rw [hclock]; exact hwait i hi)))
    (by have hk := hserving.kept (.inr rfl) hτ (runner τ); rwa [update_self] at hk)
  rw [hclock, hover, if_pos rfl] at hpath
  exact ⟨_, hserving, hpath⟩

theorem scan_round (hlock : ∀ i, s.lock i = none) (h : ∀ j, Expected τ j (T j)) (h₁ : 1 ≤ τ) (h₂ : τ ≤ 54) :
    ∃ prio, Path Kernel.step (Slots (Expected τ)) (put s 0 ⟨none, .top⟩ T τ)
      (put s 0 ⟨none, .pass2 (some (runner τ)) prio⟩ (fun i => rescore (T i)) τ) := by
  have hscan := scan_path (s := s) (c := 0) (t := τ) hlock h (fun j => (h j).rescore)
  rw [best_runner h h₁ h₂] at hscan
  exact ⟨_, hscan⟩

theorem dispatched_serving (h : ∀ j, Expected τ j (T j)) (hτ : τ ≤ 54) :
    Serving τ τ (update T (runner τ) (dispatch τ (T (runner τ)))) := by
  refine ⟨?_, ?_⟩
  · intro i hi
    rw [update_of_ne hi]
    exact h i
  · rw [update_self]
    exact ((h (runner τ)).row (runner_lt τ)).dispatch (charged_le _ hτ) τ

theorem Serving.resume (h : Serving τ τ T) :
    Serving τ τ (update T (runner τ) (resume (T (runner τ)))) := by
  refine ⟨?_, ?_⟩
  · intro i hi
    rw [update_of_ne hi]
    exact h.others i hi
  · rw [update_self]
    exact h.served.resume

theorem Serving.yield (h : Serving τ (τ + 1) T) (t : Nat) (j : Slot) :
    Expected (τ + 1) j (update T (runner τ) (yield t (T (runner τ))) j) := by
  by_cases hj : j = runner τ
  · have hw : waited (τ + 1) (runner τ) = 0 := waited_runner
    have hlt := runner_lt τ
    rw [hj, update_self]
    refine ⟨fun _ => ?_, fun hge => absurd hge (by omega)⟩
    rw [hw]
    exact h.served.yield t
  · rw [update_of_ne hj]
    exact h.others j hj

theorem resumed_path (hlock : ∀ i, s.lock i = none) (hτ : τ < 54) (h : Serving τ τ T) :
    ∃ T', Serving τ (τ + 1) T' ∧
      Path Kernel.step (Slots (Kept τ)) (put (held s (runner τ) 0) 0 ⟨some (runner τ), .resumed⟩ T τ)
        (put s 0 ⟨some (runner τ), .expired⟩ T' (τ + 1)) := by
  obtain ⟨T', hT', hpath⟩ := serve_path hlock hτ h.resume
  exact ⟨T', hT', .cons (h.kept (.inl rfl) hτ) (step_resume (hlock _)) hpath⟩

theorem slice_path (hlock : ∀ i, s.lock i = none) (h : ∀ j, Expected τ j (T j)) (h₁ : 1 ≤ τ) (hτ : τ < 54) :
    ∃ T', Serving τ (τ + 1) T' ∧
      Path Kernel.step (Slots (Kept τ)) (put s 0 ⟨none, .top⟩ T τ)
        (put s 0 ⟨some (runner τ), .expired⟩ T' (τ + 1)) := by
  obtain ⟨prio, hscan⟩ := scan_round hlock h h₁ (Nat.le_of_lt hτ)
  have h' : ∀ j, Expected τ j (rescore (T j)) := fun j => (h j).rescore
  obtain ⟨T', hT', hserve⟩ := resumed_path hlock hτ (dispatched_serving h' (Nat.le_of_lt hτ))
  have hpick := step_pick (s := s) (c := 0) (T := fun i => rescore (T i)) (t := τ) prio
    (hlock (runner τ)) ((h' (runner τ)).row (runner_lt τ)).state
  refine ⟨T', hT', (hscan.mono ?_).trans (.cons ?_ hpick hserve)⟩
  · exact fun _ hs j => .inl (hs j)
  · exact fun j => .inl (h' j)

theorem preempt_path (hlock : ∀ i, s.lock i = none) (h : Serving τ (τ + 1) T) (hτ : τ < 54) :
    Path Kernel.step (Slots (Kept τ)) (put s 0 ⟨some (runner τ), .expired⟩ T (τ + 1))
      (put s 0 ⟨none, .top⟩ (update T (runner τ) (yield (τ + 1) (T (runner τ)))) (τ + 1)) := by
  have hy := h.yield (τ + 1) (runner τ)
  rw [update_self] at hy
  exact yield_path (h.kept (.inr rfl) hτ) (hlock _) (.inr (.inl hy))

theorem rounds_path {τ' : Nat} {K : Slot → Proc → Prop} (hlock : ∀ i, s.lock i = none)
    (h : ∀ j, Expected τ j (T j)) (h₁ : 1 ≤ τ) (hle : τ ≤ τ') (hτ' : τ' ≤ 54)
    (hK : ∀ j x, Expected τ j x → K j x)
    (hkeep : ∀ σ, τ ≤ σ → σ < τ' → ∀ j x, Kept σ j x → K j x) :
    ∃ T', (∀ j, Expected τ' j (T' j)) ∧
      Path Kernel.step (Slots K) (put s 0 ⟨none, .top⟩ T τ) (put s 0 ⟨none, .top⟩ T' τ') := by
  induction τ', hle using Nat.le_induction with
  | base => exact ⟨T, h, .refl (fun j => hK j _ (h j))⟩
  | succ σ hσ ih =>
    obtain ⟨T', hT', hpath⟩ := ih (by omega) (fun ρ hρ hρ' => hkeep ρ hρ (by omega))
    obtain ⟨T'', hT'', hslice⟩ := slice_path hlock hT' (by omega) (by omega)
    have hround := hslice.trans (preempt_path hlock hT'' (by omega))
    exact ⟨_, hT''.yield (σ + 1), hpath.trans (hround.mono
      (fun _ hs j => hkeep σ hσ (by omega) j _ (hs j)))⟩

def Short : Slot → Proc → Prop := fun _ x => x.currentBurst ≤ 2

theorem burstsBelow_of_short {n B : Nat} {r : Run n} (h : ∀ k, Slots Short (r.state k)) (hB : 2 < B)
    (hB' : B < 2 ^ 32) : BurstsBelow r B :=
  burstsBelow_of_currentBurst r hB' (fun k p => Nat.lt_of_le_of_lt (h k p) hB)

theorem Kept.short (h : Kept τ j x) (hτ : τ < 54) : Short j x := by
  rcases h with h | h | h
  · exact h.burst_le (by omega)
  · exact h.burst_le (by omega)
  · exact h.2

structure Born (m : Nat) (T : Slot → Proc) : Prop where
  init : Served 0 false (T 0)
  row : ∀ j : Slot, 1 ≤ j.val → j.val ≤ m → Row 0 0 false (T j)
  free : ∀ j : Slot, m < j.val → (T j).state = .unused ∧ (T j).currentBurst = 0

theorem Born.short {m : Nat} (h : Born m T) (j : Slot) : Short j (T j) := by
  by_cases h0 : j = 0
  · rw [h0, Short, h.init.burst]
    omega
  · have hj : j.val ≠ 0 := fun hv => h0 (Fin.ext hv)
    by_cases hm : j.val ≤ m
    · rw [Short, (h.row j (by omega) hm).burst]
      omega
    · rw [Short, (h.free j (by omega)).2]
      omega

theorem newborn_row (pid : Int) (t : Nat) (x : Proc) : Row 0 0 false (newborn pid t x) :=
  ⟨newborn_profile pid t x, by simp [flagged, newborn, makeRunnable, allocproc]⟩

theorem Born.fork {m : Nat} (h : Born m T) (hm : m < 63) (pid : Int) (t : Nat) :
    Born (m + 1) (update T ⟨m + 1, Nat.succ_lt_succ hm⟩
      (newborn pid t (T ⟨m + 1, Nat.succ_lt_succ hm⟩))) := by
  refine ⟨?_, ?_, ?_⟩
  · rw [update_of_ne (by simp [Fin.ext_iff])]
    exact h.init
  · intro j h1 hj
    by_cases he : j.val = m + 1
    · have hj' : j = ⟨m + 1, Nat.succ_lt_succ hm⟩ := Fin.ext he
      rw [hj', update_self]
      exact newborn_row _ _ _
    · rw [update_of_ne (fun hh => he (by rw [hh]))]
      exact h.row j h1 (by omega)
  · intro j hj
    rw [update_of_ne (fun hh => by rw [hh] at hj; exact absurd hj (Nat.lt_irrefl _))]
    exact h.free j (by omega)

theorem forks_path {n : Nat} (c : Fin n) {m : Nat} (hm : m ≤ 63) : ∃ s T, (∀ i, s.lock i = none) ∧
    (∀ d, s.cpus d = ⟨none, .top⟩) ∧ Born m T ∧
    Path Kernel.step (Slots Short) (boot n) (put s c ⟨some 0, .running⟩ T 0) := by
  induction m with
  | zero =>
    have hturn := turn_only (s := boot n) (c := c) (t := 0) (x := userinit) (fun _ => rfl) rfl rfl
    rw [← boot_put] at hturn
    refine ⟨boot n, _, fun _ => rfl, fun _ => rfl, ?_, hturn.mono ?_⟩
    · refine ⟨⟨⟨rfl, rfl, rfl, rfl, rfl⟩, rfl, rfl, rfl⟩, fun j h1 h0 => absurd h1 (by omega), ?_⟩
      intro j hj
      rw [only_of_ne (fun he => by rw [he] at hj; exact absurd hj (Nat.lt_irrefl _))]
      exact ⟨rfl, rfl⟩
    · intro _ hs j
      rw [Short, hs j]
      omega
  | succ m ih =>
    obtain ⟨s, T, hlock, hcpus, hT, hpath⟩ := ih (by omega)
    have hT' := hT.fork (by omega) s.nextpid 0
    refine ⟨numbered s, _, hlock, hcpus, hT', hpath.trans ?_⟩
    exact fork_path (hlock _) (hT.free _ (Nat.lt_succ_self m)).1 hT.short (Nat.zero_le 2) (Nat.zero_le 2)

theorem Born.serving (h : Born 27 T) : Serving 0 0 T := by
  refine ⟨?_, h.init⟩
  intro j hj
  have hj0 : j.val ≠ 0 := fun hv => hj (Fin.ext hv)
  refine ⟨fun hlt => ?_, fun hge => h.free j (by omega)⟩
  have hw : waited 0 j = 0 := Nat.le_zero.mp (waited_le 0 j)
  have hc : charged 0 j = 0 := by
    rw [charged]
    split <;> omega
  have hf : warned 0 j = false := by
    rw [warned]
    split <;> simp
  rw [hw, hc, hf]
  exact h.row j (by omega) (by omega)

theorem expired_path (hτ : τ < 54) : ∃ s T, (∀ i, s.lock i = none) ∧ Serving τ (τ + 1) T ∧
    Path Kernel.step (Slots Short) (boot 1) (put s 0 ⟨some (runner τ), .expired⟩ T (τ + 1)) := by
  obtain ⟨s, T, hlock, -, hborn, hforks⟩ := forks_path (n := 1) 0 (m := 27) (by omega)
  refine ⟨s, ?_⟩
  induction τ with
  | zero =>
    obtain ⟨T', hT', hserve⟩ := serve_path hlock (by omega) hborn.serving
    exact ⟨T', hlock, hT', hforks.trans (hserve.mono (fun _ hs j => (hs j).short (by omega)))⟩
  | succ τ ih =>
    obtain ⟨T', -, hT', hpath⟩ := ih (by omega)
    obtain ⟨T'', hT'', hslice⟩ := slice_path hlock (hT'.yield (τ + 1)) (by omega) hτ
    have hpreempt := (preempt_path hlock hT' (by omega)).mono (fun _ hs j => (hs j).short (by omega))
    exact ⟨T'', hlock, hT'', (hpath.trans hpreempt).trans
      (hslice.mono (fun _ hs j => (hs j).short (by omega)))⟩

def Waits (q : Slot) (j : Slot) (x : Proc) : Prop :=
  x.currentBurst ≤ 2 ∧ (j = q → x.state = .runnable ∧ x.waitticks ≤ 54)

theorem Expected.waits (h : Expected τ j x) (hτ : τ ≤ 54) {q : Slot} (hq : q.val < 28) : Waits q j x := by
  refine ⟨h.burst_le hτ, ?_⟩
  rintro rfl
  have hrow := h.row hq
  have hw := waited_le τ j
  exact ⟨hrow.state, by rw [hrow.wait]; omega⟩

theorem Kept.waits (h : Kept τ j x) (hτ : τ < 54) {q : Slot} (hq : q.val < 28) (hne : runner τ ≠ q) :
    Waits q j x := by
  rcases h with h | h | h
  · exact Expected.waits h (by omega) hq
  · exact Expected.waits h (by omega) hq
  · refine ⟨h.2, ?_⟩
    rintro rfl
    exact absurd h.1.symm hne

theorem later_path (τ' : Nat) {q : Slot} (hlock : ∀ i, s.lock i = none) (h : Serving τ (τ + 1) T)
    (hlt : τ < τ') (hτ' : τ' ≤ 54) (hq : q.val < 28)
    (hne : ∀ σ, τ < σ → σ < τ' → runner σ ≠ q) :
    ∃ prio T', (∀ j, Expected τ' j (T' j)) ∧
      Path Kernel.step (Slots (Waits q))
        (put (held s (runner τ) 0) 0 ⟨some (runner τ), .switching⟩
          (update T (runner τ) (yield (τ + 1) (T (runner τ)))) (τ + 1))
        (put s 0 ⟨none, .pass2 (some (runner τ')) prio⟩ T' τ') := by
  have hround := h.yield (τ + 1)
  obtain ⟨T', hT', hrounds⟩ := rounds_path (K := Waits q) (s := s) hlock hround (by omega) hlt hτ'
    (fun j x hx => Expected.waits hx (by omega) hq)
    (fun σ hσ hσ' j x hx => hx.waits (by omega) hq (hne σ hσ hσ'))
  obtain ⟨prio, hscan⟩ := scan_round hlock hT' (by omega) hτ'
  refine ⟨prio, _, fun j => (hT' j).rescore, .cons ?_ (step_swtch (hlock _)) (hrounds.trans (hscan.mono ?_))⟩
  · exact fun j => Expected.waits (hround j) (by omega) hq
  · exact fun _ hs j => Expected.waits (hs j) hτ' hq

theorem chosen_path (h₁ : 1 ≤ τ) (h₂ : τ ≤ 54) : ∃ s prio T, (∀ i, s.lock i = none) ∧
    (∀ j, Expected τ j (T j)) ∧
    Path Kernel.step (Slots Short) (boot 1) (put s 0 ⟨none, .pass2 (some (runner τ)) prio⟩ T τ) := by
  obtain ⟨σ, rfl⟩ := Nat.exists_eq_add_of_le' h₁
  obtain ⟨s, T, hlock, hT, hpath⟩ := expired_path (τ := σ) (by omega)
  obtain ⟨prio, hscan⟩ := scan_round hlock (hT.yield (σ + 1)) h₁ h₂
  have hpreempt := (preempt_path hlock hT (by omega)).mono (fun _ hs j => (hs j).short (by omega))
  exact ⟨s, prio, _, hlock, fun j => (hT.yield (σ + 1) j).rescore, (hpath.trans hpreempt).trans
    (hscan.mono (fun _ hs j => (hs j).burst_le h₂))⟩

theorem between_path (τ' : Nat) {q : Slot} (hlock : ∀ i, s.lock i = none) (h : ∀ j, Expected τ j (T j))
    (hlt : τ < τ') (hτ' : τ' ≤ 54) (hq : q.val < 28) (hne : ∀ σ, τ ≤ σ → σ < τ' → runner σ ≠ q) :
    ∃ prio T', (∀ j, Expected τ' j (T' j)) ∧
      Path Kernel.step (Slots (Waits q))
        (put (held s (runner τ) 0) 0 ⟨some (runner τ), .resumed⟩
          (update T (runner τ) (dispatch τ (T (runner τ)))) τ)
        (put s 0 ⟨none, .pass2 (some (runner τ')) prio⟩ T' τ') := by
  obtain ⟨T₁, hT₁, hserve⟩ := resumed_path hlock (by omega) (dispatched_serving h (by omega))
  obtain ⟨prio, T₂, hT₂, hlater⟩ := later_path τ' hlock hT₁ hlt hτ' hq (fun σ hσ => hne σ (by omega))
  have hserve' := hserve.mono (fun _ hs j => (hs j).waits (by omega) hq (hne τ (Nat.le_refl τ) hlt))
  exact ⟨prio, T₂, hT₂, hserve'.trans (.cons hserve'.last (step_yield (hlock _)) hlater)⟩

end AdaptiveXv6.Rotation
