import AdaptiveXv6.Rotation

namespace AdaptiveXv6.Starvation

open Words Process Health Ops Machine SlotHistory Waiting Runs Sweeps Rounds RoundRobin Rotation

variable {n : Nat}

def healsAt (r : Run n) (p : Slot) (k : Nat) : Bool :=
  sectionAt r k p = some .accountWait && ((r.state k).procs p).state = .runnable &&
    starved (countWait ((r.state k).procs p))

def heals (r : Run n) (p : Slot) (a : Nat) : Nat → Nat
  | 0 => 0
  | m + 1 => heals r p a m + (healsAt r p (a + m)).toNat

/-- Positions a to a + m, in which the process in slot p stays runnable, and that do not extend further back.
-/
structure Interval (r : Run n) (p : Slot) (a m : Nat) : Prop where
  runnable : ∀ k, a ≤ k → k ≤ a + m → ((r.state k).procs p).state = .runnable
  start : ∀ k, k + 1 = a → ((r.state k).procs p).state ≠ .runnable

variable {r : Run n} {p : Slot} {a m : Nat}

theorem Interval.waitticks_start (h : Interval r p a m) : ((r.state a).procs p).waitticks = 0 := by
  have ha := h.runnable a (Nat.le_refl a) (Nat.le_add_right a m)
  cases a with
  | zero =>
    rw [r.start]
    simp only [boot]
    split <;> rfl
  | succ k => exact enters_runnable r (h.start k rfl) ha

theorem Interval.shorten (h : Interval r p a (m + 1)) : Interval r p a m :=
  ⟨fun k hk hk' => h.runnable k hk (by omega), h.start⟩

inductive Episode (r : Run n) (p : Slot) (a m : Nat) : Prop
  | waiting (clear : flagged ((r.state a).procs p) = false)
      (now : flagged ((r.state (a + m)).procs p) = false)
      (short : ∀ j, j ≤ m → ((r.state (a + j)).procs p).waitticks < 20)
      (none : heals r p a m = 0)
      (same : ((r.state (a + m)).procs p).healingActions = ((r.state a).procs p).healingActions)
  | healed (clear : flagged ((r.state a).procs p) = false)
      (now : flagged ((r.state (a + m)).procs p) = true)
      (once : heals r p a m = 1)
      (grown : ((r.state (a + m)).procs p).healingActions = u32 (((r.state a).procs p).healingActions + 1))
  | stale (set : flagged ((r.state a).procs p) = true)
      (now : flagged ((r.state (a + m)).procs p) = true)
      (none : heals r p a m = 0)
      (same : ((r.state (a + m)).procs p).healingActions = ((r.state a).procs p).healingActions)

theorem heals_succ (r : Run n) (p : Slot) (a m : Nat) :
    heals r p a (m + 1) = heals r p a m + (healsAt r p (a + m)).toNat := rfl

theorem Interval.step (h : Interval r p a (m + 1)) :
    (healsAt r p (a + m) = true ∧ flagged ((r.state (a + m)).procs p) = false ∧
      flagged ((r.state (a + m + 1)).procs p) = true ∧
      ((r.state (a + m + 1)).procs p).healingActions =
        u32 (((r.state (a + m)).procs p).healingActions + 1)) ∨
    (healsAt r p (a + m) = false ∧
      flagged ((r.state (a + m + 1)).procs p) = flagged ((r.state (a + m)).procs p) ∧
      ((r.state (a + m + 1)).procs p).healingActions = ((r.state (a + m)).procs p).healingActions ∧
      (flagged ((r.state (a + m)).procs p) = false → ((r.state (a + m)).procs p).waitticks < 20 →
        ((r.state (a + m + 1)).procs p).waitticks < 20)) := by
  have hx := h.runnable (a + m) (by omega) (by omega)
  have hx' := h.runnable (a + m + 1) (by omega) (by omega)
  rcases stays_runnable r hx hx' with hs | ⟨hs, hw⟩
  · rw [section_apply r hs]
    simp only [Op.apply]
    by_cases hst : starved (countWait ((r.state (a + m)).procs p)) = true
    · obtain ⟨hf, hh⟩ := accountWait_starved (r.state (a + m)).ticks hx hst
      exact .inl ⟨by simp [healsAt, hs, hx, hst], (starved_countWait.mp hst).2, hf, hh⟩
    · rw [accountWait_not_starved _ hx hst]
      refine .inr ⟨by simp [healsAt, hst], rfl, rfl, ?_⟩
      intro hf _
      by_contra hge
      exact hst (starved_countWait.mpr ⟨by omega, hf⟩)
  · refine .inr ⟨by simp [healsAt, hs], ?_, hw.health.healingActions, ?_⟩
    · simp only [flagged, hw.health.anomalyFlags]
    · intro _ hlt
      rw [hw.waitticks]
      exact hlt

theorem Interval.episode (h : Interval r p a m) : Episode r p a m := by
  induction m with
  | zero =>
    cases hf : flagged ((r.state a).procs p) with
    | true => exact .stale hf hf rfl rfl
    | false =>
      refine .waiting hf hf ?_ rfl rfl
      intro j hj
      rw [Nat.le_zero.mp hj, Nat.add_zero, h.waitticks_start]
      decide
  | succ m ih =>
    have hsucc := heals_succ r p a m
    rcases h.step with ⟨hh, hf, hf', hg⟩ | ⟨hh, hf, hg, hw⟩
    · rw [hh, Bool.toNat_true] at hsucc
      cases ih h.shorten with
      | waiting clear now short none same =>
        exact .healed clear hf' (by rw [hsucc, none]) (by rw [← same]; exact hg)
      | healed clear now once grown =>
        rw [now] at hf
        cases hf
      | stale set now none same =>
        rw [now] at hf
        cases hf
    · rw [hh, Bool.toNat_false, Nat.add_zero] at hsucc
      cases ih h.shorten with
      | waiting clear now short none same =>
        refine .waiting clear (hf.trans now) ?_ (hsucc.trans none) (hg.trans same)
        intro j hj
        by_cases hm : j ≤ m
        · exact short j hm
        · have hj : j = m + 1 := by omega
          subst hj
          exact hw now (short m (Nat.le_refl m))
      | healed clear now once grown =>
        exact .healed clear (hf.trans now) (hsucc.trans once) (hg.trans grown)
      | stale set now none same => exact .stale set (hf.trans now) (hsucc.trans none) (hg.trans same)

/-- A wait that reaches the threshold is healed exactly once if the starvation flag was clear when it began,
and otherwise not at all. -/
theorem starvation_healed_iff (h : Interval r p a m)
    (hreach : ∃ j, j ≤ m ∧ STARVATION_THRESH_TICKS ≤ ((r.state (a + j)).procs p).waitticks) :
    (heals r p a m = 1 ∧
      ((r.state (a + m)).procs p).healingActions = u32 (((r.state a).procs p).healingActions + 1)) ↔
    ((r.state a).procs p).anomalyFlags &&& ANOMALY_STARVATION = 0 := by
  have hclear : ((r.state a).procs p).anomalyFlags &&& ANOMALY_STARVATION = 0 ↔
      flagged ((r.state a).procs p) = false := by simp [flagged]
  obtain ⟨j, hj, hw⟩ := hreach
  rw [hclear]
  cases h.episode with
  | waiting clear now short none same => exact absurd hw (Nat.not_le.mpr (short j hj))
  | healed clear now once grown => exact ⟨fun _ => clear, fun _ => ⟨once, grown⟩⟩
  | stale set now none same =>
    constructor
    · intro hone
      omega
    · intro hf
      rw [set] at hf
      cases hf

theorem turn_interval {τ : Nat} (hτ : τ ≤ 27) {p : Slot} (hp : runner τ = p) :
    ∃ (r : Run 1) (a m : Nat), Interval r p a m ∧ ((r.state (a + m + 1)).procs p).state = .running ∧
      Expected (τ + 1) p ((r.state a).procs p) ∧ Expected (τ + 27) p ((r.state (a + m)).procs p) := by
  subst hp
  have hrun : runner (τ + 27) = runner τ := Fin.ext (Nat.add_mod_right τ 27)
  obtain ⟨s, T, hlock, hT, hpath⟩ := expired_path (τ := τ) (by omega)
  obtain ⟨prio, T', hT', hlater⟩ := later_path (τ + 27) hlock hT (by omega) (by omega) (runner_lt τ)
    (fun σ hσ hσ' he => by rw [Fin.ext_iff] at he; simp only [runner] at he; omega)
  rw [hrun] at hlater
  have hpick := step_pick (s := s) (c := 0) (t := τ + 27) prio (hlock (runner τ))
    ((hT' (runner τ)).row (runner_lt τ)).state
  obtain ⟨r, i, j, hij, hi, hei, hi', hj, hej, hj', -, hmid, -⟩ :=
    hpath.exists_run_between (step_yield (hlock (runner τ))) hlater hpick
  have hend : i + 1 + (j - (i + 1)) = j := by omega
  refine ⟨r, i + 1, j - (i + 1), ⟨?_, ?_⟩, ?_, ?_, ?_⟩
  · intro k hk hk'
    exact ((hmid k (by omega) (by omega) (runner τ)).2 rfl).1
  · intro k hk
    obtain rfl : k = i := by omega
    rw [hi, put_procs, hT.served.state]
    simp
  · rw [hend, hj', put_procs, Function.update_self, dispatch_state,
      if_pos ((hT' (runner τ)).row (runner_lt τ)).state]
  · rw [hi']
    exact hT.yield (τ + 1) (runner τ)
  · rw [hend, hj]
    exact hT' (runner τ)

theorem starvation_healed_second : ∃ (r : Run 1) (a m : Nat), Interval r 0 a m ∧
    (∃ j, j ≤ m ∧ STARVATION_THRESH_TICKS ≤ ((r.state (a + j)).procs 0).waitticks) ∧
    heals r 0 a m = 1 := by
  obtain ⟨r, a, m, hint, -, ha, hm⟩ := turn_interval (τ := 0) (p := 0) (by omega) rfl
  have hreach : STARVATION_THRESH_TICKS ≤ ((r.state (a + m)).procs 0).waitticks := by
    rw [(hm.row (by decide)).wait]
    decide
  have hf : flagged ((r.state a).procs 0) = false := (ha.row (by decide)).flag
  have hclear : ((r.state a).procs 0).anomalyFlags &&& ANOMALY_STARVATION = 0 := by
    simpa [flagged] using hf
  exact ⟨r, a, m, hint, ⟨m, Nat.le_refl m, hreach⟩,
    ((starvation_healed_iff hint ⟨m, Nat.le_refl m, hreach⟩).mpr hclear).1⟩

/-- Its third wait reaches the threshold, up to the dispatch that ends it, and is not healed. -/
theorem starvation_unhealed_third : ∃ (r : Run 1) (a m : Nat), Interval r 0 a m ∧
    ((r.state (a + m + 1)).procs 0).state ≠ .runnable ∧
    (∃ j, j ≤ m ∧ STARVATION_THRESH_TICKS ≤ ((r.state (a + j)).procs 0).waitticks) ∧
    heals r 0 a m = 0 ∧
    ((r.state (a + m)).procs 0).healingActions = ((r.state a).procs 0).healingActions := by
  obtain ⟨r, a, m, hint, hend, ha, hm⟩ := turn_interval (τ := 27) (p := 0) (by omega) rfl
  have hreach : STARVATION_THRESH_TICKS ≤ ((r.state (a + m)).procs 0).waitticks := by
    rw [(hm.row (by decide)).wait]
    decide
  have hset : flagged ((r.state a).procs 0) = true := (ha.row (by decide)).flag
  refine ⟨r, a, m, hint, ?_, ⟨m, Nat.le_refl m, hreach⟩, ?_⟩
  · rw [hend]
    simp
  · cases hint.episode with
    | waiting clear | healed clear =>
      rw [clear] at hset
      cases hset
    | stale set now none same => exact ⟨none, same⟩

end AdaptiveXv6.Starvation
