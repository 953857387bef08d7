import AdaptiveXv6.Profiles
import AdaptiveXv6.Waiting

namespace AdaptiveXv6.RoundRobin

open Words Process Ops Scan Waiting Profiles

variable {x : Proc} {w c τ : Nat} {f : Bool}

structure Row (w c : Nat) (f : Bool) (x : Proc) : Prop extends Profile .runnable w c c x where
  flag : flagged x = f

structure Served (c : Nat) (f : Bool) (x : Proc) : Prop extends Profile .running 0 c c x where
  slice : x.timeSlice = 1
  used : x.ticksInSlice = 0
  flag : flagged x = f

theorem Row.rescore (h : Row w c f x) : Row w c f (rescore x) := by
  refine ⟨h.toProfile.rescore, ?_⟩
  rw [Ops.rescore]
  split <;> exact h.flag

theorem Row.wakeup (h : Row w c f x) (chan : Nat) : Row w c f (wakeup chan x) := by
  rw [wakeup_eq (.inl (by simp [h.state]))]
  exact h

theorem Row.accountWait (h : Row w c f x) (hw : w < 100) (t : Nat) :
    Row (w + 1) c (f || decide (20 ≤ w + 1)) (accountWait t x) := by
  have hcount : (countWait x).waitticks = w + 1 := by
    rw [countWait, h.wait, u64_of_lt (by omega)]
  refine ⟨h.toProfile.accountWait (by omega) t, ?_⟩
  by_cases hst : starved (countWait x) = true
  · obtain ⟨hge, -⟩ := starved_countWait.mp hst
    rw [(accountWait_starved t h.state hst).1, ← hcount, decide_eq_true hge, Bool.or_true]
  · have hflag : flagged (countWait x) = f := h.flag
    rw [accountWait_not_starved t h.state hst, hflag]
    cases f with
    | true => rfl
    | false =>
      have hlt : ¬20 ≤ w + 1 := fun hge => hst (starved_countWait.mpr ⟨by omega, h.flag⟩)
      rw [decide_eq_false hlt, Bool.or_false]

theorem classify_short (hc : c ≤ 2) : classify c = .interactive := if_pos hc

theorem Row.dispatch (h : Row w c f x) (hc : c ≤ 2) (t : Nat) : Served c f (dispatch t x) := by
  refine ⟨h.toProfile.dispatch t, ?_, ?_, ?_⟩ <;> rw [Ops.dispatch, if_pos h.state]
  · simp [calcTimeSlice, h.type, classify_short hc]
  · exact h.flag

theorem Served.resume (h : Served c f x) : Served c f (resume x) := by
  refine ⟨h.toProfile.resume, ?_, ?_, ?_⟩
  all_goals unfold Ops.resume
  · split <;> exact h.slice
  · split <;> exact h.used
  · split <;> exact h.flag

theorem Served.chargeTick (h : Served c f x) (hc : c ≤ 1) :
    shouldYield x = true ∧ Served (c + 1) f (chargeTick x) := by
  have hgrow : (growEstimate (countTick x)).timeSlice = 1 ∧ (growEstimate (countTick x)).ticksInSlice = 1 ∧
      flagged (growEstimate (countTick x)) = f := by
    have hused : (countTick x).ticksInSlice = 1 := by simp [countTick, h.used, u32]
    rw [growEstimate]
    split <;> exact ⟨h.slice, hused, h.flag⟩
  obtain ⟨hslice, hused, hflag⟩ := hgrow
  have hover : sliceOver (growEstimate (countTick x)) = true := by simp [sliceOver, hslice, hused]
  refine ⟨hover, h.toProfile.chargeTick (by omega), ?_, ?_, ?_⟩ <;> rw [Ops.chargeTick, if_pos hover]
  · exact hslice
  · exact hflag

theorem Served.yield (h : Served c f x) (t : Nat) : Row 0 c f (yield t x) := by
  refine ⟨h.toProfile.yield (Nat.le_refl c) t, ?_⟩
  rw [yield_eq (by rw [h.burst, h.est])]
  exact h.flag

theorem Row.score (h : Row w c f x) (hw : w < 100) (hc : c ≤ 2) :
    calcDynamicPriority x = min 100 (max 1 (50 + 2 * (w : Int) - c)) := by
  rw [h.toProfile.score (by omega) (by omega), classify_short hc]
  rfl

def runner (τ : Nat) : Slot := ⟨τ % 27, Nat.lt_trans (Nat.mod_lt τ (by omega)) (by decide)⟩

def waited (τ j : Nat) : Nat := if j = 27 ∨ τ ≤ j then τ else (τ - 1 - j) % 27

def charged (τ j : Nat) : Nat := if j = 27 then 0 else (τ + 26 - j) / 27

def warned (τ j : Nat) : Bool := if 20 ≤ j then decide (20 ≤ τ) else decide (21 + j ≤ τ)

structure Expected (τ : Nat) (j : Slot) (x : Proc) : Prop where
  row : j.val < 28 → Row (waited τ j) (charged τ j) (warned τ j) x
  free : 28 ≤ j.val → x.state = .unused ∧ x.currentBurst = 0

theorem waited_other {j : Nat} (hj : j < 28) (hne : j ≠ τ % 27) :
    waited (τ + 1) j = waited τ j + 1 := by
  unfold waited
  split <;> split <;> omega

theorem charged_other {j : Nat} (hj : j < 28) (hne : j ≠ τ % 27) : charged (τ + 1) j = charged τ j := by
  unfold charged
  split <;> omega

theorem warned_other {j : Nat} (hj : j < 28) (hne : j ≠ τ % 27) (hτ : τ < 54) :
    warned (τ + 1) j = (warned τ j || decide (20 ≤ waited τ j + 1)) := by
  unfold warned waited
  split <;> split <;> rw [← Bool.decide_or] <;> apply decide_eq_decide.mpr <;> omega

theorem waited_runner : waited (τ + 1) (τ % 27) = 0 := by
  rw [waited]
  split <;> omega

theorem charged_runner : charged (τ + 1) (τ % 27) = charged τ (τ % 27) + 1 := by
  unfold charged
  split <;> omega

theorem warned_runner : warned (τ + 1) (τ % 27) = warned τ (τ % 27) := by
  unfold warned
  split <;> apply decide_eq_decide.mpr <;> omega

theorem waited_le (τ j : Nat) : waited τ j ≤ τ := by
  rw [waited]
  split <;> omega

theorem charged_le (j : Nat) (hτ : τ ≤ 54) : charged τ j ≤ 2 := by
  rw [charged]
  split <;> omega

theorem lap {j : Nat} (hj : j < 28) (hτ : τ ≤ 54) :
    ((j = 27 ∨ τ ≤ j) ∧ waited τ j = τ ∧ charged τ j = 0) ∨
      (j < 27 ∧ j < τ ∧ τ ≤ j + 27 ∧ waited τ j + j + 1 = τ ∧ charged τ j = 1) ∨
      (j < 27 ∧ j + 27 < τ ∧ waited τ j + j + 28 = τ ∧ charged τ j = 2) := by
  rw [waited, charged]
  split <;> split <;> omega

variable {j : Slot}

theorem Expected.rescore (h : Expected τ j x) : Expected τ j (rescore x) := by
  refine ⟨fun hj => (h.row hj).rescore, fun hj => ?_⟩
  rw [Ops.rescore, if_neg (by simp [(h.free hj).1])]
  exact h.free hj

theorem Expected.wakeup (h : Expected τ j x) (chan : Nat) : Expected τ j (wakeup chan x) := by
  refine ⟨fun hj => (h.row hj).wakeup chan, fun hj => ?_⟩
  rw [Ops.wakeup, if_neg (by simp [(h.free hj).1])]
  exact h.free hj

theorem Expected.account (h : Expected τ j x) (hne : j ≠ runner τ) (hτ : τ < 54) (t : Nat) :
    Expected (τ + 1) j (accountWait t x) := by
  have hj : j.val ≠ τ % 27 := fun he => hne (Fin.ext he)
  refine ⟨fun hlt => ?_, fun hge => ?_⟩
  · have hw := waited_le τ j
    have hrow := (h.row hlt).accountWait (by omega) t
    rwa [waited_other hlt hj, charged_other hlt hj, warned_other hlt hj hτ]
  · rw [accountWait, if_neg (by simp [(h.free hge).1])]
    exact h.free hge

theorem Expected.burst_le (h : Expected τ j x) (hτ : τ ≤ 54) : x.currentBurst ≤ 2 := by
  by_cases hj : j.val < 28
  · rw [(h.row hj).burst]
    exact charged_le j hτ
  · have hfree := h.free (by omega)
    omega

theorem runner_lt (τ : Nat) : (runner τ).val < 28 := Nat.lt_trans (Nat.mod_lt τ (by omega)) (by omega)

theorem best_runner {T : Slot → Proc} (h : ∀ j, Expected τ j (T j)) (h₁ : 1 ≤ τ) (h₂ : τ ≤ 54) :
    (best T NPROC).1 = some (runner τ) := by
  have hscore : ∀ j : Slot, j.val < 28 → calcDynamicPriority (T j) =
      min 100 (max 1 (50 + 2 * (waited τ j : Int) - charged τ j)) := by
    intro j hj
    have hw := waited_le τ j
    have hc := charged_le j h₂
    exact ((h j).row hj).score (by omega) hc
  have hlt : ∀ j : Slot, (T j).state = .runnable → j.val < 28 := by
    intro j hr
    by_contra hj
    rw [((h j).free (by omega)).1] at hr
    cases hr
  have hrun := runner_lt τ
  have hval : (runner τ).val = τ % 27 := rfl
  have hlap := lap hrun h₂
  rw [best_eq (T := T) (p := runner τ) ((h _).row hrun).state]
  · intro q hq hr
    rw [hscore q (hlt q hr), hscore _ hrun]
    rw [Fin.lt_def] at hq
    rcases lap (hlt q hr) h₂ with hl | hl | hl <;> omega
  · intro q hr
    rw [hscore q (hlt q hr), hscore _ hrun]
    rcases lap (hlt q hr) h₂ with hl | hl | hl <;> omega

end AdaptiveXv6.RoundRobin
