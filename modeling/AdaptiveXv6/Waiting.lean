import Mathlib.Data.Nat.Init
import AdaptiveXv6.Counters
import AdaptiveXv6.Detection

namespace AdaptiveXv6.Waiting

open Words Process Health Detection Ops Machine Kernel SlotHistory Counters

variable {n : Nat} {x y : Proc}

structure SameWait (y x : Proc) : Prop where
  state : y.state = x.state
  waitticks : y.waitticks = x.waitticks
  estBurst : y.estBurst = x.estBurst
  procType : y.procType = x.procType
  health : SameHealth y x

theorem SameWait.refl (x : Proc) : SameWait x x := ⟨rfl, rfl, rfl, rfl, SameHealth.refl x⟩

theorem runnable_op {op : Op} (ticks : Nat) (hpre : op.Pre x) (hx : x.state = .runnable) :
    op = .dispatch ∨ op = .accountWait ∨ SameWait (op.apply ticks x) x := by
  cases op with
  | dispatch => exact .inl rfl
  | accountWait => exact .inr (.inl rfl)
  | rescore =>
    refine .inr (.inr ⟨?_, ?_, ?_, ?_, Op.plain_same rfl ticks x⟩) <;>
      simp only [Op.apply, rescore, if_pos hx]
  | wakeup chan =>
    have hn : ¬(x.state = .sleeping ∧ x.chan = chan) := by simp [hx]
    simp only [Op.apply, wakeup, if_neg hn]
    exact .inr (.inr (SameWait.refl x))
  | kkill pid =>
    have hs : (kkill pid x).state = x.state := by simp [kkill_state, hx]
    refine .inr (.inr ⟨hs, ?_, ?_, ?_, Op.plain_same rfl ticks x⟩)
    all_goals
      simp only [Op.apply, kkill]
      split <;> rfl
  | unlock => exact .inr (.inr (SameWait.refl x))
  | resume | chargeTick | yield | sleep | kexit | setkilled | allocproc | makeRunnable =>
    have hs : _ = _ := hpre
    rw [hx] at hs
    cases hs
  | freeproc =>
    rcases hpre with hs | hs
    all_goals
      rw [hx] at hs
      cases hs

def flagged (x : Proc) : Bool := x.anomalyFlags &&& ANOMALY_STARVATION ≠ 0

theorem starved_countWait : starved (countWait x) = true ↔
    20 ≤ (countWait x).waitticks ∧ flagged x = false := by
  rw [starved, Bool.and_eq_true, decide_eq_true_eq, decide_eq_true_eq, flagged, decide_eq_false_iff_not,
    not_not]
  rfl

theorem accountWait_starved (ticks : Nat) (hx : x.state = .runnable) (h : starved (countWait x)) :
    flagged (accountWait ticks x) = true ∧
      (accountWait ticks x).healingActions = u32 (x.healingActions + 1) := by
  have hf : (flagStarvation (countWait x)).anomalyFlags &&& ANOMALY_STARVATION ≠ 0 :=
    raise_starvation x.anomalyFlags
  rw [accountWait, if_pos hx, if_pos h]
  refine ⟨?_, ?_⟩
  · simpa [flagged, applySelfHealing_anomalyFlags] using hf
  · exact applySelfHealing_starvation ticks _ hf

theorem accountWait_not_starved (ticks : Nat) (hx : x.state = .runnable)
    (h : ¬starved (countWait x) = true) : accountWait ticks x = countWait x := by
  rw [accountWait, if_pos hx, if_neg h]

variable (r : Run n) {k : Nat} {p : Slot}

theorem leaves_runnable (h : ((r.state k).procs p).state = .runnable)
    (h' : ((r.state (k + 1)).procs p).state ≠ .runnable) : sectionAt r k p = some .dispatch := by
  cases hs : sectionAt r k p with
  | none =>
    rw [section_none r hs] at h'
    exact absurd h h'
  | some op =>
    rw [section_apply r hs] at h'
    rcases runnable_op (r.state k).ticks (section_pre r hs) h with rfl | rfl | hw
    · rfl
    · exact absurd h (by simpa [Op.apply] using h')
    · exact absurd (hw.state.trans h) h'

theorem stays_runnable (h : ((r.state k).procs p).state = .runnable)
    (h' : ((r.state (k + 1)).procs p).state = .runnable) :
    sectionAt r k p = some .accountWait ∨
      (sectionAt r k p ≠ some .accountWait ∧ SameWait ((r.state (k + 1)).procs p) ((r.state k).procs p)) := by
  cases hs : sectionAt r k p with
  | none =>
    rw [section_none r hs]
    exact .inr ⟨by simp, SameWait.refl _⟩
  | some op =>
    rw [section_apply r hs] at h' ⊢
    by_cases ha : op = .accountWait
    · exact .inl (by rw [ha])
    rcases runnable_op (r.state k).ticks (section_pre r hs) h with rfl | rfl | hw
    · simp [Op.apply, dispatch_state, h] at h'
    · exact absurd rfl ha
    · exact .inr ⟨by simpa using ha, hw⟩

theorem waits_step (h : ((r.state k).procs p).state = .runnable)
    (h' : ((r.state (k + 1)).procs p).state = .runnable)
    (hw : ((r.state k).procs p).waitticks + 1 < 2 ^ 64) :
    ((r.state k).procs p).waitticks ≤ ((r.state (k + 1)).procs p).waitticks ∧
      ((r.state (k + 1)).procs p).waitticks ≤ ((r.state k).procs p).waitticks + 1 ∧
      ((r.state (k + 1)).procs p).estBurst = ((r.state k).procs p).estBurst ∧
      ((r.state (k + 1)).procs p).procType = ((r.state k).procs p).procType := by
  rcases stays_runnable r h h' with hs | ⟨-, hs⟩
  · have ha := accountWait_same (r.state k).ticks ((r.state k).procs p)
    rw [if_pos h] at ha
    have hcount : (countWait ((r.state k).procs p)).waitticks = ((r.state k).procs p).waitticks + 1 :=
      u64_of_lt hw
    rw [section_apply r hs, Op.apply, ha.waitticks, hcount]
    exact ⟨Nat.le_succ _, Nat.le_refl _, ha.estBurst, ha.procType⟩
  · rw [hs.waitticks]
    exact ⟨Nat.le_refl _, Nat.le_succ _, hs.estBurst, hs.procType⟩

theorem waits_place {v j : Nat} (hvj : v ≤ j)
    (hrun : ∀ k, v ≤ k → k ≤ j → ((r.state k).procs p).state = .runnable)
    (hw : ∀ k, v ≤ k → k ≤ j → ((r.state k).procs p).waitticks + 1 < 2 ^ 64) :
    ((r.state v).procs p).waitticks ≤ ((r.state j).procs p).waitticks ∧
      ((r.state v).procs p).estBurst = ((r.state j).procs p).estBurst ∧
      ((r.state v).procs p).procType = ((r.state j).procs p).procType := by
  induction j, hvj using Nat.le_induction with
  | base => exact ⟨Nat.le_refl _, rfl, rfl⟩
  | succ j hvj ih =>
    obtain ⟨hw', he', ht'⟩ := ih (fun k hk hkj => hrun k hk (by omega))
      (fun k hk hkj => hw k hk (by omega))
    obtain ⟨hle, -, hest, htype⟩ := waits_step r (hrun j hvj (Nat.le_succ j))
      (hrun (j + 1) (by omega) (Nat.le_refl _)) (hw j hvj (Nat.le_succ j))
    exact ⟨Nat.le_trans hw' hle, he'.trans hest.symm, ht'.trans htype.symm⟩

theorem waits_score {v j : Nat} (hvj : v ≤ j)
    (hrun : ∀ k, v ≤ k → k ≤ j → ((r.state k).procs p).state = .runnable)
    (hw : ∀ k, v ≤ k → k ≤ j → ((r.state k).procs p).waitticks < 2 ^ 29)
    (he : ((r.state j).procs p).estBurst < 2 ^ 31) :
    ((r.state v).procs p).waitticks ≤ ((r.state j).procs p).waitticks ∧
      ((r.state v).procs p).estBurst = ((r.state j).procs p).estBurst ∧
      ((r.state v).procs p).procType = ((r.state j).procs p).procType ∧
      calcDynamicPriority ((r.state v).procs p) ≤ calcDynamicPriority ((r.state j).procs p) := by
  obtain ⟨hle, hest, htype⟩ := waits_place r hvj hrun fun k hk hkj => by
    have := hw k hk hkj
    omega
  exact ⟨hle, hest, htype, calcDynamicPriority_mono htype hest hle (hw j hvj (Nat.le_refl j)) he⟩

theorem enters_runnable (h : ((r.state k).procs p).state ≠ .runnable)
    (h' : ((r.state (k + 1)).procs p).state = .runnable) :
    ((r.state (k + 1)).procs p).waitticks = 0 := by
  have hidle := (run_counted r p k).idle h
  cases hs : sectionAt r k p with
  | none =>
    rw [section_none r hs] at h'
    exact absurd h' h
  | some op =>
    rw [section_apply r hs] at h' ⊢
    cases op with
    | rescore | resume | accountWait | chargeTick => exact absurd (by simpa [Op.apply] using h') h
    | setkilled | unlock => exact hidle
    | dispatch => exact absurd h' (by simp [Op.apply, dispatch_state, h])
    | yield => exact (sched_waitticks _ _).trans hidle
    | sleep chan => simp [Op.apply] at h'
    | kexit status => simp [Op.apply] at h'
    | wakeup chan =>
      simp only [Op.apply, wakeup]
      split <;> exact hidle
    | kkill pid =>
      simp only [Op.apply, kkill]
      split <;> exact hidle
    | makeRunnable => exact hidle
    | allocproc pid | freeproc => rfl

end AdaptiveXv6.Waiting
