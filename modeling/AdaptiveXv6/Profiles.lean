import AdaptiveXv6.Rounds

namespace AdaptiveXv6.Profiles

open Words Process Ops Rounds

variable {x : Proc} {st : ProcState} {w c e : Nat}

structure Profile (st : ProcState) (w c e : Nat) (x : Proc) : Prop where
  state : x.state = st
  wait : x.waitticks = w
  burst : x.currentBurst = c
  est : x.estBurst = e
  type : x.procType = classify e

theorem Profile.rescore (h : Profile st w c e x) : Profile st w c e (rescore x) := by
  rw [Ops.rescore]
  split
  · exact ⟨h.state, h.wait, h.burst, h.est, h.type⟩
  · exact h

theorem Profile.dispatch (h : Profile .runnable w c e x) (t : Nat) :
    Profile .running 0 c e (dispatch t x) := by
  rw [Ops.dispatch, if_pos h.state]
  exact ⟨rfl, rfl, h.burst, h.est, h.type⟩

theorem Profile.resume (h : Profile st w c e x) : Profile st w c e (resume x) := by
  rw [Ops.resume]
  split
  · exact ⟨h.state, h.wait, h.burst, h.est, h.type⟩
  all_goals exact h

theorem Profile.growEstimate (h : Profile st w c c x) (hc : c + 1 < 2 ^ 32) :
    Profile st w (c + 1) (c + 1) (growEstimate (countTick x)) := by
  have hcount : (countTick x).currentBurst = c + 1 := by rw [countTick, h.burst, u32_of_lt hc]
  have hest : (countTick x).estBurst = c := h.est
  rw [Ops.growEstimate, if_pos (by omega)]
  refine ⟨h.state, h.wait, hcount, hcount, ?_⟩
  rw [← classifyOngoing_eq, ← hcount]

theorem Profile.chargeTick (h : Profile st w c c x) (hc : c + 1 < 2 ^ 32) :
    Profile st w (c + 1) (c + 1) (chargeTick x) := by
  have hgrow := h.growEstimate hc
  rw [Ops.chargeTick]
  split
  · exact ⟨hgrow.state, hgrow.wait, hgrow.burst, hgrow.est, hgrow.type⟩
  · exact hgrow

theorem yield_eq (hx : x.currentBurst ≤ x.estBurst) (t : Nat) :
    yield t x = countSwitch (yielding x) := by
  have hcall : healthCall (yielding x) = none := by
    rw [healthCall, if_neg (by simp [yielding]), if_neg]
    simp [yielding, hx]
  rw [yield, sched_healthCall, hcall]

theorem Profile.yield (h : Profile .running w c e x) (hc : c ≤ e) (t : Nat) :
    Profile .runnable w c e (yield t x) := by
  rw [yield_eq (by rw [h.burst, h.est]; exact hc)]
  exact ⟨rfl, h.wait, h.burst, h.est, h.type⟩

theorem Profile.sleep (h : Profile .running w c e x) (hc : c ≤ e) (he : e < 2 ^ 31) (chan t : Nat) :
    Profile .sleeping w 0 ((c + e) / 2) (sleep chan t x) ∧ (sleep chan t x).chan = chan := by
  have hs := sched_completes_same t (fallingAsleep chan x) (.inl rfl)
  have hsmooth : smooth x.currentBurst x.estBurst = (c + e) / 2 := by
    rw [h.burst, h.est, smooth_eq hc he]
  refine ⟨⟨hs.state, hs.waitticks.trans h.wait, hs.currentBurst, hs.estBurst.trans hsmooth, ?_⟩, hs.chan⟩
  rw [← hsmooth]
  exact hs.procType

theorem Profile.wakeup (h : Profile .sleeping w c e x) {chan : Nat} (hc : x.chan = chan) :
    Profile .runnable w c e (wakeup chan x) := by
  rw [Ops.wakeup, if_pos ⟨h.state, hc⟩]
  exact ⟨rfl, h.wait, h.burst, h.est, h.type⟩

theorem wakeup_eq {chan : Nat} (h : x.state ≠ .sleeping ∨ x.chan ≠ chan) : wakeup chan x = x := by
  rw [wakeup, if_neg (fun hc => h.elim (fun hs => hs hc.1) (fun hn => hn hc.2))]

theorem accountWait_eq (h : x.state ≠ .runnable) (t : Nat) : accountWait t x = x := if_neg h

theorem rescore_eq (h : x.state ≠ .runnable) : rescore x = x := if_neg h

theorem Profile.accountWait (h : Profile .runnable w c e x) (hw : w + 1 < 2 ^ 64) (t : Nat) :
    Profile .runnable (w + 1) c e (accountWait t x) := by
  have hs := accountWait_same t x
  rw [if_pos h.state] at hs
  have hcount : (countWait x).waitticks = w + 1 := by rw [countWait, h.wait, u64_of_lt hw]
  exact ⟨hs.state.trans h.state, hs.waitticks.trans hcount, hs.currentBurst.trans h.burst,
    hs.estBurst.trans h.est, hs.procType.trans h.type⟩

theorem newborn_profile (pid : Int) (t : Nat) (x : Proc) :
    Profile .runnable 0 0 0 (newborn pid t x) := ⟨rfl, rfl, rfl, rfl, rfl⟩

theorem Profile.score (h : Profile st w c e x) (hw : w < 2 ^ 29) (he : e < 2 ^ 31) :
    calcDynamicPriority x = min 100 (max 1 (basePriority (classify e) + 2 * (w : Int) - e)) := by
  have hwx := h.wait
  have hex := h.est
  rw [calcDynamicPriority_eq, rawPriority_eq (by omega) (by omega), h.type, h.wait, h.est]

end AdaptiveXv6.Profiles
