import AdaptiveXv6.FirstMax
import AdaptiveXv6.Steps

namespace AdaptiveXv6.Scan

open Process Ops Machine FirstMax

def candidate (x : Proc) : Option Int :=
  if x.state = .runnable then some (calcDynamicPriority x) else none

theorem better_eq (procs : Slot → Proc) (i : Slot) (bestP : Option Slot) (bestPrio : Int) :
    better procs i bestP bestPrio = improve (bestP, bestPrio) i (candidate (procs i)) := by
  rw [better, candidate]
  by_cases hs : (procs i).state = .runnable
  · by_cases hlt : bestPrio < calcDynamicPriority (procs i)
    · simp [improve, hs, hlt]
    · simp [improve, hs, hlt]
  · simp [improve, hs]

def progress : Pc → Option (Nat × (Option Slot × Int))
  | .pass1 i bestP bestPrio => some (i.val, (bestP, bestPrio))
  | .pass2 bestP bestPrio => some (NPROC, (bestP, bestPrio))
  | _ => none

theorem progress_afterVisit (i : Slot) (b : Option Slot × Int) :
    progress (afterVisit i b) = some (i.val + 1, b) := by
  unfold afterVisit next?
  by_cases h : i.val + 1 < NPROC
  · simp [h, progress]
  · have hi : i.val + 1 = NPROC := by omega
    simp [progress, hi]

theorem progress_afterWakeup (chan : Nat) (i : Slot) (clock : Bool) (ret : Ret) :
    progress (afterWakeup chan i clock ret) = none := by
  rw [afterWakeup]
  split
  · rfl
  · split
    · rfl
    · cases ret <;> rfl

theorem progress_afterAccount (i : Slot) (ret : Ret) : progress (afterAccount i ret) = none := by
  rw [afterAccount]
  split
  · rfl
  · cases ret <;> rfl

theorem candidate_rescore (x : Proc) : candidate (rescore x) = candidate x := by
  rw [rescore]
  split <;> rfl

theorem candidate_eq_some {x : Proc} {a : Int} :
    candidate x = some a ↔ x.state = .runnable ∧ calcDynamicPriority x = a := by
  rw [candidate]
  by_cases h : x.state = .runnable <;> simp [h]

theorem better_congr {S T : Slot → Proc} {i : Slot} (h : S i = T i) (bestP : Option Slot) (bestPrio : Int) :
    better S i bestP bestPrio = better T i bestP bestPrio := by
  rw [better_eq, better_eq, h]

def best (T : Slot → Proc) : Nat → Option Slot × Int
  | 0 => (none, -1)
  | k + 1 => if h : k < NPROC then better T ⟨k, h⟩ (best T k).1 (best T k).2 else best T k

theorem best_succ (T : Slot → Proc) (i : Slot) :
    best T (i.val + 1) = better T i (best T i.val).1 (best T i.val).2 := by
  rw [best, dif_pos i.isLt]

theorem best_leads (T : Slot → Proc) {k : Nat} (hk : k ≤ NPROC) :
    Leads (fun p => candidate (T p)) k (-1) (best T k) := by
  induction k with
  | zero => exact leads_zero _ _
  | succ k ih =>
    have h := (ih (Nat.le_of_succ_le hk)).improve hk
    rw [best_succ T ⟨k, hk⟩, better_eq]
    exact h

theorem best_eq {T : Slot → Proc} {p : Slot} (hp : (T p).state = .runnable)
    (hbefore : ∀ q, q < p → (T q).state = .runnable →
      calcDynamicPriority (T q) < calcDynamicPriority (T p))
    (hafter : ∀ q, (T q).state = .runnable → calcDynamicPriority (T q) ≤ calcDynamicPriority (T p)) :
    best T NPROC = (some p, calcDynamicPriority (T p)) := by
  have hpos := (calcDynamicPriority_bounds (T p)).1
  refine (best_leads T (Nat.le_refl _)).eq_of_first p.isLt (candidate_eq_some.mpr ⟨hp, rfl⟩)
    (by omega) ?_ ?_
  · intro q c hq hc
    obtain ⟨hr, rfl⟩ := candidate_eq_some.mp hc
    exact hbefore q hq hr
  · intro q c hc
    obtain ⟨hr, rfl⟩ := candidate_eq_some.mp hc
    exact hafter q hr

end AdaptiveXv6.Scan
