import AdaptiveXv6.Rounds

namespace AdaptiveXv6.SleepCycle

open Words Process Ops Machine Scan Sweeps Rounds Runs Function

variable {n : Nat} {s : Kernel n} {c : Fin n} {x : Proc} {t d : Nat}

def only (x : Proc) : Slot → Proc := update (fun _ => procinit) initproc x

theorem only_self (x : Proc) : only x initproc = x := update_self _ _ _

theorem only_of_ne {j : Slot} (h : j ≠ initproc) (x : Proc) : only x j = procinit :=
  update_of_ne h _ _

theorem only_update (x y : Proc) : update (only x) initproc y = only y :=
  update_idem _ _ _

theorem only_map {f : Slot → Proc → Proc} (hf : ∀ j, f j procinit = procinit) (x : Proc) :
    (fun j => f j (only x j)) = only (f initproc x) := by
  funext j
  by_cases hj : j = initproc
  · rw [hj, only_self, only_self]
  · rw [only_of_ne hj, only_of_ne hj, hf]

theorem boot_put (n : Nat) (c : Fin n) :
    boot n = put (boot n) c ⟨none, .top⟩ (only userinit) 0 := by
  have hcpus : update (boot n).cpus c ⟨none, .top⟩ = (boot n).cpus :=
    update_eq_self_iff.mpr rfl
  have hprocs : (boot n).procs = only userinit := by
    funext j
    simp only [boot, only, update_apply]
  rw [put, hcpus, ← hprocs]
  rfl

theorem only_best (hx : x.state = .runnable) : (best (only x) NPROC).1 = some initproc := by
  rw [best_eq (T := only x) (p := initproc) (by rw [only_self]; exact hx)]
  · intro q hq
    exact absurd hq (Nat.not_lt_zero _)
  · intro q hq
    by_cases hp : q = initproc
    · rw [hp]
    · rw [only_of_ne hp] at hq
      cases hq

structure Rested (d : Nat) (x : Proc) : Prop where
  sched : x.schedCount = u64 d
  switches : x.switches = u64 d
  burst : x.currentBurst = 0

def turn (t : Nat) (x : Proc) : Proc := resume (dispatch t (rescore x))

theorem turn_eq (t : Nat) (hx : x.state = .runnable) :
    (turn t x).state = .running ∧ (turn t x).schedCount = u64 (x.schedCount + 1) ∧
      (turn t x).switches = x.switches ∧ (turn t x).currentBurst = x.currentBurst := by
  have hr : (rescore x).state = .runnable := by rw [rescore_state, hx]
  rw [turn, resume]
  rw [dispatch, if_pos hr, rescore, if_pos hx]
  split <;> exact ⟨rfl, rfl, rfl, rfl⟩

def Fresh : Slot → Proc → Prop := fun _ x => x.currentBurst = 0

theorem only_all {K : Proc → Prop} (h : K procinit) (hx : K x) (j : Slot) : K (only x j) := by
  rw [only, update_apply]
  split
  · exact hx
  · exact h

theorem only_fresh (hx : x.currentBurst = 0) (j : Slot) : Fresh j (only x j) :=
  only_all (K := fun x => x.currentBurst = 0) rfl hx j

theorem turn_kept {K : Proc → Prop} (hlock : ∀ i, s.lock i = none) (hx : x.state = .runnable)
    (h : K procinit) (hKx : K x) (hres : K (rescore x)) (hdis : K (dispatch t (rescore x)))
    (hturn : K (turn t x)) :
    Path Kernel.step (Slots fun _ => K) (put s c ⟨none, .top⟩ (only x) t)
      (put s c ⟨some initproc, .running⟩ (only (turn t x)) t) := by
  have hmap : (fun j => rescore (only x j)) = only (rescore x) := only_map (fun _ => rfl) x
  have hpath := turn_path (K := fun _ => K) (s := s) (c := c) (t := t) (only_all h hKx) hlock (only_best hx)
    (by rw [only_self]; exact hx) (fun j => by rw [congrFun hmap j]; exact only_all h hres j)
    (by rw [only_self]; exact hdis) (by rw [only_self]; exact hturn)
  rw [hmap, only_update, only_self] at hpath
  exact hpath

theorem turn_only (hlock : ∀ i, s.lock i = none) (hx : x.state = .runnable) (hb : x.currentBurst = 0) :
    Path Kernel.step (Slots Fresh) (put s c ⟨none, .top⟩ (only x) t)
      (put s c ⟨some initproc, .running⟩ (only (turn t x)) t) := by
  have hres : (rescore x).currentBurst = 0 := by
    rw [rescore]
    split <;> exact hb
  have hdis : (dispatch t (rescore x)).currentBurst = 0 := by
    rw [dispatch]
    split <;> exact hres
  exact turn_kept (K := fun x => x.currentBurst = 0) hlock hx rfl hb hres hdis
    ((turn_eq t hx).2.2.2.trans hb)

theorem sleep_rested {y : Proc} (hs : y.schedCount = u64 (d + 1)) (hw : y.switches = u64 d) (t : Nat) :
    Rested (d + 1) (sleep 7 t y) := by
  have hburst := (sched_completes_same t (fallingAsleep 7 y) (.inl rfl)).currentBurst
  refine ⟨?_, ?_, hburst⟩
  · rw [sleep, sched_schedCount]
    exact hs
  · rw [sleep, sched_switches, fallingAsleep, hw, u64_add_left]

theorem wakeup_rested {y : Proc} (h : Rested d y) (hs : y.state = .sleeping) (hc : y.chan = 7) :
    (wakeup 7 y).state = .runnable ∧ Rested d (wakeup 7 y) := by
  rw [wakeup, if_pos ⟨hs, hc⟩]
  exact ⟨rfl, h.sched, h.switches, h.burst⟩

theorem nap_path (hlock : ∀ i, s.lock i = none) (hx : x.state = .runnable) (h : Rested d x) :
    ∃ y, y.state = .runnable ∧ Rested (d + 1) y ∧
      Path Kernel.step (Slots Fresh) (put s c ⟨none, .top⟩ (only x) t)
        (put s c ⟨none, .top⟩ (only y) t) := by
  obtain ⟨-, hsched, hswitches, hburst⟩ := turn_eq t hx
  have hrest := sleep_rested (d := d) (y := turn t x) (by rw [hsched, h.sched, u64_add_left])
    (hswitches.trans h.switches) t
  have hchan := (sched_completes_same t (fallingAsleep 7 (turn t x)) (.inl rfl)).chan
  obtain ⟨hup, hrest'⟩ := wakeup_rested hrest (sleep_state t _ 7) hchan
  have hturn := turn_only (c := c) (t := t) hlock hx h.burst
  have hsleep := sleep_path (K := Fresh) (c := c) (T := only (turn t x)) (t := t)
    (only_fresh (hburst.trans h.burst)) (hlock initproc) 7 (by rw [only_self]; exact hrest.burst)
  rw [only_update, only_self] at hsleep
  generalize sleep 7 t (turn t x) = y at *
  have hmap : (fun j => if none = some j then only y j else wakeup 7 (only y j)) = only (wakeup 7 y) :=
    only_map (f := fun j y => if none = some j then y else wakeup 7 y) (fun _ => rfl) y
  have hwake : Path Kernel.step (Slots Fresh) (put s c ⟨none, .top⟩ (only y) t) _ :=
    wake_path hlock (only_fresh hrest.burst) 7 .top (.inl rfl)
      (fun j => by rw [congrFun hmap j]; exact only_fresh hrest'.burst j)
  rw [hmap] at hwake
  exact ⟨wakeup 7 y, hup, hrest', (hturn.trans hsleep).trans hwake⟩

theorem naps_path (c : Fin n) (d : Nat) : ∃ x, x.state = .runnable ∧ Rested d x ∧
    Path Kernel.step (Slots Fresh) (boot n) (put (boot n) c ⟨none, .top⟩ (only x) 0) := by
  induction d with
  | zero =>
    refine ⟨userinit, rfl, ⟨rfl, rfl, rfl⟩, ?_⟩
    rw [← boot_put]
    refine .refl ?_
    intro j
    simp only [Fresh, boot]
    split <;> rfl
  | succ d ih =>
    obtain ⟨x, hx, hrest, hpath⟩ := ih
    obtain ⟨y, hy, hrest', hnap⟩ := nap_path (s := boot n) (c := c) (t := 0) (fun _ => rfl) hx hrest
    exact ⟨y, hy, hrest', hpath.trans hnap⟩

end AdaptiveXv6.SleepCycle
