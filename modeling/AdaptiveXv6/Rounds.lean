import AdaptiveXv6.Sweeps

namespace AdaptiveXv6.Rounds

open Words Process Ops Machine Kernel Steps Scan Sweeps Runs Function

variable {n : Nat} {s : Kernel n} {c : Fin n} {T : Slot → Proc} {t : Nat} {K : Slot → Proc → Prop}
  {proc : Option Slot} {p q : Slot}

theorem step_startPass :
    (put s c ⟨none, .top⟩ T t).step (.startPass c) = some (put s c ⟨none, scanPc T 0⟩ T t) :=
  step_jump (.startPass c put_pc)

section Loops

variable (hlock : ∀ i, s.lock i = none) (hK : ∀ j, K j (T j))

include hlock hK

theorem visits_path (hK' : ∀ j, K j (rescore (T j))) :
    Path Kernel.step (Slots K) (put s c ⟨none, scanPc T 0⟩ T t)
      (put s c ⟨none, .pass2 (best T NPROC).1 (best T NPROC).2⟩ (fun i => rescore (T i)) t) := by
  refine sweep (.visit c) none (scanPc T) (fun _ => rescore) hK hK' ?_
  intro i
  have hpc : scanPc T i.val = .pass1 i (best T i.val).1 (best T i.val).2 := loopPc_slot _ _ i
  have hself : swept (fun _ => rescore) T i.val i = T i := swept_self _ T i
  have hm := Moves.visit (s := put s c ⟨none, scanPc T i.val⟩ (swept (fun _ => rescore) T i.val) t)
    c i (best T i.val).1 (best T i.val).2 (by rw [put_pc]; exact hpc)
  rw [put_procs, better_congr hself, afterVisit_eq] at hm
  have hstep := step_locked (hlock i) hm
  rwa [hself] at hstep

theorem scan_path (hK' : ∀ j, K j (rescore (T j))) :
    Path Kernel.step (Slots K) (put s c ⟨none, .top⟩ T t)
      (put s c ⟨none, .pass2 (best T NPROC).1 (best T NPROC).2⟩ (fun i => rescore (T i)) t) :=
  .cons hK step_startPass (visits_path hlock hK hK')

theorem wakeup_path (chan : Nat) (clock : Bool) (ret : Ret)
    (hK' : ∀ j, K j (if proc = some j then T j else wakeup chan (T j))) :
    Path Kernel.step (Slots K) (put s c ⟨proc, .wakeup chan 0 clock ret⟩ T t)
      (put s c ⟨proc, if clock then .accounting 0 ret else ret.pc⟩
        (fun i => if proc = some i then T i else wakeup chan (T i)) t) := by
  refine sweep (.wakeupVisit c) proc
    (loopPc (fun j => .wakeup chan j clock ret) (if clock then .accounting 0 ret else ret.pc))
    (fun i x => if proc = some i then x else wakeup chan x) hK hK' ?_
  intro i
  rw [loopPc_slot, ← afterWakeup_eq]
  have hself := swept_self (fun i x => if proc = some i then x else wakeup chan x) T i
  by_cases hp : proc = some i
  · have hstep := step_jump (.wakeupSelf (s := put s c ⟨proc, .wakeup chan i clock ret⟩
      (swept (fun i x => if proc = some i then x else wakeup chan x) T i.val) t)
      c chan i clock ret put_pc (by rw [put_proc]; exact hp))
    rw [hstep, if_pos hp, update_eq_self_iff.mpr hself.symm]
  · have hstep := step_locked (hlock i) (.wakeupVisit (s := put s c ⟨proc, .wakeup chan i clock ret⟩
      (swept (fun i x => if proc = some i then x else wakeup chan x) T i.val) t)
      c chan i clock ret put_pc (by rw [put_proc]; exact hp))
    rw [hstep, if_neg hp, hself]
    rfl

theorem wake_path (chan : Nat) (ret : Ret) (hret : ret = .top ∨ ret = .running)
    (hK' : ∀ j, K j (if proc = some j then T j else wakeup chan (T j))) :
    Path Kernel.step (Slots K) (put s c ⟨proc, ret.pc⟩ T t)
      (put s c ⟨proc, ret.pc⟩ (fun i => if proc = some i then T i else wakeup chan (T i)) t) := by
  have hcall : (put s c ⟨proc, ret.pc⟩ T t).step (.wakeup c chan) =
      some (put s c ⟨proc, .wakeup chan 0 false ret⟩ T t) := by
    rcases hret with rfl | rfl
    · exact step_jump (.wakeupTop c chan put_pc)
    · exact step_jump (.wakeupProc c chan put_pc)
  exact .cons hK hcall (wakeup_path hlock hK chan false ret hK')

theorem account_path (ret : Ret) (hK' : ∀ j, K j (accountWait t (T j))) :
    Path Kernel.step (Slots K) (put s c ⟨proc, .accounting 0 ret⟩ T t)
      (put s c ⟨proc, ret.pc⟩ (fun i => accountWait t (T i)) t) := by
  refine sweep (.accountVisit c) proc (loopPc (fun j => .accounting j ret) ret.pc)
    (fun _ => accountWait t) hK hK' ?_
  intro i
  rw [loopPc_slot, ← afterAccount_eq]
  have hself := swept_self (fun _ => accountWait t) T i
  have hstep := step_locked (hlock i) (.accountVisit (s := put s c ⟨proc, .accounting i ret⟩
    (swept (fun _ => accountWait t) T i.val) t) c i ret put_pc)
  rw [hstep, hself]
  rfl

theorem clock_path (hc : c.val = 0)
    (hK' : ∀ j, K j (if proc = some j then T j else wakeup ticksChan (T j)))
    (hK'' : ∀ j, K j (accountWait (u32 (t + 1)) (if proc = some j then T j else wakeup ticksChan (T j)))) :
    Path Kernel.step (Slots K) (put s c ⟨proc, .running⟩ T t)
      (put s c ⟨proc, .timer⟩
        (fun i => accountWait (u32 (t + 1)) (if proc = some i then T i else wakeup ticksChan (T i)))
        (u32 (t + 1))) := by
  have htimer : (put s c ⟨proc, .running⟩ T t).step (.timer c) =
      some (put s c ⟨proc, .wakeup ticksChan 0 true .timer⟩ T (u32 (t + 1))) := by
    refine step_eq_some.mpr ⟨_, .timerProc c put_pc hc, rfl, ?_⟩
    simp [put, perform, Kernel.clockMove, Kernel.proc]
  exact .cons hK htimer ((wakeup_path hlock hK ticksChan true .timer hK').trans
    (account_path hlock hK' .timer hK''))

end Loops

section Switches

theorem step_pick (prio : Int) (hlock : s.lock p = none) (hp : (T p).state = .runnable) :
    (put s c ⟨none, .pass2 (some p) prio⟩ T t).step (.pick c) =
      some (put (held s p c) c ⟨some p, .resumed⟩ (update T p (dispatch t (T p))) t) :=
  step_holding hlock (.pick c p prio put_pc hp)

theorem step_pick_gone (prio : Int) (hlock : s.lock p = none) (hp : (T p).state ≠ .runnable) :
    (put s c ⟨none, .pass2 (some p) prio⟩ T t).step (.pick c) = some (put s c ⟨none, .wfi⟩ T t) := by
  have h := step_locked hlock
    (.pickGone (s := put s c ⟨none, .pass2 (some p) prio⟩ T t) c p prio put_pc hp)
  have hself : Op.apply t .dispatch (T p) = T p := if_neg hp
  rwa [hself, update_eq_self] at h

theorem step_resume (hlock : s.lock p = none) :
    (put (held s p c) c ⟨some p, .resumed⟩ T t).step (.resume c) =
      some (put s c ⟨some p, .running⟩ (update T p (resume (T p))) t) :=
  step_releasing hlock (.resume c p put_pc put_proc)

theorem step_charge (hlock : s.lock p = none) :
    (put s c ⟨some p, .timer⟩ T t).step (.charge c) =
      some (put s c ⟨some p, if shouldYield (T p) then .expired else .running⟩
        (update T p (chargeTick (T p))) t) :=
  step_locked hlock (.charge c p put_pc put_proc)

theorem step_yield (hlock : s.lock p = none) :
    (put s c ⟨some p, .expired⟩ T t).step (.yield c) =
      some (put (held s p c) c ⟨some p, .switching⟩ (update T p (yield t (T p))) t) :=
  step_holding hlock (.yield c p put_pc put_proc)

theorem step_sleep (hlock : s.lock p = none) (chan : Nat) :
    (put s c ⟨some p, .running⟩ T t).step (.sleep c chan) =
      some (put (held s p c) c ⟨some p, .switching⟩ (update T p (sleep chan t (T p))) t) :=
  step_holding hlock (.sleep c p chan put_pc put_proc)

theorem step_swtch (hlock : s.lock p = none) :
    (put (held s p c) c ⟨some p, .switching⟩ T t).step (.swtch c) = some (put s c ⟨none, .top⟩ T t) := by
  have h := step_releasing hlock
    (.swtch (s := put (held s p c) c ⟨some p, .switching⟩ T t) c p put_pc put_proc)
  rwa [show Op.apply t .unlock (T p) = T p from rfl, update_eq_self] at h

variable (hK : ∀ j, K j (T j))

include hK

theorem pick_path (prio : Int) (hlock : s.lock p = none) (hp : (T p).state = .runnable)
    (hd : K p (dispatch t (T p))) (hr : K p (resume (dispatch t (T p)))) :
    Path Kernel.step (Slots K) (put s c ⟨none, .pass2 (some p) prio⟩ T t)
      (put s c ⟨some p, .running⟩ (update T p (resume (dispatch t (T p)))) t) := by
  have hresume := step_resume (c := c) (T := update T p (dispatch t (T p))) (t := t) hlock
  rw [update_idem, update_self] at hresume
  exact .cons hK (step_pick prio hlock hp) (.one (Slots.update hK hd) hresume (Slots.update hK hr))

theorem turn_path (hlock : ∀ i, s.lock i = none) (hbest : (best T NPROC).1 = some p)
    (hp : (T p).state = .runnable) (hK' : ∀ j, K j (rescore (T j)))
    (hd : K p (dispatch t (rescore (T p)))) (hr : K p (resume (dispatch t (rescore (T p))))) :
    Path Kernel.step (Slots K) (put s c ⟨none, .top⟩ T t)
      (put s c ⟨some p, .running⟩
        (update (fun i => rescore (T i)) p (resume (dispatch t (rescore (T p))))) t) := by
  have hscan := scan_path (c := c) (t := t) hlock hK hK'
  rw [hbest] at hscan
  exact hscan.trans (pick_path hK' _ (hlock p) (by simpa using hp) hd hr)

theorem sleep_path (hlock : s.lock p = none) (chan : Nat) (hs : K p (sleep chan t (T p))) :
    Path Kernel.step (Slots K) (put s c ⟨some p, .running⟩ T t)
      (put s c ⟨none, .top⟩ (update T p (sleep chan t (T p))) t) :=
  .cons hK (step_sleep hlock chan) (.one (Slots.update hK hs) (step_swtch hlock) (Slots.update hK hs))

theorem yield_path (hlock : s.lock p = none) (hy : K p (yield t (T p))) :
    Path Kernel.step (Slots K) (put s c ⟨some p, .expired⟩ T t)
      (put s c ⟨none, .top⟩ (update T p (yield t (T p))) t) :=
  .cons hK (step_yield hlock) (.one (Slots.update hK hy) (step_swtch hlock) (Slots.update hK hy))

end Switches

section Ticks

theorem tick_path (hlock : ∀ i, s.lock i = none) (hc : c.val = 0) (hp : (T p).state = .running)
    (hK : ∀ j, K j (T j)) (hwake : ∀ j, j ≠ p → K j (wakeup ticksChan (T j)))
    (hwait : ∀ j, j ≠ p → K j (accountWait (u32 (t + 1)) (wakeup ticksChan (T j))))
    (hcharge : K p (chargeTick (T p))) :
    Path Kernel.step (Slots K) (put s c ⟨some p, .running⟩ T t)
      (put s c ⟨some p, if shouldYield (T p) then .expired else .running⟩
        (update (fun i => accountWait (u32 (t + 1)) (wakeup ticksChan (T i))) p
          (chargeTick (T p))) (u32 (t + 1))) := by
  have hself : accountWait (u32 (t + 1)) (T p) = T p := by rw [accountWait, if_neg (by simp [hp])]
  have hother : ∀ j, j ≠ p → some p ≠ some j := fun j hj he => hj (Option.some.inj he).symm
  have hK' : ∀ j, K j (if some p = some j then T j else wakeup ticksChan (T j)) := by
    intro j
    split
    · exact hK j
    · rename_i hj
      exact hwake j (fun he => hj (by rw [he]))
  have hK'' : ∀ j, K j (accountWait (u32 (t + 1)) (if some p = some j then T j
      else wakeup ticksChan (T j))) := by
    intro j
    by_cases hj : j = p
    · rw [hj, if_pos rfl, hself]
      exact hK p
    · rw [if_neg (hother j hj)]
      exact hwait j hj
  have hclock := clock_path (s := s) (t := t) hlock hK hc hK' hK''
  have hstep := step_charge (c := c) (T := fun i => accountWait (u32 (t + 1))
    (if some p = some i then T i else wakeup ticksChan (T i))) (t := u32 (t + 1)) (hlock p)
  rw [if_pos rfl, hself] at hstep
  have htable : update (fun i => accountWait (u32 (t + 1))
      (if some p = some i then T i else wakeup ticksChan (T i))) p (chargeTick (T p)) =
      update (fun i => accountWait (u32 (t + 1)) (wakeup ticksChan (T i))) p
        (chargeTick (T p)) := by
    funext j
    by_cases hj : j = p
    · rw [hj, update_self, update_self]
    · rw [update_of_ne hj, update_of_ne hj, if_neg (hother j hj)]
  have hpath := hclock.snoc hstep (Slots.update hK'' hcharge)
  rwa [htable] at hpath

theorem last_tick_path (hlock : s.lock p = none) (hc : c.val ≠ 0) (hover : shouldYield (T p) = true)
    (hK : ∀ j, K j (T j)) (hcharge : K p (chargeTick (T p))) (hyield : K p (yield t (chargeTick (T p)))) :
    Path Kernel.step (Slots K) (put s c ⟨some p, .running⟩ T t)
      (put s c ⟨none, .top⟩ (update T p (yield t (chargeTick (T p)))) t) := by
  have htimer : (put s c ⟨some p, .running⟩ T t).step (.timer c) = some (put s c ⟨some p, .timer⟩ T t) :=
    step_jump (.timerOther c put_pc hc)
  have hstep := step_charge (c := c) (T := T) (t := t) hlock
  rw [hover, if_pos rfl] at hstep
  have hpath := yield_path (c := c) (t := t) (Slots.update hK hcharge) hlock
    (by rw [update_self]; exact hyield)
  rw [update_idem, update_self] at hpath
  exact .cons hK htimer (.cons hK hstep hpath)

end Ticks

section Fork

variable {a : Option Slot}

def numbered (s : Kernel n) : Kernel n := { s with nextpid := i32 (s.nextpid + 1) }

def newborn (pid : Int) (t : Nat) (x : Proc) : Proc := makeRunnable (allocproc pid t x)

variable (hlock : s.lock q = none) (hq : (T q).state = .unused)

include hlock hq

theorem step_allocproc : (put s c ⟨a, .running⟩ T t).step (.allocproc c q) =
      some (put (held (numbered s) q c) c ⟨a, .forking q⟩
        (update T q (allocproc s.nextpid t (T q))) t) := by
  refine step_eq_some.mpr ⟨_, .allocproc c q put_pc hq, ?_, ?_⟩
  · exact ready_iff.mpr (fun k hk => by cases hk; exact hlock)
  · simp [put, perform, Kernel.allocMove, Kernel.proc, held, numbered, Op.apply]

theorem forkFail_path (hK : ∀ j, K j (T j))
    (hK' : K q (allocproc s.nextpid t (T q))) (hK'' : K q (freeproc (allocproc s.nextpid t (T q)))) :
    Path Kernel.step (Slots K) (put s c ⟨a, .running⟩ T t)
      (put (numbered s) c ⟨a, .running⟩
        (update T q (freeproc (allocproc s.nextpid t (T q)))) t) := by
  have hfail := step_releasing (s := numbered s) hlock (.forkFail (s := put (held (numbered s) q c) c
    ⟨a, .forking q⟩ (update T q (allocproc s.nextpid t (T q))) t) c q put_pc)
  rw [put_proc, update_idem, update_self] at hfail
  exact .cons hK (step_allocproc hlock hq) (.one (Slots.update hK hK') hfail (Slots.update hK hK''))

theorem fork_path (hK : ∀ j, K j (T j))
    (hK' : K q (allocproc s.nextpid t (T q))) (hK'' : K q (newborn s.nextpid t (T q))) :
    Path Kernel.step (Slots K) (put s c ⟨a, .running⟩ T t)
      (put (numbered s) c ⟨a, .running⟩ (update T q (newborn s.nextpid t (T q))) t) := by
  have hdone : (put (held (numbered s) q c) c ⟨a, .forking q⟩
      (update T q (allocproc s.nextpid t (T q))) t).step (.forkDone c) =
      some (put (numbered s) c ⟨a, .running⟩ (update T q (allocproc s.nextpid t (T q))) t) := by
    have h := step_releasing (s := numbered s) hlock (.forkDone (s := put (held (numbered s) q c) c
      ⟨a, .forking q⟩ (update T q (allocproc s.nextpid t (T q))) t) c q put_pc)
    rw [put_proc] at h
    rw [h, show ∀ x, Op.apply t .unlock x = x from fun _ => rfl, update_eq_self]
  have hrun : (put (numbered s) c ⟨a, .running⟩
      (update T q (allocproc s.nextpid t (T q))) t).step (.forkRun c q) =
      some (put (numbered s) c ⟨a, .running⟩ (update T q (newborn s.nextpid t (T q))) t) := by
    have h := step_locked (s := numbered s) hlock (.forkRun (s := put (numbered s) c ⟨a, .running⟩
      (update T q (allocproc s.nextpid t (T q))) t) c q put_pc
      (by rw [put_procs, update_self]; rfl))
    rwa [update_idem, update_self] at h
  exact .cons hK (step_allocproc hlock hq) (.cons (Slots.update hK hK') hdone (.cons (Slots.update hK hK') hrun
    (.refl (Slots.update hK hK''))))

end Fork

end AdaptiveXv6.Rounds
