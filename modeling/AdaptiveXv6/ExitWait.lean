import AdaptiveXv6.Family

namespace AdaptiveXv6.ExitWait

open Process Machine Lifecycle World LifecycleSteps LifecycleCore Forks Stages Family Signals Exclusion
  Function

variable {n : Nat} {w v : World n} {e : Lifecycle.Event n} {c : Fin n} {p q z : Slot} {y : Code} {a : Int}

section Steps

theorem parent_step (ha : Acts w e v) (hz : v.parent z = some q) :
    w.parent z = some q ∨ q = initproc ∨ w.code q = .forkParent z := by
  cases ha with
  | forkFail hpc hpr hk =>
    simp only [World.freeproc, goto, setRes, World.adopt, update_apply] at hz
    split at hz
    · cases hz
    · exact .inl hz
  | forkParent hme hp hl =>
    simp only [goto, World.adopt, update_apply] at hz
    split at hz
    · rename_i hznp
      cases hz
      rw [hznp]
      exact .inr (.inr hp)
    · exact .inl hz
  | adopt hme hp hi =>
    simp only [goto, World.adopt, update_apply] at hz
    split at hz
    · cases hz
      exact .inr (.inl rfl)
    · exact .inl hz
  | reap hme hp hi hs ho hk =>
    simp only [World.freeproc, setStatus, goto, setRes, World.adopt, update_apply] at hz
    split at hz
    · cases hz
    · exact .inl hz
  | _ => exact .inl hz

def passing (x : Int) : Code → Option Int
  | .exitFiles status _ | .exitCwd status | .exitLock status | .reparent status _ | .wakeInit status _
  | .wakeParent status | .exitSelf status => some status
  | .exitRelease | .exited => some x
  | _ => none

def passed (w : World n) (q : Slot) : Option Int := passing (sig w.core q).xstate (w.code q)

theorem passing_not_exits {x : Int} (h : exits y = false) : passing x y = none := by
  cases y with
  | exitFiles | exitCwd | exitLock | reparent | wakeInit | wakeParent | exitSelf | exitRelease | exited => cases h
  | _ => rfl

theorem exits_of_passed {status : Int} (h : passed w q = some status) : exits (w.code q) = true := by
  by_contra hex
  rw [passed, passing_not_exits (Bool.not_eq_true _ ▸ hex)] at h
  cases h

theorem passed_plain {status : Int} (h : passed v q = some status)
    (hcode : v.code = update w.code p y) (hy : exits y = false)
    (hx : ∀ q, (sig v.core q).xstate = (sig w.core q).xstate) : passed w q = some status := by
  rw [passed, hx, hcode, update_apply] at h
  split at h
  · rw [passing_not_exits hy] at h
    cases h
  · exact h

theorem passed_exit {status : Int} (h : passed v q = some status)
    (hcode : v.code = update w.code p y) (hy : ∀ x, passing x y = passing x (w.code p))
    (hx : ∀ q, (sig v.core q).xstate = (sig w.core q).xstate) : passed w q = some status := by
  rw [passed, hx, hcode, update_apply] at h
  split at h
  · rename_i hq
    rw [hy] at h
    rw [passed, hq] at *
    exact h
  · exact h

theorem passing_afterFile (x status : Int) (fd : Fin NOFILE) : passing x (afterFile status fd) = some status := by
  rw [afterFile]
  split <;> rfl

theorem passing_afterReparent (x status : Int) (i : Slot) :
    passing x (afterReparent status i) = some status := by
  rw [afterReparent]
  split <;> rfl

theorem passed_freeproc {status : Int} {i : Slot} (h : passed v q = some status)
    (hcode : v.code = update (update w.code i .user) p y) (hy : exits y = false)
    (hsig : ∀ q, sig v.core q = if q = i then onSignal .freeproc (sig w.core q) else sig w.core q) :
    passed w q = some status := by
  by_cases hqp : q = p
  · rw [passed, hcode, hqp, update_self, passing_not_exits hy] at h
    cases h
  · by_cases hqi : q = i
    · rw [passed, hcode, update_of_ne hqp, hqi, update_self] at h
      cases h
    · rw [passed, hcode, update_of_ne hqp, update_of_ne hqi, hsig, if_neg hqi] at h
      exact h

theorem passed_step (ha : Acts w e v) {status : Int} (h : passed v q = some status) :
    passed w q = some status ∨ ∃ c, e = .exit c status ∧ w.me c = some q := by
  cases ha with
  | @core e k ha hk =>
    refine .inl ?_
    change passing (sig k q).xstate (w.code q) = some status at h
    rw [(background_identity (allows_background ha) hk q).2] at h
    exact h
  | setRes | pipe | consoleintr => exact .inl h
  | @allocproc c p np k hme hp hk =>
    obtain ⟨-, -, -, hsig⟩ := allocproc_effect hk
    refine .inl (passed_plain (w := w) h rfl rfl (fun q => ?_))
    change (sig k q).xstate = _
    rw [hsig]
    split <;> rfl
  | forkFail hpc hpr hk =>
    exact .inl (passed_freeproc (w := w) h rfl rfl (forkFail_effect hk hpc).2)
  | forkDone hpc hpr hk =>
    exact .inl (passed_plain (w := w) h rfl rfl (fun q => (background_identity rfl hk q).2))
  | @forkRun c p np o k hme hp hk =>
    obtain ⟨-, hsig⟩ := forkRun_effect hk
    refine .inl (passed_plain (w := w) h rfl rfl (fun q => ?_))
    change (sig k q).xstate = _
    rw [hsig]
    split <;> rfl
  | @exit c p st hme hp hi =>
    simp only [passed, goto, update_apply] at h
    split at h
    · rename_i hq
      cases h
      exact .inr ⟨c, rfl, hq ▸ hme⟩
    · exact .inl h
  | exitFile hme hp =>
    exact .inl (passed_exit (w := w) h rfl (fun x => by rw [passing_afterFile, hp]; rfl) (fun _ => rfl))
  | exitCwd hme hp | exitLock hme hp hl | adopt hme hp hi | unlockWait hpc hpr hp =>
    exact .inl (passed_exit (w := w) h rfl (fun x => by rw [hp]; rfl) (fun _ => rfl))
  | pass hme hp hi =>
    exact .inl (passed_exit (w := w) h rfl (fun x => by rw [passing_afterReparent, hp]; rfl) (fun _ => rfl))
  | wakeInit hme hp hk =>
    exact .inl (passed_exit (w := w) h rfl (fun x => by rw [passing_afterReparent, hp]; rfl)
      (fun q => (background_identity rfl hk q).2))
  | wakeParent hme hp hk =>
    exact .inl (passed_exit (w := w) h rfl (fun x => by rw [hp]; rfl) (fun q => (background_identity rfl hk q).2))
  | zombie hme hp hk =>
    refine .inl ?_
    simp only [passed, goto, update_apply, kexit_effect hk (me_eq_some hme).2] at h
    split at h
    · rename_i hq
      rw [passed, hq, hp]
      exact h
    · exact h
  | forkParent hme hp hl | call hme hp | scanFault hme hp hi hs ha | killed hme hp hk | ret hme hp =>
    exact .inl (passed_plain (w := w) h rfl rfl (fun _ => rfl))
  | enter hme hp hl | reacquire hme hp hl =>
    exact .inl (passed_plain (w := w) h rfl (head_place _).2 (fun _ => rfl))
  | scanOther hme hp hi | scanAlive hme hp hi hs =>
    exact .inl (passed_plain (w := w) h rfl (afterScan_place _ _ _).2 (fun _ => rfl))
  | reap hme hp hi hs ho hk =>
    exact .inl (passed_freeproc (w := w) h rfl rfl (kwait_effect hk))
  | @willing c p x o hme hp hk => exact .inl (passed_plain (w := w) h rfl (willing_place x).2 (fun _ => rfl))
  | full hme hp hk | doze hme hp hk | post hme hp hk =>
    exact .inl (passed_plain (w := w) h rfl rfl (fun q => (background_identity rfl hk q).2))
  | loop hme hp hy hroom hret =>
    exact .inl (passed_plain (w := w) h rfl (inLoop_place hy).2 (fun _ => rfl))

def Kept (w v : World n) (z : Slot) : Prop :=
  (sig v.core z).state = .zombie ∧ (sig v.core z).pid = (sig w.core z).pid ∧
    (sig v.core z).xstate = (sig w.core z).xstate

theorem kept_of_eq (hz : (sig w.core z).state = .zombie) (h : sig v.core z = sig w.core z) : Kept w v z := by
  rw [Kept, h]
  exact ⟨hz, rfl, rfl⟩

theorem kept_background (hx : Exclusive w.core) (hz : (sig w.core z).state = .zombie) {e : Machine.Event n}
    {k : Kernel n} (hb : background e) (hk : w.core.step e = some k) (hv : v.core = k) : Kept w v z := by
  obtain ⟨hpid, hxstate⟩ := background_identity hb hk z
  subst hv
  rcases background_state hx hb hk z with hs | ⟨hs, -⟩
  · exact ⟨hs.trans hz, hpid, hxstate⟩
  · rw [hz] at hs
    cases hs

structure Reaps (w : World n) (e : Lifecycle.Event n) (v : World n) (p z : Slot) (addr : Nat) : Prop where
  scans : ∃ c o havekids, e = .run c o ∧ w.me c = some p ∧ w.code p = .scan addr z havekids
  zombie : w.state z = .zombie
  freed : v.state z = .unused

theorem zombie_step (hx : Exclusive w.core) (ha : Acts w e v) (hz : (sig w.core z).state = .zombie) :
    Kept w v z ∨ ∃ p addr, Reaps w e v p z addr := by
  have hother : ∀ i, (sig w.core i).state ≠ .zombie → z ≠ i := by
    rintro i hi rfl
    exact hi hz
  cases ha with
  | core ha hk => exact .inl (kept_background hx hz (allows_background ha) hk rfl)
  | @allocproc c p np k hme hp hk =>
    obtain ⟨hunused, -, -, hsig⟩ := allocproc_effect hk
    have hne := hother np (by simp [hunused])
    exact .inl (kept_of_eq hz ((hsig z).trans (if_neg hne)))
  | @forkFail c p np k hpc hpr hk =>
    have hused : (sig w.core np).state = .used := (hx.creating c np hpc).1
    have hne := hother np (by simp [hused])
    exact .inl (kept_of_eq hz (((forkFail_effect hk hpc).2 z).trans (if_neg hne)))
  | forkDone hpc hpr hk => exact .inl (kept_background hx hz rfl hk rfl)
  | @forkRun c p np o k hme hp hk =>
    obtain ⟨hused, hsig⟩ := forkRun_effect hk
    have hne := hother np (by simp [hused])
    exact .inl (kept_of_eq hz ((hsig z).trans (if_neg hne)))
  | wakeInit hme hp hk | wakeParent hme hp hk | full hme hp hk | doze hme hp hk | post hme hp hk =>
    exact .inl (kept_background hx hz rfl hk rfl)
  | @zombie c p st o k hme hp hk =>
    have hne := hother p (by simp [me_running hx hme])
    exact .inl (kept_of_eq hz ((kexit_effect hk (me_eq_some hme).2 z).trans (if_neg hne)))
  | @reap c p addr i havekids o k hme hp hi hs ho hk =>
    have hsig := kwait_effect hk z
    by_cases hzi : z = i
    · subst hzi
      refine .inr ⟨p, addr, ⟨c, o, havekids, rfl, hme, hp⟩, hs, ?_⟩
      change (sig k z).state = .unused
      rw [hsig, if_pos rfl]
      rfl
    · exact .inl (kept_of_eq hz (hsig.trans (if_neg hzi)))
  | _ => exact .inl (kept_of_eq hz rfl)

theorem scan_cases {addr : Nat} {havekids : Bool} {o : Choice} (hme : w.me c = some p)
    (hp : w.code p = .scan addr z havekids) (h : w.step (.run c o) = some v) (hz : w.state z = .zombie)
    (hzp : w.parent z = some p) :
    (addr ≠ 0 ∧ o = .fail ∧ v = w.goto p (.ret (.wait addr) (-1))) ∨
      (¬(addr ≠ 0 ∧ o = .fail) ∧ v.state z = .unused ∧ v.code p = .ret (.wait addr) (w.core.procs z).pid ∧
        v.status p = if addr ≠ 0 then some (w.core.procs z).xstate else none) := by
  simp only [step, hme, next, hp, scanNext, hzp, hz, ne_eq, not_true_eq_false, if_false] at h
  split at h
  · cases h
  · split at h
    · rename_i ho
      cases h
      exact .inl ⟨ho.1, ho.2, rfl⟩
    · obtain ⟨k, hk, rfl⟩ := lift_eq_some h
      refine .inr ⟨‹_›, ?_, by simp [goto], by simp [goto, setStatus]⟩
      change (sig k z).state = .unused
      rw [kwait_effect hk, if_pos rfl]
      rfl

theorem reaps_effect {addr : Nat} (h : w.step e = some v) (hr : Reaps w e v p z addr) :
    w.parent z = some p ∧ v.code p = .ret (.wait addr) (w.core.procs z).pid ∧
      v.status p = if addr ≠ 0 then some (w.core.procs z).xstate else none := by
  obtain ⟨⟨c, o, havekids, rfl, hme, hp⟩, hz, hfree⟩ := hr
  have hsame : ∀ y, v ≠ w.goto p y := by
    rintro y rfl
    rw [show (w.goto p y).state z = w.state z from rfl, hz] at hfree
    cases hfree
  by_cases hzp : w.parent z = some p
  · rcases scan_cases hme hp h hz hzp with ⟨-, -, hv⟩ | ⟨-, -, hcode, hstatus⟩
    · exact absurd hv (hsame _)
    · exact ⟨hzp, hcode, hstatus⟩
  · simp only [step, hme, next, hp, scanNext, if_pos hzp] at h
    exact absurd (Option.some.inj h).symm (hsame _)

theorem code_frame (hcode : v.code = update w.code q y) (hne : w.code q ≠ w.code p) :
    v.code p = w.code p := by
  rw [hcode, update_of_ne]
  rintro rfl
  exact hne rfl

theorem code_freeproc {i : Slot} (hcode : v.code = update (update w.code i .user) q y) (hi : i ≠ p)
    (hne : w.code q ≠ w.code p) : v.code p = w.code p := by
  have hqp : q ≠ p := ne_of_apply_ne w.code hne
  rw [hcode, update_of_ne hqp.symm, update_of_ne hi.symm]

theorem ret_step (hf : Forked w) (hst : Staged w) (ha : Acts w e v) {x : Site} (hp : w.code p = .ret x a) :
    v.code p = .ret x a ∨ v.code p = .user ∧ v.ret p = a := by
  cases ha with
  | core | setRes | pipe | consoleintr => exact .inl hp
  | @forkFail c q np k hpc hpr hk =>
    have hcopy := hf.copying c q np hpc hpr
    have hfresh := hf.fresh np (.inr (hf.used q np (by rw [hcopy]; rfl)))
    have hne : np ≠ p := ne_of_apply_ne w.code (by simp [hfresh, hp])
    exact .inl ((code_freeproc (w := w) rfl hne (by simp [hcopy, hp])).trans hp)
  | @forkDone c q np k hpc hpr hk =>
    exact .inl ((code_frame (w := w) rfl (by simp [hp, hf.copying c q np hpc hpr])).trans hp)
  | @reap c q addr i havekids o k hme hq hi hs ho hk =>
    have hdead := (hst.dead i).mpr hs
    have hne : i ≠ p := by
      rintro rfl
      rw [hp] at hdead
      cases hdead
    exact .inl ((code_freeproc (w := w) rfl hne (by simp [hq, hp])).trans hp)
  | @ret c q x' b o hme hq =>
    by_cases hqp : q = p
    · subst hqp
      obtain ⟨rfl, rfl⟩ := Code.ret.inj (hq.symm.trans hp)
      exact .inr ⟨by simp [goto], by simp [goto, setRet]⟩
    · exact .inl (by simp only [goto, setRet, setLock, update_of_ne (Ne.symm hqp)]; exact hp)
  | loop hme hq hy hroom hret =>
    exact .inl ((code_frame (w := w) rfl (by rw [hp]; exact hret x a)).trans hp)
  | allocproc hme hq hk | forkParent hme hq hl | forkRun hme hq hk | exit hme hq hi | exitFile hme hq
  | exitCwd hme hq | exitLock hme hq hl | adopt hme hq hi | pass hme hq hi | wakeInit hme hq hk
  | wakeParent hme hq hk | zombie hme hq hk | unlockWait hpc hpr hq | call hme hq | enter hme hq hl
  | reacquire hme hq hl | scanOther hme hq hi | scanAlive hme hq hi hs | scanFault hme hq hi hs ha
  | killed hme hq hk | willing hme hq hk | full hme hq hk | doze hme hq hk | post hme hq hk =>
    exact .inl ((code_frame (w := w) rfl (by simp [hp, hq])).trans hp)

end Steps

section Runs

variable (r : Lifecycle.Run n)

/-- From position j on, process p does nothing but return a from its system call. -/
def Returns (j : Nat) (p : Slot) (a : Int) : Prop :=
  ∃ x, ∀ k, j ≤ k → (∀ i, j ≤ i → i ≤ k → (r.state i).code p = .ret x a) ∨
    ∃ i, j ≤ i ∧ i < k ∧ (∀ l, j ≤ l → l ≤ i → (r.state l).code p = .ret x a) ∧
      (r.state (i + 1)).code p = .user ∧ (r.state (i + 1)).ret p = a

/-- Process p has been the parent of z since it made z its child in kfork(). -/
def ParentSinceFork (k : Nat) (p z : Slot) : Prop :=
  ∃ j, j < k ∧ (r.state j).code p = .forkParent z ∧ ∀ i, j < i → i ≤ k → (r.state i).parent z = some p

/-- Process z called kexit() with this status and has been there since. -/
def ExitedWith (k : Nat) (z : Slot) (status : Int) : Prop :=
  ∃ j, j < k ∧ (∃ c, r.event j = some (.exit c status) ∧ (r.state j).me c = some z) ∧
    ∀ i, j < i → i ≤ k → exits ((r.state i).code z) = true

/-- The slot z holds at i the zombie that it held at position j. -/
def StillZombie (j i : Nat) (z : Slot) : Prop :=
  (r.state i).state z = .zombie ∧ ((r.state i).core.procs z).pid = ((r.state j).core.procs z).pid ∧
    ((r.state i).core.procs z).xstate = ((r.state j).core.procs z).xstate

/-- At position k a call kwait(addr) of process p frees z. -/
def ReapsAt (k : Nat) (p z : Slot) (addr : Nat) : Prop :=
  ∃ e, r.event k = some e ∧ Reaps (r.state k) e (r.state (k + 1)) p z addr

variable {r}

theorem returns_of_ret {j : Nat} {x : Site} (h : (r.state j).code p = .ret x a) : Returns r j p a := by
  refine ⟨x, fun k hk => Runs.keeps_until h (fun i _ hi => ?_) hk⟩
  rcases run_acts r i with hsame | ⟨e, -, ha⟩
  · rw [hsame]
    exact .inl hi
  · exact ret_step (run_forked r i) (run_staged r i) ha hi

theorem parentSinceFork {k : Nat} (h : (r.state k).parent z = some p) (hp : p ≠ initproc) :
    ParentSinceFork r k p z := by
  refine Runs.holds_since (P := fun i => (r.state i).parent z = some p) ?_ (fun i hi => ?_) h
  · simp [r.start, Lifecycle.boot]
  · rcases run_acts r i with hsame | ⟨e, -, ha⟩
    · exact .inl (hsame ▸ hi)
    · rcases parent_step ha hi with hi | hi | hi
      · exact .inl hi
      · exact absurd hi hp
      · exact .inr hi

theorem exitedWith {k : Nat} {status : Int} (h : passed (r.state k) z = some status) :
    ExitedWith r k z status := by
  have hstep : ∀ i, passed (r.state (i + 1)) z = some status → passed (r.state i) z = some status ∨
      ∃ c, r.event i = some (.exit c status) ∧ (r.state i).me c = some z := by
    intro i hi
    rcases run_acts r i with hsame | ⟨e, he, ha⟩
    · exact .inl (hsame ▸ hi)
    · rcases passed_step ha hi with hi | ⟨c, rfl, hc⟩
      · exact .inl hi
      · exact .inr ⟨c, he, hc⟩
  have h₀ : ¬passed (r.state 0) z = some status := by
    simp [r.start, Lifecycle.boot, passed, passing]
  obtain ⟨j, hjk, hj, hsince⟩ := Runs.holds_since (P := fun i => passed (r.state i) z = some status) h₀ hstep h
  exact ⟨j, hjk, hj, fun i hji hik => exits_of_passed (hsince i hji hik)⟩

theorem stillZombie_step {j i : Nat} (h : StillZombie r j i z) :
    StillZombie r j (i + 1) z ∨ ∃ p addr, ReapsAt r i p z addr := by
  obtain ⟨hz, hpid, hxstate⟩ := h
  rcases run_acts r i with hsame | ⟨e, he, ha⟩
  · refine .inl ?_
    rw [StillZombie, hsame]
    exact ⟨hz, hpid, hxstate⟩
  · rcases zombie_step (core_exclusive r i) ha hz with ⟨hz', hpid', hxstate'⟩ | ⟨p, addr, hr⟩
    · exact .inl ⟨hz', hpid'.trans hpid, hxstate'.trans hxstate⟩
    · exact .inr ⟨p, addr, e, he, hr⟩

end Runs

end AdaptiveXv6.ExitWait
