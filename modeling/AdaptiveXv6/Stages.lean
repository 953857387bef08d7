import AdaptiveXv6.Forks

namespace AdaptiveXv6.Stages

open Process Ops Machine Lifecycle World LifecycleSteps LifecycleCore Forks Signals Exclusion Function

variable {n : Nat} {w v : World n} {e : Lifecycle.Event n} {c : Fin n} {p z : Slot} {y : Code}

def holdsWait : Code → Bool
  | .reparent _ _ | .wakeInit _ _ | .wakeParent _ | .exitSelf _ | .exitRelease | .scan _ _ _ => true
  | .test x | .check x | .doze x | .post x _ _ | .ret x _ => x.lk = .wait
  | _ => false

def exits : Code → Bool
  | .exitFiles _ _ | .exitCwd _ | .exitLock _ | .reparent _ _ | .wakeInit _ _ | .wakeParent _
  | .exitSelf _ | .exitRelease | .exited => true
  | _ => false

def dead : Code → Bool
  | .exitRelease | .exited => true
  | _ => false

section Places

theorem exits_of_dead (h : dead y = true) : exits y = true := by
  cases y with
  | exitRelease | exited => rfl
  | _ => cases h

theorem afterFile_place (status : Int) (fd : Fin NOFILE) :
    holdsWait (afterFile status fd) = false ∧ dead (afterFile status fd) = false := by
  rw [afterFile]
  split <;> exact ⟨rfl, rfl⟩

theorem afterReparent_place (status : Int) (i : Slot) :
    holdsWait (afterReparent status i) = true ∧ dead (afterReparent status i) = false := by
  rw [afterReparent]
  split <;> exact ⟨rfl, rfl⟩

theorem afterScan_place (addr : Nat) (i : Slot) (havekids : Bool) :
    holdsWait (afterScan addr i havekids) = true ∧ exits (afterScan addr i havekids) = false := by
  rw [afterScan]
  split
  · exact ⟨rfl, rfl⟩
  · split <;> exact ⟨rfl, rfl⟩

theorem head_place (x : Site) : holdsWait x.head = (x.lk = .wait) ∧ exits x.head = false := by
  cases x <;> simp [Site.head, holdsWait, exits, Site.lk]

theorem started_lk (x : Site) (ticks : Nat) : (x.started ticks).lk = x.lk := by cases x <;> rfl

theorem willing_place (x : Site) : holdsWait x.willing = (x.lk = .wait) ∧ exits x.willing = false := by
  cases x <;> simp [Site.willing, holdsWait, exits, Site.lk]

theorem inLoop_place (hy : inLoop y) : holdsWait y = false ∧ exits y = false := by
  cases y with
  | take | room => exact ⟨rfl, rfl⟩
  | test | post | check | ret => exact ⟨by simpa [inLoop, holdsWait] using hy, rfl⟩
  | _ => cases hy

theorem dead_of_not_exits (hy : exits y = false) : dead y = false := by
  by_contra hd
  rw [exits_of_dead (Bool.not_eq_false _ ▸ hd)] at hy
  cases hy

end Places

/-- Where a process stands in kexit() and kwait() agrees with wait_lock and with its
state. The first process never exits. -/
structure Staged (w : World n) : Prop where
  holder : ∀ p, holdsWait (w.code p) → w.lock .wait = some p
  dead : ∀ p, dead (w.code p) ↔ (sig w.core p).state = .zombie
  init : exits (w.code initproc) = false
  alive : alive (sig w.core initproc).state = true

theorem boot_staged (n : Nat) : Staged (Lifecycle.boot n) where
  holder := nofun
  dead p := by
    refine ⟨nofun, fun hs => ?_⟩
    by_cases hp : p = initproc
    · subst hp
      cases hs
    · simp [sig, ofProc, Lifecycle.boot, Machine.boot, hp, procinit] at hs
  init := rfl
  alive := rfl

namespace Staged

variable (h : Staged w)

include h

theorem of_same (hcore : v.core = w.core) (hcode : v.code = w.code)
    (hlock : v.lock .wait = w.lock .wait) : Staged v := by
  refine ⟨?_, ?_, ?_, ?_⟩
  · rw [hcode, hlock]
    exact h.holder
  · rw [hcore, hcode]
    exact h.dead
  · rw [hcode]
    exact h.init
  · rw [hcore]
    exact h.alive

theorem of_core (hx : Exclusive w.core) {e : Machine.Event n} {k : Kernel n}
    (hb : background e) (hk : w.core.step e = some k) : Staged { w with core := k } := by
  refine ⟨h.holder, ?_, h.init, ?_⟩
  · intro p
    refine (h.dead p).trans ?_
    rcases background_state hx hb hk p with hs | ⟨hs, hs'⟩
    · rw [← hs]
    · refine ⟨fun hz => ?_, fun hz => ?_⟩
      · rw [hz] at hs
        cases hs
      · rw [show (sig k p).state = .zombie from hz] at hs'
        cases hs'
  · rcases background_state hx hb hk initproc with hs | ⟨-, hs⟩
    · exact hs ▸ h.alive
    · exact hs

theorem of_goto (hp : (sig w.core p).state ≠ .zombie)
    (hhold : holdsWait y → w.lock .wait = some p) (hdead : Stages.dead y = false)
    (hexit : exits y → p ≠ initproc) : Staged (w.goto p y) := by
  refine ⟨?_, ?_, ?_, h.alive⟩
  · intro q
    simp only [goto, update_apply]
    split
    · rename_i hq
      rw [hq]
      exact hhold
    · exact h.holder q
  · intro q
    simp only [goto, update_apply]
    split
    · rename_i hq
      rw [hq, hdead]
      exact ⟨(by simp), fun hz => absurd hz hp⟩
    · exact h.dead q
  · simp only [goto, update_apply]
    split
    · rename_i hq
      exact Bool.eq_false_iff.mpr fun hy => hexit hy hq.symm
    · exact h.init

theorem ne_init (hp : exits (w.code p) = true) : p ≠ initproc := by
  rintro rfl
  rw [h.init] at hp
  cases hp

theorem of_run (hx : Exclusive w.core) (hme : w.me c = some p)
    (hhold : holdsWait y → w.lock .wait = some p) (hexit : exits y = false) : Staged (w.goto p y) := by
  refine h.of_goto ?_ hhold (dead_of_not_exits hexit) ?_
  · simp [me_running hx hme]
  · intro hy
    rw [hexit] at hy
    cases hy

theorem holds {x : Code} (hp : w.code p = x) (hhold : holdsWait x = true) :
    w.lock .wait = some p := h.holder p (by rw [hp]; exact hhold)

theorem of_exit {x : Code} (hx : Exclusive w.core) (hme : w.me c = some p) (hp : w.code p = x)
    (hexit : exits x = true) (hhold : holdsWait y → w.lock .wait = some p) (hdead : Stages.dead y = false) :
    Staged (w.goto p y) := by
  refine h.of_goto ?_ hhold hdead (fun _ => h.ne_init (by rw [hp]; exact hexit))
  simp [me_running hx hme]

theorem of_acquire (hl : w.lock .wait = none) : Staged (w.setLock .wait (some p)) := by
  refine ⟨?_, h.dead, h.init, h.alive⟩
  intro q hq
  rw [h.holder q hq] at hl
  cases hl

theorem of_release (hp : holdsWait (w.code p) = true) (hhold : holdsWait y = false)
    (hdead : Stages.dead y ↔ (sig w.core p).state = .zombie) (hexit : exits y → p ≠ initproc) :
    Staged ((w.setLock .wait none).goto p y) := by
  refine ⟨?_, ?_, ?_, h.alive⟩
  · intro q hq
    simp only [goto, setLock, update_apply] at hq
    split at hq
    · rw [hhold] at hq
      cases hq
    · rename_i hne
      exact absurd (Option.some.inj ((h.holder q hq).symm.trans (h.holder p hp))) hne
  · intro q
    simp only [goto, setLock, update_apply]
    split
    · rename_i hq
      rw [hq]
      exact hdead
    · exact h.dead q
  · simp only [goto, setLock, update_apply]
    split
    · rename_i hq
      exact Bool.eq_false_iff.mpr fun hy => hexit hy hq.symm
    · exact h.init

theorem of_section {k : Kernel n} {op : Op}
    (hsig : ∀ q, sig k q = if q = z then onSignal op (sig w.core q) else sig w.core q)
    (hz : z ≠ initproc) (hdead : Stages.dead (w.code z) ↔ (onSignal op (sig w.core z)).state = .zombie) :
    Staged { w with core := k } := by
  refine ⟨h.holder, ?_, h.init, ?_⟩
  · intro q
    simp only [hsig]
    split
    · rename_i hq
      rw [hq]
      exact hdead
    · exact h.dead q
  · simp only [hsig, if_neg hz.symm]
    exact h.alive

theorem of_freeproc {k : Kernel n} {i : Slot}
    (hsig : ∀ q, sig k q = if q = i then onSignal .freeproc (sig w.core q) else sig w.core q)
    (hi : i ≠ initproc) : Staged ({ w with core := k }.freeproc i) := by
  refine ⟨?_, ?_, ?_, ?_⟩
  · intro q
    simp only [World.freeproc, goto, setRes, World.adopt, update_apply]
    split
    · rintro ⟨⟩
    · exact h.holder q
  · intro q
    simp only [World.freeproc, goto, setRes, World.adopt, update_apply, hsig]
    split
    · simp [Stages.dead, onSignal]
    · exact h.dead q
  · simp only [World.freeproc, goto, setRes, World.adopt, update_of_ne hi.symm]
    exact h.init
  · simp only [World.freeproc, goto, setRes, World.adopt, hsig, if_neg hi.symm]
    exact h.alive

theorem of_kexit {k : Kernel n} {status : Int} (hp : w.code p = .exitSelf status)
    (hsig : ∀ q, sig k q = if q = p then onSignal (.kexit status) (sig w.core q) else sig w.core q) :
    Staged ({ w with core := k }.goto p .exitRelease) := by
  have hne : initproc ≠ p := (h.ne_init (by rw [hp]; rfl)).symm
  refine ⟨?_, ?_, ?_, ?_⟩
  · intro q
    simp only [goto, update_apply]
    split
    · rename_i hq
      rw [hq]
      exact fun _ => h.holder p (by rw [hp]; rfl)
    · exact h.holder q
  · intro q
    simp only [goto, update_apply, hsig]
    split
    · exact ⟨fun _ => rfl, fun _ => rfl⟩
    · exact h.dead q
  · simp only [goto, update_of_ne hne]
    exact h.init
  · simp only [goto, hsig, if_neg hne]
    exact h.alive

theorem of_take (hx : Exclusive w.core) (hme : w.me c = some p) {lk : Lk}
    (hl : w.lock lk = none) (hhold : holdsWait y = (lk = .wait)) (hexit : exits y = false) :
    Staged ((w.setLock lk (some p)).goto p y) := by
  by_cases hlk : lk = .wait
  · subst hlk
    exact (h.of_acquire hl).of_run hx hme (fun _ => by simp [setLock]) hexit
  · have hsame : Staged (w.setLock lk (some p)) := h.of_same rfl rfl (by simp [setLock, Ne.symm hlk])
    exact hsame.of_run hx hme (fun hy => absurd (hhold.mp hy) hlk) hexit

theorem of_leave (hx : Exclusive w.core) (hme : w.me c = some p) {lk : Lk}
    (hp : holdsWait (w.code p) = (lk = .wait)) (hhold : holdsWait y = false) (hexit : exits y = false) :
    Staged ((w.setLock lk none).goto p y) := by
  by_cases hlk : lk = .wait
  · subst hlk
    refine h.of_release (hp.mpr rfl) hhold ?_ ?_
    · rw [dead_of_not_exits hexit, me_running hx hme]
      simp
    · simp [hexit]
  · have hsame : Staged (w.setLock lk none) := h.of_same rfl rfl (by simp [setLock, Ne.symm hlk])
    refine hsame.of_run hx hme (fun hy => ?_) hexit
    rw [hhold] at hy
    cases hy

theorem ne_initproc (hz : Signals.alive (sig w.core z).state = false) : z ≠ initproc := by
  rintro rfl
  rw [h.alive] at hz
  cases hz

theorem acts (hf : Forked w) (hx : Exclusive w.core) (ha : Acts w e v) : Staged v := by
  cases ha with
  | core ha hk => exact h.of_core hx (allows_background ha) hk
  | setRes | pipe | consoleintr => exact h.of_same rfl rfl rfl
  | @allocproc c p np k hme hp hk =>
    obtain ⟨hunused, -, -, hsig⟩ := allocproc_effect hk
    have hne := me_ne hx hme (z := np) (by simp [hunused])
    refine Staged.of_section (z := np) (h.of_run hx hme (y := .forkCopy np) (by rintro ⟨⟩) rfl) hsig
      (h.ne_initproc (by rw [hunused]; rfl)) ?_
    simp only [goto, update_of_ne hne.symm]
    rw [hf.fresh np (.inl hunused)]
    simp [Stages.dead, onSignal]
  | @forkFail c p np k hpc hpr hk =>
    obtain ⟨-, hsig⟩ := forkFail_effect hk hpc
    obtain ⟨hused, hrun, hne⟩ := forking_states hx hpc hpr
    refine (h.of_freeproc hsig (h.ne_initproc (by rw [hused]; rfl))).of_goto ?_ (by rintro ⟨⟩) rfl (by rintro ⟨⟩)
    change (sig k p).state ≠ .zombie
    simp [hsig, if_neg hne, hrun]
  | @forkDone c p np k hpc hpr hk =>
    have hgoto : Staged (w.goto p (.forkParent np)) :=
      h.of_goto (by simp [(forking_states hx hpc hpr).2.1]) (by rintro ⟨⟩) rfl (by rintro ⟨⟩)
    exact (hgoto.of_core hx rfl hk).of_same rfl rfl rfl
  | @forkParent c p np o hme hp hl =>
    exact (h.of_same rfl rfl rfl : Staged (w.adopt np (some p))).of_run hx hme (by rintro ⟨⟩) rfl
  | @forkRun c p np o k hme hp hk =>
    obtain ⟨hused, hsig⟩ := forkRun_effect hk
    refine Staged.of_section (z := np) (h.of_run hx hme (y := .user) (by rintro ⟨⟩) rfl) hsig
      (h.ne_initproc (by rw [hused]; rfl)) ?_
    have huser : (w.goto p .user).code np = .user := by
      simp only [goto, update_apply]
      split
      · rfl
      · exact hf.fresh np (.inr hused)
    rw [huser]
    simp [Stages.dead, onSignal]
  | exit hme hp hi => exact h.of_goto (by simp [me_running hx hme]) (by rintro ⟨⟩) rfl (fun _ => hi)
  | exitFile hme hp =>
    obtain ⟨hhold, hdead⟩ := afterFile_place _ _
    exact (h.of_same rfl rfl rfl : Staged (w.setRes _ _)).of_exit hx hme hp rfl (by simp [hhold]) hdead
  | exitCwd hme hp => exact (h.of_same rfl rfl rfl : Staged (w.setRes _ _)).of_exit hx hme hp rfl (by rintro ⟨⟩) rfl
  | exitLock hme hp hl => exact (h.of_acquire hl).of_exit hx hme hp rfl (fun _ => by simp [setLock]) rfl
  | adopt hme hp hi =>
    exact (h.of_same rfl rfl rfl : Staged (w.adopt _ _)).of_exit hx hme hp rfl (fun _ => h.holds hp rfl) rfl
  | pass hme hp hi => exact h.of_exit hx hme hp rfl (fun _ => h.holds hp rfl) (afterReparent_place _ _).2
  | wakeInit hme hp hk =>
    exact (h.of_exit hx hme hp rfl (fun _ => h.holds hp rfl) (afterReparent_place _ _).2).of_core hx rfl hk
  | wakeParent hme hp hk => exact (h.of_exit hx hme hp rfl (fun _ => h.holds hp rfl) rfl).of_core hx rfl hk
  | zombie hme hp hk => exact h.of_kexit hp (kexit_effect hk (me_eq_some hme).2)
  | @unlockWait c p hpc hpr hp =>
    have hdead := h.dead p
    rw [hp] at hdead
    exact h.of_release (by rw [hp]; rfl) rfl hdead (fun _ => h.ne_init (by rw [hp]; rfl))
  | call hme hp => exact h.of_run hx hme (by rintro ⟨⟩) rfl
  | @enter c p x o hme hp hl =>
    obtain ⟨hhold, hexit⟩ := head_place (x.started w.core.ticks)
    rw [started_lk] at hhold
    exact h.of_take hx hme hl hhold hexit
  | reacquire hme hp hl => exact h.of_take hx hme hl (head_place _).1 (head_place _).2
  | scanOther hme hp hi | scanAlive hme hp hi hs =>
    exact h.of_run hx hme (fun _ => h.holds hp rfl) (afterScan_place _ _ _).2
  | scanFault hme hp hi hs ha => exact h.of_run hx hme (fun _ => h.holds hp rfl) rfl
  | @reap c p addr i havekids o k hme hp hi hs ho hk =>
    have hsig := kwait_effect hk
    have hs : (sig w.core i).state = .zombie := hs
    have hfree := h.of_freeproc hsig (h.ne_initproc (by rw [hs]; rfl))
    refine Staged.of_goto (hfree.of_same rfl rfl rfl) ?_ (fun _ => h.holds hp rfl) rfl (by rintro ⟨⟩)
    change (sig k p).state ≠ .zombie
    simp [hsig, if_neg (me_ne hx hme (z := i) (by simp [hs])), me_running hx hme]
  | killed hme hp hk => exact h.of_run hx hme (fun hy => h.holds hp hy) rfl
  | willing hme hp hk =>
    obtain ⟨hhold, hexit⟩ := willing_place _
    refine h.of_run hx hme (fun hy => h.holds hp ?_) hexit
    simpa [holdsWait] using hhold.mp hy
  | full hme hp hk => exact (h.of_run hx hme (by simp [holdsWait, Site.lk]) rfl).of_core hx rfl hk
  | @doze c p x o k hme hp hk =>
    refine (h.of_leave (y := .asleep x) hx hme ?_ rfl rfl).of_core hx rfl hk
    rw [hp]
    simp [holdsWait]
  | @loop c p o y pipe cons hme hp hy hroom hret =>
    obtain ⟨hhold, hexit⟩ := inLoop_place hy
    refine (h.of_same rfl rfl rfl : Staged { w with pipe := pipe, cons := cons }).of_run hx hme ?_ hexit
    simp [hhold]
  | @post c p x chan a o k hme hp hk =>
    exact (h.of_run (y := .ret x a) hx hme (fun hy => h.holds hp hy) rfl).of_core hx rfl hk
  | ret hme hp =>
    refine (h.of_leave (y := .user) hx hme ?_ rfl rfl).of_same rfl rfl rfl
    rw [hp]
    simp [holdsWait]

end Staged

theorem run_staged (r : Lifecycle.Run n) (k : Nat) : Staged (r.state k) :=
  run_always r (boot_staged n) (fun k _ _ h ha => h.acts (run_forked r k) (core_exclusive r k) ha) k

end AdaptiveXv6.Stages
