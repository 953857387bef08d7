import AdaptiveXv6.LifecycleCore

namespace AdaptiveXv6.Forks

open Process Ops Machine Lifecycle World LifecycleSteps LifecycleCore Signals Exclusion Function

variable {n : Nat} {w v : World n} {e : Lifecycle.Event n} {c : Fin n} {p np : Slot} {y : Code}

def making : Code → Option Slot
  | .forkCopy np | .forkParent np | .forkRun np => some np
  | _ => none

theorem making_afterFile (status : Int) (fd : Fin NOFILE) : making (afterFile status fd) = none := by
  rw [afterFile]
  split <;> rfl

theorem making_afterReparent (status : Int) (i : Slot) : making (afterReparent status i) = none := by
  rw [afterReparent]
  split <;> rfl

theorem making_afterScan (addr : Nat) (i : Slot) (havekids : Bool) :
    making (afterScan addr i havekids) = none := by
  rw [afterScan]
  split
  · rfl
  · split <;> rfl

theorem making_head (x : Site) : making x.head = none := by cases x <;> rfl

theorem making_willing (x : Site) : making x.willing = none := by cases x <;> rfl

theorem making_inLoop (hy : inLoop y) : making y = none := by
  cases y with
  | forkCopy | forkParent | forkRun => cases hy
  | _ => rfl

structure Forked (w : World n) : Prop where
  fresh : ∀ z, (sig w.core z).state = .unused ∨ (sig w.core z).state = .used → w.code z = .user
  used : ∀ p np, making (w.code p) = some np → (sig w.core np).state = .used
  unique : ∀ p q np, making (w.code p) = some np → making (w.code q) = some np → p = q
  copying : ∀ c p np, w.core.pc c = .forking np → w.core.proc c = some p → w.code p = .forkCopy np

theorem boot_forked (n : Nat) : Forked (boot n) :=
  ⟨fun _ _ => rfl, nofun, nofun, nofun⟩

theorem not_copying (hx : Exclusive w.core) (hme : w.me c = some p) (d : Fin n) (np : Slot)
    (hd : w.core.pc d = .forking np) : w.core.proc d ≠ some p := by
  intro hp
  obtain ⟨hpc, hpr⟩ := me_eq_some hme
  rw [hx.unique d c p hp hpr, hpc] at hd
  cases hd

namespace Forked

variable (h : Forked w)

include h

theorem of_same (hcore : v.core = w.core) (hcode : v.code = w.code) : Forked v := by
  refine ⟨?_, ?_, ?_, ?_⟩
  · rw [hcore, hcode]
    exact h.fresh
  · rw [hcore, hcode]
    exact h.used
  · rw [hcode]
    exact h.unique
  · rw [hcore, hcode]
    exact h.copying

theorem of_core (hx : Exclusive w.core) {e : Machine.Event n} {k : Kernel n}
    (hb : background e) (hk : w.core.step e = some k) : Forked { w with core := k } := by
  have hstate : ∀ z x, alive x = false → ((sig k z).state = x ↔ (sig w.core z).state = x) := by
    intro z x hx'
    rcases background_state hx hb hk z with hs | ⟨hs, hs'⟩
    · rw [hs]
    · refine ⟨fun hz => ?_, fun hz => ?_⟩
      · rw [hz, hx'] at hs'
        cases hs'
      · rw [hz, hx'] at hs
        cases hs
  refine ⟨?_, ?_, h.unique, ?_⟩
  · intro z hz
    rw [hstate z _ rfl, hstate z _ rfl] at hz
    exact h.fresh z hz
  · intro p np hp
    rw [hstate np _ rfl]
    exact h.used p np hp
  · intro c p np hc hp
    obtain ⟨hc', hproc⟩ := forking_step hk hc (by rintro c p rfl; cases hb)
    exact h.copying c p np hc' (hproc.symm.trans hp)

theorem of_goto (hp : (sig w.core p).state ≠ .unused ∧ (sig w.core p).state ≠ .used)
    (hidle : ∀ d np, w.core.pc d = .forking np → w.core.proc d ≠ some p)
    (hy : ∀ np, making y = some np → making (w.code p) = some np) : Forked (w.goto p y) := by
  have hmaking : ∀ q np, making ((w.goto p y).code q) = some np → making (w.code q) = some np := by
    intro q np hq
    simp only [goto, update_apply] at hq
    split at hq
    · rename_i hqp
      rw [hqp]
      exact hy np hq
    · exact hq
  refine ⟨?_, ?_, ?_, ?_⟩
  · intro z hz
    have hne : z ≠ p := by
      rintro rfl
      exact hz.elim hp.1 hp.2
    simp only [goto, update_of_ne hne]
    exact h.fresh z hz
  · exact fun q np hq => h.used q np (hmaking q np hq)
  · exact fun q r np hq hr => h.unique q r np (hmaking q np hq) (hmaking r np hr)
  · intro c q np hc hq
    have hne : q ≠ p := by
      rintro rfl
      exact hidle c np hc hq
    simp only [goto, update_of_ne hne]
    exact h.copying c q np hc hq

theorem of_run (hx : Exclusive w.core) (hme : w.me c = some p) (hcore : v.core = w.core)
    (hcode : v.code = update w.code p y) (hy : making y = none) : Forked v := by
  refine (h.of_goto (p := p) (y := y) ?_ (not_copying hx hme) ?_).of_same hcore hcode
  · simp [me_running hx hme]
  · intro np hnp
    rw [hy] at hnp
    cases hnp

theorem of_passed (hx : Exclusive w.core) (hme : w.me c = some p) {e : Machine.Event n} {k : Kernel n}
    (hb : background e) (hk : w.core.step e = some k) (hcore : v.core = k) (hcode : v.code = update w.code p y)
    (hy : making y = none) : Forked v := by
  have hgoto : Forked (w.goto p y) := h.of_run hx hme rfl rfl hy
  exact (hgoto.of_core hx hb hk).of_same hcore hcode

theorem of_section {k : Kernel n} {z : Slot} {op : Op}
    (hsig : ∀ q, sig k q = if q = z then onSignal op (sig w.core q) else sig w.core q)
    (hz : ∀ q, making (w.code q) ≠ some z)
    (hop : (onSignal op (sig w.core z)).state = .unused ∨ (onSignal op (sig w.core z)).state = .used →
      w.code z = .user)
    (hfork : ∀ c np, k.pc c = .forking np → w.core.pc c = .forking np ∧ k.proc c = w.core.proc c) :
    Forked { w with core := k } := by
  refine ⟨?_, ?_, h.unique, ?_⟩
  · intro q hq
    simp only [hsig] at hq
    by_cases hqz : q = z
    · subst hqz
      exact hop (by simpa using hq)
    · exact h.fresh q (by simpa only [if_neg hqz] using hq)
  · intro q np hq
    have hne : np ≠ z := by
      rintro rfl
      exact hz q hq
    simp only [hsig, if_neg hne]
    exact h.used q np hq
  · intro c q np hc hq
    obtain ⟨hc', hproc⟩ := hfork c np hc
    exact h.copying c q np hc' (hproc.symm.trans hq)

theorem allocproc (hx : Exclusive w.core) (hme : w.me c = some p) {k : Kernel n}
    (hk : w.core.step (.allocproc c np) = some k) : Forked ({ w with core := k }.goto p (.forkCopy np)) := by
  obtain ⟨hunused, hpc, hproc, hsig⟩ := allocproc_effect hk
  have hrun := me_running hx hme
  have hnone : ∀ q, making (w.code q) ≠ some np := by
    intro q hq
    rw [h.used q np hq] at hunused
    cases hunused
  refine ⟨?_, ?_, ?_, ?_⟩
  · intro z hz
    simp only [goto, hsig] at hz ⊢
    by_cases hznp : z = np
    · have hzp : z ≠ p := by
        rintro rfl
        rw [hznp, hunused] at hrun
        cases hrun
      rw [update_of_ne hzp]
      exact h.fresh z (.inl (hznp ▸ hunused))
    · have hzp : z ≠ p := by
        rintro rfl
        rw [if_neg hznp, hrun] at hz
        rcases hz with hz | hz <;> cases hz
      rw [update_of_ne hzp]
      exact h.fresh z (by simpa only [if_neg hznp] using hz)
  · intro q m hq
    simp only [goto, hsig, update_apply] at hq ⊢
    split at hq
    · cases hq
      simp [onSignal]
    · have hne : m ≠ np := by
        rintro rfl
        exact hnone q hq
      rw [if_neg hne]
      exact h.used q m hq
  · intro q r m hq hr
    simp only [goto, update_apply] at hq hr
    split at hq <;> split at hr
    · exact ‹q = p›.trans ‹r = p›.symm
    · cases hq
      exact absurd hr (hnone r)
    · cases hr
      exact absurd hq (hnone q)
    · exact h.unique q r m hq hr
  · intro d q m hd hq
    by_cases hdc : d = c
    · subst hdc
      obtain rfl : np = m := Pc.forking.inj (hpc.symm.trans hd)
      obtain rfl : p = q := Option.some.inj ((me_eq_some hme).2.symm.trans (hproc.symm.trans hq))
      simp [goto]
    · obtain ⟨hproc', hpc'⟩ := cpu_frame (d := d) hk hdc
      have hq' := hproc'.symm.trans hq
      have hqp : q ≠ p := by
        rintro rfl
        exact hdc (hx.unique d c q hq' (me_eq_some hme).2)
      simp only [goto, update_of_ne hqp]
      exact h.copying d q m (hpc'.symm.trans hd) hq'

theorem of_forked (hx : Exclusive w.core) {k : Kernel n} {e : Machine.Event n}
    (hpc : w.core.pc c = .forking np) (hpr : w.core.proc c = some p) (hk : w.core.step e = some k)
    (he : ∀ c p, e ≠ .allocproc c p) (hrun : k.pc c = .running)
    (hstate : ∀ q, q ≠ np → sig k q = sig w.core q) (hv : v.core = k)
    (hcode : ∀ q, q ≠ p → q ≠ np → v.code q = w.code q) (hnp : v.code np = .user)
    (hp : v.code p = .user ∨ making (v.code p) = some np ∧ (sig k np).state = .used) : Forked v := by
  have hcopy := h.copying c p np hpc hpr
  have hmaking : making (w.code p) = some np := by rw [hcopy]; rfl
  have hstate' : (sig w.core p).state = .running := (hx.running c p hpr).mpr (by simp [hpc])
  have hused := h.used p np hmaking
  have hkeep : ∀ q m, making (v.code q) = some m → making (w.code q) = some m ∧
      (q = p ∧ m = np ∧ (sig k np).state = .used ∨ m ≠ np) := by
    intro q m hq
    have hqnp : q ≠ np := by
      rintro rfl
      rw [hnp] at hq
      cases hq
    by_cases hqp : q = p
    · subst hqp
      rcases hp with hp | ⟨hp, hu⟩
      · rw [hp] at hq
        cases hq
      · obtain rfl : np = m := Option.some.inj (hp.symm.trans hq)
        exact ⟨hmaking, .inl ⟨rfl, rfl, hu⟩⟩
    · rw [hcode q hqp hqnp] at hq
      refine ⟨hq, .inr ?_⟩
      rintro rfl
      exact hqp (h.unique q p m hq hmaking)
  refine ⟨?_, ?_, ?_, ?_⟩
  · intro z hz
    by_cases hznp : z = np
    · rw [hznp]
      exact hnp
    · rw [hv, hstate z hznp] at hz
      have hzp : z ≠ p := by
        rintro rfl
        rw [hstate'] at hz
        rcases hz with hz | hz <;> cases hz
      rw [hcode z hzp hznp]
      exact h.fresh z hz
  · intro q m hq
    rw [hv]
    obtain ⟨hq', ⟨-, rfl, hu⟩ | hne⟩ := hkeep q m hq
    · exact hu
    · rw [hstate m hne]
      exact h.used q m hq'
  · exact fun q r m hq hr => h.unique q r m (hkeep q m hq).1 (hkeep r m hr).1
  · intro d q m hd hq
    rw [hv] at hd hq
    obtain ⟨hd', hproc⟩ := forking_step hk hd he
    have hq' := h.copying d q m hd' (hproc.symm.trans hq)
    have hqp : q ≠ p := by
      rintro rfl
      obtain rfl := hx.unique d c q (hproc.symm.trans hq) hpr
      rw [hrun] at hd
      cases hd
    have hqnp : q ≠ np := by
      rintro rfl
      rw [h.fresh q (.inr hused)] at hq'
      cases hq'
    rw [hcode q hqp hqnp]
    exact hq'

theorem acts (hx : Exclusive w.core) (ha : Acts w e v) : Forked v := by
  cases ha with
  | core ha hk => exact h.of_core hx (allows_background ha) hk
  | setRes | pipe | consoleintr => exact h.of_same rfl rfl
  | allocproc hme hp hk => exact h.allocproc hx hme hk
  | @forkFail c p np k hpc hpr hk =>
    obtain ⟨hrun, hsig⟩ := forkFail_effect hk hpc
    have hne := (forking_states hx hpc hpr).2.2.symm
    refine h.of_forked hx hpc hpr hk (by simp) hrun ?_ rfl ?_ ?_ (.inl ?_)
    · intro q hq
      rw [hsig, if_neg hq]
    · intro q hqp hqnp
      simp [World.freeproc, goto, setRes, World.adopt, hqp, hqnp]
    · simp [World.freeproc, goto, setRes, World.adopt, hne]
    · simp [goto]
  | @forkDone c p np k hpc hpr hk =>
    obtain ⟨hrun, hsig⟩ := forkDone_effect hk
    obtain ⟨hused, -, hne⟩ := forking_states hx hpc hpr
    refine h.of_forked hx hpc hpr hk (by simp) hrun (fun q _ => hsig q) rfl ?_ ?_ (.inr ⟨?_, ?_⟩)
    · intro q hqp _
      simp [goto, setRes, hqp]
    · simp only [goto, setRes, update_of_ne hne.symm]
      exact h.fresh np (.inr hused)
    · simp [goto, making]
    · rw [hsig]
      exact hused
  | @forkParent c p np o hme hp hl =>
    have hsame : Forked (w.adopt np (some p)) := h.of_same rfl rfl
    refine hsame.of_goto ?_ (not_copying hx hme) ?_
    · rw [show (sig (w.adopt np (some p)).core p).state = .running from me_running hx hme]
      simp
    · intro m hm
      change making (w.code p) = some m
      rw [hp]
      exact hm
  | @forkRun c p np o k hme hp hk =>
    obtain ⟨-, hsig⟩ := forkRun_effect hk
    have hmaking : making (w.code p) = some np := by rw [hp]; rfl
    have hafter : Forked (w.goto p .user) := h.of_run hx hme rfl rfl rfl
    refine hafter.of_section (k := k) hsig ?_ (by rintro (h | h) <;> cases h)
      (fun d m hd => forking_step hk hd (by simp))
    intro q hq
    simp only [goto, update_apply] at hq
    split at hq
    · cases hq
    · exact ‹q ≠ p› (h.unique q p np hq hmaking)
  | exit hme hp hi | exitCwd hme hp | exitLock hme hp hl | adopt hme hp hi | call hme hp | scanFault hme hp hi hs ha
  | killed hme hp hk | ret hme hp => exact h.of_run hx hme rfl rfl rfl
  | exitFile hme hp => exact h.of_run hx hme rfl rfl (making_afterFile _ _)
  | pass hme hp hi => exact h.of_run hx hme rfl rfl (making_afterReparent _ _)
  | wakeInit hme hp hk => exact h.of_passed hx hme rfl hk rfl rfl (making_afterReparent _ _)
  | wakeParent hme hp hk | full hme hp hk | doze hme hp hk | post hme hp hk =>
    exact h.of_passed hx hme rfl hk rfl rfl rfl
  | @zombie c p status o k hme hp hk =>
    have hafter : Forked (w.goto p .exitRelease) := h.of_run hx hme rfl rfl rfl
    refine hafter.of_section (k := k) (kexit_effect hk (me_eq_some hme).2) ?_
      (by rintro (h | h) <;> cases h) (fun d m hd => forking_step hk hd (by simp))
    intro q hq
    have hused : (sig w.core p).state = .used := hafter.used q p hq
    rw [me_running hx hme] at hused
    cases hused
  | @unlockWait c p hpc hpr hp =>
    have hsame : Forked (w.setLock .wait none) := h.of_same rfl rfl
    have hcode : w.code p ≠ .user := by simp [hp]
    refine hsame.of_goto ⟨?_, ?_⟩ ?_ nofun
    · exact fun hs => hcode (h.fresh p (.inl hs))
    · exact fun hs => hcode (h.fresh p (.inr hs))
    · intro d np hd hq
      have := h.copying d p np hd hq
      rw [hp] at this
      cases this
  | enter hme hp hl | reacquire hme hp hl => exact h.of_run hx hme rfl rfl (making_head _)
  | scanOther hme hp hi | scanAlive hme hp hi hs => exact h.of_run hx hme rfl rfl (making_afterScan _ _ _)
  | @reap c p addr i havekids o k hme hp hi hs ho hk =>
    have hs : (sig w.core i).state = .zombie := hs
    have hfree : Forked ((w.goto i .user).goto p (.ret (.wait addr) (w.core.procs i).pid)) := by
      refine Forked.of_run (c := c) (h.of_goto (p := i) (y := .user) ?_ ?_ nofun) hx hme rfl rfl rfl
      · rw [hs]
        simp
      · intro d np hd hq
        have hrun := (forking_states hx hd hq).2.1
        rw [hs] at hrun
        cases hrun
    refine (hfree.of_section (k := k) (kwait_effect hk) ?_ ?_
      (fun d m hd => forking_step hk hd (by simp))).of_same rfl rfl
    · intro q hq
      have hused : (sig w.core i).state = .used := hfree.used q i hq
      rw [hs] at hused
      cases hused
    · intro _
      simp [goto, (me_ne hx hme (z := i) (by simp [hs])).symm]
  | willing hme hp hk => exact h.of_run hx hme rfl rfl (making_willing _)
  | loop hme hp hy hroom hret => exact h.of_run hx hme rfl rfl (making_inLoop hy)

end Forked

theorem run_forked (r : Lifecycle.Run n) (k : Nat) : Forked (r.state k) :=
  run_always r (boot_forked n) (fun k _ _ h ha => h.acts (core_exclusive r k) ha) k

end AdaptiveXv6.Forks
