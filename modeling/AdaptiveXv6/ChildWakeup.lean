import AdaptiveXv6.Watches

namespace AdaptiveXv6.ChildWakeup

open Process Machine Lifecycle World LifecycleSteps LifecycleCore Forks Stages Family Watches Signals
  Function
open Exclusion

variable {n : Nat} {w v : World n} {e : Lifecycle.Event n} {c : Fin n} {p q z : Slot} {y : Code}

theorem settled (h : Watched w) (hx : Exclusive w.core) (hme : w.me c = some p)
    (hlock : w.lock .wait = some p) (hp : ∀ status i, w.code p ≠ .wakeInit status i) (hq : Asleep w q)
    (hz : w.parent z = some q) : ¬Leaving w z := by
  intro hl
  obtain ⟨hpc, hpr⟩ := me_eq_some hme
  obtain ⟨p', hp', hr⟩ := h.owed q z hq hz hl
  obtain rfl : p = p' := Option.some.inj (hlock.symm.trans hp')
  rcases hr with hr | ⟨-, status, i, hi⟩
  · exact not_rousing hx hpr (by simp [hpc]) q hr
  · exact hp status i hi

theorem forkParent_watched (h : Watched w) (hrel : Related w) (hf : Forked w) (hx : Exclusive w.core)
    (hme : w.me c = some p) {np : Slot} (hp : w.code p = .forkParent np) (hl : w.lock .wait = none) :
    Watched ((w.adopt np (some p)).goto p (.forkRun np)) := by
  have hnone := hrel.unborn p np (by rw [hp]; rfl)
  have hused := hf.used p np (by rw [hp]; rfl)
  have hcode := hf.fresh np (.inr hused)
  have hstay : ¬Leaving w np := by
    rintro (hs | ⟨status, hs⟩)
    · rw [hused] at hs
      cases hs
    · rw [hcode] at hs
      cases hs
  refine h.of_adopt hx hme ?_ ?_ ⟨rfl, rfl, rfl⟩ ?_ (fun hl => absurd hl hstay)
  · intro q hq
    rw [hnone] at hq
    cases hq
  · intro q z hq hz hleaving
    obtain ⟨p', hp', -⟩ := h.owed q z hq hz hleaving
    rw [hl] at hp'
    cases hp'
  · exact fun hs => absurd (.inl hs) hstay

theorem setLock_wait {x : Site} {o : Option Slot}
    (hl : x.lk = .wait → w.lock .wait = none ∨ w.lock .wait = some p) :
    (w.setLock x.lk o).lock .wait = w.lock .wait ∨ w.lock .wait = none ∨ w.lock .wait = some p := by
  by_cases hlk : x.lk = .wait
  · exact .inr (hl hlk)
  · exact .inl (by simp [setLock, Ne.symm hlk])

theorem seen_afterScan (h : Watched w) {addr : Nat} {i : Slot} {havekids b : Bool}
    (hp : w.code p = .scan addr i havekids) (hi : w.parent i = some p → (sig w.core i).state ≠ .zombie)
    (hz : w.parent z = some p) (hlt : z.val < scanned (afterScan addr i b)) : (sig w.core z).state ≠ .zombie := by
  by_cases hzi : z = i
  · rw [hzi] at hz ⊢
    exact hi hz
  · refine h.seen p z hz ?_
    rw [hp]
    have hle := Nat.lt_succ_iff.mp (Nat.lt_of_lt_of_le hlt (scanned_afterScan addr i b))
    exact Nat.lt_of_le_of_ne hle (fun heq => hzi (Fin.ext heq))

section Calls

variable (h : Watched w) (hst : Staged w) (hx : Exclusive w.core) (hme : w.me c = some p)
  {k : Kernel n} {status : Int} {i : Slot}

include h hst hx hme

theorem adopt_watched (hp : w.code p = .reparent status i) (hi : w.parent i = some p) :
    Watched ((w.adopt i (some initproc)).goto p (.wakeInit status i)) := by
  have hlock := hst.holder p (by rw [hp]; rfl)
  have hne : p ≠ initproc := hst.ne_init (by rw [hp]; rfl)
  refine h.of_adopt hx hme ?_ ?_ ⟨rfl, rfl, rfl⟩ ?_ (fun _ => ⟨rfl, hlock, status, i, rfl⟩)
  · intro q hq
    exact Option.some.inj (hq.symm.trans hi)
  · intro q z hq hz
    exact settled h hx hme hlock (by simp [hp]) hq hz
  · intro _
    by_contra hpos
    have hinit := hst.holder initproc (holdsWait_of_scanned (Nat.pos_of_ne_zero hpos))
    exact hne (Option.some.inj (hlock.symm.trans hinit))

theorem zombie_watched (hp : w.code p = .exitSelf status) (hk : w.core.step (.kexit c status) = some k) :
    Watched ({ w with core := k }.goto p .exitRelease) := by
  have hlock := hst.holder p (by rw [hp]; rfl)
  have hsig := kexit_effect hk (me_eq_some hme).2
  have hgoto : Watched (w.goto p .exitRelease) := h.of_goto hx hme (by simp [hp]) ⟨rfl, rfl, rfl⟩
  refine hgoto.of_core hx hk ?_ (by simp)
  intro z hz
  rw [hsig] at hz
  split at hz
  · rename_i hzp
    refine .inr fun q (hq : w.parent z = some q) => ?_
    by_cases hqp : q = p
    · subst hqp
      refine ⟨by simp [goto, scanned], ?_⟩
      rintro ⟨-, addr, hcode⟩
      simp [goto] at hcode
    · simp only [goto, Asleep, update_of_ne hqp]
      refine ⟨?_, fun hasleep => ?_⟩
      · by_contra hpos
        have hq' := hst.holder q (holdsWait_of_scanned (Nat.pos_of_ne_zero hpos))
        exact hqp (Option.some.inj (hq'.symm.trans hlock))
      · exact settled h hx hme hlock (by simp [hp]) hasleep hq (.inr ⟨status, hzp ▸ hp⟩)
  · exact .inl hz

theorem doze_watched {x : Site} (hp : w.code p = .doze x) (hk : w.core.step (.sleep c (x.chan p)) = some k) :
    Watched (({ w with core := k }.setLock x.lk none).goto p (.asleep x)) := by
  obtain ⟨hpc, hpr⟩ := me_eq_some hme
  have hlock : x.lk = .wait → w.lock .wait = some p := by
    intro hlk
    exact hst.holder p (by rw [hp]; simpa [holdsWait] using hlk)
  have hgoto : Watched ((w.setLock x.lk none).goto p (.asleep x)) := by
    refine h.of_run rfl rfl rfl (setLock_wait fun hlk => .inr (hlock hlk)) (by simp [hp]) hx hme ?_ (by simp [scanned]) rfl
    intro hx'
    exact h.kids p (by rw [hp]; exact hx')
  refine hgoto.of_background hx rfl hk ?_
  rintro d chan q x' ⟨⟩ hd hq
  obtain rfl : p = q := Option.some.inj (hpr.symm.trans hd)
  obtain rfl : x = x' := by simpa [goto] using hq
  refine ⟨rfl, fun hlk z hz => ?_⟩
  have hsig := sleep_effect hk hpr
  rintro (hs | ⟨status, hs⟩)
  · change (sig k z).state = .zombie at hs
    rw [hsig] at hs
    split at hs
    · cases hs
    · refine h.seen p z hz ?_ hs
      rw [hp]
      simp only [scanned, if_pos hlk]
      exact z.isLt
  · simp only [goto, setLock, update_apply] at hs
    split at hs
    · cases hs
    · rename_i hne
      have hz' := hst.holder z (by rw [hs]; rfl)
      exact hne (Option.some.inj (hz'.symm.trans (hlock hlk)))

theorem wakeInit_watched (hp : w.code p = .wakeInit status i)
    (hk : w.core.step (.wakeup c (procChan initproc)) = some k) :
    Watched ({ w with core := k }.goto p (afterReparent status i)) := by
  obtain ⟨hpc, hpr⟩ := me_eq_some hme
  have hlock := hst.holder p (by rw [hp]; rfl)
  obtain ⟨hkids, hscan, hself⟩ := calm_afterReparent status i
  refine h.of_rouse hx hme hk hlock ⟨hkids, hscan⟩ ?_
  intro q z hq hz hl
  have hl' : Leaving w z := by
    rcases hl with hl | ⟨st, hl⟩
    · exact .inl hl
    · simp only [goto, update_apply] at hl
      split at hl
      · rw [hl] at hself
        cases hself
      · exact .inr ⟨st, hl⟩
  obtain ⟨p', hp', hr⟩ := h.owed q z hq hz hl'
  obtain rfl : p = p' := Option.some.inj (hlock.symm.trans hp')
  rcases hr with hr | ⟨rfl, -⟩
  · exact absurd hr (not_rousing hx hpr (by simp [hpc]) q)
  · rfl

theorem wakeParent_watched (hp : w.code p = .wakeParent status)
    (hk : w.core.step (.wakeup c (parentChan (w.parent p))) = some k) :
    Watched ({ w with core := k }.goto p (.exitSelf status)) := by
  have hlock := hst.holder p (by rw [hp]; rfl)
  refine h.of_rouse hx hme hk hlock ⟨rfl, rfl⟩ ?_
  intro q z hq hz hl
  by_cases hzp : z = p
  · rw [← hzp, hz]
    rfl
  · simp only [Leaving, goto, update_of_ne hzp] at hl
    exact absurd hl (settled h hx hme hlock (by simp [hp]) hq hz)

theorem reap_watched {addr : Nat} {havekids : Bool} (hp : w.code p = .scan addr i havekids)
    (hi : w.parent i = some p) (hs : (sig w.core i).state = .zombie)
    (hk : w.core.step (.kwait c i) = some k) (status : Option Int) {a : Int} :
    Watched ((({ w with core := k }.freeproc i).setStatus p status).goto p (.ret (.wait addr) a)) := by
  have hne : p ≠ i := me_ne hx hme (by simp [hs])
  have hgoto : Watched (w.goto p (.ret (.wait addr) a)) := h.of_goto hx hme (by simp [hp]) ⟨rfl, rfl, rfl⟩
  refine (hgoto.of_freeproc hx hk (kwait_effect hk) ?_ ?_).of_same rfl rfl
    (update_comm hne.symm _ _ _) rfl
  · intro q (hq : w.parent i = some q)
    obtain rfl : p = q := Option.some.inj (hi.symm.trans hq)
    simp [goto, sawKids]
  · intro st j hcode
    simp only [goto, update_of_ne hne.symm] at hcode
    have hdead := (hst.dead i).mpr hs
    rw [hcode] at hdead
    cases hdead

end Calls

theorem acts_watched (h : Watched w) (hrel : Related w) (hst : Staged w) (hf : Forked w)
    (hx : Exclusive w.core) (ha : Acts w e v) : Watched v := by
  cases ha with
  | core ha hk =>
    refine h.of_background hx (allows_background ha) hk ?_
    rintro c chan q x rfl hc hq
    obtain ⟨hblock, -⟩ := allows_sleep ha hc
    rw [hq] at hblock
    cases hblock
  | setRes | pipe | consoleintr => exact h.of_same rfl rfl rfl rfl
  | @allocproc c p np k hme hp hk =>
    obtain ⟨-, -, -, hsig⟩ := allocproc_effect hk
    have hgoto : Watched (w.goto p (.forkCopy np)) := h.of_goto hx hme (by simp [hp]) ⟨rfl, rfl, rfl⟩
    refine hgoto.of_core hx hk (fun z hz => .inl ?_) (by simp)
    rw [hsig] at hz
    split at hz
    · cases hz
    · exact hz
  | @forkFail c p np k hpc hpr hk =>
    obtain ⟨-, hsig⟩ := forkFail_effect hk hpc
    have hcopy := hf.copying c p np hpc hpr
    obtain ⟨hused, hrun, hne⟩ := forking_states hx hpc hpr
    have hgoto : Watched (w.goto p .user) :=
      h.of_calm rfl rfl rfl (.inl rfl) (by simp [hcopy]) (by simp [hrun]) (not_rousing hx hpr (by simp [hpc]))
        ⟨rfl, rfl, rfl⟩
    have hcode : (w.goto p .user).code np = .user := by
      simp only [goto, update_of_ne hne.symm]
      exact hf.fresh np (.inr hused)
    refine (hgoto.of_freeproc hx hk hsig ?_ (by simp [hcode])).of_same rfl rfl
      (update_comm hne.symm _ _ _) rfl
    intro q (hq : w.parent np = some q)
    rw [hrel.unborn p np (by rw [hcopy]; rfl)] at hq
    cases hq
  | @forkDone c p np k hpc hpr hk =>
    have hcopy := hf.copying c p np hpc hpr
    obtain ⟨-, hrun, -⟩ := forking_states hx hpc hpr
    have hgoto : Watched (w.goto p (.forkParent np)) :=
      h.of_calm rfl rfl rfl (.inl rfl) (by simp [hcopy]) (by simp [hrun]) (not_rousing hx hpr (by simp [hpc]))
        ⟨rfl, rfl, rfl⟩
    exact (hgoto.of_background hx rfl hk (by simp)).of_same rfl rfl rfl rfl
  | forkParent hme hp hl => exact forkParent_watched h hrel hf hx hme hp hl
  | @forkRun c p np o k hme hp hk =>
    obtain ⟨-, hsig⟩ := forkRun_effect hk
    have hgoto : Watched (w.goto p .user) := h.of_goto hx hme (by simp [hp]) ⟨rfl, rfl, rfl⟩
    refine hgoto.of_core hx hk (fun z hz => .inl ?_) (by simp)
    rw [hsig] at hz
    split at hz
    · cases hz
    · exact hz
  | exit hme hp hi | call hme hp | scanFault hme hp hi hs ha | killed hme hp hk | exitCwd hme hp =>
    exact h.of_plain rfl rfl rfl (.inl rfl) (by simp [hp]) hx hme ⟨rfl, rfl, rfl⟩
  | @exitFile c p status fd o hme hp =>
    exact h.of_plain rfl rfl rfl (.inl rfl) (by simp [hp]) hx hme (calm_afterFile status fd)
  | exitLock hme hp hl =>
    exact h.of_plain rfl rfl rfl (.inr (.inl hl)) (by simp [hp]) hx hme ⟨rfl, rfl, rfl⟩
  | adopt hme hp hi => exact adopt_watched h hst hx hme hp hi
  | @pass c p status i o hme hp hi =>
    exact h.of_goto hx hme (by simp [hp]) (calm_afterReparent status i)
  | wakeInit hme hp hk => exact wakeInit_watched h hst hx hme hp hk
  | wakeParent hme hp hk => exact wakeParent_watched h hst hx hme hp hk
  | zombie hme hp hk => exact zombie_watched h hst hx hme hp hk
  | @unlockWait c p hpc hpr hp =>
    have hzombie := (hst.dead p).mp (by rw [hp]; rfl)
    exact h.of_calm rfl rfl rfl (.inr (.inr (hst.holder p (by rw [hp]; rfl)))) (by simp [hp]) (by simp [hzombie])
      (not_rousing hx hpr (by simp [hpc])) ⟨rfl, rfl, rfl⟩
  | @enter c p x o hme hp hl | @reacquire c p x o hme hp hl =>
    exact h.of_plain rfl rfl rfl (setLock_wait fun hlk => .inl (hlk ▸ hl)) (by simp [hp]) hx hme (calm_head _)
  | @scanOther c p addr i havekids o hme hp hi =>
    refine h.of_run rfl rfl rfl (.inl rfl) (by simp [hp]) hx hme ?_
      (fun z => seen_afterScan h hp fun hi' => absurd hi' hi) (leaves_afterScan addr i havekids)
    intro hkids
    exact h.kids p (by rw [hp]; exact sawKids_afterScan hkids)
  | @scanAlive c p addr i havekids o hme hp hi hs =>
    exact h.of_run rfl rfl rfl (.inl rfl) (by simp [hp]) hx hme (fun _ => ⟨i, hi⟩)
      (fun z => seen_afterScan h hp fun _ => hs) (leaves_afterScan addr i true)
  | reap hme hp hi hs ho hk => exact reap_watched h hst hx hme hp hi hs hk _
  | @willing c p x o hme hp hk =>
    obtain ⟨hkids, hscan, hself⟩ := willing_scan x
    refine h.of_run rfl rfl rfl (.inl rfl) (by simp [hp]) hx hme ?_ ?_ hself
    · exact fun hy => h.kids p (by rw [hp]; exact hkids hy)
    · exact fun z hz hlt => h.seen p z hz (by rw [hp]; exact Nat.lt_of_lt_of_le hlt hscan)
  | @full c p pi i m o k hme hp hk =>
    have hgoto : Watched (w.goto p (.doze (.write pi i m))) := h.of_goto hx hme (by simp [hp]) ⟨rfl, rfl, rfl⟩
    exact hgoto.of_background hx rfl hk (by simp)
  | doze hme hp hk => exact doze_watched h hst hx hme hp hk
  | loop hme hp hy hroom hret =>
    refine h.of_plain rfl rfl rfl (.inl rfl) ?_ hx hme (calm_inLoop hy)
    intro status i hwake
    rw [hwake] at hp
    cases hp
  | @post c p x chan a o k hme hp hk =>
    have hgoto : Watched (w.goto p (.ret x a)) := h.of_goto hx hme (by simp [hp]) ⟨rfl, rfl, rfl⟩
    exact hgoto.of_background hx rfl hk (by simp)
  | @ret c p x a o hme hp =>
    refine h.of_plain rfl rfl rfl (setLock_wait fun hlk => .inr ?_) (by simp [hp]) hx hme ⟨rfl, rfl, rfl⟩
    exact hst.holder p (by rw [hp]; simpa [holdsWait] using hlk)

theorem run_watched (r : Lifecycle.Run n) (k : Nat) : Watched (r.state k) :=
  run_always r (boot_watched n)
    (fun k _ _ h ha => acts_watched h (run_related r k) (run_staged r k) (run_forked r k) (core_exclusive r k) ha) k

/-- With wait_lock free, a process asleep in kwait() has children, and none of them is a zombie. -/
theorem no_lost_exit (r : Lifecycle.Run n) (k : Nat) (hlock : (r.state k).lock .wait = none) (q : Slot)
    (addr : Nat) (hs : (r.state k).state q = .sleeping) (hq : (r.state k).code q = .asleep (.wait addr)) :
    (∀ z, (r.state k).parent z = some q → (r.state k).state z ≠ .zombie) ∧
      ∃ z, (r.state k).parent z = some q := by
  have h := run_watched r k
  refine ⟨fun z hz hzombie => ?_, h.kids q (by rw [hq]; rfl)⟩
  obtain ⟨p, hp, -⟩ := h.owed q z ⟨hs, addr, hq⟩ hz (.inl hzombie)
  rw [hlock] at hp
  cases hp

theorem no_lost_exit_waiting : ∃ (r : Lifecycle.Run 1) (k : Nat), (r.state k).lock .wait = none ∧
    (r.state k).state initproc = .sleeping ∧ ∃ z, (r.state k).parent z = some initproc := by
  have hexec : (Runs.exec World.step (Lifecycle.boot 1) (turn 0 ++ fork 0 1 ++ waits 0)).isSome = true := by
    decide +kernel
  obtain ⟨t, ht⟩ := Option.isSome_iff_exists.mp hexec
  obtain ⟨r, -, hev⟩ := Runs.exists_script ht
  have hlock : (r.state 139).lock .wait = none := Runs.script_eq hev (f := (·.lock .wait)) (by decide +kernel)
  have hs : (r.state 139).state initproc = .sleeping :=
    Runs.script_eq hev (f := (·.state initproc)) (by decide +kernel)
  have hq : (r.state 139).code initproc = .asleep (.wait 0) :=
    Runs.script_eq hev (f := (·.code initproc)) (by decide +kernel)
  exact ⟨r, 139, hlock, hs, (no_lost_exit r 139 hlock initproc 0 hs hq).2⟩

end AdaptiveXv6.ChildWakeup
