import AdaptiveXv6.Forks

namespace AdaptiveXv6.Reuse

open Process Ops Machine Lifecycle World LifecycleSteps LifecycleCore Forks Signals Exclusion Function

variable {n : Nat} {w v : World n} {e : Lifecycle.Event n} {c : Fin n} {p z : Slot} {y : Code}

def Bare (r : Res) : Prop := (∀ fd, r.ofile fd = none) ∧ r.cwd = none

def Closed : Code → Res → Prop
  | .exitFiles _ fd, r => ∀ f, f < fd → r.ofile f = none
  | .exitCwd _, r => ∀ f, r.ofile f = none
  | .exitLock _, r | .reparent _ _, r | .wakeInit _ _, r | .wakeParent _, r | .exitSelf _, r
  | .exitRelease, r | .exited, r => Bare r
  | _, _ => True

/-- A free slot holds nothing of its earlier occupants. Files are given up before a process is a zombie, and
copied once fork() can no longer fail. -/
structure Clean (w : World n) : Prop where
  blank : ∀ z, (sig w.core z).state = .unused → (sig w.core z).chan = 0 ∧ (sig w.core z).killed = false ∧
    (sig w.core z).xstate = 0 ∧ w.parent z = none ∧ (w.res z).sz = 0
  bare : ∀ z, (sig w.core z).state = .unused ∨ (sig w.core z).state = .zombie ∨
    (∃ c, w.core.pc c = .forking z) → Bare (w.res z)
  exiting : ∀ p, Closed (w.code p) (w.res p)

theorem closed_afterFile {status : Int} {fd : Fin NOFILE} {r : Res} (h : ∀ f, f ≤ fd → r.ofile f = none) :
    Closed (afterFile status fd) r := by
  rw [afterFile]
  split
  · exact fun f hf => h f (Nat.lt_succ_iff.mp hf)
  · exact fun f => h f (by have := f.isLt; omega)

theorem closed_afterReparent {status : Int} {i : Slot} {r : Res} (h : Bare r) :
    Closed (afterReparent status i) r := by
  rw [afterReparent]
  split <;> exact h

theorem closed_afterScan (addr : Nat) (i : Slot) (havekids : Bool) (r : Res) :
    Closed (afterScan addr i havekids) r := by
  rw [afterScan]
  split
  · trivial
  · split <;> trivial

theorem closed_head (x : Site) (r : Res) : Closed x.head r := by cases x <;> trivial

theorem closed_willing (x : Site) (r : Res) : Closed x.willing r := by cases x <;> trivial

theorem closed_inLoop (hy : inLoop y) (r : Res) : Closed y r := by
  cases y with
  | test | take | room | post | check | ret => trivial
  | _ => cases hy

theorem boot_clean (n : Nat) : Clean (boot n) where
  blank z hz := by
    by_cases h : z = initproc
    · subst h
      cases hz
    · simp [sig, ofProc, Lifecycle.boot, Machine.boot, h, procinit]
  bare z hz := by
    by_cases h : z = initproc
    · subst h
      rcases hz with hz | hz | ⟨c, hc⟩
      · cases hz
      · cases hz
      · cases hc
    · exact ⟨fun _ => rfl, by simp [Lifecycle.boot, h]⟩
  exiting p := trivial

namespace Clean

variable (h : Clean w)

include h

theorem of_same (hcore : v.core = w.core) (hparent : v.parent = w.parent) (hres : v.res = w.res)
    (hcode : v.code = w.code) : Clean v := by
  refine ⟨?_, ?_, ?_⟩
  · rw [hcore, hparent, hres]
    exact h.blank
  · rw [hcore, hres]
    exact h.bare
  · rw [hcode, hres]
    exact h.exiting

theorem of_core (hx : Exclusive w.core) {e : Machine.Event n} {k : Kernel n}
    (hb : background e) (hk : w.core.step e = some k)
    (hkill : ∀ c pid q, e = .kkill c pid q → (sig w.core q).state = .unused → (sig w.core q).pid ≠ pid) :
    Clean { w with core := k } := by
  have hstate : ∀ z x, alive x = false → (sig k z).state = x → (sig w.core z).state = x := by
    intro z x hx' hz
    rcases background_state hx hb hk z with hs | ⟨-, hs⟩
    · rw [← hs, hz]
    · rw [hz, hx'] at hs
      cases hs
  refine ⟨?_, ?_, h.exiting⟩
  · intro z hz
    have hz' := hstate z _ rfl hz
    have hsame := unused_step hx hb hk hz' (fun c pid he => hkill c pid z he hz')
    simp only [hsame]
    exact h.blank z hz'
  · rintro z (hz | hz | ⟨c, hc⟩)
    · exact h.bare z (.inl (hstate z _ rfl hz))
    · exact h.bare z (.inr (.inl (hstate z _ rfl hz)))
    · exact h.bare z (.inr (.inr ⟨c, (forking_step hk hc (by rintro c p rfl; cases hb)).1⟩))

theorem of_goto (hcore : v.core = w.core) (hparent : v.parent = w.parent) (hres : v.res = w.res)
    (hcode : v.code = update w.code p y) {x : Code} (hp : w.code p = x)
    (hy : Closed x (w.res p) → Closed y (w.res p)) : Clean v := by
  refine Clean.of_same (w := w.goto p y) ⟨h.blank, h.bare, fun q => ?_⟩ hcore hparent hres hcode
  simp only [goto, update_apply]
  split
  · rename_i hq
    rw [hq]
    exact hy (hp ▸ h.exiting p)
  · exact h.exiting q

theorem of_adopt {i : Slot} {q : Option Slot} (hi : (sig w.core i).state ≠ .unused) : Clean (w.adopt i q) where
  blank z hz := by
    have hne : z ≠ i := by
      rintro rfl
      exact hi hz
    simp only [World.adopt, update_of_ne hne]
    exact h.blank z hz
  bare := h.bare
  exiting := h.exiting

theorem of_res (hx : Exclusive w.core) (hme : w.me c = some p) {r : Res}
    (hr : Closed (w.code p) r) : Clean (w.setRes p r) := by
  have hrun := me_running hx hme
  have hne : ∀ z, (sig w.core z).state ≠ .running → z ≠ p := by
    rintro z hz rfl
    exact hz hrun
  refine ⟨?_, ?_, ?_⟩
  · intro z (hz : (sig w.core z).state = .unused)
    have hzp := hne z (by simp [hz])
    simp only [setRes, update_of_ne hzp]
    exact h.blank z hz
  · intro z hz
    have hzp : z ≠ p := by
      rcases hz with (hz : (sig w.core z).state = _) | (hz : (sig w.core z).state = _) | ⟨d, hd⟩
      · exact hne z (by simp [hz])
      · exact hne z (by simp [hz])
      · have hused := (hx.creating d z hd).1
        exact hne z (by simp [show (sig w.core z).state = .used from hused])
    simp only [setRes, update_of_ne hzp]
    exact h.bare z hz
  · intro q
    simp only [setRes, update_apply]
    split
    · rename_i hq
      rw [hq]
      exact hr
    · exact h.exiting q

theorem of_section {k : Kernel n} {op : Op}
    (hsig : ∀ q, sig k q = if q = p then onSignal op (sig w.core q) else sig w.core q)
    (hunused : (onSignal op (sig w.core p)).state ≠ .unused)
    (hzombie : (onSignal op (sig w.core p)).state = .zombie → Bare (w.res p))
    (hfork : ∀ c z, k.pc c = .forking z → w.core.pc c = .forking z ∨ Bare (w.res z)) :
    Clean { w with core := k } := by
  refine ⟨?_, ?_, h.exiting⟩
  · intro z hz
    simp only [hsig] at hz ⊢
    split at hz
    · exact absurd (‹z = p› ▸ hz) hunused
    · rename_i hne
      simp only [if_neg hne]
      exact h.blank z hz
  · intro z hz
    simp only [hsig] at hz
    by_cases hzp : z = p
    · subst hzp
      rcases hz with hz | hz | ⟨d, hd⟩
      · exact absurd (by simpa using hz) hunused
      · exact hzombie (by simpa using hz)
      · exact (hfork d z hd).elim (fun hd => h.bare z (.inr (.inr ⟨d, hd⟩))) id
    · simp only [if_neg hzp] at hz
      rcases hz with hz | hz | ⟨d, hd⟩
      · exact h.bare z (.inl hz)
      · exact h.bare z (.inr (.inl hz))
      · exact (hfork d z hd).elim (fun hd => h.bare z (.inr (.inr ⟨d, hd⟩))) id

theorem of_freeproc {i : Slot} {k : Kernel n} (hbare : Bare (w.res i))
    (hsig : ∀ q, sig k q = if q = i then onSignal .freeproc (sig w.core q) else sig w.core q)
    (hfork : ∀ c z, k.pc c = .forking z → w.core.pc c = .forking z) :
    Clean ({ w with core := k }.freeproc i) := by
  refine ⟨?_, ?_, ?_⟩
  · intro z hz
    simp only [World.freeproc, goto, setRes, World.adopt, hsig] at hz ⊢
    by_cases hzi : z = i
    · simp [hzi, onSignal]
    · simp only [if_neg hzi, update_of_ne hzi] at hz ⊢
      exact h.blank z hz
  · intro z hz
    simp only [World.freeproc, goto, setRes, World.adopt, hsig] at hz ⊢
    by_cases hzi : z = i
    · subst hzi
      simp only [update_self]
      exact hbare
    · simp only [if_neg hzi, update_of_ne hzi] at hz ⊢
      rcases hz with hz | hz | ⟨d, hd⟩
      · exact h.bare z (.inl hz)
      · exact h.bare z (.inr (.inl hz))
      · exact h.bare z (.inr (.inr ⟨d, hfork d z hd⟩))
  · intro q
    simp only [World.freeproc, goto, setRes, World.adopt]
    by_cases hqi : q = i
    · subst hqi
      simp only [update_self]
      trivial
    · simp only [update_of_ne hqi]
      exact h.exiting q

theorem of_forkDone (hf : Forked w) (hx : Exclusive w.core) {np : Slot} {k : Kernel n} (r : Res)
    (hpc : w.core.pc c = .forking np) (hk : w.core.step (.forkDone c) = some k) :
    Clean ({ w with core := k }.setRes np r) := by
  obtain ⟨hrun, hsig⟩ := forkDone_effect hk
  obtain ⟨hused, hlock⟩ := hx.creating c np hpc
  have hused : (sig w.core np).state = .used := hused
  have hne : ∀ z, (sig w.core z).state ≠ .used → z ≠ np := by
    rintro z hz rfl
    exact hz hused
  refine ⟨?_, ?_, ?_⟩
  · intro z hz
    simp only [setRes, hsig] at hz ⊢
    rw [update_of_ne (hne z (by simp [hz]))]
    exact h.blank z hz
  · intro z hz
    simp only [setRes, hsig] at hz ⊢
    rcases hz with hz | hz | ⟨d, hd⟩
    · rw [update_of_ne (hne z (by simp [hz]))]
      exact h.bare z (.inl hz)
    · rw [update_of_ne (hne z (by simp [hz]))]
      exact h.bare z (.inr (.inl hz))
    · have hd' := (forking_step hk hd (by simp)).1
      -- the lock of the new process is held by one CPU only
      have hznp : z ≠ np := by
        rintro rfl
        obtain rfl : c = d := Option.some.inj (hlock.symm.trans (hx.creating d z hd').2)
        rw [hrun] at hd
        cases hd
      rw [update_of_ne hznp]
      exact h.bare z (.inr (.inr ⟨d, hd'⟩))
  · intro q
    simp only [setRes, update_apply]
    split
    · rename_i hq
      rw [hq, hf.fresh np (.inr hused)]
      trivial
    · exact h.exiting q

theorem acts (hf : Forked w) (hx : Exclusive w.core) (ha : Acts w e v)
    (hkill : ∀ c pid q, e = .core (.kkill c pid q) → (sig w.core q).state = .unused →
      (sig w.core q).pid ≠ pid) : Clean v := by
  cases ha with
  | core ha hk => exact h.of_core hx (allows_background ha) hk (fun c pid q he => hkill c pid q (by rw [he]))
  | setRes hme hp => exact h.of_res hx hme (by rw [hp]; trivial)
  | pipe | consoleintr => exact h.of_same rfl rfl rfl rfl
  | @allocproc c p np k hme hp hk =>
    obtain ⟨hunused, hpc, -, hsig⟩ := allocproc_effect hk
    refine (h.of_section hsig (by rintro ⟨⟩) (by rintro ⟨⟩) ?_).of_goto rfl rfl rfl rfl rfl fun _ => trivial
    intro d z hd
    by_cases hdc : d = c
    · subst hdc
      obtain rfl : np = z := Pc.forking.inj (hpc.symm.trans hd)
      exact .inr (h.bare np (.inl hunused))
    · exact .inl ((cpu_frame hk hdc).2.symm.trans hd)
  | forkFail hpc hpr hk =>
    have hfree := h.of_freeproc (h.bare _ (.inr (.inr ⟨_, hpc⟩))) (forkFail_effect hk hpc).2
      (fun d z hd => (forking_step hk hd (by simp)).1)
    exact hfree.of_goto rfl rfl rfl rfl rfl fun _ => trivial
  | forkDone hpc hpr hk => exact (h.of_forkDone hf hx _ hpc hk).of_goto rfl rfl rfl rfl rfl fun _ => trivial
  | forkParent hme hp hl =>
    have hused := hf.used _ _ (by rw [hp]; rfl)
    exact (h.of_adopt (by simp [hused])).of_goto rfl rfl rfl rfl rfl fun _ => trivial
  | forkRun hme hp hk =>
    exact (h.of_section (forkRun_effect hk).2 (by rintro ⟨⟩) (by rintro ⟨⟩)
      (fun d z hd => .inl (forking_step hk hd (by simp)).1)).of_goto rfl rfl rfl rfl rfl fun _ => trivial
  | exit hme hp hi => exact h.of_goto rfl rfl rfl rfl hp fun _ f hf => absurd hf (Nat.not_lt_zero _)
  | @exitFile c p status fd o hme hp =>
    have hdone := h.exiting p
    rw [hp] at hdone
    have hclosed : ∀ f, f ≤ fd → update (w.res p).ofile fd none f = none := by
      intro f hle
      rw [update_apply]
      split
      · rfl
      · rename_i hne
        exact hdone f (by omega)
    refine (h.of_res hx hme ?_).of_goto rfl rfl rfl rfl hp fun _ => closed_afterFile ?_
    · rw [hp]
      exact fun f hlt => hclosed f (Nat.le_of_lt hlt)
    · simp only [setRes, update_self]
      exact hclosed
  | @exitCwd c p status o hme hp =>
    have hdone := h.exiting p
    rw [hp] at hdone
    refine (h.of_res hx hme ?_).of_goto rfl rfl rfl rfl hp fun _ => ?_
    · rw [hp]
      exact hdone
    · simp only [setRes, update_self]
      exact ⟨hdone, rfl⟩
  | exitLock hme hp hl | unlockWait hpc hpr hp => exact h.of_goto rfl rfl rfl rfl hp id
  | @adopt c p status i o hme hp hi =>
    refine (h.of_adopt (i := i) fun hs => ?_).of_goto rfl rfl rfl rfl hp id
    rw [(h.blank i hs).2.2.2.1] at hi
    cases hi
  | pass hme hp hi => exact h.of_goto rfl rfl rfl rfl hp closed_afterReparent
  | wakeInit hme hp hk =>
    exact (h.of_core hx rfl hk (by simp)).of_goto rfl rfl rfl rfl hp closed_afterReparent
  | wakeParent hme hp hk => exact (h.of_core hx rfl hk (by simp)).of_goto rfl rfl rfl rfl hp id
  | @zombie c p status o k hme hp hk =>
    have hdone := h.exiting p
    rw [hp] at hdone
    exact (h.of_section (kexit_effect hk (me_eq_some hme).2) (by rintro ⟨⟩) (fun _ => hdone)
      (fun d z hd => .inl (forking_step hk hd (by simp)).1)).of_goto rfl rfl rfl rfl hp id
  | call hme hp | scanFault hme hp hi hs ha | killed hme hp hk | ret hme hp =>
    exact h.of_goto rfl rfl rfl rfl rfl fun _ => trivial
  | enter hme hp hl | reacquire hme hp hl => exact h.of_goto rfl rfl rfl rfl hp fun _ => closed_head _ _
  | scanOther hme hp hi | scanAlive hme hp hi hs => exact h.of_goto rfl rfl rfl rfl hp fun _ => closed_afterScan _ _ _ _
  | reap hme hp hi hs ho hk =>
    have hfree := h.of_freeproc (h.bare _ (.inr (.inl hs))) (kwait_effect hk)
      (fun d z hd => (forking_step hk hd (by simp)).1)
    exact hfree.of_goto rfl rfl rfl rfl rfl fun _ => trivial
  | willing hme hp hk => exact h.of_goto rfl rfl rfl rfl hp fun _ => closed_willing _ _
  | full hme hp hk | doze hme hp hk | post hme hp hk =>
    exact (h.of_core hx rfl hk (by simp)).of_goto rfl rfl rfl rfl rfl fun _ => trivial
  | loop hme hp hy hroom hret => exact h.of_goto rfl rfl rfl rfl rfl fun _ => closed_inLoop hy _

end Clean

/-- No visit of kkill() finds its pid in a free slot. -/
def KillsProcesses (r : Lifecycle.Run n) : Prop :=
  ∀ k c pid q, r.event k = some (.core (.kkill c pid q)) → (r.state k).state q = .unused →
    ((r.state k).core.procs q).pid ≠ pid

theorem run_clean (r : Lifecycle.Run n) (hkill : KillsProcesses r) (k : Nat) : Clean (r.state k) := by
  refine run_always r (boot_clean n) (fun k e he h ha => ?_) k
  refine h.acts (run_forked r k) (core_exclusive r k) ha ?_
  intro c pid q hq
  exact hkill k c pid q (by rw [he, hq])

theorem allocproc_record {s t : Kernel n} (h : s.step (.allocproc c p) = some t) :
    t.procs p = Process.allocproc s.nextpid s.ticks (s.procs p) ∧ t.ticks = s.ticks := by
  obtain ⟨m, hm, -, rfl⟩ := Steps.step_eq_some.mp h
  cases hm with
  | allocproc => exact ⟨by rw [Kernel.allocMove, Steps.perform_slot, if_pos rfl]; rfl, rfl⟩

theorem allocproc_eq {x y : Proc} (pid : Int) (ticks : Nat) (hchan : x.chan = y.chan)
    (hkilled : x.killed = y.killed) (hxstate : x.xstate = y.xstate) :
    Process.allocproc pid ticks x = Process.allocproc pid ticks y := by
  simp only [Process.allocproc, hchan, hkilled, hxstate]

/-- A process from allocproc() is as in a slot never used before, as long as kill() hits processes only. -/
theorem slot_reuse (r : Lifecycle.Run n) (hkill : KillsProcesses r) {k : Nat} {c : Fin n} {np : Slot}
    (he : r.event k = some (.allocproc c np)) :
    (r.state (k + 1)).core.procs np =
        Process.allocproc (r.state k).core.nextpid (r.state (k + 1)).core.ticks procinit ∧
      (r.state (k + 1)).parent np = none ∧ ((r.state (k + 1)).res np).sz = 0 ∧
      (∀ fd, ((r.state (k + 1)).res np).ofile fd = none) ∧ ((r.state (k + 1)).res np).cwd = none := by
  have hclean := run_clean r hkill k
  have ha := acts_of_step (r.step_of_event he)
  generalize hv : r.state (k + 1) = v at ha ⊢
  cases ha with
  | @allocproc _ p _ k' hme hp hk =>
    obtain ⟨hunused, -⟩ := allocproc_effect hk
    obtain ⟨hchan, hkilled, hxstate, hparent, hsz⟩ := hclean.blank np hunused
    obtain ⟨hofile, hcwd⟩ := hclean.bare np (.inl hunused)
    obtain ⟨hrec, hticks⟩ := allocproc_record hk
    refine ⟨?_, hparent, hsz, hofile, hcwd⟩
    change k'.procs np = Process.allocproc _ k'.ticks procinit
    rw [hrec, hticks]
    exact allocproc_eq _ _ hchan hkilled hxstate
  | pipe he => rcases he with ⟨_, he⟩ | ⟨_, _, he⟩ <;> cases he

theorem slot_reuse_failed : ∃ r : Lifecycle.Run 1, KillsProcesses r ∧ r.event 69 = some (.allocproc 0 1) ∧
    (r.state 70).core.procs 1 = Process.allocproc 3 0 procinit := by
  have hexec : (Runs.exec World.step (Lifecycle.boot 1)
      (turn 0 ++ [.allocproc 0 1, .forkFail 0, .allocproc 0 1])).isSome = true := by decide +kernel
  obtain ⟨t, ht⟩ := Option.isSome_iff_exists.mp hexec
  obtain ⟨r, -, hev⟩ := Runs.exists_script ht
  have hkill : KillsProcesses r := by
    intro k c pid q hk
    rw [hev] at hk
    have hmem := List.mem_of_getElem? hk
    simp [turn, List.mem_replicate] at hmem
  have halloc : r.event 69 = some (.allocproc 0 1) := hev 69
  have hpid : (r.state 69).core.nextpid = 3 := Runs.script_eq hev (f := fun w => w.core.nextpid) (by decide +kernel)
  have hticks : (r.state 70).core.ticks = 0 := Runs.script_eq hev (f := fun w => w.core.ticks) (by decide +kernel)
  have hreuse := (slot_reuse r hkill halloc).1
  rw [hpid, hticks] at hreuse
  exact ⟨r, hkill, halloc, hreuse⟩

/-- The first process calls kill(0), which finds pid 0 in a free slot, and forks: its child is born killed. -/
theorem killed_before_birth : ∃ r : Lifecycle.Run 1, r.event 67 = some (.core (.kkill 0 0 initproc)) ∧
    r.event 68 = some (.core (.kkill 0 0 1)) ∧ r.event 69 = some (.allocproc 0 1) ∧
    ((r.state 70).core.procs 1).killed = true := by
  have hexec : (Runs.exec World.step (Lifecycle.boot 1)
      (turn 0 ++ [.core (.kkill 0 0 initproc), .core (.kkill 0 0 1), .allocproc 0 1])).isSome = true := by
    decide +kernel
  obtain ⟨t, ht⟩ := Option.isSome_iff_exists.mp hexec
  obtain ⟨r, -, hev⟩ := Runs.exists_script ht
  exact ⟨r, hev 67, hev 68, hev 69,
    Runs.script_eq hev (f := fun w => (w.core.procs 1).killed) (by decide +kernel)⟩

end AdaptiveXv6.Reuse
