import AdaptiveXv6.Steps

namespace AdaptiveXv6.Exclusion

open Words Process Ops Machine Kernel Steps Function

variable {n : Nat} {s t : Kernel n} {e : Event n} {c : Fin n} {p : Slot}

def inside : Pc → Bool
  | .resumed | .running | .forking _ | .timer | .expired | .switching => true
  | .wakeup _ _ _ ret | .accounting _ ret => ret ≠ .top
  | .top | .pass1 _ _ _ | .pass2 _ _ | .wfi => false

def quiet : Pc → Bool
  | .resumed | .switching | .forking _ => false
  | _ => true

/-- A lock held between two critical sections is held across a context switch or by fork(). -/
structure Exclusive (s : Kernel n) : Prop where
  current : ∀ c, (s.proc c).isSome = inside (s.pc c)
  running : ∀ c p, s.proc c = some p → ((s.procs p).state = .running ↔ s.pc c ≠ .switching)
  held : ∀ c p, s.proc c = some p → s.pc c = .resumed ∨ s.pc c = .switching → s.lock p = some c
  unique : ∀ c d p, s.proc c = some p → s.proc d = some p → c = d
  owner : ∀ p, (s.procs p).state = .running → ∃ c, s.proc c = some p
  creating : ∀ c p, s.pc c = .forking p → (s.procs p).state = .used ∧ s.lock p = some c
  holder : ∀ p c, s.lock p = some c →
    (s.proc c = some p ∧ (s.pc c = .resumed ∨ s.pc c = .switching)) ∨ s.pc c = .forking p

theorem boot_exclusive (n : Nat) : Exclusive (boot n) := by
  constructor
  · intro c; rfl
  · intro c p h; cases h
  · intro c p h; cases h
  · intro c d p h; cases h
  · intro p h
    simp only [boot] at h
    split at h <;> cases h
  · intro c p h; cases h
  · intro p c h; cases h

theorem quiet_ne {pc : Pc} (h : quiet pc) :
    pc ≠ .resumed ∧ pc ≠ .switching ∧ ∀ q, pc ≠ .forking q := by
  refine ⟨?_, ?_, ?_⟩
  · rintro rfl; cases h
  · rintro rfl; cases h
  · rintro q rfl; cases h

/-- A step of CPU c changes nothing that the invariant reads about other CPUs and slots outside P. -/
structure Local (c : Fin n) (P : Slot → Prop) (s t : Kernel n) : Prop where
  proc : ∀ d, d ≠ c → t.proc d = s.proc d
  pc : ∀ d, d ≠ c → t.pc d = s.pc d
  running : ∀ q, ¬P q → ((t.procs q).state = .running ↔ (s.procs q).state = .running)
  locked : ∀ q d, ¬P q → s.lock q = some d → (t.procs q).state = (s.procs q).state
  lock : ∀ q, ¬P q → t.lock q = s.lock q
  other : ∀ d q, d ≠ c → P q → s.proc d ≠ some q ∧ s.pc d ≠ .forking q

theorem Exclusive.of_local {P : Slot → Prop} (h : Exclusive s) (hl : Local c P s t)
    (hin : (t.proc c).isSome = inside (t.pc c))
    (hproc : ∀ q, t.proc c = some q → P q ∨ s.proc c = some q)
    (hkeep : ∀ q, s.proc c = some q → P q ∨ t.proc c = some q) (hlocks : ∀ q, s.lock q = some c → P q)
    (hrun : ∀ q, t.proc c = some q → ((t.procs q).state = .running ↔ t.pc c ≠ .switching))
    (hheld : ∀ q, t.proc c = some q → t.pc c = .resumed ∨ t.pc c = .switching → t.lock q = some c)
    (hown : ∀ q, P q → (t.procs q).state = .running → t.proc c = some q)
    (hnew : ∀ q, t.pc c = .forking q → (t.procs q).state = .used ∧ t.lock q = some c)
    (hlock : ∀ q d, P q → t.lock q = some d → d = c ∧
      (t.proc c = some q ∧ (t.pc c = .resumed ∨ t.pc c = .switching) ∨ t.pc c = .forking q)) : Exclusive t := by
  have hs : ∀ d q, d ≠ c → t.proc d = some q → s.proc d = some q ∧ ¬P q := by
    intro d q hd hq
    rw [hl.proc d hd] at hq
    exact ⟨hq, fun hP => (hl.other d q hd hP).1 hq⟩
  have hne : ∀ d q, d ≠ c → t.proc d = some q → t.proc c ≠ some q := by
    intro d q hd hq hc
    obtain ⟨hsq, hP⟩ := hs d q hd hq
    exact hd (h.unique d c q hsq ((hproc q hc).resolve_left hP))
  constructor
  · intro d
    by_cases hd : d = c
    · rw [hd, hin]
    · rw [hl.proc d hd, hl.pc d hd]
      exact h.current d
  · intro d q hq
    by_cases hd : d = c
    · subst d
      exact hrun q hq
    · obtain ⟨hsq, hP⟩ := hs d q hd hq
      rw [hl.running q hP, hl.pc d hd]
      exact h.running d q hsq
  · intro d q hq hat
    by_cases hd : d = c
    · subst d
      exact hheld q hq hat
    · obtain ⟨hsq, hP⟩ := hs d q hd hq
      rw [hl.pc d hd] at hat
      rw [hl.lock q hP]
      exact h.held d q hsq hat
  · intro d d' q hq hq'
    by_cases hd : d = c
    · by_contra hdd
      exact hne d' q (fun hd' => hdd (hd.trans hd'.symm)) hq' (hd ▸ hq)
    · by_cases hd' : d' = c
      · exact absurd (hd' ▸ hq') (hne d q hd hq)
      · exact h.unique d d' q (hs d q hd hq).1 (hs d' q hd' hq').1
  · intro q hq
    by_cases hP : P q
    · exact ⟨c, hown q hP hq⟩
    · obtain ⟨d, hd⟩ := h.owner q ((hl.running q hP).mp hq)
      by_cases hdc : d = c
      · subst d
        exact ⟨c, (hkeep q hd).resolve_left hP⟩
      · exact ⟨d, (hl.proc d hdc).trans hd⟩
  · intro d q hat
    by_cases hd : d = c
    · subst d
      exact hnew q hat
    · rw [hl.pc d hd] at hat
      have hP : ¬P q := fun hP => (hl.other d q hd hP).2 hat
      obtain ⟨hu, hlk⟩ := h.creating d q hat
      exact ⟨(hl.locked q d hP hlk).trans hu, (hl.lock q hP).trans hlk⟩
  · intro q d hd
    by_cases hP : P q
    · obtain ⟨rfl, hat⟩ := hlock q d hP hd
      exact hat
    · rw [hl.lock q hP] at hd
      have hdc : d ≠ c := by
        rintro rfl
        exact hP (hlocks q hd)
      rw [hl.proc d hdc, hl.pc d hdc]
      exact h.holder q d hd

theorem Exclusive.of_quiet (h : Exclusive s) (pc : Pc)
    (hcpu : t.cpus = update s.cpus c ⟨s.proc c, pc⟩) (hlock : t.lock = s.lock)
    (hq : quiet (s.pc c)) (hq' : quiet pc) (hin : inside pc = inside (s.pc c))
    (hrun : ∀ p, (t.procs p).state = .running ↔ (s.procs p).state = .running)
    (hused : ∀ p d, s.lock p = some d → (t.procs p).state = (s.procs p).state) : Exclusive t := by
  obtain ⟨hres, hsw, hfork⟩ := quiet_ne hq
  obtain ⟨hres', hsw', hfork'⟩ := quiet_ne hq'
  have hproc : t.proc c = s.proc c := by rw [Kernel.proc, hcpu, update_self]
  have hpc : t.pc c = pc := by rw [Kernel.pc, hcpu, update_self]
  have hcpus : ∀ d, d ≠ c → t.cpus d = s.cpus d := fun d hd => by rw [hcpu, update_of_ne hd]
  rw [← hpc] at hres' hsw' hfork' hin
  refine h.of_local (c := c) (P := fun _ => False) ⟨fun d hd => congrArg Cpu.proc (hcpus d hd),
      fun d hd => congrArg Cpu.pc (hcpus d hd), fun q _ => hrun q, fun q d _ => hused q d,
      fun q _ => by rw [hlock], fun _ _ _ => False.elim⟩
    (by rw [hproc, hin, h.current]) (fun q hp => .inr (hproc ▸ hp)) (fun q hp => .inr (hproc.trans hp)) ?_ ?_
    (fun q _ hat => absurd hat (not_or.mpr ⟨hres', hsw'⟩)) (fun _ => False.elim)
    (fun q hat => absurd hat (hfork' q)) (fun _ _ => False.elim)
  · intro q hl
    rcases h.holder q c hl with ⟨-, hat⟩ | hat
    · exact (not_or.mpr ⟨hres, hsw⟩ hat).elim
    · exact hfork q hat
  · intro q hp
    rw [hrun, h.running c q (hproc ▸ hp)]
    exact iff_of_true hsw hsw'

theorem Exclusive.free (h : Exclusive s) (hlock : s.lock p = none) (hp : (s.procs p).state ≠ .running)
    (d : Fin n) : s.proc d ≠ some p ∧ s.pc d ≠ .forking p := by
  refine ⟨?_, ?_⟩
  · intro hd
    have hsw : s.pc d = .switching := by
      by_contra hne
      exact hp ((h.running d p hd).mpr hne)
    have hl := h.held d p hd (.inr hsw)
    rw [hlock] at hl
    cases hl
  · intro hd
    have hl := (h.creating d p hd).2
    rw [hlock] at hl
    cases hl

theorem Exclusive.not_other (h : Exclusive s) (hp : s.proc c = some p)
    (hlock : s.lock p = none ∨ s.lock p = some c) {d : Fin n} (hd : d ≠ c) :
    s.proc d ≠ some p ∧ s.pc d ≠ .forking p := by
  refine ⟨fun hdp => hd (h.unique d c p hdp hp), ?_⟩
  intro hat
  have hl := (h.creating d p hat).2
  rcases hlock with hlock | hlock
  · rw [hlock] at hl
    cases hl
  · rw [hlock] at hl
    exact hd (Option.some.inj hl).symm

theorem perform_local (k : Section n) (cpu : Cpu) (ticks : Nat) (pid : Int)
    (hother : ∀ d, d ≠ c → s.proc d ≠ some k.slot ∧ s.pc d ≠ .forking k.slot) :
    Local c (· = k.slot) s (s.perform ⟨c, cpu, some k, ticks, pid⟩) where
  proc d hd := by rw [perform_proc, if_neg hd]
  pc d hd := by rw [perform_pc, if_neg hd]
  running q hq := by rw [perform_slot, if_neg hq]
  locked q d hq _ := by rw [perform_slot, if_neg hq]
  lock q hq := by rw [perform_lock, if_neg hq]
  other d q hd hq := hq ▸ hother d hd

theorem Exclusive.of_switch (h : Exclusive s) (hl : Local c (· = p) s t)
    (hs : ∀ q, s.proc c = some q → q = p) (ht : ∀ q, t.proc c = some q → q = p)
    (hfs : ∀ q, s.pc c ≠ .forking q) (hft : ∀ q, t.pc c ≠ .forking q)
    (hin : (t.proc c).isSome = inside (t.pc c))
    (hrun : t.proc c = some p → ((t.procs p).state = .running ↔ t.pc c ≠ .switching))
    (hheld : t.proc c = some p → t.pc c = .resumed ∨ t.pc c = .switching → t.lock p = some c)
    (hown : (t.procs p).state = .running → t.proc c = some p)
    (hlock : ∀ d, t.lock p = some d →
      d = c ∧ t.proc c = some p ∧ (t.pc c = .resumed ∨ t.pc c = .switching)) : Exclusive t := by
  refine h.of_local hl hin (fun q hq => .inl (ht q hq)) (fun q hq => .inl (hs q hq)) ?_ ?_ ?_ ?_
    (fun q hat => absurd hat (hft q)) ?_
  · intro q hq
    rcases h.holder q c hq with ⟨hq, -⟩ | hat
    · exact hs q hq
    · exact absurd hat (hfs q)
  · intro q hq
    obtain rfl := ht q hq
    exact hrun hq
  · intro q hq
    obtain rfl := ht q hq
    exact hheld hq
  · rintro q rfl
    exact hown
  · rintro q d rfl hd
    exact (hlock d hd).imp_right .inl

theorem forking_place {pc : Pc} (h : pc = .running ∨ pc = .forking p) :
    inside pc = true ∧ pc ≠ .resumed ∧ pc ≠ .switching ∧ ∀ q, pc = .forking q → q = p := by
  rcases h with rfl | rfl
  · simp [inside]
  · simp [inside]

theorem Exclusive.of_fork (h : Exclusive s) (hl : Local c (· = p) s t)
    (hproc : t.proc c = s.proc c) (hp : s.proc c ≠ some p)
    (hs : s.pc c = .running ∨ s.pc c = .forking p) (ht : t.pc c = .running ∨ t.pc c = .forking p)
    (hstop : (t.procs p).state ≠ .running)
    (hnew : t.pc c = .forking p → (t.procs p).state = .used ∧ t.lock p = some c)
    (hlock : ∀ d, t.lock p = some d → d = c ∧ t.pc c = .forking p) : Exclusive t := by
  obtain ⟨hin, hres, hsw, hfork⟩ := forking_place hs
  obtain ⟨hin', hres', hsw', hfork'⟩ := forking_place ht
  refine h.of_local hl (by rw [hproc, h.current, hin, hin']) (fun q hq => .inr (hproc ▸ hq))
    (fun q hq => .inr (hproc.trans hq)) ?_ ?_ (fun q _ hat => absurd hat (not_or.mpr ⟨hres', hsw'⟩)) ?_ ?_ ?_
  · intro q hq
    rcases h.holder q c hq with ⟨-, hat⟩ | hat
    · exact absurd hat (not_or.mpr ⟨hres, hsw⟩)
    · exact hfork q hat
  · intro q hq
    rw [hproc] at hq
    have hqp : q ≠ p := by
      rintro rfl
      exact hp hq
    rw [hl.running q hqp, h.running c q hq]
    exact iff_of_true hsw hsw'
  · rintro q rfl hrun
    exact absurd hrun hstop
  · intro q hat
    obtain rfl := hfork' q hat
    exact hnew hat
  · rintro q d rfl hd
    exact (hlock d hd).imp_right .inr

theorem Exclusive.jump (h : Exclusive s) {pc : Pc} (hq : quiet (s.pc c)) (hq' : quiet pc)
    (hin : inside pc = inside (s.pc c)) : Exclusive (s.perform (s.jump c pc)) :=
  h.of_quiet pc rfl rfl hq hq' hin (fun _ => Iff.rfl) (fun _ _ _ => rfl)

theorem Exclusive.locked (h : Exclusive s) {pc : Pc} {op : Op} (hlock : s.lock p = none)
    (hq : quiet (s.pc c)) (hq' : quiet pc) (hin : inside pc = inside (s.pc c))
    (hrun : (op.apply s.ticks (s.procs p)).state = .running ↔ (s.procs p).state = .running) :
    Exclusive (s.perform (s.locked c p op pc)) := by
  refine h.of_quiet pc rfl ?_ hq hq' hin ?_ ?_
  · exact Function.update_eq_self_iff.mpr hlock.symm
  · intro q
    rw [Kernel.locked, perform_slot]
    split
    · subst q; exact hrun
    · rfl
  · intro q d hd
    rw [Kernel.locked, perform_slot, if_neg]
    rintro rfl
    rw [hlock] at hd
    cases hd

theorem Exclusive.pick (h : Exclusive s) {bestPrio : Int} (hlock : s.lock p = none)
    (hpc : s.pc c = .pass2 (some p) bestPrio) (hp : (s.procs p).state = .runnable) :
    Exclusive (s.perform
      ⟨c, ⟨some p, .resumed⟩, some ⟨p, .dispatch, none, some c⟩, s.ticks, s.nextpid⟩) := by
  have hc : s.proc c = none := by
    have := h.current c
    simpa [hpc, inside] using this
  have hl := perform_local (c := c) ⟨p, .dispatch, none, some c⟩ ⟨some p, .resumed⟩ s.ticks s.nextpid
    (fun d _ => h.free hlock (by simp [hp]) d)
  refine h.of_switch hl ?_ ?_ ?_ ?_ ?_ ?_ ?_ ?_ ?_ <;>
    simp [perform_proc, perform_pc, perform_slot, perform_lock, hc, hpc, hp, inside, Op.apply,
      dispatch_state]

theorem Exclusive.resume (h : Exclusive s) (hpc : s.pc c = .resumed) (hp : s.proc c = some p) :
    Exclusive (s.perform (s.unlock c p .resume ⟨some p, .running⟩)) := by
  have hstate : (s.procs p).state = .running := (h.running c p hp).mpr (by simp [hpc])
  have hl := perform_local (c := c) ⟨p, .resume, some c, none⟩ ⟨some p, .running⟩ s.ticks s.nextpid
    (fun d hd => h.not_other hp (.inr (h.held c p hp (.inl hpc))) hd)
  refine h.of_switch hl ?_ ?_ ?_ ?_ ?_ ?_ ?_ ?_ ?_ <;>
    simp [Kernel.unlock, perform_proc, perform_pc, perform_slot, perform_lock, hp, hpc, hstate, inside,
      Op.apply]

theorem Exclusive.leave (h : Exclusive s) {op : Op} (hlock : s.lock p = none)
    (hpc : s.pc c = .running ∨ s.pc c = .expired) (hp : s.proc c = some p)
    (hstate : (op.apply s.ticks (s.procs p)).state ≠ .running) :
    Exclusive (s.perform (s.leave c p op)) := by
  have hfork : ∀ q, s.pc c ≠ .forking q := by
    intro q
    rcases hpc with hpc | hpc <;> simp [hpc]
  have hl := perform_local (c := c) ⟨p, op, none, some c⟩ ⟨some p, .switching⟩ s.ticks s.nextpid
    (fun d hd => h.not_other hp (.inl hlock) hd)
  refine h.of_switch hl ?_ ?_ hfork ?_ ?_ ?_ ?_ ?_ ?_ <;>
    simp [Kernel.leave, perform_proc, perform_pc, perform_slot, perform_lock, hp, hstate, inside]

theorem Exclusive.swtch (h : Exclusive s) (hpc : s.pc c = .switching) (hp : s.proc c = some p) :
    Exclusive (s.perform (s.unlock c p .unlock ⟨none, .top⟩)) := by
  have hstate : (s.procs p).state ≠ .running := fun hrun => (h.running c p hp).mp hrun hpc
  have hl := perform_local (c := c) ⟨p, .unlock, some c, none⟩ ⟨none, .top⟩ s.ticks s.nextpid
    (fun d hd => h.not_other hp (.inr (h.held c p hp (.inr hpc))) hd)
  refine h.of_switch hl ?_ ?_ ?_ ?_ ?_ ?_ ?_ ?_ ?_ <;>
    simp [Kernel.unlock, perform_proc, perform_pc, perform_slot, perform_lock, hp, hpc, hstate, inside,
      Op.apply]

theorem Exclusive.allocproc (h : Exclusive s) (hlock : s.lock p = none) (hpc : s.pc c = .running)
    (hp : (s.procs p).state = .unused) : Exclusive (s.perform (s.allocMove c p)) := by
  have hfree := h.free hlock (by simp [hp])
  have hl := perform_local (c := c) ⟨p, .allocproc s.nextpid, none, some c⟩ ⟨s.proc c, .forking p⟩
    s.ticks (i32 (s.nextpid + 1)) (fun d _ => hfree d)
  refine h.of_fork hl ?_ (hfree c).1 (.inl hpc) ?_ ?_ ?_ ?_ <;>
    simp [allocMove, perform_proc, perform_pc, perform_slot, perform_lock, Op.apply, Process.allocproc]

theorem Exclusive.forked (h : Exclusive s) {op : Op} (hpc : s.pc c = .forking p)
    (hstate : (op.apply s.ticks (s.procs p)).state ≠ .running) :
    Exclusive (s.perform (s.unlock c p op ⟨s.proc c, .running⟩)) := by
  obtain ⟨hused, hlock⟩ := h.creating c p hpc
  have hnot : ∀ d, s.proc d ≠ some p := by
    intro d hd
    have hsw : s.pc d = .switching := by
      by_contra hne
      have hrun := (h.running d p hd).mpr hne
      rw [hused] at hrun
      cases hrun
    have hdl := h.held d p hd (.inr hsw)
    obtain rfl : c = d := Option.some.inj (hlock.symm.trans hdl)
    rw [hpc] at hsw
    cases hsw
  have hl := perform_local (c := c) ⟨p, op, some c, none⟩ ⟨s.proc c, .running⟩ s.ticks s.nextpid (by
    intro d hd
    refine ⟨hnot d, fun hat => hd ?_⟩
    exact (Option.some.inj (hlock.symm.trans (h.creating d p hat).2)).symm)
  refine h.of_fork hl ?_ (hnot c) (.inr hpc) ?_ ?_ ?_ ?_ <;>
    simp [Kernel.unlock, perform_proc, perform_pc, perform_slot, perform_lock, hstate]

theorem Exclusive.clock (h : Exclusive s) {ret : Ret} (hq : quiet (s.pc c))
    (hin : inside ret.pc = inside (s.pc c)) : Exclusive (s.perform (s.clockMove c ret)) :=
  h.of_quiet (.wakeup ticksChan 0 true ret) rfl rfl hq rfl
    (by cases ret <;> exact hin) (fun _ => Iff.rfl) (fun _ _ _ => rfl)

theorem afterVisit_place (i : Slot) (b : Option Slot × Int) :
    quiet (afterVisit i b) ∧ inside (afterVisit i b) = false := by
  rw [afterVisit]
  split <;> exact ⟨rfl, rfl⟩

theorem afterWakeup_place (chan : Nat) (i : Slot) (clock : Bool) (ret : Ret) :
    quiet (afterWakeup chan i clock ret) ∧
      inside (afterWakeup chan i clock ret) = inside (.wakeup chan i clock ret) := by
  rw [afterWakeup]
  split
  · exact ⟨rfl, rfl⟩
  · split
    · exact ⟨rfl, rfl⟩
    · cases ret <;> exact ⟨rfl, rfl⟩

theorem afterAccount_place (i : Slot) (ret : Ret) :
    quiet (afterAccount i ret) ∧ inside (afterAccount i ret) = inside (.accounting i ret) := by
  rw [afterAccount]
  split
  · exact ⟨rfl, rfl⟩
  · cases ret <;> exact ⟨rfl, rfl⟩

theorem Exclusive.step (h : Exclusive s) (he : s.step e = some t) : Exclusive t := by
  obtain ⟨m, hm, hr, rfl⟩ := step_eq_some.mp he
  rw [ready_iff] at hr
  cases hm with
  | startPass c hc | pickNone c prio hc | interrupt c hc | timerOther c hc | wakeupTop c chan hc
  | wakeupProc c chan hc | uncharged c p hc =>
    exact h.jump (by simp [hc, quiet]) rfl (by simp [hc, inside])
  | timerTop c hc | timerProc c hc => exact h.clock (by simp [hc, quiet]) (by simp [hc, inside, Ret.pc])
  | wakeupSelf c chan i clock ret hc =>
    obtain ⟨hq, hi⟩ := afterWakeup_place chan i clock ret
    exact h.jump (by simp [hc, quiet]) hq (by rw [hc, hi])
  | visit c i bestP bestPrio hc =>
    obtain ⟨hq, hi⟩ := afterVisit_place i (better s.procs i bestP bestPrio)
    exact h.locked (hr _ rfl) (by simp [hc, quiet]) hq (by rw [hc, hi]; rfl) (by simp [Op.apply])
  | wakeupVisit c chan i clock ret hc =>
    obtain ⟨hq, hi⟩ := afterWakeup_place chan i clock ret
    refine h.locked (hr _ rfl) (by simp [hc, quiet]) hq (by rw [hc, hi]) ?_
    simp only [Op.apply, wakeup_state]
    split <;> simp_all
  | accountVisit c i ret hc =>
    obtain ⟨hq, hi⟩ := afterAccount_place i ret
    exact h.locked (hr _ rfl) (by simp [hc, quiet]) hq (by rw [hc, hi]) (by simp [Op.apply])
  | pickGone c p prio hc hp =>
    exact h.locked (hr _ rfl) (by simp [hc, quiet]) rfl (by simp [hc, inside])
      (by simp [Op.apply, dispatch_state, hp])
  | charge c p hc hp =>
    refine h.locked (hr _ rfl) (by simp [hc, quiet]) ?_ ?_ (by simp [Op.apply])
    · split <;> rfl
    · rw [hc]; split <;> rfl
  | kkill c pid p hc =>
    refine h.locked (hr _ rfl) (by simp [hc, quiet]) rfl (by simp [hc]) ?_
    simp only [Op.apply, kkill_state]
    split <;> simp_all
  | setkilled c p hc => exact h.locked (hr _ rfl) (by simp [hc, quiet]) rfl (by simp [hc]) Iff.rfl
  | forkRun c p hc hp =>
    exact h.locked (hr _ rfl) (by simp [hc, quiet]) rfl (by simp [hc])
      (by simp [Op.apply, makeRunnable, hp])
  | kwait c p hc hp =>
    exact h.locked (hr _ rfl) (by simp [hc, quiet]) rfl (by simp [hc])
      (by simp [Op.apply, freeproc, hp])
  | pick c p prio hc hp => exact h.pick (hr _ rfl) hc hp
  | resume c p hc hp => exact h.resume hc hp
  | yield c p hc hp => exact h.leave (hr _ rfl) (.inr hc) hp (by simp [Op.apply])
  | sleep c p chan hc hp => exact h.leave (hr _ rfl) (.inl hc) hp (by simp [Op.apply])
  | kexit c p status hc hp => exact h.leave (hr _ rfl) (.inl hc) hp (by simp [Op.apply])
  | swtch c p hc hp => exact h.swtch hc hp
  | allocproc c p hc hp => exact h.allocproc (hr _ rfl) hc hp
  | forkFail c p hc => exact h.forked hc (by simp [Op.apply, freeproc])
  | forkDone c p hc => exact h.forked hc (by simp [Op.apply, (h.creating c p hc).1])

theorem run_exclusive (r : Run n) (k : Nat) : Exclusive (r.state k) :=
  r.always (boot_exclusive n) (fun _ _ _ h he => h.step he) k

theorem Exclusive.pre (h : Exclusive s) {op : Op} (hop : opAt s e p = some op) : op.Pre (s.procs p) := by
  obtain ⟨m, k, hm, hk, rfl, rfl⟩ := opAt_eq_some hop
  cases hm with
  | startPass | pickNone | interrupt | timerTop | timerProc | timerOther | wakeupTop | wakeupProc
  | wakeupSelf | uncharged => cases hk
  | visit | pickGone | pick | wakeupVisit | accountVisit | kkill | swtch | forkDone =>
    cases hk; trivial
  | resume c p hc hp | charge c p hc hp | yield c p hc hp | sleep c p chan hc hp
  | kexit c p status hc hp | setkilled c p hc hp =>
    cases hk
    exact (h.running c p hp).mpr (by simp [hc])
  | allocproc c p hc hp | forkRun c p hc hp => cases hk; exact hp
  | forkFail c p hc => cases hk; exact .inr (h.creating c p hc).1
  | kwait c p hc hp => cases hk; exact .inl hp

theorem applyOp_running {ticks : Nat} {op : Option Op} {x : Proc}
    (h : (applyOp ticks op x).state = .running) : x.state = .running ∨ x.state = .runnable := by
  cases op with
  | none => exact .inl h
  | some op =>
    cases op with
    | rescore | resume | chargeTick | accountWait => exact .inl (by simpa [applyOp, Op.apply] using h)
    | dispatch =>
      by_cases hr : x.state = .runnable
      · exact .inr hr
      · exact .inl (by simpa [applyOp, Op.apply, dispatch_state, hr] using h)
    | yield | sleep | kexit => simp [applyOp, Op.apply] at h
    | wakeup chan =>
      simp only [applyOp, Op.apply, wakeup_state] at h
      split at h
      · cases h
      · exact .inl h
    | kkill pid =>
      simp only [applyOp, Op.apply, kkill_state] at h
      split at h
      · cases h
      · exact .inl h
    | setkilled | unlock => exact .inl h
    | allocproc | makeRunnable | freeproc => cases h

theorem enters_running (r : Run n) (k : Nat) (p : Slot)
    (h : ((r.state (k + 1)).procs p).state = .running) :
    ((r.state k).procs p).state = .running ∨ ((r.state k).procs p).state = .runnable := by
  cases he : r.event k with
  | none => rw [r.state_of_no_event he] at h; exact .inl h
  | some e =>
    rw [step_procs (r.step_of_event he)] at h
    exact applyOp_running h

/-- A running process is current on exactly one CPU, a CPU's current process runs or is locked by it, and only
runnable processes start running. -/
theorem dispatch_exclusive (r : Run n) (k : Nat) :
    (∀ p, ((r.state k).procs p).state = .running → ∃! c, (r.state k).proc c = some p) ∧
    (∀ c p, (r.state k).proc c = some p →
      ((r.state k).procs p).state = .running ∨ (r.state k).lock p = some c) ∧
    (∀ p, ((r.state k).procs p).state ≠ .running → ((r.state (k + 1)).procs p).state = .running →
      ((r.state k).procs p).state = .runnable) := by
  have h := run_exclusive r k
  refine ⟨?_, ?_, ?_⟩
  · intro p hp
    obtain ⟨c, hc⟩ := h.owner p hp
    exact ⟨c, hc, fun d hd => h.unique d c p hd hc⟩
  · intro c p hc
    by_cases hsw : (r.state k).pc c = .switching
    · exact .inr (h.held c p hc (.inr hsw))
    · exact .inl ((h.running c p hc).mpr hsw)
  · intro p hne hp
    exact (enters_running r k p hp).resolve_left hne

end AdaptiveXv6.Exclusion
