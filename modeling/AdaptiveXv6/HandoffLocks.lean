import AdaptiveXv6.HandoffSteps

namespace AdaptiveXv6.HandoffLocks

open Process Handoff System Function

variable {m n l : Nat} {s t : System m n l} {c d : Fin n} {p q : Fin m}

section Places

def ownLock : Pc l → Bool
  | .run => false
  | .sleep pc _ _ => match pc with
    | .acquire | .reacquire => false
    | .release | .chan | .state | .swtch | .tidy | .unlock => true
  | .yield pc => match pc with
    | .acquire => false
    | .state | .swtch | .unlock => true

def shown : Pc l → ProcState
  | .sleep .swtch _ _ => .sleeping
  | .yield .swtch => .runnable
  | .run | .sleep _ _ _ | .yield _ => .running

def chanOf : Pc l → Nat
  | .sleep pc chan _ => match pc with
    | .state | .swtch | .tidy => chan
    | .acquire | .release | .chan | .unlock | .reacquire => 0
  | .run | .yield _ => 0

def resumes : Pc l → Bool
  | .sleep .tidy _ _ | .yield .unlock => true
  | .run | .sleep _ _ _ | .yield _ => false

def schedHeld : SchedPc m → Option (Fin m)
  | .idle | .pick _ => none
  | .test p | .setProc p | .swtch p | .clearProc p | .unlock p => some p

def jobHeld : Job m → Option (Fin m)
  | .wakeup _ _ | .kill _ | .visit _ => none
  | .wakeupTest _ q _ | .wakeupRelease _ q _ | .killSet q | .killRelease q | .visitRelease q => some q

def heldAt (pc : Fin m → Pc l) : Code m → Option (Fin m)
  | .sched x => schedHeld x
  | .job j _ => jobHeld j
  | .proc p => if ownLock (pc p) then some p else none

def held (s : System m n l) (c : Fin n) : Option (Fin m) := heldAt s.pc (s.code c)

def current : Code m → Option (Fin m)
  | .sched _ => none
  | .job _ u => u
  | .proc p => some p

@[simp] theorem current_returnTo (u : Option (Fin m)) : current (returnTo u) = u := by
  cases u <;> rfl

end Places

/-- The lock of a process is held just by the CPU at a place that holds it. A process is loaded on at most one
CPU, and its registers are in memory just when on none. -/
structure Orderly (s : System m n l) : Prop where
  lock : ∀ p c, s.plock p = some c ↔ held s c = some p
  alone : ∀ c d p, current (s.code c) = some p → current (s.code d) = some p → c = d
  loaded : ∀ c p, current (s.code c) = some p → s.saved p = false ∧ s.state p = shown (s.pc p)
  stored : ∀ p, (∀ c, current (s.code c) ≠ some p) → s.saved p = true ∧ resumes (s.pc p) = true
  claimed : ∀ c p, s.code c = .sched (.setProc p) ∨ s.code c = .sched (.swtch p) →
    s.state p = .running ∧ ∀ d, current (s.code d) ≠ some p
  chan : ∀ p, s.chan p = chanOf (s.pc p)
  calling : ∀ c j p, s.code c = .job j (some p) → s.pc p = .run

theorem start_orderly (m n l : Nat) : Orderly (start m n l) where
  lock p c := by simp [start, held, heldAt, schedHeld]
  alone c d p h := by cases h
  loaded c p h := by cases h
  stored p h := ⟨rfl, rfl⟩
  claimed c p h := by simp [start] at h
  chan p := rfl
  calling c j p h := by simp [start] at h

namespace Orderly

section Locks

theorem lock_kept (h : Orderly s) (hl : t.plock = s.plock) (hh : held t = held s) (p : Fin m) (c : Fin n) :
    t.plock p = some c ↔ held t c = some p := by
  rw [hl, hh]
  exact h.lock p c

theorem lock_taken (h : Orderly s) (hfree : s.plock q = none) (hnone : held s c = none)
    (hl : t.plock = update s.plock q (some c)) (hh : held t = update (held s) c (some q))
    (p : Fin m) (d : Fin n) : t.plock p = some d ↔ held t d = some p := by
  have hq : ∀ d, held s d ≠ some q := by
    intro d hd
    have := (h.lock q d).mpr hd
    rw [hfree] at this
    cases this
  have hc : ∀ p, s.plock p ≠ some c := by
    intro p hp
    have := (h.lock p c).mp hp
    rw [hnone] at this
    cases this
  rw [hl, hh, update_apply, update_apply]
  by_cases hpq : p = q <;> by_cases hdc : d = c
  · simp [hpq, hdc]
  · simp [hpq, hdc, hq, Ne.symm hdc]
  · simp [hpq, hdc, hc, Ne.symm hpq]
  · simp [hpq, hdc, h.lock]

theorem lock_released (h : Orderly s) (hhad : held s c = some q)
    (hl : t.plock = update s.plock q none) (hh : held t = update (held s) c none)
    (p : Fin m) (d : Fin n) : t.plock p = some d ↔ held t d = some p := by
  have hq := (h.lock q c).mpr hhad
  rw [hl, hh, update_apply, update_apply]
  by_cases hpq : p = q <;> by_cases hdc : d = c
  · simp [hpq, hdc]
  · have hd : held s d ≠ some q := by
      intro hd
      have hqd := (h.lock q d).mpr hd
      rw [hq] at hqd
      exact hdc (Option.some.inj hqd).symm
    simp [hpq, hdc, hd]
  · have hp : s.plock p ≠ some c := by
      intro hp
      have hcp := (h.lock p c).mp hp
      rw [hhad] at hcp
      exact hpq (Option.some.inj hcp).symm
    simp [hpq, hdc, hp]
  · simp [hpq, hdc, h.lock]

theorem not_ownLock (h : Orderly s) (hheld : held s c = some q) (hcur : current (s.code d) = some q)
    (hcode : s.code c ≠ .proc q) : ownLock (s.pc q) = false := by
  cases hd : s.code d with
  | sched pc => simp [hd, current] at hcur
  | job j u =>
    rw [hd] at hcur
    cases hcur
    rw [h.calling d j q hd]
    rfl
  | proc p =>
    rw [hd] at hcur
    cases hcur
    by_contra hown
    have hq := (h.lock q d).mpr (by simpa [held, heldAt, hd] using hown)
    rw [(h.lock q c).mpr hheld] at hq
    cases hq
    exact hcode hd

end Locks

section Kinds

theorem held_thread (h : Orderly s) (hc : s.code c = .proc p) {pc : Pc l} (hcode : t.code = s.code)
    (hpc : t.pc = update s.pc p pc) :
    held t = update (held s) c (if ownLock pc then some p else none) := by
  funext d
  by_cases hd : d = c
  · subst hd
    simp [held, heldAt, hcode, hc, hpc]
  · rw [update_of_ne hd, held, held, hcode, hpc]
    cases hx : s.code d with
    | sched x | job j u => rfl
    | proc q =>
      have hne : q ≠ p := by
        rintro rfl
        exact hd (h.alone d c q (by rw [hx]; rfl) (by rw [hc]; rfl))
      simp [heldAt, update_of_ne hne]

theorem held_code {y : Code m} (hcode : t.code = update s.code c y) (hpc : t.pc = s.pc) :
    held t = update (held s) c (heldAt s.pc y) := by
  funext d
  by_cases hd : d = c
  · subst hd
    simp [held, hcode, hpc]
  · simp [held, hcode, hpc, hd]

theorem of_thread (h : Orderly s) (hc : s.code c = .proc p) {pc : Pc l} (hcode : t.code = s.code)
    (hpc : t.pc = update s.pc p pc) (hsaved : t.saved = s.saved)
    (hlock : ∀ q d, t.plock q = some d ↔ held t d = some q)
    (hstate : t.state p = shown pc) (hstate' : ∀ q, q ≠ p → t.state q = s.state q)
    (hchan : t.chan p = chanOf pc) (hchan' : ∀ q, q ≠ p → t.chan q = s.chan q) : Orderly t := by
  have hcur : current (s.code c) = some p := by rw [hc]; rfl
  refine ⟨hlock, by rw [hcode]; exact h.alone, ?_, ?_, ?_, ?_, ?_⟩
  · intro d q hd
    rw [hcode] at hd
    rw [hsaved, hpc]
    by_cases hq : q = p
    · subst hq
      exact ⟨(h.loaded d q hd).1, by rw [hstate, update_self]⟩
    · rw [hstate' q hq, update_of_ne hq]
      exact h.loaded d q hd
  · intro q hq
    rw [hcode] at hq
    have hne : q ≠ p := by
      rintro rfl
      exact hq c hcur
    rw [hsaved, hpc, update_of_ne hne]
    exact h.stored q hq
  · intro d q hd
    rw [hcode] at hd ⊢
    obtain ⟨hr, hno⟩ := h.claimed d q hd
    have hne : q ≠ p := by
      rintro rfl
      exact hno c hcur
    exact ⟨by rw [hstate' q hne, hr], hno⟩
  · intro q
    rw [hpc]
    by_cases hq : q = p
    · rw [hq, hchan, update_self]
    · rw [hchan' q hq, update_of_ne hq, h.chan]
  · intro d j q hd
    rw [hcode] at hd
    have hne : q ≠ p := by
      rintro rfl
      have hdc := h.alone d c q (by rw [hd]; rfl) hcur
      rw [hdc, hc] at hd
      cases hd
    rw [hpc, update_of_ne hne]
    exact h.calling d j q hd

theorem of_code (h : Orderly s) {y : Code m} (hcode : t.code = update s.code c y)
    (hcur : current y = current (s.code c)) (hpc : t.pc = s.pc) (hsaved : t.saved = s.saved)
    (hchan : t.chan = s.chan) (hlock : ∀ q d, t.plock q = some d ↔ held t d = some q)
    (hstate : ∀ d q, current (s.code d) = some q → t.state q = s.state q)
    (hclaim : ∀ d q, d ≠ c → s.code d = .sched (.setProc q) ∨ s.code d = .sched (.swtch q) →
      t.state q = .running)
    (hclaim' : ∀ q, y = .sched (.setProc q) ∨ y = .sched (.swtch q) →
      t.state q = .running ∧ ∀ d, current (s.code d) ≠ some q)
    (hcall : ∀ j q, y = .job j (some q) → s.pc q = .run) : Orderly t := by
  have hcur' : ∀ d, current (t.code d) = current (s.code d) := by
    intro d
    rw [hcode, update_apply]
    split
    · rename_i hd
      rw [hd, hcur]
    · rfl
  refine ⟨hlock, ?_, ?_, ?_, ?_, ?_, ?_⟩
  · intro d d' q hd hd'
    rw [hcur'] at hd hd'
    exact h.alone d d' q hd hd'
  · intro d q hd
    rw [hcur'] at hd
    rw [hsaved, hpc, hstate d q hd]
    exact h.loaded d q hd
  · intro q hq
    simp only [hcur'] at hq
    rw [hsaved, hpc]
    exact h.stored q hq
  · intro d q hd
    simp only [hcur']
    by_cases hdc : d = c
    · subst hdc
      rw [hcode, update_self] at hd
      exact hclaim' q hd
    · rw [hcode, update_of_ne hdc] at hd
      exact ⟨hclaim d q hdc hd, (h.claimed d q hd).2⟩
  · intro q
    rw [hchan, hpc, h.chan]
  · intro d j q hd
    rw [hpc]
    by_cases hdc : d = c
    · subst hdc
      rw [hcode, update_self] at hd
      exact hcall j q hd
    · rw [hcode, update_of_ne hdc] at hd
      exact h.calling d j q hd

theorem switch_out (h : Orderly s) (hc : s.code c = .proc p) {pc : Pc l} (hown : ownLock (s.pc p) = true)
    (hres : resumes pc = true) (hchan : chanOf pc = chanOf (s.pc p)) : Orderly (s.swtchOut c p pc) := by
  have hcur : current (s.code c) = some p := by rw [hc]; rfl
  have hne : ∀ d q, d ≠ c → current (s.code d) = some q → q ≠ p := by
    rintro d q hd hq rfl
    exact hd (h.alone d c q hq hcur)
  have hheld : held (s.swtchOut c p pc) = held s := by
    funext d
    by_cases hd : d = c
    · subst hd
      simp [held, heldAt, swtchOut, thread, goto, setSaved, hc, hown, schedHeld]
    · simp only [held, swtchOut, thread, goto, setSaved, update_of_ne hd]
      cases hx : s.code d with
      | sched x | job j u => rfl
      | proc q => simp [heldAt, update_of_ne (hne d q hd (by rw [hx]; rfl))]
  refine ⟨h.lock_kept rfl hheld, ?_, ?_, ?_, ?_, ?_, ?_⟩
  · intro d d' q hd hd'
    simp only [swtchOut, goto, update_apply] at hd hd'
    split at hd
    · cases hd
    · split at hd'
      · cases hd'
      · exact h.alone d d' q hd hd'
  · intro d q hd
    simp only [swtchOut, goto, update_apply] at hd
    split at hd
    · cases hd
    · rename_i hdc
      have hqp := hne d q hdc hd
      simpa [swtchOut, goto, thread, setSaved, update_of_ne hqp] using h.loaded d q hd
  · intro q hq
    by_cases hqp : q = p
    · subst hqp
      simp [swtchOut, goto, thread, setSaved, hres]
    · have hno : ∀ d, current (s.code d) ≠ some q := by
        intro d hd
        have hdc : d ≠ c := by
          rintro rfl
          rw [hcur] at hd
          exact hqp (Option.some.inj hd).symm
        have := hq d
        simp only [swtchOut, goto, update_of_ne hdc] at this
        exact this hd
      simpa [swtchOut, goto, thread, setSaved, update_of_ne hqp] using h.stored q hno
  · intro d q hd
    by_cases hdc : d = c
    · subst hdc
      simp [swtchOut, goto] at hd
    · simp only [swtchOut, goto, update_of_ne hdc] at hd
      obtain ⟨hr, hno⟩ := h.claimed d q hd
      refine ⟨hr, fun d' hd' => ?_⟩
      simp only [swtchOut, goto, update_apply] at hd'
      split at hd'
      · cases hd'
      · exact hno d' hd'
  · intro q
    by_cases hqp : q = p
    · subst hqp
      simpa [swtchOut, goto, thread, setSaved, hchan] using h.chan q
    · simpa [swtchOut, goto, thread, setSaved, update_of_ne hqp] using h.chan q
  · intro d j q hd
    by_cases hdc : d = c
    · subst hdc
      simp [swtchOut, goto] at hd
    · simp only [swtchOut, goto, thread, setSaved, update_of_ne hdc] at hd
      have hqp := hne d q hdc (by rw [hd]; rfl)
      simpa [swtchOut, goto, thread, setSaved, update_of_ne hqp] using h.calling d j q hd

theorem switch_in (h : Orderly s) (hc : s.code c = .sched (.swtch p)) :
    Orderly ((s.setSaved p false).goto c (.proc p)) := by
  obtain ⟨hrun, hno⟩ := h.claimed c p (.inr hc)
  have hres := (h.stored p hno).2
  have hpc : ownLock (s.pc p) = true ∧ shown (s.pc p) = .running := by
    cases hx : s.pc p with
    | run => simp [hx, resumes] at hres
    | sleep pc chan lk => cases pc <;> simp_all [resumes, ownLock, shown]
    | yield pc => cases pc <;> simp_all [resumes, ownLock, shown]
  have hheld : held ((s.setSaved p false).goto c (.proc p)) = held s := by
    funext d
    by_cases hd : d = c
    · subst hd
      simp [held, heldAt, goto, setSaved, hc, hpc.1, schedHeld]
    · simp [held, goto, setSaved, hd]
  have hcur : ∀ d q, current (((s.setSaved p false).goto c (.proc p)).code d) = some q →
      (d = c ∧ q = p) ∨ (d ≠ c ∧ q ≠ p ∧ current (s.code d) = some q) := by
    intro d q hd
    simp only [goto, setSaved, update_apply] at hd
    split at hd
    · cases hd
      exact .inl ⟨‹_›, rfl⟩
    · refine .inr ⟨‹_›, ?_, hd⟩
      rintro rfl
      exact hno d hd
  refine ⟨h.lock_kept rfl hheld, ?_, ?_, ?_, ?_, h.chan, ?_⟩
  · intro d d' q hd hd'
    rcases hcur d q hd with ⟨rfl, rfl⟩ | ⟨-, hq, hd⟩ <;> rcases hcur d' _ hd' with ⟨rfl, hq'⟩ | ⟨-, hq', hd'⟩
    · rfl
    · exact absurd rfl hq'
    · exact absurd hq' hq
    · exact h.alone d d' q hd hd'
  · intro d q hd
    rcases hcur d q hd with ⟨rfl, rfl⟩ | ⟨-, hq, hd⟩
    · simp [goto, setSaved, hrun, hpc.2]
    · simpa [goto, setSaved, update_of_ne hq] using h.loaded d q hd
  · intro q hq
    have hqp : q ≠ p := by
      rintro rfl
      exact hq c (by simp [goto, current])
    have hq' : ∀ d, current (s.code d) ≠ some q := by
      intro d hd
      have hdc : d ≠ c := by
        rintro rfl
        rw [hc] at hd
        cases hd
      have := hq d
      simp only [goto, setSaved, update_of_ne hdc] at this
      exact this hd
    simpa [goto, setSaved, update_of_ne hqp] using h.stored q hq'
  · intro d q hd
    have hdc : d ≠ c := by
      rintro rfl
      simp [goto] at hd
    simp only [goto, setSaved, update_of_ne hdc] at hd
    obtain ⟨hr, hq⟩ := h.claimed d q hd
    refine ⟨hr, fun d' hd' => ?_⟩
    rcases hcur d' q hd' with ⟨rfl, rfl⟩ | ⟨-, -, hd'⟩
    · -- two CPUs would hold the lock of the process they claimed
      have hl := (h.lock q d).mpr (by rcases hd with hd | hd <;> simp [held, heldAt, hd, schedHeld])
      have hl' := (h.lock q d').mpr (by simp [held, heldAt, hc, schedHeld])
      rw [hl] at hl'
      exact hdc (Option.some.inj hl')
    · exact hq d' hd'
  · intro d j q hd
    have hdc : d ≠ c := by
      rintro rfl
      simp [goto] at hd
    simp only [goto, setSaved, update_of_ne hdc] at hd
    exact h.calling d j q hd

end Kinds

end Orderly

end AdaptiveXv6.HandoffLocks
