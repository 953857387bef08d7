import AdaptiveXv6.HandoffLocks

namespace AdaptiveXv6.HandoffOrder

open Process Handoff System HandoffSteps HandoffLocks Orderly Function

variable {m n l : Nat} {s t : System m n l} {e : Event m n l} {c d : Fin n} {p q : Fin m}

section Threads

variable (h : Orderly s) (hc : s.code c = .proc p) {pc : Pc l} (hcode : t.code = s.code)
  (hpc : t.pc = update s.pc p pc)

include h hc hcode hpc

theorem thread_kept (hl : t.plock = s.plock) (hown : ownLock pc = ownLock (s.pc p)) (q : Fin m) (d : Fin n) :
    t.plock q = some d ↔ held t d = some q := by
  refine h.lock_kept hl ?_ q d
  rw [h.held_thread hc hcode hpc, hown]
  exact update_eq_self_iff.mpr (by simp [held, heldAt, hc])

theorem thread_taken (hfree : s.plock p = none) (hl : t.plock = update s.plock p (some c))
    (hnot : ownLock (s.pc p) = false) (hown : ownLock pc = true) (q : Fin m) (d : Fin n) :
    t.plock q = some d ↔ held t d = some q :=
  h.lock_taken hfree (by simp [held, heldAt, hc, hnot]) hl
    (by rw [h.held_thread hc hcode hpc, hown, if_pos rfl]) q d

theorem thread_released (hl : t.plock = update s.plock p none) (hown : ownLock (s.pc p) = true)
    (hnot : ownLock pc = false) (q : Fin m) (d : Fin n) : t.plock q = some d ↔ held t d = some q := by
  have hhad : held s c = some p := by simp [held, heldAt, hc, hown]
  exact h.lock_released hhad hl (by rw [h.held_thread hc hcode hpc, hnot]; rfl) q d

end Threads

section Codes

variable (h : Orderly s) {y : Code m} (hcode : t.code = update s.code c y) (hpc : t.pc = s.pc)

include h hcode hpc

theorem code_kept (hl : t.plock = s.plock) (hy : heldAt s.pc y = held s c) (q : Fin m) (d : Fin n) :
    t.plock q = some d ↔ held t d = some q := by
  refine h.lock_kept hl ?_ q d
  rw [held_code hcode hpc, hy, update_eq_self]

theorem code_taken (hfree : s.plock q = none) (hl : t.plock = update s.plock q (some c)) (hnone : held s c = none)
    (hy : heldAt s.pc y = some q) (p : Fin m) (d : Fin n) : t.plock p = some d ↔ held t d = some p :=
  h.lock_taken hfree hnone hl (by rw [held_code hcode hpc, hy]) p d

theorem code_released (hhad : held s c = some q) (hl : t.plock = update s.plock q none)
    (hy : heldAt s.pc y = none) (p : Fin m) (d : Fin n) : t.plock p = some d ↔ held t d = some p :=
  h.lock_released hhad hl (by rw [held_code hcode hpc, hy]) p d

end Codes

section Statements

theorem heldAt_returnTo (h : Orderly s) {j : Job m} {u : Option (Fin m)} (hc : s.code c = .job j u) :
    heldAt s.pc (returnTo u) = none := by
  cases u with
  | none => rfl
  | some p => simp [returnTo, heldAt, h.calling c j p hc, ownLock]

theorem held_free {u : Option (Fin m)} (hc : s.free c = some u) :
    held s c = none ∧ current (s.code c) = u ∧ ∀ p, u = some p → s.pc p = .run := by
  obtain ⟨hx, rfl⟩ | ⟨p, hx, hp, rfl⟩ := free_eq_some hc
  · simp [held, heldAt, hx, schedHeld, current]
  · simp [held, heldAt, hx, hp, ownLock, current]

variable (h : Orderly s) (hheld : held s c = some q)

include h hheld

theorem state_of_held (hcode : s.code c ≠ .proc q) (hcur : current (s.code d) = some q) : s.state q = .running := by
  have hown := h.not_ownLock hheld hcur hcode
  rw [(h.loaded d q hcur).2]
  cases hx : s.pc q with
  | run => rfl
  | sleep pc chan lk => cases pc <;> simp_all [ownLock, shown]
  | yield pc => cases pc <;> simp_all [ownLock, shown]

theorem not_claimed (hd : d ≠ c) : ¬(s.code d = .sched (.setProc q) ∨ s.code d = .sched (.swtch q)) := by
  intro hcl
  have hl := (h.lock q d).mpr (by rcases hcl with hcl | hcl <;> simp [held, heldAt, hcl, schedHeld])
  rw [(h.lock q c).mpr hheld] at hl
  exact hd (Option.some.inj hl).symm

theorem of_test {y : Code m} {x : ProcState}
    (hcode : t.code = update s.code c y) (hcur : current y = current (s.code c)) (hpc : t.pc = s.pc)
    (hsaved : t.saved = s.saved) (hchan : t.chan = s.chan) (hl : t.plock = s.plock)
    (hy : heldAt s.pc y = some q) (hstate : t.state = update s.state q x)
    (hkeep : ∀ d, current (s.code d) = some q → x = s.state q)
    (hclaim : ∀ q', y = .sched (.setProc q') ∨ y = .sched (.swtch q') →
      t.state q' = .running ∧ ∀ d, current (s.code d) ≠ some q')
    (hcall : ∀ j p, y = .job j (some p) → s.pc p = .run) : Orderly t := by
  refine h.of_code hcode hcur hpc hsaved hchan (code_kept h hcode hpc hl (hy.trans hheld.symm)) ?_ ?_
    hclaim hcall
  · intro d p hd
    rw [hstate]
    by_cases hp : p = q
    · subst hp
      rw [update_self, hkeep d hd]
    · rw [update_of_ne hp]
  · intro d p hdc hd
    have hne : p ≠ q := by
      rintro rfl
      exact not_claimed h hheld hdc hd
    rw [hstate, update_of_ne hne]
    exact (h.claimed d p hd).1

end Statements

theorem shows (h : Orderly s) (hc : s.code c = .proc p) {pc : Pc l} (hp : s.pc p = pc) :
    s.state p = shown pc ∧ s.chan p = chanOf pc := by
  subst hp
  exact ⟨(h.loaded c p (by rw [hc]; rfl)).2, h.chan p⟩

theorem of_plain (h : Orderly s) (hc : s.code c = .proc p) {x pc : Pc l} (hp : s.pc p = x)
    (hcode : t.code = s.code) (hpc : t.pc = update s.pc p pc) (hsaved : t.saved = s.saved)
    (hlock : ∀ q d, t.plock q = some d ↔ held t d = some q) (hstate : t.state = s.state)
    (hchan : t.chan = s.chan) (hshown : shown pc = shown x) (hat : chanOf pc = chanOf x) : Orderly t := by
  obtain ⟨hs, hch⟩ := shows h hc hp
  exact h.of_thread hc hcode hpc hsaved hlock (by rw [hstate, hs, hshown]) (fun _ _ => by rw [hstate])
    (by rw [hchan, hch, hat]) (fun _ _ => by rw [hchan])

theorem of_jump (h : Orderly s) {y : Code m} (hcode : t.code = update s.code c y)
    (hcur : current y = current (s.code c)) (hpc : t.pc = s.pc) (hsaved : t.saved = s.saved)
    (hchan : t.chan = s.chan) (hstate : t.state = s.state)
    (hlock : ∀ q d, t.plock q = some d ↔ held t d = some q)
    (hclaim : ∀ q, y = .sched (.setProc q) ∨ y = .sched (.swtch q) → s.code c = .sched (.setProc q))
    (hcall : ∀ j q, y = .job j (some q) → s.pc q = .run) : Orderly t := by
  refine h.of_code hcode hcur hpc hsaved hchan hlock (fun _ _ _ => by rw [hstate]) ?_ ?_ hcall
  · intro d q _ hd
    rw [hstate]
    exact (h.claimed d q hd).1
  · intro q hq
    rw [hstate]
    exact h.claimed c q (.inl (hclaim q hq))

theorem calling_of (h : Orderly s) {j : Job m} {u : Option (Fin m)} (hc : s.code c = .job j u) (j' : Job m)
    (i : Job m) (q : Fin m) (hq : Code.job j' u = .job i (some q)) : s.pc q = .run := by
  cases hq
  exact h.calling c j q hc

theorem called (hc : s.free c = some u) (j i : Job m) (q : Fin m) (hq : Code.job j u = .job i (some q)) :
    s.pc q = .run := by
  cases hq
  exact (held_free hc).2.2 q rfl

theorem returning (u : Option (Fin m)) (q : Fin m) (x : Code m)
    (hq : returnTo u = .sched (.setProc q) ∨ returnTo u = .sched (.swtch q)) : x = .sched (.setProc q) := by
  cases u <;> simp [returnTo] at hq

theorem returning_call (u : Option (Fin m)) (j : Job m) (q : Fin m) (hq : returnTo u = .job j (some q)) :
    s.pc q = .run := by
  cases u <;> cases hq

theorem does (h : Orderly s) (hd : Does s e t) : Orderly t := by
  cases hd with
  | sleep c p chan lk hc hp | yield c p hc hp | sleepRelease c p chan lk hc hp
  | sleepReacquire c p chan lk hc hp =>
    exact of_plain h hc hp rfl rfl rfl (thread_kept h hc rfl rfl rfl (by rw [hp]; rfl)) rfl rfl rfl rfl
  | sleepAcquire c p chan lk hc hp hl | yieldAcquire c p hc hp hl =>
    exact of_plain h hc hp rfl rfl rfl (thread_taken h hc rfl rfl hl rfl (by rw [hp]; rfl) rfl)
      rfl rfl rfl rfl
  | sleepUnlock c p chan lk hc hp | yieldUnlock c p hc hp =>
    exact of_plain h hc hp rfl rfl rfl (thread_released h hc rfl rfl rfl (by rw [hp]; rfl) rfl)
      rfl rfl rfl rfl
  | sleepChan c p chan lk hc hp | sleepTidy c p chan lk hc hp =>
    refine h.of_thread hc rfl rfl rfl (thread_kept h hc rfl rfl rfl (by rw [hp]; rfl))
      (shows h hc hp).1 (fun _ _ => rfl) ?_ ?_
    · exact update_self ..
    · exact fun q hq => update_of_ne hq ..
  | sleepState c p chan lk hc hp | yieldState c p hc hp =>
    refine h.of_thread hc rfl rfl rfl (thread_kept h hc rfl rfl rfl (by rw [hp]; rfl)) ?_ ?_
      (shows h hc hp).2 (fun _ _ => rfl)
    · exact update_self ..
    · exact fun q hq => update_of_ne hq ..
  | sleepSwtch c p chan lk hc hp | yieldSwtch c p hc hp =>
    exact h.switch_out hc (by rw [hp]; rfl) rfl (by rw [hp]; rfl)
  | swtch c p hc => exact h.switch_in hc
  | choose c p hc | gone c p hc | setProc c p hc | clearProc c p hc =>
    refine of_jump h rfl (by rw [hc]; rfl) rfl rfl rfl rfl
      (code_kept h rfl rfl rfl (by simp [held, heldAt, hc, schedHeld])) ?_ (by simp)
    intro q hq
    simp_all
  | pick c p hc hl =>
    exact of_jump h rfl (by rw [hc]; rfl) rfl rfl rfl rfl
      (code_taken h rfl rfl hl rfl (by simp [held, heldAt, hc, schedHeld]) rfl) (by simp) (by simp)
  | unlock c p hc =>
    exact of_jump h rfl (by rw [hc]; rfl) rfl rfl rfl rfl
      (code_released h rfl rfl (by simp [held, heldAt, hc, schedHeld]) rfl rfl) (by simp) (by simp)
  | claim c p hc hp =>
    have hheld : held s c = some p := by simp [held, heldAt, hc, schedHeld]
    have hrun := fun d => state_of_held h (d := d) hheld (by simp [hc])
    refine of_test h hheld rfl (by rw [hc]; rfl) rfl rfl rfl rfl rfl rfl (fun d hd => (hrun d hd).symm) ?_ (by simp)
    rintro q (hq | hq)
    · cases hq
      refine ⟨update_self .., fun d hd => ?_⟩
      have hx := hrun d hd
      rw [hp] at hx
      cases hx
    · cases hq
  | acquire c lk u hc hl | release c lk u hc hl =>
    exact ⟨h.lock, h.alone, h.loaded, h.stored, h.claimed, h.chan, h.calling⟩
  | wakeup c chan u hc | kill c q u hc | visit c q u hc =>
    obtain ⟨hnone, hcur, hrun⟩ := held_free hc
    exact of_jump h rfl hcur.symm rfl rfl rfl rfl (code_kept h rfl rfl rfl hnone.symm) (by simp)
      (called hc _)
  | wakeupSelf c chan q todo hc =>
    exact of_jump h rfl (by rw [hc]; rfl) rfl rfl rfl rfl
      (code_kept h rfl rfl rfl (by simp [held, heldAt, hc, jobHeld])) (by simp) (calling_of h hc _)
  | wakeupAcquire c chan q todo u hc hl | killAcquire c q u hc hl | visitAcquire c q u hc hl =>
    exact of_jump h rfl (by rw [hc]; rfl) rfl rfl rfl rfl
      (code_taken h rfl rfl hl rfl (by simp [held, heldAt, hc, jobHeld]) rfl) (by simp) (calling_of h hc _)
  | wakeupRelease c chan q todo u hc =>
    exact of_jump h rfl (by rw [hc]; rfl) rfl rfl rfl rfl
      (code_released h rfl rfl (by simp [held, heldAt, hc, jobHeld]) rfl rfl) (by simp) (calling_of h hc _)
  | wakeupDone c chan u hc =>
    exact of_jump h rfl (by rw [hc, current_returnTo]; rfl) rfl rfl rfl rfl
      (code_kept h rfl rfl rfl (by rw [heldAt_returnTo h hc]; simp [held, heldAt, hc, jobHeld]))
      (fun q hq => returning u q _ hq) (returning_call u)
  | killRelease c q u hc | visitRelease c q u hc =>
    exact of_jump h rfl (by rw [hc, current_returnTo]; rfl) rfl rfl rfl rfl
      (code_released h rfl rfl (by simp [held, heldAt, hc, jobHeld]) rfl (heldAt_returnTo h hc))
      (fun q hq => returning u q _ hq) (returning_call u)
  | wakeupTest c chan q todo u hc | killSet c q u hc =>
    have hheld : held s c = some q := by simp [held, heldAt, hc, jobHeld]
    refine of_test h hheld rfl (by rw [hc]; rfl) rfl rfl rfl rfl rfl rfl ?_ (by simp) (calling_of h hc _)
    intro d hd
    have hrun := state_of_held h hheld (by simp [hc]) hd
    simp [woken, roused, hrun]

theorem run_orderly (r : Run m n l) (k : Nat) : Orderly (r.state k) :=
  r.always (start_orderly m n l) (fun _ _ _ h he => does h (does_of_step he)) k

/-- A process is on one CPU, or its registers are saved; whoever finds it RUNNABLE under p->lock finds them
saved, also if it was still on its way to swtch(). -/
theorem threads_handed_over (r : Run m n l) (k : Nat) (p : Fin m) :
    (∀ c d, current ((r.state k).code c) = some p → current ((r.state k).code d) = some p → c = d) ∧
    ((r.state k).saved p = true ↔ ∀ c, current ((r.state k).code c) ≠ some p) ∧
    (∀ c, (r.state k).plock p = some c ↔ held (r.state k) c = some p) ∧
    ∀ c, (r.state k).code c = .sched (.test p) ∧ (r.state k).state p = .runnable ∨
        (r.state k).code c = .sched (.swtch p) →
      (r.state k).saved p = true ∧ resumes ((r.state k).pc p) = true := by
  have h := run_orderly r k
  refine ⟨fun c d => h.alone c d p, ⟨fun hs c hc => ?_, fun hc => (h.stored p hc).1⟩, fun c => h.lock p c, ?_⟩
  · rw [(h.loaded c p hc).1] at hs
    cases hs
  · rintro c (⟨hc, hstate⟩ | hc)
    · refine h.stored p fun d hd => ?_
      have hheld : held (r.state k) c = some p := by rw [held, hc]; rfl
      rw [state_of_held h hheld (by rw [hc]; rintro ⟨⟩) hd] at hstate
      cases hstate
    · exact h.stored p (h.claimed c p (.inr hc)).2

end AdaptiveXv6.HandoffOrder
