import AdaptiveXv6.HandoffOrder

namespace AdaptiveXv6.SleepWakeup

open Process Handoff System HandoffSteps HandoffLocks HandoffOrder Function

variable {m n l : Nat} {s t : System m n l} {e : Event m n l} {c d : Fin n} {p q : Fin m} {chan : Nat}

/-- The channel of a process that gave up its condition lock in sleep() and was not made RUNNABLE since. -/
def waitsAt : Pc l → ProcState → Option Nat
  | .sleep .chan chan _, _ | .sleep .state chan _, _ | .sleep .swtch chan _, _ => some chan
  | .sleep .tidy chan _, x => if x = .sleeping then some chan else none
  | .sleep _ _ _, _ | .run, _ | .yield _, _ => none

def waits (s : System m n l) (p : Fin m) : Option Nat := waitsAt (s.pc p) (s.state p)

section Waits

theorem waitsAt_not_sleeping (pc : Pc l) {x y : ProcState} (hx : x ≠ .sleeping) (hy : y ≠ .sleeping) :
    waitsAt pc x = waitsAt pc y := by
  cases pc with
  | run => rfl
  | sleep pc chan lk => cases pc <;> simp [waitsAt, hx, hy]
  | yield pc => rfl

theorem waitsAt_runnable (pc : Pc l) (x : ProcState) :
    waitsAt pc .runnable = waitsAt pc x ∨ waitsAt pc .runnable = none := by
  cases pc with
  | run => exact .inl rfl
  | sleep pc chan lk => cases pc <;> simp [waitsAt]
  | yield pc => exact .inl rfl

theorem waits_thread {pc : Pc l} (hpc : t.pc = update s.pc q pc)
    (hstate : ∀ p, p ≠ q → t.state p = s.state p) (hq : waitsAt pc (t.state q) = waits s q) (p : Fin m) :
    waits t p = waits s p := by
  by_cases hpq : p = q
  · subst hpq
    rw [waits, hpc, update_self, hq]
  · rw [waits, hpc, update_of_ne hpq, hstate p hpq]
    rfl

theorem waits_roused {x : ProcState} (hpc : t.pc = s.pc) (hstate : t.state = update s.state q x)
    (hx : x = .runnable ∨ x = s.state q) (p : Fin m) :
    waits t p = waits s p ∨ (waits t p = none ∧ t.state p = .runnable) := by
  by_cases hpq : p = q
  · subst hpq
    rw [waits, waits, hpc, hstate, update_self]
    rcases hx with rfl | rfl
    · exact (waitsAt_runnable _ _).imp_right (⟨·, rfl⟩)
    · exact .inl rfl
  · rw [waits, waits, hpc, hstate, update_of_ne hpq]
    exact .inl rfl

theorem waits_step (h : Orderly s) (hd : Does s e t) (p : Fin m) :
    waits t p = waits s p ∨ (waits t p = none ∧ t.state p = .runnable) ∨
      ∃ c chan lk, s.code c = .proc p ∧ s.pc p = .sleep .release chan lk ∧ s.lock lk = some c ∧
        waits t p = some chan := by
  cases hd with
  | sleep c q chan lk hc hq | yield c q hc hq | sleepAcquire c q chan lk hc hq | sleepChan c q chan lk hc hq
  | sleepUnlock c q chan lk hc hq | sleepReacquire c q chan lk hc hq | yieldAcquire c q hc hq
  | yieldUnlock c q hc hq =>
    left
    refine waits_thread rfl (fun _ _ => by rfl) ?_ p
    simp [waits, hq, waitsAt]
  | sleepRelease c q chan lk hc hq hl =>
    by_cases hpq : p = q
    · subst hpq
      exact .inr (.inr ⟨c, chan, lk, hc, hq, hl, by simp [waits, thread, waitsAt]⟩)
    · exact .inl (by simp [waits, thread, setCond, hpq])
  | sleepState c q chan lk hc hq | yieldState c q hc hq =>
    left
    refine waits_thread rfl (fun r hr => by exact update_of_ne hr ..) ?_ p
    simp [waits, hq, waitsAt]
  | sleepSwtch c q chan lk hc hq | sleepTidy c q chan lk hc hq | yieldSwtch c q hc hq =>
    left
    refine waits_thread rfl (fun _ _ => by rfl) ?_ p
    have hs := (shows h hc hq).1
    simp_all [waits, waitsAt, shown, swtchOut, goto, thread, setSaved]
  | choose | pick | gone | setProc | swtch | clearProc | unlock | acquire | release | wakeup | kill | visit
  | wakeupDone | wakeupSelf | wakeupAcquire | wakeupRelease | killAcquire | killRelease | visitAcquire
  | visitRelease => exact .inl rfl
  | claim c q hc hq =>
    left
    by_cases hpq : p = q
    · subst hpq
      rw [waits, waits, hq]
      exact (waitsAt_not_sleeping _ (by simp [setState, goto]) (by simp))
    · simp [waits, setState, goto, hpq]
  | wakeupTest c chan q todo u hc =>
    rw [← or_assoc]
    left
    refine waits_roused (x := s.woken chan q) (by rfl) (by rfl) ?_ p
    rw [woken]
    split <;> simp
  | killSet c q u hc =>
    rw [← or_assoc]
    left
    refine waits_roused (x := s.roused q) (by rfl) (by rfl) ?_ p
    rw [roused]
    split <;> simp

theorem lock_step (hd : Does s e t) {lk : Fin l} {j : Job m} {u : Option (Fin m)}
    (hl : s.lock lk = some d) (hj : s.code d = .job j u) : t.lock lk = some d := by
  cases hd with
  | sleepRelease c q chan lk' hc hq hl' =>
    have hne : lk ≠ lk' := by
      rintro rfl
      rw [hl] at hl'
      cases hl'
      rw [hc] at hj
      cases hj
    simpa [thread, setCond, hne] using hl
  | release c lk' u' hc hl' =>
    have hne : lk ≠ lk' := by
      rintro rfl
      rw [hl] at hl'
      cases hl'
      simp [free, hj] at hc
    simpa [setCond, hne] using hl
  | sleepReacquire c q chan lk' hc hq hl' | acquire c lk' u' hc hl' =>
    have hne : lk ≠ lk' := by
      rintro rfl
      rw [hl] at hl'
      cases hl'
    simpa [thread, setCond, hne] using hl
  | _ => exact hl

end Waits

def waking : Job m → Option (Nat × List (Fin m))
  | .wakeup chan todo | .wakeupRelease chan _ todo => some (chan, todo)
  | .wakeupTest chan q todo => some (chan, q :: todo)
  | .kill _ | .killSet _ | .killRelease _ | .visit _ | .visitRelease _ => none

/-- Every sleeper gave up the lock of its channel, every wakeup() holds that lock, and all that wait for the
channel are still to be visited. -/
structure Heard (lockOf : Nat → Fin l) (s : System m n l) : Prop where
  sleeper : ∀ p pc chan lk, s.pc p = .sleep pc chan lk → lk = lockOf chan
  caller : ∀ c j u chan todo, s.code c = .job j u → waking j = some (chan, todo) →
    s.lock (lockOf chan) = some c
  ahead : ∀ c j u chan todo p, s.code c = .job j u → waking j = some (chan, todo) →
    waits s p = some chan → p ∈ todo

section Runs

variable {lockOf : Nat → Fin l}

theorem sleeper_step (h : Heard lockOf s) (hd : Does s e t)
    (hsleep : ∀ c chan lk, e = .sleep c chan lk → lk = lockOf chan) (p : Fin m) (pc : SleepPc) (chan : Nat)
    (lk : Fin l) (hp : t.pc p = .sleep pc chan lk) : lk = lockOf chan := by
  cases hd with
  | sleep c q chan' lk' hc hq =>
    by_cases hpq : p = q
    · simp only [thread, hpq, update_self, Pc.sleep.injEq] at hp
      obtain ⟨-, rfl, rfl⟩ := hp
      exact hsleep c chan' lk' rfl
    · simp only [thread, update_of_ne hpq] at hp
      exact h.sleeper p pc chan lk hp
  | sleepAcquire c q chan' lk' hc hq | sleepRelease c q chan' lk' hc hq | sleepChan c q chan' lk' hc hq
  | sleepState c q chan' lk' hc hq | sleepSwtch c q chan' lk' hc hq | sleepTidy c q chan' lk' hc hq
  | sleepUnlock c q chan' lk' hc hq =>
    by_cases hpq : p = q
    · simp only [swtchOut, goto, thread, hpq, update_self, Pc.sleep.injEq] at hp
      obtain ⟨-, rfl, rfl⟩ := hp
      exact h.sleeper q _ chan' lk' hq
    · simp only [swtchOut, goto, thread, update_of_ne hpq] at hp
      exact h.sleeper p pc chan lk hp
  | yield c q hc hq | sleepReacquire c q chan' lk' hc hq | yieldAcquire c q hc hq | yieldState c q hc hq
  | yieldSwtch c q hc hq | yieldUnlock c q hc hq =>
    by_cases hpq : p = q
    · simp [swtchOut, goto, thread, hpq] at hp
    · simp only [swtchOut, goto, thread, update_of_ne hpq] at hp
      exact h.sleeper p pc chan lk hp
  | _ => exact h.sleeper p pc chan lk hp

theorem waits_tested (h : Orderly s) {todo : List (Fin m)} {u : Option (Fin m)} {y : Code m}
    (hc : s.code c = .job (.wakeupTest chan q todo) u) :
    waits ((s.setState q (s.woken chan q)).goto c y) q ≠ some chan := by
  have hheld : held s c = some q := by simp [held, heldAt, hc, jobHeld]
  have hw : waits ((s.setState q (s.woken chan q)).goto c y) q = waitsAt (s.pc q) (s.woken chan q) := by
    simp [waits, goto, setState]
  rw [hw]
  by_cases hcur : ∃ d, current (s.code d) = some q
  · obtain ⟨d, hd⟩ := hcur
    have hrun := state_of_held h hheld (by simp [hc]) hd
    have hown := h.not_ownLock hheld hd (by simp [hc])
    cases hx : s.pc q with
    | run => simp [waitsAt]
    | sleep pc chan' lk => cases pc <;> simp_all [ownLock, waitsAt]
    | yield pc => simp [waitsAt]
  · obtain ⟨-, hres⟩ := h.stored q (fun d hd => hcur ⟨d, hd⟩)
    have hchan := h.chan q
    cases hx : s.pc q with
    | run => simp [waitsAt]
    | sleep pc chan' lk =>
      rw [hx] at hres hchan
      obtain rfl : pc = .tidy := by cases pc <;> simp_all [resumes]
      rw [woken, show s.chan q = chan' from hchan]
      split
      · simp [waitsAt]
      · rename_i hn
        intro hwaits
        simp only [waitsAt, Option.ite_none_right_eq_some, Option.some.injEq] at hwaits
        exact hn hwaits
    | yield pc => simp [waitsAt]

theorem moved {α β : Type} [DecidableEq α] {f : α → β} {a b : α} {y : β} (h : update f a y b ≠ f b) :
    b = a := by
  by_contra hne
  exact h (update_of_ne hne _ _)

theorem job_step (h : Orderly s) (hd : Does s e t) {j : Job m} {u : Option (Fin m)} {todo : List (Fin m)}
    (hc : t.code c = .job j u) (hj : waking j = some (chan, todo)) :
    (∃ j' todo', s.code c = .job j' u ∧ waking j' = some (chan, todo') ∧
      ∀ p, p ∈ todo' → p ∈ todo ∨ waits t p ≠ some chan) ∨
    (e = .wakeup c chan ∧ todo = List.finRange m ∧ t.lock = s.lock) := by
  by_cases hsame : t.code c = s.code c
  · exact .inl ⟨j, todo, hsame ▸ hc, hj, fun _ => .inl⟩
  cases hd with
  | wakeup c' chan' u' hf =>
    obtain rfl := moved hsame
    simp only [goto, update_self, Code.job.injEq] at hc
    obtain ⟨rfl, rfl⟩ := hc
    cases hj
    exact .inr ⟨rfl, rfl, rfl⟩
  | wakeupSelf c' chan' q todo' hx =>
    obtain rfl := moved hsame
    simp only [goto, update_self, Code.job.injEq] at hc
    obtain ⟨rfl, rfl⟩ := hc
    cases hj
    refine .inl ⟨_, _, hx, rfl, fun p hp => ?_⟩
    rcases List.mem_cons.mp hp with rfl | hp
    · right
      simp [waits, goto, h.calling c _ p hx, waitsAt]
    · exact .inl hp
  | wakeupAcquire c' chan' q todo' u' hx | wakeupRelease c' chan' q todo' u' hx =>
    obtain rfl := moved hsame
    simp only [goto, update_self, Code.job.injEq] at hc
    obtain ⟨rfl, rfl⟩ := hc
    cases hj
    exact .inl ⟨_, _, hx, rfl, fun _ => .inl⟩
  | wakeupTest c' chan' q todo' u' hx =>
    obtain rfl := moved hsame
    simp only [goto, update_self, Code.job.injEq] at hc
    obtain ⟨rfl, rfl⟩ := hc
    cases hj
    refine .inl ⟨_, _, hx, rfl, fun p hp => ?_⟩
    rcases List.mem_cons.mp hp with rfl | hp
    · exact .inr (waits_tested h hx)
    · exact .inl hp
  | sleepSwtch c' q chan' lk hx hq | yieldSwtch c' q hx hq =>
    obtain rfl := moved hsame
    simp [swtchOut, goto] at hc
  | choose c' p hx | pick c' p hx | claim c' p hx | gone c' p hx | setProc c' p hx | swtch c' p hx
  | clearProc c' p hx | unlock c' p hx =>
    obtain rfl := moved hsame
    simp [goto] at hc
  | wakeupDone c' chan' u' hx | killRelease c' q u' hx | visitRelease c' q u' hx =>
    obtain rfl := moved hsame
    simp only [goto, update_self] at hc
    cases u' <;> cases hc
  | kill c' q u' hf | visit c' q u' hf | killAcquire c' q u' hx | killSet c' q u' hx
  | visitAcquire c' q u' hx =>
    obtain rfl := moved hsame
    simp only [goto, update_self, Code.job.injEq] at hc
    obtain ⟨rfl, rfl⟩ := hc
    cases hj
  | _ => exact absurd rfl hsame

theorem Heard.step (ho : Orderly s) (h : Heard lockOf s) (hd : Does s e t)
    (hsleep : ∀ c chan lk, e = .sleep c chan lk → lk = lockOf chan)
    (hwake : ∀ c chan, e = .wakeup c chan → s.lock (lockOf chan) = some c) : Heard lockOf t where
  sleeper := sleeper_step h hd hsleep
  caller c j u chan todo hc hj := by
    obtain ⟨j', todo', hx, hj', -⟩ | ⟨he, -, hl⟩ := job_step ho hd hc hj
    · exact lock_step hd (h.caller c j' u chan todo' hx hj') hx
    · rw [hl]
      exact hwake c chan he
  ahead c j u chan todo p hc hj hp := by
    obtain ⟨j', todo', hx, hj', hrest⟩ | ⟨-, rfl, -⟩ := job_step ho hd hc hj
    · obtain hw | ⟨hw, -⟩ | ⟨d, chan', lk, hcode, hpc, hl, hw⟩ := waits_step ho hd p
      · rw [hw] at hp
        refine (hrest p (h.ahead c j' u chan todo' p hx hj' hp)).resolve_right ?_
        rw [hw]
        exact not_not.mpr hp
      · rw [hw] at hp
        cases hp
      · -- whoever starts to wait now held the lock that the caller of wakeup() holds
        rw [hw] at hp
        cases hp
        rw [h.sleeper p _ chan lk hpc, h.caller c j' u chan todo' hx hj'] at hl
        cases hl
        rw [hcode] at hx
        cases hx
    · exact List.mem_finRange p

theorem run_heard (r : Run m n l)
    (hsleep : ∀ k c chan lk, r.event k = some (.sleep c chan lk) → lk = lockOf chan)
    (hwake : ∀ k c chan, r.event k = some (.wakeup c chan) → (r.state k).lock (lockOf chan) = some c)
    (k : Nat) : Heard lockOf (r.state k) := by
  induction k with
  | zero =>
    rw [r.start]
    exact ⟨by simp [start], by simp [start], by simp [start]⟩
  | succ k ih =>
    cases he : r.event k with
    | none => rw [r.state_of_no_event he]; exact ih
    | some e =>
      refine ih.step (run_orderly r k) (does_of_step (r.step_of_event he)) ?_ ?_
      · rintro c chan lk rfl
        exact hsleep k c chan lk he
      · rintro c chan rfl
        exact hwake k c chan he

theorem exists_runnable (r : Run m n l) {i j : Nat} (hij : i ≤ j) (hi : waits (r.state i) p = some chan)
    (hj : waits (r.state j) p ≠ some chan) :
    ∃ k, i < k ∧ k ≤ j ∧ (r.state k).state p = .runnable := by
  induction j, hij using Nat.le_induction with
  | base => exact absurd hi hj
  | succ j hij ih =>
    by_cases hw : waits (r.state j) p = some chan
    · cases he : r.event j with
      | none =>
        rw [r.state_of_no_event he] at hj
        exact absurd hw hj
      | some e =>
        obtain heq | ⟨-, hr⟩ | ⟨d, chan', lk, -, hpc, -, -⟩ :=
          waits_step (run_orderly r j) (does_of_step (r.step_of_event he)) p
        · rw [heq] at hj
          exact absurd hw hj
        · exact ⟨j + 1, by omega, Nat.le_refl _, hr⟩
        · rw [waits, hpc] at hw
          cases hw
    · obtain ⟨k, hik, hkj, hk⟩ := ih hw
      exact ⟨k, hik, by omega, hk⟩

def nap (c : Fin n) (p q : Fin m) (lk : Fin l) : List (Event m n l) :=
  [.choose c p, .next c, .next c, .next c, .next c, .next c, .acquire c lk, .sleep c 5 lk, .next c, .next c,
    .next c, .next c, .next c, .next c, .next c, .choose c q, .next c, .next c, .next c, .next c, .next c,
    .acquire c lk, .wakeup c 5, .next c, .next c, .next c, .next c]

end Runs

end AdaptiveXv6.SleepWakeup
