import AdaptiveXv6.Handoff

namespace AdaptiveXv6.HandoffSteps

open Handoff System

variable {m n l : Nat} {s t : System m n l} {e : Event m n l} {c : Fin n}

inductive Does (s : System m n l) : Event m n l → System m n l → Prop
  | sleep (c p chan lk) (hc : s.code c = .proc p) (hp : s.pc p = .run) (hl : s.lock lk = some c) :
      Does s (.sleep c chan lk) (s.thread p (.sleep .acquire chan lk))
  | yield (c p) (hc : s.code c = .proc p) (hp : s.pc p = .run) :
      Does s (.yield c) (s.thread p (.yield .acquire))
  | sleepAcquire (c p chan lk) (hc : s.code c = .proc p) (hp : s.pc p = .sleep .acquire chan lk)
      (hl : s.plock p = none) :
      Does s (.next c) ((s.setLock p (some c)).thread p (.sleep .release chan lk))
  | sleepRelease (c p chan lk) (hc : s.code c = .proc p) (hp : s.pc p = .sleep .release chan lk)
      (hl : s.lock lk = some c) : Does s (.next c) ((s.setCond lk none).thread p (.sleep .chan chan lk))
  | sleepChan (c p chan lk) (hc : s.code c = .proc p) (hp : s.pc p = .sleep .chan chan lk) :
      Does s (.next c) ((s.setChan p chan).thread p (.sleep .state chan lk))
  | sleepState (c p chan lk) (hc : s.code c = .proc p) (hp : s.pc p = .sleep .state chan lk) :
      Does s (.next c) ((s.setState p .sleeping).thread p (.sleep .swtch chan lk))
  | sleepSwtch (c p chan lk) (hc : s.code c = .proc p) (hp : s.pc p = .sleep .swtch chan lk) :
      Does s (.next c) (s.swtchOut c p (.sleep .tidy chan lk))
  | sleepTidy (c p chan lk) (hc : s.code c = .proc p) (hp : s.pc p = .sleep .tidy chan lk) :
      Does s (.next c) ((s.setChan p 0).thread p (.sleep .unlock chan lk))
  | sleepUnlock (c p chan lk) (hc : s.code c = .proc p) (hp : s.pc p = .sleep .unlock chan lk) :
      Does s (.next c) ((s.setLock p none).thread p (.sleep .reacquire chan lk))
  | sleepReacquire (c p chan lk) (hc : s.code c = .proc p) (hp : s.pc p = .sleep .reacquire chan lk)
      (hl : s.lock lk = none) : Does s (.next c) ((s.setCond lk (some c)).thread p .run)
  | yieldAcquire (c p) (hc : s.code c = .proc p) (hp : s.pc p = .yield .acquire) (hl : s.plock p = none) :
      Does s (.next c) ((s.setLock p (some c)).thread p (.yield .state))
  | yieldState (c p) (hc : s.code c = .proc p) (hp : s.pc p = .yield .state) :
      Does s (.next c) ((s.setState p .runnable).thread p (.yield .swtch))
  | yieldSwtch (c p) (hc : s.code c = .proc p) (hp : s.pc p = .yield .swtch) :
      Does s (.next c) (s.swtchOut c p (.yield .unlock))
  | yieldUnlock (c p) (hc : s.code c = .proc p) (hp : s.pc p = .yield .unlock) :
      Does s (.next c) ((s.setLock p none).thread p .run)
  | choose (c p) (hc : s.code c = .sched .idle) : Does s (.choose c p) (s.goto c (.sched (.pick p)))
  | pick (c p) (hc : s.code c = .sched (.pick p)) (hl : s.plock p = none) :
      Does s (.next c) ((s.setLock p (some c)).goto c (.sched (.test p)))
  | claim (c p) (hc : s.code c = .sched (.test p)) (hp : s.state p = .runnable) :
      Does s (.next c) ((s.setState p .running).goto c (.sched (.setProc p)))
  | gone (c p) (hc : s.code c = .sched (.test p)) : Does s (.next c) (s.goto c (.sched (.unlock p)))
  | setProc (c p) (hc : s.code c = .sched (.setProc p)) : Does s (.next c) (s.goto c (.sched (.swtch p)))
  | swtch (c p) (hc : s.code c = .sched (.swtch p)) :
      Does s (.next c) ((s.setSaved p false).goto c (.proc p))
  | clearProc (c p) (hc : s.code c = .sched (.clearProc p)) :
      Does s (.next c) (s.goto c (.sched (.unlock p)))
  | unlock (c p) (hc : s.code c = .sched (.unlock p)) :
      Does s (.next c) ((s.setLock p none).goto c (.sched .idle))
  | acquire (c lk u) (hc : s.free c = some u) (hl : s.lock lk = none) :
      Does s (.acquire c lk) (s.setCond lk (some c))
  | release (c lk u) (hc : s.free c = some u) (hl : s.lock lk = some c) :
      Does s (.release c lk) (s.setCond lk none)
  | wakeup (c chan u) (hc : s.free c = some u) :
      Does s (.wakeup c chan) (s.goto c (.job (.wakeup chan (List.finRange m)) u))
  | kill (c q u) (hc : s.free c = some u) : Does s (.kill c q) (s.goto c (.job (.kill q) u))
  | visit (c q u) (hc : s.free c = some u) : Does s (.visit c q) (s.goto c (.job (.visit q) u))
  | wakeupDone (c chan u) (hc : s.code c = .job (.wakeup chan []) u) :
      Does s (.next c) (s.goto c (returnTo u))
  | wakeupSelf (c chan q todo) (hc : s.code c = .job (.wakeup chan (q :: todo)) (some q)) :
      Does s (.next c) (s.goto c (.job (.wakeup chan todo) (some q)))
  | wakeupAcquire (c chan q todo u) (hc : s.code c = .job (.wakeup chan (q :: todo)) u)
      (hl : s.plock q = none) :
      Does s (.next c) ((s.setLock q (some c)).goto c (.job (.wakeupTest chan q todo) u))
  | wakeupTest (c chan q todo u) (hc : s.code c = .job (.wakeupTest chan q todo) u) :
      Does s (.next c) ((s.setState q (s.woken chan q)).goto c (.job (.wakeupRelease chan q todo) u))
  | wakeupRelease (c chan q todo u) (hc : s.code c = .job (.wakeupRelease chan q todo) u) :
      Does s (.next c) ((s.setLock q none).goto c (.job (.wakeup chan todo) u))
  | killAcquire (c q u) (hc : s.code c = .job (.kill q) u) (hl : s.plock q = none) :
      Does s (.next c) ((s.setLock q (some c)).goto c (.job (.killSet q) u))
  | killSet (c q u) (hc : s.code c = .job (.killSet q) u) :
      Does s (.next c) (((s.setKilled q).setState q (s.roused q)).goto c (.job (.killRelease q) u))
  | killRelease (c q u) (hc : s.code c = .job (.killRelease q) u) :
      Does s (.next c) ((s.setLock q none).goto c (returnTo u))
  | visitAcquire (c q u) (hc : s.code c = .job (.visit q) u) (hl : s.plock q = none) :
      Does s (.next c) ((s.setLock q (some c)).goto c (.job (.visitRelease q) u))
  | visitRelease (c q u) (hc : s.code c = .job (.visitRelease q) u) :
      Does s (.next c) ((s.setLock q none).goto c (returnTo u))

theorem free_eq_some {u : Option (Fin m)} (h : s.free c = some u) :
    (s.code c = .sched .idle ∧ u = none) ∨ ∃ p, s.code c = .proc p ∧ s.pc p = .run ∧ u = some p := by
  rw [free] at h
  split at h
  · cases h
    exact .inl ⟨‹_›, rfl⟩
  · split at h
    · cases h
      exact .inr ⟨_, ‹_›, ‹_›, rfl⟩
    · cases h
  · cases h

theorem free_process {p : Fin m} (h : s.free c = some (some p)) : s.code c = .proc p ∧ s.pc p = .run := by
  obtain ⟨-, hu⟩ | ⟨q, hc, hq, hu⟩ := free_eq_some h
  · cases hu
  · cases hu
    exact ⟨hc, hq⟩

theorem free_idle (h : s.free c = some none) : s.code c = .sched .idle := by
  obtain ⟨hc, -⟩ | ⟨q, -, -, hu⟩ := free_eq_some h
  · exact hc
  · cases hu

theorem does_sched {pc : SchedPc m} (hc : s.code c = .sched pc) (h : s.schedNext c pc = some t) :
    Does s (.next c) t := by
  cases pc with
  | idle => cases h
  | pick p =>
    simp only [schedNext] at h
    split at h
    · cases h
      exact .pick c p hc ‹_›
    · cases h
  | test p =>
    simp only [schedNext] at h
    split at h
    · cases h
      exact .claim c p hc ‹_›
    · cases h
      exact .gone c p hc
  | setProc p => cases h; exact .setProc c p hc
  | swtch p => cases h; exact .swtch c p hc
  | clearProc p => cases h; exact .clearProc c p hc
  | unlock p => cases h; exact .unlock c p hc

theorem does_job {j : Job m} {u : Option (Fin m)} (hc : s.code c = .job j u)
    (h : s.jobNext c u j = some t) : Does s (.next c) t := by
  cases j with
  | wakeup chan todo =>
    cases todo with
    | nil => cases h; exact .wakeupDone c chan u hc
    | cons q todo =>
      simp only [jobNext] at h
      split at h
      · rename_i hu
        cases h
        subst hu
        exact .wakeupSelf c chan q todo hc
      · split at h
        · cases h
          exact .wakeupAcquire c chan q todo u hc ‹_›
        · cases h
  | wakeupTest chan q todo => cases h; exact .wakeupTest c chan q todo u hc
  | wakeupRelease chan q todo => cases h; exact .wakeupRelease c chan q todo u hc
  | kill q =>
    simp only [jobNext] at h
    split at h
    · cases h
      exact .killAcquire c q u hc ‹_›
    · cases h
  | killSet q => cases h; exact .killSet c q u hc
  | killRelease q => cases h; exact .killRelease c q u hc
  | visit q =>
    simp only [jobNext] at h
    split at h
    · cases h
      exact .visitAcquire c q u hc ‹_›
    · cases h
  | visitRelease q => cases h; exact .visitRelease c q u hc

theorem does_sleep {p : Fin m} {pc : SleepPc} {chan : Nat} {lk : Fin l} (hc : s.code c = .proc p)
    (hp : s.pc p = .sleep pc chan lk) (h : s.sleepNext c p chan lk pc = some t) : Does s (.next c) t := by
  cases pc with
  | acquire =>
    simp only [sleepNext] at h
    split at h
    · cases h
      exact .sleepAcquire c p chan lk hc hp ‹_›
    · cases h
  | release =>
    simp only [sleepNext] at h
    split at h
    · cases h
      exact .sleepRelease c p chan lk hc hp ‹_›
    · cases h
  | chan => cases h; exact .sleepChan c p chan lk hc hp
  | state => cases h; exact .sleepState c p chan lk hc hp
  | swtch =>
    simp only [sleepNext] at h
    split at h
    · cases h
      exact .sleepSwtch c p chan lk hc hp
    · cases h
  | tidy => cases h; exact .sleepTidy c p chan lk hc hp
  | unlock => cases h; exact .sleepUnlock c p chan lk hc hp
  | reacquire =>
    simp only [sleepNext] at h
    split at h
    · cases h
      exact .sleepReacquire c p chan lk hc hp ‹_›
    · cases h

theorem does_yield {p : Fin m} {pc : YieldPc} (hc : s.code c = .proc p) (hp : s.pc p = .yield pc)
    (h : s.yieldNext c p pc = some t) : Does s (.next c) t := by
  cases pc with
  | acquire =>
    simp only [yieldNext] at h
    split at h
    · cases h
      exact .yieldAcquire c p hc hp ‹_›
    · cases h
  | state => cases h; exact .yieldState c p hc hp
  | swtch =>
    simp only [yieldNext] at h
    split at h
    · cases h
      exact .yieldSwtch c p hc hp
    · cases h
  | unlock => cases h; exact .yieldUnlock c p hc hp

theorem does_next (h : s.next c = some t) : Does s (.next c) t := by
  rw [next] at h
  split at h
  · exact does_sched ‹_› h
  · exact does_job ‹_› h
  · split at h
    · cases h
    · exact does_sleep ‹_› ‹_› h
    · exact does_yield ‹_› ‹_› h

theorem does_of_step (h : s.step e = some t) : Does s e t := by
  cases e with
  | next c => exact does_next h
  | acquire c lk | release c lk =>
    simp only [step] at h
    split at h
    · split at h
      · cases h
        constructor <;> assumption
      · cases h
    · cases h
  | sleep c chan lk =>
    simp only [step] at h
    split at h
    · split at h
      · rename_i hf hl
        cases h
        obtain ⟨hc, hp⟩ := free_process hf
        exact .sleep c _ chan lk hc hp hl
      · cases h
    · cases h
  | yield c =>
    simp only [step] at h
    split at h
    · split at h
      · rename_i hf hl
        cases h
        obtain ⟨hc, hp⟩ := free_process hf
        exact .yield c _ hc hp
      · cases h
    · cases h
  | wakeup c chan | kill c q | visit c q =>
    simp only [step] at h
    split at h
    · cases h
      constructor
      assumption
    · cases h
  | choose c p =>
    simp only [step] at h
    split at h
    · split at h
      · cases h
        exact .choose c p (free_idle ‹_›)
      · cases h
    · cases h

end AdaptiveXv6.HandoffSteps
