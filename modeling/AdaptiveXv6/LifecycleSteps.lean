import AdaptiveXv6.Exclusion
import AdaptiveXv6.Lifecycle

namespace AdaptiveXv6.LifecycleSteps

open Process Machine Lifecycle World

variable {n : Nat}

def inLoop : Code → Bool
  | .take _ _ _ | .room _ _ _ => true
  | .test x | .post x _ _ | .check x | .ret x _ => x.lk ≠ .wait
  | _ => false

inductive Acts (w : World n) : Lifecycle.Event n → World n → Prop
  | core {e k} (ha : w.allows e) (hk : w.core.step e = some k) : Acts w (.core e) { w with core := k }
  | setRes {c p r} (hme : w.me c = some p) (hp : w.code p = .user) : Acts w (.setRes c r) (w.setRes p r)
  | allocproc {c p np k} (hme : w.me c = some p) (hp : w.code p = .user)
      (hk : w.core.step (.allocproc c np) = some k) :
      Acts w (.allocproc c np) ({ w with core := k }.goto p (.forkCopy np))
  | forkFail {c p np k} (hpc : w.core.pc c = .forking np) (hpr : w.core.proc c = some p)
      (hk : w.core.step (.forkFail c) = some k) :
      Acts w (.forkFail c) (({ w with core := k }.freeproc np).goto p .user)
  | forkDone {c p np k} (hpc : w.core.pc c = .forking np) (hpr : w.core.proc c = some p)
      (hk : w.core.step (.forkDone c) = some k) :
      Acts w (.forkDone c) (({ w with core := k }.setRes np (w.res p)).goto p (.forkParent np))
  | forkParent {c p np o} (hme : w.me c = some p) (hp : w.code p = .forkParent np)
      (hl : w.lock .wait = none) : Acts w (.run c o) ((w.adopt np (some p)).goto p (.forkRun np))
  | forkRun {c p np o k} (hme : w.me c = some p) (hp : w.code p = .forkRun np)
      (hk : w.core.step (.forkRun c np) = some k) : Acts w (.run c o) ({ w with core := k }.goto p .user)
  | exit {c p status} (hme : w.me c = some p) (hp : w.code p = .user) (hi : p ≠ initproc) :
      Acts w (.exit c status) (w.goto p (.exitFiles status 0))
  | exitFile {c p status fd o} (hme : w.me c = some p) (hp : w.code p = .exitFiles status fd) :
      Acts w (.run c o)
        ((w.setRes p { w.res p with ofile := Function.update (w.res p).ofile fd none }).goto p
          (afterFile status fd))
  | exitCwd {c p status o} (hme : w.me c = some p) (hp : w.code p = .exitCwd status) :
      Acts w (.run c o) ((w.setRes p { w.res p with cwd := none }).goto p (.exitLock status))
  | exitLock {c p status o} (hme : w.me c = some p) (hp : w.code p = .exitLock status)
      (hl : w.lock .wait = none) :
      Acts w (.run c o) ((w.setLock .wait (some p)).goto p (.reparent status firstSlot))
  | adopt {c p status i o} (hme : w.me c = some p) (hp : w.code p = .reparent status i)
      (hi : w.parent i = some p) :
      Acts w (.run c o) ((w.adopt i (some initproc)).goto p (.wakeInit status i))
  | pass {c p status i o} (hme : w.me c = some p) (hp : w.code p = .reparent status i)
      (hi : w.parent i ≠ some p) : Acts w (.run c o) (w.goto p (afterReparent status i))
  | wakeInit {c p status i o k} (hme : w.me c = some p) (hp : w.code p = .wakeInit status i)
      (hk : w.core.step (.wakeup c (procChan initproc)) = some k) :
      Acts w (.run c o) ({ w with core := k }.goto p (afterReparent status i))
  | wakeParent {c p status o k} (hme : w.me c = some p) (hp : w.code p = .wakeParent status)
      (hk : w.core.step (.wakeup c (parentChan (w.parent p))) = some k) :
      Acts w (.run c o) ({ w with core := k }.goto p (.exitSelf status))
  | zombie {c p status o k} (hme : w.me c = some p) (hp : w.code p = .exitSelf status)
      (hk : w.core.step (.kexit c status) = some k) :
      Acts w (.run c o) ({ w with core := k }.goto p .exitRelease)
  | unlockWait {c p} (hpc : w.core.pc c = .switching) (hpr : w.core.proc c = some p)
      (hp : w.code p = .exitRelease) : Acts w (.unlockWait c) ((w.setLock .wait none).goto p .exited)
  | call {c p x} (hme : w.me c = some p) (hp : w.code p = .user) :
      Acts w (.call c x) (w.goto p (.enter x))
  | enter {c p x o} (hme : w.me c = some p) (hp : w.code p = .enter x) (hl : w.lock x.lk = none) :
      Acts w (.run c o) ((w.setLock x.lk (some p)).goto p (x.started w.core.ticks).head)
  | reacquire {c p x o} (hme : w.me c = some p) (hp : w.code p = .asleep x) (hl : w.lock x.lk = none) :
      Acts w (.run c o) ((w.setLock x.lk (some p)).goto p x.head)
  | scanOther {c p addr i havekids o} (hme : w.me c = some p) (hp : w.code p = .scan addr i havekids)
      (hi : w.parent i ≠ some p) : Acts w (.run c o) (w.goto p (afterScan addr i havekids))
  | scanAlive {c p addr i havekids o} (hme : w.me c = some p) (hp : w.code p = .scan addr i havekids)
      (hi : w.parent i = some p) (hs : w.state i ≠ .zombie) :
      Acts w (.run c o) (w.goto p (afterScan addr i true))
  | scanFault {c p addr i havekids} (hme : w.me c = some p) (hp : w.code p = .scan addr i havekids)
      (hi : w.parent i = some p) (hs : w.state i = .zombie) (ha : addr ≠ 0) :
      Acts w (.run c .fail) (w.goto p (.ret (.wait addr) (-1)))
  | reap {c p addr i havekids o k} (hme : w.me c = some p) (hp : w.code p = .scan addr i havekids)
      (hi : w.parent i = some p) (hs : w.state i = .zombie) (ho : ¬(addr ≠ 0 ∧ o = .fail))
      (hk : w.core.step (.kwait c i) = some k) :
      Acts w (.run c o)
        ((({ w with core := k }.freeproc i).setStatus p
          (if addr ≠ 0 then some (w.core.procs i).xstate else none)).goto p
          (.ret (.wait addr) (w.core.procs i).pid))
  | killed {c p x o} (hme : w.me c = some p) (hp : w.code p = .check x)
      (hk : (w.core.procs p).killed = true) : Acts w (.run c o) (w.goto p (.ret x (-1)))
  | willing {c p x o} (hme : w.me c = some p) (hp : w.code p = .check x)
      (hk : (w.core.procs p).killed = false) : Acts w (.run c o) (w.goto p x.willing)
  | full {c p pi i m o k} (hme : w.me c = some p) (hp : w.code p = .room pi i m)
      (hk : w.core.step (.wakeup c (readChan pi)) = some k) :
      Acts w (.run c o) ({ w with core := k }.goto p (.doze (.write pi i m)))
  | doze {c p x o k} (hme : w.me c = some p) (hp : w.code p = .doze x)
      (hk : w.core.step (.sleep c (x.chan p)) = some k) :
      Acts w (.run c o) (({ w with core := k }.setLock x.lk none).goto p (.asleep x))
  | loop {c p o y} {pipe : Nat → Pipe} {cons : Console} (hme : w.me c = some p) (hp : inLoop (w.code p))
      (hy : inLoop y) (hroom : ∀ pi i m, y ≠ .room pi i m) (hret : ∀ x a, w.code p ≠ .ret x a) :
      Acts w (.run c o) ({ w with pipe := pipe, cons := cons }.goto p y)
  | post {c p x chan a o k} (hme : w.me c = some p) (hp : w.code p = .post x chan a)
      (hk : w.core.step (.wakeup c chan) = some k) :
      Acts w (.run c o) ({ w with core := k }.goto p (.ret x a))
  | ret {c p x a o} (hme : w.me c = some p) (hp : w.code p = .ret x a) :
      Acts w (.run c o) (((w.setLock x.lk none).setRet p a).goto p .user)
  | pipe {e pi x} (he : (∃ c, e = .pipealloc c pi) ∨ ∃ c b, e = .pipeclose c pi b) : Acts w e (w.setPipe pi x)
  | consoleintr {c a} : Acts w (.consoleintr c a) { w with cons := { w.cons with w := a } }

variable {w v : World n} {e : Lifecycle.Event n} {c : Fin n} {p : Slot} {o : Choice}

theorem lift_eq_some {e : Machine.Event n} {f : World n → World n} (h : w.lift e f = some v) :
    ∃ k, w.core.step e = some k ∧ v = f { w with core := k } := by
  obtain ⟨k, hk, rfl⟩ := Option.map_eq_some_iff.mp h
  exact ⟨k, hk, rfl⟩

theorem isFree_lock {lk : Lk} (h : w.isFree lk = true) : w.lock lk = none := by
  simp only [isFree, Bool.and_eq_true, decide_eq_true_eq] at h
  exact h.1

section Sections

variable (hme : w.me c = some p)

include hme

theorem acts_scan {addr : Nat} {i : Slot} {havekids : Bool} (hp : w.code p = .scan addr i havekids)
    (h : w.scanNext c p addr i havekids o = some v) : Acts w (.run c o) v := by
  rw [scanNext] at h
  split at h
  · cases h
    exact .scanOther hme hp ‹_›
  · rename_i hi
    have hi := not_not.mp hi
    split at h
    · cases h
    · split at h
      · cases h
        exact .scanAlive hme hp hi ‹_›
      · rename_i hs
        have hs := not_not.mp hs
        split at h
        · rename_i ho
          obtain ⟨ha, rfl⟩ := ho
          cases h
          exact .scanFault hme hp hi hs ha
        · obtain ⟨k, hk, rfl⟩ := lift_eq_some h
          exact .reap hme hp hi hs ‹_› hk

theorem acts_test {x : Site} (hp : w.code p = .test x) (h : w.testNext p o x = some v) :
    Acts w (.run c o) v := by
  have hin : x.lk ≠ .wait → inLoop (w.code p) := by
    intro hx
    simpa [hp, inLoop] using hx
  have hret : ∀ x a, w.code p ≠ .ret x a := by simp [hp]
  cases x with
  | wait addr => cases h
  | read pi m =>
    simp only [testNext] at h
    split at h <;> cases h
    · exact .loop hme (hin (by simp [Site.lk])) rfl (by simp) hret
    · exact .loop hme (hin (by simp [Site.lk])) rfl (by simp) hret
  | write pi i m =>
    simp only [testNext] at h
    split at h
    · split at h <;> cases h
      · exact .loop hme (hin (by simp [Site.lk])) rfl (by simp) hret
      · exact .loop hme (hin (by simp [Site.lk])) rfl (by simp) hret
    · cases h
      exact .loop hme (hin (by simp [Site.lk])) rfl (by simp) hret
  | console m target =>
    simp only [testNext] at h
    split at h
    · split at h
      · cases h
        exact .loop hme (hin (by simp [Site.lk])) rfl (by simp) hret
      · cases o with
        | eof =>
          simp only at h
          split at h <;> cases h
          · exact .loop hme (hin (by simp [Site.lk])) rfl (by simp) hret
          · exact .loop hme (hin (by simp [Site.lk])) rfl (by simp) hret
        | fail | newline | ok =>
          cases h
          exact .loop hme (hin (by simp [Site.lk])) rfl (by simp) hret
    · cases h
      exact .loop hme (hin (by simp [Site.lk])) rfl (by simp) hret
  | pause ticks0 m =>
    simp only [testNext] at h
    split at h <;> cases h
    · exact .loop hme (hin (by simp [Site.lk])) rfl (by simp) hret
    · exact .loop hme (hin (by simp [Site.lk])) rfl (by simp) hret

theorem acts_room {pi : Nat} {i m : Int} (hp : w.code p = .room pi i m)
    (h : w.roomNext c p pi i m o = some v) : Acts w (.run c o) v := by
  have hin : inLoop (w.code p) := by rw [hp]; rfl
  have hret : ∀ x a, w.code p ≠ .ret x a := by simp [hp]
  rw [roomNext] at h
  split at h
  · obtain ⟨k, hk, rfl⟩ := lift_eq_some h
    exact .full hme hp hk
  · split at h <;> cases h
    · exact .loop hme hin rfl (by simp) hret
    · exact .loop hme hin rfl (by simp) hret

theorem acts_take {pi : Nat} {i m : Int} (hp : w.code p = .take pi i m) :
    Acts w (.run c o) (w.takeNext p pi i m o) := by
  have hin : inLoop (w.code p) := by rw [hp]; rfl
  have hret : ∀ x a, w.code p ≠ .ret x a := by simp [hp]
  rw [takeNext]
  split
  · split
    · exact .loop hme hin rfl (by simp) hret
    · exact .loop hme hin rfl (by simp) hret
  · exact .loop hme hin rfl (by simp) hret

theorem acts_next {y : Code} (hp : w.code p = y) (h : w.next c p o y = some v) : Acts w (.run c o) v := by
  cases y with
  | user | forkCopy np | exitRelease | exited => cases h
  | forkParent np =>
    simp only [next] at h
    split at h <;> cases h
    exact .forkParent hme hp (isFree_lock ‹_›)
  | forkRun np =>
    simp only [next] at h
    obtain ⟨k, hk, rfl⟩ := lift_eq_some h
    exact .forkRun hme hp hk
  | exitFiles status fd => cases h; exact .exitFile hme hp
  | exitCwd status => cases h; exact .exitCwd hme hp
  | exitLock status =>
    simp only [next] at h
    split at h <;> cases h
    exact .exitLock hme hp (isFree_lock ‹_›)
  | reparent status i =>
    simp only [next] at h
    split at h <;> cases h
    · exact .adopt hme hp ‹_›
    · exact .pass hme hp ‹_›
  | wakeInit status i =>
    simp only [next] at h
    obtain ⟨k, hk, rfl⟩ := lift_eq_some h
    exact .wakeInit hme hp hk
  | wakeParent status =>
    simp only [next] at h
    obtain ⟨k, hk, rfl⟩ := lift_eq_some h
    exact .wakeParent hme hp hk
  | exitSelf status =>
    simp only [next] at h
    obtain ⟨k, hk, rfl⟩ := lift_eq_some h
    exact .zombie hme hp hk
  | enter x =>
    simp only [next] at h
    split at h <;> cases h
    exact .enter hme hp (isFree_lock ‹_›)
  | asleep x =>
    simp only [next] at h
    split at h <;> cases h
    exact .reacquire hme hp (isFree_lock ‹_›)
  | scan addr i havekids => exact acts_scan hme hp h
  | test x => exact acts_test hme hp h
  | check x =>
    simp only [next] at h
    split at h
    · split at h <;> cases h
      · exact .killed hme hp ‹_›
      · rename_i hk
        exact .willing hme hp (Bool.not_eq_true _ ▸ hk)
    · cases h
  | room pi i m => exact acts_room hme hp h
  | doze x =>
    simp only [next] at h
    obtain ⟨k, hk, rfl⟩ := lift_eq_some h
    exact .doze hme hp hk
  | take pi i m =>
    cases h
    exact acts_take hme hp
  | post x chan a =>
    simp only [next] at h
    obtain ⟨k, hk, rfl⟩ := lift_eq_some h
    exact .post hme hp hk
  | ret x a => cases h; exact .ret hme hp

end Sections

theorem acts_of_step (h : w.step e = some v) : Acts w e v := by
  cases e with
  | core e =>
    simp only [step] at h
    split at h
    · obtain ⟨k, hk, rfl⟩ := lift_eq_some h
      exact .core ‹_› hk
    · cases h
  | run c o =>
    simp only [step] at h
    split at h
    · exact acts_next ‹_› rfl h
    · cases h
  | setRes c r =>
    simp only [step] at h
    split at h
    · split at h <;> cases h
      exact .setRes ‹_› ‹_›
    · cases h
  | allocproc c np =>
    simp only [step] at h
    split at h
    · split at h
      · obtain ⟨k, hk, rfl⟩ := lift_eq_some h
        exact .allocproc ‹_› ‹_› hk
      · cases h
    · cases h
  | forkFail c =>
    simp only [step] at h
    split at h
    · obtain ⟨k, hk, rfl⟩ := lift_eq_some h
      exact .forkFail ‹_› ‹_› hk
    · cases h
  | forkDone c =>
    simp only [step] at h
    split at h
    · obtain ⟨k, hk, rfl⟩ := lift_eq_some h
      exact .forkDone ‹_› ‹_› hk
    · cases h
  | exit c status =>
    simp only [step] at h
    split at h
    · split at h
      · rename_i hp
        cases h
        exact .exit ‹_› hp.1 hp.2
      · cases h
    · cases h
  | unlockWait c =>
    simp only [step] at h
    split at h
    · split at h <;> cases h
      exact .unlockWait ‹_› ‹_› ‹_›
    · cases h
  | call c x =>
    simp only [step] at h
    split at h
    · split at h
      · rename_i hp
        cases h
        exact .call ‹_› hp.1
      · cases h
    · cases h
  | pipealloc c pi =>
    simp only [step] at h
    split at h
    · split at h <;> cases h
      exact .pipe (.inl ⟨c, rfl⟩)
    · cases h
  | pipeclose c pi b =>
    simp only [step] at h
    split at h
    · split at h <;> cases h
      exact .pipe (.inr ⟨c, b, rfl⟩)
    · cases h
  | consoleintr c a =>
    simp only [step] at h
    split at h <;> cases h
    exact .consoleintr

end AdaptiveXv6.LifecycleSteps
