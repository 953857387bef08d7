import AdaptiveXv6.Process
import AdaptiveXv6.Runs
import Mathlib.Data.List.FinRange

namespace AdaptiveXv6.Handoff

open Process Function

inductive SleepPc
  | acquire | release | chan | state | swtch | tidy | unlock | reacquire
  deriving DecidableEq, Repr

inductive YieldPc
  | acquire | state | swtch | unlock
  deriving DecidableEq, Repr

/-- Where the kernel thread of a process is, on a CPU or in its saved context. -/
inductive Pc (l : Nat)
  | run
  | sleep (stage : SleepPc) (chan : Nat) (lk : Fin l)
  | yield (stage : YieldPc)
  deriving DecidableEq, Repr

inductive SchedPc (m : Nat)
  | idle
  | pick (p : Fin m)
  | test (p : Fin m)
  | setProc (p : Fin m)
  | swtch (p : Fin m)
  | clearProc (p : Fin m)
  | unlock (p : Fin m)
  deriving DecidableEq, Repr

/-- The loops over the process table: wakeup() with the slots to visit, the visit of kkill() that finds its
pid, and one that only reads. -/
inductive Job (m : Nat)
  | wakeup (chan : Nat) (todo : List (Fin m))
  | wakeupTest (chan : Nat) (q : Fin m) (todo : List (Fin m))
  | wakeupRelease (chan : Nat) (q : Fin m) (todo : List (Fin m))
  | kill (q : Fin m)
  | killSet (q : Fin m)
  | killRelease (q : Fin m)
  | visit (q : Fin m)
  | visitRelease (q : Fin m)
  deriving DecidableEq, Repr

/-- What a CPU executes: scheduler(), the thread of a process, or a call by that thread or by an interrupt
handler on top of it. -/
inductive Code (m : Nat)
  | sched (pc : SchedPc m)
  | proc (p : Fin m)
  | job (j : Job m) (myproc : Option (Fin m))
  deriving DecidableEq, Repr

/-- A spinlock records the CPU that holds it. A context is saved while its registers are in memory. -/
structure System (m n l : Nat) where
  code : Fin n → Code m
  pc : Fin m → Pc l
  plock : Fin m → Option (Fin n)
  lock : Fin l → Option (Fin n)
  state : Fin m → ProcState
  chan : Fin m → Nat
  killed : Fin m → Bool
  saved : Fin m → Bool

inductive Event (m n l : Nat)
  | next (c : Fin n)
  | acquire (c : Fin n) (lk : Fin l)
  | release (c : Fin n) (lk : Fin l)
  | sleep (c : Fin n) (chan : Nat) (lk : Fin l)
  | yield (c : Fin n)
  | wakeup (c : Fin n) (chan : Nat)
  | kill (c : Fin n) (q : Fin m)
  | visit (c : Fin n) (q : Fin m)
  | choose (c : Fin n) (p : Fin m)
  deriving DecidableEq, Repr

variable {m n l : Nat}

namespace System

variable (s : System m n l) (c : Fin n)

def goto (code : Code m) : System m n l := { s with code := update s.code c code }

def thread (p : Fin m) (pc : Pc l) : System m n l := { s with pc := update s.pc p pc }

def setLock (p : Fin m) (h : Option (Fin n)) : System m n l := { s with plock := update s.plock p h }

def setCond (lk : Fin l) (h : Option (Fin n)) : System m n l := { s with lock := update s.lock lk h }

def setState (p : Fin m) (x : ProcState) : System m n l := { s with state := update s.state p x }

def setChan (p : Fin m) (chan : Nat) : System m n l := { s with chan := update s.chan p chan }

def setKilled (p : Fin m) : System m n l := { s with killed := update s.killed p true }

def setSaved (p : Fin m) (b : Bool) : System m n l := { s with saved := update s.saved p b }

/-- The CPU is at the head of the loop of scheduler() or in code of a process not modelled here, with no call
in progress. -/
def free : Option (Option (Fin m)) :=
  match s.code c with
  | .sched .idle => some none
  | .proc p => match s.pc p with
    | .run => some (some p)
    | _ => none
  | _ => none

def returnTo : Option (Fin m) → Code m
  | some p => .proc p
  | none => .sched .idle

/-- sched() panics unless p->lock is the only lock its CPU holds. -/
def onlyLock : Bool := ∀ lk, s.lock lk ≠ some c

/-- The last statement of sched() on CPU c: the registers of p are saved and the CPU goes on in scheduler(). -/
def swtchOut (p : Fin m) (pc : Pc l) : System m n l :=
  ((s.setSaved p true).thread p pc).goto c (.sched (.clearProc p))

def sleepNext (p : Fin m) (chan : Nat) (lk : Fin l) : SleepPc → Option (System m n l)
  | .acquire =>
    if s.plock p = none then some ((s.setLock p (some c)).thread p (.sleep .release chan lk)) else none
  | .release =>
    if s.lock lk = some c then some ((s.setCond lk none).thread p (.sleep .chan chan lk)) else none
  | .chan => some ((s.setChan p chan).thread p (.sleep .state chan lk))
  | .state => some ((s.setState p .sleeping).thread p (.sleep .swtch chan lk))
  | .swtch => if s.onlyLock c then some (s.swtchOut c p (.sleep .tidy chan lk)) else none
  | .tidy => some ((s.setChan p 0).thread p (.sleep .unlock chan lk))
  | .unlock => some ((s.setLock p none).thread p (.sleep .reacquire chan lk))
  | .reacquire => if s.lock lk = none then some ((s.setCond lk (some c)).thread p .run) else none

def yieldNext (p : Fin m) : YieldPc → Option (System m n l)
  | .acquire => if s.plock p = none then some ((s.setLock p (some c)).thread p (.yield .state)) else none
  | .state => some ((s.setState p .runnable).thread p (.yield .swtch))
  | .swtch => if s.onlyLock c then some (s.swtchOut c p (.yield .unlock)) else none
  | .unlock => some ((s.setLock p none).thread p .run)

def schedNext : SchedPc m → Option (System m n l)
  | .idle => none
  | .pick p => if s.plock p = none then some ((s.setLock p (some c)).goto c (.sched (.test p))) else none
  | .test p =>
    if s.state p = .runnable then some ((s.setState p .running).goto c (.sched (.setProc p)))
    else some (s.goto c (.sched (.unlock p)))
  | .setProc p => some (s.goto c (.sched (.swtch p)))
  | .swtch p => some ((s.setSaved p false).goto c (.proc p))
  | .clearProc p => some (s.goto c (.sched (.unlock p)))
  | .unlock p => some ((s.setLock p none).goto c (.sched .idle))

def woken (chan : Nat) (q : Fin m) : ProcState :=
  if s.state q = .sleeping ∧ s.chan q = chan then .runnable else s.state q

def roused (q : Fin m) : ProcState := if s.state q = .sleeping then .runnable else s.state q

def jobNext (myproc : Option (Fin m)) : Job m → Option (System m n l)
  | .wakeup _ [] => some (s.goto c (returnTo myproc))
  | .wakeup chan (q :: todo) =>
    if myproc = some q then some (s.goto c (.job (.wakeup chan todo) myproc))
    else if s.plock q = none then
      some ((s.setLock q (some c)).goto c (.job (.wakeupTest chan q todo) myproc))
    else none
  | .wakeupTest chan q todo =>
    some ((s.setState q (s.woken chan q)).goto c (.job (.wakeupRelease chan q todo) myproc))
  | .wakeupRelease chan q todo => some ((s.setLock q none).goto c (.job (.wakeup chan todo) myproc))
  | .kill q =>
    if s.plock q = none then some ((s.setLock q (some c)).goto c (.job (.killSet q) myproc)) else none
  | .killSet q => some (((s.setKilled q).setState q (s.roused q)).goto c (.job (.killRelease q) myproc))
  | .killRelease q => some ((s.setLock q none).goto c (returnTo myproc))
  | .visit q =>
    if s.plock q = none then some ((s.setLock q (some c)).goto c (.job (.visitRelease q) myproc)) else none
  | .visitRelease q => some ((s.setLock q none).goto c (returnTo myproc))

/-- An acquire() of a lock that is held and a statement that panics make no step. -/
def next : Option (System m n l) :=
  match s.code c with
  | .sched pc => s.schedNext c pc
  | .job j myproc => s.jobNext c myproc j
  | .proc p => match s.pc p with
    | .run => none
    | .sleep pc chan lk => s.sleepNext c p chan lk pc
    | .yield pc => s.yieldNext c p pc

def step (s : System m n l) : Event m n l → Option (System m n l)
  | .next c => s.next c
  | .acquire c lk => match s.free c with
    | some _ => if s.lock lk = none then some (s.setCond lk (some c)) else none
    | none => none
  | .release c lk => match s.free c with
    | some _ => if s.lock lk = some c then some (s.setCond lk none) else none
    | none => none
  | .sleep c chan lk => match s.free c with
    | some (some p) => if s.lock lk = some c then some (s.thread p (.sleep .acquire chan lk)) else none
    | _ => none
  -- interrupts are off while a lock is held
  | .yield c => match s.free c with
    | some (some p) => if s.onlyLock c then some (s.thread p (.yield .acquire)) else none
    | _ => none
  | .wakeup c chan => match s.free c with
    | some myproc => some (s.goto c (.job (.wakeup chan (List.finRange m)) myproc))
    | none => none
  | .kill c q => match s.free c with
    | some myproc => some (s.goto c (.job (.kill q) myproc))
    | none => none
  | .visit c q => match s.free c with
    | some myproc => some (s.goto c (.job (.visit q) myproc))
    | none => none
  | .choose c p => match s.free c with
    | some none => if s.onlyLock c then some (s.goto c (.sched (.pick p))) else none
    | _ => none

end System

/-- Every process is about to run for the first time and will release its own lock
in forkret(), as after a yield(). -/
def start (m n l : Nat) : System m n l where
  code _ := .sched .idle
  pc _ := .yield .unlock
  plock _ := none
  lock _ := none
  state _ := .runnable
  chan _ := 0
  killed _ := false
  saved _ := true

abbrev Run (m n l : Nat) := Runs.Run (System.step (m := m) (n := n) (l := l)) (start m n l)

end AdaptiveXv6.Handoff
