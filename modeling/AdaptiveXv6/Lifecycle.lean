import AdaptiveXv6.Machine

namespace AdaptiveXv6.Lifecycle

open Words Process Machine Function

abbrev NOFILE : Nat := 16
abbrev PIPESIZE : Nat := 512

/-- What a process owns besides its record: memory size, open files and current directory. -/
structure Res where
  sz : Nat
  ofile : Fin NOFILE → Option Nat
  cwd : Option Nat

structure Pipe where
  nread : Nat
  nwrite : Nat
  readopen : Bool
  writeopen : Bool
  deriving DecidableEq, Repr

structure Console where
  r : Nat
  w : Nat

/-- The spinlocks under which processes call sleep(). -/
inductive Lk
  | wait
  | pipe (pi : Nat)
  | cons
  | ticks
  deriving DecidableEq, Repr

/-- The calls waiting in a loop which kill() is to interrupt, with their local variables. -/
inductive Site
  | wait (addr : Nat)
  | read (pi : Nat) (n : Int)
  | write (pi : Nat) (i n : Int)
  | console (n target : Int)
  | pause (ticks0 : Nat) (n : Int)
  deriving DecidableEq, Repr

/-- What the kernel thread of a process does next. Code that is not modelled is user. -/
inductive Code
  | user
  | forkCopy (np : Slot)
  | forkParent (np : Slot)
  | forkRun (np : Slot)
  | exitFiles (status : Int) (fd : Fin NOFILE)
  | exitCwd (status : Int)
  | exitLock (status : Int)
  | reparent (status : Int) (i : Slot)
  | wakeInit (status : Int) (i : Slot)
  | wakeParent (status : Int)
  | exitSelf (status : Int)
  | exitRelease
  | exited
  | enter (x : Site)
  | scan (addr : Nat) (i : Slot) (havekids : Bool)
  | test (x : Site)
  | check (x : Site)
  | room (pi : Nat) (i n : Int)
  | doze (x : Site)
  | asleep (x : Site)
  | take (pi : Nat) (i n : Int)
  | post (x : Site) (chan : Nat) (v : Int)
  | ret (x : Site) (v : Int)
  deriving DecidableEq, Repr

inductive Choice
  | ok | fail | eof | newline
  deriving DecidableEq, Repr

def consChan : Nat := 2

def procChan (p : Slot) : Nat := 3 + p.val

def isProcChan (chan : Nat) : Bool := 3 ≤ chan && chan < 3 + NPROC

def readChan (pi : Nat) : Nat := 3 + NPROC + 2 * pi

def writeChan (pi : Nat) : Nat := 4 + NPROC + 2 * pi

def parentChan : Option Slot → Nat
  | some q => procChan q
  | none => 0

namespace Site

def lk : Site → Lk
  | .wait _ => .wait
  | .read pi _ | .write pi _ _ => .pipe pi
  | .console _ _ => .cons
  | .pause _ _ => .ticks

def chan (p : Slot) : Site → Nat
  | .wait _ => procChan p
  | .read pi _ => readChan pi
  | .write pi _ _ => writeChan pi
  | .console _ _ => consChan
  | .pause _ _ => ticksChan

def begins : Site → Bool
  | .wait _ | .read _ _ => true
  | .write _ i _ => i = 0
  | .console n target => n = target
  | .pause ticks0 _ => ticks0 = 0

def started (ticks : Nat) : Site → Site
  | .pause _ n => .pause ticks n
  | x => x

def head : Site → Code
  | .wait addr => .scan addr firstSlot false
  | x => .test x

def willing : Site → Code
  | .write pi i n => .room pi i n
  | x => .doze x

end Site

def afterFile (status : Int) (fd : Fin NOFILE) : Code :=
  if h : fd.val + 1 < NOFILE then .exitFiles status ⟨fd.val + 1, h⟩ else .exitCwd status

def afterReparent (status : Int) (i : Slot) : Code :=
  match next? i with
  | some j => .reparent status j
  | none => .wakeParent status

def afterScan (addr : Nat) (i : Slot) (havekids : Bool) : Code :=
  match next? i with
  | some j => .scan addr j havekids
  | none => if havekids then .check (.wait addr) else .ret (.wait addr) (-1)

def interruptible : Code → Bool
  | .user | .forkParent _ | .forkRun _ | .exitFiles _ _ | .exitCwd _ | .exitLock _ | .enter _
  | .asleep _ => true
  | _ => false

/-- The places at which a process may also sleep on something else. -/
def mayBlock : Code → Bool
  | .user | .exitFiles _ _ | .exitCwd _ => true
  | _ => false

/-- The scheduling state with what fork(), exit(), wait() and the waiting loops share. A condition lock records
its holder. -/
structure World (n : Nat) where
  core : Kernel n
  parent : Slot → Option Slot
  res : Slot → Res
  code : Slot → Code
  lock : Lk → Option Slot
  pipe : Nat → Pipe
  cons : Console
  ret : Slot → Int
  status : Slot → Option Int

/-- A step of the scheduling state, a section of the code of the process on a CPU, or the start of a system
call. -/
inductive Event (n : Nat)
  | core (e : Machine.Event n)
  | run (c : Fin n) (o : Choice)
  | setRes (c : Fin n) (r : Res)
  | allocproc (c : Fin n) (np : Slot)
  | forkFail (c : Fin n)
  | forkDone (c : Fin n)
  | exit (c : Fin n) (status : Int)
  | unlockWait (c : Fin n)
  | call (c : Fin n) (x : Site)
  | pipealloc (c : Fin n) (pi : Nat)
  | pipeclose (c : Fin n) (pi : Nat) (writable : Bool)
  | consoleintr (c : Fin n) (w : Nat)

variable {n : Nat}

namespace World

variable (w : World n)

def goto (p : Slot) (y : Code) : World n := { w with code := update w.code p y }

def adopt (i : Slot) (q : Option Slot) : World n := { w with parent := update w.parent i q }

def setRes (p : Slot) (r : Res) : World n := { w with res := update w.res p r }

def setLock (lk : Lk) (p : Option Slot) : World n := { w with lock := update w.lock lk p }

def setPipe (pi : Nat) (x : Pipe) : World n := { w with pipe := update w.pipe pi x }

def setRet (p : Slot) (v : Int) : World n := { w with ret := update w.ret p v }

def setStatus (p : Slot) (v : Option Int) : World n := { w with status := update w.status p v }

def me (c : Fin n) : Option Slot := if w.core.pc c = .running then w.core.proc c else none

def state (p : Slot) : ProcState := (w.core.procs p).state

def intrOn (c : Fin n) : Bool :=
  match w.core.pc c with
  | .top => true
  | .running => (w.core.proc c).all fun p => interruptible (w.code p)
  | _ => false

def clockBusy : Bool := (List.finRange n).any fun c => match w.core.pc c with
  | .wakeup _ _ clock _ => clock
  | _ => false

def isFree (lk : Lk) : Bool := w.lock lk = none && (lk ≠ .ticks || !w.clockBusy)

/-- The steps of the scheduling state that any code may take, or that code which is not modelled takes. -/
def allows : Machine.Event n → Bool
  | .timer c => w.intrOn c && (c.val ≠ 0 || w.lock .ticks = none)
  | .wakeup c _ => w.intrOn c
  | .sleep c chan => (w.me c).any fun p => mayBlock (w.code p) && !isProcChan chan
  | .kkill c _ _ | .setkilled c => (w.me c).any fun p => w.code p = .user
  | .swtch c => (w.core.proc c).all fun p => w.code p ≠ .exitRelease
  | .kexit _ _ | .allocproc _ _ | .forkFail _ | .forkDone _ | .forkRun _ _ | .kwait _ _ => false
  | .startPass _ | .visit _ | .pick _ | .interrupt _ | .resume _ | .wakeupVisit _ | .accountVisit _
  | .charge _ | .uncharged _ | .yield _ => true

def lift (e : Machine.Event n) (f : World n → World n) : Option (World n) :=
  (w.core.step e).map fun k => f { w with core := k }

/-- What freeproc() clears besides the record. The next process in the slot starts
in forkret(). -/
def freeproc (i : Slot) : World n :=
  ((w.adopt i none).setRes i { w.res i with sz := 0 }).goto i .user

def scanNext (c : Fin n) (p : Slot) (addr : Nat) (i : Slot) (havekids : Bool) (o : Choice) :
    Option (World n) :=
  if w.parent i ≠ some p then some (w.goto p (afterScan addr i havekids))
  else if w.core.lock i ≠ none then none
  else if w.state i ≠ .zombie then some (w.goto p (afterScan addr i true))
  else if addr ≠ 0 ∧ o = .fail then some (w.goto p (.ret (.wait addr) (-1)))
  else w.lift (.kwait c i) fun v =>
    ((v.freeproc i).setStatus p (if addr ≠ 0 then some (w.core.procs i).xstate else none)).goto p
      (.ret (.wait addr) (w.core.procs i).pid)

def testNext (p : Slot) (o : Choice) : Site → Option (World n)
  | .wait _ => none
  | .read pi m =>
    if (w.pipe pi).nread = (w.pipe pi).nwrite ∧ (w.pipe pi).writeopen then
      some (w.goto p (.check (.read pi m)))
    else some (w.goto p (.take pi 0 m))
  | .write pi i m =>
    if i < m then
      if (w.pipe pi).readopen then some (w.goto p (.check (.write pi i m)))
      else some (w.goto p (.ret (.write pi i m) (-1)))
    else some (w.goto p (.post (.write pi i m) (readChan pi) i))
  | .console m target =>
    if 0 < m then
      if w.cons.r = w.cons.w then some (w.goto p (.check (.console m target)))
      else
        let v := { w with cons := { w.cons with r := u32 (w.cons.r + 1) } }
        match o with
        | .eof => if m < target then some (w.goto p (.ret (.console m target) (target - m)))
          else some (v.goto p (.ret (.console m target) (target - m)))
        | .fail => some (v.goto p (.ret (.console m target) (target - m)))
        | .newline => some (v.goto p (.ret (.console (m - 1) target) (target - (m - 1))))
        | .ok => some (v.goto p (.test (.console (m - 1) target)))
    else some (w.goto p (.ret (.console m target) (target - m)))
  | .pause ticks0 m =>
    if u32OfInt ((w.core.ticks : Int) - ticks0) < m then some (w.goto p (.check (.pause ticks0 m)))
    else some (w.goto p (.ret (.pause ticks0 m) 0))

def roomNext (c : Fin n) (p : Slot) (pi : Nat) (i m : Int) (o : Choice) : Option (World n) :=
  if (w.pipe pi).nwrite = u32 ((w.pipe pi).nread + PIPESIZE) then
    w.lift (.wakeup c (readChan pi)) (·.goto p (.doze (.write pi i m)))
  else if o = .fail then some (w.goto p (.post (.write pi i m) (readChan pi) i))
  else some ((w.setPipe pi { w.pipe pi with nwrite := u32 ((w.pipe pi).nwrite + 1) }).goto p
    (.test (.write pi (i + 1) m)))

def takeNext (p : Slot) (pi : Nat) (i m : Int) (o : Choice) : World n :=
  if i < m ∧ (w.pipe pi).nread ≠ (w.pipe pi).nwrite then
    if o = .fail then w.goto p (.post (.read pi m) (writeChan pi) (if i = 0 then -1 else i))
    else (w.setPipe pi { w.pipe pi with nread := u32 ((w.pipe pi).nread + 1) }).goto p (.take pi (i + 1) m)
  else w.goto p (.post (.read pi m) (writeChan pi) i)

/-- The next section of the code of process p on CPU c. A process that needs a held lock spins. -/
def next (c : Fin n) (p : Slot) (o : Choice) : Code → Option (World n)
  | .user | .forkCopy _ | .exitRelease | .exited => none
  | .forkParent np =>
    if w.isFree .wait then some ((w.adopt np (some p)).goto p (.forkRun np)) else none
  | .forkRun np => w.lift (.forkRun c np) (·.goto p .user)
  | .exitFiles status fd =>
    some ((w.setRes p { w.res p with ofile := update (w.res p).ofile fd none }).goto p
      (afterFile status fd))
  | .exitCwd status => some ((w.setRes p { w.res p with cwd := none }).goto p (.exitLock status))
  | .exitLock status =>
    if w.isFree .wait then some ((w.setLock .wait (some p)).goto p (.reparent status firstSlot)) else none
  | .reparent status i =>
    if w.parent i = some p then some ((w.adopt i (some initproc)).goto p (.wakeInit status i))
    else some (w.goto p (afterReparent status i))
  | .wakeInit status i => w.lift (.wakeup c (procChan initproc)) (·.goto p (afterReparent status i))
  | .wakeParent status => w.lift (.wakeup c (parentChan (w.parent p))) (·.goto p (.exitSelf status))
  | .exitSelf status => w.lift (.kexit c status) (·.goto p .exitRelease)
  | .enter x =>
    if w.isFree x.lk then some ((w.setLock x.lk (some p)).goto p (x.started w.core.ticks).head) else none
  | .asleep x => if w.isFree x.lk then some ((w.setLock x.lk (some p)).goto p x.head) else none
  | .scan addr i havekids => w.scanNext c p addr i havekids o
  | .test x => w.testNext p o x
  | .check x =>
    if w.core.lock p = none then
      some (w.goto p (if (w.core.procs p).killed then .ret x (-1) else x.willing))
    else none
  | .room pi i m => w.roomNext c p pi i m o
  | .doze x => w.lift (.sleep c (x.chan p)) fun v => (v.setLock x.lk none).goto p (.asleep x)
  | .take pi i m => some (w.takeNext p pi i m o)
  | .post x chan v => w.lift (.wakeup c chan) (·.goto p (.ret x v))
  | .ret x v => some (((w.setLock x.lk none).setRet p v).goto p .user)

def step (w : World n) : Event n → Option (World n)
  | .core e => if w.allows e then w.lift e id else none
  | .run c o => match w.me c with
    | some p => w.next c p o (w.code p)
    | none => none
  | .setRes c r => match w.me c with
    | some p => if w.code p = .user then some (w.setRes p r) else none
    | none => none
  | .allocproc c np => match w.me c with
    | some p => if w.code p = .user then w.lift (.allocproc c np) (·.goto p (.forkCopy np)) else none
    | none => none
  | .forkFail c => match w.core.pc c, w.core.proc c with
    | .forking np, some p => w.lift (.forkFail c) fun v => (v.freeproc np).goto p .user
    | _, _ => none
  | .forkDone c => match w.core.pc c, w.core.proc c with
    | .forking np, some p => w.lift (.forkDone c) fun v => (v.setRes np (w.res p)).goto p (.forkParent np)
    | _, _ => none
  -- kexit() panics when init exits
  | .exit c status => match w.me c with
    | some p => if w.code p = .user ∧ p ≠ initproc then some (w.goto p (.exitFiles status 0)) else none
    | none => none
  | .unlockWait c => match w.core.pc c, w.core.proc c with
    | .switching, some p =>
      if w.code p = .exitRelease then some ((w.setLock .wait none).goto p .exited) else none
    | _, _ => none
  | .call c x => match w.me c with
    | some p => if w.code p = .user ∧ x.begins then some (w.goto p (.enter x)) else none
    | none => none
  | .pipealloc c pi => match w.me c with
    | some p =>
      if w.code p = .user ∧ (w.pipe pi).readopen = false ∧ (w.pipe pi).writeopen = false then
        some (w.setPipe pi ⟨0, 0, true, true⟩)
      else none
    | none => none
  | .pipeclose c pi writable => match w.me c with
    | some p =>
      if mayBlock (w.code p) ∧ w.isFree (.pipe pi) then
        some (w.setPipe pi (if writable then { w.pipe pi with writeopen := false }
          else { w.pipe pi with readopen := false }))
      else none
    | none => none
  | .consoleintr c e =>
    if w.intrOn c ∧ w.isFree .cons then some { w with cons := { w.cons with w := e } } else none

end World

def boot (n : Nat) : World n where
  core := Machine.boot n
  parent _ := none
  res p := ⟨0, fun _ => none, if p = initproc then some 1 else none⟩
  code _ := .user
  lock _ := none
  pipe _ := ⟨0, 0, false, false⟩
  cons := ⟨0, 0⟩
  ret _ := 0
  status _ := none

abbrev Run (n : Nat) := Runs.Run (World.step (n := n)) (boot n)

end AdaptiveXv6.Lifecycle
