import AdaptiveXv6.Ops
import AdaptiveXv6.Runs

namespace AdaptiveXv6.Machine

open Words Process Ops Function

/-- Where an interrupt handler returns to. -/
inductive Ret
  | top | running | timer
  deriving DecidableEq, Repr

/-- What a CPU executes next. Interrupts are on at top and running only. -/
inductive Pc
  | top
  | pass1 (slot : Slot) (bestP : Option Slot) (bestPrio : Int)
  | pass2 (bestP : Option Slot) (bestPrio : Int)
  | wfi
  | resumed
  | running
  | forking (np : Slot)
  | wakeup (chan : Nat) (slot : Slot) (clock : Bool) (ret : Ret)
  | accounting (slot : Slot) (ret : Ret)
  | timer
  | expired
  | switching
  deriving DecidableEq, Repr

def Ret.pc : Ret → Pc
  | .top => .top
  | .running => .running
  | .timer => .timer

structure Cpu where
  proc : Option Slot
  pc : Pc
  deriving DecidableEq, Repr

/-- The process table with its locks, the CPUs, the clock and the next pid. A lock is recorded only between
critical sections, with the CPU that holds it. -/
structure Kernel (n : Nat) where
  procs : Slot → Proc
  lock : Slot → Option (Fin n)
  cpus : Fin n → Cpu
  ticks : Nat
  nextpid : Int

/-- One critical section, or one step of control between two of them, on the named CPU. -/
inductive Event (n : Nat)
  | startPass (c : Fin n)
  | visit (c : Fin n)
  | pick (c : Fin n)
  | interrupt (c : Fin n)
  | resume (c : Fin n)
  | timer (c : Fin n)
  | wakeup (c : Fin n) (chan : Nat)
  | wakeupVisit (c : Fin n)
  | accountVisit (c : Fin n)
  | charge (c : Fin n)
  | uncharged (c : Fin n)
  | yield (c : Fin n)
  | sleep (c : Fin n) (chan : Nat)
  | kexit (c : Fin n) (status : Int)
  | swtch (c : Fin n)
  | kkill (c : Fin n) (pid : Int) (p : Slot)
  | setkilled (c : Fin n)
  | allocproc (c : Fin n) (p : Slot)
  | forkFail (c : Fin n)
  | forkDone (c : Fin n)
  | forkRun (c : Fin n) (p : Slot)
  | kwait (c : Fin n) (p : Slot)
  deriving DecidableEq, Repr

/-- A critical section on one slot: who must hold its lock on entry (none: it is acquired) and who holds it
afterwards (none: it is released). -/
structure Section (n : Nat) where
  slot : Slot
  op : Op
  held : Option (Fin n)
  left : Option (Fin n)

structure Move (n : Nat) where
  cpu : Fin n
  after : Cpu
  crit : Option (Section n)
  ticks : Nat
  nextpid : Int

def next? (i : Slot) : Option Slot := if h : i.val + 1 < NPROC then some ⟨i.val + 1, h⟩ else none

def ticksChan : Nat := 1

def initproc : Slot := 0

def firstSlot : Slot := 0

def better (procs : Slot → Proc) (i : Slot) (bestP : Option Slot) (bestPrio : Int) : Option Slot × Int :=
  if (procs i).state = .runnable ∧ calcDynamicPriority (procs i) > bestPrio then
    (some i, calcDynamicPriority (procs i))
  else (bestP, bestPrio)

def afterVisit (i : Slot) (best : Option Slot × Int) : Pc :=
  match next? i with
  | some j => .pass1 j best.1 best.2
  | none => .pass2 best.1 best.2

def afterWakeup (chan : Nat) (i : Slot) (clock : Bool) (ret : Ret) : Pc :=
  match next? i with
  | some j => .wakeup chan j clock ret
  | none => if clock then .accounting 0 ret else ret.pc

def afterAccount (i : Slot) (ret : Ret) : Pc :=
  match next? i with
  | some j => .accounting j ret
  | none => ret.pc

variable {n : Nat}

namespace Kernel

def proc (s : Kernel n) (c : Fin n) : Option Slot := (s.cpus c).proc

def pc (s : Kernel n) (c : Fin n) : Pc := (s.cpus c).pc

def jump (s : Kernel n) (c : Fin n) (pc : Pc) : Move n := ⟨c, ⟨s.proc c, pc⟩, none, s.ticks, s.nextpid⟩

def locked (s : Kernel n) (c : Fin n) (p : Slot) (op : Op) (pc : Pc) : Move n :=
  ⟨c, ⟨s.proc c, pc⟩, some ⟨p, op, none, none⟩, s.ticks, s.nextpid⟩

def unlock (s : Kernel n) (c : Fin n) (p : Slot) (op : Op) (cpu : Cpu) : Move n :=
  ⟨c, cpu, some ⟨p, op, some c, none⟩, s.ticks, s.nextpid⟩

/-- yield(), sleep() and kexit(), from the acquisition of p->lock to swtch(). -/
def leave (s : Kernel n) (c : Fin n) (p : Slot) (op : Op) : Move n :=
  ⟨c, ⟨some p, .switching⟩, some ⟨p, op, none, some c⟩, s.ticks, s.nextpid⟩

def pickMove (s : Kernel n) (c : Fin n) (p : Slot) : Move n :=
  if (s.procs p).state = .runnable then
    ⟨c, ⟨some p, .resumed⟩, some ⟨p, .dispatch, none, some c⟩, s.ticks, s.nextpid⟩
  else s.locked c p .dispatch .wfi

/-- clockintr() on CPU 0 advances the clock, wakes the sleepers on it and accounts
the waiting processes. -/
def clockMove (s : Kernel n) (c : Fin n) (ret : Ret) : Move n :=
  ⟨c, ⟨s.proc c, .wakeup ticksChan 0 true ret⟩, none, u32 (s.ticks + 1), s.nextpid⟩

def allocMove (s : Kernel n) (c : Fin n) (p : Slot) : Move n :=
  ⟨c, ⟨s.proc c, .forking p⟩, some ⟨p, .allocproc s.nextpid, none, some c⟩, s.ticks, i32 (s.nextpid + 1)⟩

/-- The move of an event, where the CPU is at the right place. Searches of the process table by fork(), kill()
and wait() are the visit that ends them. -/
def move (s : Kernel n) : Event n → Option (Move n)
  | .startPass c => match s.pc c with
    | .top => some (s.jump c (.pass1 0 none (-1)))
    | _ => none
  | .visit c => match s.pc c with
    | .pass1 i bestP bestPrio =>
      some (s.locked c i .rescore (afterVisit i (better s.procs i bestP bestPrio)))
    | _ => none
  | .pick c => match s.pc c with
    | .pass2 none _ => some (s.jump c .wfi)
    | .pass2 (some p) _ => some (s.pickMove c p)
    | _ => none
  | .interrupt c => match s.pc c with
    | .wfi => some (s.jump c .top)
    | _ => none
  | .resume c => match s.pc c, s.proc c with
    | .resumed, some p => some (s.unlock c p .resume ⟨some p, .running⟩)
    | _, _ => none
  | .timer c => match s.pc c with
    | .top => if c.val = 0 then some (s.clockMove c .top) else none
    | .running => if c.val = 0 then some (s.clockMove c .timer) else some (s.jump c .timer)
    | _ => none
  | .wakeup c chan => match s.pc c with
    | .top => some (s.jump c (.wakeup chan 0 false .top))
    | .running => some (s.jump c (.wakeup chan 0 false .running))
    | _ => none
  | .wakeupVisit c => match s.pc c with
    | .wakeup chan i clock ret =>
      if s.proc c = some i then some (s.jump c (afterWakeup chan i clock ret))
      else some (s.locked c i (.wakeup chan) (afterWakeup chan i clock ret))
    | _ => none
  | .accountVisit c => match s.pc c with
    | .accounting i ret => some (s.locked c i .accountWait (afterAccount i ret))
    | _ => none
  | .charge c => match s.pc c, s.proc c with
    | .timer, some p =>
      some (s.locked c p .chargeTick (if shouldYield (s.procs p) then .expired else .running))
    | _, _ => none
  -- usertrap() makes a killed process exit before its tick is charged
  | .uncharged c => match s.pc c, s.proc c with
    | .timer, some p => if (s.procs p).killed then some (s.jump c .running) else none
    | _, _ => none
  | .yield c => match s.pc c, s.proc c with
    | .expired, some p => some (s.leave c p .yield)
    | _, _ => none
  | .sleep c chan => match s.pc c, s.proc c with
    | .running, some p => some (s.leave c p (.sleep chan))
    | _, _ => none
  | .kexit c status => match s.pc c, s.proc c with
    | .running, some p => if p = initproc then none else some (s.leave c p (.kexit status))
    | _, _ => none
  | .swtch c => match s.pc c, s.proc c with
    | .switching, some p => some (s.unlock c p .unlock ⟨none, .top⟩)
    | _, _ => none
  | .kkill c pid p => match s.pc c with
    | .running => some (s.locked c p (.kkill pid) .running)
    | _ => none
  | .setkilled c => match s.pc c, s.proc c with
    | .running, some p => some (s.locked c p .setkilled .running)
    | _, _ => none
  | .allocproc c p => match s.pc c with
    | .running => if (s.procs p).state = .unused then some (s.allocMove c p) else none
    | _ => none
  | .forkFail c => match s.pc c with
    | .forking p => some (s.unlock c p .freeproc ⟨s.proc c, .running⟩)
    | _ => none
  | .forkDone c => match s.pc c with
    | .forking p => some (s.unlock c p .unlock ⟨s.proc c, .running⟩)
    | _ => none
  | .forkRun c p => match s.pc c with
    | .running => if (s.procs p).state = .used then some (s.locked c p .makeRunnable .running) else none
    | _ => none
  | .kwait c p => match s.pc c with
    | .running => if (s.procs p).state = .zombie then some (s.locked c p .freeproc .running) else none
    | _ => none

/-- A CPU that needs a lock of another CPU spins, that is, does not move. -/
def Ready (s : Kernel n) (m : Move n) : Bool :=
  match m.crit with
  | some k => s.lock k.slot = k.held
  | none => true

def perform (s : Kernel n) (m : Move n) : Kernel n where
  procs := match m.crit with
    | some k => update s.procs k.slot (k.op.apply s.ticks (s.procs k.slot))
    | none => s.procs
  lock := match m.crit with
    | some k => update s.lock k.slot k.left
    | none => s.lock
  cpus := update s.cpus m.cpu m.after
  ticks := m.ticks
  nextpid := m.nextpid

def step (s : Kernel n) (e : Event n) : Option (Kernel n) :=
  match s.move e with
  | some m => if s.Ready m then some (s.perform m) else none
  | none => none

end Kernel

def userinit : Proc := { allocproc 1 0 procinit with state := .runnable }

def boot (n : Nat) : Kernel n where
  procs i := if i = initproc then userinit else procinit
  lock _ := none
  cpus _ := ⟨none, .top⟩
  ticks := 0
  nextpid := 2

abbrev Run (n : Nat) := Runs.Run (Kernel.step (n := n)) (boot n)

end AdaptiveXv6.Machine
