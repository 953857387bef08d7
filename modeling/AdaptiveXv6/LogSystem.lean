import AdaptiveXv6.LogDisk
import AdaptiveXv6.Runs
import AdaptiveXv6.Words

namespace AdaptiveXv6.LogSystem

open Words LogDisk Function

inductive Panic
  | tooBig | outside | committing
  deriving DecidableEq, Repr

/-- The struct log in memory. The list is log.lh.block up to log.lh.n. -/
structure Log where
  lh : List Nat
  outstanding : Nat
  committing : Bool
  ncommit : Int
  deriving DecidableEq, Repr

def Log.initial : Log := ⟨[], 0, false, 0⟩

/-- The search for the block number in log_write(), and the store after it. -/
def absorb (lh : List Nat) (b : Nat) : List Nat :=
  if lh.idxOf b = lh.length then lh ++ [b] else lh.set (lh.idxOf b) b

def logWrite (l : Log) (b : Nat) : Except Panic Log :=
  if l.lh.length ≥ LOGBLOCKS then .error .tooBig
  else if l.outstanding < 1 then .error .outside
  else .ok { l with lh := absorb l.lh b }

/-- One turn of the loop in begin_op(). Without a result the caller sleeps on the log. -/
def beginOp (l : Log) : Option Log :=
  if l.committing then none
  else if l.lh.length + (l.outstanding + 1) * MAXOPBLOCKS > LOGBLOCKS then none
  else some { l with outstanding := l.outstanding + 1 }

def endOp (l : Log) : Except Panic (Log × Bool) :=
  if l.committing then .error .committing
  else if l.outstanding - 1 = 0 then .ok ({ l with outstanding := l.outstanding - 1, committing := true }, true)
  else .ok ({ l with outstanding := l.outstanding - 1 }, false)

def commitDone (l : Log) : Log := { l with lh := [], committing := false, ncommit := i32 (l.ncommit + 1) }

/-- Where a process is in begin_op(), end_op() or sys_sync(); a committing one has disk writes of commit()
before it. -/
inductive Pc
  | idle
  | beginning
  | beginSleep
  | active
  | committing (todo : List (Nat × Block))
  | syncLoop (target : Int)
  | syncSleep (target : Int)

inductive Mode
  | up
  | down
  | recovering (todo : List (Nat × Block))

structure System (ι : Type) where
  log : Log
  disk : Disk
  cache : Nat → Option Block
  mode : Mode
  pc : ι → Pc
  panicked : Option Panic

inductive Event (ι : Type)
  | call (p : ι)
  | beginOp (p : ι)
  | logWrite (p : ι) (b : Nat) (v : Block)
  | endOp (p : ι)
  | diskWrite (p : ι)
  | commitDone (p : ι)
  | sync (p : ι)
  | syncTest (p : ι)
  | kick (p : ι)
  | crash
  | boot
  | recoverWrite
  | recovered

def wake : Pc → Pc
  | .beginSleep => .beginning
  | .syncSleep target => .syncLoop target
  | pc => pc

variable {ι : Type} [DecidableEq ι]

namespace System

def goto (s : System ι) (p : ι) (pc : Pc) : System ι := { s with pc := update s.pc p pc }

def wakeup (s : System ι) : System ι := { s with pc := fun p => wake (s.pc p) }

def bwrite (s : System ι) (w : Nat × Block) : System ι :=
  { s with disk := update s.disk w.1 w.2, cache := update s.cache w.1 (some w.2) }

def await (s : System ι) (p : ι) (target : Int) : System ι :=
  if s.log.ncommit < target then s.goto p (.syncSleep target) else s.goto p .idle

def crash (s : System ι) : System ι := ⟨.initial, s.disk, fun _ => none, .down, fun _ => .idle, none⟩

/-- The steps of processes while the system is up: a critical section of log.lock, or a disk write of commit().
-/
def act (start : Nat) (s : System ι) : Event ι → Option (System ι)
  | .call p => match s.pc p with
    | .idle => some (s.goto p .beginning)
    | _ => none
  | .beginOp p => match s.pc p with
    | .beginning => match beginOp s.log with
      | some l => some { s.goto p .active with log := l }
      | none => some (s.goto p .beginSleep)
    | _ => none
  | .logWrite p b v => match s.pc p with
    | .active => match logWrite s.log b with
      | .ok l => some { s with log := l, cache := update s.cache b (some v) }
      | .error x => some { s with panicked := some x }
    | _ => none
  | .endOp p => match s.pc p with
    | .active => match endOp s.log with
      | .ok (l, true) =>
        some { s.goto p (.committing (commitWrites start s.disk s.cache s.log.lh)) with log := l }
      | .ok (l, false) => some { (s.goto p .idle).wakeup with log := l }
      | .error x => some { s with panicked := some x }
    | _ => none
  | .diskWrite p => match s.pc p with
    | .committing (w :: ws) => some ((s.bwrite w).goto p (.committing ws))
    | _ => none
  | .commitDone p => match s.pc p with
    | .committing [] => some { (s.goto p .idle).wakeup with log := commitDone s.log }
    | _ => none
  | .sync p => match s.pc p with
    | .idle =>
      if s.log.committing ∨ s.log.outstanding > 0 then some (s.await p (i32 (s.log.ncommit + 1)))
      else some s
    | _ => none
  | .syncTest p => match s.pc p with
    | .syncLoop target => some (s.await p target)
    | _ => none
  | .kick p => some (s.goto p (wake (s.pc p)))
  | .crash | .boot | .recoverWrite | .recovered => none

def step (start : Nat) (s : System ι) : Event ι → Option (System ι)
  | .crash => some s.crash
  | .boot => match s.mode with
    | .down => some { s with mode := .recovering (recoverWrites start s.disk) }
    | _ => none
  | .recoverWrite => match s.mode with
    | .recovering (w :: ws) => some { s.bwrite w with mode := .recovering ws }
    | _ => none
  | .recovered => match s.mode with
    | .recovering [] => some { s with mode := .up }
    | _ => none
  | e => match s.mode, s.panicked with
    | .up, none => s.act start e
    | _, _ => none

end System

def off (disk : Disk) : System ι := ⟨.initial, disk, fun _ => none, .down, fun _ => .idle, none⟩

abbrev Run (ι : Type) [DecidableEq ι] (start : Nat) (disk : Disk) :=
  Runs.Run (System.step (ι := ι) start) (off disk)

end AdaptiveXv6.LogSystem
