import AdaptiveXv6.Runs
import AdaptiveXv6.Tallies

namespace AdaptiveXv6.OpenFiles

open Runs Function

abbrev NPROC : Nat := 64
abbrev NOFILE : Nat := 16
abbrev NFILE : Nat := 100
abbrev ROOTINO : Nat := 1

/-- The type of an open file, with the fields of struct file that it uses. -/
inductive Kind
  | none
  | pipe (pi : Nat) (writable : Bool)
  | inode (ip : Nat)
  | device (ip major : Nat)
deriving DecidableEq

structure Pipe where
  readopen : Bool
  writeopen : Bool

inductive Status
  | unused
  | used (parent : Fin NPROC)
  | alive
  | zombie
deriving DecidableEq

/-- What is left of a process's call. In closing, fileclose() has taken d out of the table and has yet to put
it; then come the files of l and an iput(). In exit, a kind is the file of descriptor k just closed. -/
inductive Task
  | closing (l : List (Fin NFILE)) (d : Kind) (ip : Option Nat)
  | openInode (ip : Nat)
  | openFile (ip : Nat) (f : Fin NFILE)
  | openFd (ip : Nat) (f : Fin NFILE) (fd : Fin NOFILE)
  | pipealloc
  | pipeFile (rf : Fin NFILE)
  | pipeFiles (rf wf : Fin NFILE)
  | pipeMade (rf wf : Fin NFILE)
  | pipeFd (rf wf : Fin NFILE) (fd₀ : Fin NOFILE)
  | pipeFds (rf wf : Fin NFILE) (fd₀ fd₁ : Fin NOFILE)
  | dup (f : Fin NFILE) (fd : Fin NOFILE)
  | fork (np : Fin NPROC) (i : Nat)
  | exit (fd : Nat) (d : Option Kind)
deriving DecidableEq

abbrev Task.idle : Task := .closing [] .none none

structure State where
  ref : Fin NFILE → Nat
  kind : Fin NFILE → Kind
  ofile : Fin NPROC → Fin NOFILE → Option (Fin NFILE)
  cwd : Fin NPROC → Option Nat
  status : Fin NPROC → Status
  iref : Nat → Nat
  pipe : Nat → Option Pipe
  made : Nat → Nat
  freed : Nat → Nat
  task : Fin NPROC → Task
  fault : Bool

/-- The inode is what namei() or create() returns, the new process what allocproc() and uvmcopy() leave. -/
inductive Call
  | open (ip : Option Nat)
  | exec (ip : Option Nat)
  | dup (fd : Fin NOFILE)
  | close (fd : Fin NOFILE)
  | pipe
  | fork (np : Option (Fin NPROC))
  | exit

/-- Whether a check or a copyout() succeeds, the page that kalloc() returns, the device number of an inode. -/
inductive Choice
  | ok
  | fail
  | page (pi : Nat)
  | major (n : Nat)

inductive Event
  | call (p : Fin NPROC) (c : Call)
  | go (p : Fin NPROC) (c : Choice)
  | wait (p : Fin NPROC)

namespace State

variable (s : State)

def filealloc : Option (Fin NFILE) := (List.finRange NFILE).find? fun f => s.ref f == 0

def filedup (f : Fin NFILE) : State :=
  if s.ref f < 1 then { s with fault := true } else { s with ref := update s.ref f (s.ref f + 1) }

def unref (f : Fin NFILE) : State × Kind :=
  if s.ref f < 1 then ({ s with fault := true }, .none)
  else if 1 < s.ref f then ({ s with ref := update s.ref f (s.ref f - 1) }, .none)
  else
    ({ s with ref := update s.ref f 0, kind := update s.kind f .none }, s.kind f)

def iput (ip : Nat) : State :=
  if s.iref ip < 1 then { s with fault := true }
  else { s with iref := update s.iref ip (s.iref ip - 1) }

def idup (ip : Nat) : State := { s with iref := update s.iref ip (s.iref ip + 1) }

def shut (x : Pipe) (writable : Bool) : Pipe :=
  if writable then { x with writeopen := false } else { x with readopen := false }

/-- pipeclose(); a page that is no pipe any more is a use after free. -/
def pipeclose (pi : Nat) (writable : Bool) : State :=
  match s.pipe pi with
  | none => { s with fault := true }
  | some x =>
    if (shut x writable).readopen = false ∧ (shut x writable).writeopen = false then
      { s with
        pipe := update s.pipe pi none
        freed := update s.freed pi (s.freed pi + 1) }
    else { s with pipe := update s.pipe pi (some (shut x writable)) }

def put : Kind → State
  | .none => s
  | .pipe pi w => s.pipeclose pi w
  | .inode ip => s.iput ip
  | .device ip _ => s.iput ip

def fdalloc (p : Fin NPROC) : Option (Fin NOFILE) :=
  (List.finRange NOFILE).find? fun fd => (s.ofile p fd).isNone

def setTask (p : Fin NPROC) (t : Task) : State := { s with task := update s.task p t }

def setFd (p : Fin NPROC) (fd : Fin NOFILE) (v : Option (Fin NFILE)) : State :=
  { s with ofile := update s.ofile p (update (s.ofile p) fd v) }

def setKind (f : Fin NFILE) (k : Kind) : State := { s with kind := update s.kind f k }

def take (f : Fin NFILE) : State := { s with ref := update s.ref f 1 }

def setStatus (p : Fin NPROC) (x : Status) : State := { s with status := update s.status p x }

def setCwd (p : Fin NPROC) (x : Option Nat) : State := { s with cwd := update s.cwd p x }

def newPipe (pi : Nat) (rf wf : Fin NFILE) : State :=
  { s with
    pipe := update s.pipe pi (some ⟨true, true⟩)
    made := update s.made pi (s.made pi + 1)
    kind := update (update s.kind rf (.pipe pi false)) wf (.pipe pi true) }

def start (p : Fin NPROC) : Call → Option State
  | .open none => some s
  | .open (some ip) => some ((s.idup ip).setTask p (.openInode ip))
  | .exec none => some s
  | .exec (some ip) => some ((s.idup ip).setTask p (.closing [] .none (some ip)))
  | .dup fd => match s.ofile p fd with
    | none => some s
    | some f => match s.fdalloc p with
      | none => some s
      | some fd' => some ((s.setFd p fd' (some f)).setTask p (.dup f fd'))
  | .close fd => match s.ofile p fd with
    | none => some s
    | some f => some ((s.setFd p fd none).setTask p (.closing [f] .none none))
  | .pipe => some (s.setTask p .pipealloc)
  | .fork none => some s
  | .fork (some np) =>
    if s.status np = .unused then some ((s.setStatus np (.used p)).setTask p (.fork np 0)) else none
  | .exit => if p.val = 0 then none else some (s.setTask p (.exit 0 none))

def goClosing (p : Fin NPROC) : List (Fin NFILE) → Kind → Option Nat → Option State
  | [], .none, none => none
  | [], .none, some ip => some ((s.iput ip).setTask p .idle)
  | f :: l, .none, ip => some ((s.unref f).1.setTask p (.closing l (s.unref f).2 ip))
  | l, d, ip => some ((s.put d).setTask p (.closing l .none ip))

def goOpen (p : Fin NPROC) (ip : Nat) : Choice → State
  | .fail => s.setTask p (.closing [] .none (some ip))
  | _ => match s.filealloc with
    | none => s.setTask p (.closing [] .none (some ip))
    | some f => (s.take f).setTask p (.openFile ip f)

def goOpenFile (p : Fin NPROC) (ip : Nat) (f : Fin NFILE) : State :=
  match s.fdalloc p with
  | none => s.setTask p (.closing [f] .none (some ip))
  | some fd => (s.setFd p fd (some f)).setTask p (.openFd ip f fd)

def goOpenFd (p : Fin NPROC) (ip : Nat) (f : Fin NFILE) : Choice → State
  | .major n => (s.setKind f (.device ip n)).setTask p .idle
  | _ => (s.setKind f (.inode ip)).setTask p .idle

def goPipealloc (p : Fin NPROC) : State :=
  match s.filealloc with
  | none => s.setTask p .idle
  | some f => (s.take f).setTask p (.pipeFile f)

def goPipeFile (p : Fin NPROC) (rf : Fin NFILE) : State :=
  match s.filealloc with
  | none => s.setTask p (.closing [rf] .none none)
  | some f => (s.take f).setTask p (.pipeFiles rf f)

def goPipeFiles (p : Fin NPROC) (rf wf : Fin NFILE) : Choice → Option State
  | .page pi => match s.pipe pi with
    | none => some ((s.newPipe pi rf wf).setTask p (.pipeMade rf wf))
    | some _ => none
  | _ => some (s.setTask p (.closing [rf, wf] .none none))

def goPipeMade (p : Fin NPROC) (rf wf : Fin NFILE) : State :=
  match s.fdalloc p with
  | none => s.setTask p (.closing [rf, wf] .none none)
  | some fd => (s.setFd p fd (some rf)).setTask p (.pipeFd rf wf fd)

def goPipeFd (p : Fin NPROC) (rf wf : Fin NFILE) (fd₀ : Fin NOFILE) : State :=
  match s.fdalloc p with
  | none => (s.setFd p fd₀ none).setTask p (.closing [rf, wf] .none none)
  | some fd => (s.setFd p fd (some wf)).setTask p (.pipeFds rf wf fd₀ fd)

def goPipeFds (p : Fin NPROC) (rf wf : Fin NFILE) (fd₀ fd₁ : Fin NOFILE) : Choice → State
  | .fail => ((s.setFd p fd₀ none).setFd p fd₁ none).setTask p (.closing [rf, wf] .none none)
  | _ => s.setTask p .idle

def goFork (p np : Fin NPROC) (i : Nat) : State :=
  if h : i < NOFILE then
    match s.ofile p ⟨i, h⟩ with
    | none => s.setTask p (.fork np (i + 1))
    | some f => ((s.filedup f).setFd np ⟨i, h⟩ (some f)).setTask p (.fork np (i + 1))
  else
    match s.cwd p with
    | none => { s with fault := true }
    | some ip => (((s.idup ip).setCwd np (some ip)).setStatus np .alive).setTask p .idle

def goExit (p : Fin NPROC) (fd : Nat) : Option Kind → State
  | some d =>
    if h : fd < NOFILE then ((s.put d).setFd p ⟨fd, h⟩ none).setTask p (.exit (fd + 1) none)
    else { s with fault := true }
  | none =>
    if h : fd < NOFILE then
      match s.ofile p ⟨fd, h⟩ with
      | none => s.setTask p (.exit (fd + 1) none)
      | some f => (s.unref f).1.setTask p (.exit fd (some (s.unref f).2))
    else
      match s.cwd p with
      | none => { s with fault := true }
      | some ip => (((s.iput ip).setCwd p none).setStatus p .zombie).setTask p .idle

def go (p : Fin NPROC) (c : Choice) : Option State :=
  match s.task p with
  | .closing l d ip => s.goClosing p l d ip
  | .openInode ip => some (s.goOpen p ip c)
  | .openFile ip f => some (s.goOpenFile p ip f)
  | .openFd ip f _ => some (s.goOpenFd p ip f c)
  | .pipealloc => some (s.goPipealloc p)
  | .pipeFile rf => some (s.goPipeFile p rf)
  | .pipeFiles rf wf => s.goPipeFiles p rf wf c
  | .pipeMade rf wf => some (s.goPipeMade p rf wf)
  | .pipeFd rf wf fd₀ => some (s.goPipeFd p rf wf fd₀)
  | .pipeFds rf wf fd₀ fd₁ => some (s.goPipeFds p rf wf fd₀ fd₁ c)
  | .dup f _ => some ((s.filedup f).setTask p .idle)
  | .fork np i => some (s.goFork p np i)
  | .exit fd d => some (s.goExit p fd d)

def step : Event → Option State
  | .call p c => if s.status p = .alive ∧ s.task p = .idle then s.start p c else none
  | .go p c => s.go p c
  | .wait p => if s.status p = .zombie then some (s.setStatus p .unused) else none

def init : State where
  ref _ := 0
  kind _ := .none
  ofile _ _ := none
  cwd p := if p.val = 0 then some ROOTINO else none
  status p := if p.val = 0 then .alive else .unused
  iref ip := if ip = ROOTINO then 1 else 0
  pipe _ := none
  made _ := 0
  freed _ := 0
  task _ := .idle
  fault := false

end State

end AdaptiveXv6.OpenFiles
