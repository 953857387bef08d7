import AdaptiveXv6.PageTables
import AdaptiveXv6.Telemetry
import AdaptiveXv6.Runs

namespace AdaptiveXv6.AddressSpaces

open MemLayout Words Bytes PageTables Function

abbrev MAXARG : Nat := 32
abbrev MAXPATH : Nat := 128
abbrev USERSTACK : Nat := 1

variable {P : Type} [DecidableEq P]

def setSz (p : P) (sz : Nat) : VmM P Unit := modify fun s => { s with sz := update s.sz p sz }

def setMode (p : P) (m : Mode) : VmM P Unit := modify fun s => { s with mode := update s.mode p m }

section Calls

-- the page of the code in trampoline.S is wherever the linker has put it
variable (lo trampoline : Nat)

section Processes

def procPagetable (p : P) (q : Option P) : VmM P Bool := do
  if ← uvmcreate q then
    if ← mappages q (TRAMPOLINE / PGSIZE) ⟨trampoline, false, true, false⟩ then
      let s ← get
      if ← mappages q (TRAPFRAME / PGSIZE) ⟨s.extra (.trapframe p), true, false, false⟩ then pure true
      else do
        uvmunmap lo q (TRAMPOLINE / PGSIZE) 1 false
        uvmfree lo q 0
        pure false
    else do
      uvmfree lo q 0
      pure false
  else pure false

def procFreepagetable (q : Option P) (sz : Nat) : VmM P Unit := do
  uvmunmap lo q (TRAMPOLINE / PGSIZE) 1 false
  uvmunmap lo q (TRAPFRAME / PGSIZE) 1 false
  uvmfree lo q sz

/-- A page that the kernel has outside of page tables is freed. -/
def freeExtra (a : Extra P) : VmM P Unit := do
  let s ← get
  if s.extra a ≠ 0 then kfree lo (s.extra a)
  setExtra a 0

def freeproc (p : P) : VmM P Unit := do
  freeExtra lo (.trapframe p)
  let s ← get
  if (s.pt (some p)).root ≠ 0 then procFreepagetable lo (some p) (s.sz p)
  setSz p 0
  setMode p .unused

def allocproc (p : P) : VmM P Bool := do
  setMode p .used
  let x ← kalloc
  setExtra (.trapframe p) x
  if x = 0 then do
    freeproc lo p
    pure false
  else if ← procPagetable lo trampoline p (some p) then pure true
  else do
    freeproc lo p
    pure false

def growproc (p : P) (n : Int) : VmM P Bool := do
  let s ← get
  if 0 < n then
    if u64 (s.sz p + n.toNat) > TRAPFRAME then pure false
    else do
      let sz ← uvmalloc lo (some p) (s.sz p) (u64 (s.sz p + n.toNat)) true false
      if sz = 0 then pure false
      else do
        setSz p sz
        pure true
  else if n < 0 then do
    let sz ← uvmdealloc lo (some p) (s.sz p) (u64 (s.sz p + (2 ^ 64 - n.natAbs)))
    setSz p sz
    pure true
  else pure true

def sysSbrk (p : P) (n : Int) (lazy : Bool) : VmM P Bool :=
  if lazy = false ∨ n < 0 then growproc lo p n
  else do
    let s ← get
    if u64 (s.sz p + n.toNat) < s.sz p then pure false
    else if u64 (s.sz p + n.toNat) > TRAPFRAME then pure false
    else do
      setSz p (u64 (s.sz p + n.toNat))
      pure true

def kfork (p np : P) : VmM P Bool := do
  if ← allocproc lo trampoline np then
    let s ← get
    if ← uvmcopy lo (some p) (some np) (s.sz p) then do
      setSz np (s.sz p)
      modify fun s => { s with regs := update s.regs np (s.regs p) }
      pure true
    else do
      freeproc lo np
      pure false
  else pure false

/-- What kexit() does to the memory of p; its files are closed one by one. -/
def kexit (p : P) : VmM P Unit := setMode p .zombie

def kwait (p c : P) (addr : Nat) (xstate : List Byte) : VmM P Bool := do
  if addr ≠ 0 then
    if ← copyout lo p (some p) addr xstate then do
      freeproc lo c
      pure true
    else pure false
  else do
    freeproc lo c
    pure true

end Processes

section Pipes

/-- pipealloc() of the pipe k; files says whether there are two file structures. -/
def pipealloc (k : Nat) (files : Bool) : VmM P Bool :=
  if files then do
    let x ← kalloc
    if x = 0 then pure false
    else do
      setExtra (.pipe k) x
      pure true
  else pure false

/-- sys_pipe(); fds says whether there are two descriptors. -/
def sysPipe (p : P) (k : Nat) (files fds : Bool) (fdarray : Nat) (fd0 fd1 : List Byte) : VmM P Bool := do
  if ← pipealloc k files then
    if fds then
      if ← copyout lo p (some p) fdarray fd0 then
        if ← copyout lo p (some p) (u64 (fdarray + 4)) fd1 then pure true
        else do
          freeExtra lo (.pipe k)
          pure false
      else do
        freeExtra lo (.pipe k)
        pure false
    else do
      freeExtra lo (.pipe k)
      pure false
  else pure false

end Pipes

section Exec

/-- An unsigned field of n bytes at the offset o. -/
def field (l : List Byte) (o n : Nat) : Nat :=
  (List.range n).foldr (fun k acc => (l.getD (o + k) 0).toNat + 256 * acc) 0

abbrev ELF_MAGIC : Nat := 0x464C457F
abbrev ELF_PROG_LOAD : Nat := 1

/-- What readi() of a file puts into kernel memory, which can be less than was asked for. -/
structure Image where
  readi : Nat → Nat → List Byte
  length_readi : ∀ off n, (readi off n).length ≤ n

structure Proghdr where
  type : Nat
  flags : Nat
  off : Nat
  vaddr : Nat
  filesz : Nat
  memsz : Nat

def proghdr (l : List Byte) : Proghdr where
  type := field l 0 4
  flags := field l 4 4
  off := field l 8 8
  vaddr := field l 16 8
  filesz := field l 32 8
  memsz := field l 40 8

def loadsegLoop (q : Option P) (va : Nat) (file : Image) (offset sz : Nat) : Nat → Nat → VmM P Bool
  | 0, _ => pure true
  | turns + 1, i => do
    let x ← walkaddr q (u64 (va + i))
    if x = 0 then throw .loadseg
    else do
      let n := min (sz - i) PGSIZE
      let l := file.readi (u32 (offset + i)) n
      modify fun s => { s with byte := update s.byte x (store (s.byte x) (0, l)) }
      if l.length ≠ n then pure false else loadsegLoop q va file offset sz turns (i + PGSIZE)

def loadseg (q : Option P) (va : Nat) (file : Image) (offset sz : Nat) : VmM P Bool :=
  loadsegLoop q va file offset sz (pages sz) 0

/-- The program headers from off on, for a size of sz so far: whether all is well, and the size then. -/
def loadLoop (q : Option P) (file : Image) : Nat → Nat → Nat → VmM P (Bool × Nat)
  | 0, _, sz => pure (true, sz)
  | n + 1, off, sz =>
    let l := file.readi (u32 off) 56
    let ph := proghdr l
    if l.length ≠ 56 then pure (false, sz)
    else if ph.type ≠ ELF_PROG_LOAD then loadLoop q file n (off + 56) sz
    else if ph.memsz < ph.filesz then pure (false, sz)
    else if u64 (ph.vaddr + ph.memsz) < ph.vaddr then pure (false, sz)
    else if ph.vaddr % PGSIZE ≠ 0 then pure (false, sz)
    else do
      let sz1 ← uvmalloc lo q sz (u64 (ph.vaddr + ph.memsz)) (ph.flags.testBit 1) (ph.flags.testBit 0)
      if sz1 = 0 then pure (false, sz)
      else if ← loadseg q ph.vaddr file (u32 ph.off) (u32 ph.filesz) then loadLoop q file n (off + 56) sz1
      else pure (false, sz1)

/-- sp - n, aligned down to 16. -/
def push (sp n : Nat) : Nat :=
  let sp := u64 (sp + (2 ^ 64 - n))
  sp - sp % 16

def pushArgs (p : P) (q : Option P) (stackbase : Nat) : List (List Byte) → Nat → List Nat →
    VmM P (Option (Nat × List Nat))
  | [], sp, ustack => pure (some (sp, ustack))
  | arg :: argv, sp, ustack =>
    if ustack.length ≥ MAXARG then pure none
    else
      let sp' := push sp (arg.length + 1)
      if sp' < stackbase then pure none
      else do
        if ← copyout lo p q sp' (arg ++ [0]) then pushArgs p q stackbase argv sp' (ustack ++ [sp'])
        else pure none

def lastElement (path : List Byte) : List Byte := (path.reverse.takeWhile (· != 47)).reverse

/-- kexec() once it has found the file, without the inode; the new page table is made at none. -/
def kexec (p : P) (path : List Byte) (file : Image) (argv : List (List Byte)) : VmM P (Option Nat) :=
  let elf := file.readi 0 64
  let bad (sz : Nat) : VmM P (Option Nat) := do
    procFreepagetable lo none sz
    pure none
  if elf.length ≠ 64 then pure none
  else if field elf 0 4 ≠ ELF_MAGIC then pure none
  else do
    if ← procPagetable lo trampoline p none then
      let loaded ← loadLoop lo none file (field elf 56 2) (field elf 32 8) 0
      if loaded.1 then do
        let base := PGROUNDUP loaded.2
        let sz ← uvmalloc lo none base (u64 (base + (USERSTACK + 1) * PGSIZE)) true false
        if sz = 0 then bad base
        else do
          uvmclear none ((sz - (USERSTACK + 1) * PGSIZE) / PGSIZE)
          let stackbase := sz - USERSTACK * PGSIZE
          match ← pushArgs lo p none stackbase argv sz [] with
          | none => bad sz
          | some (sp, ustack) =>
            let sp := push sp ((ustack.length + 1) * 8)
            if sp < stackbase then bad sz
            else do
              if ← copyout lo p none sp ((ustack ++ [0]).flatMap (le 8)) then do
                let s ← get
                modify fun s =>
                  { s with
                    pt := update (update s.pt (some p) (s.pt none)) none (s.pt (some p))
                    sz := update s.sz p sz
                    regs := update s.regs p
                      ⟨field elf 24 8, sp, sp, Telemetry.safestrcpy (lastElement path ++ [0]) 16⟩ }
                procFreepagetable lo none (s.sz p)
                pure (some argv.length)
              else bad sz
      else bad loaded.2
    else pure none

def fetchaddr (p : P) (addr : Nat) : VmM P (Option Nat) := do
  let s ← get
  if addr ≥ s.sz p ∨ u64 (addr + 8) > s.sz p then pure none
  else do
    let r ← copyin lo p (some p) addr 8
    pure (if r.1 then some (field r.2 0 8) else none)

def freeArgs : Nat → Nat → VmM P Unit
  | 0, _ => pure ()
  | turns + 1, i => do
    let s ← get
    if s.extra (.arg i) ≠ 0 then do
      freeExtra lo (.arg i)
      freeArgs turns (i + 1)

def fetchArgs (p : P) (uargv : Nat) : Nat → Nat → List (List Byte) → VmM P (Bool × List (List Byte))
  | 0, _, argv => pure (false, argv)
  | turns + 1, i, argv => do
    match ← fetchaddr lo p (u64 (uargv + 8 * i)) with
    | none => pure (false, argv)
    | some uarg =>
      if uarg = 0 then pure (true, argv)
      else do
        let x ← kalloc
        setExtra (.arg i) x
        if x = 0 then pure (false, argv)
        else do
          match ← copyinstr (some p) uarg PGSIZE with
          | none => pure (false, argv)
          | some l => fetchArgs p uargv turns (i + 1) (argv ++ [l])

/-- sys_exec(); namei() finds the files that find gives. -/
def sysExec (find : List Byte → Option Image) (p : P) (upath uargv : Nat) : VmM P (Option Nat) := do
  match ← copyinstr (some p) upath MAXPATH with
  | none => pure none
  | some path =>
    let fetched ← fetchArgs lo p uargv MAXARG 0 []
    if fetched.1 then do
      let ret ← match find path with
        | none => pure none
        | some file => kexec lo trampoline p path file fetched.2
      freeArgs lo MAXARG 0
      pure ret
    else do
      freeArgs lo MAXARG 0
      pure none

/-- "/init" -/
def init : List Byte := [47, 105, 110, 105, 116]

/-- What forkret() does with memory in the first process, which panics when this fails. -/
def forkret (find : List Byte → Option Image) (p : P) : VmM P (Option Nat) :=
  match find init with
  | none => pure none
  | some file => kexec lo trampoline p init file [init]

end Exec

end Calls

end AdaptiveXv6.AddressSpaces
