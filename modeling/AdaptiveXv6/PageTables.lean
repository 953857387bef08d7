import AdaptiveXv6.Words
import AdaptiveXv6.Bytes
import AdaptiveXv6.MemLayout
import AdaptiveXv6.Programs

namespace AdaptiveXv6.PageTables

open MemLayout Bytes Programs Function

/-- Physical memory is counted in pages: where the kernel begins, and the end. -/
abbrev KERNPAGE : Nat := KERNBASE / PGSIZE
abbrev STOPPAGE : Nat := PHYSTOP / PGSIZE

inductive Panic
  | walk
  | mappagesRemap
  | freewalkLeaf
  | kfree
  | uvmclear
  | loadseg
  | noPage
deriving DecidableEq

structure Pte where
  page : Nat
  write : Bool
  exec : Bool
  user : Bool
deriving DecidableEq

/-- The pages of a page table, 0 meaning none, and its leaves by virtual page. At level l table number i
translates the virtual pages from i * 512 ^ (l + 1) on; the root is number 0 at level 2. -/
structure PageTable where
  table : Nat → Nat → Nat
  leaf : Nat → Option Pte

namespace PageTable

def null : PageTable := ⟨fun _ _ => 0, fun _ => none⟩

def root (pt : PageTable) : Nat := pt.table 2 0

def setTable (pt : PageTable) (l i x : Nat) : PageTable :=
  { pt with table := update pt.table l (update (pt.table l) i x) }

def setLeaf (pt : PageTable) (v : Nat) (e : Option Pte) : PageTable := { pt with leaf := update pt.leaf v e }

end PageTable

inductive Extra (P : Type)
  | trapframe (p : P)
  | pipe (k : Nat)
  | boot (k : Nat)
  | arg (k : Nat)
deriving DecidableEq

structure Regs where
  epc : Nat
  sp : Nat
  a1 : Nat
  name : List Byte

inductive Mode
  | unused | used | zombie
deriving DecidableEq

/-- The oracle luck says which calls of kalloc() fail although a page is free; the page table of no process is
the one that kexec() makes. -/
structure Vm (P : Type) where
  free : List Nat
  luck : Nat → Bool
  byte : Nat → Nat → Byte
  pt : Option P → PageTable
  extra : Extra P → Nat
  sz : P → Nat
  mode : P → Mode
  regs : P → Regs

abbrev VmM (P : Type) := StateT (Vm P) (Except Panic)

variable {P : Type} [DecidableEq P]

def Vm.withPt (s : Vm P) (q : Option P) (pt : PageTable) : Vm P := { s with pt := update s.pt q pt }

def modifyPt (q : Option P) (f : PageTable → PageTable) : VmM P Unit := modify fun s => s.withPt q (f (s.pt q))

def setExtra (a : Extra P) (x : Nat) : VmM P Unit := modify fun s => { s with extra := update s.extra a x }

def memset (x : Nat) (b : Byte) : VmM P Unit := modify fun s => { s with byte := update s.byte x fun _ => b }

def kalloc : VmM P Nat := fun s =>
  let t := { s with luck := fun k => s.luck (k + 1) }
  if s.luck 0 then match s.free with
    | [] => .ok (0, t)
    | x :: free => .ok (x, { t with free := free, byte := update s.byte x fun _ => 5 })
  else .ok (0, t)

section Tables

-- lo is the number of the first page after the kernel, at end
variable (lo : Nat)

def kfree (x : Nat) : VmM P Unit := fun s =>
  if x < lo ∨ STOPPAGE ≤ x then .error .kfree
  else .ok ((), { s with free := x :: s.free, byte := update s.byte x fun _ => 1 })

def walkLoop (q : Option P) (v : Nat) (alloc : Bool) : Nat → VmM P Bool
  | 0 => pure true
  | l + 1 => do
    let s ← get
    if (s.pt q).table l (v / 512 ^ (l + 1)) ≠ 0 then walkLoop q v alloc l
    else if alloc then do
      let x ← kalloc
      if x = 0 then pure false
      else do
        memset x 0
        modifyPt q fun pt => pt.setTable l (v / 512 ^ (l + 1)) x
        walkLoop q v alloc l
    else pure false

def walk (q : Option P) (v : Nat) (alloc : Bool) : VmM P Bool :=
  if MAXVA / PGSIZE ≤ v then throw .walk else walkLoop q v alloc 2

def lookup (q : Option P) (v : Nat) : VmM P (Option Pte) := do
  if ← walk q v false then
    let s ← get
    pure ((s.pt q).leaf v)
  else pure none

def mappages (q : Option P) (v : Nat) (e : Pte) : VmM P Bool := do
  if ← walk q v true then
    let s ← get
    if ((s.pt q).leaf v).isSome then throw .mappagesRemap
    else do
      modifyPt q fun pt => pt.setLeaf v (some e)
      pure true
  else pure false

def uvmcreate (q : Option P) : VmM P Bool := do
  let x ← kalloc
  if x = 0 then pure false
  else do
    memset x 0
    modifyPt q fun _ => PageTable.null.setTable 2 0 x
    pure true

def unmap (q : Option P) (doFree : Bool) (v : Nat) : VmM P Unit := do
  match ← lookup q v with
  | none => pure ()
  | some e =>
    if doFree then kfree lo e.page
    modifyPt q fun pt => pt.setLeaf v none

def uvmunmap (q : Option P) (v npages : Nat) (doFree : Bool) : VmM P Unit :=
  each (unmap lo q doFree) (List.range' v npages)

def pages (n : Nat) : Nat := PGROUNDUP n / PGSIZE

def uvmdealloc (q : Option P) (oldsz newsz : Nat) : VmM P Nat :=
  if newsz ≥ oldsz then pure oldsz
  else do
    if PGROUNDUP newsz < PGROUNDUP oldsz then
      uvmunmap lo q (pages newsz) ((PGROUNDUP oldsz - PGROUNDUP newsz) / PGSIZE) true
    pure newsz

def uvmallocLoop (q : Option P) (oldsz : Nat) (write exec : Bool) : Nat → Nat → VmM P Bool
  | 0, _ => pure true
  | n + 1, v => do
    let x ← kalloc
    if x = 0 then do
      let _ ← uvmdealloc lo q (v * PGSIZE) oldsz
      pure false
    else do
      memset x 0
      if ← mappages q v ⟨x, write, exec, true⟩ then uvmallocLoop q oldsz write exec n (v + 1)
      else do
        kfree lo x
        let _ ← uvmdealloc lo q (v * PGSIZE) oldsz
        pure false

def uvmalloc (q : Option P) (oldsz newsz : Nat) (write exec : Bool) : VmM P Nat :=
  if newsz < oldsz then pure oldsz
  else do
    if ← uvmallocLoop lo q (PGROUNDUP oldsz) write exec (pages newsz - pages oldsz) (pages oldsz) then pure newsz
    else pure 0

def freewalk (q : Option P) : Nat → Nat → VmM P Unit
  | 0, i => do
    each (fun k => do
      let s ← get
      if ((s.pt q).leaf (512 * i + k)).isSome then throw .freewalkLeaf) (List.range 512)
    let s ← get
    kfree lo ((s.pt q).table 0 i)
  | l + 1, i => do
    each (fun k => do
      let s ← get
      if (s.pt q).table l (512 * i + k) ≠ 0 then do
        freewalk q l (512 * i + k)
        modifyPt q fun pt => pt.setTable l (512 * i + k) 0) (List.range 512)
    let s ← get
    kfree lo ((s.pt q).table (l + 1) i)

def uvmfree (q : Option P) (sz : Nat) : VmM P Unit := do
  if 0 < sz then uvmunmap lo q 0 (pages sz) true
  freewalk lo q 2 0
  modifyPt q fun _ => .null

def copyPage (old new : Option P) (v : Nat) : VmM P Bool := do
  match ← lookup old v with
  | none => pure true
  | some e =>
    let x ← kalloc
    if x = 0 then pure false
    else do
      modify fun s => { s with byte := update s.byte x (s.byte e.page) }
      if ← mappages new v { e with page := x } then pure true
      else do
        kfree lo x
        pure false

def uvmcopyLoop (old new : Option P) : Nat → Nat → VmM P Bool
  | 0, _ => pure true
  | n + 1, v => do
    if ← copyPage lo old new v then uvmcopyLoop old new n (v + 1)
    else do
      uvmunmap lo new 0 v true
      pure false

def uvmcopy (old new : Option P) (sz : Nat) : VmM P Bool := uvmcopyLoop lo old new (pages sz) 0

def uvmclear (q : Option P) (v : Nat) : VmM P Unit := do
  if ← walk q v false then
    modifyPt q fun pt => pt.setLeaf v ((pt.leaf v).map fun e => { e with user := false })
  else throw .uvmclear

def vmfault (p : P) (q : Option P) (va : Nat) : VmM P Nat := do
  let s ← get
  if va ≥ s.sz p then pure 0
  else do
    match ← lookup q (va / PGSIZE) with
    | some _ => pure 0
    | none =>
      let x ← kalloc
      if x = 0 then pure 0
      else do
        memset x 0
        if ← mappages (some p) (va / PGSIZE) ⟨x, true, false, true⟩ then pure x
        else do
          kfree lo x
          pure 0

def walkaddr (q : Option P) (va : Nat) : VmM P Nat :=
  if va ≥ MAXVA then pure 0
  else do
    match ← lookup q (va / PGSIZE) with
    | none => pure 0
    | some e => pure (if e.user then e.page else 0)

def reach (p : P) (q : Option P) (va : Nat) : VmM P Nat := do
  let x ← walkaddr q va
  if x = 0 then vmfault lo p q va else pure x

/-- copyout(); the first argument bounds the turns, one for each byte is enough. -/
def copyoutLoop (p : P) (q : Option P) : Nat → Nat → List Byte → VmM P Bool
  | 0, _, _ => pure true
  | turns + 1, dstva, src =>
    if src.length = 0 then pure true
    else if pageOf dstva ≥ MAXVA then pure false
    else do
      let x ← reach lo p q (pageOf dstva)
      if x = 0 then pure false
      else do
        match ← lookup q (dstva / PGSIZE) with
        | none => throw .noPage
        | some e =>
          if e.write then do
            let n := min (PGSIZE - (dstva - pageOf dstva)) src.length
            modify fun s =>
              { s with byte := update s.byte x (store (s.byte x) (dstva - pageOf dstva, src.take n)) }
            copyoutLoop p q turns (pageOf dstva + PGSIZE) (src.drop n)
          else pure false

def copyout (p : P) (q : Option P) (dstva : Nat) (src : List Byte) : VmM P Bool :=
  copyoutLoop lo p q src.length dstva src

/-- copyin(), with the bytes that it has stored at dst, also when it fails. -/
def copyinLoop (p : P) (q : Option P) : Nat → Nat → Nat → VmM P (Bool × List Byte)
  | 0, _, _ => pure (true, [])
  | turns + 1, srcva, len =>
    if len = 0 then pure (true, [])
    else do
      let x ← reach lo p q (pageOf srcva)
      if x = 0 then pure (false, [])
      else do
        let s ← get
        let n := min (PGSIZE - (srcva - pageOf srcva)) len
        let l := (List.range n).map fun k => s.byte x (srcva - pageOf srcva + k)
        let r ← copyinLoop p q turns (pageOf srcva + PGSIZE) (len - n)
        pure (r.1, l ++ r.2)

def copyin (p : P) (q : Option P) (srcva len : Nat) : VmM P (Bool × List Byte) :=
  copyinLoop lo p q len srcva len

/-- copyinstr(): the bytes before the NUL. -/
def copyinstrLoop (q : Option P) : Nat → Nat → Nat → VmM P (Option (List Byte))
  | 0, _, _ => pure none
  | turns + 1, srcva, max =>
    if max = 0 then pure none
    else do
      let x ← walkaddr q (pageOf srcva)
      if x = 0 then pure none
      else do
        let s ← get
        let n := min (PGSIZE - (srcva - pageOf srcva)) max
        let l := (List.range n).map fun k => s.byte x (srcva - pageOf srcva + k)
        if l.any (· == 0) then pure (some (l.takeWhile (· != 0)))
        else do
          let rest ← copyinstrLoop q turns (pageOf srcva + PGSIZE) (max - n)
          pure (rest.map (l ++ ·))

def copyinstr (q : Option P) (srcva max : Nat) : VmM P (Option (List Byte)) := copyinstrLoop q max srcva max

end Tables

end AdaptiveXv6.PageTables
