import AdaptiveXv6.InodeTable

namespace AdaptiveXv6.Directories

open Bytes Blocks Content InodeTable

abbrev DIRSIZ : Nat := 14

def T_DIR : BitVec 16 := 1

/-- A string or name field; what follows the list counts as zero. -/
abbrev Name := List Byte

structure Dirent where
  inum : BitVec 16
  name : Name

def strncmp : Nat → Name → Name → Int
  | 0, _, _ => 0
  | n + 1, p, q =>
    if p.headD 0 ≠ 0 ∧ p.headD 0 = q.headD 0 then strncmp n p.tail q.tail
    else (p.headD 0).toNat - (q.headD 0).toNat

def strncpy : Nat → Name → Name
  | 0, _ => []
  | n + 1, t => if t.headD 0 = 0 then List.replicate (n + 1) 0 else t.headD 0 :: strncpy n t.tail

def namecmp (s t : Name) : Int := strncmp DIRSIZ s t

def getDirent (m : Nat → Byte) : Dirent where
  inum := half m 0
  name := image (fun k => m (2 + k)) DIRSIZ

def Dirent.byte (de : Dirent) (k : Nat) : Byte := if k < 2 then piece de.inum k else de.name.getD (k - 2) 0

variable (sb : Superblock)

def readDirent (p : Panic) (off : Nat) : LockedM Dirent := do
  let r ← readi sb .kernel 0 off 16
  if r.2 ≠ 16 then throw p else pure (getDirent (stores (fun _ => 0) r.1))

def lookupLoop (name : Name) : List Nat → LockedM (Option (Nat × Nat))
  | [] => pure none
  | s :: ss => do
    let de ← readDirent sb .dirlookupRead (16 * s)
    if de.inum = 0 then lookupLoop name ss
    else if namecmp name de.name = 0 then pure (some (16 * s, de.inum.toNat))
    else lookupLoop name ss

/-- The offsets 0, 16, 32, … below a size: the multiples of 16. -/
def slotsBelow (size : Nat) : List Nat := List.range ((size + 15) / 16)

def dirlookup (dp : Nat) (name : Name) : FsM (Option (Nat × Nat)) := do
  let fs ← get
  let ip := (fs.itable dp).ip
  if ip.type ≠ T_DIR then throw .dirlookupNotDir
  let r ← onInode dp (lookupLoop sb name (slotsBelow ip.size.toNat))
  match r with
  | none => pure none
  | some (off, inum) => do
    iget inum
    pure (some (off, inum))

def emptyLoop : List Nat → Nat → LockedM Nat
  | [], next => pure next
  | s :: ss, next => do
    let de ← readDirent sb .dirlinkRead (16 * s)
    if de.inum = 0 then pure (16 * s) else emptyLoop ss next

def dirlink (dp : Nat) (name : Name) (inum : Nat) : FsM Int := do
  let r ← dirlookup sb dp name
  match r with
  | some (_, ip) => do
    iput sb ip
    pure (-1)
  | none => do
    let fs ← get
    let slots := slotsBelow (fs.itable dp).ip.size.toNat
    let off ← onInode dp (emptyLoop sb slots (16 * slots.length))
    let r ← onInode dp (writei sb dp (.kernel (Dirent.byte ⟨BitVec.ofNat 16 inum, strncpy DIRSIZ name⟩)) 0 off 16)
    if r ≠ 16 then pure (-1) else pure 0

end AdaptiveXv6.Directories
