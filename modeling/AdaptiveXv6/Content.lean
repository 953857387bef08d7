import AdaptiveXv6.Blocks
import AdaptiveXv6.CopyOut
import AdaptiveXv6.Programs
import AdaptiveXv6.Words

namespace AdaptiveXv6.Content

open MemLayout Bytes Blocks CopyOut Programs Words

/-- What the kernel panics with, and a sleep lock that its own holder waits for. -/
inductive Panic
  | freeingFreeBlock
  | bmapOutOfRange
  | igetNoInodes
  | ilock
  | ilockNoType
  | iunlock
  | dirlookupNotDir
  | dirlookupRead
  | dirlinkRead
  | unlinkWritei
  | deadlock
deriving DecidableEq

/-- The blocks as the buffer cache has them, and the log_write() calls, latest first. -/
structure Store where
  block : Nat → Block
  logged : List Nat

namespace Store

def logWrite (d : Store) (b : Nat) (v : Block) : Store :=
  ⟨Function.update d.block b v, b :: d.logged⟩

/-- A buffer that is changed and given back without log_write(). -/
def dirty (d : Store) (b : Nat) (v : Block) : Store := { d with block := Function.update d.block b v }

def dinode (sb : Superblock) (d : Store) (i : Nat) : Inode := getDinode (d.block (sb.iblock i)) (i % IPB)

def setDinode (sb : Superblock) (d : Store) (i : Nat) (x : Inode) : Store :=
  d.logWrite (sb.iblock i) (putDinode x (i % IPB) (d.block (sb.iblock i)))

def inUse (sb : Superblock) (d : Store) (b : Nat) : Bool := bit (d.block (sb.bblock b)) (b % BPB)

end Store

open Store

variable (sb : Superblock)

def balloc (d : Store) : Nat × Store :=
  match (List.range sb.size).find? fun b => !inUse sb d b with
  | none => (0, d)
  | some b =>
    (b, (d.logWrite (sb.bblock b) (setBit (b % BPB) (d.block (sb.bblock b)))).logWrite b fun _ => 0)

structure Locked where
  ip : Inode
  disk : Store

abbrev LockedM := StateT Locked (Except Panic)

def bfree (b : Nat) : LockedM Unit := fun x =>
  if inUse sb x.disk b then
    .ok ((), { x with disk := x.disk.logWrite (sb.bblock b) (clearBit (b % BPB) (x.disk.block (sb.bblock b))) })
  else .error .freeingFreeBlock

namespace Inode

def addr (x : Inode) (k : Nat) : Nat := if h : k < NDIRECT + 1 then (x.addrs ⟨k, h⟩).toNat else 0

def setAddr (x : Inode) (k a : Nat) : Inode :=
  { x with addrs := fun j => if j.val = k then BitVec.ofNat 32 a else x.addrs j }

end Inode

/-- The block in ip->addrs[k], allocated if there is none. -/
def addrSlot (k : Nat) : LockedM Nat := fun x =>
  if Inode.addr x.ip k = 0 then
    let r := balloc sb x.disk
    if r.1 = 0 then .ok (0, { x with disk := r.2 })
    else .ok (r.1, ⟨Inode.setAddr x.ip k r.1, r.2⟩)
  else .ok (Inode.addr x.ip k, x)

/-- The block in a[k] of the indirect block, allocated if there is none. -/
def indirectSlot (addr k : Nat) : LockedM Nat := fun x =>
  let a := (word (x.disk.block addr) (4 * k)).toNat
  if a = 0 then
    let r := balloc sb x.disk
    if r.1 = 0 then .ok (0, { x with disk := r.2 })
    else .ok (r.1, { x with
      disk := r.2.logWrite addr (putWord (BitVec.ofNat 32 r.1) (4 * k) (r.2.block addr)) })
  else .ok (a, x)

def bmap (bn : Nat) : LockedM Nat :=
  if bn < NDIRECT then addrSlot sb bn
  else if bn - NDIRECT < NINDIRECT then do
    let addr ← addrSlot sb NDIRECT
    if addr = 0 then pure 0 else indirectSlot sb addr (bn - NDIRECT)
  else throw .bmapOutOfRange

def iupdate (i : Nat) : LockedM Unit := fun x => .ok ((), { x with disk := setDinode sb x.disk i x.ip })

def freeDirect (k : Nat) : LockedM Unit := do
  let x ← get
  if Inode.addr x.ip k = 0 then pure ()
  else do
    bfree sb (Inode.addr x.ip k)
    modify fun x => { x with ip := Inode.setAddr x.ip k 0 }

def freeIndirect (addr j : Nat) : LockedM Unit := do
  let x ← get
  let a := (word (x.disk.block addr) (4 * j)).toNat
  if a = 0 then pure () else bfree sb a

def itrunc (i : Nat) : LockedM Unit := do
  each (freeDirect sb) (List.range NDIRECT)
  let x ← get
  if Inode.addr x.ip NDIRECT = 0 then pure ()
  else do
    each (freeIndirect sb (Inode.addr x.ip NDIRECT)) (List.range NINDIRECT)
    bfree sb (Inode.addr x.ip NDIRECT)
    modify fun x => { x with ip := Inode.setAddr x.ip NDIRECT 0 }
  modify fun x => { x with ip := { x.ip with size := 0 } }
  iupdate sb i

/-- Where readi() puts the bytes: kernel memory, or the writable pages of a process. -/
inductive Dest
  | kernel
  | user (writable : Nat → Bool)

def eitherCopyout : Dest → Nat → List Byte → List (Nat × List Byte) × Int
  | .kernel, dst, src => ([(dst, src)], 0)
  | .user writable, dst, src => copyout writable dst src

/-- The loop of readi(): the stores into memory and tot. Its first argument bounds the turns. -/
def readLoop (dest : Dest) (n : Nat) : Nat → Nat → Nat → Nat → LockedM (List (Nat × List Byte) × Int)
  | 0, tot, _, _ => pure ([], tot)
  | turns + 1, tot, off, dst =>
    if tot < n then do
      let addr ← bmap sb (off / BSIZE)
      if addr = 0 then pure ([], tot)
      else do
        let x ← get
        let m := min (n - tot) (BSIZE - off % BSIZE)
        let out := eitherCopyout dest dst (image (fun k => x.disk.block addr (off % BSIZE + k)) m)
        if out.2 = -1 then pure (out.1, -1)
        else do
          let rest ← readLoop dest n turns (tot + m) (off + m) (dst + m)
          pure (out.1 ++ rest.1, rest.2)
    else pure ([], tot)

def readi (dest : Dest) (dst off n : Nat) : LockedM (List (Nat × List Byte) × Int) := do
  let x ← get
  let size := x.ip.size.toNat
  if off > size ∨ u32 (off + n) < off then pure ([], 0)
  else
    let n := if u32 (off + n) > size then size - off else n
    readLoop sb dest n n 0 off dst

/-- Where writei() takes the bytes from: kernel memory, or the readable pages of a process. -/
inductive Source
  | kernel (mem : Nat → Byte)
  | user (readable : Nat → Bool) (mem : Nat → Byte)

def Source.mem : Source → Nat → Byte
  | kernel mem => mem
  | user _ mem => mem

/-- How many bytes copyin() copies, and whether it gets to the end. -/
def copyin (readable : Nat → Bool) (srcva len : Nat) : Nat × Bool := copyLoop readable len srcva len

def eitherCopyin : Source → Nat → Nat → Nat × Bool
  | .kernel _, _, len => (len, true)
  | .user readable _, src, len => copyin readable src len

def fill (mem : Nat → Byte) (src o c : Nat) (v : Block) : Block := fun i =>
  if o ≤ i ∧ i < o + c then mem (src + (i - o)) else v i

def writeChunk (source : Source) (m off src : Nat) : LockedM Bool := do
  let addr ← bmap sb (off / BSIZE)
  if addr = 0 then pure false
  else do
    let x ← get
    let r := eitherCopyin source src m
    let v := fill source.mem src (off % BSIZE) r.1 (x.disk.block addr)
    if r.2 then do
      modify fun x => { x with disk := x.disk.logWrite addr v }
      pure true
    else do
      modify fun x => { x with disk := x.disk.dirty addr v }
      pure false

def writeLoop (source : Source) (n : Nat) : Nat → Nat → Nat → Nat → LockedM Nat
  | 0, tot, _, _ => pure tot
  | turns + 1, tot, off, src =>
    if tot < n then do
      let m := min (n - tot) (BSIZE - off % BSIZE)
      let goesOn ← writeChunk sb source m off src
      if goesOn then writeLoop source n turns (tot + m) (off + m) (src + m) else pure tot
    else pure tot

def writei (i : Nat) (source : Source) (src off n : Nat) : LockedM Int := do
  let x ← get
  if off > x.ip.size.toNat ∨ u32 (off + n) < off then pure (-1)
  else if u32 (off + n) > MAXFILE * BSIZE then pure (-1)
  else do
    let tot ← writeLoop sb source n n 0 off src
    modify fun x => if off + tot > x.ip.size.toNat then
      { x with ip := { x.ip with size := BitVec.ofNat 32 (off + tot) } } else x
    iupdate sb i
    pure tot

end AdaptiveXv6.Content
