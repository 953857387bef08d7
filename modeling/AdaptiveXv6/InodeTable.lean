import AdaptiveXv6.Content

namespace AdaptiveXv6.InodeTable

open Blocks Content

abbrev NINODE : Nat := 50
abbrev ROOTINO : Nat := 1

structure Entry where
  ref : Nat
  valid : Bool
  locked : Bool
  ip : Inode

/-- The disk and the inode table. A pointer into the table is the number of its inode; slots counts the entries
with ref == 0. -/
structure Fs where
  disk : Store
  itable : Nat → Entry
  slots : Nat

abbrev FsM := StateT Fs (Except Panic)

variable (sb : Superblock)

namespace Fs

def setEntry (fs : Fs) (i : Nat) (e : Entry) : Fs := { fs with itable := Function.update fs.itable i e }

end Fs

/-- A function of an inode and the disk, on an entry of the table. -/
def onInode {α : Type} (i : Nat) (m : LockedM α) : FsM α := fun fs =>
  match m ⟨(fs.itable i).ip, fs.disk⟩ with
  | .ok (a, x) => .ok (a, { fs.setEntry i { fs.itable i with ip := x.ip } with disk := x.disk })
  | .error e => .error e

def iget (i : Nat) : FsM Unit := fun fs =>
  if 0 < (fs.itable i).ref then
    .ok ((), fs.setEntry i { fs.itable i with ref := (fs.itable i).ref + 1 })
  else if fs.slots = 0 then .error .igetNoInodes
  else .ok ((), { fs.setEntry i ⟨1, false, false, (fs.itable i).ip⟩ with slots := fs.slots - 1 })

def idup (i : Nat) : FsM Unit := fun fs =>
  .ok ((), fs.setEntry i { fs.itable i with ref := (fs.itable i).ref + 1 })

def ilock (i : Nat) : FsM Unit := fun fs =>
  let e := fs.itable i
  if e.ref < 1 then .error .ilock
  else if e.locked then .error .deadlock
  else if e.valid then .ok ((), fs.setEntry i { e with locked := true })
  else if (fs.disk.dinode sb i).type = 0 then .error .ilockNoType
  else .ok ((), fs.setEntry i { e with locked := true, valid := true, ip := fs.disk.dinode sb i })

def iunlock (i : Nat) : FsM Unit := fun fs =>
  let e := fs.itable i
  if e.locked = false ∨ e.ref < 1 then .error .iunlock
  else .ok ((), fs.setEntry i { e with locked := false })

def unref (i : Nat) : FsM Unit := fun fs =>
  let e := fs.itable i
  .ok ((), { fs.setEntry i { e with ref := e.ref - 1 } with
    slots := if e.ref = 1 then fs.slots + 1 else fs.slots })

def ifree (i : Nat) : FsM Unit := do
  onInode i (itrunc sb i)
  onInode i (modify fun x => { x with ip := { x.ip with type := 0 } })
  onInode i (iupdate sb i)
  modify fun fs => fs.setEntry i { fs.itable i with valid := false }

def iput (i : Nat) : FsM Unit := do
  let fs ← get
  let e := fs.itable i
  if e.ref = 1 ∧ e.valid ∧ e.ip.nlink = 0 then
    if e.locked then throw .deadlock else ifree sb i
  unref i

def iunlockput (i : Nat) : FsM Unit := do
  iunlock i
  iput sb i

def reclaim (i : Nat) : FsM Unit := do
  let fs ← get
  if (fs.disk.dinode sb i).type ≠ 0 ∧ (fs.disk.dinode sb i).nlink = 0 then
    iget i
    ilock sb i
    iunlock i
    iput sb i

end AdaptiveXv6.InodeTable
