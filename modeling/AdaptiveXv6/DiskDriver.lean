import AdaptiveXv6.Runs
import AdaptiveXv6.Windows

namespace AdaptiveXv6.DiskDriver

open Words Function

abbrev NUM : Nat := 8
abbrev BSIZE : Nat := 1024

def u16 (n : Nat) : Nat := n % 2 ^ 16

variable {B : Type} [DecidableEq B]

inductive Addr (B : Type)
  | null
  | op (i : Fin NUM)
  | data (b : B)
  | status (i : Fin NUM)

/-- struct virtq_desc; the flags are VRING_DESC_F_NEXT and VRING_DESC_F_WRITE. -/
structure Desc (B : Type) where
  addr : Addr B
  len : Nat
  more : Bool
  write : Bool
  next : Nat

def Desc.zero : Desc B := ⟨.null, 0, false, false, 0⟩

structure Op where
  write : Bool
  sector : Nat

structure Info (B : Type) where
  b : Option B
  status : Nat

/-- Where a call of virtio_disk_rw() is; its caller has the buffer locked, so there is one for a buffer. -/
inductive Phase
  | idle
  | waiting (write : Bool) (blockno : Nat)
  | sent (i j k : Fin NUM)

inductive Chan (B : Type)
  | free
  | buf (b : B)
deriving DecidableEq

inductive Fault
  | freeDesc1
  | freeDesc2
  | status
  | nullBuf

/-- struct disk, the calls, and the device: its position fetched in the avail ring and the chains that it is
working on. -/
structure State (B : Type) where
  desc : Fin NUM → Desc B
  avail : Fin NUM → Fin NUM
  availIdx : Nat
  used : Fin NUM → Fin NUM
  usedIdx : Nat
  free : Fin NUM → Bool
  seen : Nat
  info : Fin NUM → Info B
  ops : Fin NUM → Op
  disk : B → Bool
  phase : B → Phase
  chan : B → Option (Chan B)
  fetched : Nat
  working : List (Fin NUM)
  completed : B → Bool
  fault : Option Fault

inductive Event (B : Type)
  | rw (b : B) (write : Bool) (blockno : Nat)
  | resume (b : B)
  | fetch
  | complete (id : Fin NUM)
  | intr

namespace State

variable (s : State B)

def wakeup (c : Chan B) : State B :=
  { s with chan := fun b => if s.chan b = some c then none else s.chan b }

def allocDesc : Option (Fin NUM) := (List.finRange NUM).find? fun i => s.free i

def take (i : Fin NUM) : State B := { s with free := update s.free i false }

def freeDesc (i : Nat) : State B :=
  if h : i < NUM then
    if s.free ⟨i, h⟩ then { s with fault := some .freeDesc2 }
    else
      { s with
        desc := update s.desc ⟨i, h⟩ .zero
        free := update s.free ⟨i, h⟩ true }.wakeup .free
  else { s with fault := some .freeDesc1 }

/-- free_chain(); every turn frees a descriptor, so NUM + 1 turns are enough to end or panic. -/
def freeChain : Nat → Nat → State B → State B
  | 0, _, s => s
  | fuel + 1, i, s =>
    if h : i < NUM then
      match (s.freeDesc i).fault with
      | some _ => s.freeDesc i
      | none => if (s.desc ⟨i, h⟩).more then freeChain fuel (s.desc ⟨i, h⟩).next (s.freeDesc i) else s.freeDesc i
    else { s with fault := some .freeDesc1 }

def alloc3 : State B × Option (Fin NUM × Fin NUM × Fin NUM) :=
  match s.allocDesc with
  | none => (s, none)
  | some i => match (s.take i).allocDesc with
    | none => ((s.take i).freeDesc i, none)
    | some j => match ((s.take i).take j).allocDesc with
      | none => ((((s.take i).take j).freeDesc i).freeDesc j, none)
      | some k => (((s.take i).take j).take k, some (i, j, k))

def send (b : B) (write : Bool) (blockno : Nat) (i j k : Fin NUM) : State B :=
  let d₀ : Desc B := ⟨.op i, 16, true, false, j⟩
  let d₁ : Desc B := ⟨.data b, BSIZE, true, !write, k⟩
  let d₂ : Desc B := ⟨.status i, 1, false, true, 0⟩
  { s with
    ops := update s.ops i ⟨write, u32 (blockno * (BSIZE / 512))⟩
    desc := update (update (update s.desc i d₀) j d₁) k d₂
    info := update s.info i ⟨some b, 0xff⟩
    disk := update s.disk b true
    avail := update s.avail (Fin.ofNat NUM s.availIdx) i
    availIdx := u16 (s.availIdx + 1)
    phase := update s.phase b (.sent i j k)
    chan := update s.chan b (some (.buf b))
    completed := update s.completed b false }

def tryStart (b : B) (write : Bool) (blockno : Nat) : State B :=
  match s.alloc3 with
  | (t, none) =>
    { t with
      phase := update t.phase b (.waiting write blockno)
      chan := update t.chan b (some .free) }
  | (t, some (i, j, k)) => t.send b write blockno i j k

def finish (b : B) (i : Fin NUM) : State B :=
  freeChain (NUM + 1) i.val
    { s with
      info := update s.info i { s.info i with b := none }
      phase := update s.phase b .idle }

def descAt (i : Nat) : Desc B := if h : i < NUM then s.desc ⟨i, h⟩ else .zero

def statusOf (id : Fin NUM) : Option (Fin NUM) :=
  if (s.desc id).more && (s.descAt (s.desc id).next).more then
    match (s.descAt (s.descAt (s.desc id).next).next).addr with
    | .status i => some i
    | _ => none
  else none

def clearStatus : Option (Fin NUM) → Fin NUM → Info B
  | some i => update s.info i { s.info i with status := 0 }
  | none => s.info

def fetch : Option (State B) :=
  if s.fetched = s.availIdx then none
  else some { s with
    fetched := u16 (s.fetched + 1)
    working := s.working ++ [s.avail (Fin.ofNat NUM s.fetched)] }

def complete (id : Fin NUM) : Option (State B) :=
  if id ∈ s.working then
    some { s with
      info := s.clearStatus (s.statusOf id)
      used := update s.used (Fin.ofNat NUM s.usedIdx) id
      usedIdx := u16 (s.usedIdx + 1)
      working := s.working.erase id
      completed := fun b => if (s.info id).b = some b then true else s.completed b }
  else none

def intr : Option (State B) :=
  if s.seen = s.usedIdx then none
  else if (s.info (s.used (Fin.ofNat NUM s.seen))).status ≠ 0 then some { s with fault := some .status }
  else match (s.info (s.used (Fin.ofNat NUM s.seen))).b with
    | none => some { s with fault := some .nullBuf }
    | some b => some { s.wakeup (.buf b) with
      disk := update s.disk b false
      seen := u16 (s.seen + 1) }

def resume (b : B) : Option (State B) :=
  match s.chan b, s.phase b with
  | none, .waiting write blockno => some (s.tryStart b write blockno)
  | none, .sent i _ _ =>
    if s.disk b then some { s with chan := update s.chan b (some (.buf b)) } else some (s.finish b i)
  | _, _ => none

def step : Event B → Option (State B)
  | .rw b write blockno =>
    match s.phase b, s.fault with
    | .idle, none => some (s.tryStart b write blockno)
    | _, _ => none
  | .resume b => if s.fault.isNone then s.resume b else none
  | .fetch => s.fetch
  | .complete id => s.complete id
  | .intr => if s.fault.isNone then s.intr else none

end State

def State.init : State B where
  desc _ := .zero
  avail _ := 0
  availIdx := 0
  used _ := 0
  usedIdx := 0
  free _ := true
  seen := 0
  info _ := ⟨none, 0⟩
  ops _ := ⟨false, 0⟩
  disk _ := false
  phase _ := .idle
  chan _ := none
  fetched := 0
  working := []
  completed _ := false
  fault := none

end AdaptiveXv6.DiskDriver
