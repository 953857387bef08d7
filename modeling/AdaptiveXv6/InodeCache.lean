import Mathlib.Data.List.FinRange
import AdaptiveXv6.Words
import AdaptiveXv6.Runs

namespace AdaptiveXv6.InodeCache

open Words Function

abbrev NINODE : Nat := 50

variable {P I : Type} [DecidableEq P] [DecidableEq I]

/-- A dinode; body stands for the fields that itrunc() clears. -/
structure Node where
  type : Nat
  nlink : Nat
  body : List Nat
deriving DecidableEq

/-- struct inode; the key is (dev, inum). -/
structure Entry (P I : Type) where
  key : Option I
  ref : Int
  valid : Bool
  node : Node
  locked : Option P

inductive Stage
  | trunc | wipe | invalidate | unlock | drop
deriving DecidableEq

inductive Phase (I : Type)
  | idle
  | loading (x : Fin NINODE)
  | freeing (x : Fin NINODE) (stage : Stage)
  | allocated (i : I)
deriving DecidableEq

inductive Fault
  | igetNoInodes
  | ilockNoType
  | sleepsInIput
deriving DecidableEq

/-- The inode table, the dinodes seen through the buffer cache, and the references of the processes. -/
structure State (P I : Type) where
  entry : Fin NINODE → Entry P I
  disk : I → Node
  refs : List (P × Fin NINODE)
  phase : P → Phase I
  fault : Option Fault

inductive Event (P I : Type)
  | iget (p : P) (i : I)
  | idup (p : P) (x : Fin NINODE)
  | ilock (p : P) (x : Fin NINODE)
  | load (p : P)
  | modify (p : P) (x : Fin NINODE) (n : Node)
  | iupdate (p : P) (x : Fin NINODE)
  | itrunc (p : P) (x : Fin NINODE)
  | iunlock (p : P) (x : Fin NINODE)
  | iput (p : P) (x : Fin NINODE)
  | free (p : P)
  | ialloc (p : P) (i : I) (type : Nat)

namespace State

variable (s : State P I)

def setEntry (x : Fin NINODE) (e : Entry P I) : State P I := { s with entry := update s.entry x e }

def setPhase (p : P) (x : Phase I) : State P I := { s with phase := update s.phase p x }

def write (x : Fin NINODE) (n : Node) : State P I :=
  match (s.entry x).key with
  | none => s.setEntry x { s.entry x with node := n }
  | some i => { s.setEntry x { s.entry x with node := n } with disk := update s.disk i n }

def found (i : I) : Option (Fin NINODE) :=
  (List.finRange NINODE).find? fun x => decide (0 < (s.entry x).ref) && (s.entry x).key == some i

def empty : Option (Fin NINODE) := (List.finRange NINODE).find? fun x => (s.entry x).ref == 0

def iget (p : P) (i : I) : State P I :=
  match s.found i with
  | some x =>
    { s.setEntry x { s.entry x with ref := i32 ((s.entry x).ref + 1) } with refs := (p, x) :: s.refs }
  | none => match s.empty with
    | some x => { s.setEntry x { s.entry x with key := some i, ref := 1, valid := false } with refs := (p, x) :: s.refs }
    | none => { s with fault := some .igetNoInodes }

def unref (p : P) (x : Fin NINODE) : State P I :=
  { s.setEntry x { s.entry x with ref := i32 ((s.entry x).ref - 1) } with refs := s.refs.erase (p, x) }

/-- iput() up to where it releases itable.lock or, in the middle of freeing, ip->lock. -/
def iput (p : P) (x : Fin NINODE) : State P I :=
  if (s.entry x).ref = 1 ∧ (s.entry x).valid = true ∧ (s.entry x).node.nlink = 0 then
    match (s.entry x).locked with
    | none => (s.setEntry x { s.entry x with locked := some p }).setPhase p (.freeing x .trunc)
    | some _ => { s with fault := some .sleepsInIput }
  else s.unref p x

def free (p : P) (x : Fin NINODE) : Stage → State P I
  | .trunc => (s.write x { (s.entry x).node with body := [] }).setPhase p (.freeing x .wipe)
  | .wipe => (s.write x { (s.entry x).node with type := 0 }).setPhase p (.freeing x .invalidate)
  | .invalidate => (s.setEntry x { s.entry x with valid := false }).setPhase p (.freeing x .unlock)
  | .unlock => (s.setEntry x { s.entry x with locked := none }).setPhase p (.freeing x .drop)
  | .drop => (s.unref p x).setPhase p .idle

def load (p : P) (x : Fin NINODE) : State P I :=
  if (s.entry x).valid then s.setPhase p .idle
  else match (s.entry x).key with
    | none => s.setPhase p .idle
    | some i =>
      if (s.disk i).type = 0 then { s with fault := some .ilockNoType }
      else (s.setEntry x { s.entry x with node := s.disk i, valid := true }).setPhase p .idle

def synced (x : Fin NINODE) : Prop := ∀ i, (s.entry x).key = some i → (s.entry x).node = s.disk i

instance (x : Fin NINODE) : Decidable (s.synced x) :=
  match h : (s.entry x).key with
  | none => isTrue fun i hi => by rw [h] at hi; cases hi
  | some i =>
    decidable_of_iff ((s.entry x).node = s.disk i)
      ⟨fun hn j hj => by rw [h] at hj; cases hj; exact hn, fun hn => hn i h⟩

/-- A process holds the lock of an inode and is between two calls. -/
def Holds (p : P) (x : Fin NINODE) : Prop := (s.entry x).locked = some p ∧ s.phase p = .idle

instance (p : P) (x : Fin NINODE) : Decidable (s.Holds p x) := inferInstanceAs (Decidable (_ ∧ _))

/-- A process uses a reference that it has and puts no inode that it has locked. -/
def Has (p : P) (x : Fin NINODE) : Prop :=
  (p, x) ∈ s.refs ∧ s.phase p = .idle ∧ (s.entry x).locked ≠ some p

instance (p : P) (x : Fin NINODE) : Decidable (s.Has p x) := inferInstanceAs (Decidable (_ ∧ _))

def step : Event P I → Option (State P I)
  | .iget p i =>
    if s.fault = none ∧ (s.phase p = .idle ∨ s.phase p = .allocated i) then some ((s.iget p i).setPhase p .idle) else none
  | .idup p x =>
    if s.fault = none ∧ (p, x) ∈ s.refs ∧ s.phase p = .idle then
      some { s.setEntry x { s.entry x with ref := i32 ((s.entry x).ref + 1) } with refs := (p, x) :: s.refs }
    else none
  | .ilock p x =>
    if s.fault = none ∧ s.Has p x ∧ (s.entry x).locked = none then
      some ((s.setEntry x { s.entry x with locked := some p }).setPhase p (.loading x))
    else none
  | .load p => match s.phase p with
    | .loading x => if s.fault = none then some (s.load p x) else none
    | _ => none
  | .modify p x n =>
    if s.fault = none ∧ s.Holds p x ∧ n.type ≠ 0 then some (s.setEntry x { s.entry x with node := n }) else none
  | .iupdate p x => if s.fault = none ∧ s.Holds p x then some (s.write x (s.entry x).node) else none
  | .itrunc p x =>
    if s.fault = none ∧ s.Holds p x then some (s.write x { (s.entry x).node with body := [] }) else none
  | .iunlock p x =>
    if s.fault = none ∧ s.Holds p x ∧ s.synced x then some (s.setEntry x { s.entry x with locked := none }) else none
  | .iput p x => if s.fault = none ∧ s.Has p x then some (s.iput p x) else none
  | .free p => match s.phase p with
    | .freeing x stage => if s.fault = none then some (s.free p x stage) else none
    | _ => none
  | .ialloc p i type =>
    if s.fault = none ∧ s.phase p = .idle ∧ (s.disk i).type = 0 ∧ type ≠ 0 then
      some { s.setPhase p (.allocated i) with disk := update s.disk i ⟨type, 0, []⟩ }
    else none

def init (disk : I → Node) : State P I where
  entry _ := ⟨none, 0, false, ⟨0, 0, []⟩, none⟩
  disk := disk
  refs := []
  phase _ := .idle
  fault := none

def count (x : Fin NINODE) : Nat := (s.refs.map Prod.snd).count x

end State

end AdaptiveXv6.InodeCache
