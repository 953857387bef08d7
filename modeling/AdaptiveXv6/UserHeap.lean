import AdaptiveXv6.Runs
import AdaptiveXv6.Words

namespace AdaptiveXv6.UserHeap

open Words Function

structure Layout where
  base : Nat
  start : Nat
  pos : 0 < base
  below : base + 16 ≤ start

/-- The headers in memory, freep and the break. Addresses are in bytes, sizes in headers of 16 bytes. -/
structure Heap where
  ptr : Nat → Nat
  size : Nat → Nat
  freep : Nat
  brk : Nat

namespace Heap

def findPlace (h : Heap) (bp : Nat) : Nat → Nat → Option Nat
  | 0, _ => none
  | fuel + 1, p =>
    if bp > p ∧ bp < h.ptr p then some p
    else if p ≥ h.ptr p ∧ (bp > p ∨ bp < h.ptr p) then some p
    else findPlace h bp fuel (h.ptr p)

def joinUpper (h : Heap) (bp p : Nat) : Heap :=
  if bp + 16 * h.size bp = h.ptr p then
    { h with
      size := update h.size bp (u32 (h.size bp + h.size (h.ptr p)))
      ptr := update h.ptr bp (h.ptr (h.ptr p)) }
  else { h with ptr := update h.ptr bp (h.ptr p) }

def joinLower (h : Heap) (bp p : Nat) : Heap :=
  if p + 16 * h.size p = bp then
    { h with
      size := update h.size p (u32 (h.size p + h.size bp))
      ptr := update h.ptr p (h.ptr bp)
      freep := p }
  else { h with ptr := update h.ptr p bp, freep := p }

def free (fuel : Nat) (h : Heap) (ap : Nat) : Option Heap :=
  (h.findPlace (ap - 16) fuel h.freep).map fun p => (h.joinUpper (ap - 16) p).joinLower (ap - 16) p

def coreUnits (nu : Nat) : Nat := if nu < 4096 then 4096 else nu

/-- The size after growproc(n) has succeeded. A sum below 0 is a large unsigned one, for which uvmdealloc()
leaves the size. -/
def newSize (sz : Nat) (n : Int) : Nat := if (sz : Int) + n < 0 then sz else ((sz : Int) + n).toNat

def grow (h : Heap) (nu : Nat) : Heap :=
  { h with
    size := update h.size h.brk nu
    brk := newSize h.brk (i32 (nu * 16 : Nat)) }

/-- The last argument but one says what sbrk() does, at this break and for this size. -/
def morecore (fuel : Nat) (sbrk : Nat → Int → Bool) (h : Heap) (nu : Nat) : Option (Heap × Nat) :=
  if sbrk h.brk (i32 (coreUnits nu * 16 : Nat)) then
    (free fuel (h.grow (coreUnits nu)) (h.brk + 16)).map fun h => (h, h.freep)
  else some (h, 0)

def carve (h : Heap) (nunits prevp p : Nat) : Heap × Nat :=
  if h.size p = nunits then ({ h with ptr := update h.ptr prevp (h.ptr p), freep := prevp }, p + 16)
  else
    let q := p + 16 * (h.size p - nunits)
    ({ h with
      size := update (update h.size p (h.size p - nunits)) q nunits
      freep := prevp }, q + 16)

def mallocLoop (sbrk : Nat → Int → Bool) (nunits : Nat) : Nat → Heap → Nat → Nat → Option (Heap × Nat)
  | 0, _, _, _ => none
  | fuel + 1, h, prevp, p =>
    if h.size p ≥ nunits then some (h.carve nunits prevp p)
    else if p = h.freep then
      match morecore fuel sbrk h nunits with
      | none => none
      | some (h, p) => if p = 0 then some (h, 0) else mallocLoop sbrk nunits fuel h p (h.ptr p)
    else mallocLoop sbrk nunits fuel h p (h.ptr p)

def init (m : Layout) (h : Heap) : Heap :=
  if h.freep = 0 then
    { h with
      ptr := update h.ptr m.base m.base
      size := update h.size m.base 0
      freep := m.base }
  else h

def units (nbytes : Nat) : Nat := u32 ((nbytes + 16 - 1) / 16 + 1)

def malloc (m : Layout) (fuel : Nat) (sbrk : Nat → Int → Bool) (h : Heap) (nbytes : Nat) : Option (Heap × Nat) :=
  mallocLoop sbrk (units nbytes) fuel (h.init m) (h.init m).freep ((h.init m).ptr (h.init m).freep)

end Heap

structure Program where
  heap : Heap
  live : Nat → Bool

inductive Event
  | malloc (nbytes fuel : Nat) (sbrk : Nat → Int → Bool)
  | free (ap fuel : Nat)
  | write (ap i ptr size : Nat)

/-- The program calls free() for its blocks only, and sbrk() never. What it writes to a block may look like a
header. -/
def Program.step (m : Layout) (s : Program) : Event → Option Program
  | .malloc nbytes fuel sbrk =>
    (s.heap.malloc m fuel sbrk nbytes).map fun x =>
      ⟨x.1, if x.2 = 0 then s.live else update s.live x.2 true⟩
  | .free ap fuel =>
    if s.live ap = true then
      (s.heap.free fuel ap).map fun h => ⟨h, update s.live ap false⟩
    else none
  | .write ap i ptr size =>
    if s.live ap = true ∧ i < 16 * (s.heap.size (ap - 16) - 1) then
      some { s with heap := { s.heap with
        ptr := update s.heap.ptr (ap + i) ptr
        size := update s.heap.size (ap + i) size } }
    else none

/-- A program that has not yet called malloc(): freep and base are zero. -/
def Program.exec (m : Layout) : Program := ⟨⟨fun _ => 0, fun _ => 0, 0, m.start⟩, fun _ => false⟩

end AdaptiveXv6.UserHeap
