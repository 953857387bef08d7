import AdaptiveXv6.Words
import AdaptiveXv6.Bytes
import AdaptiveXv6.MemLayout

namespace AdaptiveXv6.LazyMemory

open MemLayout Words Bytes Function

/-- A mapped page: PTE_U, PTE_W and the bytes. -/
structure Page where
  user : Bool
  write : Bool
  data : Nat → Byte

def zeroPage : Page := ⟨true, true, fun _ => 0⟩

/-- The memory of a process: its size and the valid leaves of its page table. -/
structure Space where
  sz : Nat
  page : Nat → Option Page

namespace Space

variable (s : Space)

def setPage (q : Nat) (x : Page) : Space := { s with page := update s.page q (some x) }

def walkaddr (va : Nat) : Option Page :=
  if va ≥ MAXVA then none
  else match s.page (va / PGSIZE) with
    | some x => if x.user then some x else none
    | none => none

def vmfault (va : Nat) : Option Space :=
  if va ≥ s.sz then none
  else if (s.page (va / PGSIZE)).isSome then none
  else some (s.setPage (va / PGSIZE) zeroPage)

def reach (va : Nat) : Option (Space × Page) :=
  match s.walkaddr va with
  | some x => some (s, x)
  | none => match s.vmfault va with
    | some t => some (t, zeroPage)
    | none => none

end Space

def Page.read (x : Page) (off n : Nat) : List Byte := (List.range n).map fun k => x.data (off + k)

def Page.put (x : Page) (off : Nat) (src : List Byte) : Page := { x with data := store x.data (off, src) }

/-- copyin(); the first argument bounds the turns, one for each byte is enough. -/
def copyinLoop : Nat → Space → Nat → Nat → Space × Option (List Byte)
  | 0, s, _, _ => (s, some [])
  | turns + 1, s, srcva, len =>
    if len = 0 then (s, some [])
    else match s.reach (pageOf srcva) with
      | none => (s, none)
      | some (t, x) =>
        let n := min (PGSIZE - (srcva - pageOf srcva)) len
        let rest := copyinLoop turns t (pageOf srcva + PGSIZE) (len - n)
        (rest.1, rest.2.map (x.read (srcva - pageOf srcva) n ++ ·))

def copyoutLoop : Nat → Space → Nat → List Byte → Space × Bool
  | 0, s, _, _ => (s, true)
  | turns + 1, s, dstva, src =>
    if src.length = 0 then (s, true)
    else if pageOf dstva ≥ MAXVA then (s, false)
    else match s.reach (pageOf dstva) with
      | none => (s, false)
      | some (t, x) =>
        if x.write then
          let n := min (PGSIZE - (dstva - pageOf dstva)) src.length
          copyoutLoop turns (t.setPage (dstva / PGSIZE) (x.put (dstva - pageOf dstva) (src.take n)))
            (pageOf dstva + PGSIZE) (src.drop n)
        else (t, false)

/-- How copyinstr() ends: with the string, at a page not found, or without a NUL. -/
inductive StrRes
  | str (l : List Byte)
  | hole (va : Nat)
  | long
deriving DecidableEq

def StrRes.cons (l : List Byte) : StrRes → StrRes
  | .str r => .str (l ++ r)
  | x => x

def copyinstrLoop : Nat → Space → Nat → Nat → StrRes
  | 0, _, _, _ => .long
  | turns + 1, s, srcva, max =>
    if max = 0 then .long
    else match s.walkaddr (pageOf srcva) with
      | none => .hole (pageOf srcva)
      | some x =>
        let n := min (PGSIZE - (srcva - pageOf srcva)) max
        let l := x.read (srcva - pageOf srcva) n
        if l.any (· == 0) then .str (l.takeWhile (· ≠ 0))
        else (copyinstrLoop turns s (pageOf srcva + PGSIZE) (max - n)).cons l

def uvmalloc (s : Space) (newsz : Nat) : Space where
  sz := newsz
  page q := if PGROUNDUP s.sz ≤ q * PGSIZE ∧ q * PGSIZE < newsz then some zeroPage else s.page q

def uvmdealloc (s : Space) (newsz : Nat) : Space :=
  if newsz ≥ s.sz then s
  else
    { sz := newsz
      page := fun q =>
        if PGROUNDUP newsz ≤ q * PGSIZE ∧ q * PGSIZE < PGROUNDUP s.sz then none else s.page q }

def growproc (s : Space) (n : Int) : Option Space :=
  if 0 < n then
    if s.sz + n.toNat > TRAPFRAME then none else some (uvmalloc s (s.sz + n.toNat))
  else if n < 0 then some (uvmdealloc s (u64 (s.sz + (2 ^ 64 - n.natAbs))))
  else some s

/-- sys_sbrk(), where eager makes every request one for SBRK_EAGER. -/
def sysSbrk (eager : Bool) (s : Space) (n : Int) (lazy : Bool) : Option Space :=
  if eager = true ∨ lazy = false ∨ n < 0 then growproc s n
  else if u64 (s.sz + n.toNat) < s.sz then none
  else if u64 (s.sz + n.toNat) > TRAPFRAME then none
  else some { s with sz := u64 (s.sz + n.toNat) }

def procPage (q : Nat) : Option Page :=
  if q = TRAMPOLINE / PGSIZE ∨ q = TRAPFRAME / PGSIZE then some ⟨false, true, fun _ => 0⟩ else none

def uvmcopy (s : Space) : Space where
  sz := s.sz
  page q := if q * PGSIZE < s.sz then s.page q else procPage q

/-- A process has nothing mapped between its size and the trapframe. -/
def Tidy (s : Space) : Prop :=
  s.sz ≤ TRAPFRAME ∧ ∀ q, s.sz ≤ q * PGSIZE → q * PGSIZE < TRAPFRAME → s.page q = none

abbrev Image := { s : Space // Tidy s }

/-- What a process does to its memory, by an instruction or inside a system call. -/
inductive Op
  | load (va : Nat)
  | store (va : Nat) (b : Byte)
  | sbrk (n : Int) (lazy : Bool)
  | copyin (va len : Nat)
  | copyout (va : Nat) (src : List Byte)
  | copyinstr (va max : Nat)
  | fetchaddr (addr : Nat)
  | fork (child : Nat)
  | exec (image : Image)
  | exit

inductive Res
  | byte (b : Byte)
  | bytes (l : List Byte)
  | addr (n : Nat)
  | done
  | fail
  | killed
  | noProc
deriving DecidableEq

/-- A load or store: the page is there, or usertrap() calls vmfault(). -/
def access (s : Space) (va : Nat) (store : Bool) : Option (Space × Page) :=
  match (if va ≥ MAXVA then none else s.page (va / PGSIZE)) with
  | some x => if x.user = true ∧ (store = true → x.write = true) then some (s, x) else none
  | none => match s.vmfault va with
    | some t => some (t, zeroPage)
    | none => none

abbrev Machine := Nat → Option Space

def perform (eager : Bool) (m : Machine) (p : Nat) (op : Op) : Machine × Res :=
  match m p with
  | none => (m, .noProc)
  | some s => match op with
    | .load va => match access s va false with
      | some (t, x) => (update m p (some t), .byte (x.data (va % PGSIZE)))
      | none => (update m p none, .killed)
    | .store va b => match access s va true with
      | some (t, x) =>
        (update m p (some (t.setPage (va / PGSIZE) (x.put (va % PGSIZE) [b]))), .done)
      | none => (update m p none, .killed)
    | .sbrk n lazy => match sysSbrk eager s (i32 n) lazy with
      | some t => (update m p (some t), .addr s.sz)
      | none => (m, .fail)
    | .copyin va len =>
      (update m p (some (copyinLoop len s va len).1),
        match (copyinLoop len s va len).2 with
        | some l => .bytes l
        | none => .fail)
    | .copyout va src =>
      (update m p (some (copyoutLoop src.length s va src).1),
        if (copyoutLoop src.length s va src).2 then .done else .fail)
    | .copyinstr va max => (m, match copyinstrLoop max s va max with
      | .str l => .bytes l
      | _ => .fail)
    | .fetchaddr addr =>
      if addr ≥ s.sz ∨ u64 (addr + 8) > s.sz then (m, .fail)
      else
        (update m p (some (copyinLoop 8 s addr 8).1),
          match (copyinLoop 8 s addr 8).2 with
          | some l => .bytes l
          | none => .fail)
    | .fork child => if (m child).isSome then (m, .fail)
      else (update m child (some (uvmcopy s)), .done)
    | .exec image => (update m p (some image.val), .done)
    | .exit => (update m p none, .done)

/-- The runs of a program, which takes its next step from all results so far. -/
def run (eager : Bool) (prog : List Res → Nat × Op) (m : Machine) : Nat → Machine × List Res
  | 0 => (m, [])
  | n + 1 =>
    let before := run eager prog m n
    let next := prog before.2
    let after := perform eager before.1 next.1 next.2
    (after.1, before.2 ++ [after.2])

end AdaptiveXv6.LazyMemory
