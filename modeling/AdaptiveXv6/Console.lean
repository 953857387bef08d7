import AdaptiveXv6.Bytes
import AdaptiveXv6.Runs
import AdaptiveXv6.Windows

namespace AdaptiveXv6.Console

open Words Bytes Function

abbrev INPUT_BUF_SIZE : Nat := 128

def control (x : Char) : Byte := BitVec.ofNat 8 (x.toNat - '@'.toNat)

def newline : Byte := BitVec.ofNat 8 '\n'.toNat

def carriageReturn : Byte := BitVec.ofNat 8 '\r'.toNat

def delete : Byte := 127

def sub (a b : Nat) : Nat := u32 (a + 2 ^ 32 - b)

structure Cons where
  buf : Fin INPUT_BUF_SIZE → Byte
  r : Nat
  w : Nat
  e : Nat

namespace Cons

def zero : Cons := ⟨fun _ => 0, 0, 0, 0⟩

def char (c : Cons) (i : Nat) : Byte := c.buf (Fin.ofNat INPUT_BUF_SIZE i)

def erase (c : Cons) : Cons := { c with e := sub c.e 1 }

/-- The loop for C('U'). It can turn at most e - w times. -/
def killLine : Nat → Cons → Cons
  | 0, c => c
  | k + 1, c => if c.e ≠ c.w ∧ c.char (sub c.e 1) ≠ newline then killLine k c.erase else c

def store (c : Cons) (ch : Byte) : Cons :=
  { c with buf := update c.buf (Fin.ofNat INPUT_BUF_SIZE c.e) ch, e := u32 (c.e + 1) }

/-- The buffer after the interrupt, and whether wakeup(&cons.r) is called. -/
def consoleintr (c : Cons) (ch : Byte) : Cons × Bool :=
  if ch = control 'P' then (c, false)
  else if ch = control 'U' then (killLine (sub c.e c.w) c, false)
  else if ch = control 'H' ∨ ch = delete then (if c.e ≠ c.w then c.erase else c, false)
  else if ch ≠ 0 ∧ sub c.e c.r < INPUT_BUF_SIZE then
    let ch := if ch = carriageReturn then newline else ch
    let c := c.store ch
    if ch = newline ∨ ch = control 'D' ∨ sub c.e c.r = INPUT_BUF_SIZE then ({ c with w := c.e }, true)
    else (c, false)
  else (c, false)

end Cons

/-- Where a process is in consoleread(), with its n and target; outside, what the last call returned. -/
inductive Place
  | user (ret : Int)
  | lock (target n : Int)
  | loop (target n : Int)
  | wait (target n : Int)
  | sleep (target n : Int)
  deriving DecidableEq, Repr

def Place.wake : Place → Place
  | .sleep target n => .lock target n
  | x => x

variable {P : Type} [DecidableEq P]

structure System (P : Type) where
  cons : Cons
  lock : Option P
  place : P → Place
  killed : P → Bool

def boot : System P := ⟨.zero, none, fun _ => .user 0, fun _ => false⟩

inductive Event (P : Type)
  | consoleread (p : P) (n : Int)
  | consoleintr (ch : Byte)
  | kkill (p : P)
  | turn (p : P) (ok : Bool)

namespace System

def goto (s : System P) (p : P) (x : Place) : System P := { s with place := update s.place p x }

def release (s : System P) (p : P) (x : Place) : System P := { s.goto p x with lock := none }

/-- What consoleread() does with a character, when either_copyout() works or not. -/
def consume (s : System P) (p : P) (target n : Int) (ok : Bool) : System P :=
  let ch := s.cons.char s.cons.r
  let s := { s with cons := { s.cons with r := u32 (s.cons.r + 1) } }
  if ch = control 'D' then
    if n < target then { s with cons := { s.cons with r := sub s.cons.r 1 } }.release p (.user (target - n))
    else s.release p (.user (target - n))
  else if ok = false then s.release p (.user (target - n))
  else if ch = newline then s.release p (.user (target - (n - 1)))
  else s.goto p (.loop target (n - 1))

def turn (s : System P) (p : P) (ok : Bool) : Option (System P) :=
  match s.place p with
  | .user _ | .sleep _ _ => none
  | .lock target n => if s.lock = none then some { s.goto p (.loop target n) with lock := some p } else none
  | .loop target n =>
    if 0 < n then
      if s.cons.r = s.cons.w then
        if s.killed p = true then some (s.release p (.user (-1))) else some (s.goto p (.wait target n))
      else some (s.consume p target n ok)
    else some (s.release p (.user (target - n)))
  | .wait target n => some (s.release p (.sleep target n))

def step (s : System P) : Event P → Option (System P)
  | .consoleread p n => match s.place p with
    | .user _ => some (s.goto p (.lock n n))
    | _ => none
  | .consoleintr ch =>
    if s.lock = none then
      some { s with
        cons := (s.cons.consoleintr ch).1
        place := fun q => if (s.cons.consoleintr ch).2 then (s.place q).wake else s.place q }
    else none
  | .kkill p => some { s.goto p (s.place p).wake with killed := update s.killed p true }
  | .turn p ok => s.turn p ok

end System

end AdaptiveXv6.Console
