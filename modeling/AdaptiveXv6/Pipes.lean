import AdaptiveXv6.Bytes
import AdaptiveXv6.Runs
import AdaptiveXv6.Windows

namespace AdaptiveXv6.Pipes

open Words Bytes Function

abbrev PIPESIZE : Nat := 512

variable {P : Type} [DecidableEq P]

/-- Where a process is in pipewrite() or piperead(), with the variables still needed; outside, what the last
call returned. -/
inductive Place
  | user (ret : Int)
  | writeLock (n : Int) (i : Nat)
  | writeTest (n : Int) (i : Nat)
  | writeByte (n : Int) (i : Nat)
  | writeSleep (n : Int) (i : Nat)
  | readLock (n : Int)
  | readTest (n : Int)
  | readWait (n : Int)
  | readSleep (n : Int)
  | readByte (n : Int) (i : Nat)
  deriving DecidableEq, Repr

def Place.wakeReader : Place → Place
  | .readSleep n => .readLock n
  | x => x

def Place.wakeWriter : Place → Place
  | .writeSleep n i => .writeLock n i
  | x => x

structure Pipe (P : Type) where
  data : Fin PIPESIZE → Byte
  nread : Nat
  nwrite : Nat
  readopen : Bool
  writeopen : Bool
  lock : Option P
  place : P → Place
  killed : P → Bool

/-- A new pipe, in a page that holds anything. -/
def pipealloc (junk : Fin PIPESIZE → Byte) : Pipe P where
  data := junk
  nread := 0
  nwrite := 0
  readopen := true
  writeopen := true
  lock := none
  place _ := .user 0
  killed _ := false

inductive Event (P : Type)
  | pipewrite (p : P) (n : Int)
  | piperead (p : P) (n : Int)
  | pipeclose (writable : Bool)
  | kkill (p : P)
  | turn (p : P) (ch : Byte) (ok : Bool)

namespace Pipe

def full (s : Pipe P) : Prop := s.nwrite = u32 (s.nread + PIPESIZE)

def empty (s : Pipe P) : Prop := s.nread = s.nwrite

instance (s : Pipe P) : Decidable s.full := inferInstanceAs (Decidable (_ = _))

instance (s : Pipe P) : Decidable s.empty := inferInstanceAs (Decidable (_ = _))

def goto (s : Pipe P) (p : P) (x : Place) : Pipe P := { s with place := update s.place p x }

def acquire (s : Pipe P) (p : P) (x : Place) : Pipe P := { s.goto p x with lock := some p }

def release (s : Pipe P) (p : P) (x : Place) : Pipe P := { s.goto p x with lock := none }

def wakeup (s : Pipe P) (wake : Place → Place) : Pipe P := { s with place := fun q => wake (s.place q) }

def put (s : Pipe P) (ch : Byte) : Pipe P :=
  { s with data := update s.data (Fin.ofNat PIPESIZE s.nwrite) ch, nwrite := u32 (s.nwrite + 1) }

def head (s : Pipe P) : Byte := s.data (Fin.ofNat PIPESIZE s.nread)

def take (s : Pipe P) : Pipe P := { s with nread := u32 (s.nread + 1) }

def pipeclose (s : Pipe P) (writable : Bool) : Pipe P :=
  if writable then { s.wakeup Place.wakeReader with writeopen := false }
  else { s.wakeup Place.wakeWriter with readopen := false }

def kkill (s : Pipe P) (p : P) : Pipe P :=
  { s.goto p (s.place p).wakeReader.wakeWriter with killed := update s.killed p true }

/-- The next step of a process in a call. The byte is at the user address of a write, and ok says whether the
copy works. The flag killed is read apart, since kkill() does not take pi->lock. -/
def turn (s : Pipe P) (p : P) (ch : Byte) (ok : Bool) : Option (Pipe P) :=
  match s.place p with
  | .user _ | .writeSleep _ _ | .readSleep _ => none
  | .writeLock n i => if s.lock = none then some (s.acquire p (.writeTest n i)) else none
  | .writeTest n i =>
    if (i : Int) < n then
      if s.readopen = false ∨ s.killed p = true then some (s.release p (.user (-1)))
      else some (s.goto p (.writeByte n i))
    else some ((s.wakeup Place.wakeReader).release p (.user i))
  | .writeByte n i =>
    if s.full then some ((s.wakeup Place.wakeReader).release p (.writeSleep n i))
    else if ok then some ((s.put ch).goto p (.writeTest n (i + 1)))
    else some ((s.wakeup Place.wakeReader).release p (.user i))
  | .readLock n => if s.lock = none then some (s.acquire p (.readTest n)) else none
  | .readTest n =>
    if s.empty ∧ s.writeopen = true then
      if s.killed p = true then some (s.release p (.user (-1)))
      else some (s.goto p (.readWait n))
    else some (s.goto p (.readByte n 0))
  | .readWait n => some (s.release p (.readSleep n))
  | .readByte n i =>
    if (i : Int) < n ∧ ¬s.empty then
      if ok then some (s.take.goto p (.readByte n (i + 1)))
      else some ((s.wakeup Place.wakeWriter).release p (.user (if i = 0 then -1 else i)))
    else some ((s.wakeup Place.wakeWriter).release p (.user i))

section Places

variable (s : Pipe P) (p q : P) (x : Place) (ch : Byte)

theorem goto_place : (s.goto p x).place q = update s.place p x q := rfl

theorem acquire_place : (s.acquire p x).place q = update s.place p x q := rfl

theorem release_place : (s.release p x).place q = update s.place p x q := rfl

omit [DecidableEq P] in
theorem wakeup_place (wake : Place → Place) : (s.wakeup wake).place q = wake (s.place q) := rfl

end Places

def step (s : Pipe P) : Event P → Option (Pipe P)
  | .pipewrite p n => match s.place p with
    | .user _ => some (s.goto p (.writeLock n 0))
    | _ => none
  | .piperead p n => match s.place p with
    | .user _ => some (s.goto p (.readLock n))
    | _ => none
  | .pipeclose writable => if s.lock = none then some (s.pipeclose writable) else none
  | .kkill p => some (s.kkill p)
  | .turn p ch ok => s.turn p ch ok

end Pipe

inductive Moves (s : Pipe P) : Event P → Pipe P → Prop
  | pipewrite {p ret} (n : Int) (hp : s.place p = .user ret) : Moves s (.pipewrite p n) (s.goto p (.writeLock n 0))
  | piperead {p ret} (n : Int) (hp : s.place p = .user ret) : Moves s (.piperead p n) (s.goto p (.readLock n))
  | pipeclose {writable} (hlock : s.lock = none) : Moves s (.pipeclose writable) (s.pipeclose writable)
  | kkill (p : P) : Moves s (.kkill p) (s.kkill p)
  | writeLock {p n i ch ok} (hp : s.place p = .writeLock n i) (hlock : s.lock = none) :
      Moves s (.turn p ch ok) (s.acquire p (.writeTest n i))
  | writeRefused {p n i ch ok} (hp : s.place p = .writeTest n i) (hi : (i : Int) < n)
      (h : s.readopen = false ∨ s.killed p = true) : Moves s (.turn p ch ok) (s.release p (.user (-1)))
  | writeTest {p n i ch ok} (hp : s.place p = .writeTest n i) (hi : (i : Int) < n) (hopen : s.readopen = true)
      (hkilled : s.killed p = false) : Moves s (.turn p ch ok) (s.goto p (.writeByte n i))
  | writeDone {p n i ch ok} (hp : s.place p = .writeTest n i) (hi : n ≤ i) :
      Moves s (.turn p ch ok) ((s.wakeup Place.wakeReader).release p (.user i))
  | writeSleep {p n i ch ok} (hp : s.place p = .writeByte n i) (hfull : s.full) :
      Moves s (.turn p ch ok) ((s.wakeup Place.wakeReader).release p (.writeSleep n i))
  | writeByte {p n i ch} (hp : s.place p = .writeByte n i) (hfull : ¬s.full) :
      Moves s (.turn p ch true) ((s.put ch).goto p (.writeTest n (i + 1)))
  | writeFault {p n i ch} (hp : s.place p = .writeByte n i) (hfull : ¬s.full) :
      Moves s (.turn p ch false) ((s.wakeup Place.wakeReader).release p (.user i))
  | readLock {p n ch ok} (hp : s.place p = .readLock n) (hlock : s.lock = none) :
      Moves s (.turn p ch ok) (s.acquire p (.readTest n))
  | readKilled {p n ch ok} (hp : s.place p = .readTest n) (hempty : s.empty) (hkilled : s.killed p = true) :
      Moves s (.turn p ch ok) (s.release p (.user (-1)))
  | readWait {p n ch ok} (hp : s.place p = .readTest n) (hempty : s.empty) (hopen : s.writeopen = true) :
      Moves s (.turn p ch ok) (s.goto p (.readWait n))
  | readReady {p n ch ok} (hp : s.place p = .readTest n) (h : s.empty → s.writeopen = false) :
      Moves s (.turn p ch ok) (s.goto p (.readByte n 0))
  | readSleep {p n ch ok} (hp : s.place p = .readWait n) : Moves s (.turn p ch ok) (s.release p (.readSleep n))
  | readByte {p n i ch} (hp : s.place p = .readByte n i) (hi : (i : Int) < n) (hempty : ¬s.empty) :
      Moves s (.turn p ch true) (s.take.goto p (.readByte n (i + 1)))
  | readFault {p n i ch} (hp : s.place p = .readByte n i) (hi : (i : Int) < n) (hempty : ¬s.empty) :
      Moves s (.turn p ch false) ((s.wakeup Place.wakeWriter).release p (.user (if i = 0 then -1 else i)))
  | readDone {p n i ch ok} (hp : s.place p = .readByte n i) (h : (i : Int) < n → s.empty) :
      Moves s (.turn p ch ok) ((s.wakeup Place.wakeWriter).release p (.user i))

variable {s t : Pipe P} {e : Event P}

theorem moves_turn {p : P} {ch : Byte} {ok : Bool} (h : s.turn p ch ok = some t) : Moves s (.turn p ch ok) t := by
  rw [Pipe.turn] at h
  split at h
  case h_1 | h_2 | h_3 => cases h
  case h_4 n i hp =>
    split at h
    · cases h
      exact .writeLock hp ‹_›
    · cases h
  case h_5 n i hp =>
    split at h
    · split at h
      · cases h
        exact .writeRefused hp ‹_› ‹_›
      · rename_i hi hgo
        cases h
        rw [not_or, Bool.not_eq_false, Bool.not_eq_true] at hgo
        exact .writeTest hp hi hgo.1 hgo.2
    · cases h
      exact .writeDone hp (Int.not_lt.mp ‹_›)
  case h_6 n i hp =>
    split at h
    · cases h
      exact .writeSleep hp ‹_›
    · cases ok with
      | true =>
        cases h
        exact .writeByte hp ‹_›
      | false =>
        cases h
        exact .writeFault hp ‹_›
  case h_7 n hp =>
    split at h
    · cases h
      exact .readLock hp ‹_›
    · cases h
  case h_8 n hp =>
    split at h
    · rename_i hempty
      split at h
      · cases h
        exact .readKilled hp hempty.1 ‹_›
      · cases h
        exact .readWait hp hempty.1 hempty.2
    · rename_i hready
      cases h
      refine .readReady hp fun hempty => ?_
      rw [← Bool.not_eq_true]
      exact fun hopen => hready ⟨hempty, hopen⟩
  case h_9 n hp =>
    cases h
    exact .readSleep hp
  case h_10 n i hp =>
    split at h
    · rename_i hmore
      cases ok with
      | true =>
        cases h
        exact .readByte hp hmore.1 hmore.2
      | false =>
        cases h
        exact .readFault hp hmore.1 hmore.2
    · rename_i hstop
      cases h
      exact .readDone hp fun hi => Decidable.not_not.mp fun hne => hstop ⟨hi, hne⟩

theorem moves_of_step (h : s.step e = some t) : Moves s e t := by
  cases e with
  | pipewrite p n =>
    rw [Pipe.step] at h
    split at h
    · cases h
      exact .pipewrite n ‹_›
    · cases h
  | piperead p n =>
    rw [Pipe.step] at h
    split at h
    · cases h
      exact .piperead n ‹_›
    · cases h
  | pipeclose writable =>
    rw [Pipe.step] at h
    split at h
    · cases h
      exact .pipeclose ‹_›
    · cases h
  | kkill p =>
    cases h
    exact .kkill p
  | turn p ch ok => exact moves_turn h

def Place.holds : Place → Bool
  | .writeTest _ _ | .writeByte _ _ | .readTest _ | .readWait _ | .readByte _ _ => true
  | _ => false

@[simp] theorem holds_wakeReader (x : Place) : x.wakeReader.holds = x.holds := by cases x <;> rfl

@[simp] theorem holds_wakeWriter (x : Place) : x.wakeWriter.holds = x.holds := by cases x <;> rfl

def Locked (s : Pipe P) : Prop := ∀ p, (s.place p).holds = true → s.lock = some p

omit [DecidableEq P] in
theorem Locked.other (h : Locked s) {p q : P} (hp : (s.place p).holds = true) (hq : (s.place q).holds = true) :
    p = q := Option.some.inj ((h p hp).symm.trans (h q hq))

omit [DecidableEq P] in
theorem Locked.free (h : Locked s) (hlock : s.lock = none) (p : P) : (s.place p).holds = false := by
  rw [← Bool.not_eq_true]
  intro hp
  rw [h p hp] at hlock
  cases hlock

theorem Locked.goto (h : Locked s) {p : P} {x : Place} (hx : x.holds = true → s.lock = some p) :
    Locked (s.goto p x) := by
  intro q hq
  by_cases hqp : q = p
  · subst hqp
    rw [Pipe.goto_place, update_self] at hq
    exact hx hq
  · rw [Pipe.goto_place, update_of_ne hqp] at hq
    exact h q hq

theorem Locked.acquire (h : Locked s) (hlock : s.lock = none) (p : P) (x : Place) : Locked (s.acquire p x) := by
  intro q hq
  by_cases hqp : q = p
  · rw [hqp]
    rfl
  · rw [Pipe.acquire_place, update_of_ne hqp, h.free hlock q] at hq
    cases hq

theorem Locked.release (h : Locked s) {p : P} {x : Place} (hp : (s.place p).holds = true) (hx : x.holds = false) :
    Locked (s.release p x) := by
  intro q hq
  by_cases hqp : q = p
  · subst hqp
    rw [Pipe.release_place, update_self, hx] at hq
    cases hq
  · rw [Pipe.release_place, update_of_ne hqp] at hq
    exact absurd (h.other hq hp) hqp

theorem wakeReader_eq {x y : Place} (hy : ∀ n, y ≠ .readLock n) (h : x.wakeReader = y) : x = y := by
  cases x with
  | readSleep n => exact absurd h.symm (hy n)
  | _ => exact h

theorem wakeWriter_eq {x y : Place} (hy : ∀ n i, y ≠ .writeLock n i) (h : x.wakeWriter = y) : x = y := by
  cases x with
  | writeSleep n i => exact absurd h.symm (hy n i)
  | _ => exact h

omit [DecidableEq P] in
theorem Locked.wakeup (h : Locked s) {wake : Place → Place} (hwake : ∀ x, (wake x).holds = x.holds) :
    Locked (s.wakeup wake) := by
  intro q hq
  rw [Pipe.wakeup_place, hwake] at hq
  exact h q hq

theorem locked_step (h : Locked s) (hm : Moves s e t) : Locked t := by
  have hself : ∀ {p x}, s.place p = x → x.holds = true → s.lock = some p ∧ (s.place p).holds = true := by
    rintro p x hp hx
    rw [← hp] at hx
    exact ⟨h p hx, hx⟩
  cases hm with
  | pipewrite n hp | piperead n hp => exact h.goto nofun
  | @pipeclose writable hlock =>
    cases writable with
    | true => exact h.wakeup holds_wakeReader
    | false => exact h.wakeup holds_wakeWriter
  | kkill p => exact h.goto (fun hx => h p (by simpa using hx))
  | writeLock hp hlock | readLock hp hlock => exact h.acquire hlock _ _
  | writeRefused hp | readKilled hp | readSleep hp => exact h.release (hself hp rfl).2 rfl
  | writeTest hp | readWait hp | readReady hp => exact h.goto fun _ => (hself hp rfl).1
  | writeByte hp => exact Locked.goto (s := s.put _) h fun _ => (hself hp rfl).1
  | readByte hp => exact Locked.goto (s := s.take) h fun _ => (hself hp rfl).1
  | writeDone hp | writeSleep hp | writeFault hp =>
    exact (h.wakeup holds_wakeReader).release ((holds_wakeReader _).trans (hself hp rfl).2) rfl
  | readFault hp | readDone hp =>
    exact (h.wakeup holds_wakeWriter).release ((holds_wakeWriter _).trans (hself hp rfl).2) rfl

omit [DecidableEq P] in
theorem locked_pipealloc (junk : Fin PIPESIZE → Byte) : Locked (pipealloc junk : Pipe P) := by
  rintro p ⟨⟩

end AdaptiveXv6.Pipes
