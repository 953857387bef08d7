import AdaptiveXv6.Runs
import Mathlib.Data.Finset.Card

namespace AdaptiveXv6.Spinlocks

open Runs Function

/-- The callers of holding(). -/
inductive Call
  | acquire | release

inductive Panic (L : Type)
  | acquire (lk : L)
  | release (lk : L)
  | popOffInterruptible
  | popOff

/-- What a CPU executes next. holding() reads lk->locked and lk->cpu one after the other. -/
inductive Pc (L : Type)
  | run
  | holding (call : Call) (lk : L)
  | holdingCpu (call : Call) (lk : L)
  | exchange (lk : L)
  | setCpu (lk : L)
  | clearCpu (lk : L)
  | store (lk : L)
  | popOff
  | panic (why : Panic L)

/-- struct cpu with the interrupt enable bit. The last three fields are not in the code: the locks between
exchange and store, the calls of push_off() other than acquire()'s, and the bit at the outermost push_off() of
the thread. -/
structure Cpu (T L : Type) where
  proc : Option T
  noff : Nat
  intena : Bool
  sie : Bool
  pc : Pc L
  held : Finset L
  pushes : Nat
  before : Option Bool

namespace Cpu

variable {T L : Type}

def pushOff (x : Cpu T L) : Cpu T L :=
  { x with
    sie := false
    intena := if x.noff = 0 then x.sie else x.intena
    noff := x.noff + 1
    before := if x.noff = 0 then some x.sie else x.before }

def popOff (x : Cpu T L) : Cpu T L :=
  if x.sie then { x with pc := .panic .popOffInterruptible }
  else if x.noff < 1 then { x with pc := .panic .popOff }
  else { x with
    noff := x.noff - 1
    sie := x.noff - 1 == 0 && x.intena
    pc := .run
    before := if x.noff - 1 = 0 then none else x.before }

end Cpu

/-- What the caller of holding() does with its result. -/
def answer {L : Type} (lk : L) : Call → Bool → Pc L
  | .acquire, r => if r then .panic (.acquire lk) else .exchange lk
  | .release, r => if !r then .panic (.release lk) else .clearCpu lk

structure Spinlock (n : Nat) where
  locked : Bool
  cpu : Option (Fin n)

/-- For each thread that left its CPU in sched(), saved has the variable intena there. -/
structure System (n : Nat) (T L : Type) where
  lock : L → Spinlock n
  cpu : Fin n → Cpu T L
  saved : T → Option (Bool × Option Bool)

/-- An interrupt acts on the bit as intr_off() does, its end as intr_on(). The kernel calls intr_on() only with
noff = 0, and pop_off() only after its own push_off(). -/
inductive Act (T L : Type)
  | acquire (lk : L)
  | release (lk : L)
  | pushOff
  | popOff
  | sched
  | dispatch (t : T)
  | intrOn
  | intrOff
  | exec

namespace System

variable {n : Nat} {T L : Type}

def boot : System n T L :=
  ⟨fun _ => ⟨false, none⟩, fun _ => ⟨none, 0, false, false, .run, ∅, 0, none⟩, fun _ => none⟩

def put (s : System n T L) (c : Fin n) (x : Cpu T L) : System n T L := { s with cpu := update s.cpu c x }

variable [DecidableEq T] [DecidableEq L]

def write (s : System n T L) (lk : L) (v : Spinlock n) : System n T L := { s with lock := update s.lock lk v }

def save (s : System n T L) (t : T) (v : Option (Bool × Option Bool)) : System n T L :=
  { s with saved := update s.saved t v }

/-- The swtch() of sched(), for the thread t. -/
def leave (s : System n T L) (c : Fin n) (t : T) : System n T L :=
  (s.put c { s.cpu c with proc := none, before := none }).save t (some ((s.cpu c).intena, (s.cpu c).before))

/-- A thread returns from swtch() into sched(), or starts in forkret(). -/
def resume (s : System n T L) (c : Fin n) (t : T) : System n T L :=
  match s.saved t with
  | some (intena, before) =>
    (s.put c { s.cpu c with proc := some t, intena := intena, before := before }).save t none
  | none => s.put c { s.cpu c with proc := some t, before := none }

/-- sched() and scheduler() switch with the lock of the process and no other. -/
def call (lockOf : T → L) (s : System n T L) (c : Fin n) (x : Cpu T L) : Act T L → Option (System n T L)
  | .acquire lk => some (s.put c { x.pushOff with pc := .holding .acquire lk })
  | .release lk => some (s.put c { x with pc := .holding .release lk })
  | .pushOff => some (s.put c { x.pushOff with pushes := x.pushes + 1 })
  | .popOff => if 0 < x.pushes then some (s.put c { x.popOff with pushes := x.pushes - 1 }) else none
  | .sched => x.proc.bind fun t => if lockOf t ∈ x.held ∧ x.noff = 1 then some (s.leave c t) else none
  | .dispatch t => if x.proc.isNone ∧ lockOf t ∈ x.held ∧ x.noff = 1 then some (s.resume c t) else none
  | .intrOn => if x.noff = 0 then some (s.put c { x with sie := true }) else none
  | .intrOff => some (s.put c { x with sie := false })
  | .exec => none

def exec (s : System n T L) (c : Fin n) (x : Cpu T L) : Pc L → Option (System n T L)
  | .holding call lk =>
    some (s.put c { x with pc := if (s.lock lk).locked then .holdingCpu call lk else answer lk call false })
  | .holdingCpu call lk => some (s.put c { x with pc := answer lk call ((s.lock lk).cpu == some c) })
  | .exchange lk =>
    if (s.lock lk).locked then some s
    else some ((s.put c { x with pc := .setCpu lk, held := insert lk x.held }).write lk ⟨true, (s.lock lk).cpu⟩)
  | .setCpu lk => some ((s.put c { x with pc := .run }).write lk ⟨(s.lock lk).locked, some c⟩)
  | .clearCpu lk => some ((s.put c { x with pc := .store lk }).write lk ⟨(s.lock lk).locked, none⟩)
  | .store lk =>
    some ((s.put c { x with pc := .popOff, held := x.held.erase lk }).write lk ⟨false, (s.lock lk).cpu⟩)
  | .popOff => some (s.put c x.popOff)
  | .run | .panic _ => none

def step (lockOf : T → L) (s : System n T L) (e : Fin n × Act T L) : Option (System n T L) :=
  match (s.cpu e.1).pc, e.2 with
  | .run, a => s.call lockOf e.1 (s.cpu e.1) a
  | pc, .exec => s.exec e.1 (s.cpu e.1) pc
  | _, _ => none

end System

section Cpus

variable {T L : Type} {x : Cpu T L} {lk : L}

/-- The calls of push_off() that neither held nor pushes counts yet, or any more. -/
def Pc.pending : Pc L → Nat
  | .holding .acquire _ | .holdingCpu .acquire _ | .exchange _ | .popOff | .panic (.acquire _) => 1
  | _ => 0

/-- What holding() has found, and the one reason for each panic. -/
def Placed (held : Finset L) : Pc L → Prop
  | .exchange lk | .panic (.release lk) => lk ∉ held
  | .setCpu lk | .clearCpu lk | .store lk | .panic (.acquire lk) => lk ∈ held
  | .panic .popOff | .panic .popOffInterruptible => False
  | .run | .holding .. | .holdingCpu .. | .popOff => True

structure Local (x : Cpu T L) : Prop where
  count : x.noff = x.held.card + x.pushes + x.pc.pending
  quiet : x.sie = true → x.noff = 0
  begun : ∀ b, x.before = some b → 0 < x.noff ∧ x.intena = b
  place : Placed x.held x.pc

namespace Local

theorem jump (h : Local x) {pc : Pc L} (hcount : pc.pending = x.pc.pending) (hplace : Placed x.held pc) :
    Local { x with pc := pc } :=
  ⟨by simpa only [hcount] using h.count, h.quiet, h.begun, hplace⟩

theorem pushOff (h : Local x) {m : Nat} {pc : Pc L} (hcount : x.noff + 1 = x.held.card + m + pc.pending)
    (hplace : Placed x.held pc) : Local { x.pushOff with pushes := m, pc := pc } := by
  refine ⟨hcount, nofun, fun b hb => ⟨Nat.succ_pos _, ?_⟩, hplace⟩
  simp only [Cpu.pushOff] at hb ⊢
  split at hb
  · rename_i h₀
    rw [if_pos h₀]
    exact Option.some.inj hb
  · rename_i h₀
    rw [if_neg h₀]
    exact (h.begun b hb).2

theorem sie_eq_false (h : Local x) (hn : 0 < x.noff) : x.sie = false := by
  by_contra hne
  have h₀ := h.quiet (Bool.eq_true_of_not_eq_false hne)
  omega

theorem popOff_eq (h : Local x) (hn : 0 < x.noff) :
    x.popOff = { x with
      noff := x.noff - 1
      sie := x.noff - 1 == 0 && x.intena
      pc := .run
      before := if x.noff - 1 = 0 then none else x.before } := by
  rw [Cpu.popOff, h.sie_eq_false hn, if_neg Bool.false_ne_true, if_neg (by omega)]

theorem popOff (h : Local x) {m : Nat} (hcount : x.noff = x.held.card + m + 1) :
    Local { x.popOff with pushes := m } := by
  rw [h.popOff_eq (by omega)]
  refine ⟨?_, ?_, fun b hb => ?_, trivial⟩
  · change x.noff - 1 = x.held.card + m + 0
    omega
  · intro hs
    simp only [Bool.and_eq_true, beq_iff_eq] at hs
    exact hs.1
  · simp only at hb ⊢
    split at hb
    · cases hb
    · exact ⟨by omega, (h.begun b hb).2⟩

theorem answer (h : Local x) {call : Call} (hcall : (Pc.holding call lk).pending = x.pc.pending)
    {r : Bool} (hr : r = true ↔ lk ∈ x.held) : Local { x with pc := answer lk call r } := by
  cases r with
  | false =>
    have hnot : lk ∉ x.held := fun hm => Bool.false_ne_true (hr.mpr hm)
    cases call <;> exact h.jump hcall hnot
  | true => cases call <;> exact h.jump hcall (hr.mp rfl)

end Local

end Cpus

section Locks

variable {n : Nat} {T L : Type} [DecidableEq L] {c : Fin n} {lk : L} {x : Cpu T L}

/-- The positions in which lk->cpu does not name the CPU that has the lock. -/
def Pc.between (lk : L) : Pc L → Bool
  | .setCpu l | .store l => decide (lk = l)
  | _ => false

/-- None where the CPU does not have the lock. -/
def view (lk : L) (x : Cpu T L) : Option Bool := if lk ∈ x.held then some (x.pc.between lk) else none

/-- The lock is free, or one CPU has it. -/
inductive Owned : Spinlock n → (Fin n → Option Bool) → Prop
  | free : Owned ⟨false, none⟩ fun _ => none
  | taken (c : Fin n) (b : Bool) : Owned ⟨true, if b then none else some c⟩ (update (fun _ => none) c (some b))

theorem between_answer (call : Call) (r : Bool) (l : L) : (answer lk call r).between l = false := by
  cases call <;> cases r <;> rfl

theorem mem_iff_view : lk ∈ x.held ↔ view lk x = some (x.pc.between lk) := by
  simp [view]

namespace Owned

variable {l : Spinlock n} {v : Fin n → Option Bool} {b : Bool}

variable (h : Owned l v)

include h

theorem eq_taken (hc : v c = some b) :
    l = ⟨true, if b then none else some c⟩ ∧ v = update (fun _ => none) c (some b) := by
  cases h with
  | free => cases hc
  | taken d b' =>
    by_cases hcd : c = d
    · subst hcd
      rw [update_self] at hc
      cases hc
      exact ⟨rfl, rfl⟩
    · rw [update_of_ne hcd] at hc
      cases hc

theorem eq_free (hl : l.locked = false) : l = ⟨false, none⟩ ∧ v = fun _ => none := by
  cases h with
  | free => exact ⟨rfl, rfl⟩
  | taken d b' => cases hl

theorem of_cpu (hl : l.cpu = some c) : v c = some false := by
  cases h with
  | free => cases hl
  | taken d b =>
    cases b with
    | true => cases hl
    | false =>
      cases hl
      exact update_self ..

theorem unique (hc : v c = some b) {d : Fin n} {b' : Bool} (hd : v d = some b') : c = d := by
  by_contra hcd
  rw [(h.eq_taken hc).2, update_of_ne (Ne.symm hcd)] at hd
  cases hd

theorem exists_of_locked (hl : l.locked = true) : ∃ c b, v c = some b := by
  cases h with
  | free => cases hl
  | taken c b => exact ⟨c, b, update_self ..⟩

theorem change (hc : v c = some b) (b' : Bool) :
    Owned ⟨l.locked, if b' then none else some c⟩ (update v c (some b')) := by
  obtain ⟨rfl, rfl⟩ := h.eq_taken hc
  rw [update_idem]
  exact .taken c b'

theorem leave (hc : v c = some true) : Owned ⟨false, l.cpu⟩ (update v c none) := by
  obtain ⟨rfl, rfl⟩ := h.eq_taken hc
  rw [update_idem, update_eq_self]
  exact .free

theorem enter (hl : l.locked = false) : Owned ⟨true, l.cpu⟩ (update v c (some true)) := by
  obtain ⟨rfl, rfl⟩ := h.eq_free hl
  exact .taken c true

end Owned

structure Sound (s : System n T L) : Prop where
  locks : ∀ lk, Owned (s.lock lk) fun d => view lk (s.cpu d)
  cpus : ∀ c, Local (s.cpu c)
  saved : ∀ t i b, s.saved t = some (i, some b) → i = b

namespace Sound

variable {s t : System n T L} {lockOf : T → L}

theorem boot : Sound (System.boot : System n T L) := by
  refine ⟨fun lk => .free, fun c => ⟨rfl, ?_, ?_, trivial⟩, ?_⟩
  · rintro ⟨⟩
  · rintro b ⟨⟩
  · rintro t i b ⟨⟩

theorem moves (h : Sound s) (hcpu : t.cpu = update s.cpu c x) (hx : Local x)
    (hlock : ∀ lk, Owned (t.lock lk) (update (fun d => view lk (s.cpu d)) c (view lk x)))
    (hsaved : ∀ u i b, t.saved u = some (i, some b) → i = b) : Sound t := by
  refine ⟨fun lk => ?_, fun d => ?_, hsaved⟩
  · have hview : (fun d => view lk (t.cpu d)) = update (fun d => view lk (s.cpu d)) c (view lk x) := by
      rw [hcpu]
      exact comp_update (view lk) s.cpu c x
    rw [hview]
    exact hlock lk
  · rw [hcpu]
    by_cases hdc : d = c
    · rw [hdc, update_self]
      exact hx
    · rw [update_of_ne hdc]
      exact h.cpus d

/-- A step that touches no lock. -/
theorem put (h : Sound s) (hold : ∀ lk, (s.cpu c).pc.between lk = false) (hx : Local x)
    (hheld : x.held = (s.cpu c).held) (hnew : ∀ lk, x.pc.between lk = false) : Sound (s.put c x) := by
  refine h.moves rfl hx (fun lk => ?_) h.saved
  have hview : view lk x = view lk (s.cpu c) := by rw [view, view, hheld, hold, hnew]
  rw [hview, update_eq_self (f := fun d => view lk (s.cpu d))]
  exact h.locks lk

/-- A step that writes a field of one lock. -/
theorem write (h : Sound s) (hx : Local x) (hother : ∀ l, l ≠ lk → view l x = view l (s.cpu c)) {v : Spinlock n}
    {b : Option Bool} (hb : view lk x = b) (hv : Owned v (update (fun d => view lk (s.cpu d)) c b)) :
    Sound ((s.put c x).write lk v) := by
  refine h.moves rfl hx (fun l => ?_) h.saved
  by_cases hl : l = lk
  · rw [hl, hb]
    simpa only [System.write, update_self] using hv
  · simp only [System.write, update_of_ne hl]
    rw [hother l hl, update_eq_self (f := fun d => view l (s.cpu d))]
    exact h.locks l

/-- The result of holding() is exact although its two reads race with other CPUs. -/
theorem holding_iff (h : Sound s) (hold : (s.cpu c).pc.between lk = false) :
    ((s.lock lk).cpu == some c) = true ↔ lk ∈ (s.cpu c).held := by
  rw [mem_iff_view, hold, beq_iff_eq]
  refine ⟨(h.locks lk).of_cpu, fun hc => ?_⟩
  rw [((h.locks lk).eq_taken hc).1]
  rfl

theorem locked_of_mem (h : Sound s) (hc : lk ∈ (s.cpu c).held) : (s.lock lk).locked = true := by
  rw [((h.locks lk).eq_taken (mem_iff_view.mp hc)).1]

theorem exec (h : Sound s) (ht : s.exec c (s.cpu c) (s.cpu c).pc = some t) : Sound t := by
  have hx := h.cpus c
  have hcount := hx.count
  have hplace := hx.place
  cases hpc : (s.cpu c).pc with
  | run | panic => rw [hpc] at ht; cases ht
  | holding call lk =>
    rw [hpc] at ht
    cases ht
    have hold : ∀ l, (s.cpu c).pc.between l = false := fun l => by rw [hpc]; rfl
    cases hl : (s.lock lk).locked with
    | true => exact h.put hold (hx.jump (by rw [hpc]; cases call <;> rfl) trivial) rfl fun _ => rfl
    | false =>
      have hr : false = true ↔ lk ∈ (s.cpu c).held := by
        refine ⟨nofun, fun hm => ?_⟩
        rw [← hl, h.locked_of_mem hm]
      exact h.put hold (hx.answer (by rw [hpc]) hr) rfl (between_answer call _)
  | holdingCpu call lk =>
    rw [hpc] at ht
    cases ht
    have hold : ∀ l, (s.cpu c).pc.between l = false := fun l => by rw [hpc]; rfl
    exact h.put hold (hx.answer (by rw [hpc]; cases call <;> rfl) (h.holding_iff (hold lk))) rfl
      (between_answer call _)
  | exchange lk =>
    rw [hpc] at ht hcount hplace
    rw [System.exec] at ht
    split at ht
    · cases ht
      exact h
    · rename_i hl
      cases ht
      apply h.write
      · refine ⟨?_, hx.quiet, hx.begun, Finset.mem_insert_self ..⟩
        change _ = (insert lk (s.cpu c).held).card + _ + 0
        rw [Finset.card_insert_of_notMem hplace, hcount]
        exact Nat.add_right_comm ..
      · intro l hne
        simp [view, hpc, Pc.between, hne]
      · exact (if_pos (Finset.mem_insert_self lk _)).trans (congrArg some (decide_eq_true rfl))
      · exact (h.locks lk).enter (Bool.eq_false_of_not_eq_true hl)
  | setCpu lk =>
    rw [hpc] at ht hplace
    cases ht
    apply h.write
    · exact hx.jump (by rw [hpc]; rfl) trivial
    · intro l hne
      simp [view, hpc, Pc.between, hne]
    · exact if_pos hplace
    · exact (h.locks lk).change (if_pos hplace) false
  | clearCpu lk =>
    rw [hpc] at ht hplace
    cases ht
    apply h.write
    · exact hx.jump (by rw [hpc]; rfl) hplace
    · intro l hne
      simp [view, hpc, Pc.between, hne]
    · exact (if_pos hplace).trans (congrArg some (decide_eq_true rfl))
    · exact (h.locks lk).change (if_pos hplace) true
  | store lk =>
    rw [hpc] at ht hcount hplace
    cases ht
    apply h.write
    · refine ⟨?_, hx.quiet, hx.begun, trivial⟩
      change (s.cpu c).noff = ((s.cpu c).held.erase lk).card + (s.cpu c).pushes + 1
      have hcard := Finset.card_erase_add_one hplace
      change _ = _ + _ + 0 at hcount
      omega
    · intro l hne
      simp [view, hpc, Pc.between, hne]
    · exact if_neg (Finset.notMem_erase lk _)
    · refine (h.locks lk).leave ((if_pos hplace).trans ?_)
      rw [hpc, Pc.between, decide_eq_true rfl]
  | popOff =>
    rw [hpc] at ht hcount
    cases ht
    change _ = _ + _ + 1 at hcount
    have hlocal := hx.popOff hcount
    rw [hx.popOff_eq (by omega)] at hlocal ⊢
    exact h.put (fun lk => by rw [hpc]; rfl) hlocal rfl fun _ => rfl

variable [DecidableEq T]

theorem save (h : Sound s) {u : T} {w : Option (Bool × Option Bool)}
    (hw : ∀ i b, w = some (i, some b) → i = b) : Sound (s.save u w) := by
  refine ⟨h.locks, h.cpus, fun v i b hv => ?_⟩
  by_cases hvu : v = u
  · simp only [System.save, hvu, update_self] at hv
    exact hw i b hv
  · simp only [System.save, update_of_ne hvu] at hv
    exact h.saved v i b hv

theorem leave (h : Sound s) (hold : ∀ lk, (s.cpu c).pc.between lk = false) (u : T) : Sound (s.leave c u) := by
  have hx := h.cpus c
  apply save
  · exact h.put hold ⟨hx.count, hx.quiet, by rintro b ⟨⟩, hx.place⟩ rfl hold
  · intro i b hib
    simp only [Option.some.injEq, Prod.mk.injEq] at hib
    rw [← hib.1]
    exact (hx.begun b hib.2).2

theorem resume (h : Sound s) (hold : ∀ lk, (s.cpu c).pc.between lk = false) (hn : (s.cpu c).noff = 1)
    (u : T) : Sound (s.resume c u) := by
  have hx := h.cpus c
  rw [System.resume]
  cases hu : s.saved u with
  | none => exact h.put hold ⟨hx.count, hx.quiet, by rintro b ⟨⟩, hx.place⟩ rfl hold
  | some w =>
    have hlocal : Local { s.cpu c with proc := some u, intena := w.1, before := w.2 } := by
      refine ⟨hx.count, hx.quiet, fun b hb => ⟨Nat.lt_of_lt_of_eq Nat.one_pos hn.symm, ?_⟩, hx.place⟩
      apply h.saved u w.1 b
      rw [hu, ← hb]
    exact save (h.put hold hlocal rfl hold) (by rintro i b ⟨⟩)

theorem call (h : Sound s) (hpc : (s.cpu c).pc = .run) {a : Act T L}
    (ht : s.call lockOf c (s.cpu c) a = some t) : Sound t := by
  have hx := h.cpus c
  have hcount := hx.count
  rw [hpc] at hcount
  have hold : ∀ lk, (s.cpu c).pc.between lk = false := fun lk => by rw [hpc]; rfl
  cases a with
  | acquire lk =>
    cases ht
    exact h.put hold (hx.pushOff (by rw [hcount]; rfl) trivial) rfl fun _ => rfl
  | release lk =>
    cases ht
    exact h.put hold (hx.jump (by rw [hpc]; rfl) trivial) rfl fun _ => rfl
  | pushOff =>
    cases ht
    apply h.put hold (hx.pushOff ?_ ?_) rfl hold
    · change _ = _ + _ + (s.cpu c).pc.pending
      rw [hcount, hpc]
      exact Nat.add_right_comm ..
    · change Placed _ (s.cpu c).pc
      rw [hpc]
      trivial
  | popOff =>
    obtain ⟨hp, ht⟩ := Option.ite_none_right_eq_some.mp ht
    cases ht
    change _ = _ + _ + 0 at hcount
    have hlocal := hx.popOff (m := (s.cpu c).pushes - 1) (by omega)
    rw [hx.popOff_eq (by omega)] at hlocal ⊢
    exact h.put hold hlocal rfl fun _ => rfl
  | sched =>
    obtain ⟨u, -, ht⟩ := Option.bind_eq_some_iff.mp ht
    obtain ⟨-, ht⟩ := Option.ite_none_right_eq_some.mp ht
    cases ht
    exact h.leave hold u
  | dispatch u =>
    obtain ⟨⟨-, -, hn⟩, ht⟩ := Option.ite_none_right_eq_some.mp ht
    cases ht
    exact h.resume hold hn u
  | intrOn =>
    obtain ⟨hn, ht⟩ := Option.ite_none_right_eq_some.mp ht
    cases ht
    exact h.put hold ⟨hx.count, fun _ => hn, hx.begun, hx.place⟩ rfl hold
  | intrOff =>
    cases ht
    exact h.put hold ⟨hx.count, nofun, hx.begun, hx.place⟩ rfl hold
  | exec => cases ht

theorem step (h : Sound s) {e : Fin n × Act T L} (ht : s.step lockOf e = some t) : Sound t := by
  obtain ⟨c, a⟩ := e
  rw [System.step] at ht
  split at ht
  · rename_i hpc
    exact h.call hpc ht
  · exact h.exec ht
  · cases ht

theorem run (r : Run (System.step lockOf) (System.boot : System n T L)) (k : Nat) : Sound (r.state k) :=
  r.always boot (fun _ _ _ h ht => h.step ht) k

end Sound

end Locks

section Runs

variable {n : Nat} {T L : Type} [DecidableEq T] [DecidableEq L] {lockOf : T → L}

theorem spinlocks_exclude (r : Run (System.step lockOf) (System.boot : System n T L)) (k : Nat) :
    (∀ c d lk, lk ∈ ((r.state k).cpu c).held → lk ∈ ((r.state k).cpu d).held → c = d) ∧
    (∀ lk, ((r.state k).lock lk).locked = true ↔ ∃ c, lk ∈ ((r.state k).cpu c).held) ∧
    ∀ c, Placed ((r.state k).cpu c).held ((r.state k).cpu c).pc := by
  have h := Sound.run r k
  refine ⟨fun c d lk hc hd => ?_, fun lk => ⟨fun hl => ?_, ?_⟩, fun c => (h.cpus c).place⟩
  · exact (h.locks lk).unique (mem_iff_view.mp hc) (mem_iff_view.mp hd)
  · obtain ⟨c, b, hc⟩ := (h.locks lk).exists_of_locked hl
    exact ⟨c, (Option.ite_none_right_eq_some.mp hc).1⟩
  · rintro ⟨c, hc⟩
    exact h.locked_of_mem hc

/-- Interrupts are off while a lock is held or push_off() is in force, pop_off() does not panic, and the one that
brings noff to 0 in a process gives back the bit as its outermost push_off() has found it, on whichever CPU the
process is by then. The scheduler and new threads pop with the intena that is there. -/
theorem interrupts_nest (r : Run (System.step lockOf) (System.boot : System n T L)) (k : Nat) (c : Fin n) :
    (((r.state k).cpu c).sie = true → ((r.state k).cpu c).held = ∅ ∧ ((r.state k).cpu c).pushes = 0) ∧
    (0 < ((r.state k).cpu c).noff → ((r.state k).cpu c).popOff =
      { (r.state k).cpu c with
        noff := ((r.state k).cpu c).noff - 1
        sie := ((r.state k).cpu c).noff - 1 == 0 && ((r.state k).cpu c).intena
        pc := .run
        before := if ((r.state k).cpu c).noff - 1 = 0 then none else ((r.state k).cpu c).before }) ∧
    ∀ t b, ((r.state k).cpu c).proc = some t → ((r.state k).cpu c).before = some b →
      ((r.state k).cpu c).noff = 1 → ((r.state k).cpu c).popOff =
        { (r.state k).cpu c with noff := 0, sie := b, pc := .run, before := none } := by
  have h := (Sound.run r k).cpus c
  refine ⟨fun hs => ?_, h.popOff_eq, fun t b _ hb hn => ?_⟩
  · have hcount := h.count
    rw [h.quiet hs] at hcount
    refine ⟨Finset.card_eq_zero.mp ?_, ?_⟩ <;> omega
  · rw [h.popOff_eq (by omega), hn, ← (h.begun b hb).2]
    rfl

end Runs

end AdaptiveXv6.Spinlocks
