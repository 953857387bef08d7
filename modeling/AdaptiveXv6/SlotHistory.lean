import AdaptiveXv6.Exclusion

namespace AdaptiveXv6.SlotHistory

open Process Ops Machine Steps Exclusion

variable {n : Nat}

/-- The critical section that is run on slot p at position k, if one is. -/
def sectionAt (r : Run n) (k : Nat) (p : Slot) : Option Op :=
  (r.event k).bind (fun e => opAt (r.state k) e p)

theorem section_procs (r : Run n) (k : Nat) (p : Slot) :
    (r.state (k + 1)).procs p = applyOp (r.state k).ticks (sectionAt r k p) ((r.state k).procs p) := by
  rw [sectionAt]
  cases he : r.event k with
  | none => rw [r.state_of_no_event he]; rfl
  | some e => exact step_procs (r.step_of_event he) p

theorem section_apply (r : Run n) {k : Nat} {p : Slot} {op : Op} (h : sectionAt r k p = some op) :
    (r.state (k + 1)).procs p = op.apply (r.state k).ticks ((r.state k).procs p) := by
  rw [section_procs, h, applyOp]

theorem section_none (r : Run n) {k : Nat} {p : Slot} (h : sectionAt r k p = none) :
    (r.state (k + 1)).procs p = (r.state k).procs p := by
  rw [section_procs, h, applyOp]

theorem section_of_moves (r : Run n) {k : Nat} {e : Event n} {m : Move n} {sec : Section n}
    (he : r.event k = some e) (hm : Moves (r.state k) e m) (hc : m.crit = some sec) :
    sectionAt r k sec.slot = some sec.op := by
  simp [sectionAt, he, opAt, move_of_moves hm, hc]

theorem section_pre (r : Run n) {k : Nat} {p : Slot} {op : Op} (h : sectionAt r k p = some op) :
    op.Pre ((r.state k).procs p) := by
  obtain ⟨e, -, hop⟩ := Option.bind_eq_some_iff.mp h
  exact (run_exclusive r k).pre hop

/-- The ticks charged to the process in a slot since its last sleep, exit or allocation, and its dispatches
since allocation. -/
structure Tally where
  burst : Nat
  dispatches : Nat

def count : Op → Proc → Tally → Tally
  | .chargeTick, _, g => { g with burst := g.burst + 1 }
  | .sleep _, _, g | .kexit _, _, g => { g with burst := 0 }
  | .allocproc _, _, _ | .freeproc, _, _ => ⟨0, 0⟩
  | .dispatch, x, g => if x.state = .runnable then { g with dispatches := g.dispatches + 1 } else g
  | .rescore, _, g | .resume, _, g | .yield, _, g | .wakeup _, _, g | .kkill _, _, g
  | .setkilled, _, g | .makeRunnable, _, g | .accountWait, _, g | .unlock, _, g => g

def countAt (s : Kernel n) (e : Event n) (p : Slot) (g : Tally) : Tally :=
  match opAt s e p with
  | some op => count op (s.procs p) g
  | none => g

def tally (r : Run n) (p : Slot) : Nat → Tally := r.history (fun s e g => countAt s e p g) ⟨0, 0⟩

theorem tally_section (r : Run n) {k : Nat} {p : Slot} {op : Op} (h : sectionAt r k p = some op) :
    tally r p (k + 1) = count op ((r.state k).procs p) (tally r p k) := by
  obtain ⟨e, he, hop⟩ := Option.bind_eq_some_iff.mp h
  rw [tally, r.history_event _ _ he, countAt, hop]

theorem tally_none (r : Run n) {k : Nat} {p : Slot} (h : sectionAt r k p = none) :
    tally r p (k + 1) = tally r p k := by
  cases he : r.event k with
  | none => exact r.history_no_event _ _ he
  | some e =>
    have hop : opAt (r.state k) e p = none := by simpa [sectionAt, he] using h
    rw [tally, r.history_event _ _ he, countAt, hop]

/-- Every CPU burst of the run is shorter than B ticks. -/
def BurstsBelow (r : Run n) (B : Nat) : Prop := ∀ p k, (tally r p k).burst < B

/-- An invariant of single slots is checked on critical sections only, in the states in which the kernel runs
them. -/
theorem slot_always (r : Run n) (p : Slot) {Q : Tally → Prop} {J : Proc → Tally → Prop}
    (hQ : ∀ k, Q (tally r p k)) (h₀ : J ((boot n).procs p) ⟨0, 0⟩)
    (hop : ∀ ticks op x g, op.Pre x → J x g → Q g → Q (count op x g) → J (op.apply ticks x) (count op x g))
    (k : Nat) : J ((r.state k).procs p) (tally r p k) := by
  have hinv : Exclusive (r.state k) ∧ J ((r.state k).procs p) (tally r p k) := by
    refine r.always_history (I := fun s g => Exclusive s ∧ J (s.procs p) g) hQ
      ⟨boot_exclusive n, h₀⟩ ?_ k
    intro s e t g ⟨hx, hj⟩ hb hb' he
    refine ⟨hx.step he, ?_⟩
    rw [step_procs he]
    simp only [countAt] at hb' ⊢
    cases ho : opAt s e p with
    | none => exact hj
    | some op =>
      rw [ho] at hb'
      exact hop s.ticks op _ g (hx.pre ho) hj hb hb'
  exact hinv.2

section Ghost

variable {α : Type} (f : Op → Proc → α → α) (a : α)

/-- A record kept of one slot: f tells how a critical section on it changes the record. -/
def along (r : Run n) (p : Slot) : Nat → α :=
  r.history (fun s e g => match opAt s e p with
    | some op => f op (s.procs p) g
    | none => g) a

theorem along_section (r : Run n) {k : Nat} {p : Slot} {op : Op} (h : sectionAt r k p = some op) :
    along f a r p (k + 1) = f op ((r.state k).procs p) (along f a r p k) := by
  obtain ⟨e, he, hop⟩ := Option.bind_eq_some_iff.mp h
  rw [along, r.history_event _ _ he]
  simp only [hop]

theorem along_none (r : Run n) {k : Nat} {p : Slot} (h : sectionAt r k p = none) :
    along f a r p (k + 1) = along f a r p k := by
  cases he : r.event k with
  | none => exact r.history_no_event _ _ he
  | some e =>
    have hop : opAt (r.state k) e p = none := by simpa [sectionAt, he] using h
    rw [along, r.history_event _ _ he]
    simp only [hop]

theorem along_always (r : Run n) (p : Slot) {J : Proc → α → Prop} (h₀ : J ((boot n).procs p) a)
    (hop : ∀ ticks op x g, op.Pre x → J x g → J (op.apply ticks x) (f op x g)) (k : Nat) :
    J ((r.state k).procs p) (along f a r p k) := by
  induction k with
  | zero => rw [r.start]; exact h₀
  | succ k ih =>
    cases hs : sectionAt r k p with
    | none => rw [section_none r hs, along_none f a r hs]; exact ih
    | some op =>
      rw [section_apply r hs, along_section f a r hs]
      exact hop _ op _ _ (section_pre r hs) ih

end Ghost

end AdaptiveXv6.SlotHistory
