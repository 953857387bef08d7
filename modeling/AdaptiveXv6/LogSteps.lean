import AdaptiveXv6.LogSystem

namespace AdaptiveXv6.LogSteps

open Words LogDisk LogSystem System

variable {ι : Type} [DecidableEq ι] {start : Nat} {s t : System ι} {e : Event ι}

inductive Acts (start : Nat) (s : System ι) : Event ι → System ι → Prop
  | call (p) (h : s.pc p = .idle) : Acts start s (.call p) (s.goto p .beginning)
  | admitted (p l) (h : s.pc p = .beginning) (hl : beginOp s.log = some l) :
      Acts start s (.beginOp p) { s.goto p .active with log := l }
  | refused (p) (h : s.pc p = .beginning) (hl : beginOp s.log = none) :
      Acts start s (.beginOp p) (s.goto p .beginSleep)
  | logWrite (p b v l) (h : s.pc p = .active) (hl : logWrite s.log b = .ok l) :
      Acts start s (.logWrite p b v) { s with log := l, cache := Function.update s.cache b (some v) }
  | logPanic (p b v x) (h : s.pc p = .active) (hl : logWrite s.log b = .error x) :
      Acts start s (.logWrite p b v) { s with panicked := some x }
  | commit (p l) (h : s.pc p = .active) (hl : endOp s.log = .ok (l, true)) :
      Acts start s (.endOp p)
        { s.goto p (.committing (commitWrites start s.disk s.cache s.log.lh)) with log := l }
  | endOp (p l) (h : s.pc p = .active) (hl : endOp s.log = .ok (l, false)) :
      Acts start s (.endOp p) { (s.goto p .idle).wakeup with log := l }
  | endPanic (p x) (h : s.pc p = .active) (hl : endOp s.log = .error x) :
      Acts start s (.endOp p) { s with panicked := some x }
  | diskWrite (p w ws) (h : s.pc p = .committing (w :: ws)) :
      Acts start s (.diskWrite p) ((s.bwrite w).goto p (.committing ws))
  | commitDone (p) (h : s.pc p = .committing []) :
      Acts start s (.commitDone p) { (s.goto p .idle).wakeup with log := commitDone s.log }
  | sync (p) (h : s.pc p = .idle) (hb : s.log.committing ∨ s.log.outstanding > 0) :
      Acts start s (.sync p) (s.await p (i32 (s.log.ncommit + 1)))
  | syncNow (p) (h : s.pc p = .idle) (hb : ¬(s.log.committing ∨ s.log.outstanding > 0)) :
      Acts start s (.sync p) s
  | syncTest (p target) (h : s.pc p = .syncLoop target) : Acts start s (.syncTest p) (s.await p target)
  | kick (p) : Acts start s (.kick p) (s.goto p (wake (s.pc p)))

theorem acts_of_act (h : s.act start e = some t) : Acts start s e t := by
  cases e with
  | call p | diskWrite p | commitDone p | syncTest p =>
    simp only [act] at h
    split at h
    · cases h
      constructor
      assumption
    · cases h
  | beginOp p =>
    simp only [act] at h
    split at h
    · split at h
      · cases h
        exact .admitted p _ ‹_› ‹_›
      · cases h
        exact .refused p ‹_› ‹_›
    · cases h
  | logWrite p b v =>
    simp only [act] at h
    split at h
    · split at h
      · cases h
        exact .logWrite p b v _ ‹_› ‹_›
      · cases h
        exact .logPanic p b v _ ‹_› ‹_›
    · cases h
  | endOp p =>
    simp only [act] at h
    split at h
    · split at h
      · cases h
        exact .commit p _ ‹_› ‹_›
      · cases h
        exact .endOp p _ ‹_› ‹_›
      · cases h
        exact .endPanic p _ ‹_› ‹_›
    · cases h
  | sync p =>
    simp only [act] at h
    split at h
    · split at h
      · cases h
        exact .sync p ‹_› ‹_›
      · cases h
        exact .syncNow p ‹_› ‹_›
    · cases h
  | kick p =>
    cases h
    exact .kick p
  | crash | boot | recoverWrite | recovered => cases h

inductive Steps (start : Nat) (s : System ι) : Event ι → System ι → Prop
  | crash : Steps start s .crash s.crash
  | boot (h : s.mode = .down) :
      Steps start s .boot { s with mode := .recovering (recoverWrites start s.disk) }
  | recoverWrite (w ws) (h : s.mode = .recovering (w :: ws)) :
      Steps start s .recoverWrite { s.bwrite w with mode := .recovering ws }
  | recovered (h : s.mode = .recovering []) : Steps start s .recovered { s with mode := .up }
  | act (e : Event ι) (t : System ι) (hup : s.mode = .up) (hok : s.panicked = none) (h : Acts start s e t) :
      Steps start s e t

theorem steps_of_step (h : s.step start e = some t) : Steps start s e t := by
  cases e with
  | crash =>
    cases h
    exact .crash
  | boot =>
    simp only [step] at h
    split at h
    · cases h
      exact .boot ‹_›
    · cases h
  | recoverWrite =>
    simp only [step] at h
    split at h
    · cases h
      exact .recoverWrite _ _ ‹_›
    · cases h
  | recovered =>
    simp only [step] at h
    split at h
    · cases h
      exact .recovered ‹_›
    · cases h
  | _ =>
    simp only [step] at h
    split at h
    · exact .act _ _ ‹_› ‹_› (acts_of_act h)
    · cases h

theorem absorb_eq (lh : List Nat) (b : Nat) : absorb lh b = if b ∈ lh then lh else lh ++ [b] := by
  rw [absorb]
  by_cases hb : b ∈ lh
  · have hlt := List.idxOf_lt_length_of_mem hb
    have hset := List.set_getElem_self hlt
    rw [List.getElem_idxOf hlt] at hset
    rw [if_neg (Nat.ne_of_lt hlt), if_pos hb, hset]
  · rw [if_pos (List.idxOf_eq_length hb), if_neg hb]

theorem mem_absorb {lh : List Nat} {a b : Nat} : a ∈ absorb lh b ↔ a ∈ lh ∨ a = b := by
  rw [absorb_eq]
  split
  · rename_i hb
    refine ⟨.inl, ?_⟩
    rintro (h | rfl)
    · exact h
    · exact hb
  · simp

section Sections

variable {l l' : Log} {b : Nat} {x : Panic}

theorem beginOp_some (h : beginOp l = some l') : l.committing = false ∧
    l.lh.length + (l.outstanding + 1) * MAXOPBLOCKS ≤ LOGBLOCKS ∧
    l' = { l with outstanding := l.outstanding + 1 } := by
  rw [beginOp] at h
  split at h
  · cases h
  · split at h
    · cases h
    · cases h
      exact ⟨by simp_all, by omega, rfl⟩

theorem logWrite_ok (h : logWrite l b = .ok l') :
    l.lh.length < LOGBLOCKS ∧ 1 ≤ l.outstanding ∧ l' = { l with lh := absorb l.lh b } := by
  rw [logWrite] at h
  split at h
  · cases h
  · split at h
    · cases h
    · cases h
      exact ⟨by omega, by omega, rfl⟩

theorem logWrite_error (h : logWrite l b = .error x) :
    x = .tooBig ∧ LOGBLOCKS ≤ l.lh.length ∨ x = .outside ∧ l.outstanding = 0 := by
  rw [logWrite] at h
  split at h
  · cases h
    exact .inl ⟨rfl, ‹_›⟩
  · split at h
    · cases h
      exact .inr ⟨rfl, by omega⟩
    · cases h

theorem endOp_commits (h : endOp l = .ok (l', true)) : l.committing = false ∧ l.outstanding ≤ 1 ∧
    l' = { l with outstanding := l.outstanding - 1, committing := true } := by
  rw [endOp] at h
  split at h
  · cases h
  · split at h
    · cases h
      exact ⟨by simp_all, by omega, rfl⟩
    · cases h

theorem endOp_leaves (h : endOp l = .ok (l', false)) : l.committing = false ∧ 1 < l.outstanding ∧
    l' = { l with outstanding := l.outstanding - 1 } := by
  rw [endOp] at h
  split at h
  · cases h
  · split at h
    · cases h
    · cases h
      exact ⟨by simp_all, by omega, rfl⟩

theorem endOp_error (h : endOp l = .error x) : l.committing = true := by
  rw [endOp] at h
  split at h
  · assumption
  · split at h <;> cases h

end Sections

end AdaptiveXv6.LogSteps
