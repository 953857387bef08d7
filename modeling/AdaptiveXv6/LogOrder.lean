import AdaptiveXv6.LogSteps
import Mathlib.Data.Finset.Card

namespace AdaptiveXv6.LogOrder

open LogDisk LogSystem System LogSteps Function

variable {ι : Type} {start : Nat} {s t : System ι} {e : Event ι} {A : Finset ι} {p : ι} {l : Log}

@[simp] theorem wake_eq_active {pc : Pc} : wake pc = .active ↔ pc = .active := by cases pc <;> simp [wake]

@[simp] theorem wake_eq_committing {pc : Pc} {todo : List (Nat × Block)} :
    wake pc = .committing todo ↔ pc = .committing todo := by
  cases pc <;> simp [wake]

def Alike (f g : ι → Pc) : Prop :=
  ∀ p, (g p = .active ↔ f p = .active) ∧ ∀ todo, g p = .committing todo ↔ f p = .committing todo

section Places

variable [DecidableEq ι]

theorem alike_update {f : ι → Pc} {p : ι} {pc : Pc} (h : (pc = .active ↔ f p = .active) ∧
    ∀ todo, pc = .committing todo ↔ f p = .committing todo) : Alike f (update f p pc) := by
  intro q
  by_cases hq : q = p
  · subst hq
    simpa using h
  · simp [update_of_ne hq]

theorem alike_await (s : System ι) {p : ι} (h : s.pc p = .idle ∨ ∃ n, s.pc p = .syncLoop n) (target : Int) :
    (s.await p target).log = s.log ∧ (s.await p target).disk = s.disk ∧
      (s.await p target).cache = s.cache ∧ (s.await p target).mode = s.mode ∧
      (s.await p target).panicked = s.panicked ∧ Alike s.pc (s.await p target).pc := by
  rw [await]
  split <;> refine ⟨rfl, rfl, rfl, rfl, rfl, alike_update ?_⟩ <;>
    rcases h with h | ⟨n, h⟩ <;> simp [h]

end Places

/-- Outstanding counts the operations in progress, and a commit runs alone. -/
structure Ordered (s : System ι) (A : Finset ι) : Prop where
  active : ∀ p, p ∈ A ↔ s.pc p = .active
  count : s.log.outstanding = A.card
  alone : s.log.committing = true → s.log.outstanding = 0
  committer : ∀ p todo, s.pc p = .committing todo → s.log.committing = true
  unique : ∀ p q todo todo', s.pc p = .committing todo → s.pc q = .committing todo' → p = q

namespace Ordered

theorem off (disk : Disk) : Ordered (off (ι := ι) disk) ∅ :=
  ⟨fun _ => by simp [LogSystem.off], rfl, nofun, nofun, nofun⟩

theorem alike (h : Ordered s A) (ha : Alike s.pc t.pc) (ho : t.log.outstanding = s.log.outstanding)
    (hc : t.log.committing = s.log.committing) : Ordered t A where
  active q := (h.active q).trans (ha q).1.symm
  count := ho.trans h.count
  alone hcom := by rw [ho]; exact h.alone (hc ▸ hcom)
  committer q todo hq := by rw [hc]; exact h.committer q todo (((ha q).2 todo).mp hq)
  unique q q' todo todo' hq hq' :=
    h.unique q q' todo todo' (((ha q).2 todo).mp hq) (((ha q').2 todo').mp hq')

theorem same (h : Ordered s A) (hpc : t.pc = s.pc) (hl : t.log = s.log) : Ordered t A :=
  h.alike (fun _ => by simp [hpc]) (by rw [hl]) (by rw [hl])

theorem quiet_of_active (h : Ordered s A) (hp : s.pc p = .active) :
    s.log.committing = false ∧ ∀ q todo, s.pc q ≠ .committing todo := by
  have hpos : 0 < s.log.outstanding := by
    rw [h.count]
    exact Finset.card_pos.mpr ⟨p, (h.active p).mpr hp⟩
  have hno : s.log.committing = false := by
    cases hcom : s.log.committing with
    | false => rfl
    | true =>
      have := h.alone hcom
      omega
  refine ⟨hno, fun q todo hq => ?_⟩
  rw [h.committer q todo hq] at hno
  cases hno

variable [DecidableEq ι]

variable (h : Ordered s A)

include h

theorem admitted (hp : s.pc p = .beginning) (hl : beginOp s.log = some l) :
    Ordered { s.goto p .active with log := l } (insert p A) := by
  obtain ⟨hcom, -, rfl⟩ := beginOp_some hl
  have hout : p ∉ A := fun hm => by simp [(h.active p).mp hm] at hp
  have hno : ∀ q todo, s.pc q ≠ .committing todo := by
    intro q todo hq
    rw [h.committer q todo hq] at hcom
    cases hcom
  have hkeep : ∀ q todo, (s.goto p .active).pc q ≠ .committing todo := by
    intro q todo
    by_cases hq : q = p
    · simp [goto, hq]
    · simpa [goto, update_of_ne hq] using hno q todo
  refine ⟨?_, ?_, ?_, ?_, ?_⟩
  · intro q
    by_cases hq : q = p
    · simp [goto, hq]
    · simp [goto, hq, h.active q]
  · rw [Finset.card_insert_of_notMem hout, ← h.count]
  · intro hc
    rw [hcom] at hc
    cases hc
  · exact fun q todo hq => absurd hq (hkeep q todo)
  · exact fun q _ todo _ hq => absurd hq (hkeep q todo)

theorem mem_erase (pc : Pc) (hpc : pc ≠ .active) (q : ι) : q ∈ A.erase p ↔ update s.pc p pc q = .active := by
  by_cases hq : q = p
  · simp [hq, hpc]
  · simp [hq, h.active q]

theorem commit (hp : s.pc p = .active) (hl : endOp s.log = .ok (l, true))
    (todo : List (Nat × Block)) : Ordered { s.goto p (.committing todo) with log := l } (A.erase p) := by
  obtain ⟨-, hone, rfl⟩ := endOp_commits hl
  have hno := (h.quiet_of_active hp).2
  have honly : ∀ q todo', (s.goto p (.committing todo)).pc q = .committing todo' → q = p := by
    intro q todo' hq
    by_contra hne
    simp only [goto, update_of_ne hne] at hq
    exact hno q todo' hq
  have hmem := (h.active p).mpr hp
  refine ⟨fun q => h.mem_erase _ (by simp) q, ?_, ?_, fun _ _ _ => rfl, ?_⟩
  · rw [Finset.card_erase_of_mem hmem, ← h.count]
  · intro _
    change s.log.outstanding - 1 = 0
    omega
  · intro q q' _ _ hq hq'
    rw [honly q _ hq, honly q' _ hq']

theorem leaves (hp : s.pc p = .active) (hl : endOp s.log = .ok (l, false)) :
    Ordered { (s.goto p .idle).wakeup with log := l } (A.erase p) := by
  obtain ⟨hcom, -, rfl⟩ := endOp_leaves hl
  have hno := (h.quiet_of_active hp).2
  have hkeep : ∀ q todo, wake ((s.goto p .idle).pc q) ≠ .committing todo := by
    intro q todo hq
    rw [wake_eq_committing] at hq
    by_cases hqp : q = p
    · simp [goto, hqp] at hq
    · simp only [goto, update_of_ne hqp] at hq
      exact hno q todo hq
  refine ⟨?_, ?_, ?_, ?_, ?_⟩
  · intro q
    rw [h.mem_erase .idle (by simp) q]
    exact wake_eq_active.symm
  · rw [Finset.card_erase_of_mem ((h.active p).mpr hp), ← h.count]
  · intro hc
    rw [hcom] at hc
    cases hc
  · exact fun q todo hq => absurd hq (hkeep q todo)
  · exact fun q _ todo _ hq => absurd hq (hkeep q todo)

theorem diskWrite {w : Nat × Block} {ws : List (Nat × Block)}
    (hp : s.pc p = .committing (w :: ws)) : Ordered ((s.bwrite w).goto p (.committing ws)) A := by
  have hback : ∀ q todo, ((s.bwrite w).goto p (.committing ws)).pc q = .committing todo →
      ∃ todo', s.pc q = .committing todo' := by
    intro q todo hq
    by_cases hqp : q = p
    · exact ⟨_, hqp ▸ hp⟩
    · simp only [goto, update_of_ne hqp] at hq
      exact ⟨todo, hq⟩
  refine ⟨?_, h.count, h.alone, ?_, ?_⟩
  · intro q
    rw [h.active q]
    by_cases hqp : q = p
    · simp [goto, hqp, hp]
    · simp [goto, System.bwrite, update_of_ne hqp]
  · intro q todo hq
    obtain ⟨todo', hq'⟩ := hback q todo hq
    exact h.committer q todo' hq'
  · intro q q' todo todo' hq hq'
    obtain ⟨_, h₁⟩ := hback q todo hq
    obtain ⟨_, h₂⟩ := hback q' todo' hq'
    exact h.unique q q' _ _ h₁ h₂

theorem commitDone (hp : s.pc p = .committing []) :
    Ordered { (s.goto p .idle).wakeup with log := LogSystem.commitDone s.log } A := by
  have hzero := h.alone (h.committer p _ hp)
  have hempty : A = ∅ := by
    rw [← Finset.card_eq_zero, ← h.count]
    exact hzero
  have hkeep : ∀ q todo, wake ((s.goto p .idle).pc q) ≠ .committing todo := by
    intro q todo hq
    rw [wake_eq_committing] at hq
    by_cases hqp : q = p
    · simp [goto, hqp] at hq
    · simp only [goto, update_of_ne hqp] at hq
      exact hqp (h.unique q p _ _ hq hp)
  refine ⟨?_, h.count, fun _ => hzero, ?_, ?_⟩
  · intro q
    have hq := h.active q
    rw [hempty] at hq ⊢
    by_cases hqp : q = p
    · simp [System.wakeup, goto, hqp]
    · simpa [System.wakeup, goto, update_of_ne hqp] using hq
  · exact fun q todo hq => absurd hq (hkeep q todo)
  · exact fun q _ todo _ hq => absurd hq (hkeep q todo)

theorem acts (ha : Acts start s e t) : ∃ A', Ordered t A' := by
  cases ha with
  | call p hp => exact ⟨A, h.alike (alike_update (by simp [hp])) rfl rfl⟩
  | admitted p l hp hl => exact ⟨_, h.admitted hp hl⟩
  | refused p hp hl => exact ⟨A, h.alike (alike_update (by simp [hp])) rfl rfl⟩
  | logWrite p b v l hp hl =>
    obtain ⟨-, -, rfl⟩ := logWrite_ok hl
    exact ⟨A, h.alike (fun _ => by simp) rfl rfl⟩
  | logPanic p b v x hp hl => exact ⟨A, h.same rfl rfl⟩
  | commit p l hp hl => exact ⟨_, h.commit hp hl _⟩
  | endOp p l hp hl => exact ⟨_, h.leaves hp hl⟩
  | endPanic p x hp hl => exact ⟨A, h.same rfl rfl⟩
  | diskWrite p w ws hp => exact ⟨A, h.diskWrite hp⟩
  | commitDone p hp => exact ⟨A, h.commitDone hp⟩
  | sync p hp hb =>
    have hs := alike_await s (.inl hp) (Words.i32 (s.log.ncommit + 1))
    exact ⟨A, h.alike hs.2.2.2.2.2 (by rw [hs.1]) (by rw [hs.1])⟩
  | syncNow p hp hb => exact ⟨A, h⟩
  | syncTest p target hp =>
    have hs := alike_await s (.inr ⟨target, hp⟩) target
    exact ⟨A, h.alike hs.2.2.2.2.2 (by rw [hs.1]) (by rw [hs.1])⟩
  | kick p => exact ⟨A, h.alike (alike_update (by simp)) rfl rfl⟩

end Ordered

section Operations

variable [DecidableEq ι]

def Orderly (s : System ι) : Prop := (∃ A, Ordered s A) ∧ ∀ x, s.panicked = some x → x = .tooBig

theorem Orderly.acts (h : Orderly s) (ha : Acts start s e t) : Orderly t := by
  obtain ⟨⟨A, hord⟩, hpanic⟩ := h
  refine ⟨hord.acts ha, ?_⟩
  cases ha with
  | logPanic p b v x hp hl =>
    rintro _ ⟨⟩
    obtain ⟨hx, -⟩ | ⟨-, hnone⟩ := logWrite_error hl
    · exact hx
    · rw [hord.count, Finset.card_eq_zero] at hnone
      exact absurd ((hord.active p).mpr hp) (hnone ▸ Finset.notMem_empty p)
  | endPanic p x hp hl =>
    have hcom := (hord.quiet_of_active hp).1
    rw [endOp_error hl] at hcom
    cases hcom
  | sync p hp hb => rwa [(alike_await s (.inl hp) (Words.i32 (s.log.ncommit + 1))).2.2.2.2.1]
  | syncTest p target hp => rwa [(alike_await s (.inr ⟨target, hp⟩) target).2.2.2.2.1]
  | _ => exact hpanic

theorem Orderly.step (h : Orderly s) (he : s.step start e = some t) : Orderly t := by
  cases steps_of_step he with
  | crash => exact ⟨⟨∅, .off s.disk⟩, by rintro x ⟨⟩⟩
  | act _ _ hup hok ha => exact h.acts ha
  | _ => exact ⟨h.1.imp fun _ ho => ho.same rfl rfl, h.2⟩

/-- Operations are counted, a commit runs alone, and of the three panics only that for a full log can be
reached. -/
theorem operations_ordered {disk : Disk} (r : Run ι start disk) (k : Nat) :
    (∃ A : Finset ι, (∀ p, p ∈ A ↔ (r.state k).pc p = .active) ∧ (r.state k).log.outstanding = A.card) ∧
    (∀ p todo, (r.state k).pc p = .committing todo → (r.state k).log.committing = true ∧
      (∀ q, (r.state k).pc q ≠ .active) ∧ ∀ q todo', (r.state k).pc q = .committing todo' → q = p) ∧
    ∀ x, (r.state k).panicked = some x → x = .tooBig := by
  obtain ⟨⟨A, h⟩, hpanic⟩ := r.always (I := Orderly) ⟨⟨∅, .off disk⟩, by rintro x ⟨⟩⟩ (fun _ _ _ h he => h.step he) k
  refine ⟨⟨A, h.active, h.count⟩, fun p todo hp => ⟨h.committer p todo hp, fun q hq => ?_, fun q todo' hq => ?_⟩, hpanic⟩
  · exact (h.quiet_of_active hq).2 p todo hp
  · exact h.unique q p todo' todo hq hp

end Operations

end AdaptiveXv6.LogOrder
