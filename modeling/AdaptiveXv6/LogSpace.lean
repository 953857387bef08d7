import AdaptiveXv6.LogOrder
import Mathlib.Algebra.Order.BigOperators.Group.Finset

namespace AdaptiveXv6.LogSpace

open LogDisk LogSystem System LogSteps LogOrder Function

variable {ι : Type} [DecidableEq ι] {start : Nat} {disk : Disk} {s t : System ι} {e : Event ι} {A : Finset ι}
  {p : ι} {g : ι → List Nat}

def note : Event ι → (ι → List Nat) → ι → List Nat
  | .beginOp p, g => update g p []
  | .logWrite p b _, g => update g p ((g p).insert b)
  | _, g => g

/-- The distinct blocks that each process has logged since its begin_op(). -/
def logged (r : Run ι start disk) : Nat → ι → List Nat := r.history (fun _ e g => note e g) fun _ => []

def spare (g : ι → List Nat) (A : Finset ι) : Nat := ∑ p ∈ A, (MAXOPBLOCKS - (g p).length)

omit [DecidableEq ι] in
theorem spare_le (g : ι → List Nat) (A : Finset ι) : spare g A ≤ A.card * MAXOPBLOCKS := by
  have h := Finset.sum_le_card_nsmul A (fun p => MAXOPBLOCKS - (g p).length) MAXOPBLOCKS
    (fun _ _ => Nat.sub_le _ _)
  simpa [spare] using h

theorem spare_outside (hp : p ∉ A) (bs : List Nat) : spare (update g p bs) A = spare g A := by
  refine Finset.sum_congr rfl (fun q hq => ?_)
  have hne : q ≠ p := fun he => hp (he ▸ hq)
  rw [update_of_ne hne]

theorem spare_insert (hp : p ∉ A) (bs : List Nat) :
    spare (update g p bs) (insert p A) = MAXOPBLOCKS - bs.length + spare g A := by
  rw [spare, Finset.sum_insert hp, update_self]
  exact congrArg _ (spare_outside hp bs)

theorem spare_erase (hp : p ∈ A) (g : ι → List Nat) :
    MAXOPBLOCKS - (g p).length + spare g (A.erase p) = spare g A :=
  Finset.add_sum_erase A (fun q => MAXOPBLOCKS - (g q).length) hp

theorem spare_update (hp : p ∈ A) (bs : List Nat) :
    spare (update g p bs) A + (MAXOPBLOCKS - (g p).length) =
      spare g A + (MAXOPBLOCKS - bs.length) := by
  have hnew := spare_erase hp (update g p bs)
  rw [spare_outside (Finset.notMem_erase p A), update_self] at hnew
  have hold := spare_erase hp g
  omega

/-- The log has room for all that the operations in progress may still log. -/
structure Reserved (s : System ι) (g : ι → List Nat) (A : Finset ι) : Prop extends Ordered s A where
  noted : ∀ p ∈ A, ∀ b ∈ g p, b ∈ s.log.lh
  room : s.log.lh.length + spare g A ≤ LOGBLOCKS

omit [DecidableEq ι] in
theorem Reserved.alike (h : Reserved s g A) (ha : Alike s.pc t.pc) (hl : t.log = s.log) :
    Reserved t g A :=
  ⟨h.toOrdered.alike ha (by rw [hl]) (by rw [hl]), by rw [hl]; exact h.noted, by rw [hl]; exact h.room⟩

omit [DecidableEq ι] in
theorem Reserved.same (h : Reserved s g A) (hpc : t.pc = s.pc) (hl : t.log = s.log) : Reserved t g A :=
  h.alike (fun _ => by simp [hpc]) hl

theorem Reserved.keep (h : Reserved s g A) (hp : s.pc p ≠ .active) (bs : List Nat) :
    Reserved s (update g p bs) A := by
  have hout : p ∉ A := fun hm => hp ((h.active p).mp hm)
  refine ⟨h.toOrdered, ?_, ?_⟩
  · intro q hq
    have hne : q ≠ p := fun he => hout (he ▸ hq)
    rw [update_of_ne hne]
    exact h.noted q hq
  · rw [spare_outside hout]
    exact h.room

theorem Reserved.admitted (h : Reserved s g A) (hp : s.pc p = .beginning) {l : Log}
    (hl : beginOp s.log = some l) :
    Reserved { s.goto p .active with log := l } (update g p []) (insert p A) := by
  have hord := h.toOrdered.admitted hp hl
  obtain ⟨-, hroom, rfl⟩ := beginOp_some hl
  have hout : p ∉ A := fun hm => by simp [(h.active p).mp hm] at hp
  refine ⟨hord, ?_, ?_⟩
  · intro q hq b hb
    by_cases hqp : q = p
    · simp [hqp] at hb
    · rw [update_of_ne hqp] at hb
      exact h.noted q (Finset.mem_of_mem_insert_of_ne hq hqp) b hb
  · have hle := spare_le g A
    rw [spare_insert hout, ← h.count] at *
    simp only [List.length_nil]
    rw [Nat.add_mul] at hroom
    omega

omit [DecidableEq ι] in
theorem Reserved.fresh (h : Reserved s g A) (hp : p ∈ A) {b : Nat} (hb : b ∉ s.log.lh) :
    ((g p).insert b).length = (g p).length + 1 := by
  rw [List.insert_of_not_mem (fun hm => hb (h.noted p hp b hm)), List.length_cons]

theorem insert_length_le (bs : List Nat) (b : Nat) : bs.length ≤ (bs.insert b).length := by
  by_cases hb : b ∈ bs
  · rw [List.insert_of_mem hb]
  · rw [List.insert_of_not_mem hb, List.length_cons]
    exact Nat.le_succ _

theorem Reserved.repeated (h : Reserved s g A) (hp : p ∈ A) {b : Nat} (hb : b ∈ s.log.lh) :
    Reserved s (update g p ((g p).insert b)) A := by
  refine ⟨h.toOrdered, ?_, ?_⟩
  · intro q hq a ha
    by_cases hqp : q = p
    · rw [hqp, update_self, List.mem_insert_iff] at ha
      rcases ha with rfl | ha
      · exact hb
      · exact h.noted p hp a ha
    · rw [update_of_ne hqp] at ha
      exact h.noted q hq a ha
  · have hupd := spare_update (g := g) hp ((g p).insert b)
    have hle := insert_length_le (g p) b
    have hroom := h.room
    omega

theorem Reserved.full (h : Reserved s g A) (hp : p ∈ A) {b : Nat} (hfull : LOGBLOCKS ≤ s.log.lh.length)
    (hbudget : ((g p).insert b).length ≤ MAXOPBLOCKS) : b ∈ s.log.lh := by
  by_contra hb
  have hfresh := h.fresh hp hb
  have herase := spare_erase hp g
  have hroom := h.room
  omega

theorem Reserved.logWrite (h : Reserved s g A) (hp : s.pc p = .active) {b : Nat} {l : Log}
    (hl : logWrite s.log b = .ok l) (hbudget : ((g p).insert b).length ≤ MAXOPBLOCKS)
    (cache : Nat → Option Block) :
    Reserved { s with log := l, cache := cache } (update g p ((g p).insert b)) A := by
  have hmem := (h.active p).mpr hp
  obtain ⟨-, -, rfl⟩ := logWrite_ok hl
  have hord : Ordered { s with log := { s.log with lh := absorb s.log.lh b }, cache := cache } A :=
    h.toOrdered.alike (fun _ => ⟨Iff.rfl, fun _ => Iff.rfl⟩) rfl rfl
  by_cases hb : b ∈ s.log.lh
  · have habs : absorb s.log.lh b = s.log.lh := by rw [absorb_eq, if_pos hb]
    have hrep := h.repeated hmem hb
    exact ⟨hord, by rw [habs]; exact hrep.noted, by rw [habs]; exact hrep.room⟩
  · have habs : absorb s.log.lh b = s.log.lh ++ [b] := by rw [absorb_eq, if_neg hb]
    refine ⟨hord, ?_, ?_⟩
    · intro q hq a ha
      change a ∈ absorb s.log.lh b
      rw [mem_absorb]
      by_cases hqp : q = p
      · rw [hqp, update_self, List.mem_insert_iff] at ha
        rcases ha with rfl | ha
        · exact .inr rfl
        · exact .inl (h.noted p hmem a ha)
      · rw [update_of_ne hqp] at ha
        exact .inl (h.noted q hq a ha)
    · have hupd := spare_update (g := g) hmem ((g p).insert b)
      have hfresh := h.fresh hmem hb
      have hroom := h.room
      simp only [habs, List.length_append, List.length_singleton]
      omega

theorem Reserved.ended (h : Reserved s g A) (hp : s.pc p = .active) (ht : Ordered t (A.erase p))
    (hlh : t.log.lh = s.log.lh) : Reserved t g (A.erase p) := by
  refine ⟨ht, ?_, ?_⟩
  · intro q hq
    rw [hlh]
    exact h.noted q (Finset.mem_of_mem_erase hq)
  · have herase := spare_erase ((h.active p).mpr hp) g
    have hroom := h.room
    rw [hlh]
    omega

omit [DecidableEq ι] in
theorem reserved_empty (hs : Ordered s ∅) (hlh : s.log.lh = []) : Reserved s g ∅ := by
  refine ⟨hs, fun _ hq => absurd hq (Finset.notMem_empty _), ?_⟩
  rw [hlh]
  exact Nat.zero_le _

theorem Reserved.acts (h : Reserved s g A) (hbudget : ∀ p, (note e g p).length ≤ MAXOPBLOCKS)
    (ha : Acts start s e t) : ∃ A', Reserved t (note e g) A' := by
  cases ha with
  | call p hp => exact ⟨A, h.alike (alike_update (by simp [hp])) rfl⟩
  | admitted p l hp hl => exact ⟨_, h.admitted hp hl⟩
  | refused p hp hl => exact ⟨A, (h.keep (by simp [hp]) []).alike (alike_update (by simp [hp])) rfl⟩
  | logWrite p b v l hp hl =>
    have hb := hbudget p
    simp only [note, update_self] at hb
    exact ⟨A, h.logWrite hp hl hb _⟩
  | logPanic p b v x hp hl =>
    have hb := hbudget p
    have hmem := (h.active p).mpr hp
    simp only [note, update_self] at hb
    have hin : b ∈ s.log.lh := by
      rcases logWrite_error hl with ⟨-, hfull⟩ | ⟨-, hzero⟩
      · exact h.full hmem hfull hb
      · rw [h.count, Finset.card_eq_zero] at hzero
        rw [hzero] at hmem
        exact absurd hmem (Finset.notMem_empty p)
    exact ⟨A, (h.repeated hmem hin).same rfl rfl⟩
  | commit p l hp hl =>
    exact ⟨_, h.ended hp (h.toOrdered.commit hp hl _) (by obtain ⟨-, -, rfl⟩ := endOp_commits hl; rfl)⟩
  | endOp p l hp hl =>
    exact ⟨_, h.ended hp (h.toOrdered.leaves hp hl) (by obtain ⟨-, -, rfl⟩ := endOp_leaves hl; rfl)⟩
  | endPanic p x hp hl => exact ⟨A, h.same rfl rfl⟩
  | diskWrite p w ws hp => exact ⟨A, h.toOrdered.diskWrite hp, h.noted, h.room⟩
  | commitDone p hp =>
    have hempty : A = ∅ := by
      rw [← Finset.card_eq_zero, ← h.count]
      exact h.alone (h.committer p _ hp)
    subst hempty
    exact ⟨∅, reserved_empty (h.toOrdered.commitDone hp) rfl⟩
  | sync p hp hb =>
    have hs := alike_await s (.inl hp) (Words.i32 (s.log.ncommit + 1))
    exact ⟨A, h.alike hs.2.2.2.2.2 hs.1⟩
  | syncNow p hp hb => exact ⟨A, h⟩
  | syncTest p target hp =>
    have hs := alike_await s (.inr ⟨target, hp⟩) target
    exact ⟨A, h.alike hs.2.2.2.2.2 hs.1⟩
  | kick p => exact ⟨A, h.alike (alike_update (by simp)) rfl⟩

theorem Reserved.step (h : Reserved s g A) (hbudget : ∀ p, (note e g p).length ≤ MAXOPBLOCKS)
    (he : s.step start e = some t) : ∃ A', Reserved t (note e g) A' := by
  cases steps_of_step he with
  | crash => exact ⟨∅, reserved_empty (Ordered.off s.disk) rfl⟩
  | boot hm => exact ⟨A, h.same rfl rfl⟩
  | recoverWrite w ws hm => exact ⟨A, h.same rfl rfl⟩
  | recovered hm => exact ⟨A, h.same rfl rfl⟩
  | act _ _ hup hok ha => exact h.acts hbudget ha

theorem run_reserved (r : Run ι start disk) (hbudget : ∀ k p, (logged r k p).length ≤ MAXOPBLOCKS) (k : Nat) :
    ∃ A, Reserved (r.state k) (logged r k) A :=
  r.always_history (B := fun g => ∀ p, (g p).length ≤ MAXOPBLOCKS) (I := fun s g => ∃ A, Reserved s g A) hbudget
    ⟨∅, reserved_empty (Ordered.off disk) rfl⟩ (fun _ _ _ _ ⟨_, h⟩ _ hb he => h.step hb he) k

/-- At position k a block is logged once more while the log is full. -/
def RepeatsFull (r : Run ι start disk) (k : Nat) : Prop :=
  ∃ p b v, r.event k = some (.logWrite p b v) ∧ (r.state k).log.lh.length = LOGBLOCKS ∧
    b ∈ (r.state k).log.lh

theorem Reserved.no_panic (h : Reserved s g A) (hok : s.panicked = none)
    (hbudget : ∀ p, (note e g p).length ≤ MAXOPBLOCKS) (he : s.step start e = some t)
    (hrep : ∀ p b v, e = .logWrite p b v → s.log.lh.length = LOGBLOCKS → b ∉ s.log.lh) :
    t.panicked = none := by
  cases steps_of_step he with
  | crash => rfl
  | boot hm | recoverWrite w ws hm | recovered hm => exact hok
  | act _ _ hup _ ha =>
    cases ha with
    | logPanic p b v x hp hl =>
      have hb := hbudget p
      have hmem := (h.active p).mpr hp
      have hroom := h.room
      simp only [note, update_self] at hb
      rcases logWrite_error hl with ⟨-, hfull⟩ | ⟨-, hzero⟩
      · exact absurd (h.full hmem hfull hb) (hrep p b v rfl (by omega))
      · rw [h.count, Finset.card_eq_zero] at hzero
        rw [hzero] at hmem
        exact absurd hmem (Finset.notMem_empty p)
    | endPanic p x hp hl =>
      have hq := (h.toOrdered.quiet_of_active hp).1
      rw [endOp_error hl] at hq
      cases hq
    | sync p hp hb => rw [(alike_await s (.inl hp) _).2.2.2.2.1]; exact hok
    | syncTest p target hp => rw [(alike_await s (.inr ⟨target, hp⟩) target).2.2.2.2.1]; exact hok
    | _ => exact hok

/-- Operations with at most MAXOPBLOCKS distinct blocks never fill the log beyond LOGBLOCKS, and log_write()
panics just when called again for a block of a full log. -/
theorem log_space (r : Run ι start disk) (hbudget : ∀ k p, (logged r k p).length ≤ MAXOPBLOCKS) (k : Nat) :
    (r.state k).log.lh.length ≤ LOGBLOCKS ∧
      ((∀ j, j < k → ¬RepeatsFull r j) → (r.state k).panicked = none) ∧
      (RepeatsFull r k → (r.state (k + 1)).panicked = some .tooBig) := by
  refine ⟨?_, ?_, ?_⟩
  · obtain ⟨A, h⟩ := run_reserved r hbudget k
    have hroom := h.room
    omega
  · intro hrep
    induction k with
    | zero => rw [r.start]; rfl
    | succ k ih =>
      have hok := ih (fun j hj => hrep j (Nat.lt_succ_of_lt hj))
      cases he : r.event k with
      | none => rw [r.state_of_no_event he]; exact hok
      | some e =>
        obtain ⟨A, h⟩ := run_reserved r hbudget k
        refine h.no_panic hok ?_ (r.step_of_event he) ?_
        · have hb := hbudget (k + 1)
          rw [logged, r.history_event _ _ he] at hb
          exact hb
        · rintro p b v rfl hfull hmem
          exact hrep k (Nat.lt_succ_self k) ⟨p, b, v, he, hfull, hmem⟩
  · rintro ⟨p, b, v, he, hfull, hmem⟩
    have hstep := steps_of_step (r.step_of_event he)
    have herr : logWrite (r.state k).log b = .error .tooBig := by
      rw [logWrite, if_pos (by rw [hfull])]
    generalize r.state (k + 1) = t at hstep
    cases hstep with
    | act _ _ hup hok ha =>
      cases ha with
      | logWrite _ _ _ l hp hl =>
        rw [herr] at hl
        cases hl
      | logPanic _ _ _ x hp hl =>
        rw [herr] at hl
        cases hl
        rfl

def filling : List (Event (Fin 3)) :=
  [.boot, .recoverWrite, .recovered, .call 0, .beginOp 0, .call 1, .beginOp 1, .call 2, .beginOp 2] ++
    (List.range 30).map fun b => .logWrite (Fin.ofNat 3 (b / 10)) b fun _ => 0

def overfull : List (Event (Fin 3)) := filling ++ [.logWrite 0 0 fun _ => 0]

theorem script_budget {r : Run (Fin 3) 1000 fun _ _ => 0} {es : List (Event (Fin 3))}
    (hev : ∀ k, r.event k = es[k]?) (hes : ∀ k ≤ es.length, ∀ p,
      ((es.take k).foldl (fun g e => note e g) (fun _ => []) p).length ≤ MAXOPBLOCKS) (k : Nat) (p : Fin 3) :
    (logged r k p).length ≤ MAXOPBLOCKS := by
  rw [logged, Runs.history_script hev note]
  rcases Nat.le_total k es.length with hk | hk
  · exact hes k hk p
  · rw [List.take_of_length_le hk, ← List.take_length (l := es)]
    exact hes _ (Nat.le_refl _) p

set_option maxRecDepth 4000 in
theorem log_space_full : ∃ (r : Run (Fin 3) 1000 fun _ _ => 0) (k : Nat),
    (∀ k p, (logged r k p).length ≤ MAXOPBLOCKS) ∧ LOGBLOCKS ≤ (r.state k).log.lh.length ∧
    (r.state k).log.lh.length ≤ LOGBLOCKS := by
  have hexec : ((Runs.exec (System.step (ι := Fin 3) 1000) (off fun _ _ => 0) filling).map
      (·.log.lh)) = some (List.range 30) := by decide
  obtain ⟨t, ht, hlh⟩ := Option.map_eq_some_iff.mp hexec
  obtain ⟨r, hr, hev⟩ := Runs.exists_script ht
  have hbudget := script_budget hev (by decide)
  exact ⟨r, filling.length, hbudget, by rw [hr, hlh]; decide, (log_space r hbudget _).1⟩

set_option maxRecDepth 4000 in
theorem log_space_panics : ∃ (r : Run (Fin 3) 1000 fun _ _ => 0) (k : Nat),
    (∀ k p, (logged r k p).length ≤ MAXOPBLOCKS) ∧ (r.state k).panicked = some .tooBig := by
  have hexec : ((Runs.exec (System.step (ι := Fin 3) 1000) (off fun _ _ => 0) overfull).bind
      (·.panicked)) = some .tooBig := by decide
  obtain ⟨t, ht, hpanic⟩ := Option.bind_eq_some_iff.mp hexec
  obtain ⟨r, hr, hev⟩ := Runs.exists_script ht
  exact ⟨r, overfull.length, script_budget hev (by decide), by rw [hr]; exact hpanic⟩

end AdaptiveXv6.LogSpace
