import Mathlib.Order.Basic

namespace AdaptiveXv6.Runs

variable {σ ε α : Type} {step : σ → ε → Option σ} {s₀ : σ}

/-- A position without an event leaves the state as it is, so every finite execution extends to a run. -/
def Follows (step : σ → ε → Option σ) (s : σ) : Option ε → σ → Prop
  | none, t => t = s
  | some e, t => step s e = some t

structure Run (step : σ → ε → Option σ) (s₀ : σ) where
  state : Nat → σ
  event : Nat → Option ε
  start : state 0 = s₀
  follows : ∀ k, Follows step (state k) (event k) (state (k + 1))

namespace Run

theorem step_of_event (r : Run step s₀) {k : Nat} {e : ε} (h : r.event k = some e) :
    step (r.state k) e = some (r.state (k + 1)) := by
  have hf := r.follows k
  rw [h] at hf
  exact hf

theorem state_of_no_event (r : Run step s₀) {k : Nat} (h : r.event k = none) :
    r.state (k + 1) = r.state k := by
  have hf := r.follows k
  rw [h] at hf
  exact hf

theorem always (r : Run step s₀) {I : σ → Prop} (h₀ : I s₀)
    (hstep : ∀ s e t, I s → step s e = some t → I t) (k : Nat) : I (r.state k) := by
  induction k with
  | zero => rw [r.start]; exact h₀
  | succ k ih =>
    cases he : r.event k with
    | none => rw [r.state_of_no_event he]; exact ih
    | some e => exact hstep _ e _ ih (r.step_of_event he)

/-- A quantity computed along the run from the states and events so far, which the states need not record. -/
def history (r : Run step s₀) (f : σ → ε → α → α) (a : α) : Nat → α
  | 0 => a
  | k + 1 => match r.event k with
    | none => history r f a k
    | some e => f (r.state k) e (history r f a k)

theorem history_event (r : Run step s₀) (f : σ → ε → α → α) (a : α) {k : Nat} {e : ε}
    (h : r.event k = some e) :
    r.history f a (k + 1) = f (r.state k) e (r.history f a k) := by
  simp only [history, h]

theorem history_no_event (r : Run step s₀) (f : σ → ε → α → α) (a : α) {k : Nat}
    (h : r.event k = none) : r.history f a (k + 1) = r.history f a k := by
  simp only [history, h]

/-- Invariants of states with a history. The bound B is assumed at every position and may be used on both sides
of a step. -/
theorem always_history (r : Run step s₀) {f : σ → ε → α → α} {a : α} {B : α → Prop}
    {I : σ → α → Prop} (hB : ∀ k, B (r.history f a k)) (h₀ : I s₀ a)
    (hstep : ∀ s e t x, I s x → B x → B (f s e x) → step s e = some t → I t (f s e x))
    (k : Nat) : I (r.state k) (r.history f a k) := by
  induction k with
  | zero => rw [r.start]; exact h₀
  | succ k ih =>
    cases he : r.event k with
    | none => rw [r.state_of_no_event he, r.history_no_event f a he]; exact ih
    | some e =>
      have hb := hB (k + 1)
      rw [r.history_event f a he] at hb ⊢
      exact hstep _ e _ _ ih (hB k) hb (r.step_of_event he)

/-- Two runs fed the same events stay related when each step taken by both sides keeps them related. -/
theorem lockstep {t₀ : σ} (r : Run step s₀) (q : Run step t₀) (he : q.event = r.event)
    {R : σ → σ → Prop} (h₀ : R s₀ t₀)
    (hstep : ∀ s t e s' t', R s t → step s e = some s' → step t e = some t' → R s' t')
    (k : Nat) : R (r.state k) (q.state k) := by
  induction k with
  | zero => rw [r.start, q.start]; exact h₀
  | succ k ih =>
    cases hr : r.event k with
    | none =>
      rw [r.state_of_no_event hr, q.state_of_no_event (by rw [he, hr])]
      exact ih
    | some e => exact hstep _ _ e _ _ ih (r.step_of_event hr) (q.step_of_event (by rw [he, hr]))

def replay (step : σ → ε → Option σ) (s : σ) (event : Nat → Option ε) : Nat → σ
  | 0 => s
  | k + 1 => match event k with
    | none => replay step s event k
    | some e => (step (replay step s event k) e).getD (replay step s event k)

/-- When every step of one side can be answered by the same event on the other, its runs can be replayed there.
-/
theorem simulate {t₀ : σ} (r : Run step s₀) {R : σ → σ → Prop} (h₀ : R s₀ t₀)
    (hstep : ∀ s t e s', R s t → step s e = some s' → ∃ t', step t e = some t' ∧ R s' t') :
    ∃ q : Run step t₀, q.event = r.event := by
  have hrel : ∀ k, R (r.state k) (replay step t₀ r.event k) := by
    intro k
    induction k with
    | zero => rw [r.start]; exact h₀
    | succ k ih =>
      cases he : r.event k with
      | none => simpa only [replay, he, r.state_of_no_event he] using ih
      | some e =>
        obtain ⟨t', ht, hr⟩ := hstep _ _ e _ ih (r.step_of_event he)
        simpa only [replay, he, ht, Option.getD_some] using hr
  refine ⟨⟨replay step t₀ r.event, r.event, rfl, ?_⟩, rfl⟩
  intro k
  cases he : r.event k with
  | none => simp only [Follows, replay, he]
  | some e =>
    obtain ⟨t', ht, -⟩ := hstep _ _ e _ (hrel k) (r.step_of_event he)
    simp only [Follows, replay, he, ht, Option.getD_some]

end Run

namespace Run

def still (step : σ → ε → Option σ) (s : σ) : Run step s where
  state _ := s
  event _ := none
  start := rfl
  follows _ := rfl

def prepend {s t : σ} {e : ε} (h : step s e = some t) (r : Run step t) : Run step s where
  state
    | 0 => s
    | k + 1 => r.state k
  event
    | 0 => some e
    | k + 1 => r.event k
  start := rfl
  follows
    | 0 => by
      change step s e = some (r.state 0)
      rw [r.start]
      exact h
    | k + 1 => r.follows k

end Run

section Positions

variable {P Q : Nat → Prop} {j k : Nat}

theorem keeps_until (h : P j) (hstep : ∀ i, j ≤ i → P i → P (i + 1) ∨ Q i) (hk : j ≤ k) :
    (∀ i, j ≤ i → i ≤ k → P i) ∨ ∃ i, j ≤ i ∧ i < k ∧ (∀ l, j ≤ l → l ≤ i → P l) ∧ Q i := by
  induction hk with
  | refl =>
    refine .inl fun i hji hij => ?_
    rw [Nat.le_antisymm hij hji]
    exact h
  | @step k hjk ih =>
    rcases ih with ih | ⟨i, hji, hik, hP, hQ⟩
    · rcases hstep k hjk (ih k hjk (Nat.le_refl k)) with hP | hQ
      · refine .inl fun i hji hik => ?_
        rcases Nat.le_succ_iff.mp hik with hik | rfl
        · exact ih i hji hik
        · exact hP
      · exact .inr ⟨k, hjk, Nat.lt_succ_self k, ih, hQ⟩
    · exact .inr ⟨i, hji, Nat.lt_succ_of_lt hik, hP, hQ⟩

theorem holds_since (h₀ : ¬P 0) (hstep : ∀ i, P (i + 1) → P i ∨ Q i) (h : P k) :
    ∃ j, j < k ∧ Q j ∧ ∀ i, j < i → i ≤ k → P i := by
  induction k with
  | zero => exact absurd h h₀
  | succ k ih =>
    have hlast : ∀ j, (∀ i, j < i → i ≤ k → P i) → ∀ i, j < i → i ≤ k + 1 → P i := by
      intro j hj i hji hik
      rcases Nat.le_succ_iff.mp hik with hik | rfl
      · exact hj i hji hik
      · exact h
    rcases hstep k h with hP | hQ
    · obtain ⟨j, hjk, hQ, hj⟩ := ih hP
      exact ⟨j, Nat.lt_succ_of_lt hjk, hQ, hlast j hj⟩
    · exact ⟨k, Nat.lt_succ_self k, hQ, hlast k fun i hki hik => absurd hik (Nat.not_le.mpr hki)⟩

end Positions

inductive Path (step : σ → ε → Option σ) (I : σ → Prop) : σ → σ → Prop
  | refl {s : σ} (h : I s) : Path step I s s
  | cons {s t u : σ} {e : ε} (h : I s) (hs : step s e = some t) (ht : Path step I t u) : Path step I s u

namespace Path

variable {I J : σ → Prop} {s t u : σ} {e : ε}

theorem last (h : Path step I s t) : I t := by
  induction h with
  | refl h => exact h
  | cons _ _ _ ih => exact ih

theorem trans (h : Path step I s t) (k : Path step I t u) : Path step I s u := by
  induction h with
  | refl _ => exact k
  | cons hi hs _ ih => exact .cons hi hs (ih k)

theorem one (hi : I s) (hs : step s e = some t) (ht : I t) : Path step I s t := .cons hi hs (.refl ht)

theorem snoc (h : Path step I s t) (hs : step t e = some u) (hu : I u) : Path step I s u :=
  h.trans (.one h.last hs hu)

theorem mono (h : Path step I s t) (hij : ∀ s, I s → J s) : Path step J s t := by
  induction h with
  | refl h => exact .refl (hij _ h)
  | cons h hs _ ih => exact .cons (hij _ h) hs ih

theorem exists_run (h : Path step I s t) (r : Run step t) :
    ∃ q : Run step s, ∃ d, (∀ k, q.state (d + k) = r.state k) ∧ (∀ k, q.event (d + k) = r.event k) ∧
      ∀ k, k ≤ d → I (q.state k) := by
  induction h with
  | refl h =>
    refine ⟨r, 0, fun k => by rw [Nat.zero_add], fun k => by rw [Nat.zero_add], ?_⟩
    intro k hk
    rw [Nat.le_zero.mp hk, r.start]
    exact h
  | cons h hs _ ih =>
    obtain ⟨q, d, hst, hev, hi⟩ := ih r
    refine ⟨q.prepend hs, d + 1, ?_, ?_, ?_⟩
    · intro k
      rw [Nat.add_right_comm]
      exact hst k
    · intro k
      rw [Nat.add_right_comm]
      exact hev k
    · intro k hk
      cases k with
      | zero => exact h
      | succ k => exact hi k (Nat.le_of_succ_le_succ hk)

theorem exists_reached (h : Path step I s t) :
    ∃ (r : Run step s) (k : Nat), r.state k = t ∧ ∀ l, I (r.state l) := by
  obtain ⟨r, d, hr, -, hI⟩ := h.exists_run (Run.still step t)
  refine ⟨r, d, hr 0, ?_⟩
  intro l
  rcases Nat.le_total l d with hl | hl
  · exact hI l hl
  · obtain ⟨m, rfl⟩ := Nat.exists_eq_add_of_le hl
    rw [hr m]
    exact h.last

theorem exists_run_last (h : Path step I s t) (he : step t e = some u) (hu : I u) :
    ∃ (r : Run step s) (k : Nat), r.state k = t ∧ r.event k = some e ∧ ∀ l, I (r.state l) := by
  obtain ⟨r, d, hr, hre, hI⟩ := h.exists_run ((Run.still step u).prepend he)
  refine ⟨r, d, hr 0, hre 0, ?_⟩
  intro l
  rcases Nat.lt_or_ge d l with hl | hl
  · obtain ⟨m, rfl⟩ := Nat.exists_eq_add_of_lt hl
    rw [Nat.add_assoc, hr (m + 1)]
    exact hu
  · exact hI l hl

theorem exists_run_between {s₁ s₂ s₃ s₄ : σ} {e₁ e₂ : ε} (h : Path step I s₀ s₁)
    (h₁ : step s₁ e₁ = some s₂) (hmid : Path step J s₂ s₃) (h₂ : step s₃ e₂ = some s₄) :
    ∃ r : Run step s₀, ∃ i j, i < j ∧ r.state i = s₁ ∧ r.event i = some e₁ ∧ r.state (i + 1) = s₂ ∧
      r.state j = s₃ ∧ r.event j = some e₂ ∧ r.state (j + 1) = s₄ ∧
      (∀ k, k ≤ i → I (r.state k)) ∧ (∀ k, i < k → k ≤ j → J (r.state k)) ∧
      ∀ k, j < k → r.state k = s₄ := by
  obtain ⟨q, d, hq, hqe, hJ⟩ := hmid.exists_run ((Run.still step s₄).prepend h₂)
  obtain ⟨r, i, hr, hre, hI⟩ := h.exists_run (q.prepend h₁)
  refine ⟨r, i, i + (d + 1), by omega, hr 0, hre 0, ?_, ?_, ?_, ?_, hI, ?_, ?_⟩
  · rw [hr 1]
    exact q.start
  · rw [hr (d + 1)]
    exact hq 0
  · rw [hre (d + 1)]
    exact hqe 0
  · rw [Nat.add_assoc, hr (d + 1 + 1)]
    exact hq 1
  · intro k hik hkj
    obtain ⟨l, rfl⟩ := Nat.exists_eq_add_of_lt hik
    rw [Nat.add_assoc, hr (l + 1)]
    exact hJ l (by omega)
  · intro k hk
    obtain ⟨l, rfl⟩ := Nat.exists_eq_add_of_lt hk
    have hl : i + (d + 1) + l + 1 = i + (d + (l + 1) + 1) := by omega
    rw [hl, hr (d + (l + 1) + 1)]
    exact hq (l + 1)

end Path

def exec (step : σ → ε → Option σ) (s : σ) : List ε → Option σ
  | [] => some s
  | e :: es => (step s e).bind fun t => exec step t es

theorem exists_script {s t : σ} {es : List ε} (h : exec step s es = some t) :
    ∃ r : Run step s, r.state es.length = t ∧ ∀ k, r.event k = es[k]? := by
  induction es generalizing s with
  | nil =>
    cases h
    exact ⟨Run.still step _, rfl, fun _ => rfl⟩
  | cons e es ih =>
    obtain ⟨u, hu, ht⟩ := Option.bind_eq_some_iff.mp h
    obtain ⟨r, hr, hev⟩ := ih ht
    refine ⟨r.prepend hu, hr, ?_⟩
    intro k
    cases k with
    | zero => rfl
    | succ k => exact hev k

theorem exec_path {s t : σ} {es : List ε} (h : exec step s es = some t) : Path step (fun _ => True) s t := by
  induction es generalizing s with
  | nil =>
    cases h
    exact .refl trivial
  | cons e es ih =>
    obtain ⟨u, hu, ht⟩ := Option.bind_eq_some_iff.mp h
    exact .cons trivial hu (ih ht)

theorem exec_append (s : σ) (es fs : List ε) :
    exec step s (es ++ fs) = (exec step s es).bind fun t => exec step t fs := by
  induction es generalizing s with
  | nil => rfl
  | cons e es ih => simp only [List.cons_append, exec, Option.bind_assoc, ih]

theorem state_script {r : Run step s₀} {es : List ε} (hev : ∀ k, r.event k = es[k]?) (k : Nat) :
    exec step s₀ (es.take k) = some (r.state k) := by
  induction k with
  | zero => rw [List.take_zero, exec, r.start]
  | succ k ih =>
    rw [List.take_add_one, exec_append, ih, ← hev k]
    cases he : r.event k with
    | none => rw [r.state_of_no_event he]; rfl
    | some e => simp [exec, r.step_of_event he]

theorem script_eq {r : Run step s₀} {es : List ε} (hev : ∀ k, r.event k = es[k]?) {f : σ → α} {a : α}
    {k : Nat} (h : (exec step s₀ (es.take k)).map f = some a) : f (r.state k) = a := by
  rw [state_script hev] at h
  exact Option.some.inj h

theorem exists_reached_script {es : List ε} {P : σ → Bool} (h : (exec step s₀ es).any P = true) :
    ∃ (r : Run step s₀) (k : Nat), P (r.state k) = true := by
  obtain ⟨t, ht, hP⟩ := (Option.any_eq_true _ _).mp h
  obtain ⟨r, hr, -⟩ := exists_script ht
  exact ⟨r, es.length, by rw [hr]; exact hP⟩

def traced (step : σ → ε → Option σ) (f : σ → ε → α → α) (x : σ × α) (e : ε) : Option (σ × α) :=
  (step x.1 e).map fun t => (t, f x.1 e x.2)

theorem traced_script {r : Run step s₀} {es : List ε} (hev : ∀ k, r.event k = es[k]?) (f : σ → ε → α → α)
    (a : α) (k : Nat) : exec (traced step f) (s₀, a) (es.take k) = some (r.state k, r.history f a k) := by
  induction k with
  | zero => rw [List.take_zero, exec, r.start]; rfl
  | succ k ih =>
    rw [List.take_add_one, exec_append, ih, ← hev k]
    cases he : r.event k with
    | none => rw [r.state_of_no_event he, r.history_no_event f a he]; rfl
    | some e => simp [exec, traced, r.step_of_event he, r.history_event f a he]

theorem history_script {r : Run step s₀} {es : List ε} (hev : ∀ k, r.event k = es[k]?) (f : ε → α → α)
    (a : α) (k : Nat) : r.history (fun _ => f) a k = (es.take k).foldl (fun x e => f e x) a := by
  induction k with
  | zero => rfl
  | succ k ih =>
    rw [List.take_add_one, List.foldl_append, ← ih, ← hev k]
    cases he : r.event k with
    | none => exact r.history_no_event _ _ he
    | some e => exact r.history_event _ _ he

end AdaptiveXv6.Runs
