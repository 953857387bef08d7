import Mathlib.Logic.Basic

namespace AdaptiveXv6.Programs

variable {σ ε α β : Type}

/-- From the state s, a program ends as Q says or stops for a reason that E allows. -/
def Wp (m : StateT σ (Except ε) α) (s : σ) (Q : α → σ → Prop) (E : ε → Prop) : Prop :=
  match m s with
  | .ok (a, t) => Q a t
  | .error e => E e

section Rules

variable {m : StateT σ (Except ε) α} {f : α → StateT σ (Except ε) β} {s : σ} {Q Q' : α → σ → Prop}
  {R : β → σ → Prop} {E E' : ε → Prop}

theorem wp_pure {a : α} (h : Q a s) : Wp (pure a : StateT σ (Except ε) α) s Q E := h

theorem wp_throw {e : ε} (h : E e) : Wp (throw e : StateT σ (Except ε) α) s Q E := h

theorem wp_modify {Q : PUnit → σ → Prop} {g : σ → σ} (h : Q ⟨⟩ (g s)) :
    Wp (modify g : StateT σ (Except ε) PUnit) s Q E := h

theorem wp_bind (h : Wp m s (fun a t => Wp (f a) t R E) E) : Wp (m >>= f) s R E := by
  have hbind : (m >>= f) s = (m s).bind fun p => f p.1 p.2 := rfl
  rw [Wp] at h ⊢
  rw [hbind]
  cases hm : m s with
  | error e =>
    rw [hm] at h
    exact h
  | ok p =>
    rw [hm] at h
    exact h

theorem Wp.mono (h : Wp m s Q E) (hq : ∀ a t, Q a t → Q' a t) (he : ∀ e, E e → E' e) : Wp m s Q' E' := by
  rw [Wp] at h ⊢
  cases hm : m s with
  | error e =>
    rw [hm] at h
    exact he e h
  | ok p =>
    rw [hm] at h
    exact hq p.1 p.2 h

theorem Wp.imp (h : Wp m s Q E) (hq : ∀ a t, Q a t → Q' a t) : Wp m s Q' E := h.mono hq fun _ => id

theorem Wp.bind (h : Wp m s Q E) (hf : ∀ a t, Q a t → Wp (f a) t R E) : Wp (m >>= f) s R E :=
  wp_bind (h.imp hf)

theorem wp_pure_bind {a : α} (h : Wp (f a) s R E) : Wp (pure a >>= f) s R E := wp_bind h

theorem wp_get_bind {g : σ → StateT σ (Except ε) β} (h : Wp (g s) s R E) : Wp (get >>= g) s R E := wp_bind h

theorem wp_modify_bind {g : σ → σ} {k : PUnit → StateT σ (Except ε) β} (h : Wp (k ⟨⟩) (g s) R E) :
    Wp (modify g >>= k) s R E := wp_bind h

theorem wp_ite {c : Prop} [Decidable c] {m' : StateT σ (Except ε) α} (ht : c → Wp m s Q E)
    (hf : ¬c → Wp m' s Q E) : Wp (if c then m else m') s Q E := by
  by_cases h : c
  · rw [if_pos h]
    exact ht h
  · rw [if_neg h]
    exact hf h

theorem Wp.bind_reads {P : α → Prop} (h : Wp m s (fun a t => t = s ∧ P a) E) (hf : ∀ a, P a → Wp (f a) s R E) :
    Wp (m >>= f) s R E := by
  refine h.bind fun a t ht => ?_
  rw [ht.1]
  exact hf a ht.2

theorem Wp.and (h : Wp m s Q E) (h' : Wp m s Q' E') : Wp m s (fun a t => Q a t ∧ Q' a t) (fun e => E e ∧ E' e) := by
  rw [Wp] at h h' ⊢
  cases hm : m s with
  | error e =>
    rw [hm] at h h'
    exact ⟨h, h'⟩
  | ok p =>
    rw [hm] at h h'
    exact ⟨h, h'⟩

theorem Wp.of_ok (h : Wp m s Q E) {a : α} {t : σ} (hm : m s = .ok (a, t)) : Q a t := by
  rw [Wp, hm] at h
  exact h

theorem Wp.of_error (h : Wp m s Q E) {e : ε} (hm : m s = .error e) : E e := by
  rw [Wp, hm] at h
  exact h

theorem wp_of_ok {a : α} {t : σ} (hm : m s = .ok (a, t)) (h : Q a t) : Wp m s Q E := by
  rw [Wp, hm]
  exact h

theorem Wp.cases (h : Wp m s Q E) : (∃ a t, m s = .ok (a, t) ∧ Q a t) ∨ ∃ e, m s = .error e ∧ E e := by
  cases hm : m s with
  | error e => exact .inr ⟨e, rfl, h.of_error hm⟩
  | ok p => exact .inl ⟨p.1, p.2, rfl, h.of_ok hm⟩

end Rules

section Loops

variable {f : Nat → StateT σ (Except ε) Unit} {E : ε → Prop}

def each (f : Nat → StateT σ (Except ε) Unit) : List Nat → StateT σ (Except ε) Unit
  | [] => pure ()
  | k :: ks => do
    f k
    each f ks

theorem each_concat {ks : List Nat} {k : Nat} {s t u : σ} (h : each f ks s = .ok ((), t)) (hk : f k t = .ok ((), u)) :
    each f (ks ++ [k]) s = .ok ((), u) := by
  induction ks generalizing s with
  | nil =>
    cases h
    change (f k t).bind _ = _
    rw [hk]
    rfl
  | cons j ks ih =>
    change (f j s).bind (fun r => each f ks r.2) = _ at h
    change (f j s).bind (fun r => each f (ks ++ [k]) r.2) = _
    cases hj : f j s with
    | ok r =>
      rw [hj] at h
      exact ih h
    | error e =>
      rw [hj] at h
      cases h

theorem each_range' {I : Nat → σ → Prop} {n : Nat} (hf : ∀ k s, k < n → I k s → Wp (f k) s (fun _ => I (k + 1)) E)
    {k m : Nat} {s : σ} (hn : k + m = n) (h : I k s) : Wp (each f (List.range' k m)) s (fun _ => I n) E := by
  induction m generalizing k s with
  | zero =>
    obtain rfl : k = n := hn
    exact wp_pure h
  | succ m ih =>
    rw [List.range'_succ]
    exact (hf k s (by omega) h).bind fun _ t ht => ih (by omega) ht

theorem each_range {I : Nat → σ → Prop} {n : Nat} {s : σ}
    (hf : ∀ k s, k < n → I k s → Wp (f k) s (fun _ => I (k + 1)) E) (h : I 0 s) :
    Wp (each f (List.range n)) s (fun _ => I n) E := by
  rw [List.range_eq_range']
  exact each_range' hf (Nat.zero_add n) h

end Loops

theorem ok_of_any {α : Type} {x : Except ε α} {p : α → Bool} (h : x.toOption.any p = true) :
    ∃ a, x = .ok a ∧ p a = true := by
  cases x with
  | ok a => exact ⟨a, rfl, h⟩
  | error e => cases h

end AdaptiveXv6.Programs
