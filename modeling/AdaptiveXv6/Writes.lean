import Mathlib.Logic.Function.Basic

namespace AdaptiveXv6.Writes

variable {α β : Type} [DecidableEq α] {d : α → β} {P Q : (α → β) → Prop} {ws : List (α × β)}

def apply (d : α → β) : List (α × β) → α → β
  | [] => d
  | w :: ws => apply (Function.update d w.1 w.2) ws

theorem apply_append (d : α → β) (ws vs : List (α × β)) : apply d (ws ++ vs) = apply (apply d ws) vs := by
  induction ws generalizing d with
  | nil => rfl
  | cons w ws ih => exact ih _

theorem apply_cases (d : α → β) (ws : List (α × β)) (a : α) :
    (a, apply d ws a) ∈ ws ∨ a ∉ ws.map Prod.fst ∧ apply d ws a = d a := by
  induction ws generalizing d with
  | nil => exact .inr ⟨List.not_mem_nil, rfl⟩
  | cons w ws ih =>
    rw [apply]
    rcases ih (Function.update d w.1 w.2) with h | ⟨hn, h⟩
    · exact .inl (List.mem_cons_of_mem _ h)
    · by_cases ha : a = w.1
      · rw [h, ha, Function.update_self]
        exact .inl List.mem_cons_self
      · rw [h, Function.update_of_ne ha]
        exact .inr ⟨by simp [ha, hn], rfl⟩

inductive Through (P Q : (α → β) → Prop) : (α → β) → List (α × β) → Prop
  | done {d : α → β} (hP : P d) (hQ : Q d) : Through P Q d []
  | write {d : α → β} {a : α} {v : β} {ws : List (α × β)} (hP : P d)
      (hws : Through P Q (Function.update d a v) ws) : Through P Q d ((a, v) :: ws)

namespace Through

theorem first (h : Through P Q d ws) : P d := by
  cases h with
  | done hP => exact hP
  | write hP => exact hP

theorem append {R : (α → β) → Prop} {vs : List (α × β)} (h : Through P Q d ws)
    (hvs : ∀ d, Q d → Through P R d vs) : Through P R d (ws ++ vs) := by
  induction h with
  | done _ hQ => exact hvs _ hQ
  | write hP _ ih => exact .write hP ih

theorem mono {P' Q' : (α → β) → Prop} (h : Through P Q d ws) (hP : ∀ d, P d → P' d)
    (hQ : ∀ d, Q d → Q' d) : Through P' Q' d ws := by
  induction h with
  | done hp hq => exact .done (hP _ hp) (hQ _ hq)
  | write hp _ ih => exact .write (hP _ hp) ih

end Through

end AdaptiveXv6.Writes
