import Mathlib.Data.List.Nodup

namespace AdaptiveXv6.Links

variable {α : Type} {next next' : α → α} {a b c x : α} {l m : List α}

/-- The end of a path that starts at a and passes the elements of the list. -/
def last : α → List α → α
  | a, [] => a
  | _, x :: l => last x l

/-- From a, next passes the elements of the list. -/
def Walk (next : α → α) : α → List α → Prop
  | _, [] => True
  | a, x :: l => next a = x ∧ Walk next x l

/-- From a, next passes the elements of the list and then comes to b. -/
def Linked (next : α → α) (a : α) (l : List α) (b : α) : Prop := Walk next a l ∧ next (last a l) = b

theorem last_append : last a (l ++ m) = last (last a l) m := by
  induction l generalizing a with
  | nil => rfl
  | cons x l ih => exact ih

theorem last_mem : last a l ∈ a :: l := by
  induction l generalizing a with
  | nil => exact List.mem_cons_self
  | cons x l ih => exact List.mem_cons_of_mem _ ih

theorem last_concat : last a (l ++ [x]) = x := by rw [last_append]; rfl

theorem exists_cut (h : c ∈ a :: l) : ∃ l₁ l₂, l = l₁ ++ l₂ ∧ last a l₁ = c := by
  induction l generalizing a with
  | nil => exact ⟨[], [], rfl, (List.mem_singleton.mp h).symm⟩
  | cons x l ih =>
    rcases List.mem_cons.mp h with rfl | h
    · exact ⟨[], x :: l, rfl, rfl⟩
    · obtain ⟨l₁, l₂, rfl, hc⟩ := ih h
      exact ⟨x :: l₁, l₂, rfl, hc⟩

theorem walk_append : Walk next a (l ++ m) ↔ Walk next a l ∧ Walk next (last a l) m := by
  induction l generalizing a with
  | nil => exact (true_and _).symm ▸ Iff.rfl
  | cons x l ih => rw [List.cons_append, Walk, Walk, ih, and_assoc]; rfl

theorem linked_append : Linked next a (l ++ m) b ↔ Walk next a l ∧ Linked next (last a l) m b := by
  rw [Linked, Linked, walk_append, last_append, and_assoc]

theorem linked_cons : Linked next a (x :: l) b ↔ next a = x ∧ Linked next x l b := and_assoc

theorem walk_congr (h : Walk next a l) (hn : (a :: l).Nodup) (hnext : ∀ c ∈ a :: l, c ≠ last a l → next' c = next c) :
    Walk next' a l := by
  induction l generalizing a with
  | nil => trivial
  | cons x l ih =>
    have hne : a ≠ last x l := fun hc => (List.nodup_cons.mp hn).1 (hc ▸ last_mem)
    refine ⟨(hnext a List.mem_cons_self hne).trans h.1, ih h.2 (List.nodup_cons.mp hn).2 ?_⟩
    exact fun c hc => hnext c (List.mem_cons_of_mem _ hc)

theorem linked_congr (h : Linked next a l b) (hnext : ∀ c ∈ a :: l, next' c = next c) : Linked next' a l b := by
  induction l generalizing a with
  | nil => exact ⟨trivial, (hnext a List.mem_cons_self).trans h.2⟩
  | cons x l ih =>
    obtain ⟨hx, hl⟩ := linked_cons.mp h
    exact linked_cons.mpr ⟨(hnext a List.mem_cons_self).trans hx, ih hl fun c hc => hnext c (List.mem_cons_of_mem _ hc)⟩

theorem linked_shift (h : Linked next a l b) (hx : next' x = next a) (hnext : ∀ c ∈ l, next' c = next c) :
    Linked next' x l b := by
  cases l with
  | nil => exact ⟨trivial, hx.trans h.2⟩
  | cons y l =>
    obtain ⟨hy, hl⟩ := linked_cons.mp h
    exact linked_cons.mpr ⟨hx.trans hy, linked_congr hl hnext⟩

theorem linked_map (h : Linked next a l b) : (a :: l).map next = l ++ [b] := by
  induction l generalizing a with
  | nil => exact congrArg (· :: []) h.2
  | cons x l ih =>
    obtain ⟨hx, hl⟩ := linked_cons.mp h
    rw [List.map_cons, hx, ih hl, List.cons_append]

theorem ring_inj (h : Linked next a l a) (hn : (a :: l).Nodup) (hb : b ∈ a :: l) (hc : c ∈ a :: l)
    (heq : next b = next c) : b = c := by
  have hmap : ((a :: l).map next).Nodup := by
    rw [linked_map h]
    exact (List.perm_append_singleton a l).nodup_iff.mpr hn
  exact List.inj_on_of_nodup_map hmap hb hc heq

theorem linked_rotate (h : Linked next a (l ++ x :: m) a) : Linked next x (m ++ a :: l) x := by
  obtain ⟨hl, hx⟩ := linked_append.mp h
  obtain ⟨hx, hm⟩ := linked_cons.mp hx
  exact linked_append.mpr ⟨hm.1, linked_cons.mpr ⟨hm.2, hl, hx⟩⟩

end AdaptiveXv6.Links
