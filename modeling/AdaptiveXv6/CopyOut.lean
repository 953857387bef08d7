import Mathlib.Algebra.Group.Nat.Defs
import AdaptiveXv6.Bytes
import AdaptiveXv6.MemLayout

namespace AdaptiveXv6.CopyOut

open MemLayout Bytes

/-- The stores of copyout() into user memory, and what it returns. A page is writable when it is mapped so or
vmfault() maps it. The first argument bounds the turns. -/
def copyoutLoop (writable : Nat → Bool) : Nat → Nat → List Byte → List (Nat × List Byte) × Int
  | 0, _, _ => ([], 0)
  | turns + 1, dstva, src =>
    if src.length = 0 then ([], 0)
    else
      let va0 := dstva / PGSIZE * PGSIZE
      if va0 ≥ MAXVA then ([], -1)
      else if writable va0 = false then ([], -1)
      else
        let n := min (PGSIZE - (dstva - va0)) src.length
        let rest := copyoutLoop writable turns (va0 + PGSIZE) (src.drop n)
        ((dstva, src.take n) :: rest.1, rest.2)

def copyout (writable : Nat → Bool) (dstva : Nat) (src : List Byte) : List (Nat × List Byte) × Int :=
  copyoutLoop writable src.length dstva src

/-- A copy page by page: how many bytes it copies, and whether it gets to the end. -/
def copyLoop (ok : Nat → Bool) : Nat → Nat → Nat → Nat × Bool
  | 0, _, _ => (0, true)
  | turns + 1, va, len =>
    if len = 0 then (0, true)
    else
      let va0 := va / PGSIZE * PGSIZE
      if ok va0 = false then (0, false)
      else
        let n := min (PGSIZE - (va - va0)) len
        let rest := copyLoop ok turns (va0 + PGSIZE) (len - n)
        (n + rest.1, rest.2)

def pageOk (writable : Nat → Bool) (va0 : Nat) : Bool := decide (va0 < MAXVA) && writable va0

/-- How many bytes copyout() stores, whatever they are. -/
def stored (writable : Nat → Bool) (dstva len : Nat) : Nat := (copyLoop (pageOk writable) len dstva len).1

section Loop

variable {ok : Nat → Bool} {turns va len : Nat}

/-- The loop copies up to the first byte of a page that is not there. -/
theorem copyLoop_spec (hturns : len ≤ turns) :
    (∀ a, va ≤ a → a < va + (copyLoop ok turns va len).1 → ok (a / PGSIZE * PGSIZE) = true) ∧
    ((copyLoop ok turns va len).2 = true → (copyLoop ok turns va len).1 = len) ∧
    ((copyLoop ok turns va len).2 = false → (copyLoop ok turns va len).1 < len ∧
      ok ((va + (copyLoop ok turns va len).1) / PGSIZE * PGSIZE) = false) := by
  induction turns generalizing va len with
  | zero => exact ⟨fun a ha ha' => absurd ha' (Nat.not_lt.mpr ha), fun _ => (Nat.le_zero.mp hturns).symm, nofun⟩
  | succ turns ih =>
    obtain ⟨va0, hva0⟩ : ∃ v, va / PGSIZE * PGSIZE = v := ⟨_, rfl⟩
    have hpage := page_bounds va
    have hsame := @page_of_lt va
    rw [hva0] at hpage hsame
    simp only [copyLoop, hva0]
    by_cases h₀ : len = 0
    · rw [if_pos h₀]
      exact ⟨fun a ha ha' => absurd ha' (Nat.not_lt.mpr ha), fun _ => h₀.symm, nofun⟩
    · rw [if_neg h₀]
      by_cases hr : ok va0 = false
      · rw [if_pos hr]
        refine ⟨fun a ha ha' => absurd ha' (Nat.not_lt.mpr ha), nofun, fun _ => ⟨Nat.pos_of_ne_zero h₀, ?_⟩⟩
        rw [Nat.add_zero, hva0]
        exact hr
      · rw [if_neg hr]
        generalize hn : min (PGSIZE - (va - va0)) len = n
        have hread : ∀ a, va ≤ a → a < va + n → ok (a / PGSIZE * PGSIZE) = true := by
          intro a ha ha'
          rw [hsame ha (by omega)]
          exact Bool.not_eq_false _ ▸ hr
        -- behind the last page nothing is left to copy
        rcases (by omega : va0 + PGSIZE = va + n ∨ len - n = 0) with hnext | hnext
        · obtain ⟨hrest, hok, hfail⟩ := @ih (va + n) (len - n) (by omega)
          rw [hnext]
          refine ⟨fun a ha ha' => ?_, fun h => ?_, fun h => ?_⟩
          · by_cases hin : a < va + n
            · exact hread a ha hin
            · exact hrest a (by omega) (by dsimp only at ha'; omega)
          · have := hok h
            dsimp only
            omega
          · dsimp only
            rw [← Nat.add_assoc]
            have hlt := (hfail h).1
            exact ⟨by omega, (hfail h).2⟩
        · have hnone : copyLoop ok turns (va0 + PGSIZE) 0 = (0, true) := by cases turns <;> rfl
          rw [hnext, hnone]
          exact ⟨hread, fun _ => by dsimp only; omega, nofun⟩

theorem copyLoop_le (hturns : len ≤ turns) : (copyLoop ok turns va len).1 ≤ len := by
  obtain ⟨-, hok, hfail⟩ := @copyLoop_spec ok turns va len hturns
  cases h : (copyLoop ok turns va len).2 with
  | true => exact Nat.le_of_eq (hok h)
  | false => exact Nat.le_of_lt (hfail h).1

end Loop

variable {writable : Nat → Bool} {src src' : List Byte}

theorem stored_le (dstva len : Nat) : stored writable dstva len ≤ len := copyLoop_le (Nat.le_refl _)

theorem copyoutLoop_succ (turns dstva : Nat) (src : List Byte) : copyoutLoop writable (turns + 1) dstva src =
    if src.length = 0 then ([], 0)
    else if pageOk writable (dstva / PGSIZE * PGSIZE) = false then ([], -1)
    else
      let n := min (PGSIZE - (dstva - dstva / PGSIZE * PGSIZE)) src.length
      let rest := copyoutLoop writable turns (dstva / PGSIZE * PGSIZE + PGSIZE) (src.drop n)
      ((dstva, src.take n) :: rest.1, rest.2) := by
  rw [copyoutLoop, pageOk]
  by_cases hva : dstva / PGSIZE * PGSIZE < MAXVA
  · rw [decide_eq_true hva, Bool.true_and]
    simp only [if_neg (Nat.not_le.mpr hva)]
  · rw [decide_eq_false hva, Bool.false_and]
    simp only [if_pos (Nat.not_lt.mp hva), if_true]

theorem copyoutLoop_bytes (writable : Nat → Bool) (turns dstva : Nat) (src : List Byte) :
    ((copyoutLoop writable turns dstva src).1.map (·.2)).flatten =
      src.take (copyLoop (pageOk writable) turns dstva src.length).1 := by
  induction turns generalizing dstva src with
  | zero => simp [copyoutLoop, copyLoop]
  | succ turns ih =>
    simp only [copyoutLoop_succ, copyLoop]
    split
    · simp
    · split
      · simp
      · rw [List.map_cons, List.flatten_cons, ih, List.length_drop, List.take_add]

theorem copyoutLoop_congr (turns dstva : Nat) (hlen : src.length = src'.length)
    (h : src.take (copyLoop (pageOk writable) turns dstva src.length).1 =
      src'.take (copyLoop (pageOk writable) turns dstva src.length).1) :
    copyoutLoop writable turns dstva src = copyoutLoop writable turns dstva src' := by
  induction turns generalizing dstva src src' with
  | zero => rfl
  | succ turns ih =>
    simp only [copyoutLoop_succ, copyLoop] at h ⊢
    rw [← hlen]
    by_cases h₀ : src.length = 0
    · simp only [if_pos h₀]
    · simp only [if_neg h₀] at h ⊢
      by_cases h₁ : pageOk writable (dstva / PGSIZE * PGSIZE) = false
      · simp only [if_pos h₁]
      · simp only [if_neg h₁] at h ⊢
        generalize min (PGSIZE - (dstva - dstva / PGSIZE * PGSIZE)) src.length = n at h ⊢
        rw [List.take_add, List.take_add] at h
        have hlen' : (src.take n).length = (src'.take n).length := by simp [hlen]
        obtain ⟨hhead, htail⟩ := List.append_inj h hlen'
        have hrest : (src.drop n).length = (src'.drop n).length := by simp [hlen]
        rw [hhead, ih (dstva / PGSIZE * PGSIZE + PGSIZE) hrest (by rw [List.length_drop]; exact htail)]

theorem copyoutLoop_shape (turns dstva : Nat) (hlen : src.length = src'.length) :
    (copyoutLoop writable turns dstva src).1.length = (copyoutLoop writable turns dstva src').1.length ∧
      (copyoutLoop writable turns dstva src).2 = (copyoutLoop writable turns dstva src').2 := by
  induction turns generalizing dstva src src' with
  | zero => exact ⟨rfl, rfl⟩
  | succ turns ih =>
    simp only [copyoutLoop_succ, ← hlen]
    split
    · exact ⟨rfl, rfl⟩
    · split
      · exact ⟨rfl, rfl⟩
      · generalize min (PGSIZE - (dstva - dstva / PGSIZE * PGSIZE)) src.length = n
        have hrest : (src.drop n).length = (src'.drop n).length := by simp [hlen]
        have h := ih (dstva / PGSIZE * PGSIZE + PGSIZE) hrest
        exact ⟨congrArg (· + 1) h.1, h.2⟩

theorem copyout_shape (writable : Nat → Bool) (dstva : Nat) (hlen : src.length = src'.length) :
    (copyout writable dstva src).1.length = (copyout writable dstva src').1.length ∧
      (copyout writable dstva src).2 = (copyout writable dstva src').2 := by
  rw [copyout, copyout, ← hlen]
  exact copyoutLoop_shape _ _ hlen

theorem copyout_eq_iff (writable : Nat → Bool) (dstva : Nat) (hlen : src.length = src'.length) :
    copyout writable dstva src = copyout writable dstva src' ↔
      src.take (stored writable dstva src.length) = src'.take (stored writable dstva src.length) := by
  constructor
  · intro h
    have hbytes := copyoutLoop_bytes writable src.length dstva src
    have hbytes' := copyoutLoop_bytes writable src'.length dstva src'
    rw [copyout, copyout] at h
    rw [h, hbytes', ← hlen] at hbytes
    exact hbytes.symm
  · intro h
    rw [copyout, copyout, ← hlen]
    exact copyoutLoop_congr _ _ hlen h

section Stores

def Confined (ws : List (Nat × List Byte)) (a len : Nat) : Prop :=
  ∀ w ∈ ws, a ≤ w.1 ∧ w.1 + w.2.length ≤ a + len

theorem confined_nil {a len : Nat} : Confined [] a len := fun _ hw => absurd hw List.not_mem_nil

theorem confined_cons {w : Nat × List Byte} {ws : List (Nat × List Byte)} {a len : Nat} (h : a ≤ w.1)
    (h' : w.1 + w.2.length ≤ a + len) (hws : Confined ws a len) : Confined (w :: ws) a len := by
  intro v hv
  rcases List.mem_cons.mp hv with rfl | hv
  · exact ⟨h, h'⟩
  · exact hws v hv

theorem Confined.mono {ws : List (Nat × List Byte)} {a len b m : Nat} (h : Confined ws b m) (hb : a ≤ b)
    (hm : b + m ≤ a + len) : Confined ws a len := by
  intro w hw
  have := h w hw
  omega

theorem Confined.append {ws vs : List (Nat × List Byte)} {a len : Nat} (h : Confined ws a len)
    (h' : Confined vs a len) : Confined (ws ++ vs) a len := by
  intro w hw
  rcases List.mem_append.mp hw with hw | hw
  · exact h w hw
  · exact h' w hw

theorem copyoutLoop_stores {turns dstva : Nat} (hturns : src.length ≤ turns) :
    (copyoutLoop writable turns dstva src).2 =
      (if (copyLoop (pageOk writable) turns dstva src.length).2 then 0 else -1) ∧
    Confined (copyoutLoop writable turns dstva src).1 dstva src.length ∧
    ∀ m, stores m (copyoutLoop writable turns dstva src).1 =
      store m (dstva, src.take (copyLoop (pageOk writable) turns dstva src.length).1) := by
  induction turns generalizing dstva src with
  | zero => exact ⟨rfl, confined_nil, fun m => (store_nil m dstva).symm⟩
  | succ turns ih =>
    have hpage := page_bounds dstva
    simp only [copyoutLoop_succ, copyLoop]
    generalize dstva / PGSIZE * PGSIZE = va0 at hpage ⊢
    by_cases h₀ : src.length = 0
    · rw [if_pos h₀, if_pos h₀]
      exact ⟨rfl, confined_nil, fun m => (store_nil m dstva).symm⟩
    rw [if_neg h₀, if_neg h₀]
    by_cases h₁ : pageOk writable va0 = false
    · rw [if_pos h₁, if_pos h₁]
      exact ⟨rfl, confined_nil, fun m => (store_nil m dstva).symm⟩
    rw [if_neg h₁, if_neg h₁]
    generalize hn : min (PGSIZE - (dstva - va0)) src.length = n
    have hlen : (src.take n).length = n := by
      rw [List.length_take]
      omega
    obtain ⟨hcode, hconf, hst⟩ := @ih (src.drop n) (va0 + PGSIZE) (by rw [List.length_drop]; omega)
    rw [List.length_drop] at hcode hconf hst
    refine ⟨hcode, confined_cons (Nat.le_refl _) (by rw [hlen]; omega) ?_, fun m => ?_⟩
    · -- the copy ends in this page, or goes on at the next one
      rcases (by omega : va0 + PGSIZE = dstva + n ∨ src.length - n = 0) with hnext | hlast
      · rw [hnext] at hconf ⊢
        exact hconf.mono (Nat.le_add_right ..) (by omega)
      · have hdone : (copyoutLoop writable turns (va0 + PGSIZE) (src.drop n)).1 = [] := by
          rw [List.drop_eq_nil_of_le (by omega)]
          cases turns <;> rfl
        rw [hdone]
        exact confined_nil
    · rw [stores, hst, List.take_add]
      rcases (by omega : va0 + PGSIZE = dstva + n ∨ src.length - n = 0) with hnext | hlast
      · rw [store_append, hlen, hnext]
      · rw [List.drop_eq_nil_of_le (by omega), List.take_nil, store_nil, List.append_nil]

theorem stored_of_ok {dstva : Nat} (h : ¬(copyout writable dstva src).2 < 0) :
    stored writable dstva src.length = src.length := by
  rw [copyout, (copyoutLoop_stores (Nat.le_refl _)).1] at h
  refine (copyLoop_spec (Nat.le_refl _)).2.1 ?_
  by_contra hne
  rw [if_neg hne] at h
  exact h (by decide)

/-- All pages of a range can be written to. -/
def Accepts (writable : Nat → Bool) (dstva len : Nat) : Prop :=
  ∀ a, dstva ≤ a → a < dstva + len → a / PGSIZE * PGSIZE < MAXVA ∧ writable (a / PGSIZE * PGSIZE) = true

theorem copyout_stores {dstva : Nat} (hok : Accepts writable dstva src.length) (m : Nat → Byte) :
    (copyout writable dstva src).2 = 0 ∧ stores m (copyout writable dstva src).1 = store m (dstva, src) := by
  obtain ⟨hcode, -, hst⟩ := @copyoutLoop_stores writable src _ dstva (Nat.le_refl _)
  obtain ⟨-, hall, hfail⟩ := @copyLoop_spec (pageOk writable) _ dstva _ (Nat.le_refl src.length)
  have hdone : (copyLoop (pageOk writable) src.length dstva src.length).2 = true := by
    by_contra hne
    obtain ⟨hlt, hbad⟩ := hfail (Bool.eq_false_iff.mpr hne)
    obtain ⟨hva, hw⟩ := hok _ (Nat.le_add_right ..) (Nat.add_lt_add_left hlt _)
    rw [pageOk, decide_eq_true hva, hw] at hbad
    cases hbad
  rw [copyout, hcode, hst, hdone, if_pos rfl, hall hdone, List.take_length]
  exact ⟨rfl, rfl⟩

theorem copyout_first (writable : Nat → Bool) (dst : Nat) (hs : 0 < src.length) :
    (pageOk writable (dst / PGSIZE * PGSIZE) = false → copyout writable dst src = ([], -1)) ∧
    (pageOk writable (dst / PGSIZE * PGSIZE) = true →
      ∃ w ∈ (copyout writable dst src).1, w.1 = dst ∧ 0 < w.2.length) := by
  obtain ⟨turns, hturns⟩ : ∃ turns, src.length = turns + 1 := ⟨src.length - 1, by omega⟩
  have hpage := page_bounds dst
  rw [copyout, hturns, copyoutLoop_succ, if_neg (Nat.ne_of_gt hs)]
  refine ⟨fun hw => if_pos hw, fun hw => ?_⟩
  rw [if_neg (by rw [hw]; exact Bool.noConfusion)]
  refine ⟨_, List.mem_cons_self, rfl, ?_⟩
  rw [List.length_take]
  omega

end Stores

end AdaptiveXv6.CopyOut
