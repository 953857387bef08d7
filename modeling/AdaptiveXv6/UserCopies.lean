import AdaptiveXv6.UserViews

namespace AdaptiveXv6.UserCopies

open MemLayout Bytes PageTables SpaceSteps SpaceCopies PageFills UserViews

variable {P : Type} {s s₁ s₂ t : Vm P} {p : P} {e : Pte} {ok : Pte → Bool} {r : Bool}
  {lo trampoline va len n k v : Nat}

def writable (e : Pte) : Bool := e.user && e.write

section Turns

/-- The number of pages with a byte of the range. -/
def touched (va len : Nat) : Nat := pages (va % PGSIZE + len)

structure Turn (va len n : Nat) : Prop where
  eq : min (PGSIZE - (va - pageOf va)) len = n
  pos : 0 < n
  le : n ≤ len
  fits : va % PGSIZE + n ≤ PGSIZE
  page : ∀ j, j < n → (va + j) / PGSIZE = va / PGSIZE
  next : n < len → pageOf va + PGSIZE = va + n
  later : ∀ j, n ≤ j → j < len → (va + j) / PGSIZE ≠ va / PGSIZE

theorem offset_eq (va : Nat) : va - pageOf va = va % PGSIZE := by
  change va - va / 4096 * 4096 = va % 4096
  omega

theorem turn (va : Nat) (hlen : 0 < len) : Turn va len (min (PGSIZE - (va - pageOf va)) len) := by
  obtain ⟨n, hn⟩ : ∃ n, min (PGSIZE - (va - pageOf va)) len = n := ⟨_, rfl⟩
  rw [hn]
  have hmin : min (4096 - va % 4096) len = n := by rw [← hn, offset_eq]
  refine ⟨hn, by omega, by omega, ?_, fun j hj => ?_, fun hlt => ?_, fun j hj hj' => ?_⟩
  · change va % 4096 + n ≤ 4096
    omega
  · change (va + j) / 4096 = va / 4096
    omega
  · change va / 4096 * 4096 + 4096 = va + n
    omega
  · change (va + j) / 4096 ≠ va / 4096
    omega

theorem Turn.rest (h : Turn va len n) {k : Nat} (hk : k < len - n) :
    touched va (n + k + 1) = touched (pageOf va + PGSIZE) (k + 1) + 1 ∧
    (pageOf va + PGSIZE) / PGSIZE = va / PGSIZE + 1 ∧
    ∀ j < touched (pageOf va + PGSIZE) (k + 1), ∃ i, n ≤ i ∧ i < len ∧ (va + i) / PGSIZE = va / PGSIZE + 1 + j := by
  have hnext := h.next (by omega)
  change va / 4096 * 4096 + 4096 = va + n at hnext
  refine ⟨?_, ?_, fun j hj => ⟨n + min k (4096 * j), by omega, by omega, ?_⟩⟩
  · change (va % 4096 + (n + k + 1) + 4096 - 1) / 4096 * 4096 / 4096 =
      ((va / 4096 * 4096 + 4096) % 4096 + (k + 1) + 4096 - 1) / 4096 * 4096 / 4096 + 1
    omega
  · change (va / 4096 * 4096 + 4096) / 4096 = va / 4096 + 1
    omega
  · change j < ((va / 4096 * 4096 + 4096) % 4096 + (k + 1) + 4096 - 1) / 4096 * 4096 / 4096 at hj
    change (va + (n + min k (4096 * j))) / 4096 = va / 4096 + 1 + j
    omega

end Turns

/-- What kalloc() is asked for at most to have n pages from v on there. -/
def missing (s : Vm P) (p : P) : Nat → Nat → Nat
  | _, 0 => 0
  | v, n + 1 => cost ((s.pt (some p)).leaf v) + missing s p (v + 1) n

/-- The page of the byte after the first k is not there, and memory runs out, at the latest by the calls of
kalloc() for it and the missing pages before it. -/
def Starved (s : Vm P) (p : P) (va k : Nat) : Prop :=
  (s.pt (some p)).leaf ((va + k) / PGSIZE) = none ∧ ¬Ample s (missing s p (va / PGSIZE) (touched va (k + 1)))

/-- Why a copy stops after k bytes: the page of the next one is not mapped as needed, nor can be, or memory runs
out. -/
def Stops (ok : Pte → Bool) (s : Vm P) (p : P) (va k : Nat) : Prop :=
  suitable ok s p ((va + k) / PGSIZE) = false ∨ Starved s p va k

/-- A copy has got through the first k bytes of a range. -/
structure Passed (lo trampoline : Nat) (ok : Pte → Bool) (p : P) (va len : Nat) (s : Vm P) (r : Bool) (k : Nat)
    (t : Vm P) : Prop where
  kept : Kept lo trampoline p s t
  free : ∀ y ∈ t.free, y ∈ s.free
  le : k ≤ len
  done : r = true ↔ k = len
  mapped : ∀ j < k, ∃ e, (t.pt (some p)).leaf ((va + j) / PGSIZE) = some e ∧ ok e = true ∧
    (va + j) / PGSIZE < pages (s.sz p)
  leaf : ∀ v e, (s.pt (some p)).leaf v = some e → (t.pt (some p)).leaf v = some e
  suits : r = true → ∀ j < len, suitable ok s p ((va + j) / PGSIZE) = true
  failed : r = false → Stops ok s p va k

section Steps

theorem suitable_writable (h : suitable Pte.user s p v = false) : suitable writable s p v = false := by
  rw [suitable] at h ⊢
  cases hl : (s.pt (some p)).leaf v with
  | none =>
    rw [hl] at h
    exact h
  | some e =>
    rw [hl] at h
    change (e.user && e.write) = false
    rw [show e.user = false from h, Bool.false_and]

theorem missing_congr (h : ∀ j < n, (t.pt (some p)).leaf (v + j) = (s.pt (some p)).leaf (v + j)) :
    missing t p v n = missing s p v n := by
  induction n generalizing v with
  | zero => rfl
  | succ n ih =>
    rw [missing, missing, ih fun j hj => ?_, show (t.pt (some p)).leaf v = _ from h 0 (Nat.succ_pos n), Nat.add_zero]
    rw [Nat.add_right_comm, Nat.add_assoc]
    exact h (j + 1) (Nat.succ_lt_succ hj)

theorem starved_first (hnone : (s.pt (some p)).leaf (va / PGSIZE) = none) (hshort : ¬Ample s 3) :
    Starved s p va 0 := by
  refine ⟨hnone, ?_⟩
  have hone : touched va (0 + 1) = 1 := by
    change (va % 4096 + 1 + 4096 - 1) / 4096 * 4096 / 4096 = 1
    omega
  rw [hone, missing, hnone]
  exact hshort

theorem suitable_high (h : Sound lo trampoline s) (hm : s.mode p ≠ .unused) (hva : pageOf va ≥ MAXVA) :
    suitable ok s p (va / PGSIZE) = false := by
  have hspace := ((h.slot p).space hm).2
  have hsz : s.sz p ≤ 274877898752 := hspace.size
  change va / 4096 * 4096 ≥ 274877906944 at hva
  rw [suitable]
  cases hl : (s.pt (some p)).leaf (va / PGSIZE) with
  | none =>
    refine decide_eq_false ?_
    change ¬va / 4096 * 4096 < s.sz p
    omega
  | some e =>
    have hlt : va / 4096 < 67108864 :=
      ((h.owned.shape (some p)).leaf _ (by rw [hl]; exact Option.some_ne_none e)).2
    omega

theorem Passed.stop (hkept : Kept lo trampoline p s t) (htakes : Takes n s t)
    (hleaf : ∀ v e, (s.pt (some p)).leaf v = some e → (t.pt (some p)).leaf v = some e) (hlen : 0 < len)
    (hwhy : Stops ok s p va 0) : Passed lo trampoline ok p va len s false 0 t where
  kept := hkept
  free := htakes.free
  le := Nat.zero_le _
  done := ⟨fun h => absurd h (by decide), fun h => by omega⟩
  mapped j hj := absurd hj (Nat.not_lt_zero j)
  leaf := hleaf
  suits hr := by cases hr
  failed _ := hwhy

theorem Passed.short (h : Passed lo trampoline ok p va len s r k t) (hr : r = false) : k < len := by
  refine Nat.lt_of_le_of_ne h.le fun heq => ?_
  rw [h.done.mpr heq] at hr
  cases hr

theorem leaf_later (hturn : Turn va len n) (hr : Reached s p (va / PGSIZE) e s₁) (hpt : s₂.pt = s₁.pt) {j : Nat}
    (hj : n ≤ j) (hj' : j < len) :
    (s₂.pt (some p)).leaf ((va + j) / PGSIZE) = (s.pt (some p)).leaf ((va + j) / PGSIZE) := by
  rw [hpt, hr.other (hturn.later j hj hj')]

theorem Starved.step (h : Starved s₂ p (pageOf va + PGSIZE) k) (hturn : Turn va len n)
    (htakes : Takes (cost ((s.pt (some p)).leaf (va / PGSIZE))) s s₁) (hr : Reached s p (va / PGSIZE) e s₁)
    (hpt : s₂.pt = s₁.pt) (hfree : s₂.free = s₁.free) (hluck : s₂.luck = s₁.luck) (hk : k < len - n) :
    Starved s p va (n + k) := by
  obtain ⟨hcount, hpage, hlater⟩ := hturn.rest hk
  obtain ⟨hnone, hshort⟩ := h
  rw [hturn.next (by omega), Nat.add_assoc, leaf_later hturn hr hpt (by omega) (by omega)] at hnone
  refine ⟨hnone, fun ha => hshort ?_⟩
  rw [hcount, missing] at ha
  have hrest := htakes.ample _ ha
  rw [hpage, missing_congr (s := s) fun j hj => ?_, Ample, hfree, hluck]
  · exact hrest
  · obtain ⟨i, hi, hi', hat⟩ := hlater j hj
    rw [← hat]
    exact leaf_later hturn hr hpt hi hi'

theorem Passed.nil (h : Sound lo trampoline s) (p : P) (va : Nat) : Passed lo trampoline ok p va 0 s true 0 s where
  kept := Kept.refl h p
  free _ hy := hy
  le := Nat.le_refl 0
  done := ⟨fun _ => rfl, fun _ => rfl⟩
  mapped j hj := absurd hj (Nat.not_lt_zero j)
  leaf _ _ he := he
  suits _ j hj := absurd hj (Nat.not_lt_zero j)
  failed hr := by cases hr

theorem Passed.step (hturn : Turn va len n) (hkept : Kept lo trampoline p s s₁)
    (htakes : Takes (cost ((s.pt (some p)).leaf (va / PGSIZE))) s s₁) (hr : Reached s p (va / PGSIZE) e s₁)
    (hok : ok e = true) (hkept₂ : Kept lo trampoline p s₁ s₂) (hpt : s₂.pt = s₁.pt) (hfree : s₂.free = s₁.free)
    (hluck : s₂.luck = s₁.luck)
    (hrest : Passed lo trampoline ok p (pageOf va + PGSIZE) (len - n) s₂ r k t) :
    Passed lo trampoline ok p va len s r (n + k) t := by
  have hle := hturn.le
  have hk := hrest.le
  have hsz : s₂.sz = s.sz := by rw [hkept₂.only.sz, hkept.only.sz]
  have hnext : ∀ j, n ≤ j → j < len → pageOf va + PGSIZE + (j - n) = va + j := by
    intro j hj hj'
    have := hturn.next (by omega)
    omega
  have hsuit : ∀ j, n ≤ j → j < len →
      suitable ok s₂ p ((va + j) / PGSIZE) = suitable ok s p ((va + j) / PGSIZE) := by
    intro j hj hj'
    rw [suitable, suitable, leaf_later hturn hr hpt hj hj', hsz]
  refine ⟨hkept.trans (hkept₂.trans hrest.kept), fun y hy => htakes.free y (hfree ▸ hrest.free y hy), by omega, ?_,
    fun j hj => ?_, fun w d hd => ?_, fun hr' j hj => ?_, fun hr' => ?_⟩
  · rw [hrest.done]
    omega
  · by_cases hjn : j < n
    · rw [hturn.page j hjn]
      refine ⟨e, hrest.leaf _ _ ?_, hok, hr.below⟩
      rw [hpt, hr.leaf, Function.update_self]
    · obtain ⟨d, hd, hdok, hbelow⟩ := hrest.mapped (j - n) (by omega)
      rw [hnext j (by omega) (by omega)] at hd hbelow
      rw [hsz] at hbelow
      exact ⟨d, hd, hdok, hbelow⟩
  · refine hrest.leaf w d ?_
    rw [hpt]
    exact hr.keeps w d hd
  · by_cases hjn : j < n
    · rw [hturn.page j hjn]
      exact hr.suits hok
    · have hj' := hrest.suits hr' (j - n) (by omega)
      rwa [hnext j (by omega) hj, hsuit j (by omega) hj] at hj'
  · have hklt := hrest.short hr'
    have hadd := hnext (n + k) (by omega) (by omega)
    rw [Nat.add_sub_cancel_left] at hadd
    refine (hrest.failed hr').imp (fun hbad => ?_) fun h => h.step hturn htakes hr hpt hfree hluck hklt
    rwa [hadd, hsuit (n + k) (by omega) (by omega)] at hbad

end Steps

end AdaptiveXv6.UserCopies
