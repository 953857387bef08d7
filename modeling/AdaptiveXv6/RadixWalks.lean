import AdaptiveXv6.RadixTrees

namespace AdaptiveXv6.RadixWalks

open MemLayout Radix RadixTrees Function

def leafTable (s : Phys) (va : Nat) : Nat → Nat → Option Nat
  | 0, x => some x
  | level + 1, x => (child s x (PX (level + 1) va)).bind (leafTable s va level)

def valid (w : Nat) : Option Nat := if w &&& PTE_V ≠ 0 then some w else none

structure Good (lo x : Nat) : Prop where
  aligned : x % PGSIZE = 0
  ne_zero : x ≠ 0
  low : lo ≤ x
  high : x < PHYSTOP

variable {s t : Phys} {level x i c va lo : Nat} {alloc : Bool}

theorem find_eq_leafTable : find s va level x = (leafTable s va level x).bind fun p => valid (s.mem p (PX 0 va)) := by
  induction level generalizing x with
  | zero => rfl
  | succ level ih =>
    rw [find, leafTable]
    cases child s x (PX (level + 1) va) with
    | none => rfl
    | some c => exact ih

theorem child_nodup (hn : (pages s (level + 1) x).Nodup) (hi : i < 512) (hc : child s x i = some c) :
    (pages s level c).Nodup := by
  rw [← below_some hc]
  exact nodup_below hn hi

def Same (level va va' : Nat) : Prop := ∀ k ≤ level, PX k va' = PX k va

theorem store_spec {p : Nat} (hn : (pages s level x).Nodup) (h : leafTable s va level x = some p) (w : Nat) :
    Extends s (s.store p (PX 0 va) w) level x [] ∧
      ∀ va', (Same level va va' → find (s.store p (PX 0 va) w) va' level x = valid w) ∧
        (¬ Same level va va' → find (s.store p (PX 0 va) w) va' level x = find s va' level x) := by
  induction level generalizing x with
  | zero =>
    obtain rfl : x = p := Option.some.inj h
    refine ⟨⟨List.Perm.refl _, ?_, id⟩, ?_⟩
    · intro y hy _
      have hne : y ≠ x := fun heq => hy (heq ▸ self_mem)
      exact update_of_ne hne _ _
    · intro va'
      have hmem : (s.store x (PX 0 va) w).mem x = update (s.mem x) (PX 0 va) w := update_self _ _ _
      constructor
      · intro hsame
        rw [find, hmem, hsame 0 (Nat.le_refl 0), update_self, valid]
      · intro hne
        have hpx : PX 0 va' ≠ PX 0 va := by
          intro heq
          refine hne fun k hk => ?_
          rw [Nat.le_zero.mp hk]
          exact heq
        rw [find, hmem, update_of_ne hpx, find]
  | succ level ih =>
    obtain ⟨c, hc, hp⟩ := Option.bind_eq_some_iff.mp h
    obtain ⟨hext, hfind⟩ := ih (child_nodup hn (px_lt _ _) hc) hp
    obtain ⟨hext', _, hfind'⟩ := hext.lift hn (px_lt _ _) hc (fun y hy => absurd hy List.not_mem_nil)
    refine ⟨hext', fun va' => ⟨fun hsame => ?_, fun hne => ?_⟩⟩
    · rw [hfind', if_pos (hsame (level + 1) (Nat.le_refl _))]
      exact (hfind va').1 fun k hk => hsame k (Nat.le_succ_of_le hk)
    · rw [hfind']
      by_cases hpx : PX (level + 1) va' = PX (level + 1) va
      · rw [if_pos hpx, find, hpx, hc]
        refine (hfind va').2 fun hsame => hne fun k hk => ?_
        rcases Nat.le_succ_iff.mp hk with hk | hk
        · exact hsame k hk
        · rw [hk]
          exact hpx
      · rw [if_neg hpx]

section Alloc

theorem kalloc_cases (s : Phys) (hz : 0 ∉ s.free) :
    ((kalloc s).1 = 0 ∧ (kalloc s).2.mem = s.mem ∧ (kalloc s).2.free = s.free) ∨
      ((kalloc s).1 ≠ 0 ∧ s.free = (kalloc s).1 :: (kalloc s).2.free ∧
        ∀ y, y ≠ (kalloc s).1 → (kalloc s).2.mem y = s.mem y) := by
  rw [kalloc]
  split
  · exact Or.inl ⟨rfl, rfl, rfl⟩
  · rename_i x free hfree
    refine Or.inr ⟨fun heq => hz ?_, hfree, fun y hy => update_of_ne hy _ _⟩
    rw [hfree]
    exact heq ▸ List.mem_cons_self

theorem hang_memory {u : Phys} {y : Nat} (hne : x ≠ y) (h : ∀ z, z ≠ y → u.mem z = s.mem z) (i w : Nat) :
    ((u.fill y 0).store x i w).mem x = update (s.mem x) i w ∧
      ((u.fill y 0).store x i w).mem y = (fun _ => 0) ∧
      ∀ z, z ≠ x → z ≠ y → ((u.fill y 0).store x i w).mem z = s.mem z := by
  have hfill : ∀ z, z ≠ y → (u.fill y 0).mem z = s.mem z := fun z hz =>
    (update_of_ne hz _ _).trans (h z hz)
  refine ⟨?_, ?_, fun z hzx hzy => ?_⟩
  · rw [← hfill x hne]
    exact update_self _ _ _
  · exact (update_of_ne hne.symm _ _).trans (update_self _ _ _)
  · exact (update_of_ne hzx _ _).trans (hfill z hzy)

variable {y : Nat} (hn : (pages s (level + 1) x).Nodup) (hi : i < 512) (hc : child s x i = none)
  (hy : y ∉ pages s (level + 1) x) (halign : y % PGSIZE = 0) (hhigh : y < PHYSTOP)
  (hmemx : t.mem x = update (s.mem x) i (PA2PTE y ||| PTE_V)) (hmemy : t.mem y = fun _ => 0)
  (hmem : ∀ z, z ≠ x → z ≠ y → t.mem z = s.mem z)

include hmemy in
theorem child_zero (j : Nat) : child t y j = none := by
  rw [child, hmemy]
  exact if_neg fun h => h (Nat.zero_and _)

include hmemy in
theorem pages_zero : pages t level y = [y] := by
  cases level with
  | zero => rfl
  | succ level =>
    rw [pages_succ, show indices.flatMap (below t level y) = [] from
      List.flatMap_eq_nil_iff.mpr fun j _ => below_none (child_zero hmemy j)]

include hmemy in
theorem find_zero (va : Nat) : find t va level y = none := by
  cases level with
  | zero =>
    rw [find, hmemy]
    exact if_neg fun h => h (Nat.zero_and _)
  | succ level =>
    rw [find, child_zero hmemy]
    rfl

include halign hhigh hmemx in
theorem child_new : child t x i = some y := by
  have hlt : y < 2 ^ 56 := Nat.lt_trans hhigh (by decide)
  rw [child, hmemx, update_self, if_pos (valid_pte hlt).1, pte2pa_pa2pte hlt (by decide)]
  exact congrArg some (Nat.div_mul_cancel (Nat.dvd_of_mod_eq_zero halign))

include hmemx in
theorem child_other {j : Nat} (hj : j ≠ i) : child t x j = child s x j := by
  rw [child, hmemx, update_of_ne hj, child]

include hn hi hc hy halign hhigh hmemx hmemy hmem in
theorem alloc_spec : Extends s t (level + 1) x [y] ∧
    ∀ va, find t va (level + 1) x = find s va (level + 1) x := by
  have hnew : child t x i = some y := child_new halign hhigh hmemx
  have hlt : y < 2 ^ 56 := Nat.lt_trans hhigh (by decide)
  have hsame : ∀ j, j < 512 → ∀ d, child s x j = some d → ∀ z ∈ pages s level d, t.mem z = s.mem z := by
    intro j hj d hd z hz
    refine hmem z (fun heq => ?_) fun heq => ?_
    · rw [heq, ← below_some hd] at hz
      exact self_not_below hn hj hz
    · rw [heq] at hz
      exact hy (child_pages hj hd hz)
  refine ⟨⟨?_, ?_, ?_⟩, fun va => ?_⟩
  · rw [pages_succ, pages_succ, List.cons_append]
    refine (flatMap_one nodup_indices (mem_indices.mpr hi) (fun j hj hne => ?_) ?_).cons x
    · refine below_congr (child_other hmemx hne) fun d hd => ?_
      exact pages_congr (hsame j (mem_indices.mp hj) d hd)
    · rw [below_some hnew, below_none hc, pages_zero hmemy]
      exact List.Perm.refl _
  · intro z hz hznew
    exact hmem z (fun heq => hz (heq ▸ self_mem)) fun heq => hznew (heq ▸ List.mem_cons_self)
  · intro hp j d hj hd
    by_cases hji : j = i
    · subst hji
      rw [hnew] at hd
      cases hd
      rw [hmemx, update_self]
      refine ⟨(valid_pte hlt).2, ?_⟩
      cases level with
      | zero => trivial
      | succ level =>
        intro k e _ hk
        rw [child_zero hmemy] at hk
        cases hk
    · rw [child_other hmemx hji] at hd
      obtain ⟨hw, hpd⟩ := hp j d hj hd
      rw [hmemx, update_of_ne hji]
      exact ⟨hw, pointers_congr (hsame j hj d hd) hpd⟩
  · by_cases hpx : PX (level + 1) va = i
    · rw [find, find, hpx, hnew, hc]
      exact find_zero hmemy va
    · exact find_succ_congr (child_other hmemx hpx) fun d hd => find_congr (hsame _ (px_lt _ _) d hd)

end Alloc

structure Walked (s t : Phys) (va level x : Nat) (r : Option (Nat × Nat)) : Prop where
  grown : ∃ new, s.free = new ++ t.free ∧ Extends s t level x new
  find_eq : ∀ va', find t va' level x = find s va' level x
  leaf : ∀ p, r = some p → p.2 = PX 0 va ∧ leafTable t va level x = some p.1

variable {r : Option (Nat × Nat)}

theorem Walked.lift (hn : (pages s (level + 1) x).Nodup) (hc : child s x (PX (level + 1) va) = some c)
    (hfree : ∀ y ∈ s.free, y ∉ pages s (level + 1) x) (h : Walked s t va level c r) :
    Walked s t va (level + 1) x r := by
  obtain ⟨⟨new, hnew, hext⟩, hfind, hleaf⟩ := h
  obtain ⟨hext', hx, hfind'⟩ := hext.lift hn (px_lt _ _) hc fun y hy =>
    hfree y (hnew ▸ List.mem_append_left _ hy)
  refine ⟨⟨new, hnew, hext'⟩, fun va' => ?_, fun p hp => ?_⟩
  · rw [hfind']
    split
    · rename_i hpx
      rw [hfind, find, hpx, hc]
      rfl
    · rfl
  · obtain ⟨hidx, hl⟩ := hleaf p hp
    rw [leafTable, child_congr hx, hc]
    exact ⟨hidx, hl⟩

theorem Walked.after {u : Phys} {new : List Nat} (hfree : s.free = new ++ u.free) (hext : Extends s u level x new)
    (hfind : ∀ va', find u va' level x = find s va' level x) (h : Walked u t va level x r) :
    Walked s t va level x r := by
  obtain ⟨⟨new', hnew', hext'⟩, hfind', hleaf⟩ := h
  refine ⟨⟨new ++ new', ?_, hext.trans hext'⟩, fun va' => (hfind' va').trans (hfind va'), hleaf⟩
  rw [hfree, hnew', List.append_assoc]

theorem walkLoop_spec (hn : (pages s level x ++ s.free).Nodup) (hgood : ∀ y ∈ s.free, Good lo y) :
    Walked s (walkLoop va alloc level x s).2 va level x (walkLoop va alloc level x s).1 := by
  induction level generalizing x s with
  | zero =>
    refine ⟨⟨[], rfl, extends_of_mem rfl⟩, fun _ => rfl, fun p hp => ?_⟩
    cases hp
    exact ⟨rfl, rfl⟩
  | succ level ih =>
    have hnp : (pages s (level + 1) x).Nodup := hn.of_append_left
    have hdisj := List.disjoint_of_nodup_append hn
    rw [walkLoop]
    split
    · rename_i hv
      -- the entry is valid: the loop goes on in the table it points to
      have hc : child s x (PX (level + 1) va) = some (PTE2PA (s.mem x (PX (level + 1) va))) := if_pos hv
      have hsub : (pages s level (PTE2PA (s.mem x (PX (level + 1) va))) ++ s.free).Nodup := by
        refine List.Nodup.append (child_nodup hnp (px_lt _ _) hc) hn.of_append_right fun y hy hfree => ?_
        exact hdisj (child_pages (px_lt _ _) hc hy) hfree
      exact (ih hsub hgood).lift hnp hc fun y hfree hy => hdisj hy hfree
    · rename_i hv
      have hc : child s x (PX (level + 1) va) = none := if_neg hv
      split
      · exact ⟨⟨[], rfl, extends_of_mem rfl⟩, fun _ => rfl, fun p hp => by cases hp⟩
      · rcases kalloc_cases s fun hz => (hgood 0 hz).ne_zero rfl with ⟨h0, hmem, hfree⟩ | ⟨h0, hfree, hmem⟩
        · rw [if_pos h0]
          refine ⟨⟨[], hfree.symm, extends_of_mem hmem⟩, fun va' => ?_, fun p hp => by cases hp⟩
          exact find_congr fun y _ => congrFun hmem y
        · rw [if_neg h0]
          generalize (kalloc s).1 = y at h0 hfree hmem ⊢
          generalize (kalloc s).2 = u at hfree hmem ⊢
          -- y is hung into the entry, and the loop goes on in it
          have hymem : y ∈ s.free := hfree ▸ List.mem_cons_self
          have hy := hgood y hymem
          have hyp : y ∉ pages s (level + 1) x := fun hyp => hdisj hyp hymem
          have hne : x ≠ y := fun heq => hyp (heq ▸ self_mem)
          have hnf : (y :: u.free).Nodup := hfree ▸ hn.of_append_right
          obtain ⟨hx₁, hy₁, hmem₁⟩ := hang_memory hne hmem (PX (level + 1) va) (PA2PTE y ||| PTE_V)
          generalize hs₁ : (u.fill y 0).store x (PX (level + 1) va) (PA2PTE y ||| PTE_V) = s₁ at *
          have hfree₁ : s₁.free = u.free := hs₁ ▸ rfl
          obtain ⟨hext, hfind⟩ := alloc_spec hnp (px_lt _ _) hc hyp hy.aligned hy.high hx₁ hy₁ hmem₁
          have hsub : (pages s₁ level y ++ s₁.free).Nodup := by
            rw [pages_zero hy₁, hfree₁]
            exact hnf
          have hnp₁ : (pages s₁ (level + 1) x).Nodup := by
            refine hext.pages.nodup_iff.mpr (List.Nodup.append hnp (List.nodup_singleton y) fun z hz hzy => ?_)
            exact hyp (List.mem_singleton.mp hzy ▸ hz)
          have hout : ∀ z ∈ s₁.free, z ∉ pages s₁ (level + 1) x := by
            intro z hz hzp
            rw [hfree₁] at hz
            rcases List.mem_append.mp (hext.pages.mem_iff.mp hzp) with hzs | hzy
            · exact hdisj hzs (hfree ▸ List.mem_cons_of_mem _ hz)
            · exact (List.nodup_cons.mp hnf).1 (List.mem_singleton.mp hzy ▸ hz)
          have hrest := ih hsub fun z hz => hgood z (hfree ▸ List.mem_cons_of_mem _ (hfree₁ ▸ hz))
          refine (hrest.lift hnp₁ (child_new hy.aligned hy.high hx₁) hout).after ?_ hext hfind
          rw [hfree, hfree₁]
          rfl

theorem walkLoop_read : walkLoop va false level x s = ((leafTable s va level x).map fun p => (p, PX 0 va), s) := by
  induction level generalizing x with
  | zero => rfl
  | succ level ih =>
    rw [walkLoop, leafTable]
    by_cases hv : s.mem x (PX (level + 1) va) &&& PTE_V ≠ 0
    · rw [if_pos hv, ih, child, if_pos hv]
      rfl
    · rw [if_neg hv, if_pos rfl, child, if_neg hv]
      rfl

end AdaptiveXv6.RadixWalks
