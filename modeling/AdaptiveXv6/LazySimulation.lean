import Mathlib.Order.Nat
import AdaptiveXv6.LazyMemory

namespace AdaptiveXv6.LazySimulation

open MemLayout Words Bytes LazyMemory Function

/-- Memory under lazy and under eager allocation: a page that only the second has is below the size and still
zero. -/
structure Similar (l e : Space) : Prop where
  tidy : Tidy l
  sz : e.sz = l.sz
  pages : ∀ q, e.page q = l.page q ∨ l.page q = none ∧ e.page q = some zeroPage ∧ q * PGSIZE < l.sz

variable {l e : Space} {q va : Nat} {x : Page}

theorem similar_self (h : Tidy l) : Similar l l := ⟨h, rfl, fun _ => .inl rfl⟩

theorem pageOf_eq (va : Nat) : pageOf va = va / PGSIZE * PGSIZE := rfl

theorem pageOf_div (q : Nat) : q * PGSIZE / PGSIZE = q := Nat.mul_div_cancel q (by decide)

theorem tidy_setPage (h : Tidy l) (hq : l.page q ≠ none ∨ q * PGSIZE < l.sz) : Tidy (l.setPage q x) := by
  refine ⟨h.1, fun q' hle hlt => ?_⟩
  by_cases hqq : q' = q
  · subst hqq
    rcases hq with hq | hq
    · exact absurd (h.2 q' hle hlt) hq
    · exact absurd hle (Nat.not_le.mpr hq)
  · exact (update_of_ne hqq ..).trans (h.2 q' hle hlt)

theorem Similar.setPage (h : Similar l e) (hq : l.page q ≠ none ∨ q * PGSIZE < l.sz) (x : Page) :
    Similar (l.setPage q x) (e.setPage q x) := by
  refine ⟨tidy_setPage h.tidy hq, h.sz, fun q' => ?_⟩
  by_cases hqq : q' = q
  · subst hqq
    left
    simp only [Space.setPage, update_self]
  · simp only [Space.setPage, update_of_ne hqq]
    exact h.pages q'

theorem Similar.fill (h : Similar l e) (hq : q * PGSIZE < l.sz) (he : e.page q = some zeroPage) :
    Similar (l.setPage q zeroPage) e := by
  refine ⟨tidy_setPage h.tidy (.inr hq), h.sz, fun q' => ?_⟩
  by_cases hqq : q' = q
  · subst hqq
    left
    simp only [Space.setPage, update_self, he]
  · simp only [Space.setPage, update_of_ne hqq]
    exact h.pages q'

theorem lt_MAXVA (h : Tidy l) (hva : va < l.sz) : va < MAXVA :=
  (hva.trans_le h.1).trans (by decide)

theorem walkaddr_congr (h : e.page (va / PGSIZE) = l.page (va / PGSIZE)) : e.walkaddr va = l.walkaddr va := by
  rw [Space.walkaddr, Space.walkaddr, h]

theorem page_of_walkaddr (h : l.walkaddr va = some x) : l.page (va / PGSIZE) = some x := by
  rw [Space.walkaddr] at h
  split at h
  · cases h
  · split at h
    · rename_i y hy
      split at h
      · cases h
        exact hy
      · cases h
    · cases h

theorem similar_reach (h : Similar l e) (q : Nat) :
    (l.reach (q * PGSIZE) = none ∧ e.reach (q * PGSIZE) = none) ∨
      ∃ l' e' x, l.reach (q * PGSIZE) = some (l', x) ∧ e.reach (q * PGSIZE) = some (e', x) ∧ Similar l' e' ∧
        l'.page q = some x := by
  have hdiv := pageOf_div q
  rcases h.pages q with hq | ⟨hl, he, hlt⟩
  · have hwalk : e.walkaddr (q * PGSIZE) = l.walkaddr (q * PGSIZE) := walkaddr_congr (by rw [hdiv, hq])
    rw [Space.reach, Space.reach, hwalk]
    cases hw : l.walkaddr (q * PGSIZE) with
    | some x =>
      have hx := page_of_walkaddr hw
      rw [hdiv] at hx
      exact .inr ⟨l, e, x, rfl, rfl, h, hx⟩
    | none =>
      simp only [Space.vmfault, h.sz, hdiv, hq]
      by_cases hsz : q * PGSIZE ≥ l.sz
      · simp only [if_pos hsz]
        exact .inl ⟨trivial, trivial⟩
      · simp only [if_neg hsz]
        by_cases hsome : (l.page q).isSome
        · simp only [if_pos hsome]
          exact .inl ⟨trivial, trivial⟩
        · simp only [if_neg hsome]
          exact .inr ⟨_, _, zeroPage, rfl, rfl, h.setPage (.inr (Nat.not_le.mp hsz)) zeroPage,
            update_self ..⟩
  · right
    have hlw : l.walkaddr (q * PGSIZE) = none := by
      rw [Space.walkaddr, hdiv, hl]
      split
      · rfl
      · rfl
    have hew : e.walkaddr (q * PGSIZE) = some zeroPage := by
      rw [Space.walkaddr, hdiv, he, if_neg (Nat.not_le.mpr (lt_MAXVA h.tidy hlt))]
      rfl
    have hfault : l.vmfault (q * PGSIZE) = some (l.setPage q zeroPage) := by
      rw [Space.vmfault, if_neg (Nat.not_le.mpr hlt), hdiv, hl]
      rfl
    refine ⟨l.setPage q zeroPage, e, zeroPage, ?_, ?_, h.fill hlt he, update_self ..⟩
    · rw [Space.reach, hlw, hfault]
    · rw [Space.reach, hew]

theorem similar_copyin (h : Similar l e) (turns va len : Nat) :
    Similar (copyinLoop turns l va len).1 (copyinLoop turns e va len).1 ∧
      (copyinLoop turns e va len).2 = (copyinLoop turns l va len).2 := by
  induction turns generalizing l e va len with
  | zero => exact ⟨h, rfl⟩
  | succ turns ih =>
    simp only [copyinLoop]
    by_cases hlen : len = 0
    · simp only [if_pos hlen]
      exact ⟨h, trivial⟩
    · simp only [if_neg hlen]
      rcases similar_reach h (va / PGSIZE) with ⟨hl, he⟩ | ⟨l', e', x, hl, he, hsim, -⟩
      · rw [pageOf_eq, hl, he]
        exact ⟨h, rfl⟩
      · rw [pageOf_eq, hl, he]
        obtain ⟨h₁, h₂⟩ := ih hsim (va / PGSIZE * PGSIZE + PGSIZE)
          (len - min (PGSIZE - (va - va / PGSIZE * PGSIZE)) len)
        exact ⟨h₁, by simp only [h₂]⟩

theorem similar_copyout (h : Similar l e) (turns va : Nat) (src : List Byte) :
    Similar (copyoutLoop turns l va src).1 (copyoutLoop turns e va src).1 ∧
      (copyoutLoop turns e va src).2 = (copyoutLoop turns l va src).2 := by
  induction turns generalizing l e va src with
  | zero => exact ⟨h, rfl⟩
  | succ turns ih =>
    simp only [copyoutLoop]
    by_cases hlen : src.length = 0
    · simp only [if_pos hlen]
      exact ⟨h, trivial⟩
    · simp only [if_neg hlen]
      by_cases hmax : pageOf va ≥ MAXVA
      · simp only [if_pos hmax]
        exact ⟨h, trivial⟩
      · simp only [if_neg hmax]
        rcases similar_reach h (va / PGSIZE) with ⟨hl, he⟩ | ⟨l', e', x, hl, he, hsim, hx⟩
        · rw [pageOf_eq, hl, he]
          exact ⟨h, rfl⟩
        · rw [pageOf_eq, hl, he]
          by_cases hw : x.write = true
          · simp only [if_pos hw]
            exact ih (hsim.setPage (.inl (by rw [hx]; simp)) _) _ _
          · simp only [if_neg hw]
            exact ⟨hsim, trivial⟩

theorem StrRes.cons_hole {r : List Byte} {y : StrRes} (h : y = .hole va) : StrRes.cons r y = .hole va := by
  rw [h]
  rfl

theorem similar_copyinstr (h : Similar l e) (turns va max : Nat)
    (hserved : ∀ a, copyinstrLoop turns l va max = .hole a → l.page (a / PGSIZE) = none → l.sz ≤ a) :
    copyinstrLoop turns e va max = copyinstrLoop turns l va max := by
  induction turns generalizing va max with
  | zero => rfl
  | succ turns ih =>
    simp only [copyinstrLoop] at hserved ⊢
    by_cases hmax : max = 0
    · simp only [if_pos hmax]
    · simp only [if_neg hmax] at hserved ⊢
      rw [pageOf_eq] at hserved ⊢
      have hdiv := pageOf_div (va / PGSIZE)
      rcases h.pages (va / PGSIZE) with hq | ⟨hl, he, hlt⟩
      · have hwalk : e.walkaddr (va / PGSIZE * PGSIZE) = l.walkaddr (va / PGSIZE * PGSIZE) :=
          walkaddr_congr (by rw [hdiv, hq])
        rw [hwalk]
        cases hw : l.walkaddr (va / PGSIZE * PGSIZE) with
        | none => rfl
        | some x =>
          rw [hw] at hserved
          simp only at hserved ⊢
          split
          · rfl
          · rename_i hnul
            rw [if_neg hnul] at hserved
            refine congrArg (StrRes.cons _) (ih _ _ fun a ha hnone => ?_)
            exact hserved a (StrRes.cons_hole ha) hnone
      · have hlw : l.walkaddr (va / PGSIZE * PGSIZE) = none := by
          rw [Space.walkaddr, hdiv, hl]
          split
          · rfl
          · rfl
        rw [hlw] at hserved
        have := hserved _ rfl (by rw [hdiv, hl])
        omega

theorem roundup_le (n : Nat) : n ≤ PGROUNDUP n ∧ PGROUNDUP n < n + PGSIZE := by
  rw [PGROUNDUP]
  have := Nat.div_add_mod (n + PGSIZE - 1) PGSIZE
  have := Nat.mod_lt (n + PGSIZE - 1) (show 0 < PGSIZE by decide)
  rw [Nat.mul_comm]
  omega

theorem lt_of_lt_roundup {n : Nat} (h : q * PGSIZE < PGROUNDUP n) : q * PGSIZE < n := by
  by_contra hn
  have hlt := (roundup_le n).2
  rw [PGROUNDUP] at h hlt
  have hq : q < (n + PGSIZE - 1) / PGSIZE := Nat.lt_of_mul_lt_mul_right h
  have : (q + 1) * PGSIZE ≤ (n + PGSIZE - 1) / PGSIZE * PGSIZE := Nat.mul_le_mul_right _ hq
  rw [Nat.add_mul] at this
  omega

theorem roundup_le_of_le {n : Nat} (h : n ≤ q * PGSIZE) : PGROUNDUP n ≤ q * PGSIZE := by
  by_contra hn
  have := lt_of_lt_roundup (Nat.not_le.mp hn)
  omega

variable (h : Similar l e)

include h

theorem similar_grow {newsz : Nat} (hge : l.sz ≤ newsz) (htop : newsz ≤ TRAPFRAME) :
    Similar { l with sz := newsz } (uvmalloc e newsz) := by
  refine ⟨⟨htop, fun q hle hlt => h.tidy.2 q (hge.trans hle) hlt⟩, rfl, fun q => ?_⟩
  simp only [uvmalloc, h.sz]
  by_cases hq : PGROUNDUP l.sz ≤ q * PGSIZE ∧ q * PGSIZE < newsz
  · rw [if_pos hq]
    refine .inr ⟨?_, rfl, hq.2⟩
    exact h.tidy.2 q ((roundup_le l.sz).1.trans hq.1) (hq.2.trans_le htop)
  · rw [if_neg hq]
    exact (h.pages q).imp_right fun hx => ⟨hx.1, hx.2.1, hx.2.2.trans_le hge⟩

theorem similar_uvmalloc {newsz : Nat} (hge : l.sz ≤ newsz) (htop : newsz ≤ TRAPFRAME) :
    Similar (uvmalloc l newsz) (uvmalloc e newsz) := by
  refine ⟨⟨htop, fun q hle hlt => ?_⟩, rfl, fun q => ?_⟩
  · simp only [uvmalloc] at hle ⊢
    rw [if_neg (by omega)]
    exact h.tidy.2 q (hge.trans hle) hlt
  · simp only [uvmalloc, h.sz]
    by_cases hq : PGROUNDUP l.sz ≤ q * PGSIZE ∧ q * PGSIZE < newsz
    · rw [if_pos hq, if_pos hq]
      exact .inl rfl
    · rw [if_neg hq, if_neg hq]
      exact (h.pages q).imp_right fun hx => ⟨hx.1, hx.2.1, hx.2.2.trans_le hge⟩

theorem similar_uvmdealloc (newsz : Nat) : Similar (uvmdealloc l newsz) (uvmdealloc e newsz) := by
  simp only [uvmdealloc, h.sz]
  by_cases hge : newsz ≥ l.sz
  · simp only [if_pos hge]
    exact h
  · simp only [if_neg hge]
    refine ⟨⟨?_, fun q hle hlt => ?_⟩, rfl, fun q => ?_⟩
    · exact (Nat.le_of_lt (Nat.not_le.mp hge)).trans h.tidy.1
    · simp only
      split
      · rfl
      · rename_i hn
        have hr := roundup_le_of_le hle
        have : PGROUNDUP l.sz ≤ q * PGSIZE := by
          by_contra hc
          exact hn ⟨hr, Nat.not_le.mp hc⟩
        exact h.tidy.2 q ((roundup_le l.sz).1.trans this) hlt
    · simp only
      split
      · exact .inl rfl
      · rename_i hn
        refine (h.pages q).imp_right fun hx => ⟨hx.1, hx.2.1, ?_⟩
        refine lt_of_lt_roundup ?_
        by_contra hc
        refine hn ⟨Nat.not_lt.mp hc, hx.2.2.trans_le (roundup_le l.sz).1⟩

theorem similar_growproc (n : Int) : (growproc l n = none ∧ growproc e n = none) ∨
      ∃ l' e', growproc l n = some l' ∧ growproc e n = some e' ∧ Similar l' e' := by
  simp only [growproc, h.sz]
  by_cases hpos : 0 < n
  · simp only [if_pos hpos]
    by_cases htop : l.sz + n.toNat > TRAPFRAME
    · simp only [if_pos htop]
      exact .inl ⟨trivial, trivial⟩
    · simp only [if_neg htop]
      exact .inr ⟨_, _, rfl, rfl, similar_uvmalloc h (by omega) (Nat.not_lt.mp htop)⟩
  · simp only [if_neg hpos]
    by_cases hneg : n < 0
    · simp only [if_pos hneg]
      exact .inr ⟨_, _, rfl, rfl, similar_uvmdealloc h _⟩
    · simp only [if_neg hneg]
      exact .inr ⟨l, e, rfl, rfl, h⟩

theorem similar_sbrk (n : Int) (lazy : Bool) (hn : n < 2 ^ 31) :
    (sysSbrk false l n lazy = none ∧ sysSbrk true e n lazy = none) ∨
      ∃ l' e', sysSbrk false l n lazy = some l' ∧ sysSbrk true e n lazy = some e' ∧ Similar l' e' := by
  have heager : sysSbrk true e n lazy = growproc e n := by
    rw [sysSbrk, if_pos (.inl rfl)]
  rw [heager]
  by_cases hdirect : false = true ∨ lazy = false ∨ n < 0
  · rw [sysSbrk, if_pos hdirect]
    exact similar_growproc h n
  · have hnn : 0 ≤ n := by
      by_contra hc
      exact hdirect (.inr (.inr (Int.not_le.mp hc)))
    have hsz := h.tidy.1
    have hu : u64 (l.sz + n.toNat) = l.sz + n.toNat := by
      refine u64_of_lt ?_
      have hmax : TRAPFRAME < 2 ^ 63 := by decide
      omega
    rw [sysSbrk, if_neg hdirect, hu, if_neg (by omega)]
    by_cases htop : l.sz + n.toNat > TRAPFRAME
    · left
      rw [if_pos htop]
      refine ⟨rfl, ?_⟩
      have hpos : 0 < n := by omega
      rw [growproc, if_pos hpos, h.sz, if_pos htop]
    · right
      rw [if_neg htop]
      by_cases hpos : 0 < n
      · refine ⟨_, uvmalloc e (l.sz + n.toNat), rfl, ?_, similar_grow h (by omega) (Nat.not_lt.mp htop)⟩
        rw [growproc, if_pos hpos, h.sz, if_neg htop]
      · obtain rfl : n = 0 := by omega
        exact ⟨_, e, rfl, rfl, h⟩

theorem similar_uvmcopy : Similar (uvmcopy l) (uvmcopy e) := by
  refine ⟨⟨h.tidy.1, fun q hle hlt => ?_⟩, h.sz, fun q => ?_⟩
  · simp only [uvmcopy] at hle ⊢
    rw [if_neg (Nat.not_lt.mpr hle), procPage, if_neg]
    rintro (hq | hq)
    · subst hq
      exact absurd hlt (by decide)
    · subst hq
      exact absurd hlt (by decide)
  · simp only [uvmcopy, h.sz]
    by_cases hq : q * PGSIZE < l.sz
    · rw [if_pos hq, if_pos hq]
      exact h.pages q
    · rw [if_neg hq, if_neg hq]
      exact .inl rfl

theorem similar_access (va : Nat) (store : Bool)
    (hserved : l.page (va / PGSIZE) = none → va / PGSIZE * PGSIZE < l.sz → va < l.sz) :
    (access l va store = none ∧ access e va store = none) ∨
      ∃ l' e' x, access l va store = some (l', x) ∧ access e va store = some (e', x) ∧ Similar l' e' ∧
        l'.page (va / PGSIZE) = some x := by
  rcases h.pages (va / PGSIZE) with hq | ⟨hl, he, hlt⟩
  · simp only [access, hq]
    by_cases hmax : va ≥ MAXVA
    · simp only [if_pos hmax]
      have hge : va ≥ l.sz := by
        have := h.tidy.1
        have : TRAPFRAME < MAXVA := by decide
        omega
      simp only [Space.vmfault, h.sz, if_pos hge]
      exact .inl ⟨trivial, trivial⟩
    · simp only [if_neg hmax]
      cases hp : l.page (va / PGSIZE) with
      | some x =>
        simp only
        split
        · exact .inr ⟨l, e, x, rfl, rfl, h, hp⟩
        · exact .inl ⟨rfl, rfl⟩
      | none =>
        simp only [Space.vmfault, h.sz, hq, hp, Option.isSome_none, Bool.false_eq_true, if_false]
        by_cases hsz : va ≥ l.sz
        · simp only [if_pos hsz]
          exact .inl ⟨trivial, trivial⟩
        · simp only [if_neg hsz]
          have hbelow : va / PGSIZE * PGSIZE < l.sz :=
            (Nat.div_mul_le_self va PGSIZE).trans_lt (Nat.not_le.mp hsz)
          exact .inr ⟨_, _, zeroPage, rfl, rfl, h.setPage (.inr hbelow) zeroPage, update_self ..⟩
  · right
    have hva := hserved hl hlt
    have hmax := lt_MAXVA h.tidy hva
    refine ⟨l.setPage (va / PGSIZE) zeroPage, e, zeroPage, ?_, ?_, h.fill hlt he, update_self ..⟩
    · rw [access, if_neg (Nat.not_le.mpr hmax), hl]
      simp only [Space.vmfault, if_neg (Nat.not_le.mpr hva), hl]
      rfl
    · rw [access, if_neg (Nat.not_le.mpr hmax), he]
      simp [zeroPage]

end AdaptiveXv6.LazySimulation
