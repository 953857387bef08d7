import AdaptiveXv6.LazySimulation

namespace AdaptiveXv6.LazyRuns

open MemLayout Words Bytes LazyMemory LazySimulation Function

def Matches (m m' : Machine) : Prop :=
  ∀ p, (m p = none ∧ m' p = none) ∨ ∃ l e, m p = some l ∧ m' p = some e ∧ Similar l e

/-- The steps that do not show whether a page is there: copyinstr() does not end at an unmapped page below the
size, and no instruction touches an unmapped page beyond the size. -/
def Served (m : Machine) (p : Nat) : Op → Prop
  | .copyinstr va max => ∀ s, m p = some s → ∀ a, copyinstrLoop max s va max = .hole a →
    s.page (a / PGSIZE) = none → s.sz ≤ a
  | .load va => ∀ s, m p = some s → s.page (va / PGSIZE) = none → va / PGSIZE * PGSIZE < s.sz → va < s.sz
  | .store va _ => ∀ s, m p = some s → s.page (va / PGSIZE) = none → va / PGSIZE * PGSIZE < s.sz → va < s.sz
  | _ => True

variable {m m' : Machine} {l e : Space}

theorem matches_update (h : Matches m m') (p : Nat) (hs : Similar l e) :
    Matches (update m p (some l)) (update m' p (some e)) := by
  intro q
  by_cases hq : q = p
  · subst hq
    exact .inr ⟨l, e, update_self .., update_self .., hs⟩
  · rw [update_of_ne hq, update_of_ne hq]
    exact h q

theorem matches_remove (h : Matches m m') (p : Nat) : Matches (update m p none) (update m' p none) := by
  intro q
  by_cases hq : q = p
  · subst hq
    exact .inl ⟨update_self .., update_self ..⟩
  · rw [update_of_ne hq, update_of_ne hq]
    exact h q

theorem matches_isSome (h : Matches m m') (p : Nat) : (m' p).isSome = (m p).isSome := by
  rcases h p with ⟨h₁, h₂⟩ | ⟨l, e, h₁, h₂, -⟩
  · rw [h₁, h₂]
  · rw [h₁, h₂]
    rfl

theorem perform_matches (h : Matches m m') (p : Nat) (op : Op) (hserved : Served m p op) :
    Matches (perform false m p op).1 (perform true m' p op).1 ∧
      (perform true m' p op).2 = (perform false m p op).2 := by
  rcases h p with ⟨h₁, h₂⟩ | ⟨l, e, h₁, h₂, hsim⟩
  · simp only [perform, h₁, h₂]
    exact ⟨h, trivial⟩
  · cases op with
    | load va =>
      simp only [perform, h₁, h₂]
      rcases similar_access hsim va false (hserved l h₁) with ⟨ha, hb⟩ | ⟨l', e', x, ha, hb, hs, -⟩
      · rw [ha, hb]
        exact ⟨matches_remove h p, rfl⟩
      · rw [ha, hb]
        exact ⟨matches_update h p hs, rfl⟩
    | store va b =>
      simp only [perform, h₁, h₂]
      rcases similar_access hsim va true (hserved l h₁) with ⟨ha, hb⟩ | ⟨l', e', x, ha, hb, hs, hx⟩
      · rw [ha, hb]
        exact ⟨matches_remove h p, rfl⟩
      · rw [ha, hb]
        exact ⟨matches_update h p (hs.setPage (.inl (by rw [hx]; simp)) _), rfl⟩
    | sbrk n lazy =>
      simp only [perform, h₁, h₂]
      rcases similar_sbrk hsim (i32 n) lazy (i32_range n).2 with ⟨ha, hb⟩ | ⟨l', e', ha, hb, hs⟩
      · rw [ha, hb]
        exact ⟨h, rfl⟩
      · rw [ha, hb]
        exact ⟨matches_update h p hs, by rw [hsim.sz]⟩
    | copyin va len =>
      simp only [perform, h₁, h₂]
      obtain ⟨hs, hres⟩ := similar_copyin hsim len va len
      exact ⟨matches_update h p hs, by rw [hres]⟩
    | copyout va src =>
      simp only [perform, h₁, h₂]
      obtain ⟨hs, hres⟩ := similar_copyout hsim src.length va src
      exact ⟨matches_update h p hs, by rw [hres]⟩
    | copyinstr va max =>
      simp only [perform, h₁, h₂]
      exact ⟨h, by rw [similar_copyinstr hsim max va max (hserved l h₁)]⟩
    | fetchaddr addr =>
      simp only [perform, h₁, h₂, hsim.sz]
      split
      · exact ⟨h, rfl⟩
      · obtain ⟨hs, hres⟩ := similar_copyin hsim 8 addr 8
        exact ⟨matches_update h p hs, by rw [hres]⟩
    | fork child =>
      simp only [perform, h₁, h₂, matches_isSome h child]
      split
      · exact ⟨h, rfl⟩
      · exact ⟨matches_update h child (similar_uvmcopy hsim), rfl⟩
    | exec image =>
      simp only [perform, h₁, h₂]
      exact ⟨matches_update h p (similar_self image.property), trivial⟩
    | exit =>
      simp only [perform, h₁, h₂]
      exact ⟨matches_remove h p, trivial⟩

def start (images : Nat → Option Image) : Machine := fun p => (images p).map Subtype.val

theorem matches_start (images : Nat → Option Image) : Matches (start images) (start images) := by
  intro p
  cases hp : images p with
  | none => exact .inl ⟨by simp [start, hp], by simp [start, hp]⟩
  | some x => exact .inr ⟨x.val, x.val, by simp [start, hp], by simp [start, hp], similar_self x.property⟩

/-- Lazy allocation is not visible to a program all of whose steps are served. -/
theorem lazy_transparent (images : Nat → Option Image) (prog : List Res → Nat × Op) (n : Nat)
    (hserved : ∀ k, k < n → Served (run false prog (start images) k).1 (prog (run false prog (start images) k).2).1
      (prog (run false prog (start images) k).2).2) :
    (run true prog (start images) n).2 = (run false prog (start images) n).2 := by
  have hrun : ∀ k, k ≤ n → Matches (run false prog (start images) k).1 (run true prog (start images) k).1 ∧
      (run true prog (start images) k).2 = (run false prog (start images) k).2 := by
    intro k
    induction k with
    | zero => exact fun _ => ⟨matches_start images, rfl⟩
    | succ k ih =>
      intro hk
      obtain ⟨hm, hh⟩ := ih (by omega)
      simp only [run]
      rw [hh]
      obtain ⟨hm', hr⟩ := perform_matches hm (prog (run false prog (start images) k).2).1
        (prog (run false prog (start images) k).2).2 (hserved k hk)
      exact ⟨hm', by rw [hr]⟩
  exact (hrun n (Nat.le_refl n)).2

def oneProc : Nat → Option Image := fun p =>
  if p = 0 then some ⟨⟨PGSIZE, fun q => if q = 0 then some zeroPage else none⟩, by
    refine ⟨by decide, fun q hle _ => if_neg ?_⟩
    rintro rfl
    exact absurd hle (by decide)⟩
  else none

def grow : List Res → Nat × Op := fun h => (0, if h.length = 0 then .sbrk 4096 true else .load 5000)

theorem lazy_transparent_load : (run true grow (start oneProc) 2).2 = (run false grow (start oneProc) 2).2 := by
  refine lazy_transparent oneProc grow 2 fun k hk => ?_
  obtain rfl | rfl : k = 0 ∨ k = 1 := by omega
  · trivial
  · have hsz : ((run false grow (start oneProc) 1).1 0).map (·.sz) = some 8192 := by decide +kernel
    intro s hs _ _
    have hs : (run false grow (start oneProc) 1).1 0 = some s := hs
    rw [hs] at hsz
    have : s.sz = 8192 := Option.some.inj hsz
    omega

/-- With lazy allocation the string at an address fresh from sbrk() cannot be fetched, and a load in the last
page beyond the size kills the process. -/
theorem lazy_visible :
    (run true (fun h => (0, if h.length = 0 then .sbrk 4096 true else .copyinstr 4096 128)) (start oneProc) 2).2 =
      [.addr 4096, .bytes []] ∧
    (run false (fun h => (0, if h.length = 0 then .sbrk 4096 true else .copyinstr 4096 128)) (start oneProc) 2).2 =
      [.addr 4096, .fail] ∧
    (run true (fun h => (0, if h.length = 0 then .sbrk 100 true else .load 4200)) (start oneProc) 2).2 =
      [.addr 4096, .byte 0] ∧
    (run false (fun h => (0, if h.length = 0 then .sbrk 100 true else .load 4200)) (start oneProc) 2).2 =
      [.addr 4096, .killed] := by
  decide +kernel

end AdaptiveXv6.LazyRuns
