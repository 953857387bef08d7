import AdaptiveXv6.InodeCacheSteps

namespace AdaptiveXv6.InodeCacheRefs

open Words InodeCache InodeCacheSteps Function

variable {P I : Type} {s t : State P I} {p q : P} {x y : Fin NINODE} {i : I}

/-- The number of references fits the int that counts them. -/
def Fits (s : State P I) : Prop := ∀ x, s.count x < 2 ^ 31

theorem i32_nat {n : Nat} (h : n < 2 ^ 31) : i32 n = n := i32_of_range (by omega) (by omega)

/-- One more reference. -/
theorem count_of_refs (h : t.refs.Perm ((p, x) :: s.refs)) (y : Fin NINODE) :
    t.count y = s.count y + if x = y then 1 else 0 := by
  rw [State.count, (h.map Prod.snd).count_eq, List.map_cons, List.count_cons]
  simp only [beq_iff_eq]
  rfl

theorem away_idle (y : Fin NINODE) : Away (.idle : Phase I) y := ⟨nofun, nofun⟩

theorem away_outside {ph : Phase I} (h : ph = .idle ∨ ph = .allocated i) (y : Fin NINODE) : Away ph y := by
  rcases h with rfl | rfl
  · exact away_idle y
  · exact ⟨nofun, nofun⟩

theorem unlocked_of_count (h : Inv s) (hx : s.count x = 0) : (s.entry x).locked = none := by
  cases hl : (s.entry x).locked with
  | none => rfl
  | some q =>
    have := count_pos ((h.between q x).holder hl)
    omega

section Counted

variable [DecidableEq P]

def counted (s : State P I) (x : Fin NINODE) (r : Int) (refs : List (P × Fin NINODE)) (p : P) : State P I :=
  { s.setEntry x { s.entry x with ref := r } with refs := refs, phase := update s.phase p .idle }

theorem counted_ref (s : State P I) (r : Int) (refs : List (P × Fin NINODE)) (p : P) (y : Fin NINODE) :
    ((counted s x r refs p).entry y).ref = if x = y then r else (s.entry y).ref := by
  simp only [counted, State.setEntry]
  by_cases hy : x = y
  · subst hy
    rw [update_self, if_pos rfl]
  · rw [update_of_ne (Ne.symm hy), if_neg hy]

theorem inv_counted {r : Int} {refs : List (P × Fin NINODE)} (h : Inv s)
    (hcount : ∀ y, ((counted s x r refs p).entry y).ref = (counted s x r refs p).count y)
    (hpos : ∀ y, 0 < (counted s x r refs p).count y → 0 < s.count y)
    (hrefs : ∀ q y, q ≠ p ∨ y ≠ x → (q, y) ∈ s.refs → (q, y) ∈ refs) (haway : ∀ y, y ≠ x → Away (s.phase p) y)
    (hself : Between ((p, x) ∈ refs) s.disk p .idle x { s.entry x with ref := r }) :
    Inv (counted s x r refs p) := by
  refine h.change (h.toTable.kept (fun y => ?_) hpos hcount) rfl rfl rfl (fun y _ => hpos y) hrefs
    (fun _ _ _ _ _ => rfl) haway (fun y _ => away_idle y) (fun q hq => ?_) hself fun hc => h.settled x (hpos x hc)
  · simp only [counted, State.setEntry]
    by_cases hy : y = x
    · rw [hy, update_self]
    · rw [update_of_ne hy]
  · exact (h.between q x).kept (hrefs q x (.inl hq)) (fun _ _ _ => rfl) r

theorem inv_more (h : Inv s) (haway : ∀ y, Away (s.phase p) y) (hx : 0 < s.count x)
    (hfits : Fits (counted s x (i32 ((s.entry x).ref + 1)) ((p, x) :: s.refs) p)) :
    Inv (counted s x (i32 ((s.entry x).ref + 1)) ((p, x) :: s.refs) p) := by
  have hcount : ∀ y, (counted s x (i32 ((s.entry x).ref + 1)) ((p, x) :: s.refs) p).count y =
      s.count y + if x = y then 1 else 0 := count_of_refs (.refl _)
  refine inv_counted h (fun y => ?_) (fun y hy => ?_) (fun _ _ _ => List.mem_cons_of_mem _)
    (fun y _ => haway y) ?_
  · have hf := hfits y
    rw [hcount] at hf
    rw [hcount, counted_ref]
    by_cases hxy : x = y
    · subst hxy
      rw [if_pos rfl] at hf
      rw [if_pos rfl, if_pos rfl, h.refs x]
      exact i32_nat hf
    · rw [if_neg hxy, if_neg hxy]
      exact h.refs y
  · rw [hcount] at hy
    by_cases hxy : x = y
    · exact hxy ▸ hx
    · rwa [if_neg hxy] at hy
  · exact ((h.between p x).away (haway x) (away_idle x)).kept (List.mem_cons_of_mem _)
      (fun _ _ _ => rfl) _

theorem inv_unref (h : Inv s) (hfits : Fits s) (hmem : (p, x) ∈ s.refs) (hlock : (s.entry x).locked ≠ some p)
    (haway : ∀ y, y ≠ x → Away (s.phase p) y) :
    Inv (counted s x (i32 ((s.entry x).ref - 1)) (s.refs.erase (p, x)) p) := by
  have hcount : ∀ y, s.count y =
      (counted s x (i32 ((s.entry x).ref - 1)) (s.refs.erase (p, x)) p).count y + if x = y then 1 else 0 :=
    count_of_refs (List.perm_cons_erase hmem)
  refine inv_counted h (fun y => ?_) (fun y hy => ?_) (fun q y hne => (List.mem_erase_of_ne ?_).mpr) haway
    (between_away hlock (away_idle x))
  · have hc := hcount y
    have hf := hfits y
    rw [counted_ref]
    generalize (counted s x (i32 ((s.entry x).ref - 1)) (s.refs.erase (p, x)) p).count y = n at hc ⊢
    by_cases hxy : x = y
    · subst hxy
      rw [if_pos rfl] at hc ⊢
      rw [h.refs x, hc, Int.natCast_add, Int.natCast_one, Int.add_sub_cancel]
      exact i32_nat (by omega)
    · rw [if_neg hxy] at hc ⊢
      rw [h.refs y, hc, Nat.add_zero]
  · rw [hcount]
    omega
  · rintro ⟨⟩
    exact hne.elim (fun hq => hq rfl) fun hy => hy rfl

theorem inv_recycle (h : Inv s) (hphase : s.phase p = .idle ∨ s.phase p = .allocated i) (hx : s.count x = 0)
    (hnew : ∀ y, 0 < s.count y → (s.entry y).key ≠ some i) :
    Inv { s.setEntry x { s.entry x with key := some i, ref := 1, valid := false } with
      refs := (p, x) :: s.refs, phase := update s.phase p .idle } := by
  generalize ht : ({ s.setEntry x { s.entry x with key := some i, ref := 1, valid := false } with
    refs := (p, x) :: s.refs, phase := update s.phase p .idle } : State P I) = t
  have hlock := unlocked_of_count h hx
  have hfree : ∀ q, (s.entry x).locked ≠ some q := by
    intro q hl
    rw [hlock] at hl
    cases hl
  have hentry : t.entry = update s.entry x { s.entry x with key := some i, ref := 1, valid := false } := by
    rw [← ht]
    rfl
  have hself : t.entry x = { s.entry x with key := some i, ref := 1, valid := false } := by rw [hentry, update_self]
  have hother : ∀ y, y ≠ x → t.entry y = s.entry y := fun y hy => by rw [hentry, update_of_ne hy]
  have hcount : ∀ y, t.count y = s.count y + if x = y then 1 else 0 := by
    rw [← ht]
    exact count_of_refs (.refl _)
  have hpos : ∀ y, y ≠ x → 0 < t.count y → 0 < s.count y := by
    intro y hy hc
    rwa [hcount, if_neg (Ne.symm hy)] at hc
  have hrefs : ∀ {z}, z ∈ s.refs → z ∈ t.refs := by
    intro z hz
    rw [← ht]
    exact List.mem_cons_of_mem _ hz
  have htable : Table t := by
    refine ⟨fun y => ?_, fun y hc => ?_, fun y z hy hz hk => ?_⟩
    · rw [hcount]
      by_cases hy : y = x
      · rw [hy, hself, hx, if_pos rfl]
        rfl
      · rw [hother y hy, if_neg (Ne.symm hy)]
        exact h.refs y
    · by_cases hy : y = x
      · rw [hy, hself]
        exact Option.some_ne_none i
      · rw [hother y hy]
        exact h.keyed y (hpos y hy hc)
    · by_cases hyx : y = x
      · by_cases hzx : z = x
        · rw [hyx, hzx]
        · rw [hyx, hself, hother z hzx] at hk
          exact absurd hk.symm (hnew z (hpos z hzx hz))
      · by_cases hzx : z = x
        · rw [hzx, hself, hother y hyx] at hk
          exact absurd hk (hnew y (hpos y hyx hy))
        · rw [hother y hyx, hother z hzx] at hk
          exact h.unique y z (hpos y hyx hy) (hpos z hzx hz) hk
  have hidle : t.phase = update s.phase p .idle := by rw [← ht]
  refine h.change htable hentry hidle ?_ hpos (fun _ _ _ => hrefs) (fun _ _ _ _ _ => ?_)
    (fun y _ => away_outside hphase y) (fun y _ => away_idle y) (fun q _ => ?_) (between_away (hfree p) (away_idle x))
    nofun
  · rw [← ht]
    rfl
  · rw [← ht]
    rfl
  · exact (h.between q x).unheld (hfree q) (hfree q) hrefs

end Counted

section Allocated

variable {d : I → Node} {n : Node}

theorem ne_of_type {j : I} (hj : (d j).type ≠ 0) (hi : (d i).type = 0) : j ≠ i := by
  rintro rfl
  exact hj hi

variable [DecidableEq I]

/-- Nobody relies on a dinode that is free, except who is about to forget it. -/
theorem between_alloc {has : Prop} {ph : Phase I} {e : Entry P I} (h : Between has d q ph y e) (hfree : (d i).type = 0) :
    Between has (update d i n) q ph y e := by
  refine { h with typed := fun hl hp hv j hj => ?_, doomed := fun hp => ?_ }
  · have htype := h.typed hl hp hv j hj
    rwa [update_of_ne (ne_of_type htype.2 hfree)]
  · obtain ⟨hv, hlink, hdisk⟩ := h.doomed hp
    refine ⟨hv, hlink, fun j hj => ?_⟩
    have hl : e.locked = some q := hp.elim (fun hp => h.freeing _ hp (by simp)) fun hp => h.freeing _ hp (by simp)
    have htype := h.typed hl (by rcases hp with rfl | rfl <;> simp) hv j hj
    rw [update_of_ne (ne_of_type htype.2 hfree)]
    exact hdisk j hj

theorem inv_ialloc [DecidableEq P] (h : Inv s) (hidle : s.phase p = .idle) (hfree : (s.disk i).type = 0) (n : Node) :
    Inv { s.setPhase p (.allocated i) with disk := update s.disk i n } where
  refs := h.refs
  keyed := h.keyed
  unique := h.unique
  between q y := by
    refine between_alloc ?_ hfree
    by_cases hq : q = p
    · subst hq
      have haway := away_outside (i := i) (.inl hidle) y
      have hself := (h.between q y).away haway (away_outside (i := i) (.inr rfl) y)
      rwa [← update_self q (.allocated i) s.phase] at hself
    · have hother := h.between q y
      rwa [← update_of_ne hq (.allocated i) s.phase] at hother
  settled y hc hv hl j hj := by
    have hold := h.settled y hc hv hl j hj
    simp only [update_of_ne (ne_of_type hold.2 hfree)]
    exact hold
  awake := h.awake

end Allocated

end AdaptiveXv6.InodeCacheRefs
