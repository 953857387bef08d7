import AdaptiveXv6.InodeCacheRefs

namespace AdaptiveXv6.InodeCacheRuns

open InodeCache InodeCacheSteps InodeCacheRefs Function

variable {P I : Type} {s t : State P I} {p q : P} {x y : Fin NINODE} {i : I} {stage : Stage}

theorem inv_fault (h : Inv s) {f : Option Fault} (hf : f ≠ some .sleepsInIput) : Inv { s with fault := f } :=
  ⟨⟨h.refs, h.keyed, h.unique⟩, h.between, h.settled, hf⟩

section Phases

theorem away_loading (hy : y ≠ x) : Away (.loading x : Phase I) y :=
  ⟨fun h => hy (Phase.loading.inj h).symm, nofun⟩

theorem away_freeing (hy : y ≠ x) : Away (.freeing x stage : Phase I) y :=
  ⟨nofun, fun _ h => hy (Phase.freeing.inj h).1.symm⟩

theorem between_idle {has : Prop} {d : I → Node} {e : Entry P I} (hhas : has) (hv : e.valid = true)
    (htyped : ∀ i, e.key = some i → e.node.type ≠ 0 ∧ (d i).type ≠ 0) : Between has d p .idle x e where
  holder _ := hhas
  loading := nofun
  freeing := nofun
  dropping := nofun
  loaded _ := .inr (.inr hv)
  typed _ _ _ := htyped
  doomed := by rintro (hc | hc) <;> cases hc
  cleared := nofun

theorem typed_of_unlocked (h : Inv s) (hc : 0 < s.count x) (hl : (s.entry x).locked = none)
    (hv : (s.entry x).valid = true) (hi : (s.entry x).key = some i) :
    (s.entry x).node.type ≠ 0 ∧ (s.disk i).type ≠ 0 := by
  obtain ⟨hnode, htype⟩ := h.settled x hc hv hl i hi
  rw [hnode]
  exact ⟨htype, htype⟩

theorem valid_of_holds (h : Inv s) (hp : s.Holds p x) : (s.entry x).valid = true := by
  have hloaded := (h.between p x).loaded hp.1
  rw [hp.2] at hloaded
  exact (hloaded.resolve_left nofun).resolve_left nofun

theorem key_of_lock (h : Inv s) (hl : (s.entry x).locked = some p) : ∃ i, (s.entry x).key = some i :=
  Option.ne_none_iff_exists'.mp (h.keyed x (count_pos ((h.between p x).holder hl)))

end Phases

section Dinodes

variable [DecidableEq I]

theorem write_eq (hk : (s.entry x).key = some i) (n : Node) : s.write x n =
    { s with
      entry := update s.entry x { s.entry x with node := n }
      disk := update s.disk i n } := by
  simp only [State.write, hk]
  rfl

theorem disk_other (hk : (s.entry x).key = some i) (n : Node) (j : I) (hj : (s.entry x).key ≠ some j) :
    update s.disk i n j = s.disk j :=
  update_of_ne (fun hji => hj (by rw [hk, hji])) ..

theorem disk_key {n : Node} (hk : (s.entry x).key = some i) {j : I} (hj : (s.entry x).key = some j) :
    update s.disk i n j = n := by
  obtain rfl : i = j := Option.some.inj (hk.symm.trans hj)
  exact update_self ..

end Dinodes

variable [DecidableEq P]

theorem inv_idle (h : Inv s) (hphase : s.phase p = .idle ∨ s.phase p = .allocated i) : Inv (s.setPhase p .idle) := by
  refine ⟨⟨h.refs, h.keyed, h.unique⟩, fun q y => ?_, h.settled, h.awake⟩
  simp only [State.setPhase]
  by_cases hq : q = p
  · subst hq
    rw [update_self]
    exact (h.between q y).away (away_outside hphase y) (away_idle y)
  · rw [update_of_ne hq]
    exact h.between q y

theorem inv_ilock (h : Inv s) (hp : s.Has p x) (hl : (s.entry x).locked = none) :
    Inv ((s.setEntry x { s.entry x with locked := some p }).setPhase p (.loading x)) := by
  obtain ⟨hmem, hidle, -⟩ := hp
  refine touch (e := { s.entry x with locked := some p }) (d := s.disk) h hmem rfl rfl (.inl hl) (.inr rfl)
    (fun _ _ => rfl) (fun y _ => hidle ▸ away_idle y) (fun y => away_loading) ?_ (settled_of_locked rfl)
  exact {
    holder := fun _ => hmem
    loading := fun _ => rfl
    freeing := nofun
    dropping := nofun
    loaded := fun _ => .inl rfl
    typed := fun _ _ hv _ hi => typed_of_unlocked h (count_pos hmem) hl hv hi
    doomed := by rintro (hc | hc) <;> cases hc
    cleared := nofun }

theorem inv_load (h : Inv s) (hp : s.phase p = .loading x) : Inv (s.load p x) := by
  have hl := (h.between p x).loading hp
  have hmem := (h.between p x).holder hl
  obtain ⟨i, hk⟩ := key_of_lock h hl
  -- either way the entry is now valid, with a node that is in use
  have hdone : ∀ e : Entry P I, e.key = (s.entry x).key → e.ref = (s.entry x).ref → e.locked = some p →
      e.valid = true → (∀ i, e.key = some i → e.node.type ≠ 0 ∧ (s.disk i).type ≠ 0) →
        Inv (touched s x e s.disk p .idle) := fun e hkey href hlock hv ht =>
    touch h hmem hkey href (.inr hl) (.inr hlock) (fun _ _ => rfl) (fun y hy => hp ▸ away_loading hy)
      (fun y _ => away_idle y) (between_idle hmem hv ht) (settled_of_locked hlock)
  rw [State.load]
  by_cases hv : (s.entry x).valid = true
  · rw [if_pos hv]
    have ht := hdone (s.entry x) rfl rfl hl hv ((h.between p x).typed hl (by rw [hp]; rintro ⟨⟩) hv)
    rwa [touched, update_eq_self] at ht
  · rw [if_neg hv, hk]
    dsimp only
    by_cases htype : (s.disk i).type = 0
    · rw [if_pos htype]
      exact inv_fault h (by simp)
    · rw [if_neg htype]
      refine hdone { s.entry x with node := s.disk i, valid := true } rfl rfl hl rfl fun j hj => ?_
      obtain rfl : i = j := Option.some.inj (hk.symm.trans hj)
      exact ⟨htype, htype⟩

theorem inv_holds (h : Inv s) (hp : s.Holds p x) {e : Entry P I} {d : I → Node} (hk : e.key = (s.entry x).key)
    (hr : e.ref = (s.entry x).ref) (hv : e.valid = (s.entry x).valid) (hl : e.locked = none ∨ e.locked = some p)
    (hd : ∀ i, (s.entry x).key ≠ some i → d i = s.disk i)
    (hsync : ∀ i, e.locked = none → e.key = some i → e.node = d i)
    (ht : ∀ i, (s.entry x).key = some i → (s.entry x).node.type ≠ 0 → (s.disk i).type ≠ 0 →
      e.node.type ≠ 0 ∧ (d i).type ≠ 0) : Inv { s with entry := update s.entry x e, disk := d } := by
  obtain ⟨hlock, hidle⟩ := id hp
  have hmem := (h.between p x).holder hlock
  have hvalid := valid_of_holds h hp
  have htyped : ∀ i, e.key = some i → e.node.type ≠ 0 ∧ (d i).type ≠ 0 := by
    intro i hi
    rw [hk] at hi
    obtain ⟨h₁, h₂⟩ := (h.between p x).typed hlock (by rw [hidle]; rintro ⟨⟩) hvalid i hi
    exact ht i hi h₁ h₂
  have htouch : Inv (touched s x e d p .idle) :=
    touch h hmem hk hr (.inr hlock) hl hd (fun y _ => hidle ▸ away_idle y) (fun y _ => away_idle y)
      (between_idle hmem (hv.trans hvalid) htyped) fun _ hn i hi => ⟨hsync i hn hi, (htyped i hi).2⟩
  rwa [touched, show update s.phase p (.idle : Phase I) = s.phase by rw [← hidle, update_eq_self]] at htouch

theorem inv_iunlock (h : Inv s) (hp : s.Holds p x) (hsync : s.synced x) :
    Inv (s.setEntry x { s.entry x with locked := none }) :=
  inv_holds (e := { s.entry x with locked := none }) h hp rfl rfl rfl (.inl rfl) (fun _ _ => rfl)
    (fun i _ hi => hsync i hi) fun _ _ h₁ h₂ => ⟨h₁, h₂⟩

theorem two_le_count (hp : (p, x) ∈ s.refs) (hq : (q, x) ∈ s.refs) (hne : q ≠ p) : 2 ≤ s.count x := by
  have hmem : (q, x) ∈ s.refs.erase (p, x) := by
    refine (List.mem_erase_of_ne ?_).mpr hq
    rintro ⟨⟩
    exact hne rfl
  have hpos : 0 < ({ s with refs := s.refs.erase (p, x) } : State P I).count x := count_pos hmem
  rw [count_of_refs (s := { s with refs := s.refs.erase (p, x) }) (List.perm_cons_erase hp), if_pos rfl]
  omega

theorem counted_idle (hidle : s.phase p = .idle) (r : Int) (refs : List (P × Fin NINODE)) :
    counted s x r refs p = { s.setEntry x { s.entry x with ref := r } with refs := refs } := by
  rw [counted, show update s.phase p (.idle : Phase I) = s.phase by rw [← hidle, update_eq_self]]
  rfl

theorem inv_iput (h : Inv s) (hfits : Fits s) (hp : s.Has p x) : Inv (s.iput p x) := by
  obtain ⟨hmem, hidle, hnot⟩ := hp
  have hc := count_pos hmem
  have haway : ∀ y, y ≠ x → Away (s.phase p) y := fun y _ => hidle ▸ away_idle y
  rw [State.iput]
  split_ifs with hlast
  · obtain ⟨href, hv, hlink⟩ := hlast
    cases hl : (s.entry x).locked with
    | none =>
      refine touch (e := { s.entry x with locked := some p }) (d := s.disk) h hmem rfl rfl (.inl hl) (.inr rfl)
        (fun _ _ => rfl) haway (fun y => away_freeing) ?_ (settled_of_locked rfl)
      exact {
        holder := fun _ => hmem
        loading := nofun
        freeing := fun _ _ _ => rfl
        dropping := nofun
        loaded := fun _ => .inr (.inr hv)
        typed := fun _ _ _ _ hi => typed_of_unlocked h hc hl hv hi
        doomed := fun _ => ⟨hv, hlink, fun i hi => (h.settled x hc hv hl i hi).1 ▸ hlink⟩
        cleared := nofun }
    | some q =>
      -- the holder would be a second process with a reference
      have hqp : q ≠ p := fun heq => hnot (heq ▸ hl)
      have htwo := two_le_count hmem ((h.between q x).holder hl) hqp
      rw [h.refs x] at href
      omega
  · have hunref := inv_unref h hfits hmem hnot haway
    rwa [counted_idle hidle] at hunref

variable [DecidableEq I]

theorem inv_iget (h : Inv s) (hphase : s.phase p = .idle ∨ s.phase p = .allocated i)
    (hfits : Fits ((s.iget p i).setPhase p .idle)) : Inv ((s.iget p i).setPhase p .idle) := by
  unfold State.iget at hfits ⊢
  cases hfound : s.found i with
  | some x =>
    simp only [hfound] at hfits ⊢
    have hx := List.find?_some hfound
    rw [Bool.and_eq_true, decide_eq_true_eq, h.refs x] at hx
    exact inv_more h (away_outside hphase) (by omega) hfits
  | none =>
    simp only
    cases hempty : s.empty with
    | some x =>
      have hx := List.find?_some hempty
      rw [beq_iff_eq, h.refs x] at hx
      refine inv_recycle h hphase (by omega) fun y hy hk => ?_
      have hno := List.find?_eq_none.mp hfound y (List.mem_finRange y)
      refine hno ?_
      rw [hk, h.refs y, Bool.and_eq_true, decide_eq_true_eq]
      exact ⟨by omega, beq_self_eq_true _⟩
    | none => exact inv_idle (inv_fault h (by simp)) hphase

theorem inv_write (h : Inv s) (hp : s.Holds p x) {n : Node} (hn : (s.entry x).node.type ≠ 0 → n.type ≠ 0) :
    Inv (s.write x n) := by
  obtain ⟨i, hk⟩ := key_of_lock h hp.1
  rw [write_eq hk]
  refine inv_holds (e := { s.entry x with node := n }) h hp rfl rfl rfl (.inr hp.1) (disk_other hk n) ?_ ?_
  · intro j hl
    rw [show (s.entry x).locked = some p from hp.1] at hl
    cases hl
  · intro j hj ht _
    rw [disk_key hk hj]
    exact ⟨hn ht, hn ht⟩

theorem inv_free (h : Inv s) (hfits : Fits s) (hp : s.phase p = .freeing x stage) : Inv (s.free p x stage) := by
  have hold := h.between p x
  have haway : ∀ y, y ≠ x → Away (s.phase p) y := fun y hy => hp ▸ away_freeing hy
  -- a step between two stages under the lock
  have hnext : ∀ (e : Entry P I) (d : I → Node) (next : Stage), stage ≠ .drop → e.key = (s.entry x).key →
      e.ref = (s.entry x).ref → (e.locked = none ∨ e.locked = some p) →
      (∀ i, (s.entry x).key ≠ some i → d i = s.disk i) →
      Between ((p, x) ∈ s.refs) d p (.freeing x next) x e → Settled d e →
        Inv (touched s x e d p (.freeing x next)) := fun e d next hs hkey href hlock hd hself hsettled =>
    have hl := hold.freeing stage hp hs
    touch h (hold.holder hl) hkey href (.inr hl) hlock hd haway (fun y => away_freeing) hself hsettled
  cases stage with
  | trunc =>
    have hl := hold.freeing _ hp (by simp)
    obtain ⟨i, hk⟩ := key_of_lock h hl
    obtain ⟨hv, hlink, -⟩ := hold.doomed (.inl hp)
    have htype := (hold.typed hl (by rw [hp]; simp) hv i hk).1
    rw [State.free, write_eq hk]
    refine hnext { s.entry x with node := { (s.entry x).node with body := [] } }
      (update s.disk i { (s.entry x).node with body := [] }) .wipe (by simp) rfl rfl (.inr hl) (disk_other hk _) ?_
      (settled_of_locked hl)
    exact {
      holder := hold.holder
      loading := nofun
      freeing := fun _ _ _ => hl
      dropping := nofun
      loaded := fun _ => .inr (.inr hv)
      typed := fun _ _ _ j hj => by rw [disk_key hk hj]; exact ⟨htype, htype⟩
      doomed := fun _ => ⟨hv, hlink, fun j hj => by rw [disk_key hk hj]; exact hlink⟩
      cleared := nofun }
  | wipe =>
    have hl := hold.freeing _ hp (by simp)
    obtain ⟨i, hk⟩ := key_of_lock h hl
    obtain ⟨hv, -⟩ := hold.doomed (.inr hp)
    rw [State.free, write_eq hk]
    refine hnext { s.entry x with node := { (s.entry x).node with type := 0 } }
      (update s.disk i { (s.entry x).node with type := 0 }) .invalidate (by simp) rfl rfl (.inr hl) (disk_other hk _)
      ?_ (settled_of_locked hl)
    exact {
      holder := hold.holder
      loading := nofun
      freeing := fun _ _ _ => hl
      dropping := nofun
      loaded := fun _ => .inr (.inr hv)
      typed := fun _ hne => absurd rfl hne
      doomed := by rintro (hc | hc) <;> cases hc
      cleared := nofun }
  | invalidate =>
    have hl := hold.freeing _ hp (by simp)
    refine hnext { s.entry x with valid := false } s.disk .unlock (by simp) rfl rfl (.inr hl) (fun _ _ => rfl) ?_
      (settled_of_locked hl)
    exact {
      holder := hold.holder
      loading := nofun
      freeing := fun _ _ _ => hl
      dropping := nofun
      loaded := fun _ => .inr (.inl rfl)
      typed := nofun
      doomed := by rintro (hc | hc) <;> cases hc
      cleared := fun _ => rfl }
  | unlock =>
    have hmem := hold.holder (hold.freeing _ hp (by simp))
    refine hnext { s.entry x with locked := none } s.disk .drop (by simp) rfl rfl (.inl rfl) (fun _ _ => rfl) ?_
      fun hv => absurd (hold.cleared hp) (Bool.not_eq_false _ ▸ hv)
    exact {
      holder := nofun
      loading := nofun
      freeing := by rintro _ ⟨⟩ hs; exact absurd rfl hs
      dropping := fun _ => ⟨hmem, nofun⟩
      loaded := nofun
      typed := nofun
      doomed := by rintro (hc | hc) <;> cases hc
      cleared := nofun }
  | drop =>
    obtain ⟨hmem, hnot⟩ := hold.dropping hp
    exact inv_unref h hfits hmem hnot haway

theorem inv_step {e : Event P I} (h : Inv s) (hs : Fits s) (ht : Fits t) (hstep : s.step e = some t) : Inv t := by
  cases step_cases hstep with
  | iget hp => exact inv_iget h hp ht
  | @idup p x hmem hp =>
    rw [← counted_idle hp] at ht ⊢
    exact inv_more h (fun y => hp ▸ away_idle y) (count_pos hmem) ht
  | ilock hp hl => exact inv_ilock h hp hl
  | load hp => exact inv_load h hp
  | @modify p x n hp hn =>
    refine inv_holds (e := { s.entry x with node := n }) h hp rfl rfl rfl (.inr hp.1) (fun _ _ => rfl) ?_
      fun _ _ _ hd => ⟨hn, hd⟩
    intro i hl
    rw [show (s.entry x).locked = some p from hp.1] at hl
    cases hl
  | iupdate hp => exact inv_write h hp id
  | itrunc hp => exact inv_write h hp id
  | iunlock hp hsync => exact inv_iunlock h hp hsync
  | iput hp => exact inv_iput h hs hp
  | free hp => exact inv_free h hs hp
  | ialloc hp hfree => exact inv_ialloc h hp hfree _

end AdaptiveXv6.InodeCacheRuns
