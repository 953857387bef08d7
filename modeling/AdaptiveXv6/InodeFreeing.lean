import AdaptiveXv6.InodeCacheRuns

namespace AdaptiveXv6.InodeFreeing

open Runs InodeCache InodeCacheSteps InodeCacheRefs InodeCacheRuns Function

variable {P I : Type} {s t : State P I} {p q : P} {x y : Fin NINODE} {i : I}

/-- iput() has decided to free the inode and has not yet written type 0 to its dinode. -/
def Window (s : State P I) (q : P) (x : Fin NINODE) : Prop :=
  s.phase q = .freeing x .trunc ∨ s.phase q = .freeing x .wipe

theorem window_refs (h : Inv s) (hw : Window s q x) : (q, x) ∈ s.refs := by
  refine (h.between q x).holder ?_
  rcases hw with hw | hw
  · exact (h.between q x).freeing _ hw (by simp)
  · exact (h.between q x).freeing _ hw (by simp)

theorem window_of_phase (hphase : t.phase q = s.phase q) (hw : Window t q x) : Window s q x := by
  unfold Window at hw ⊢
  rwa [hphase] at hw

theorem window_idle (hidle : s.phase p = .idle) (hw : Window s q y) : q ≠ p := by
  rintro rfl
  unfold Window at hw
  rw [hidle] at hw
  rcases hw with hw | hw
  · cases hw
  · cases hw

theorem key_update {f : Fin NINODE → Entry P I} {e : Entry P I} (he : e.key = (f x).key) (y : Fin NINODE) :
    (update f x e y).key = (f y).key := by
  by_cases hyx : y = x
  · subst hyx
    rw [update_self, he]
  · rw [update_of_ne hyx]

theorem count_other (h : t.refs.Perm ((p, x) :: s.refs)) (hxy : x ≠ y) : t.count y = s.count y := by
  rw [count_of_refs h, if_neg hxy, Nat.add_zero]

section Dinodes

variable [DecidableEq I]

theorem write_phase (s : State P I) (x : Fin NINODE) (n : Node) :
    (s.write x n).phase = s.phase ∧ (s.write x n).refs = s.refs ∧ (s.write x n).fault = s.fault := by
  unfold State.write
  split
  · exact ⟨rfl, rfl, rfl⟩
  · exact ⟨rfl, rfl, rfl⟩

theorem iget_phase (s : State P I) (p : P) (i : I) : (s.iget p i).phase = s.phase ∧ (s.iget p i).disk = s.disk := by
  unfold State.iget
  split
  · exact ⟨rfl, rfl⟩
  · split
    · exact ⟨rfl, rfl⟩
    · exact ⟨rfl, rfl⟩

theorem key_write (s : State P I) (x y : Fin NINODE) (n : Node) :
    ((s.write x n).entry y).key = (s.entry y).key := by
  unfold State.write
  split
  · exact key_update (f := s.entry) (by rfl) y
  · exact key_update (f := s.entry) (by rfl) y

theorem key_iget (h : Inv s) (p : P) (i : I) (hy : 0 < s.count y) : ((s.iget p i).entry y).key = (s.entry y).key := by
  unfold State.iget
  split
  · exact key_update (f := s.entry) (by rfl) y
  · split
    · rename_i x hempty
      have hx := List.find?_some hempty
      rw [beq_iff_eq, h.refs x] at hx
      refine congrArg Entry.key (update_of_ne ?_ ..)
      rintro rfl
      omega
    · rfl

theorem type_write {n : Node} (h : Inv s) (hl : (s.entry x).locked = some p)
    (hp : s.phase p ≠ .freeing x .invalidate) (hv : (s.entry x).valid = true)
    (hn : n.type = (s.entry x).node.type) (hi : (s.disk i).type ≠ 0) : ((s.write x n).disk i).type ≠ 0 := by
  obtain ⟨j, hk⟩ := key_of_lock h hl
  rw [write_eq hk]
  show (update s.disk j n i).type ≠ 0
  by_cases hij : i = j
  · subst hij
    rw [update_self, hn]
    exact ((h.between p x).typed hl hp hv i hk).1
  · rw [update_of_ne hij]
    exact hi

end Dinodes

variable [DecidableEq P]

theorem window_of_update {a : Phase I} (hphase : t.phase = update s.phase p a)
    (hne : ∀ y, a ≠ .freeing y .trunc ∧ a ≠ .freeing y .wipe) (hw : Window t q x) : Window s q x ∧ q ≠ p := by
  have hqp : q ≠ p := by
    rintro rfl
    unfold Window at hw
    rw [hphase, update_self] at hw
    rcases hw with hw | hw
    · exact (hne x).1 hw
    · exact (hne x).2 hw
  refine ⟨window_of_phase ?_ hw, hqp⟩
  rw [hphase, update_of_ne hqp]

theorem load_phase (s : State P I) (p : P) (x : Fin NINODE) : (s.load p x).refs = s.refs ∧ (s.load p x).disk = s.disk ∧
    ∀ q y, Window (s.load p x) q y → Window s q y := by
  unfold State.load
  split
  · exact ⟨rfl, rfl, fun q y hw => (window_of_update rfl (by simp) hw).1⟩
  · split
    · exact ⟨rfl, rfl, fun q y hw => (window_of_update rfl (by simp) hw).1⟩
    · split
      · exact ⟨rfl, rfl, fun q y hw => hw⟩
      · exact ⟨rfl, rfl, fun q y hw => (window_of_update rfl (by simp) hw).1⟩

theorem iput_cases (s : State P I) (p : P) (x : Fin NINODE) :
    (s.entry x).ref = 1 ∧ (s.entry x).node.nlink = 0 ∧ (s.iput p x).refs = s.refs ∧ (s.iput p x).disk = s.disk ∧
        (∀ q, q ≠ p → (s.iput p x).phase q = s.phase q) ∧
        ((s.iput p x).phase p = .freeing x .trunc ∨ (s.iput p x).phase p = s.phase p) ∨
      s.iput p x = s.unref p x := by
  unfold State.iput
  split_ifs with hlast
  · left
    cases hl : (s.entry x).locked with
    | none =>
      exact ⟨hlast.1, hlast.2.2, rfl, rfl, fun q hq => update_of_ne hq .., .inl (update_self ..)⟩
    | some q => exact ⟨hlast.1, hlast.2.2, rfl, rfl, fun _ _ => rfl, .inr rfl⟩
  · exact .inr rfl

theorem other_entry (h : Inv s) (hw : Window s q y) (hone : s.count y = 1) (hp : (p, x) ∈ s.refs) (hne : q ≠ p) :
    x ≠ y := by
  rintro rfl
  have htwo := two_le_count hp (window_refs h hw) hne
  omega

variable [DecidableEq I]

theorem window_step {e : Event P I} (h : Inv s) (hstep : s.step e = some t) (hw : Window t q y) :
    Window s q y ∨ e = .iput q y ∧ s.count y = 1 ∧ t.count y = 1 ∧ (s.entry y).node.nlink = 0 := by
  cases step_cases hstep with
  | @iget p i =>
    refine .inl (window_of_update (p := p) (a := .idle) ?_ (by simp) hw).1
    rw [← (iget_phase s p i).1]
    rfl
  | idup | modify | iunlock => exact .inl hw
  | ilock | ialloc => exact .inl (window_of_update rfl (by simp) hw).1
  | load => exact .inl ((load_phase s _ _).2.2 q y hw)
  | iupdate | itrunc => exact .inl (window_of_phase (congrFun (write_phase s _ _).1 q) hw)
  | @iput p x =>
    rcases iput_cases s p x with ⟨href, hlink, hrefs, -, hother, hself⟩ | heq
    · by_cases hqp : q = p
      · subst hqp
        rcases hself with hself | hself
        · unfold Window at hw
          rw [hself] at hw
          have hxy : x = y := by
            rcases hw with hw | hw
            · cases hw
              rfl
            · cases hw
          subst hxy
          rw [h.refs x] at href
          have hcount : (s.iput q x).count x = s.count x := by
            unfold State.count
            rw [hrefs]
          exact .inr ⟨rfl, by omega, by omega, hlink⟩
        · exact .inl (window_of_phase hself hw)
      · exact .inl (window_of_phase (hother q hqp) hw)
    · rw [heq] at hw
      exact .inl hw
  | @free p x stage hp =>
    left
    cases stage with
    | trunc =>
      by_cases hqp : q = p
      · subst hqp
        unfold Window at hw
        rw [show (s.free q x .trunc).phase q = .freeing x .wipe from update_self ..] at hw
        rcases hw with hw | hw
        · cases hw
        · cases hw
          exact .inl hp
      · refine window_of_phase ?_ hw
        exact (update_of_ne hqp ..).trans (congrFun (write_phase s x _).1 q)
    | wipe =>
      refine (window_of_update (p := p) (a := .freeing x .invalidate) ?_ (by simp) hw).1
      rw [← (write_phase s x { (s.entry x).node with type := 0 }).1]
      rfl
    | invalidate => exact (window_of_update (p := p) (a := .freeing x .unlock) rfl (by simp) hw).1
    | unlock => exact (window_of_update (p := p) (a := .freeing x .drop) rfl (by simp) hw).1
    | drop => exact (window_of_update (p := p) (a := .idle) rfl (by simp) hw).1

theorem key_step {e : Event P I} (h : Inv s) (hstep : s.step e = some t) (hy : 0 < s.count y) :
    (t.entry y).key = (s.entry y).key := by
  cases step_cases hstep with
  | iget => exact key_iget h _ _ hy
  | idup | ilock | modify | iunlock => exact key_update (f := s.entry) (by rfl) y
  | load =>
    unfold State.load
    split
    · rfl
    · split
      · rfl
      · split
        · rfl
        · exact key_update (f := s.entry) (by rfl) y
  | iupdate | itrunc => exact key_write s _ y _
  | iput =>
    unfold State.iput
    split
    · split
      · exact key_update (f := s.entry) (by rfl) y
      · rfl
    · exact key_update (f := s.entry) (by rfl) y
  | @free p x stage hp =>
    cases stage with
    | trunc | wipe => exact key_write s x y _
    | invalidate | unlock | drop => exact key_update (f := s.entry) (by rfl) y
  | ialloc => rfl

theorem count_step {e : Event P I} (h : Inv s) (hstep : s.step e = some t) (hw : Window s q y)
    (hkey : (s.entry y).key = some i) (he : ∀ p, e ≠ .iget p i) (hone : s.count y = 1) : t.count y = 1 := by
  rw [← hone]
  cases step_cases hstep with
  | @iget p j =>
    unfold State.iget
    cases hfound : s.found j with
    | some x =>
      have hx := List.find?_some hfound
      rw [Bool.and_eq_true, beq_iff_eq] at hx
      refine count_other (.refl _) ?_
      rintro rfl
      rw [hkey] at hx
      cases hx.2
      exact he p rfl
    | none =>
      cases hempty : s.empty with
      | some x =>
        have hx := List.find?_some hempty
        rw [beq_iff_eq, h.refs x] at hx
        refine count_other (.refl _) ?_
        rintro rfl
        omega
      | none => rfl
  | idup hmem hp => exact count_other (.refl _) (other_entry h hw hone hmem (window_idle hp hw))
  | ilock | modify | iunlock | ialloc => rfl
  | load =>
    unfold State.count
    rw [(load_phase s _ _).1]
  | iupdate | itrunc =>
    unfold State.count
    rw [(write_phase s _ _).2.1]
  | @iput p x hp =>
    obtain ⟨hmem, hidle, -⟩ := hp
    rcases iput_cases s p x with ⟨-, -, hrefs, -⟩ | heq
    · unfold State.count
      rw [hrefs]
    · rw [heq]
      exact (count_other (List.perm_cons_erase hmem) (other_entry h hw hone hmem (window_idle hidle hw))).symm
  | @free p x stage hp =>
    cases stage with
    | trunc => exact congrArg (fun l => (l.map Prod.snd).count y) (write_phase s x _).2.1
    | wipe => exact congrArg (fun l => (l.map Prod.snd).count y) (write_phase s x _).2.1
    | invalidate => rfl
    | unlock => rfl
    | drop =>
      have hqp : q ≠ p := by
        rintro rfl
        unfold Window at hw
        rw [hp] at hw
        rcases hw with hw | hw
        · cases hw
        · cases hw
      have hmem := ((h.between p x).dropping hp).1
      exact (count_other (List.perm_cons_erase hmem) (other_entry h hw hone hmem hqp)).symm

theorem freed_step {e : Event P I} (h : Inv s) (hstep : s.step e = some t) (hi : (s.disk i).type ≠ 0)
    (hi' : (t.disk i).type = 0) :
    ∃ p x, e = .free p ∧ s.phase p = .freeing x .wipe ∧ (s.entry x).key = some i := by
  cases step_cases hstep with
  | @iget p j =>
    have hd : ((s.iget p j).setPhase p .idle).disk = s.disk := (iget_phase s p j).2
    rw [hd] at hi'
    exact absurd hi' hi
  | idup | ilock | modify | iunlock => exact absurd hi' hi
  | load =>
    rw [(load_phase s _ _).2.1] at hi'
    exact absurd hi' hi
  | iupdate hp | itrunc hp =>
    exact absurd hi' (type_write h hp.1 (by rw [hp.2]; simp) (valid_of_holds h hp) rfl hi)
  | @iput p x =>
    rcases iput_cases s p x with ⟨-, -, -, hdisk, -⟩ | heq
    · rw [hdisk] at hi'
      exact absurd hi' hi
    · rw [heq] at hi'
      exact absurd hi' hi
  | @free p x stage hp =>
    cases stage with
    | trunc =>
      have hl := (h.between p x).freeing _ hp (by simp)
      obtain ⟨hv, -⟩ := (h.between p x).doomed (.inl hp)
      exact absurd hi' (type_write h hl (by rw [hp]; simp) hv rfl hi)
    | wipe =>
      refine ⟨p, x, rfl, hp, ?_⟩
      obtain ⟨j, hk⟩ := key_of_lock h ((h.between p x).freeing _ hp (by simp))
      by_contra hij
      have hdisk : (s.free p x .wipe).disk i = s.disk i := by
        rw [State.free, write_eq hk]
        exact disk_other hk _ i hij
      rw [hdisk] at hi'
      exact hi hi'
    | invalidate => exact absurd hi' hi
    | unlock => exact absurd hi' hi
    | drop => exact absurd hi' hi
  | @ialloc p j type hp hfree htype =>
    by_cases hij : i = j
    · subst hij
      simp only [update_self] at hi'
      exact absurd hi' htype
    · simp only [update_of_ne hij] at hi'
      exact absurd hi' hi

section runs

variable {disk : I → Node} (r : Run State.step (State.init disk : State P I))

theorem inv_run (hfits : ∀ k, Fits (r.state k)) (k : Nat) : Inv (r.state k) := by
  induction k with
  | zero =>
    rw [r.start]
    exact inv_init disk
  | succ k ih =>
    cases he : r.event k with
    | none =>
      rw [r.state_of_no_event he]
      exact ih
    | some e => exact inv_step ih (hfits k) (hfits (k + 1)) (r.step_of_event he)

theorem window_opened (hfits : ∀ k, Fits (r.state k)) {k : Nat} (hw : Window (r.state k) q x) : ∃ j < k,
    r.event j = some (.iput q x) ∧ (r.state j).count x = 1 ∧ ((r.state j).entry x).node.nlink = 0 ∧
      ∀ i, ((r.state k).entry x).key = some i →
        (∀ l, j ≤ l → l < k → ∀ p, r.event l ≠ some (.iget p i)) → (r.state k).count x = 1 := by
  induction k with
  | zero =>
    rw [r.start] at hw
    rcases hw with hw | hw
    · cases hw
    · cases hw
  | succ k ih =>
    have hinv := inv_run r hfits k
    cases he : r.event k with
    | none =>
      have hsame := r.state_of_no_event he
      rw [hsame] at hw ⊢
      obtain ⟨j, hj, hput, hone, hlink, hlast⟩ := ih hw
      exact ⟨j, by omega, hput, hone, hlink, fun i hk ha => hlast i hk fun l hjl hlk => ha l hjl (by omega)⟩
    | some e =>
      have hstep := r.step_of_event he
      rcases window_step hinv hstep hw with hwk | ⟨rfl, hone, hone', hlink⟩
      · obtain ⟨j, hj, hput, hone, hlink, hlast⟩ := ih hwk
        refine ⟨j, by omega, hput, hone, hlink, fun i hkey ha => ?_⟩
        rw [key_step hinv hstep (count_pos (window_refs hinv hwk))] at hkey
        have hk := hlast i hkey fun l hjl hlk => ha l hjl (by omega)
        exact count_step hinv hstep hwk hkey (fun p hp => ha k (by omega) (by omega) p (hp ▸ he)) hk
      · exact ⟨k, by omega, he, hone, hlink, fun _ _ _ => hone'⟩

/-- One entry for each inode in use, with its references as the count and the fields of the dinode; iput()
never sleeps under itable.lock; a dinode is freed by an iput() that had the only reference to an inode without
links, and still has it if nobody looked the inode up since. -/
theorem inode_table (hfits : ∀ k, Fits (r.state k)) (k : Nat) :
    (∀ x, ((r.state k).entry x).ref = (r.state k).count x) ∧
      (∀ x, 0 < ((r.state k).entry x).ref → ((r.state k).entry x).key ≠ none) ∧
      (∀ x y, 0 < ((r.state k).entry x).ref → 0 < ((r.state k).entry y).ref →
        ((r.state k).entry x).key = ((r.state k).entry y).key → x = y) ∧
      (∀ x i, 0 < ((r.state k).entry x).ref → ((r.state k).entry x).valid = true →
        ((r.state k).entry x).locked = none → ((r.state k).entry x).key = some i →
          ((r.state k).entry x).node = (r.state k).disk i) ∧
      (r.state k).fault ≠ some .sleepsInIput ∧
      ∀ i, ((r.state k).disk i).type ≠ 0 → ((r.state (k + 1)).disk i).type = 0 → ∃ p x,
        r.event k = some (.free p) ∧ (r.state k).phase p = .freeing x .wipe ∧ ((r.state k).entry x).key = some i ∧
          ((r.state k).entry x).node.nlink = 0 ∧ ((r.state k).disk i).nlink = 0 ∧
          ∃ j < k, r.event j = some (.iput p x) ∧ (r.state j).count x = 1 ∧ ((r.state j).entry x).node.nlink = 0 ∧
            ((∀ l, j ≤ l → l < k → ∀ q, r.event l ≠ some (.iget q i)) → (r.state k).count x = 1) := by
  have hinv := inv_run r hfits k
  have hpos : ∀ x, 0 < ((r.state k).entry x).ref → 0 < (r.state k).count x := by
    intro x hx
    rw [hinv.refs x] at hx
    omega
  refine ⟨hinv.refs, fun x hx => hinv.keyed x (hpos x hx), ?_, ?_, hinv.awake, ?_⟩
  · exact fun x y hx hy hk => hinv.unique x y (hpos x hx) (hpos y hy) hk
  · exact fun x i hx hv hl hi => (hinv.settled x (hpos x hx) hv hl i hi).1
  · intro i hi hi'
    cases he : r.event k with
    | none =>
      rw [r.state_of_no_event he] at hi'
      exact absurd hi' hi
    | some e =>
      obtain ⟨p, x, rfl, hp, hk⟩ := freed_step hinv (r.step_of_event he) hi hi'
      obtain ⟨-, hlink, hdisk⟩ := (hinv.between p x).doomed (.inr hp)
      obtain ⟨j, hj, hput, hone, hlink', hlast⟩ := window_opened r hfits (.inr hp)
      exact ⟨p, x, rfl, hp, hk, hlink, hdisk i hk, j, hj, hput, hone, hlink', hlast i hk⟩

end runs

def unlinked (x : Fin NINODE) : List (Event Bool Unit) :=
  [.iget false (), .ilock false x, .load false, .modify false x ⟨2, 0, [7]⟩, .iupdate false x, .iunlock false x,
    .iput false x, .free false, .free false]

theorem inode_table_unlinked :
    ∃ (r : Run State.step (State.init fun _ => ⟨2, 1, [7]⟩ : State Bool Unit)), (∀ k, Fits (r.state k)) ∧
      ((r.state 8).disk ()).type ≠ 0 ∧ ((r.state 9).disk ()).type = 0 ∧ ((r.state 8).entry 0).ref = 1 ∧
        ∃ p x, r.event 8 = some (.free p) ∧ (r.state 8).phase p = .freeing x .wipe := by
  have hexec : (exec State.step (State.init fun _ => ⟨2, 1, [7]⟩ : State Bool Unit) (unlinked 0)).isSome = true := by
    decide +kernel
  obtain ⟨t, ht⟩ := Option.isSome_iff_exists.mp hexec
  obtain ⟨r, -, hev⟩ := exists_script ht
  have hone : ∀ k, (r.state k).refs.length ≤ 1 := by
    intro k
    have hsome : ∀ j < 10, ((exec State.step (State.init fun _ => ⟨2, 1, [7]⟩ : State Bool Unit)
        ((unlinked 0).take j)).all fun s => decide (s.refs.length ≤ 1)) = true := by
      decide +kernel
    have hall : ∀ j < 10, ∀ s, exec State.step (State.init fun _ => ⟨2, 1, [7]⟩ : State Bool Unit)
        ((unlinked 0).take j) = some s → s.refs.length ≤ 1 := by
      intro j hj s hs
      have hj := hsome j hj
      rw [hs] at hj
      exact of_decide_eq_true hj
    rcases Nat.lt_or_ge k 10 with hk | hk
    · exact hall k hk _ (state_script hev k)
    · refine hall 9 (by omega) _ ?_
      have hlast := state_script hev k
      rwa [List.take_of_length_le (by exact Nat.le_of_lt hk)] at hlast
  have hfits : ∀ k, Fits (r.state k) := by
    intro k x
    have hle : (r.state k).count x ≤ (r.state k).refs.length := by
      rw [← List.length_map Prod.snd]
      exact List.count_le_length
    have := hone k
    omega
  have hbefore : ((r.state 8).disk ()).type = 2 := script_eq hev (f := fun s => (s.disk ()).type) (by decide +kernel)
  have hafter : ((r.state 9).disk ()).type = 0 := script_eq hev (f := fun s => (s.disk ()).type) (by decide +kernel)
  have href : ((r.state 8).entry 0).ref = 1 := script_eq hev (f := fun s => (s.entry 0).ref) (by decide +kernel)
  obtain ⟨-, -, -, -, -, hfreed⟩ := inode_table r hfits 8
  obtain ⟨p, x, hevent, hphase, -⟩ := hfreed () (by rw [hbefore]; simp) hafter
  exact ⟨r, hfits, by rw [hbefore]; simp, hafter, href, p, x, hevent, hphase⟩

/-- The inode is looked up after iput() has decided to free it: the dinode is freed with two references. -/
theorem freed_while_referenced :
    ∃ (r : Run State.step (State.init fun _ => ⟨2, 1, [7]⟩ : State Bool Unit)) (k : Nat),
      ((r.state k).disk ()).type ≠ 0 ∧ ((r.state (k + 1)).disk ()).type = 0 ∧
        (r.state k).refs = [(true, 0), (false, 0)] ∧ ((r.state k).entry 0).ref = 2 := by
  have hexec : (exec State.step (State.init fun _ => ⟨2, 1, [7]⟩ : State Bool Unit)
      ((unlinked 0).take 7 ++ [.iget true (), .free false, .free false])).isSome = true := by
    decide +kernel
  obtain ⟨t, ht⟩ := Option.isSome_iff_exists.mp hexec
  obtain ⟨r, -, hev⟩ := exists_script ht
  have hbefore : ((r.state 9).disk ()).type = 2 := script_eq hev (f := fun s => (s.disk ()).type) (by decide +kernel)
  refine ⟨r, 9, by rw [hbefore]; simp, ?_, ?_, ?_⟩
  · exact script_eq hev (f := fun s => (s.disk ()).type) (by decide +kernel)
  · exact script_eq hev (f := fun s => s.refs) (by decide +kernel)
  · exact script_eq hev (f := fun s => (s.entry 0).ref) (by decide +kernel)

end AdaptiveXv6.InodeFreeing
