import AdaptiveXv6.DiskDriver

namespace AdaptiveXv6.DiskRequests

open Windows DiskDriver Function

variable {B : Type} {s t : State B} {b c : B} {i j k : Fin NUM} {la lu : List (Fin NUM)}

structure Linked (desc : Fin NUM → Desc B) (i j k : Fin NUM) : Prop where
  first : (desc i).more = true ∧ (desc i).next = j
  second : (desc j).more = true ∧ (desc j).next = k
  third : (desc k).more = false ∧ (desc k).addr = .status i
  distinct : i ≠ j ∧ i ≠ k ∧ j ≠ k

theorem Linked.congr {d d' : Fin NUM → Desc B} (h : Linked d i j k) (heq : ∀ x, x = i ∨ x = j ∨ x = k → d' x = d x) :
    Linked d' i j k := by
  obtain ⟨h₁, h₂, h₃, hdistinct⟩ := h
  rw [← heq i (.inl rfl)] at h₁
  rw [← heq j (.inr (.inl rfl))] at h₂
  rw [← heq k (.inr (.inr rfl))] at h₃
  exact ⟨h₁, h₂, h₃, hdistinct⟩

def Uses (s : State B) (b : B) (x : Fin NUM) : Prop := ∃ i j k, s.phase b = .sent i j k ∧ (x = i ∨ x = j ∨ x = k)

/-- The published heads la are not fetched yet, and no interrupt has seen the completed ones lu. -/
structure Inv (s : State B) (la lu : List (Fin NUM)) : Prop where
  ok : s.fault = none
  avail : Window s.avail s.fetched la
  availIdx : s.availIdx = u16 (s.fetched + la.length)
  used : Window s.used s.seen lu
  usedIdx : s.usedIdx = u16 (s.seen + lu.length)
  fetched : s.fetched < 2 ^ 16
  seen : s.seen < 2 ^ 16
  nodup : (la ++ s.working ++ lu).Nodup
  mem : ∀ i, i ∈ la ++ s.working ++ lu ↔ ∃ b j k, s.phase b = .sent i j k ∧ s.disk b = true
  status : ∀ i ∈ lu, (s.info i).status = 0
  owner : ∀ b i j k, s.phase b = .sent i j k → (s.info i).b = some b
  linked : ∀ b i j k, s.phase b = .sent i j k → Linked s.desc i j k
  disjoint : ∀ b c x, Uses s b x → Uses s c x → b = c
  free : ∀ x, s.free x = false ↔ ∃ b, Uses s b x
  done : ∀ b i j k, s.phase b = .sent i j k → s.disk b = false ∨ i ∈ lu → s.completed b = true
  sleeps : ∀ b c, s.chan b = some (.buf c) → c = b

theorem inv_init : Inv (State.init : State B) [] [] where
  ok := rfl
  avail := window_nil
  availIdx := rfl
  used := window_nil
  usedIdx := rfl
  fetched := Nat.two_pow_pos 16
  seen := Nat.two_pow_pos 16
  nodup := List.nodup_nil
  mem i := by
    constructor
    · intro h
      cases h
    · rintro ⟨b, j, k, h, -⟩
      cases h
  status i h := by cases h
  owner b i j k h := by cases h
  linked b i j k h := by cases h
  disjoint b c x h := by
    obtain ⟨i, j, k, h, -⟩ := h
    cases h
  free x := by
    constructor
    · intro h
      cases h
    · rintro ⟨b, i, j, k, h, -⟩
      cases h
  done b i j k h := by cases h
  sleeps b c h := by cases h

theorem ofNat_u16 (n : Nat) : Fin.ofNat NUM (u16 n) = Fin.ofNat NUM n := ofNat_mod (by decide) n

theorem window_u16 {ring : Fin NUM → Fin NUM} {n : Nat} {l : List (Fin NUM)} :
    Window ring (u16 n) l ↔ Window ring n l := window_mod (by decide)

theorem u16_add (m n : Nat) : u16 (u16 m + n) = u16 (m + n) := Nat.mod_add_mod m (2 ^ 16) n

theorem u16_lt (n : Nat) : u16 n < 2 ^ 16 := Nat.mod_lt n (by decide)

def Woken (f g : B → Option (Chan B)) : Prop := ∀ b c, g b = some (.buf c) → f b = some (.buf c)

theorem Woken.trans {f g h : B → Option (Chan B)} (hfg : Woken f g) (hgh : Woken g h) : Woken f h :=
  fun b c hc => hfg b c (hgh b c hc)

theorem free_of_allocDesc (h : s.allocDesc = some i) : s.free i = true := List.find?_some h

theorem take_free (s : State B) (i x : Fin NUM) : (s.take i).free x = if x = i then false else s.free x := by
  rw [State.take]
  by_cases hx : x = i
  · simp [hx]
  · simp [hx]

section Heads

variable (h : Inv s la lu)
include h

theorem length_lt (hi : i ∉ la ++ s.working ++ lu) : la.length < NUM ∧ lu.length < NUM := by
  have hnodup : (i :: (la ++ s.working ++ lu)).Nodup := List.nodup_cons.mpr ⟨hi, h.nodup⟩
  have hlen := hnodup.length_le_card
  simp only [List.length_cons, List.length_append, Fintype.card_fin] at hlen
  omega

theorem unused (hi : s.free i = true) (b : B) : ¬Uses s b i := by
  intro hb
  have := (h.free i).mpr ⟨b, hb⟩
  rw [hi] at this
  cases this

theorem not_mem_of_free (hi : s.free i = true) : i ∉ la ++ s.working ++ lu := by
  rw [h.mem]
  rintro ⟨b, j, k, hb, -⟩
  exact unused h hi b ⟨i, j, k, hb, .inl rfl⟩

theorem sent_unique {j' k' : Fin NUM} (hb : s.phase b = .sent i j k) (hc : s.phase c = .sent i j' k') : b = c :=
  h.disjoint b c i ⟨i, j, k, hb, .inl rfl⟩ ⟨i, j', k', hc, .inl rfl⟩

end Heads

variable [DecidableEq B]

theorem woken_wakeup (s : State B) (x : Chan B) : Woken s.chan (s.wakeup x).chan := by
  intro b c h
  simp only [State.wakeup] at h
  split at h
  · cases h
  · exact h

def freed (s : State B) (i : Fin NUM) (g : B → Option (Chan B)) : State B :=
  { s with desc := update s.desc i .zero, free := update s.free i true, chan := g }

theorem freeDesc_eq (h : s.free i = false) : ∃ g, Woken s.chan g ∧ s.freeDesc i = freed s i g := by
  refine ⟨_, woken_wakeup _ .free, ?_⟩
  rw [State.freeDesc, dif_pos i.isLt]
  simp only [Fin.eta, h, Bool.false_eq_true, if_false]
  rfl

theorem alloc3_spec (s : State B) :
    (∃ i j k, s.alloc3 = (((s.take i).take j).take k, some (i, j, k)) ∧ s.free i = true ∧ s.free j = true ∧
      s.free k = true ∧ i ≠ j ∧ i ≠ k ∧ j ≠ k) ∨
    ∃ d g, s.alloc3 = ({ s with desc := d, chan := g }, none) ∧ (∀ x, s.free x = false → d x = s.desc x) ∧
      Woken s.chan g := by
  unfold State.alloc3
  split
  · exact .inr ⟨s.desc, s.chan, rfl, fun _ _ => rfl, fun _ _ h => h⟩
  · rename_i i hi
    have hfi := free_of_allocDesc hi
    split
    · obtain ⟨g, hg, heq⟩ := freeDesc_eq (s := s.take i) (i := i) (by rw [take_free, if_pos rfl])
      refine .inr ⟨update s.desc i .zero, g, ?_, ?_, hg⟩
      · rw [heq, State.take, freed]
        simp only [update_idem]
        rw [show update s.free i true = s.free by rw [← hfi, update_eq_self]]
      · intro x hx
        refine update_of_ne ?_ ..
        rintro rfl
        rw [hfi] at hx
        cases hx
    · rename_i j hj
      have hfj := free_of_allocDesc hj
      rw [take_free] at hfj
      have hij : j ≠ i := by
        rintro rfl
        simp at hfj
      rw [if_neg hij] at hfj
      split
      · obtain ⟨g, hg, heq⟩ := freeDesc_eq (s := (s.take i).take j) (i := i) (by
          rw [take_free, if_neg (Ne.symm hij), take_free, if_pos rfl])
        rw [heq]
        obtain ⟨g', hg', heq'⟩ := freeDesc_eq (s := freed ((s.take i).take j) i g) (i := j) (by
          simp only [freed, update_of_ne hij]
          rw [take_free, if_pos rfl])
        refine .inr ⟨update (update s.desc i .zero) j .zero, g', ?_, ?_, hg.trans hg'⟩
        · rw [heq']
          have hfree : update (update ((s.take i).take j).free i true) j true = s.free := by
            funext x
            by_cases hxj : x = j
            · rw [hxj, update_self, hfj]
            · rw [update_of_ne hxj]
              by_cases hxi : x = i
              · rw [hxi, update_self, hfi]
              · rw [update_of_ne hxi, take_free, if_neg hxj, take_free, if_neg hxi]
          simp only [freed, hfree]
          rfl
        · intro x hx
          have hxi : x ≠ i := by
            rintro rfl
            rw [hfi] at hx
            cases hx
          have hxj : x ≠ j := by
            rintro rfl
            rw [hfj] at hx
            cases hx
          exact (update_of_ne hxj ..).trans (update_of_ne hxi ..)
      · rename_i k hk
        have hfk := free_of_allocDesc hk
        rw [take_free] at hfk
        have hkj : k ≠ j := by
          rintro rfl
          simp at hfk
        rw [if_neg hkj, take_free] at hfk
        have hki : k ≠ i := by
          rintro rfl
          simp at hfk
        rw [if_neg hki] at hfk
        exact .inl ⟨i, j, k, rfl, hfi, hfj, hfk, Ne.symm hij, Ne.symm hki, Ne.symm hkj⟩

theorem freeChain_more (fuel : Nat) (hok : s.fault = none) (hi : s.free i = false) (hm : (s.desc i).more = true)
    (hn : (s.desc i).next = j) : ∃ g, Woken s.chan g ∧
      State.freeChain (fuel + 1) i s = State.freeChain fuel j (freed s i g) := by
  obtain ⟨g, hg, heq⟩ := freeDesc_eq hi
  have hnone : (s.freeDesc i).fault = none := by
    rw [heq]
    exact hok
  refine ⟨g, hg, ?_⟩
  rw [State.freeChain, dif_pos i.isLt, hnone]
  simp only [Fin.eta, hm, if_true, hn]
  rw [heq]

theorem freeChain_last (fuel : Nat) (hok : s.fault = none) (hi : s.free i = false) (hm : (s.desc i).more = false) :
    ∃ g, Woken s.chan g ∧ State.freeChain (fuel + 1) i s = freed s i g := by
  obtain ⟨g, hg, heq⟩ := freeDesc_eq hi
  have hnone : (s.freeDesc i).fault = none := by
    rw [heq]
    exact hok
  refine ⟨g, hg, ?_⟩
  rw [State.freeChain, dif_pos i.isLt, hnone]
  simp only [Fin.eta, hm, Bool.false_eq_true, if_false]
  exact heq

theorem finish_spec (b : B) (hok : s.fault = none) (hl : Linked s.desc i j k) (hi : s.free i = false)
    (hj : s.free j = false) (hk : s.free k = false) : ∃ g, Woken s.chan g ∧ s.finish b i =
      { s with
        info := update s.info i { s.info i with b := none }
        phase := update s.phase b .idle
        desc := update (update (update s.desc i .zero) j .zero) k .zero
        free := update (update (update s.free i true) j true) k true
        chan := g } := by
  obtain ⟨hij, hik, hjk⟩ := hl.distinct
  obtain ⟨g₁, hg₁, h₁⟩ := freeChain_more (s := { s with
      info := update s.info i { s.info i with b := none }
      phase := update s.phase b .idle }) NUM hok hi hl.first.1 hl.first.2
  rw [State.finish, h₁]
  generalize hu : freed ({ s with
      info := update s.info i { s.info i with b := none }
      phase := update s.phase b .idle } : State B) i g₁ = u
  obtain ⟨g₂, hg₂, h₂⟩ := freeChain_more (s := u) (i := j) (j := k) 7 (by rw [← hu]; exact hok)
    (by rw [← hu]; exact (update_of_ne (Ne.symm hij) ..).trans hj)
    (by rw [← hu, freed]; simp only [update_of_ne (Ne.symm hij)]; exact hl.second.1)
    (by rw [← hu, freed]; simp only [update_of_ne (Ne.symm hij)]; exact hl.second.2)
  rw [h₂]
  obtain ⟨g₃, hg₃, h₃⟩ := freeChain_last (s := freed u j g₂) (i := k) 6 (by rw [← hu]; exact hok)
    (by
      rw [← hu, freed, freed]
      simp only [update_of_ne (Ne.symm hjk), update_of_ne (Ne.symm hik)]
      exact hk)
    (by
      rw [← hu, freed, freed]
      simp only [update_of_ne (Ne.symm hjk), update_of_ne (Ne.symm hik)]
      exact hl.third.1)
  refine ⟨g₃, ?_, ?_⟩
  · rw [← hu] at hg₂
    exact (hg₁.trans hg₂).trans hg₃
  · rw [h₃, ← hu]
    rfl

section Steps

variable (h : Inv s la lu)
include h

theorem inv_wait {d : Fin NUM → Desc B} {g : B → Option (Chan B)} {x : Phase} (hx : ∀ i j k, x ≠ .sent i j k)
    (hb : ∀ i j k, s.phase b ≠ .sent i j k) (hd : ∀ x, s.free x = false → d x = s.desc x) (hg : Woken s.chan g) :
    Inv { s with
      desc := d
      chan := update g b (some .free)
      phase := update s.phase b x } la lu := by
  have hphase : ∀ c i j k, update s.phase b x c = .sent i j k ↔ s.phase c = .sent i j k := by
    intro c i j k
    by_cases hc : c = b
    · subst hc
      rw [update_self]
      exact ⟨fun hs => absurd hs (hx i j k), fun hs => absurd hs (hb i j k)⟩
    · rw [update_of_ne hc]
  have huses : ∀ t : State B, t.phase = update s.phase b x → ∀ c y, Uses t c y ↔ Uses s c y := by
    intro t ht c y
    simp only [Uses, ht, hphase]
  exact {
    h with
    mem := fun i => by
      simp only [hphase]
      exact h.mem i
    owner := fun c i j k hc => h.owner c i j k ((hphase c i j k).mp hc)
    linked := fun c i j k hc => by
      have hc := (hphase c i j k).mp hc
      exact (h.linked c i j k hc).congr fun y hy => hd y ((h.free y).mpr ⟨c, i, j, k, hc, hy⟩)
    disjoint := fun c c' y hc hc' => h.disjoint c c' y ((huses _ rfl c y).mp hc) ((huses _ rfl c' y).mp hc')
    free := fun y => (h.free y).trans (exists_congr fun c => (huses _ rfl c y).symm)
    done := fun c i j k hc => h.done c i j k ((hphase c i j k).mp hc)
    sleeps := fun c c' hc => by
      by_cases hcb : c = b
      · subst hcb
        simp at hc
      · simp only [update_of_ne hcb] at hc
        exact h.sleeps c c' (hg c c' hc) }

/-- b has no request, and the descriptors are free and three. -/
structure Fresh (s : State B) (b : B) (i j k : Fin NUM) : Prop where
  idle : ∀ i j k, s.phase b ≠ .sent i j k
  first : s.free i = true
  second : s.free j = true
  third : s.free k = true
  distinct : i ≠ j ∧ i ≠ k ∧ j ≠ k

def sent (s : State B) (b : B) (write : Bool) (blockno : Nat) (i j k : Fin NUM) : State B :=
  (((s.take i).take j).take k).send b write blockno i j k

section Send

variable {write : Bool} {blockno : Nat}

omit h in
theorem sent_phase (c : B) (x y z : Fin NUM) : (sent s b write blockno i j k).phase c = .sent x y z ↔
    (c = b ∧ x = i ∧ y = j ∧ z = k) ∨ (c ≠ b ∧ s.phase c = .sent x y z) := by
  simp only [sent, State.send, State.take]
  by_cases hc : c = b
  · subst hc
    simp only [update_self, Phase.sent.injEq, ne_eq, not_true_eq_false, false_and, or_false, true_and, eq_comm]
  · simp only [update_of_ne hc, hc, false_and, false_or, ne_eq, not_false_eq_true, true_and]

omit h in
theorem sent_uses (hb : ∀ i j k, s.phase b ≠ .sent i j k) (c : B) (x : Fin NUM) :
    Uses (sent s b write blockno i j k) c x ↔ (c = b ∧ (x = i ∨ x = j ∨ x = k)) ∨ Uses s c x := by
  simp only [Uses, sent_phase]
  constructor
  · rintro ⟨x', y, z, ⟨rfl, rfl, rfl, rfl⟩ | ⟨-, hc⟩, hx⟩
    · exact .inl ⟨rfl, hx⟩
    · exact .inr ⟨x', y, z, hc, hx⟩
  · rintro (⟨rfl, hx⟩ | ⟨x', y, z, hc, hx⟩)
    · exact ⟨i, j, k, .inl ⟨rfl, rfl, rfl, rfl⟩, hx⟩
    · exact ⟨x', y, z, .inr ⟨fun hcb => hb x' y z (hcb ▸ hc), hc⟩, hx⟩

omit h in
theorem sent_free (x : Fin NUM) :
    (sent s b write blockno i j k).free x = false ↔ (x = i ∨ x = j ∨ x = k) ∨ s.free x = false := by
  change (((s.take i).take j).take k).free x = false ↔ _
  rw [take_free, take_free, take_free]
  by_cases h₁ : x = i <;> by_cases h₂ : x = j <;> by_cases h₃ : x = k <;> simp [h₁, h₂, h₃]

variable (hf : Fresh s b i j k)

include hf

omit [DecidableEq B] in
/-- The descriptors of the other requests are not among the new ones. -/
theorem other_descs {x : Fin NUM} (hc : Uses s c x) : x ≠ i ∧ x ≠ j ∧ x ≠ k := by
  refine ⟨?_, ?_, ?_⟩
  · rintro rfl
    exact unused h hf.first c hc
  · rintro rfl
    exact unused h hf.second c hc
  · rintro rfl
    exact unused h hf.third c hc

theorem sent_desc {x : Fin NUM} (hc : Uses s c x) : (sent s b write blockno i j k).desc x = s.desc x := by
  obtain ⟨h₁, h₂, h₃⟩ := other_descs h hf hc
  simp only [sent, State.send, State.take, update_of_ne h₁, update_of_ne h₂, update_of_ne h₃]

theorem sent_linked {x y z : Fin NUM} (hc : (sent s b write blockno i j k).phase c = .sent x y z) :
    Linked (sent s b write blockno i j k).desc x y z := by
  rcases (sent_phase c x y z).mp hc with ⟨rfl, rfl, rfl, rfl⟩ | ⟨-, hc⟩
  · obtain ⟨hij, hik, hjk⟩ := hf.distinct
    refine ⟨?_, ?_, ?_, hf.distinct⟩
    · simp only [sent, State.send, update_of_ne hik, update_of_ne hij, update_self, and_self]
    · simp only [sent, State.send, update_of_ne hjk, update_self, and_self]
    · simp only [sent, State.send, update_self, and_self]
  · exact (h.linked c x y z hc).congr fun w hw => sent_desc h hf ⟨x, y, z, hc, hw⟩

theorem sent_mem (x : Fin NUM) : x ∈ la ++ [i] ++ s.working ++ lu ↔
    ∃ c y z, (sent s b write blockno i j k).phase c = .sent x y z ∧ (sent s b write blockno i j k).disk c = true := by
  have hmem : x ∈ la ++ [i] ++ s.working ++ lu ↔ x = i ∨ x ∈ la ++ s.working ++ lu := by
    simp only [List.mem_append, List.mem_singleton]
    tauto
  rw [hmem, h.mem]
  simp only [sent_phase]
  constructor
  · rintro (rfl | ⟨c, y, z, hc, hd⟩)
    · exact ⟨b, j, k, .inl ⟨rfl, rfl, rfl, rfl⟩, update_self ..⟩
    · have hcb : c ≠ b := fun heq => hf.idle x y z (heq ▸ hc)
      exact ⟨c, y, z, .inr ⟨hcb, hc⟩, (update_of_ne hcb ..).trans hd⟩
  · rintro ⟨c, y, z, ⟨rfl, rfl, rfl, rfl⟩ | ⟨hcb, hc⟩, hd⟩
    · exact .inl rfl
    · exact .inr ⟨c, y, z, hc, (update_of_ne hcb ..).symm.trans hd⟩

theorem sent_disjoint (c c' : B) (x : Fin NUM)
    (hc : Uses (sent s b write blockno i j k) c x) (hc' : Uses (sent s b write blockno i j k) c' x) : c = c' := by
  have hold : ∀ a, Uses s a x → ¬(x = i ∨ x = j ∨ x = k) := by
    intro a ha
    obtain ⟨h₁, h₂, h₃⟩ := other_descs h hf ha
    simp [h₁, h₂, h₃]
  rcases (sent_uses hf.idle c x).mp hc with ⟨hcb, hx⟩ | hs
  · rcases (sent_uses hf.idle c' x).mp hc' with ⟨hcb', -⟩ | hs'
    · rw [hcb, hcb']
    · exact absurd hx (hold c' hs')
  · rcases (sent_uses hf.idle c' x).mp hc' with ⟨-, hx⟩ | hs'
    · exact absurd hx (hold c hs)
    · exact h.disjoint c c' x hs hs'

theorem inv_send (write : Bool) (blockno : Nat) : Inv (sent s b write blockno i j k) (la ++ [i]) lu := by
  have hnew := not_mem_of_free h hf.first
  have hlen := (length_lt h hnew).1
  exact {
    h with
    avail := by
      simp only [sent, State.send, State.take, h.availIdx, ofNat_u16]
      exact window_push h.avail hlen
    availIdx := by
      simp only [sent, State.send, State.take, h.availIdx, u16_add, List.length_append, List.length_singleton,
        Nat.add_assoc]
    nodup := by
      have hperm : (i :: (la ++ s.working ++ lu)).Perm (la ++ [i] ++ s.working ++ lu) := by
        simp only [List.append_assoc, List.cons_append, List.nil_append]
        exact List.perm_middle.symm
      exact hperm.nodup_iff.mp (List.nodup_cons.mpr ⟨hnew, h.nodup⟩)
    mem := sent_mem h hf
    status := fun x hx => by
      have hxi : x ≠ i := by
        rintro rfl
        exact hnew (List.mem_append_right _ hx)
      simp only [sent, State.send, State.take, update_of_ne hxi]
      exact h.status x hx
    owner := fun c x y z hc => by
      rcases (sent_phase c x y z).mp hc with ⟨rfl, rfl, rfl, rfl⟩ | ⟨-, hc⟩
      · simp only [sent, State.send, update_self]
      · have hxi := (other_descs h hf ⟨x, y, z, hc, .inl rfl⟩).1
        simp only [sent, State.send, State.take, update_of_ne hxi]
        exact h.owner c x y z hc
    linked := fun c x y z hc => sent_linked h hf hc
    disjoint := sent_disjoint h hf
    free := fun x => by
      rw [sent_free, h.free]
      simp only [sent_uses hf.idle, exists_or, exists_eq_left]
    done := fun c x y z hc hd => by
      rcases (sent_phase c x y z).mp hc with ⟨rfl, rfl, rfl, rfl⟩ | ⟨hcb, hc⟩
      · rcases hd with hd | hd
        · simp only [sent, State.send, update_self, Bool.true_eq_false] at hd
        · exact absurd (List.mem_append_right _ hd) hnew
      · simp only [sent, State.send, State.take, update_of_ne hcb] at hd ⊢
        exact h.done c x y z hc hd
    sleeps := fun c c' hc => by
      simp only [sent, State.send, State.take] at hc
      by_cases hcb : c = b
      · subst hcb
        rw [update_self] at hc
        cases hc
        rfl
      · rw [update_of_ne hcb] at hc
        exact h.sleeps c c' hc }

end Send

theorem inv_tryStart (hb : ∀ i j k, s.phase b ≠ .sent i j k) (write : Bool) (blockno : Nat) :
    ∃ la', Inv (s.tryStart b write blockno) la' lu := by
  rcases alloc3_spec s with ⟨i, j, k, heq, hi, hj, hk, hij, hik, hjk⟩ | ⟨d, g, heq, hd, hg⟩
  · refine ⟨la ++ [i], ?_⟩
    rw [State.tryStart, heq]
    exact inv_send h ⟨hb, hi, hj, hk, hij, hik, hjk⟩ write blockno
  · refine ⟨la, ?_⟩
    rw [State.tryStart, heq]
    exact inv_wait h (x := .waiting write blockno) nofun hb hd hg

end Steps

end AdaptiveXv6.DiskRequests
