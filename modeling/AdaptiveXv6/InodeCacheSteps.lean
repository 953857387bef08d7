import AdaptiveXv6.InodeCache

namespace AdaptiveXv6.InodeCacheSteps

open Words InodeCache Function

variable {P I : Type} {s t : State P I} {p q : P} {x y : Fin NINODE} {i : I}

/-- What holds between a process in a phase and an entry. The last fields are about an iput() that frees: until
the dinode is free, the inode has no links in memory and on disk. -/
structure Between (has : Prop) (d : I → Node) (q : P) (ph : Phase I) (y : Fin NINODE) (e : Entry P I) : Prop where
  holder : e.locked = some q → has
  loading : ph = .loading y → e.locked = some q
  freeing : ∀ stage, ph = .freeing y stage → stage ≠ .drop → e.locked = some q
  dropping : ph = .freeing y .drop → has ∧ e.locked ≠ some q
  loaded : e.locked = some q → ph = .loading y ∨ ph = .freeing y .unlock ∨ e.valid = true
  typed : e.locked = some q → ph ≠ .freeing y .invalidate → e.valid = true → ∀ i, e.key = some i →
    e.node.type ≠ 0 ∧ (d i).type ≠ 0
  doomed : ph = .freeing y .trunc ∨ ph = .freeing y .wipe →
    e.valid = true ∧ e.node.nlink = 0 ∧ ∀ i, e.key = some i → (d i).nlink = 0
  cleared : ph = .freeing y .unlock → e.valid = false

def Settled (d : I → Node) (e : Entry P I) : Prop :=
  e.valid = true → e.locked = none → ∀ i, e.key = some i → e.node = d i ∧ (d i).type ≠ 0

def Away (ph : Phase I) (y : Fin NINODE) : Prop := ph ≠ .loading y ∧ ∀ stage, ph ≠ .freeing y stage

section Pairs

variable {has has' : Prop} {d d' : I → Node} {ph ph' : Phase I} {e e' : Entry P I}

theorem settled_of_locked (hl : e.locked = some p) : Settled d e := by
  intro _ hn
  rw [hl] at hn
  cases hn

theorem not_doomed (h : Away ph y) : ¬(ph = .freeing y .trunc ∨ ph = .freeing y .wipe) :=
  fun hp => hp.elim (h.2 _) (h.2 _)

theorem between_away (hl : e.locked ≠ some q) (hph : Away ph y) : Between has d q ph y e where
  holder hc := absurd hc hl
  loading hp := absurd hp hph.1
  freeing _ hp := absurd hp (hph.2 _)
  dropping hp := absurd hp (hph.2 _)
  loaded hc := absurd hc hl
  typed hc := absurd hc hl
  doomed hp := absurd hp (not_doomed hph)
  cleared hp := absurd hp (hph.2 _)

theorem Between.away (h : Between has d q ph y e) (hph : Away ph y) (hph' : Away ph' y) :
    Between has d q ph' y e where
  holder := h.holder
  loading hp := absurd hp hph'.1
  freeing _ hp := absurd hp (hph'.2 _)
  dropping hp := absurd hp (hph'.2 _)
  loaded hl := .inr (.inr (((h.loaded hl).resolve_left hph.1).resolve_left (hph.2 _)))
  typed hl _ := h.typed hl (hph.2 _)
  doomed hp := absurd hp (not_doomed hph')
  cleared hp := absurd hp (hph'.2 _)

/-- Who does not hold the lock, before and after, depends on nothing that the holder may change. -/
theorem Between.unheld (h : Between has d q ph y e) (hl : e.locked ≠ some q) (hl' : e'.locked ≠ some q)
    (hhas : has → has') : Between has' d' q ph y e' where
  holder hc := absurd hc hl'
  loading hp := absurd (h.loading hp) hl
  freeing stage hp hs := absurd (h.freeing stage hp hs) hl
  dropping hp := ⟨hhas (h.dropping hp).1, hl'⟩
  loaded hc := absurd hc hl'
  typed hc := absurd hc hl'
  doomed hp := by
    rcases hp with hp | hp
    · exact absurd (h.freeing _ hp (by simp)) hl
    · exact absurd (h.freeing _ hp (by simp)) hl
  cleared hp := absurd (h.freeing _ hp (by simp)) hl

theorem Between.kept (h : Between has d q ph y e) (hhas : has → has')
    (hd : has → ∀ i, e.key = some i → d' i = d i) (r : Int) : Between has' d' q ph y { e with ref := r } where
  holder hl := hhas (h.holder hl)
  loading := h.loading
  freeing := h.freeing
  dropping hp := ⟨hhas (h.dropping hp).1, (h.dropping hp).2⟩
  loaded := h.loaded
  typed hl hp hv i hi := by
    rw [hd (h.holder hl) i hi]
    exact h.typed hl hp hv i hi
  doomed hp := by
    have hl : e.locked = some q := hp.elim (fun hp => h.freeing _ hp (by simp)) fun hp => h.freeing _ hp (by simp)
    obtain ⟨hv, hlink, hdisk⟩ := h.doomed hp
    refine ⟨hv, hlink, fun i hi => ?_⟩
    rw [hd (h.holder hl) i hi]
    exact hdisk i hi
  cleared := h.cleared

end Pairs

structure Table (s : State P I) : Prop where
  refs : ∀ x, (s.entry x).ref = s.count x
  keyed : ∀ x, 0 < s.count x → (s.entry x).key ≠ none
  unique : ∀ x y, 0 < s.count x → 0 < s.count y → (s.entry x).key = (s.entry y).key → x = y

structure Inv (s : State P I) : Prop extends Table s where
  between : ∀ q y, Between ((q, y) ∈ s.refs) s.disk q (s.phase q) y (s.entry y)
  settled : ∀ y, 0 < s.count y → Settled s.disk (s.entry y)
  awake : s.fault ≠ some .sleepsInIput

theorem Table.kept (h : Table s) (hkey : ∀ y, (t.entry y).key = (s.entry y).key)
    (hpos : ∀ y, 0 < t.count y → 0 < s.count y) (hrefs : ∀ y, (t.entry y).ref = t.count y) : Table t where
  refs := hrefs
  keyed y hc := by
    rw [hkey]
    exact h.keyed y (hpos y hc)
  unique y z hy hz hk := by
    rw [hkey, hkey] at hk
    exact h.unique y z (hpos y hy) (hpos z hz) hk

theorem count_pos (h : (p, x) ∈ s.refs) : 0 < s.count x :=
  List.count_pos_iff.mpr (List.mem_map.mpr ⟨(p, x), h, rfl⟩)

theorem inv_init (disk : I → Node) : Inv (State.init disk : State P I) where
  refs _ := rfl
  keyed _ h := absurd h (Nat.lt_irrefl 0)
  unique _ _ h := absurd h (Nat.lt_irrefl 0)
  between _ _ := between_away nofun ⟨nofun, nofun⟩
  settled _ h := absurd h (Nat.lt_irrefl 0)
  awake h := by cases h

theorem ne_of_lock {l : Option P} (h : l = none ∨ l = some p) (hq : q ≠ p) : l ≠ some q := by
  rcases h with rfl | rfl
  · exact (Option.some_ne_none q).symm
  · exact fun heq => hq (Option.some.inj heq).symm

variable [DecidableEq P]

/-- A step changes the entry x and the phase of p; what holds between the others is kept. -/
theorem Inv.change (h : Inv s) {e : Entry P I} {ph : Phase I} (ht : Table t)
    (hentry : t.entry = update s.entry x e) (hphase : t.phase = update s.phase p ph) (hfault : t.fault = s.fault)
    (hpos : ∀ y, y ≠ x → 0 < t.count y → 0 < s.count y)
    (hrefs : ∀ q y, q ≠ p ∨ y ≠ x → (q, y) ∈ s.refs → (q, y) ∈ t.refs)
    (hdisk : ∀ y i, y ≠ x → 0 < s.count y → (s.entry y).key = some i → t.disk i = s.disk i)
    (haway : ∀ y, y ≠ x → Away (s.phase p) y) (haway' : ∀ y, y ≠ x → Away ph y)
    (hother : ∀ q, q ≠ p → Between ((q, x) ∈ t.refs) t.disk q (s.phase q) x e)
    (hself : Between ((p, x) ∈ t.refs) t.disk p ph x e) (hsettled : 0 < t.count x → Settled t.disk e) : Inv t where
  toTable := ht
  between q y := by
    rw [hentry, hphase]
    by_cases hy : y = x
    · subst hy
      rw [update_self]
      by_cases hq : q = p
      · subst hq
        rw [update_self]
        exact hself
      · rw [update_of_ne hq]
        exact hother q hq
    · rw [update_of_ne hy]
      have hsame := (h.between q y).kept (hrefs q y (.inr hy))
        (fun hmem i hi => hdisk y i hy (count_pos hmem) hi) (s.entry y).ref
      by_cases hq : q = p
      · subst hq
        rw [update_self]
        exact hsame.away (haway y hy) (haway' y hy)
      · rw [update_of_ne hq]
        exact hsame
  settled y hc := by
    rw [hentry]
    by_cases hy : y = x
    · subst hy
      rw [update_self]
      exact hsettled hc
    · rw [update_of_ne hy]
      intro hv hl i hi
      rw [hdisk y i hy (hpos y hy hc) hi]
      exact h.settled y (hpos y hy hc) hv hl i hi
  awake := by
    rw [hfault]
    exact h.awake

def touched (s : State P I) (x : Fin NINODE) (e : Entry P I) (d : I → Node) (p : P) (ph : Phase I) : State P I :=
  { s with entry := update s.entry x e, disk := d, phase := update s.phase p ph }

/-- The holder of the lock, or who takes it, changes the entry and its dinode. -/
theorem touch (h : Inv s) {e : Entry P I} {d : I → Node} {ph : Phase I} (hmem : (p, x) ∈ s.refs)
    (hkey : e.key = (s.entry x).key) (href : e.ref = (s.entry x).ref)
    (hlock : (s.entry x).locked = none ∨ (s.entry x).locked = some p) (hlock' : e.locked = none ∨ e.locked = some p)
    (hdisk : ∀ i, (s.entry x).key ≠ some i → d i = s.disk i)
    (haway : ∀ y, y ≠ x → Away (s.phase p) y) (haway' : ∀ y, y ≠ x → Away ph y)
    (hself : Between ((p, x) ∈ s.refs) d p ph x e) (hsettled : Settled d e) : Inv (touched s x e d p ph) := by
  have hentry : ∀ y, ((touched s x e d p ph).entry y).key = (s.entry y).key ∧
      ((touched s x e d p ph).entry y).ref = (s.entry y).ref := by
    intro y
    simp only [touched]
    by_cases hy : y = x
    · rw [hy, update_self]
      exact ⟨hkey, href⟩
    · rw [update_of_ne hy]
      exact ⟨rfl, rfl⟩
  refine h.change (h.toTable.kept (fun y => (hentry y).1) (fun _ => id) fun y => ?_) rfl rfl rfl (fun _ _ => id)
    (fun _ _ _ => id) (fun y i hy hc hi => ?_) haway haway' (fun q hq => ?_) hself fun _ => hsettled
  · rw [(hentry y).2]
    exact h.refs y
  · -- the dinodes of the other entries in use stay
    refine hdisk i fun hxi => hy (h.unique y x hc (count_pos hmem) ?_)
    rw [hi, hxi]
  · exact (h.between q x).unheld (ne_of_lock hlock hq) (ne_of_lock hlock' hq) id

variable [DecidableEq I]

inductive Step (s : State P I) : Event P I → State P I → Prop
  | iget {p : P} {i : I} (hp : s.phase p = .idle ∨ s.phase p = .allocated i) :
      Step s (.iget p i) ((s.iget p i).setPhase p .idle)
  | idup {p : P} {x : Fin NINODE} (hmem : (p, x) ∈ s.refs) (hp : s.phase p = .idle) :
      Step s (.idup p x)
        { s.setEntry x { s.entry x with ref := i32 ((s.entry x).ref + 1) } with refs := (p, x) :: s.refs }
  | ilock {p : P} {x : Fin NINODE} (hp : s.Has p x) (hl : (s.entry x).locked = none) :
      Step s (.ilock p x) ((s.setEntry x { s.entry x with locked := some p }).setPhase p (.loading x))
  | load {p : P} {x : Fin NINODE} (hp : s.phase p = .loading x) : Step s (.load p) (s.load p x)
  | modify {p : P} {x : Fin NINODE} {n : Node} (hp : s.Holds p x) (hn : n.type ≠ 0) :
      Step s (.modify p x n) (s.setEntry x { s.entry x with node := n })
  | iupdate {p : P} {x : Fin NINODE} (hp : s.Holds p x) : Step s (.iupdate p x) (s.write x (s.entry x).node)
  | itrunc {p : P} {x : Fin NINODE} (hp : s.Holds p x) :
      Step s (.itrunc p x) (s.write x { (s.entry x).node with body := [] })
  | iunlock {p : P} {x : Fin NINODE} (hp : s.Holds p x) (hsync : s.synced x) :
      Step s (.iunlock p x) (s.setEntry x { s.entry x with locked := none })
  | iput {p : P} {x : Fin NINODE} (hp : s.Has p x) : Step s (.iput p x) (s.iput p x)
  | free {p : P} {x : Fin NINODE} {stage : Stage} (hp : s.phase p = .freeing x stage) :
      Step s (.free p) (s.free p x stage)
  | ialloc {p : P} {i : I} {type : Nat} (hp : s.phase p = .idle) (hfree : (s.disk i).type = 0) (htype : type ≠ 0) :
      Step s (.ialloc p i type) { s.setPhase p (.allocated i) with disk := update s.disk i ⟨type, 0, []⟩ }

theorem step_cases {e : Event P I} (h : s.step e = some t) : Step s e t := by
  cases e with
  | iget p i =>
    obtain ⟨⟨-, hp⟩, ⟨⟩⟩ := Option.ite_none_right_eq_some.mp h
    exact .iget hp
  | idup p x =>
    obtain ⟨⟨-, hmem, hp⟩, ⟨⟩⟩ := Option.ite_none_right_eq_some.mp h
    exact .idup hmem hp
  | ilock p x =>
    obtain ⟨⟨-, hp, hl⟩, ⟨⟩⟩ := Option.ite_none_right_eq_some.mp h
    exact .ilock hp hl
  | load p =>
    simp only [State.step] at h
    split at h
    · obtain ⟨-, ⟨⟩⟩ := Option.ite_none_right_eq_some.mp h
      exact .load (by assumption)
    · cases h
  | modify p x n =>
    obtain ⟨⟨-, hp, hn⟩, ⟨⟩⟩ := Option.ite_none_right_eq_some.mp h
    exact .modify hp hn
  | iupdate p x =>
    obtain ⟨⟨-, hp⟩, ⟨⟩⟩ := Option.ite_none_right_eq_some.mp h
    exact .iupdate hp
  | itrunc p x =>
    obtain ⟨⟨-, hp⟩, ⟨⟩⟩ := Option.ite_none_right_eq_some.mp h
    exact .itrunc hp
  | iunlock p x =>
    obtain ⟨⟨-, hp, hsync⟩, ⟨⟩⟩ := Option.ite_none_right_eq_some.mp h
    exact .iunlock hp hsync
  | iput p x =>
    obtain ⟨⟨-, hp⟩, ⟨⟩⟩ := Option.ite_none_right_eq_some.mp h
    exact .iput hp
  | free p =>
    simp only [State.step] at h
    split at h
    · obtain ⟨-, ⟨⟩⟩ := Option.ite_none_right_eq_some.mp h
      exact .free (by assumption)
    · cases h
  | ialloc p i type =>
    obtain ⟨⟨-, hp, hfree, htype⟩, ⟨⟩⟩ := Option.ite_none_right_eq_some.mp h
    exact .ialloc hp hfree htype

end AdaptiveXv6.InodeCacheSteps
