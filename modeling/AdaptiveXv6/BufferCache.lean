import Mathlib.Data.Fintype.Card
import AdaptiveXv6.Rings
import AdaptiveXv6.Runs
import AdaptiveXv6.Words

namespace AdaptiveXv6.BufferCache

open Words Runs Rings Function

abbrev NBUF : Nat := 30
abbrev ROOTDEV : Nat := 1

/-- A pointer to a buffer; none is bcache.head. -/
abbrev Ptr := Option (Fin NBUF)

structure Cache where
  dev : Fin NBUF → Nat
  blockno : Fin NBUF → Nat
  refcnt : Fin NBUF → Nat
  valid : Fin NBUF → Bool
  next : Ptr → Ptr
  prev : Ptr → Ptr

namespace Cache

def pushFront (c : Cache) (b : Fin NBUF) : Cache :=
  { c with
    next := update (update c.next (some b) (c.next none)) none (some b)
    prev := update (update c.prev (some b) none) (c.next none) (some b) }

def unlink (c : Cache) (b : Fin NBUF) : Cache :=
  { c with
    prev := update c.prev (c.next (some b)) (c.prev (some b))
    next := update c.next (c.prev (some b)) (c.next (some b)) }

/-- The memory of bcache is zero before binit(). -/
def zero : Cache := ⟨fun _ => 0, fun _ => 0, fun _ => 0, fun _ => false, fun _ => none, fun _ => none⟩

def binit : Cache := (List.finRange NBUF).foldl pushFront zero

def scan (move : Ptr → Ptr) (p : Fin NBUF → Bool) : Nat → Ptr → Option (Fin NBUF)
  | 0, _ => none
  | _ + 1, none => none
  | turns + 1, some b => if p b then some b else scan move p turns (move (some b))

def lookup (c : Cache) (dev blockno : Nat) : Option (Fin NBUF) :=
  scan c.next (fun b => c.dev b == dev && c.blockno b == blockno) NBUF (c.next none)

def victim (c : Cache) : Option (Fin NBUF) := scan c.prev (fun b => c.refcnt b == 0) NBUF (c.prev none)

def addRef (c : Cache) (b : Fin NBUF) : Cache :=
  { c with refcnt := update c.refcnt b (u32 (c.refcnt b + 1)) }

def dropRef (c : Cache) (b : Fin NBUF) : Cache :=
  { c with refcnt := update c.refcnt b (u32 (c.refcnt b + (2 ^ 32 - 1))) }

def recycle (c : Cache) (b : Fin NBUF) (dev blockno : Nat) : Cache :=
  { c with
    dev := update c.dev b dev
    blockno := update c.blockno b blockno
    valid := update c.valid b false
    refcnt := update c.refcnt b 1 }

/-- The buffer that bget() returns; none is the panic. -/
def bget (c : Cache) (dev blockno : Nat) : Option (Fin NBUF × Cache) :=
  match c.lookup dev blockno with
  | some b => some (b, c.addRef b)
  | none => match c.victim with
    | some b => some (b, c.recycle b dev blockno)
    | none => none

def brelse (c : Cache) (b : Fin NBUF) : Cache :=
  if (c.dropRef b).refcnt b = 0 then ((c.dropRef b).unlink b).pushFront b else c.dropRef b

end Cache

/-- The cache with how often each buffer is held and pinned, and when it was last released to zero. -/
structure State where
  cache : Cache
  gets : Fin NBUF → Nat
  pins : Fin NBUF → Nat
  clock : Nat
  released : Fin NBUF → Nat

inductive Event
  | bget (dev blockno : Nat)
  | brelse (b : Fin NBUF)
  | bpin (b : Fin NBUF)
  | bunpin (b : Fin NBUF)

namespace State

def add (f : Fin NBUF → Nat) (b : Fin NBUF) : Fin NBUF → Nat := update f b (f b + 1)

def sub (f : Fin NBUF → Nat) (b : Fin NBUF) : Fin NBUF → Nat := update f b (f b - 1)

/-- brelse() and bunpin() are called for a buffer that was got or pinned before. -/
def step (s : State) : Event → Option State
  | .bget dev blockno => (s.cache.bget dev blockno).map fun r =>
    { s with cache := r.2, gets := add s.gets r.1, clock := s.clock + 1 }
  | .brelse b => if 0 < s.gets b then
      some { s with
        cache := s.cache.brelse b
        gets := sub s.gets b
        clock := s.clock + 1
        released := if (s.cache.dropRef b).refcnt b = 0 then update s.released b (s.clock + 1)
          else s.released }
    else none
  | .bpin b => some { s with cache := s.cache.addRef b, pins := add s.pins b, clock := s.clock + 1 }
  | .bunpin b => if 0 < s.pins b then
      some { s with cache := s.cache.dropRef b, pins := sub s.pins b, clock := s.clock + 1 }
    else none

def init : State := ⟨Cache.binit, fun _ => 0, fun _ => 0, 0, fun _ => 0⟩

end State

section Order

variable {c : Cache} {l : List (Fin NBUF)} {b : Fin NBUF} {p : Fin NBUF → Bool}

structure Ordered (c : Cache) (l : List (Fin NBUF)) : Prop where
  chain : Chain c.next c.prev none (l.map some) none
  nodup : l.Nodup

theorem nodup_ptrs (h : l.Nodup) : ((none : Ptr) :: l.map some).Nodup ∧ (l.map some ++ [(none : Ptr)]).Nodup := by
  have hmap : (l.map some).Nodup := h.map (Option.some_injective _)
  constructor
  · exact List.nodup_cons.mpr ⟨by simp, hmap⟩
  · rw [List.nodup_append]
    refine ⟨hmap, List.nodup_singleton _, ?_⟩
    intro a ha c hc
    rw [List.mem_singleton.mp hc]
    rintro rfl
    simp at ha

theorem Ordered.pushFront (h : Ordered c l) (hb : b ∉ l) : Ordered (c.pushFront b) (b :: l) where
  chain := by
    obtain ⟨hn, hp⟩ := nodup_ptrs h.nodup
    exact chain_insert h.chain (by simp [hb]) (Option.some_ne_none b) hn hp
  nodup := List.nodup_cons.mpr ⟨hb, h.nodup⟩

theorem Ordered.unlink (h : Ordered c l) (hb : b ∈ l) : Ordered (c.unlink b) (l.erase b) := by
  obtain ⟨l₁, l₂, rfl⟩ := List.append_of_mem hb
  obtain ⟨hnd₁, hnd₂, hdis⟩ := List.nodup_append.mp h.nodup
  have hb₁ : b ∉ l₁ := fun hm => hdis b hm b (by simp) rfl
  have herase : (l₁ ++ b :: l₂).erase b = l₁ ++ l₂ := by
    rw [List.erase_append_right _ hb₁, List.erase_cons_head]
  have hnd : (l₁ ++ l₂).Nodup := by
    rw [← herase]
    exact h.nodup.erase b
  have hchain := h.chain
  rw [List.map_append, List.map_cons, chain_append] at hchain
  obtain ⟨hn, hp⟩ := nodup_ptrs hnd
  rw [List.map_append] at hn hp
  rw [herase]
  refine ⟨?_, hnd⟩
  rw [List.map_append]
  exact chain_bypass hchain.1 hchain.2 hn (by rw [← List.append_assoc]; exact hp)

theorem ordered_binit : Ordered Cache.binit (List.finRange NBUF).reverse := by
  have hfold : ∀ (l m : List (Fin NBUF)) (c : Cache), Ordered c m → (l.reverse ++ m).Nodup →
      Ordered (l.foldl Cache.pushFront c) (l.reverse ++ m) := by
    intro l
    induction l with
    | nil => exact fun m c h _ => h
    | cons b l ih =>
      intro m c h hnd
      rw [List.reverse_cons, List.append_assoc] at hnd ⊢
      refine ih (b :: m) (c.pushFront b) (h.pushFront ?_) hnd
      exact (List.nodup_cons.mp (List.nodup_append.mp hnd).2.1).1
  have h := hfold (List.finRange NBUF) [] Cache.zero ⟨⟨rfl, rfl⟩, List.nodup_nil⟩
    (by rw [List.append_nil]; exact List.nodup_reverse.mpr (List.nodup_finRange NBUF))
  rwa [List.append_nil] at h

theorem scan_eq {move back : Ptr → Ptr} {a : Ptr} {turns : Nat} (h : Chain move back a (l.map some) none)
    (hlen : l.length ≤ turns) : Cache.scan move p turns (move a) = l.find? p := by
  induction l generalizing a turns with
  | nil =>
    rw [h.1]
    cases turns with
    | zero => rfl
    | succ turns => rfl
  | cons b l ih =>
    rw [h.1.1]
    cases turns with
    | zero => exact absurd hlen (Nat.not_succ_le_zero _)
    | succ turns =>
      rw [Cache.scan, List.find?_cons]
      cases hp : p b with
      | true => rfl
      | false => exact ih h.2 (Nat.le_of_succ_le_succ hlen)

theorem length_le (h : l.Nodup) : l.length ≤ NBUF := by
  have := List.Nodup.length_le_card h
  rwa [Fintype.card_fin] at this

theorem lookup_eq (h : Ordered c l) (dev blockno : Nat) :
    c.lookup dev blockno = l.find? fun b => c.dev b == dev && c.blockno b == blockno :=
  scan_eq h.chain (length_le h.nodup)

theorem victim_eq (h : Ordered c l) : c.victim = l.reverse.find? fun b => c.refcnt b == 0 := by
  have hchain : Chain c.prev c.next none (l.reverse.map some) none := by
    rw [List.map_reverse]
    exact chain_reverse h.chain
  refine scan_eq hchain ?_
  rw [List.length_reverse]
  exact length_le h.nodup

end Order

section Steps

variable {s t : State}

/-- The list holds every buffer once, in the order of the last releases; no two carry the same block of a
device. -/
structure Inv (s : State) : Prop where
  order : ∃ l, Ordered s.cache l ∧ (∀ b, b ∈ l) ∧ l.Pairwise fun a b => s.released b ≤ s.released a
  past : ∀ b, s.released b ≤ s.clock
  unique : ∀ b b', s.cache.dev b ≠ 0 → s.cache.dev b = s.cache.dev b' → s.cache.blockno b = s.cache.blockno b' → b = b'
  counts : ∀ b, s.cache.refcnt b = u32 (s.gets b + s.pins b)

theorem u32_pred {n : Nat} (h : 0 < n) : u32 (u32 n + (2 ^ 32 - 1)) = u32 (n - 1) := by
  rw [u32_add_left, show n + (2 ^ 32 - 1) = n - 1 + 2 ^ 32 by omega]
  exact Nat.add_mod_right (n - 1) (2 ^ 32)

theorem counts_up {r g k : Fin NBUF → Nat} {b : Fin NBUF} (h : ∀ a, r a = u32 (g a + k a)) (a : Fin NBUF) :
    update r b (u32 (r b + 1)) a = u32 (State.add g b a + k a) := by
  rw [State.add]
  by_cases ha : a = b
  · subst ha
    rw [update_self, update_self, h, u32_add_left, Nat.add_right_comm]
  · rw [update_of_ne ha, update_of_ne ha, h]

theorem counts_down {r g k : Fin NBUF → Nat} {b : Fin NBUF} (hb : 0 < g b) (h : ∀ a, r a = u32 (g a + k a))
    (a : Fin NBUF) : update r b (u32 (r b + (2 ^ 32 - 1))) a = u32 (State.sub g b a + k a) := by
  rw [State.sub]
  by_cases ha : a = b
  · subst ha
    rw [update_self, update_self, h, u32_pred (by omega), show g a + k a - 1 = g a - 1 + k a by omega]
  · rw [update_of_ne ha, update_of_ne ha, h]

theorem dev_binit : Cache.binit.dev = fun _ => 0 := by
  have hdev : ∀ (l : List (Fin NBUF)) (c : Cache), (l.foldl Cache.pushFront c).dev = c.dev := by
    intro l
    induction l with
    | nil => exact fun _ => rfl
    | cons b l ih => exact fun c => ih (c.pushFront b)
  exact hdev _ _

theorem inv_init : Inv State.init where
  order := by
    refine ⟨_, ordered_binit, fun b => by simp, ?_⟩
    exact List.pairwise_of_forall fun _ _ => Nat.le_refl _
  past _ := Nat.le_refl _
  unique b b' h := absurd (congrFun dev_binit b) h
  counts b := by
    have href : ∀ (l : List (Fin NBUF)) (c : Cache), (l.foldl Cache.pushFront c).refcnt = c.refcnt := by
      intro l
      induction l with
      | nil => exact fun _ => rfl
      | cons b l ih => exact fun c => ih (c.pushFront b)
    exact congrFun (href _ _) b

theorem bget_cases (h : Inv s) {dev blockno : Nat} {b : Fin NBUF} {c : Cache}
    (hget : s.cache.bget dev blockno = some (b, c)) :
    s.cache.dev b = dev ∧ s.cache.blockno b = blockno ∧ c = s.cache.addRef b ∨
      (∀ a, ¬(s.cache.dev a = dev ∧ s.cache.blockno a = blockno)) ∧ s.cache.refcnt b = 0 ∧
        (∀ a, s.cache.refcnt a = 0 → s.released b ≤ s.released a) ∧ c = s.cache.recycle b dev blockno := by
  obtain ⟨l, hl, hall, hsorted⟩ := h.order
  rw [Cache.bget, lookup_eq hl, victim_eq hl] at hget
  split at hget
  · rename_i a hfind
    cases hget
    have hp := List.find?_some hfind
    rw [Bool.and_eq_true, beq_iff_eq, beq_iff_eq] at hp
    exact .inl ⟨hp.1, hp.2, rfl⟩
  · rename_i hnone
    split at hget
    · rename_i a hfind
      cases hget
      obtain ⟨hp, xs, ys, hsplit, hbefore⟩ := List.find?_eq_some_iff_append.mp hfind
      refine .inr ⟨?_, beq_iff_eq.mp hp, ?_, rfl⟩
      · rintro a ⟨hd, hb⟩
        have := List.find?_eq_none.mp hnone a (hall a)
        simp [hd, hb] at this
      · intro a ha
        have hrev : l.reverse.Pairwise fun a b => s.released a ≤ s.released b := List.pairwise_reverse.mpr hsorted
        have hmem : a ∈ l.reverse := List.mem_reverse.mpr (hall a)
        rw [hsplit] at hmem hrev
        rcases List.mem_append.mp hmem with hm | hm
        · have := hbefore a hm
          simp [ha] at this
        · rcases List.mem_cons.mp hm with rfl | hm
          · exact Nat.le_refl _
          · exact (List.pairwise_cons.mp (List.pairwise_append.mp hrev).2.1).1 a hm
    · cases hget

theorem inv_brelse (h : Inv s) {b : Fin NBUF} (hb : 0 < s.gets b) : Inv
    { s with
      cache := s.cache.brelse b
      gets := State.sub s.gets b
      clock := s.clock + 1
      released := if (s.cache.dropRef b).refcnt b = 0 then update s.released b (s.clock + 1)
        else s.released } := by
  obtain ⟨l, hl, hall, hsorted⟩ := h.order
  have hcounts := counts_down hb h.counts
  have hl' : Ordered (s.cache.dropRef b) l := ⟨hl.chain, hl.nodup⟩
  by_cases hz : (s.cache.dropRef b).refcnt b = 0
  · simp only [Cache.brelse, if_pos hz]
    refine ⟨⟨b :: l.erase b, (hl'.unlink (hall b)).pushFront (List.Nodup.not_mem_erase hl.nodup), ?_, ?_⟩, ?_, h.unique,
      hcounts⟩
    · intro a
      by_cases ha : a = b
      · simp [ha]
      · exact List.mem_cons_of_mem _ ((List.mem_erase_of_ne ha).mpr (hall a))
    · refine List.pairwise_cons.mpr ⟨?_, ?_⟩
      · intro a ha
        dsimp only
        rw [update_self, update_of_ne]
        · exact Nat.le_succ_of_le (h.past a)
        · rintro rfl
          exact List.Nodup.not_mem_erase hl.nodup ha
      · refine (hsorted.sublist List.erase_sublist).imp_of_mem ?_
        intro a c ha hc hle
        dsimp only
        rw [update_of_ne, update_of_ne]
        · exact hle
        · rintro rfl
          exact List.Nodup.not_mem_erase hl.nodup ha
        · rintro rfl
          exact List.Nodup.not_mem_erase hl.nodup hc
    · intro a
      dsimp only
      by_cases ha : a = b
      · rw [ha, update_self]
      · rw [update_of_ne ha]
        exact Nat.le_succ_of_le (h.past a)
  · simp only [Cache.brelse, if_neg hz]
    exact ⟨⟨l, hl', hall, hsorted⟩, fun a => Nat.le_succ_of_le (h.past a), h.unique, hcounts⟩

theorem inv_step {e : Event} (h : Inv s) (hs : s.step e = some t) : Inv t := by
  obtain ⟨l, hl, hall, hsorted⟩ := h.order
  have hpast : ∀ b, s.released b ≤ s.clock + 1 := fun b => Nat.le_succ_of_le (h.past b)
  have hpins : ∀ b, s.cache.refcnt b = u32 (s.pins b + s.gets b) := by
    intro b
    rw [Nat.add_comm]
    exact h.counts b
  cases e with
  | bget dev blockno =>
    obtain ⟨⟨b, c⟩, hget, rfl⟩ := Option.map_eq_some_iff.mp hs
    rcases bget_cases h hget with ⟨-, -, rfl⟩ | ⟨hnone, hz, -, rfl⟩
    · exact ⟨⟨l, ⟨hl.chain, hl.nodup⟩, hall, hsorted⟩, hpast, h.unique, counts_up h.counts⟩
    · refine ⟨⟨l, ⟨hl.chain, hl.nodup⟩, hall, hsorted⟩, hpast, ?_, ?_⟩
      · intro a a' hd hdev hblock
        simp only [Cache.recycle] at hd hdev hblock
        by_cases ha : a = b
        · by_cases ha' : a' = b
          · rw [ha, ha']
          · rw [ha, update_self, update_of_ne ha'] at hdev hblock
            exact absurd ⟨hdev.symm, hblock.symm⟩ (hnone a')
        · by_cases ha' : a' = b
          · rw [ha', update_self, update_of_ne ha] at hdev hblock
            exact absurd ⟨hdev, hblock⟩ (hnone a)
          · rw [update_of_ne ha] at hd hdev hblock
            rw [update_of_ne ha'] at hdev hblock
            exact h.unique a a' hd hdev hblock
      · have hcounts := counts_up (b := b) h.counts
        rw [hz] at hcounts
        exact hcounts
  | brelse b =>
    rw [State.step] at hs
    split at hs
    · rename_i hb
      cases hs
      exact inv_brelse h hb
    · cases hs
  | bpin b =>
    cases hs
    refine ⟨⟨l, ⟨hl.chain, hl.nodup⟩, hall, hsorted⟩, hpast, h.unique, fun a => ?_⟩
    exact (counts_up hpins a).trans (congrArg u32 (Nat.add_comm ..))
  | bunpin b =>
    rw [State.step] at hs
    split at hs
    · rename_i hb
      cases hs
      refine ⟨⟨l, ⟨hl.chain, hl.nodup⟩, hall, hsorted⟩, hpast, h.unique, fun a => ?_⟩
      exact (counts_down hb hpins a).trans (congrArg u32 (Nat.add_comm ..))
    · cases hs

theorem step_keeps {e : Event} (h : Inv s) (hs : s.step e = some t) {b : Fin NBUF} (hb : 0 < s.cache.refcnt b) :
    t.cache.dev b = s.cache.dev b ∧ t.cache.blockno b = s.cache.blockno b := by
  cases e with
  | bget dev blockno =>
    obtain ⟨⟨a, c⟩, hget, rfl⟩ := Option.map_eq_some_iff.mp hs
    rcases bget_cases h hget with ⟨-, -, rfl⟩ | ⟨-, hz, -, rfl⟩
    · exact ⟨rfl, rfl⟩
    · have hne : b ≠ a := by
        rintro rfl
        omega
      exact ⟨update_of_ne hne .., update_of_ne hne ..⟩
  | brelse a =>
    rw [State.step] at hs
    split at hs
    · cases hs
      simp only [Cache.brelse]
      split
      · exact ⟨rfl, rfl⟩
      · exact ⟨rfl, rfl⟩
    · cases hs
  | bpin a =>
    cases hs
    exact ⟨rfl, rfl⟩
  | bunpin a =>
    rw [State.step] at hs
    split at hs
    · cases hs
      exact ⟨rfl, rfl⟩
    · cases hs

theorem walk_of_ordered {c : Cache} {l : List (Fin NBUF)} (h : Ordered c l) (hall : ∀ b, b ∈ l) :
    l.length = NBUF ∧ (∀ k (hk : k < l.length), c.next^[k + 1] none = some l[k]) ∧ c.next^[NBUF + 1] none = none ∧
      ∀ v, c.prev (c.next v) = v ∧ c.next (c.prev v) = v := by
  have hlen : l.length = NBUF := by
    refine Nat.le_antisymm (length_le h.nodup) ?_
    have hsub : List.finRange NBUF ⊆ l := fun b _ => hall b
    have := (List.subperm_of_subset (List.nodup_finRange NBUF) hsub).length_le
    rwa [List.length_finRange] at this
  have hmem : ∀ v : Ptr, v ∈ none :: l.map some ∧ v ∈ l.map some ++ [none] := by
    intro v
    cases v with
    | none => simp
    | some b => simp [hall b]
  refine ⟨hlen, ?_, ?_, fun v => ⟨prev_next h.chain (hmem v).1, next_prev h.chain (hmem v).2⟩⟩
  · intro k hk
    rw [iterate_next h.chain (by rw [List.length_map]; exact hk), List.getElem_map]
  · have hround := iterate_next_length h.chain
    rwa [List.length_map, hlen] at hround

theorem bget_panics (h : Inv s) {dev blockno : Nat} : s.cache.bget dev blockno = none ↔
    (∀ a, ¬(s.cache.dev a = dev ∧ s.cache.blockno a = blockno)) ∧ ∀ a, s.cache.refcnt a ≠ 0 := by
  obtain ⟨l, hl, hall, -⟩ := h.order
  rw [Cache.bget, lookup_eq hl, victim_eq hl]
  constructor
  · intro hnone
    split at hnone
    · cases hnone
    · rename_i hmiss
      split at hnone
      · cases hnone
      · rename_i hbusy
        refine ⟨?_, fun a ha => ?_⟩
        · rintro a ⟨hd, hb⟩
          have := List.find?_eq_none.mp hmiss a (hall a)
          simp [hd, hb] at this
        · have := List.find?_eq_none.mp hbusy a (List.mem_reverse.mpr (hall a))
          simp [ha] at this
  · rintro ⟨hmiss, hbusy⟩
    have hm : (l.find? fun b => s.cache.dev b == dev && s.cache.blockno b == blockno) = none := by
      refine List.find?_eq_none.mpr fun a _ => ?_
      have := hmiss a
      simpa using this
    have hv : (l.reverse.find? fun b => s.cache.refcnt b == 0) = none := by
      refine List.find?_eq_none.mpr fun a _ => ?_
      have := hbusy a
      simpa using this
    rw [hm, hv]

end Steps

end AdaptiveXv6.BufferCache
