import AdaptiveXv6.BufferCache
import AdaptiveXv6.Tallies

namespace AdaptiveXv6.CachePressure

open Runs Tallies BufferCache Function

abbrev NPROC : Nat := 64
abbrev MAXOPBLOCKS : Nat := 10
abbrev LOGBLOCKS : Nat := MAXOPBLOCKS * 3

/-- The buffers that each process has locked, those that its operation has logged, the process in commit(), and
the pinned buffers. -/
structure State where
  bufs : BufferCache.State
  hold : Fin NPROC → List (Fin NBUF)
  op : Fin NPROC → Option (List (Fin NBUF))
  committer : Option (Fin NPROC)
  log : List (Fin NBUF)

inductive Event
  | beginOp (p : Fin NPROC)
  | bread (p : Fin NPROC) (blockno : Nat)
  | brelse (p : Fin NPROC) (b : Fin NBUF)
  | logWrite (p : Fin NPROC) (b : Fin NBUF)
  | endOp (p : Fin NPROC)
  | unpin (p : Fin NPROC) (b : Fin NBUF)
  | commitDone (p : Fin NPROC)

namespace State

variable (s : State)

def outstanding : Nat := (Finset.univ.filter fun p => s.op p ≠ none).card

/-- No code path locks a third buffer: bmap() and itrunc() hold the indirect block and one more, write_log()
and install_trans() two. -/
def bread (p : Fin NPROC) (blockno : Nat) : Option State :=
  if (s.hold p).length < 2 then
    (s.bufs.cache.bget ROOTDEV blockno).bind fun r =>
      (s.bufs.step (.bget ROOTDEV blockno)).map fun t =>
        { s with bufs := t, hold := update s.hold p (r.1 :: s.hold p) }
  else none

/-- log_write(), of an operation that has not used up its share of the log. -/
def logWrite (p : Fin NPROC) (b : Fin NBUF) : Option State :=
  match s.op p with
  | none => none
  | some l =>
    if b ∈ s.hold p ∧ (b ∈ l ∨ l.length < MAXOPBLOCKS) then
      if b ∈ s.log then some { s with op := update s.op p (some (if b ∈ l then l else b :: l)) }
      else (s.bufs.step (.bpin b)).map fun t =>
        { s with
          bufs := t
          op := update s.op p (some (if b ∈ l then l else b :: l))
          log := s.log ++ [b] }
    else none

def step : Event → Option State
  | .beginOp p =>
    if s.op p = none ∧ s.committer = none ∧ s.log.length + (s.outstanding + 1) * MAXOPBLOCKS ≤ LOGBLOCKS then
      some { s with op := update s.op p (some []) }
    else none
  | .bread p blockno => s.bread p blockno
  | .brelse p b =>
    if b ∈ s.hold p then
      (s.bufs.step (.brelse b)).map fun t => { s with bufs := t, hold := update s.hold p ((s.hold p).erase b) }
    else none
  | .logWrite p b => s.logWrite p b
  | .endOp p =>
    if s.op p ≠ none ∧ s.hold p = [] then
      some { s with
        op := update s.op p none
        committer := if s.outstanding = 1 then some p else s.committer }
    else none
  | .unpin p b =>
    if s.committer = some p ∧ b ∈ s.hold p ∧ b ∈ s.log then
      (s.bufs.step (.bunpin b)).map fun t => { s with bufs := t, log := s.log.erase b }
    else none
  | .commitDone p =>
    if s.committer = some p ∧ s.hold p = [] ∧ s.log = [] then some { s with committer := none } else none

def init : State := ⟨BufferCache.State.init, fun _ => [], fun _ => none, none, []⟩

/-- The different buffers that the log pins or a process has. -/
def taken : Finset (Fin NBUF) := s.log.toFinset ∪ Finset.univ.biUnion fun q => (s.hold q).toFinset

end State

variable {s t : State} {p : Fin NPROC} {b : Fin NBUF}

structure Inv (s : State) : Prop where
  cache : BufferCache.Inv s.bufs
  gets : ∀ b, s.bufs.gets b = ∑ p, (s.hold p).count b
  pins : ∀ b, s.bufs.pins b = s.log.count b
  two : ∀ p, (s.hold p).length ≤ 2
  once : s.log.Nodup

theorem inv_init : Inv State.init where
  cache := BufferCache.inv_init
  gets b := by simp [State.init, BufferCache.State.init]
  pins b := rfl
  two p := Nat.zero_le _
  once := List.nodup_nil

theorem inv_bread (h : Inv s) {blockno : Nat} (hs : s.bread p blockno = some t) : Inv t := by
  rw [State.bread] at hs
  split at hs
  · rename_i hlen
    obtain ⟨⟨b, c⟩, hget, hs⟩ := Option.bind_eq_some_iff.mp hs
    obtain ⟨u, hu, rfl⟩ := Option.map_eq_some_iff.mp hs
    refine ⟨BufferCache.inv_step h.cache hu, ?_, ?_, ?_, h.once⟩
    · intro a
      rw [BufferCache.State.step, hget] at hu
      cases hu
      by_cases ha : a = b
      · subst ha
        simp only [BufferCache.State.add, update_self]
        rw [h.gets]
        refine (sum_up (p := p) ?_ ?_).symm
        · intro q hq
          rw [update_of_ne hq]
        · rw [update_self, List.count_cons_self]
      · simp only [BufferCache.State.add, update_of_ne ha]
        rw [h.gets]
        refine Finset.sum_congr rfl fun q _ => ?_
        by_cases hq : q = p
        · subst hq
          rw [update_self, List.count_cons_of_ne (Ne.symm ha)]
        · rw [update_of_ne hq]
    · intro a
      rw [BufferCache.State.step, hget] at hu
      cases hu
      exact h.pins a
    · intro q
      by_cases hq : q = p
      · subst hq
        simp only [update_self, List.length_cons]
        omega
      · simp only [update_of_ne hq]
        exact h.two q
  · cases hs

theorem inv_brelse (h : Inv s) (hb : b ∈ s.hold p) {u : BufferCache.State}
    (hu : s.bufs.step (.brelse b) = some u) :
    Inv { s with bufs := u, hold := update s.hold p ((s.hold p).erase b) } := by
  refine ⟨BufferCache.inv_step h.cache hu, ?_, ?_, ?_, h.once⟩
  · intro a
    rw [BufferCache.State.step] at hu
    split at hu
    · cases hu
      by_cases ha : a = b
      · subst ha
        simp only [BufferCache.State.sub, update_self]
        have hcount := List.count_pos_iff.mpr hb
        have hdown := sum_down (f := fun q => (s.hold q).count a) (p := p)
          (g := fun q => (update s.hold p ((s.hold p).erase a) q).count a)
          (fun q hq => by simp [hq]) (by simp; omega)
        rw [h.gets]
        omega
      · simp only [BufferCache.State.sub, update_of_ne ha]
        rw [h.gets]
        refine Finset.sum_congr rfl fun q _ => ?_
        by_cases hq : q = p
        · subst hq
          rw [update_self, List.count_erase_of_ne ha]
        · rw [update_of_ne hq]
    · cases hu
  · intro a
    rw [BufferCache.State.step] at hu
    split at hu
    · cases hu
      exact h.pins a
    · cases hu
  · intro q
    by_cases hq : q = p
    · subst hq
      simp only [update_self]
      exact (List.length_erase_le ..).trans (h.two q)
    · simp only [update_of_ne hq]
      exact h.two q

theorem inv_logWrite (h : Inv s) (hs : s.logWrite p b = some t) : Inv t := by
  rw [State.logWrite] at hs
  split at hs
  · cases hs
  · split at hs
    · split at hs
      · cases hs
        exact ⟨h.cache, h.gets, h.pins, h.two, h.once⟩
      · rename_i hlog
        obtain ⟨u, hu, rfl⟩ := Option.map_eq_some_iff.mp hs
        refine ⟨BufferCache.inv_step h.cache hu, ?_, ?_, h.two,
          List.concat_eq_append ▸ h.once.concat hlog⟩
        · cases hu
          exact h.gets
        · cases hu
          intro a
          simp only [BufferCache.State.add]
          rw [List.count_append]
          by_cases ha : a = b
          · subst ha
            rw [update_self, h.pins, List.count_singleton_self]
          · rw [update_of_ne ha, h.pins, List.count_singleton, if_neg (by simpa using Ne.symm ha), Nat.add_zero]
    · cases hs

theorem inv_unpin (h : Inv s) (hb : b ∈ s.log) {u : BufferCache.State} (hu : s.bufs.step (.bunpin b) = some u) :
    Inv { s with bufs := u, log := s.log.erase b } := by
  refine ⟨BufferCache.inv_step h.cache hu, ?_, ?_, h.two, h.once.erase b⟩
  · rw [BufferCache.State.step] at hu
    split at hu
    · cases hu
      exact h.gets
    · cases hu
  · rw [BufferCache.State.step] at hu
    split at hu
    · cases hu
      intro a
      simp only [BufferCache.State.sub]
      by_cases ha : a = b
      · subst ha
        rw [update_self, h.pins, List.count_erase_self]
      · rw [update_of_ne ha, h.pins, List.count_erase_of_ne ha]
    · cases hu

theorem inv_step {e : Event} (h : Inv s) (hs : s.step e = some t) : Inv t := by
  cases e with
  | beginOp p =>
    rw [State.step] at hs
    split at hs
    · cases hs
      exact ⟨h.cache, h.gets, h.pins, h.two, h.once⟩
    · cases hs
  | bread p blockno => exact inv_bread h hs
  | brelse p b =>
    rw [State.step] at hs
    split at hs
    · rename_i hb
      obtain ⟨u, hu, rfl⟩ := Option.map_eq_some_iff.mp hs
      exact inv_brelse h hb hu
    · cases hs
  | logWrite p b => exact inv_logWrite h hs
  | endOp p =>
    rw [State.step] at hs
    split at hs
    · cases hs
      exact ⟨h.cache, h.gets, h.pins, h.two, h.once⟩
    · cases hs
  | unpin p b =>
    rw [State.step] at hs
    split at hs
    · rename_i hb
      obtain ⟨u, hu, rfl⟩ := Option.map_eq_some_iff.mp hs
      exact inv_unpin h hb.2.2 hu
    · cases hs
  | commitDone p =>
    rw [State.step] at hs
    split at hs
    · cases hs
      exact ⟨h.cache, h.gets, h.pins, h.two, h.once⟩
    · cases hs

theorem inv_reached (r : Run State.step State.init) (k : Nat) : Inv (r.state k) :=
  r.always inv_init (fun _ _ _ h hs => inv_step h hs) k

theorem refcnt_iff (h : Inv s) : s.bufs.cache.refcnt b ≠ 0 ↔ b ∈ s.taken := by
  have hgets : s.bufs.gets b ≤ 128 := by
    rw [h.gets]
    exact Finset.sum_le_card_nsmul _ _ 2 fun p _ => List.count_le_length.trans (h.two p)
  have hpins : s.bufs.pins b ≤ 1 := by
    rw [h.pins]
    exact List.nodup_iff_count_le_one.mp h.once b
  rw [h.cache.counts, Words.u32_of_lt (by omega), ← Nat.pos_iff_ne_zero, State.taken, Finset.mem_union,
    Finset.mem_biUnion, List.mem_toFinset, ← List.count_pos_iff, ← h.pins]
  simp only [Finset.mem_univ, true_and, List.mem_toFinset, ← List.count_pos_iff]
  have hsum : 0 < s.bufs.gets b ↔ ∃ q, 0 < (s.hold q).count b := by
    simp only [h.gets, Finset.sum_pos_iff, Finset.mem_univ, true_and]
  rw [← hsum]
  omega

/-- What bget() needs is a buffer that the log does not pin and no process has, unless it finds the block. -/
theorem bget_finds (r : Run State.step State.init) (k blockno : Nat) :
    ((∃ b c, (r.state k).bufs.cache.bget ROOTDEV blockno = some (b, c)) ↔
      (∃ b, (r.state k).bufs.cache.dev b = ROOTDEV ∧ (r.state k).bufs.cache.blockno b = blockno) ∨
        (r.state k).taken.card < NBUF) ∧
    ((r.state k).log.length + ∑ q, ((r.state k).hold q).length < NBUF →
      ∃ b c, (r.state k).bufs.cache.bget ROOTDEV blockno = some (b, c)) := by
  have h := inv_reached r k
  have hiff : (∃ b c, (r.state k).bufs.cache.bget ROOTDEV blockno = some (b, c)) ↔
      (∃ b, (r.state k).bufs.cache.dev b = ROOTDEV ∧ (r.state k).bufs.cache.blockno b = blockno) ∨
        (r.state k).taken.card < NBUF := by
    have hcard := (r.state k).taken.card_lt_iff_ne_univ
    rw [Fintype.card_fin] at hcard
    rw [← Prod.exists (p := fun x => (r.state k).bufs.cache.bget ROOTDEV blockno = some x), ← Option.ne_none_iff_exists',
      ne_eq, bget_panics h.cache, hcard, Ne, Finset.eq_univ_iff_forall]
    simp only [refcnt_iff h]
    rw [not_and_or, not_forall_not]
  refine ⟨hiff, fun hroom => hiff.mpr (.inr ?_)⟩
  exact (card_le_load (r.state k).log (r.state k).hold).trans_lt hroom

theorem bget_finds_shared : ∃ r : Run State.step State.init, (r.state 5).log = [0] ∧ (r.state 5).hold 1 = [1] ∧
    ∃ b c, (r.state 5).bufs.cache.bget ROOTDEV 3 = some (b, c) := by
  have hexec : (exec State.step State.init
      [.beginOp 0, .bread 0 1, .logWrite 0 0, .brelse 0 0, .bread 1 2]).isSome = true := by decide +kernel
  obtain ⟨t, ht⟩ := Option.isSome_iff_exists.mp hexec
  obtain ⟨r, -, hev⟩ := exists_script ht
  have hload : (r.state 5).log.length + ∑ q, ((r.state 5).hold q).length = 2 :=
    script_eq hev (f := fun s => s.log.length + ∑ q, (s.hold q).length) (by decide +kernel)
  refine ⟨r, ?_, ?_, (bget_finds r 5 3).2 (hload.trans_lt (by decide))⟩
  · exact script_eq hev (f := fun s => s.log) (by decide +kernel)
  · exact script_eq hev (f := fun s => s.hold 1) (by decide +kernel)

structure Filled (s : State) (k : Nat) : Prop where
  inv : Inv s
  busy : (Finset.univ.filter fun b => s.bufs.cache.refcnt b ≠ 0).card = k
  cached : ∀ b, s.bufs.cache.dev b = ROOTDEV → s.bufs.cache.blockno b < k
  idle : ∀ q : Fin NPROC, k ≤ q.val → s.hold q = []
  one : ∀ q, (s.hold q).length ≤ 1
  log : s.log = []

theorem filled_init : Filled State.init 0 where
  inv := inv_init
  busy := by
    rw [Finset.card_eq_zero, Finset.filter_eq_empty_iff]
    intro b _
    rw [inv_init.cache.counts]
    exact not_not_intro rfl
  cached b hb := by
    rw [show State.init.bufs.cache.dev = fun _ => 0 from dev_binit] at hb
    cases hb
  idle _ _ := rfl
  one _ := Nat.zero_le 1
  log := rfl

theorem Filled.bread {k : Nat} (h : Filled s k) (hk : k < NBUF) (hp : p.val = k) :
    ∃ t, s.step (.bread p k) = some t ∧ Filled t (k + 1) := by
  have hmiss : ∀ a, ¬(s.bufs.cache.dev a = ROOTDEV ∧ s.bufs.cache.blockno a = k) := fun a ha =>
    absurd (h.cached a ha.1) (by omega)
  obtain ⟨⟨b, c⟩, hget⟩ : ∃ x, s.bufs.cache.bget ROOTDEV k = some x := by
    refine Option.ne_none_iff_exists'.mp fun hnone => ?_
    have hbusy := ((bget_panics h.inv.cache).mp hnone).2
    have hcard := h.busy
    rw [Finset.filter_true_of_mem fun b _ => hbusy b, Finset.card_univ, Fintype.card_fin] at hcard
    omega
  obtain ⟨hd, hb, -⟩ | ⟨-, hz, -, rfl⟩ := bget_cases h.inv.cache hget
  · exact absurd ⟨hd, hb⟩ (hmiss b)
  have hs : s.step (.bread p k) = some { s with
      bufs := { s.bufs with
        cache := s.bufs.cache.recycle b ROOTDEV k
        gets := BufferCache.State.add s.bufs.gets b
        clock := s.bufs.clock + 1 }
      hold := update s.hold p (b :: s.hold p) } := by
    rw [State.step, State.bread, if_pos ((h.one p).trans_lt Nat.one_lt_two), hget, Option.bind_some,
      BufferCache.State.step, hget, Option.map_some, Option.map_some]
  refine ⟨_, hs, inv_step h.inv hs, ?_, ?_, ?_, ?_, h.log⟩
  · have hset : (Finset.univ.filter fun a => (s.bufs.cache.recycle b ROOTDEV k).refcnt a ≠ 0) =
        insert b (Finset.univ.filter fun a => s.bufs.cache.refcnt a ≠ 0) := by
      ext a
      rw [Finset.mem_filter, Finset.mem_insert, Finset.mem_filter, Cache.recycle]
      by_cases ha : a = b
      · simp [ha]
      · simp [ha]
    rw [hset, Finset.card_insert_of_notMem (by simp [hz]), h.busy]
  · intro a ha
    simp only [Cache.recycle] at ha ⊢
    by_cases hab : a = b
    · rw [hab, update_self]
      exact Nat.lt_succ_self k
    · rw [update_of_ne hab] at ha ⊢
      exact Nat.lt_succ_of_lt (h.cached a ha)
  · intro q hq
    have hqp : q ≠ p := by
      rintro rfl
      omega
    simp only [update_of_ne hqp]
    exact h.idle q (by omega)
  · intro q
    by_cases hqp : q = p
    · rw [hqp]
      simp [h.idle p (by omega)]
    · simp only [update_of_ne hqp]
      exact h.one q

theorem exists_filled {k : Nat} (hk : k ≤ NBUF) :
    ∃ s, Path State.step (fun _ => True) State.init s ∧ Filled s k := by
  induction k with
  | zero => exact ⟨_, .refl trivial, filled_init⟩
  | succ k ih =>
    obtain ⟨s, hpath, hs⟩ := ih (by omega)
    have hlt : k < NPROC := by
      have : NBUF < NPROC := by decide
      omega
    obtain ⟨t, hst, ht⟩ := hs.bread (p := ⟨k, hlt⟩) (by omega) rfl
    exact ⟨t, hpath.snoc hst trivial, ht⟩

/-- Thirty processes waiting for the disk with one block each leave no buffer for the next reader, with an
empty log. -/
theorem readers_exhaust_buffers : ∃ (r : Run State.step State.init) (k : Nat), (r.state k).log = [] ∧
    (∀ q, ((r.state k).hold q).length ≤ 1) ∧ (r.state k).hold 30 = [] ∧
      (r.state k).bufs.cache.bget ROOTDEV 30 = none := by
  obtain ⟨s, hpath, hs⟩ := exists_filled (Nat.le_refl NBUF)
  obtain ⟨r, k, hr, -⟩ := hpath.exists_reached
  refine ⟨r, k, ?_⟩
  rw [hr]
  refine ⟨hs.log, hs.one, hs.idle 30 (Nat.le_refl 30), (bget_panics hs.inv.cache).mpr ⟨?_, ?_⟩⟩
  · exact fun a ha => absurd (hs.cached a ha.1) (by rw [ha.2]; exact Nat.lt_irrefl 30)
  · have hall : (Finset.univ.filter fun b => s.bufs.cache.refcnt b ≠ 0) = Finset.univ := by
      refine Finset.eq_univ_of_card _ ?_
      rw [hs.busy, Fintype.card_fin]
    intro a
    have ha := Finset.mem_univ a
    rw [← hall, Finset.mem_filter] at ha
    exact ha.2

end AdaptiveXv6.CachePressure
