import AdaptiveXv6.Buffers
import AdaptiveXv6.ByteArrays

namespace AdaptiveXv6.ExactWrites

open MemLayout Bytes Blocks Content Programs BlockMaps FileReads FileWrites ByteArrays

variable {sb : Superblock} {x z : Locked} {source : Source} {i n off src : Nat}

/-- If u is the first byte that cannot be read, the bytes of its block before it are in the file already. -/
def Untorn (source : Source) (src off n : Nat) (x : Locked) : Prop :=
  ∀ u, u < n → Source.Readable source src u → ¬Source.Readable source (src + u) 1 →
    ∀ k, off ≤ k → (off + u) / BSIZE * BSIZE ≤ k → k < off + u → k < x.ip.size.toNat →
      source.mem (src + (k - off)) = content x.ip x.disk k

def Exactly (source : Source) (src off r : Nat) (x z : Locked) : Prop :=
  ∀ k, content z.ip z.disk k =
    if off ≤ k ∧ k < off + r then source.mem (src + (k - off)) else content x.ip x.disk k

/-- Later reads find r bytes of the source at off, and everything else as before. -/
structure ChangesExactly (sb : Superblock) (i : Nat) (source : Source) (src off r : Nat) (x z : Locked) : Prop where
  size : z.ip.size.toNat = max x.ip.size.toNat (off + r)
  others : ∀ j, j < sb.ninodes → j ≠ i → Same sb x.disk z.disk j
  reads : ∀ dst off' n', off' + n' < 2 ^ 32 →
    ∃ ws, readi sb .kernel dst off' n' z = .ok ((ws, (min (off' + n') z.ip.size.toNat - off' : Nat)), z) ∧
      ∀ mem k, dst ≤ k → k < dst + (min (off' + n') z.ip.size.toNat - off') →
        stores mem ws k = if off ≤ off' + (k - dst) ∧ off' + (k - dst) < off + r then
          source.mem (src + (off' + (k - dst) - off)) else content x.ip x.disk (off' + (k - dst))

theorem readi_kernel (hl : Layout sb) (h : Good sb i z) (dst : Nat) {off' n' : Nat} (hoff : off' + n' < 2 ^ 32) :
    ∃ ws, readi sb .kernel dst off' n' z = .ok ((ws, (min (off' + n') z.ip.size.toNat - off' : Nat)), z) ∧
      ∀ mem k, dst ≤ k → k < dst + (min (off' + n') z.ip.size.toNat - off') →
        stores mem ws k = content z.ip z.disk (off' + (k - dst)) := by
  have hr := readi_spec hl h .kernel dst (show off' < 2 ^ 32 by omega) (show n' < 2 ^ 32 by omega)
  rw [Wp] at hr
  split at hr
  · rename_i r y heq
    obtain ⟨rfl, hr⟩ := hr
    obtain ⟨hlen, hst⟩ := hr hoff trivial
    refine ⟨r.1, by rw [heq, ← hlen], ?_⟩
    intro mem k hk hk'
    rw [hst mem, delivered, store_image, if_pos ⟨hk, hk'⟩]
  · exact hr.elim

theorem changesExactly_iff {r : Nat} (hl : Layout sb) (hz : WriteDone sb i source src off n x r z) :
    ChangesExactly sb i source src off r x z ↔ ∀ k, k < z.ip.size.toNat → content z.ip z.disk k =
      if off ≤ k ∧ k < off + r then source.mem (src + (k - off)) else content x.ip x.disk k := by
  refine ⟨fun h k hk => ?_, fun h => ⟨hz.size, hz.others, fun dst off' n' hoff => ?_⟩⟩
  · have hlt : k + 1 < 2 ^ 32 := Nat.lt_of_le_of_lt hk z.ip.size.isLt
    obtain ⟨ws, hws, hst⟩ := h.reads 0 k 1 hlt
    obtain ⟨ws', hws', hst'⟩ := readi_kernel hl hz.good 0 hlt
    rw [hws] at hws'
    cases hws'
    have hone : 0 < 0 + (min (k + 1) z.ip.size.toNat - k) := by omega
    exact (hst' (fun _ => 0) 0 (Nat.le_refl 0) hone).symm.trans (hst (fun _ => 0) 0 (Nat.le_refl 0) hone)
  · obtain ⟨ws, hws, hst⟩ := readi_kernel hl hz.good dst hoff
    refine ⟨ws, hws, fun mem k hk hk' => ?_⟩
    rw [hst mem k hk hk', h _ (by omega)]

theorem readable_le {u v : Nat} (h : Source.Readable source src u) (h' : ¬Source.Readable source (src + v) 1) :
    u ≤ v :=
  Nat.not_lt.mp fun hlt => h' (h.sub (Nat.le_add_right ..) (by omega))

/-- Bytes that a failing copy has left lie behind those written and in the block of the unreadable byte. -/
theorem torn_range {r c k : Nat} (haligned : r = 0 ∨ (off + r) % BSIZE = 0) (hc : c < chunk n off r) :
    off ≤ k ∧ (off + (r + c)) / BSIZE * BSIZE ≤ k ↔ off + r ≤ k := by
  rw [chunk] at hc
  simp only [BSIZE] at *
  omega

theorem untorn_of_missing {r : Nat} (h : Good sb i x) (hread : Source.Readable source src r)
    (hmiss : r < n → blockAt x.ip x.disk ((off + r) / BSIZE) = 0) : Untorn source src off n x := by
  intro u hu hru hnu k hk hblock hku hsize
  have hle := readable_le hread hnu
  -- the block of the first byte not written is missing, so the file ends before it
  have hend : ¬(off + r) / BSIZE * BSIZE < x.ip.size.toNat := fun hlt => h.filled hlt (hmiss (by omega))
  have hmono : (off + r) / BSIZE * BSIZE ≤ (off + u) / BSIZE * BSIZE :=
    Nat.mul_le_mul_right _ (Nat.div_le_div_right (by omega))
  omega

theorem untorn_iff_of_torn {r c : Nat} (hr : Source.Readable source src r)
    (hc : Source.Readable source (src + r) c) (hfail : ¬Source.Readable source (src + r + c) 1) (hlt : r + c < n)
    (haligned : r = 0 ∨ (off + r) % BSIZE = 0) (hchunk : c < chunk n off r) :
    Untorn source src off n x ↔ ∀ k, off + r ≤ k → k < off + r + c → k < x.ip.size.toNat →
      source.mem (src + (k - off)) = content x.ip x.disk k := by
  have hrc := hr.append hc
  rw [Nat.add_assoc] at hfail
  constructor
  · intro h k hk hk' hsize
    obtain ⟨hoff, hblock⟩ := (torn_range haligned hchunk).mpr hk
    exact h (r + c) hlt hrc hfail k hoff hblock (by omega) hsize
  · intro h u hu hru hnu k hoff hblock hku hsize
    obtain rfl : u = r + c := Nat.le_antisymm (readable_le hru hfail) (readable_le hrc hnu)
    exact h k ((torn_range haligned hchunk).mp ⟨hoff, hblock⟩) (by omega) hsize

theorem changesExactly_iff_untorn {r : Nat} (hl : Layout sb) (h : Good sb i x)
    (hz : WriteDone sb i source src off n x r z) :
    ChangesExactly sb i source src off r x z ↔ Untorn source src off n x := by
  rw [changesExactly_iff hl hz]
  obtain ⟨c, hc, hcont⟩ := hz.content
  rcases hc with ⟨rfl, hmiss⟩ | ⟨hfail, hc⟩
  · exact iff_of_true (fun k _ => hcont k) (untorn_of_missing h hz.read hmiss)
  · obtain ⟨hread, -, hbad⟩ := eitherCopyin_spec source (src + r) (chunk n off r)
    rw [← hc] at hread hbad
    obtain ⟨hlt, hbad⟩ := hbad hfail
    have hlt' : r + c < n := by
      rw [chunk] at hlt
      omega
    rw [untorn_iff_of_torn hz.read hread hbad hlt' (hz.aligned (by omega)) hlt]
    refine ⟨fun hexact k hk hk' hsize => ?_, fun huntorn k hk => ?_⟩
    · have hold := hexact k (by rw [hz.size]; omega)
      rwa [hcont, if_pos (by omega), if_neg (by omega)] at hold
    · rw [hcont]
      rw [hz.size] at hk
      by_cases hin : off + r ≤ k ∧ k < off + r + c
      · rw [if_pos (by omega), if_neg (by omega)]
        exact huntorn k hin.1 hin.2 (by omega)
      · exact if_congr (by omega) rfl rfl

/-- A write changes exactly what it reports just if no copy leaves bytes of its last block behind, and buffers
outside of the log agree with the disk when no failing copy has changed one. -/
theorem exact_writes {ι : Type} [DecidableEq ι] {start : Nat} {disk : LogDisk.Disk} (hl : Layout sb)
    (h : Good sb i x) (hoff : off < 2 ^ 32) (hn : n < 2 ^ 32) (run : Buffers.Run ι start disk)
    (hhome : ∀ k p b v, run.event k = some (.log (.logWrite p b v)) → LogDisk.Home start b)
    (hcopy : ∀ k p b v, run.event k = some (.copyFails p b v) → v = Buffers.held (run.state k) b) :
    (∀ a z, writei sb i source src off n x = .ok (a, z) → 0 ≤ a →
      (ChangesExactly sb i source src off a.toNat x z ↔ Untorn source src off n x)) ∧
    ∀ k m b, LogWaiters.Counted (run.state k) m → b ∉ (run.state k).log.lh.take m →
      Buffers.Matches (run.state k) b := by
  refine ⟨?_, ?_⟩
  · intro a z hw ha
    by_cases hrefused : x.ip.size.toNat < off ∨ 2 ^ 32 ≤ off + n ∨ MAXFILE * BSIZE < off + n
    · rw [writei_refused hoff hn hrefused] at hw
      cases hw
      exact absurd ha (by decide)
    · obtain ⟨r, rfl, hz⟩ := (writei_spec source src hl h (show off ≤ x.ip.size.toNat by omega)
        (show off + n ≤ MAXFILE * BSIZE by omega)).of_ok hw
      exact changesExactly_iff_untorn hl h hz
  · intro k m b hm hb
    exact (Buffers.run_coherent run hhome hcopy k).agrees hm hb

/-- A source of which only the first page is there. -/
def torn : Source := .user (fun va => va == 0) fun _ => 7

def failing (p : Fin 1) : List (Buffers.Event (Fin 1)) := [.log .boot, .log .recoverWrite, .log .recovered,
  .log (.call p), .log (.beginOp p), .log (.logWrite p 5 fun _ => 7), .bread 6, .copyFails p 6 fun _ => 0]

theorem untorn_short : Untorn torn 3072 2 1026 tiny := by
  intro u _ _ hbad k _ hblock _ hsize
  have hu : 1024 ≤ u := by
    by_contra hu
    refine hbad fun a _ ha => beq_iff_eq.mpr ?_
    rw [Nat.div_eq_of_lt (show a < PGSIZE by rw [PGSIZE]; omega), Nat.zero_mul]
  have hsize' : k < 2 := hsize
  rw [BSIZE] at hblock
  omega

/-- The first 1022 bytes fill the block of the file; the copy for the next one fails after two bytes. -/
theorem exact_writes_short : ∃ (z : Locked) (run : Buffers.Run (Fin 1) 1000 fun _ _ => 0),
    writei tinySuperblock 1 torn 3072 2 1026 tiny = .ok (1022, z) ∧
      ChangesExactly tinySuperblock 1 torn 3072 2 1022 tiny z ∧
    (run.state 8).log.lh = [5] ∧ (run.state 8).cache 6 = some (fun _ => 0) ∧ Buffers.Matches (run.state 8) 6 := by
  obtain ⟨t, ht⟩ : ∃ t, Runs.exec (Buffers.step 1000) (LogSystem.off fun _ _ => 0) (failing 0) = some t := ⟨_, rfl⟩
  obtain ⟨run, -, hev⟩ := Runs.exists_script ht
  have hlog : (run.state 8).log.lh = [5] := Runs.script_eq hev (f := fun s => s.log.lh) rfl
  have hcache : (run.state 8).cache 6 = some (fun _ => 0) := Runs.script_eq hev (f := fun s => s.cache 6) rfl
  have hheld : Buffers.held (run.state 7) 6 = fun _ => 0 :=
    Runs.script_eq hev (f := fun s => Buffers.held s 6) rfl
  have h := @exact_writes tinySuperblock tiny torn 1 1026 2 3072 _ _ _ _ tiny_layout tiny_good (by decide)
    (by decide) run ?_ ?_
  · refine ⟨_, run, rfl, (h.1 1022 _ rfl (by decide)).mpr untorn_short, hlog, hcache, ?_⟩
    exact h.2 8 1 6 (.inl (by rw [hlog]; rfl)) (by rw [hlog]; decide)
  · intro k p b v hk
    have hmem := List.mem_of_getElem? ((hev k).symm.trans hk)
    obtain ⟨-, rfl, -⟩ : p = 0 ∧ b = 5 ∧ v = fun _ => 7 := by simpa [failing] using hmem
    exact ⟨by decide, .inl (by decide)⟩
  · intro k p b v hk
    have hk' : (failing 0)[k]? = some (.copyFails p b v) := (hev k).symm.trans hk
    obtain ⟨rfl, rfl, rfl⟩ : k = 7 ∧ b = 6 ∧ v = fun _ => 0 := by
      rcases k with _ | _ | _ | _ | _ | _ | _ | _ | k <;> cases hk'
      exact ⟨rfl, rfl, rfl⟩
    exact hheld.symm

/-- The byte before the missing page is in the file although writei() reports none, and a buffer outside of the
log differs from the disk. -/
theorem torn_write :
    (∃ z ws, writei tinySuperblock 1 torn 4095 0 2 tiny = .ok (0, z) ∧
      readi tinySuperblock .kernel 0 0 1 z = .ok ((ws, 1), z) ∧ stores (fun _ => 0) ws 0 = 7 ∧
      content tiny.ip tiny.disk 0 = 0) ∧
    ∃ (run : Buffers.Run (Fin 1) 1000 fun _ _ => 0) (k : Nat), (run.state k).log.lh = [] ∧
      ¬Buffers.Matches (run.state k) 5 := by
  refine ⟨⟨_, _, rfl, rfl, rfl, rfl⟩, ?_⟩
  let es : List (Buffers.Event (Fin 1)) := [.log .boot, .log .recoverWrite, .log .recovered, .log (.call 0),
    .log (.beginOp 0), .copyFails 0 5 fun _ => 7]
  obtain ⟨t, ht, hlh, hcache, hdisk⟩ : ∃ t, Runs.exec (Buffers.step 1000) (LogSystem.off fun _ _ => 0) es = some t ∧
      t.log.lh = [] ∧ t.cache 5 = some (fun _ => 7) ∧ t.disk 5 ⟨0, by decide⟩ = 0 := ⟨_, rfl, rfl, rfl, rfl⟩
  obtain ⟨run, hlast, -⟩ := Runs.exists_script ht
  refine ⟨run, es.length, by rw [hlast]; exact hlh, ?_⟩
  intro hm
  have h7 := congrFun (hm (fun _ => 7) (by rw [hlast]; exact hcache)) ⟨0, by decide⟩
  rw [hlast, hdisk] at h7
  exact absurd h7 (by decide)

end AdaptiveXv6.ExactWrites
