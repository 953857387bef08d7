import AdaptiveXv6.BlockRuns
import AdaptiveXv6.InodeSteps

namespace AdaptiveXv6.Reclaim

open Blocks Content Store Programs BlockMaps Truncation InodeTable TableSteps InodeSteps BlockRuns Function

variable {sb : Superblock} {fs fs' : Fs} {d d' d'' : Store} {F G : Nat → Prop} {b : Nat → Block} {i k : Nat}

def ireclaimTo (sb : Superblock) (k : Nat) : FsM Unit := each (reclaim sb) (List.range' 1 k)

def ireclaim (sb : Superblock) : FsM Unit := ireclaimTo sb (sb.ninodes - 1)

/-- When fsinit() calls ireclaim(), the table has only the current directory of the first process, not read
yet. -/
def boot (b : Nat → Block) : Fs where
  disk := ⟨b, []⟩
  itable i := ⟨if i = ROOTINO then 1 else 0, false, false, Inode.zero⟩
  slots := NINODE - 1

/-- The disk after boots that ended in a crash. The log makes each turn of the loop a transaction, so a crash
leaves it between two turns. -/
inductive Interrupted (sb : Superblock) (b : Nat → Block) : (Nat → Block) → Prop
  | none : Interrupted sb b b
  | again {b' : Nat → Block} {fs : Fs} {k : Nat} (h : Interrupted sb b b') (hk : k < sb.ninodes)
      (hrun : ireclaimTo sb k (boot b') = .ok ((), fs)) : Interrupted sb b fs.disk.block

structure Reclaimed (sb : Superblock) (F : Nat → Prop) (d d' : Store) : Prop where
  valid : Valid sb (dinode sb d') d'
  freed : ∀ i, i < sb.ninodes → F i → Orphan (dinode sb d i) → (dinode sb d' i).type = 0
  kept : ∀ i, i < sb.ninodes → ¬(F i ∧ Orphan (dinode sb d i)) → Same sb d d' i

namespace Reclaimed

theorem refl (h : Valid sb (dinode sb d) d) (hF : ∀ i, i < sb.ninodes → F i → ¬Orphan (dinode sb d i)) :
    Reclaimed sb F d d :=
  ⟨h, fun i hi hFi ho => absurd ho (hF i hi hFi), fun i _ _ => Same.refl sb d i⟩

variable (h : Reclaimed sb F d d')

include h

theorem trans (h' : Reclaimed sb G d' d'') : Reclaimed sb (fun i => F i ∨ G i) d d'' := by
  refine ⟨h'.valid, ?_, ?_⟩
  · intro i hi hFG ho
    by_cases hF : F i
    · have hfree := h.freed i hi hF ho
      have hsame := h'.kept i hi fun hG => hG.2.1 hfree
      rw [hsame.dinode, hfree]
    · have hsame := h.kept i hi fun hc => hF hc.1
      exact h'.freed i hi (hFG.resolve_left hF) (by rw [hsame.dinode]; exact ho)
  · intro i hi hnot
    have hsame := h.kept i hi fun hc => hnot ⟨.inl hc.1, hc.2⟩
    refine hsame.trans (h'.kept i hi fun hc => hnot ⟨.inr hc.1, ?_⟩)
    rw [← hsame.dinode]
    exact hc.2

theorem mono (hFG : ∀ i, F i ↔ G i) : Reclaimed sb G d d' := by
  obtain rfl : F = G := funext fun i => propext (hFG i)
  exact h

theorem clear (hi : i < sb.ninodes) (hF : F i) : ¬Orphan (dinode sb d' i) := by
  intro ho
  by_cases hd : Orphan (dinode sb d i)
  · exact ho.1 (h.freed i hi hF hd)
  · rw [(h.kept i hi fun hc => hd hc.2).dinode] at ho
    exact hd ho

theorem blocks (hv : Valid sb (dinode sb d) d) (hi : i < sb.ninodes) (hF : F i)
    (ho : Orphan (dinode sb d i)) {s : Nat} (hs : ptr (dinode sb d i) d s ≠ 0) :
    inUse sb d' (ptr (dinode sb d i) d s) = false := by
  obtain ⟨hlo, hhi⟩ := hv.range hi ho.1 hs
  by_contra huse
  -- some inode would have the block, one that had it before
  obtain ⟨⟨j, r⟩, hjr⟩ := h.valid.held.tight _ hlo hhi (by simpa using huse)
  have hj : j < sb.ninodes ∧ (dinode sb d' j).type ≠ 0 := by
    by_contra hn
    rw [slots, if_neg hn] at hjr
    exact hs hjr.symm
  rw [slots_eq hj.1 hj.2] at hjr
  have hsame : Same sb d d' j := h.kept j hj.1 fun hc => hj.2 (h.freed j hj.1 hc.1 hc.2)
  have ht : (dinode sb d j).type ≠ 0 := by
    rw [← hsame.dinode]
    exact hj.2
  rw [hsame.dinode, hsame.ptr ht] at hjr
  obtain ⟨rfl, -⟩ := hv.ptr_inj hi ho.1 hj.1 ht hs hjr.symm
  exact hj.2 (h.freed i hi hF ho)

end Reclaimed

structure Ready (sb : Superblock) (fs : Fs) : Prop where
  valid : Valid sb (dinode sb fs.disk) fs.disk
  root : ¬Orphan (dinode sb fs.disk ROOTINO)
  slots : fs.slots = NINODE - 1
  table : ∀ i, i ≠ ROOTINO → (fs.itable i).ref = 0

theorem reclaim_kept (h : ¬Orphan (dinode sb fs.disk i)) : reclaim sb i fs = .ok ((), fs) := by
  unfold reclaim
  change (ite ((dinode sb fs.disk i).type ≠ 0 ∧ (dinode sb fs.disk i).nlink = 0) _ _ : FsM Unit) fs = _
  rw [if_neg (show ¬((dinode sb fs.disk i).type ≠ 0 ∧ (dinode sb fs.disk i).nlink = 0) from h)]
  rfl

def opened (sb : Superblock) (fs : Fs) (i : Nat) : Fs :=
  { fs.setEntry i ⟨1, true, false, dinode sb fs.disk i⟩ with slots := fs.slots - 1 }

theorem reclaim_orphan {Q : Unit → Fs → Prop} {E : Panic → Prop} (h : Orphan (dinode sb fs.disk i))
    (hr : (fs.itable i).ref = 0) (hs : fs.slots ≠ 0) (hw : Wp (do ifree sb i; unref i) (opened sb fs i) Q E) :
    Wp (reclaim sb i) fs Q E := by
  have hget : iget i fs =
      .ok ((), { fs.setEntry i ⟨1, false, false, (fs.itable i).ip⟩ with slots := fs.slots - 1 }) := by
    rw [iget, if_neg (by omega), if_neg hs]
  have hlock : ilock sb i { fs.setEntry i ⟨1, false, false, (fs.itable i).ip⟩ with slots := fs.slots - 1 } =
      .ok ((), { fs.setEntry i ⟨1, true, true, dinode sb fs.disk i⟩ with slots := fs.slots - 1 }) := by
    have htype : ¬(dinode sb fs.disk i).type = 0#16 := h.1
    simp [ilock, Fs.setEntry, htype]
  have hunlock : iunlock i { fs.setEntry i ⟨1, true, true, dinode sb fs.disk i⟩ with slots := fs.slots - 1 } =
      .ok ((), opened sb fs i) := by
    simp [iunlock, Fs.setEntry, opened]
  have hself : (opened sb fs i).itable i = ⟨1, true, false, dinode sb fs.disk i⟩ := update_self ..
  unfold reclaim
  refine wp_get_bind ?_
  rw [if_pos (show (dinode sb fs.disk i).type ≠ 0 ∧ (dinode sb fs.disk i).nlink = 0 from h)]
  refine wp_bind (wp_of_ok hget (wp_bind (wp_of_ok hlock (wp_bind (wp_of_ok hunlock ?_)))))
  rw [iput]
  refine wp_get_bind ?_
  dsimp only
  rw [hself, if_pos ⟨rfl, rfl, h.2⟩, if_neg Bool.false_ne_true]
  exact hw

theorem reclaim_spec (hl : Layout sb) (h : Ready sb fs) (hi : i < sb.ninodes) : Wp (reclaim sb i) fs
    (fun _ fs' => Ready sb fs' ∧ Reclaimed sb (fun j => j = i) fs.disk fs'.disk ∧ Logs fs.disk fs'.disk) fun _ => False := by
  by_cases ho : Orphan (dinode sb fs.disk i)
  · have hroot : i ≠ ROOTINO := by
      rintro rfl
      exact h.root ho
    have hslots := h.slots
    have hself : (opened sb fs i).itable i = ⟨1, true, false, dinode sb fs.disk i⟩ := update_self ..
    have hother : ∀ j, j ≠ i → (opened sb fs i).itable j = fs.itable j := fun j hj => update_of_ne hj ..
    have hgood : Good sb i (lockedInode (opened sb fs i) i) := by
      refine ⟨?_, hi, ?_⟩
      · rw [lockedInode, hself, fam]
        change Valid sb (update (dinode sb fs.disk) i (dinode sb fs.disk i)) fs.disk
        rw [update_eq_self]
        exact h.valid
      · rw [lockedInode, hself]
        exact ho.1
    refine reclaim_orphan ho (h.table i hroot) (by rw [hslots]; decide) ?_
    refine (ifree_run hl hgood (by rw [hself])).imp fun _ fs' hf => ⟨⟨hf.valid, ?_, ?_, ?_⟩, ⟨hf.valid, ?_, ?_⟩, hf.logs⟩
    · rw [(hf.others ROOTINO hl.root (Ne.symm hroot)).dinode]
      exact h.root
    · rw [hf.slots]
      change fs.slots - 1 + 1 = NINODE - 1
      rw [hslots]
      rfl
    · intro j hj
      obtain ⟨w, hw⟩ := hf.table
      rw [hw]
      by_cases hji : j = i
      · rw [hji, update_self]
      · rw [update_of_ne hji, hother j hji]
        exact h.table j hj
    · rintro j - rfl -
      exact hf.type
    · intro j hj hnot
      by_cases hji : j = i
      · rw [hji] at hnot
        exact absurd ⟨rfl, ho⟩ hnot
      · exact hf.others j hj hji
  · refine wp_of_ok (reclaim_kept ho) ⟨h, Reclaimed.refl h.valid ?_, Logs.refl _⟩
    rintro j - rfl
    exact ho

theorem ireclaimTo_spec (hl : Layout sb) (h : Ready sb fs) (hk : k < sb.ninodes) : Wp (ireclaimTo sb k) fs
    (fun _ fs' => Ready sb fs' ∧ Reclaimed sb (fun j => 0 < j ∧ j < 1 + k) fs.disk fs'.disk) fun _ => False := by
  refine Wp.imp (each_range' (I := fun k fs' =>
    0 < k ∧ Ready sb fs' ∧ Reclaimed sb (fun j => 0 < j ∧ j < k) fs.disk fs'.disk) ?_ rfl ?_) fun _ _ hf => hf.2
  · rintro j fs₁ hj ⟨hpos, hready, hrec⟩
    refine (reclaim_spec hl hready (by omega)).imp fun _ fs₂ hf => ⟨j.succ_pos, hf.1, (hrec.trans hf.2.1).mono fun l => ?_⟩
    omega
  · exact ⟨Nat.one_pos, h, Reclaimed.refl h.valid fun j _ hj => by omega⟩

theorem ready_boot (hv : Valid sb (dinode sb ⟨b, []⟩) ⟨b, []⟩) (hroot : ¬Orphan (dinode sb ⟨b, []⟩ ROOTINO)) :
    Ready sb (boot b) :=
  ⟨hv, hroot, rfl, fun _ hi => if_neg hi⟩

theorem reclaimed_restart (h : Reclaimed sb F d d') : Reclaimed sb F d ⟨d'.block, []⟩ :=
  ⟨⟨h.valid.held, h.valid.filled⟩, h.freed, fun i hi hnot => ⟨(h.kept i hi hnot).dinode, (h.kept i hi hnot).ptr,
    (h.kept i hi hnot).content⟩⟩

theorem interrupted_reclaimed {b' : Nat → Block} (hl : Layout sb) (hv : Valid sb (dinode sb ⟨b, []⟩) ⟨b, []⟩)
    (hroot : ¬Orphan (dinode sb ⟨b, []⟩ ROOTINO)) (h : Interrupted sb b b') :
    ∃ k, k ≤ sb.ninodes ∧ Reclaimed sb (fun j => 0 < j ∧ j < k) ⟨b, []⟩ ⟨b', []⟩ ∧
      ¬Orphan (dinode sb ⟨b', []⟩ ROOTINO) := by
  induction h with
  | none => exact ⟨0, Nat.zero_le _, Reclaimed.refl hv fun j _ hj => by omega, hroot⟩
  | @again b₁ fs₁ k₂ h hk hrun ih =>
    obtain ⟨k₁, hk₁, hrec, hroot₁⟩ := ih
    obtain ⟨hready, hrec'⟩ := (ireclaimTo_spec hl (ready_boot hrec.valid hroot₁) hk).of_ok hrun
    refine ⟨max k₁ (1 + k₂), ?_, (hrec.trans (reclaimed_restart hrec')).mono ?_, hready.root⟩
    · exact Nat.max_le.mpr ⟨hk₁, by omega⟩
    · intro j
      omega

theorem ireclaimTo_idle (h : ∀ i, 0 < i → i < sb.ninodes → ¬Orphan (dinode sb fs.disk i)) (hk : k < sb.ninodes) :
    ireclaimTo sb k fs = .ok ((), fs) := by
  have hloop : ∀ m j, 0 < j → j + m ≤ sb.ninodes → each (reclaim sb) (List.range' j m) fs = .ok ((), fs) := by
    intro m
    induction m with
    | zero => exact fun j _ _ => rfl
    | succ m ih =>
      intro j hj hle
      rw [List.range'_succ, each]
      change ((reclaim sb j fs).bind fun r => each (reclaim sb) (List.range' (j + 1) m) r.2) = _
      rw [reclaim_kept (h j hj (by omega))]
      exact ih (j + 1) (by omega) (by omega)
  exact hloop k 1 Nat.one_pos (by omega)

/-- After any number of interrupted boots ireclaim() ends without a panic, no inode in use is without a link,
the blocks of those that were are free, and the others are as before. -/
theorem orphans_reclaimed {b' : Nat → Block} (hl : Layout sb) (hv : Valid sb (dinode sb ⟨b, []⟩) ⟨b, []⟩)
    (hroot : ¬Orphan (dinode sb ⟨b, []⟩ ROOTINO)) (h : Interrupted sb b b') : Wp (ireclaim sb) (boot b')
      (fun _ fs => (∀ i, 0 < i → i < sb.ninodes → ¬Orphan (dinode sb fs.disk i)) ∧
        (∀ i, 0 < i → i < sb.ninodes → Orphan (dinode sb ⟨b, []⟩ i) → (dinode sb fs.disk i).type = 0 ∧
          ∀ s, ptr (dinode sb ⟨b, []⟩ i) ⟨b, []⟩ s ≠ 0 →
            inUse sb fs.disk (ptr (dinode sb ⟨b, []⟩ i) ⟨b, []⟩ s) = false) ∧
        (∀ i, i < sb.ninodes → i = 0 ∨ ¬Orphan (dinode sb ⟨b, []⟩ i) → Same sb ⟨b, []⟩ fs.disk i) ∧
        Valid sb (dinode sb fs.disk) fs.disk ∧ ireclaim sb fs = .ok ((), fs)) fun _ => False := by
  obtain ⟨k, hk, hrec, hroot'⟩ := interrupted_reclaimed hl hv hroot h
  have hn : sb.ninodes - 1 < sb.ninodes := by
    have := hl.root
    omega
  refine (ireclaimTo_spec hl (ready_boot hrec.valid hroot') hn).imp fun _ fs hf => ?_
  have hall : Reclaimed sb (fun j => 0 < j ∧ j < sb.ninodes) ⟨b, []⟩ fs.disk := by
    refine (hrec.trans hf.2).mono fun j => ?_
    omega
  have hclear : ∀ i, 0 < i → i < sb.ninodes → ¬Orphan (dinode sb fs.disk i) := fun i h₀ hi => hall.clear hi ⟨h₀, hi⟩
  refine ⟨hclear, ?_, ?_, hall.valid, ireclaimTo_idle hclear hn⟩
  · intro i h₀ hi ho
    exact ⟨hall.freed i hi ⟨h₀, hi⟩ ho, fun s hs => hall.blocks hv hi ⟨h₀, hi⟩ ho hs⟩
  · intro i hi hc
    refine hall.kept i hi fun hno => ?_
    rcases hc with rfl | hc
    · exact absurd hno.1.1 (Nat.lt_irrefl 0)
    · exact hc hno.2

/-- The blocks after a script on the small disk. -/
def made (es : List Event) : Option (Nat → Block) :=
  (Runs.exec (step smallSuperblock) (.ok smallDisk) es).bind fun x => x.toOption.map Store.block

theorem made_valid {es : List Event} (h : made es = some b) :
    Valid smallSuperblock (dinode smallSuperblock ⟨b, []⟩) ⟨b, []⟩ := by
  obtain ⟨x, hx, hb⟩ := Option.bind_eq_some_iff.mp h
  obtain ⟨r, hr, -⟩ := Runs.exists_script hx
  obtain ⟨d, hd, hvalid⟩ := run_valid small_layout small_valid r es.length
  rw [← hr, hd] at hb
  cases hb
  exact ⟨hvalid.held, hvalid.filled⟩

/-- Two files without links that have a block each. -/
def orphans : List Event :=
  [.alloc 2 2, .write 2 (.kernel fun _ => 7) 0 0 3, .alloc 3 2, .write 3 (.kernel fun _ => 7) 0 0 3]

/-- The first boot crashes when it has freed the first file. -/
theorem orphans_reclaimed_small : ∃ (b b' : Nat → Block) (fs : Fs), made orphans = some b ∧
    Interrupted smallSuperblock b b' ∧ ireclaim smallSuperblock (boot b') = .ok ((), fs) ∧
    ∀ i ∈ [2, 3], Orphan (dinode smallSuperblock ⟨b, []⟩ i) ∧ inUse smallSuperblock ⟨b, []⟩ (i + 2) = true ∧
      (Orphan (dinode smallSuperblock ⟨b', []⟩ i) ↔ i = 3) ∧ inUse smallSuperblock fs.disk (i + 2) = false := by
  have hev : ((made orphans).any fun b => decide (¬Orphan (dinode smallSuperblock ⟨b, []⟩ ROOTINO)) &&
      ([2, 3].all fun i => decide (Orphan (dinode smallSuperblock ⟨b, []⟩ i) ∧
        inUse smallSuperblock ⟨b, []⟩ (i + 2) = true ∧ ptr (dinode smallSuperblock ⟨b, []⟩ i) ⟨b, []⟩ 0 = i + 2)) &&
      (ireclaimTo smallSuperblock 2 (boot b)).toOption.any fun r => [2, 3].all fun i =>
        decide (Orphan (dinode smallSuperblock ⟨r.2.disk.block, []⟩ i) ↔ i = 3)) = true := by decide +kernel
  obtain ⟨b, hb, hall⟩ := (Option.any_eq_true _ _).mp hev
  simp only [Bool.and_eq_true, List.all_eq_true, decide_eq_true_eq] at hall
  obtain ⟨⟨hroot, hfiles⟩, hcrash⟩ := hall
  obtain ⟨⟨⟨⟩, fs₁⟩, hrun, hleft⟩ := ok_of_any hcrash
  have hint : Interrupted smallSuperblock b fs₁.disk.block := .again .none (by decide) hrun
  rcases (orphans_reclaimed small_layout (made_valid hb) hroot hint).cases with
    ⟨_, fs, hdone, -, hfreed, -⟩ | ⟨_, -, hf⟩
  · refine ⟨b, fs₁.disk.block, fs, hb, hint, hdone, fun i hi => ?_⟩
    have hrange : ∀ i ∈ [2, 3], 0 < i ∧ i < smallSuperblock.ninodes := by decide
    obtain ⟨ho, huse, hptr⟩ := hfiles i hi
    have hfree := (hfreed i (hrange i hi).1 (hrange i hi).2 ho).2 0 (by rw [hptr]; omega)
    rw [hptr] at hfree
    exact ⟨ho, huse, of_decide_eq_true (List.all_eq_true.mp hleft i hi), hfree⟩
  · exact hf.elim

/-- The root directory is in use by the first process: without a link it stays as it is. -/
theorem root_not_reclaimed : Layout smallSuperblock ∧ ∃ b,
    Valid smallSuperblock (dinode smallSuperblock ⟨b, []⟩) ⟨b, []⟩ ∧
      ∃ fs, ireclaim smallSuperblock (boot b) = .ok ((), fs) ∧ Orphan (dinode smallSuperblock fs.disk ROOTINO) := by
  have hev : ((made [.alloc ROOTINO 1]).any fun b => (ireclaim smallSuperblock (boot b)).toOption.any fun r =>
      decide (Orphan (dinode smallSuperblock r.2.disk ROOTINO))) = true := by
    decide +kernel
  obtain ⟨b, hb, hrun⟩ := (Option.any_eq_true _ _).mp hev
  obtain ⟨⟨⟨⟩, fs⟩, hrun, ho⟩ := ok_of_any hrun
  exact ⟨small_layout, b, made_valid hb, fs, hrun, of_decide_eq_true ho⟩

end AdaptiveXv6.Reclaim
