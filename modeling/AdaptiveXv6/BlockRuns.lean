import AdaptiveXv6.Runs
import AdaptiveXv6.TableSteps

namespace AdaptiveXv6.BlockRuns

open Blocks Content Store Programs BlockMaps FileWrites Truncation TableSteps Runs Function

def Orphan (x : Inode) : Prop := x.type ≠ 0 ∧ x.nlink = 0

instance (x : Inode) : Decidable (Orphan x) := inferInstanceAs (Decidable (_ ∧ _))

/-- What is done to the inode i: ialloc() takes a free one, writei() and itrunc() act on one in use, and iput()
frees one without links. -/
inductive Event
  | alloc (i : Nat) (type : BitVec 16)
  | write (i : Nat) (source : Source) (src off n : Nat)
  | trunc (i : Nat)
  | free (i : Nat)

namespace Event

def inode : Event → Nat
  | .alloc i _ | .write i .. | .trunc i | .free i => i

def enabled (x : Inode) : Event → Bool
  | .alloc _ type => x.type = 0 ∧ type ≠ 0
  | .write _ _ _ off n => x.type ≠ 0 ∧ off < 2 ^ 32 ∧ n < 2 ^ 32
  | .trunc _ => x.type ≠ 0
  | .free _ => Orphan x

def body (sb : Superblock) : Event → LockedM Unit
  | .alloc i type => do
    modify fun x => { x with ip := { Inode.zero with type := type } }
    iupdate sb i
  | .write i source src off n => discard (writei sb i source src off n)
  | .trunc i => itrunc sb i
  | .free i => do
    itrunc sb i
    modify fun x => { x with ip := { x.ip with type := 0 } }
    iupdate sb i

end Event

/-- ilock() reads the inode from the disk. -/
def step (sb : Superblock) (x : Except Panic Store) (e : Event) : Option (Except Panic Store) :=
  x.toOption.bind fun d =>
    if e.inode < sb.ninodes ∧ e.enabled (dinode sb d e.inode) then
      some ((e.body sb ⟨dinode sb d e.inode, d⟩).map fun r => r.2.disk)
    else none

structure Kept (sb : Superblock) (d : Store) (i : Nat) (d' : Store) : Prop where
  valid : Valid sb (dinode sb d') d'
  others : ∀ j, j < sb.ninodes → j ≠ i → Same sb d d' j

section Calls

variable {sb : Superblock} {d : Store} {i : Nat} {e : Event}

theorem good_of_valid (hv : Valid sb (dinode sb d) d) (hi : i < sb.ninodes) (ht : (dinode sb d i).type ≠ 0) :
    Good sb i ⟨dinode sb d i, d⟩ := by
  refine ⟨?_, hi, ht⟩
  rw [fam, update_eq_self]
  exact hv

theorem kept_setDinode (hl : Layout sb) (hv : Valid sb (dinode sb d) d) (hi : i < sb.ninodes) {z : Inode}
    (hbare : ∀ s, slots sb (dinode sb d) d (i, s) = 0) (haddrs : z.addrs = fun _ => 0) (hsize : z.size = 0) :
    Kept sb d i (setDinode sb d i z) := by
  obtain ⟨hvalid, hsame, -⟩ := setDinode_bare hl hv hi hbare haddrs hsize
  exact ⟨hvalid, hsame⟩

theorem kept_free {x z : Locked} (hl : Layout sb) (hz : Truncated sb i x z) (hi : i < sb.ninodes) :
    Kept sb x.disk i (setDinode sb z.disk i { z.ip with type := 0 }) := by
  have hbare : ∀ s, slots sb (dinode sb z.disk) z.disk (i, s) = 0 := by
    intro s
    rw [slots]
    dsimp only
    rw [hz.synced, hz.ip, ptr_bare rfl, ite_self]
  have hkept := kept_setDinode (z := { z.ip with type := 0 }) hl (valid_of_synced hz.good hz.synced) hi hbare
    (by rw [hz.ip]) (by rw [hz.ip])
  exact ⟨hkept.valid, fun j hj hji => (hz.others j hj hji).trans (hkept.others j hj hji)⟩

theorem body_kept (hl : Layout sb) (hv : Valid sb (dinode sb d) d) (hi : e.inode < sb.ninodes)
    (he : e.enabled (dinode sb d e.inode) = true) : Wp (e.body sb) ⟨dinode sb d e.inode, d⟩
      (fun _ z => Kept sb d e.inode z.disk) fun _ => False := by
  cases e with
  | alloc i type =>
    refine wp_modify_bind (wp_of_ok rfl (kept_setDinode hl hv hi (fun s => ?_) rfl rfl))
    exact if_neg fun h => h.2 (of_decide_eq_true he).1
  | write i source src off n =>
    obtain ⟨ht, hoff, hn⟩ := of_decide_eq_true he
    have hdone : Wp (writei sb i source src off n) ⟨dinode sb d i, d⟩ (fun _ z => Kept sb d i z.disk)
        fun _ => False := by
      by_cases hfits : off ≤ (dinode sb d i).size.toNat ∧ off + n ≤ MAXFILE * BSIZE
      · refine (writei_spec source src hl (good_of_valid hv hi ht) hfits.1 hfits.2).imp ?_
        rintro _ z ⟨r, -, hz⟩
        exact ⟨valid_of_synced hz.good hz.synced, hz.others⟩
      · have hrefused : (dinode sb d i).size.toNat < off ∨ 2 ^ 32 ≤ off + n ∨ MAXFILE * BSIZE < off + n := by
          omega
        exact wp_of_ok (writei_refused hoff hn hrefused) ⟨hv, fun j _ _ => Same.refl sb d j⟩
    exact hdone.bind fun _ _ h => wp_pure h
  | trunc i =>
    refine (itrunc_spec hl (good_of_valid hv hi (of_decide_eq_true he))).imp fun _ z hz => ?_
    exact ⟨valid_of_synced hz.good hz.synced, hz.others⟩
  | free i =>
    refine (itrunc_spec hl (good_of_valid hv hi (of_decide_eq_true he).1)).bind fun _ z hz => ?_
    exact wp_modify_bind (wp_of_ok rfl (kept_free hl hz hi))

theorem step_kept {y : Except Panic Store} (hl : Layout sb) (hv : Valid sb (dinode sb d) d)
    (hs : step sb (.ok d) e = some y) : ∃ d', y = .ok d' ∧ Kept sb d e.inode d' := by
  obtain ⟨⟨hi, he⟩, hs⟩ := Option.ite_none_right_eq_some.mp hs
  obtain ⟨a, z, hrun, hk⟩ | ⟨_, _, hfalse⟩ := (body_kept hl hv hi he).cases
  · rw [hrun] at hs
    cases hs
    exact ⟨z.disk, rfl, hk⟩
  · exact hfalse.elim

theorem run_valid (hl : Layout sb) (hv : Valid sb (dinode sb d) d) (r : Run (step sb) (.ok d)) (k : Nat) :
    ∃ d₁, r.state k = .ok d₁ ∧ Valid sb (dinode sb d₁) d₁ := by
  refine r.always (I := fun x => ∃ d₁, x = .ok d₁ ∧ Valid sb (dinode sb d₁) d₁) ⟨d, rfl, hv⟩ ?_ k
  rintro _ e y ⟨d₁, rfl, h⟩ hs
  obtain ⟨d₂, hy, hk⟩ := step_kept hl h hs
  exact ⟨d₂, hy, hk.valid⟩

/-- Whatever is allocated, written, truncated and freed: a block belongs to at most one place of one file, the
bitmap marks just those that belong to one, and files have no holes. No call panics or touches another file. -/
theorem blocks_owned (hl : Layout sb) (hv : Valid sb (dinode sb d) d) (r : Run (step sb) (.ok d)) (k : Nat) :
    ∃ d₁, r.state k = .ok d₁ ∧ Valid sb (dinode sb d₁) d₁ ∧
      ∀ e, r.event k = some e → ∃ d₂, r.state (k + 1) = .ok d₂ ∧
        ∀ j, j < sb.ninodes → j ≠ e.inode → Same sb d₁ d₂ j := by
  obtain ⟨d₁, hd, h⟩ := run_valid hl hv r k
  refine ⟨d₁, hd, h, fun e he => ?_⟩
  have hs := r.step_of_event he
  rw [hd] at hs
  obtain ⟨d₂, hy, hk⟩ := step_kept hl h hs
  exact ⟨d₂, hy, hk.others⟩

end Calls

/-- A disk with four inodes, none of them in use. -/
def smallSuperblock : Superblock := ⟨0, 6, 2, 4, 0, 2, 2, 3⟩

def smallDisk : Store := ⟨fun b k => if b = 3 ∧ k = 0 then 15 else 0, []⟩

theorem small_layout : Layout smallSuperblock := ⟨by decide, by decide, by decide, by decide, by decide⟩

theorem small_slots (a : Nat × Nat) : slots smallSuperblock (dinode smallSuperblock smallDisk) smallDisk a = 0 := by
  have htype : ∀ i, i < 4 → (dinode smallSuperblock smallDisk i).type = 0 := by decide
  rw [slots, if_neg]
  rintro ⟨hi, ht⟩
  exact ht (htype a.1 hi)

theorem small_valid : Valid smallSuperblock (dinode smallSuperblock smallDisk) smallDisk := by
  have hmarks : ∀ b, b < 6 → (inUse smallSuperblock smallDisk b = true ↔ b < 4) := by decide
  refine ⟨⟨?_, ?_, ?_, ?_, ?_⟩, ?_⟩
  · exact fun a ha => absurd (small_slots a) ha
  · exact fun a ha => absurd (small_slots a) ha
  · exact fun a _ ha => absurd (small_slots a) ha
  · exact fun b hb => (hmarks b (Nat.lt_trans hb (by decide))).mpr hb
  · exact fun b hlo hhi hb => absurd ((hmarks b hhi).mp hb) (Nat.not_lt_of_le hlo)
  · intro i hi ht
    have htype : ∀ i, i < 4 → (dinode smallSuperblock smallDisk i).type = 0 := by decide
    exact absurd (htype i hi) ht

/-- A file is made, written to and freed on a disk with two data blocks. -/
theorem blocks_owned_small : ∃ (r : Run (step smallSuperblock) (.ok smallDisk)) (d : Store), r.state 3 = .ok d ∧
    Valid smallSuperblock (dinode smallSuperblock d) d ∧ inUse smallSuperblock d 4 = false := by
  have hok : ((exec (step smallSuperblock) (.ok smallDisk) [.alloc 1 2, .write 1 (.kernel fun _ => 7) 0 0 3,
      .free 1]).any fun x => x.toOption.any fun d => !inUse smallSuperblock d 4) = true := by decide +kernel
  obtain ⟨x, hx, hfree⟩ := (Option.any_eq_true _ _).mp hok
  obtain ⟨r, hr, -⟩ := exists_script hx
  obtain ⟨d, hd, hvalid, -⟩ := blocks_owned small_layout small_valid r 3
  rw [← show r.state 3 = x from hr, hd] at hfree
  exact ⟨r, d, hd, hvalid, (Bool.not_eq_true' _).mp hfree⟩

end AdaptiveXv6.BlockRuns
