import AdaptiveXv6.LogCrash
import AdaptiveXv6.Reclaim

namespace AdaptiveXv6.ReclaimCrashes

open Writes Programs Blocks Content Store BlockMaps InodeTable Reclaim BlockRuns LogSystem LogCrash

abbrev Transaction := List (Nat × LogDisk.Block)

variable {sb : Superblock} {b : Nat → Block} {d : LogDisk.Disk} {start k n m : Nat} {fs : Fs} {txns : List Transaction}

def bytes (v : LogDisk.Block) : Block := fun o => piece (LogDisk.word v (o / 4)) (o % 4)

instance (start a : Nat) : Decidable (LogDisk.Home start a) := inferInstanceAs (Decidable (_ ∧ _))

/-- What is on the disk outside of the log. -/
def image (start : Nat) (d : LogDisk.Disk) : Nat → Block := fun a =>
  if LogDisk.Home start a then bytes (d a) else fun _ => 0

/-- The transaction has the blocks that were logged on the way from d to d', as d' has them. -/
def Carries (start : Nat) (txn : Transaction) (d d' : Store) : Prop :=
  ∃ L, d'.logged = L ++ d.logged ∧ (∀ a, a ∈ L → a ∈ txn.map Prod.fst) ∧
    ∀ w ∈ txn, LogDisk.Home start w.1 ∧ bytes w.2 = d'.block w.1

/-- The first turns of ireclaim() and their transactions. A turn that finds no orphan has none. -/
inductive Turns (sb : Superblock) (start : Nat) (b : Nat → Block) : Nat → List Transaction → Fs → Prop
  | start : Turns sb start b 0 [] (boot b)
  | idle {k : Nat} {txns : List Transaction} {fs : Fs} (h : Turns sb start b k txns fs)
      (ho : ¬Orphan (dinode sb fs.disk (1 + k))) : Turns sb start b (k + 1) txns fs
  | free {k : Nat} {txns : List Transaction} {txn : Transaction} {fs fs' : Fs} (h : Turns sb start b k txns fs)
      (hrun : reclaim sb (1 + k) fs = .ok ((), fs')) (ht : Carries start txn fs.disk fs'.disk) :
      Turns sb start b (k + 1) (txns ++ [txn]) fs'

namespace Turns

theorem run (h : Turns sb start b k txns fs) : ireclaimTo sb k (boot b) = .ok ((), fs) := by
  induction h with
  | start => rfl
  | idle _ ho ih =>
    rw [ireclaimTo, List.range'_1_concat]
    exact each_concat ih (reclaim_kept ho)
  | free _ hrun _ ih =>
    rw [ireclaimTo, List.range'_1_concat]
    exact each_concat ih hrun

theorem take (h : Turns sb start b k txns fs) (hm : m ≤ txns.length) :
    ∃ j fs', j ≤ k ∧ Turns sb start b j (txns.take m) fs' := by
  induction h with
  | start => exact ⟨0, _, Nat.le_refl 0, by rw [List.take_nil]; exact .start⟩
  | idle _ _ ih =>
    obtain ⟨j, fs', hj, ht⟩ := ih hm
    exact ⟨j, fs', Nat.le_succ_of_le hj, ht⟩
  | @free k txns txn fs fs' h hrun ht ih =>
    by_cases hle : m ≤ txns.length
    · obtain ⟨j, fs₁, hj, ht₁⟩ := ih hle
      exact ⟨j, fs₁, Nat.le_succ_of_le hj, by rw [List.take_append_of_le_length hle]; exact ht₁⟩
    · rw [List.take_of_length_le (by simp; omega)]
      exact ⟨k + 1, fs', Nat.le_refl _, .free h hrun ht⟩

theorem image_apply (h : Turns sb start (image start d) k txns fs) (hl : Layout sb)
    (hready : Ready sb (boot (image start d))) (hk : k < sb.ninodes) :
    image start (apply d txns.flatten) = fs.disk.block := by
  induction h with
  | start => rfl
  | idle _ _ ih => exact ih (by omega)
  | @free k txns txn fs fs' h hrun ht ih =>
    obtain ⟨hfs, -⟩ := (ireclaimTo_spec hl hready (by omega)).of_ok h.run
    obtain ⟨-, -, L, hL, hrest⟩ := (reclaim_spec hl hfs (by omega)).of_ok hrun
    obtain ⟨L', hL', hsub, hvalues⟩ := ht
    obtain rfl : L' = L := List.append_cancel_right (hL'.symm.trans hL)
    funext a
    rw [List.flatten_append, apply_append, List.flatten_singleton]
    rcases apply_cases (apply d txns.flatten) txn a with hin | ⟨hout, heq⟩
    · obtain ⟨hhome, hvalue⟩ := hvalues _ hin
      rw [image, if_pos hhome]
      exact hvalue
    · rw [hrest a fun ha => hout (hsub a ha), ← ih (by omega), image, image, heq]

end Turns

/-- A boot whose transactions are those of turns of ireclaim() crashes anywhere. The recovery leaves the disk as
it is between two turns. -/
theorem interrupted_of_crash {ι : Type} [DecidableEq ι] (r : Run ι start d) (hempty : LogDisk.getHead (d start) = [])
    (hhome : ∀ k p a v, r.event k = some (.logWrite p a v) → LogDisk.Home start a)
    (hk : r.event k = some .recovered) (hl : Layout sb) (hv : Valid sb (dinode sb ⟨b, []⟩) ⟨b, []⟩)
    (hroot : ¬Orphan (dinode sb ⟨b, []⟩ ROOTINO)) (hint : Interrupted sb b (image start (session r k).base))
    (hturns : Turns sb start (image start (session r k).base) n (session r k).begun fs) (hn : n < sb.ninodes) :
    Interrupted sb b (image start (r.state (k + 1)).disk) := by
  obtain ⟨m, -, hm, hdisk⟩ := home_recovered r hempty hhome hk
  obtain ⟨j, fs', hj, hturns'⟩ := hturns.take hm
  obtain ⟨_, -, hrec, hroot'⟩ := interrupted_reclaimed hl hv hroot hint
  have hsame : image start (r.state (k + 1)).disk = fs'.disk.block := by
    rw [← hturns'.image_apply hl (ready_boot hrec.valid hroot') (by omega)]
    funext a
    rw [image, image]
    split
    · rw [hdisk a (by assumption), after]
    · rfl
  rw [hsame]
  exact .again hint (by omega) hturns'.run

end AdaptiveXv6.ReclaimCrashes
