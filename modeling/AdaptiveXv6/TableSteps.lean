import Mathlib.Data.Finset.Card
import AdaptiveXv6.Nodes
import AdaptiveXv6.Truncation

namespace AdaptiveXv6.TableSteps

open Blocks Content Store Programs BlockMaps Allocation InodeTable Nodes Function

variable {sb : Superblock} {fs fs' : Fs} {T : Tree} {R : Nat → Nat} {t L : List Nat} {i j m : Nat}

section Load

def load (sb : Superblock) (R : Nat → Nat) : Nat := ((Finset.range sb.ninodes).filter fun i => 0 < R i).card

theorem load_congr {R' : Nat → Nat} (h : ∀ j, 0 < R' j ↔ 0 < R j) : load sb R' = load sb R := by
  rw [load, load]
  congr 1
  exact Finset.filter_congr fun j _ => h j

theorem load_succ {R S : Nat → Nat} (hi : i < sb.ninodes) (h₀ : R i = 0) (h₁ : 0 < S i)
    (h : ∀ j, j ≠ i → S j = R j) : load sb S = load sb R + 1 := by
  have hins : (Finset.range sb.ninodes).filter (fun j => 0 < S j) =
      insert i ((Finset.range sb.ninodes).filter fun j => 0 < R j) := by
    ext j
    simp only [Finset.mem_filter, Finset.mem_insert, Finset.mem_range]
    by_cases hj : j = i
    · subst hj
      simp [hi, h₁]
    · simp [hj, h j hj]
  rw [load, hins, Finset.card_insert_of_notMem (by simp [h₀]), load]

theorem load_le (sb : Superblock) (R : Nat → Nat) (t : List Nat) :
    load sb (fun j => R j + t.count j) ≤ load sb R + t.length := by
  induction t with
  | nil => simp [load]
  | cons i t ih =>
    have hsub : (Finset.range sb.ninodes).filter (fun j => 0 < R j + (i :: t).count j) ⊆
        insert i ((Finset.range sb.ninodes).filter fun j => 0 < R j + t.count j) := by
      intro j hj
      simp only [Finset.mem_filter, Finset.mem_insert, Finset.mem_range, List.count_cons] at hj ⊢
      by_cases hji : j = i
      · exact .inl hji
      · refine .inr ⟨hj.1, ?_⟩
        have hne : (i == j) = false := by simpa using fun h => hji h.symm
        simpa [hne] using hj.2
    have hcard := (Finset.card_le_card hsub).trans (Finset.card_insert_le _ _)
    rw [List.length_cons]
    exact hcard.trans (Nat.succ_le_succ ih)

end Load

structure Sound (sb : Superblock) (fs : Fs) : Prop where
  valid : Valid sb (dinode sb fs.disk) fs.disk
  synced : ∀ i, 0 < (fs.itable i).ref → (fs.itable i).valid = true →
    (fs.itable i).ip = dinode sb fs.disk i ∧ (dinode sb fs.disk i).type ≠ 0
  range : ∀ i, 0 < (fs.itable i).ref → i < sb.ninodes
  locked : ∀ i, (fs.itable i).locked = true → 0 < (fs.itable i).ref ∧ (fs.itable i).valid = true
  slots : fs.slots + load sb (fun i => (fs.itable i).ref) = NINODE

/-- A state within a system call: the file tree T, references R of others and t of the call, the inodes L that
it has locked, and at least m free blocks. Inodes without links stay read while in the table. -/
structure At (sb : Superblock) (T : Tree) (R : Nat → Nat) (t L : List Nat) (m : Nat) (fs : Fs) : Prop where
  sound : Sound sb fs
  tree : tree sb fs.disk = T
  refs : ∀ i, (fs.itable i).ref = R i + t.count i
  locks : ∀ i, (fs.itable i).locked = true ↔ i ∈ L
  awake : ∀ i n, T i = some n → n.nlink = 0 → 0 < (fs.itable i).ref → (fs.itable i).valid = true
  room : Room sb fs.disk m

/-- An inode without links has a reference. -/
def Calm (T : Tree) (R : Nat → Nat) : Prop := ∀ i n, T i = some n → n.nlink = 0 → 0 < R i

section Refs

theorem At.swap {k : Nat} (h : At sb T R (i :: k :: t) L m fs) : At sb T R (k :: i :: t) L m fs := by
  refine ⟨h.sound, h.tree, fun j => ?_, h.locks, h.awake, h.room⟩
  rw [h.refs, (List.Perm.swap k i t).count_eq]

end Refs

section Views

theorem tree_eq (hi : i < sb.ninodes) (ht : (dinode sb fs.disk i).type ≠ 0) :
    tree sb fs.disk i = some (node (dinode sb fs.disk i) fs.disk) := if_pos ⟨hi, ht⟩

theorem At.loaded (h : At sb T R t L m fs) (hr : 0 < (fs.itable i).ref) (hv : (fs.itable i).valid = true) :
    i < sb.ninodes ∧ (fs.itable i).ip = dinode sb fs.disk i ∧ (dinode sb fs.disk i).type ≠ 0 ∧
      T i = some (node (dinode sb fs.disk i) fs.disk) := by
  have hlt := h.sound.range i hr
  obtain ⟨hip, ht⟩ := h.sound.synced i hr hv
  refine ⟨hlt, hip, ht, ?_⟩
  rw [← h.tree]
  exact tree_eq hlt ht

theorem At.inode (h : At sb T R t L m fs) (hi : i ∈ L) :
    i < sb.ninodes ∧ (fs.itable i).ip = dinode sb fs.disk i ∧ (dinode sb fs.disk i).type ≠ 0 ∧
      T i = some (node (dinode sb fs.disk i) fs.disk) := by
  obtain ⟨hr, hv⟩ := h.sound.locked i ((h.locks i).mpr hi)
  exact h.loaded hr hv

/-- The inode i with the disk, as the functions on inodes get it. -/
def lockedInode (fs : Fs) (i : Nat) : Locked := ⟨(fs.itable i).ip, fs.disk⟩

theorem At.good_of_loaded (h : At sb T R t L m fs) (hr : 0 < (fs.itable i).ref) (hv : (fs.itable i).valid = true) :
    Good sb i (lockedInode fs i) := by
  obtain ⟨hlt, hip, ht, -⟩ := h.loaded hr hv
  refine ⟨?_, hlt, by rw [lockedInode, hip]; exact ht⟩
  have hfam : fam sb i (lockedInode fs i) = dinode sb fs.disk := by
    rw [fam, lockedInode, hip]
    exact update_eq_self ..
  rw [hfam]
  exact h.sound.valid

theorem At.good (h : At sb T R t L m fs) (hi : i ∈ L) : Good sb i (lockedInode fs i) := by
  obtain ⟨hr, hv⟩ := h.sound.locked i ((h.locks i).mpr hi)
  exact h.good_of_loaded hr hv

theorem At.node_eq (h : At sb T R t L m fs) (hi : i ∈ L) :
    T i = some (node (lockedInode fs i).ip (lockedInode fs i).disk) := by
  obtain ⟨-, hip, -, hT⟩ := h.inode hi
  rw [lockedInode, hip]
  exact hT

def putBack (fs : Fs) (i : Nat) (y : Locked) : Fs :=
  { fs.setEntry i { fs.itable i with ip := y.ip } with disk := y.disk }

theorem onInode_spec {α : Type} {p : LockedM α} {Q : α → Locked → Prop} {E : Panic → Prop}
    (h : Wp p (lockedInode fs i) Q E) : Wp (onInode i p) fs (fun a fs' => ∃ y, Q a y ∧ fs' = putBack fs i y) E := by
  rw [Wp] at h ⊢
  rw [onInode]
  cases hp : p (lockedInode fs i) with
  | error e =>
    rw [hp] at h
    rw [lockedInode] at hp
    rw [hp]
    exact h
  | ok r =>
    rw [hp] at h
    rw [lockedInode] at hp
    rw [hp]
    exact ⟨r.2, h, rfl⟩

theorem onInode_reads {α : Type} {p : LockedM α} {P : α → Prop} {E : Panic → Prop}
    (h : Wp p (lockedInode fs i) (fun a y => y = lockedInode fs i ∧ P a) E) :
    Wp (onInode i p) fs (fun a fs' => fs' = fs ∧ P a) E := by
  refine (onInode_spec h).imp ?_
  rintro a _ ⟨y, ⟨rfl, hP⟩, rfl⟩
  refine ⟨?_, hP⟩
  rw [putBack, lockedInode]
  simp [Fs.setEntry]

theorem At.change {R' : Nat → Nat} {t' L' : List Nat} {m' : Nat} {e : Entry} {o : Option Node}
    (h : At sb T R t L m fs) (hvalid : Valid sb (dinode sb fs'.disk) fs'.disk)
    (hothers : ∀ j, j < sb.ninodes → j ≠ i → Same sb fs.disk fs'.disk j) (htree : Nodes.tree sb fs'.disk i = o)
    (htable : fs'.itable = update fs.itable i e)
    (hslots : fs'.slots + load sb (fun j => (fs'.itable j).ref) = NINODE) (hlt : 0 < e.ref → i < sb.ninodes)
    (hsync : 0 < e.ref → e.valid = true → e.ip = dinode sb fs'.disk i ∧ (dinode sb fs'.disk i).type ≠ 0)
    (hlocked : e.locked = true → 0 < e.ref ∧ e.valid = true) (href : e.ref = R' i + t'.count i)
    (hrefs : ∀ j, j ≠ i → R' j + t'.count j = R j + t.count j) (hlock : e.locked = true ↔ i ∈ L')
    (hlocks : ∀ j, j ≠ i → (j ∈ L' ↔ j ∈ L)) (hawake : ∀ n, o = some n → n.nlink = 0 → 0 < e.ref → e.valid = true)
    (hroom : Room sb fs'.disk m') : At sb (update T i o) R' t' L' m' fs' := by
  have hself : fs'.itable i = e := by rw [htable, update_self]
  have hother : ∀ j, j ≠ i → fs'.itable j = fs.itable j := by
    intro j hj
    rw [htable, update_of_ne hj]
  refine ⟨⟨hvalid, ?_, ?_, ?_, hslots⟩, ?_, ?_, ?_, ?_, hroom⟩
  · intro j hr hv
    by_cases hj : j = i
    · subst hj
      rw [hself] at hr hv ⊢
      exact hsync hr hv
    · rw [hother j hj] at hr hv ⊢
      rw [(hothers j (h.sound.range j hr) hj).dinode]
      exact h.sound.synced j hr hv
  · intro j hr
    by_cases hj : j = i
    · subst hj
      rw [hself] at hr
      exact hlt hr
    · rw [hother j hj] at hr
      exact h.sound.range j hr
  · intro j hlk
    by_cases hj : j = i
    · subst hj
      rw [hself] at hlk ⊢
      exact hlocked hlk
    · rw [hother j hj] at hlk ⊢
      exact h.sound.locked j hlk
  · funext j
    by_cases hj : j = i
    · rw [hj, update_self, htree]
    · rw [update_of_ne hj, ← h.tree, Nodes.tree, Nodes.tree]
      by_cases hal : j < sb.ninodes
      · have hs := hothers j hal hj
        rw [hs.dinode]
        by_cases ht : (dinode sb fs.disk j).type = 0
        · rw [if_neg (fun h => h.2 ht), if_neg (fun h => h.2 ht)]
        · rw [if_pos ⟨hal, ht⟩, if_pos ⟨hal, ht⟩, node, hs.content ht, node]
      · rw [if_neg (fun h => hal h.1), if_neg (fun h => hal h.1)]
  · intro j
    by_cases hj : j = i
    · subst hj
      rw [hself, href]
    · rw [hother j hj, h.refs, hrefs j hj]
  · intro j
    by_cases hj : j = i
    · subst hj
      rw [hself]
      exact hlock
    · rw [hother j hj, h.locks, hlocks j hj]
  · intro j n hj hn hr
    by_cases hji : j = i
    · subst hji
      rw [update_self] at hj
      rw [hself] at hr ⊢
      exact hawake n hj hn hr
    · rw [update_of_ne hji] at hj
      rw [hother j hji] at hr ⊢
      exact h.awake j n hj hn hr

theorem At.entry {R' : Nat → Nat} {t' L' : List Nat} {e : Entry} (h : At sb T R t L m fs)
    (hdisk : fs'.disk = fs.disk) (htable : fs'.itable = update fs.itable i e)
    (hslots : fs'.slots + load sb (fun j => (fs'.itable j).ref) = NINODE) (hlt : 0 < e.ref → i < sb.ninodes)
    (hsync : 0 < e.ref → e.valid = true → e.ip = dinode sb fs.disk i ∧ (dinode sb fs.disk i).type ≠ 0)
    (hlocked : e.locked = true → 0 < e.ref ∧ e.valid = true) (href : e.ref = R' i + t'.count i)
    (hrefs : ∀ j, j ≠ i → R' j + t'.count j = R j + t.count j) (hlock : e.locked = true ↔ i ∈ L')
    (hlocks : ∀ j, j ≠ i → (j ∈ L' ↔ j ∈ L)) (hawake : ∀ n, T i = some n → n.nlink = 0 → 0 < e.ref → e.valid = true) :
    At sb T R' t' L' m fs' := by
  have hc := h.change (o := T i) (by rw [hdisk]; exact h.sound.valid)
    (fun j _ _ => by rw [hdisk]; exact Same.refl sb fs.disk j) (by rw [hdisk, h.tree]) htable hslots hlt
    (by rw [hdisk]; exact hsync) hlocked href hrefs hlock hlocks hawake (by rw [hdisk]; exact h.room)
  rwa [update_eq_self] at hc

theorem At.slots_setEntry {e : Entry} (h : At sb T R t L m fs) (hr : 0 < e.ref ↔ 0 < (fs.itable i).ref) :
    (fs.setEntry i e).slots + load sb (fun j => ((fs.setEntry i e).itable j).ref) = NINODE := by
  refine (congrArg (fs.slots + ·) (load_congr fun j => ?_)).trans h.sound.slots
  by_cases hj : j = i
  · subst hj
    simp [Fs.setEntry, hr]
  · simp [Fs.setEntry, hj]

theorem valid_of_synced {y : Locked} (hy : Good sb i y) (hsync : dinode sb y.disk i = y.ip) :
    Valid sb (dinode sb y.disk) y.disk := by
  have hfam : fam sb i y = dinode sb y.disk := by
    rw [fam, ← hsync]
    exact update_eq_self ..
  rw [← hfam]
  exact hy.valid

end Views

end AdaptiveXv6.TableSteps
