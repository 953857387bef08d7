import AdaptiveXv6.EntryWrites

namespace AdaptiveXv6.DirectorySteps

open Bytes Blocks Content Programs BlockMaps InodeTable Directories Nodes TableSteps InodeSteps

variable {sb : Superblock} {fs : Fs} {T : Tree} {R : Nat → Nat} {t L : List Nat} {i m s dp : Nat} {n : Node}
  {name : Name}

/-- A whole entry of an allocated directory names i. -/
def Named (T : Tree) (i : Nat) : Prop :=
  ∃ p n s, T p = some n ∧ n.type = T_DIR ∧ 16 * s + 16 ≤ n.size ∧ (n.dirent s).inum ≠ 0 ∧
    (n.dirent s).inum.toNat = i

/-- The directory entries name inodes of the disk. -/
def InRange (sb : Superblock) (T : Tree) : Prop := ∀ i, Named T i → i < sb.ninodes

/-- The inodes that a path can lead to. -/
def Known (T : Tree) (R : Nat → Nat) (i : Nat) : Prop := i = ROOTINO ∨ 0 < R i ∨ Named T i

/-- A directory whose size is not a multiple of the size of an entry. -/
def Torn (T : Tree) : Prop := ∃ i n, T i = some n ∧ n.type = T_DIR ∧ n.size % 16 ≠ 0

/-- An inode that a path can lead to and that is not allocated. -/
def Dangling (T : Tree) (R : Nat → Nat) : Prop := ∃ i, Known T R i ∧ T i = none

def DirStops (sb : Superblock) (R : Nat → Nat) (c : Nat) (n : Node) : Panic → Prop
  | .igetNoInodes => NINODE ≤ load sb R + c
  | .dirlookupRead => n.size % 16 ≠ 0
  | .dirlinkRead => n.size % 16 ≠ 0
  | _ => False

namespace Node

theorem find_none : n.find name = none ↔ (List.range n.slots).find? (n.names name) = none := by
  rw [Nodes.Node.find, Option.map_eq_none_iff]

theorem find_some : n.find name = some (s, i) ↔
    (List.range n.slots).find? (n.names name) = some s ∧ (n.dirent s).inum.toNat = i := by
  rw [Nodes.Node.find, Option.map_eq_some_iff]
  constructor
  · rintro ⟨s', hs', heq⟩
    cases heq
    exact ⟨hs', rfl⟩
  · rintro ⟨hs, rfl⟩
    exact ⟨s, hs, rfl⟩

end Node

theorem named_of_find (hn : T dp = some n) (hdir : n.type = T_DIR) (h : n.find name = some (s, i))
    (hfits : 16 * s + 16 ≤ n.size) : Named T i := by
  obtain ⟨hs, hi⟩ := Node.find_some.mp h
  exact ⟨dp, n, s, hn, hdir, hfits, (Node.names_iff.mp (List.find?_some hs)).1, hi⟩

def Found (sb : Superblock) (T : Tree) (R : Nat → Nat) (t L : List Nat) (m : Nat) (n : Node) (name : Name)
    (r : Option (Nat × Nat)) (fs : Fs) : Prop :=
  n.find name = none ∧ n.size % 16 = 0 ∧ r = none ∧ At sb T R t L m fs ∨
    ∃ s i, n.find name = some (s, i) ∧ 16 * s + 16 ≤ n.size ∧ r = some (16 * s, i) ∧ At sb T R (i :: t) L m fs

theorem dirlookup_cases {Q : Option (Nat × Nat) → Fs → Prop} {E : Panic → Prop} (hl : Layout sb)
    (hgood : Good sb dp (lockedInode fs dp)) (hn : node (fs.itable dp).ip fs.disk = n) (hdir : n.type = T_DIR)
    (hrag : n.size % 16 ≠ 0 → E .dirlookupRead) (hnone : n.find name = none → n.size % 16 = 0 → Q none fs)
    (hsome : ∀ s i, n.find name = some (s, i) → 16 * s + 16 ≤ n.size →
      Wp (iget i) fs (fun _ => Q (some (16 * s, i))) E) : Wp (dirlookup sb dp name) fs Q E := by
  subst hn
  have htype : (fs.itable dp).ip.type = T_DIR := hdir
  rw [dirlookup]
  refine wp_get_bind ?_
  dsimp only
  rw [if_neg (by rw [htype]; exact fun h => h rfl)]
  have hloop := lookupLoop_spec hl hgood name (slotsBelow (fs.itable dp).ip.size.toNat)
    fun s hs => List.mem_range.mp hs
  refine Wp.bind_reads ((onInode_reads hloop).mono (fun _ _ => id) ?_) fun r hr => ?_
  · rintro e ⟨rfl, hr⟩
    exact hrag hr
  · have hfound := hr.found
    cases hfind : (slotsBelow (fs.itable dp).ip.size.toNat).find?
        ((node (lockedInode fs dp).ip (lockedInode fs dp).disk).names name) with
    | none =>
      rw [hfind] at hfound
      subst hfound
      refine wp_pure (hnone (Node.find_none.mpr hfind) ?_)
      by_contra hne
      change (fs.itable dp).ip.size.toNat % 16 ≠ 0 at hne
      have hlast := hr.all rfl ((fs.itable dp).ip.size.toNat / 16) (List.mem_range.mpr (by omega))
      change 16 * _ + 16 ≤ (fs.itable dp).ip.size.toNat at hlast
      omega
    | some s =>
      rw [hfind] at hfound
      subst hfound
      exact (hsome s _ (Node.find_some.mpr ⟨hfind, rfl⟩) (hr.fits s hfind)).bind fun _ _ => wp_pure

theorem dirlookup_spec (hl : Layout sb) (hc : Calm T R) (hin : InRange sb T) (h : At sb T R t L m fs) (hdp : dp ∈ L)
    (hn : T dp = some n) (hdir : n.type = T_DIR) :
    Wp (dirlookup sb dp name) fs (Found sb T R t L m n name) (DirStops sb R t.length n) := by
  have hT := Option.some.inj ((h.node_eq hdp).symm.trans hn)
  refine dirlookup_cases hl (h.good hdp) hT hdir id (fun hnone hwhole => .inl ⟨hnone, hwhole, rfl, h⟩) ?_
  intro s i hf hfits
  refine (iget_spec h hc (hin _ (named_of_find hn hdir hf hfits))).mono ?_ ?_
  · exact fun _ _ hfs' => .inr ⟨s, i, hf, hfits, rfl, hfs'⟩
  · rintro e ⟨rfl, hcr⟩
    exact hcr

def entry (inum : Nat) (name : Name) : Nat → Byte := Dirent.byte ⟨BitVec.ofNat 16 inum, strncpy DIRSIZ name⟩

def add (n : Node) (name : Name) (inum : Nat) : Node := n.put n.freeSlot (entry inum name)

theorem freeSlot_le (h : n.size % 16 = 0) : 16 * n.freeSlot ≤ n.size := by
  rw [Node.freeSlot]
  cases hf : (List.range n.slots).find? n.unused with
  | none =>
    rw [Option.getD_none, Node.slots]
    omega
  | some s =>
    have hs := lt_size_of_lt_slots (List.mem_range.mp (List.mem_of_find?_eq_some hf))
    rw [Option.getD_some]
    omega

end AdaptiveXv6.DirectorySteps
