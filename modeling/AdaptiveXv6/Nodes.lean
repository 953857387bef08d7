import AdaptiveXv6.Directories
import AdaptiveXv6.FileReads

namespace AdaptiveXv6.Nodes

open Bytes Blocks Content Store Programs BlockMaps FileReads Directories

@[ext] structure Node where
  type : BitVec 16
  major : BitVec 16
  minor : BitVec 16
  nlink : BitVec 16
  size : Nat
  bytes : Nat → Byte

def node (x : Inode) (d : Store) : Node where
  type := x.type
  major := x.major
  minor := x.minor
  nlink := x.nlink
  size := x.size.toNat
  bytes k := if k < x.size.toNat then content x d k else 0

abbrev Tree := Nat → Option Node

def tree (sb : Superblock) (d : Store) : Tree := fun i =>
  if i < sb.ninodes ∧ (dinode sb d i).type ≠ 0 then some (node (dinode sb d i) d) else none

namespace Node

def slots (n : Node) : Nat := (n.size + 15) / 16

def dirent (n : Node) (s : Nat) : Dirent := getDirent fun k => n.bytes (16 * s + k)

def names (n : Node) (name : Name) (s : Nat) : Bool :=
  decide ((n.dirent s).inum ≠ 0) && decide (namecmp name (n.dirent s).name = 0)

theorem names_iff {n : Node} {name : Name} {s : Nat} :
    n.names name s = true ↔ (n.dirent s).inum ≠ 0 ∧ namecmp name (n.dirent s).name = 0 := by
  rw [names, Bool.and_eq_true, decide_eq_true_iff, decide_eq_true_iff]

def find (n : Node) (name : Name) : Option (Nat × Nat) :=
  ((List.range n.slots).find? (n.names name)).map fun s => (s, (n.dirent s).inum.toNat)

def unused (n : Node) (s : Nat) : Bool := decide ((n.dirent s).inum = 0)

theorem unused_iff {n : Node} {s : Nat} : n.unused s = true ↔ (n.dirent s).inum = 0 := decide_eq_true_iff

def freeSlot (n : Node) : Nat := ((List.range n.slots).find? n.unused).getD n.slots

def put (n : Node) (s : Nat) (mem : Nat → Byte) : Node :=
  { n with
    size := max n.size (16 * s + 16)
    bytes := fun k => if 16 * s ≤ k ∧ k < 16 * s + 16 then mem (k - 16 * s) else n.bytes k }

end Node

variable {sb : Superblock} {x : Locked} {i s : Nat}

theorem half_getDirent {m m' : Nat → Byte} (h : ∀ k, k < 16 → m k = m' k) : getDirent m = getDirent m' := by
  have hinum : half m 0 = half m' 0 := half_congr fun k _ hk => h k (by omega)
  have hname : image (fun k => m (2 + k)) DIRSIZ = image (fun k => m' (2 + k)) DIRSIZ :=
    image_eq_iff.mpr fun k hk => h (2 + k) (by simp only [DIRSIZ] at hk; omega)
  rw [getDirent, getDirent, hinum, hname]

theorem lt_size_of_lt_slots {n : Node} (h : s < n.slots) : 16 * s < n.size := by
  rw [Node.slots] at h
  omega

theorem readDirent_spec (hl : Layout sb) (h : Good sb i x) (p : Panic) (hs : s < (node x.ip x.disk).slots) :
    Wp (readDirent sb p (16 * s)) x
      (fun de y => y = x ∧ de = (node x.ip x.disk).dirent s ∧ 16 * s + 16 ≤ (node x.ip x.disk).size)
      fun e => e = p ∧ (node x.ip x.disk).size % 16 ≠ 0 := by
  have hlt : 16 * s < x.ip.size.toNat := lt_size_of_lt_slots hs
  have h32 : x.ip.size.toNat < 2 ^ 32 := x.ip.size.isLt
  have hmax : 16 * s + 16 < 2 ^ 32 := by
    have hb := blockAt_lt (h.filled (show 16 * s / BSIZE * BSIZE < x.ip.size.toNat by
      have := Nat.div_mul_le_self (16 * s) BSIZE
      omega))
    have hb' : 16 * s / 1024 < 268 := hb
    omega
  have hread : Wp (readi sb .kernel 0 (16 * s) 16) x
      (fun r y => y = x ∧ r.2 = ((min (16 * s + 16) x.ip.size.toNat - 16 * s : Nat) : Int) ∧
        ∀ mem, stores mem r.1 = store mem (0, delivered x (16 * s) (min (16 * s + 16) x.ip.size.toNat - 16 * s)))
      fun e => e = p ∧ (node x.ip x.disk).size % 16 ≠ 0 :=
    (readi_spec hl h .kernel 0 (by omega) (by omega)).mono (fun r y hy => ⟨hy.1, hy.2 hmax trivial⟩)
      (fun _ => False.elim)
  rw [readDirent]
  refine hread.bind_reads ?_
  rintro r ⟨hr, hst⟩
  by_cases hshort : x.ip.size.toNat < 16 * s + 16
  · rw [if_pos (by rw [hr]; omega)]
    refine wp_throw ⟨rfl, ?_⟩
    change x.ip.size.toNat % 16 ≠ 0
    omega
  · have hmin : min (16 * s + 16) x.ip.size.toNat - 16 * s = 16 := by omega
    rw [hmin] at hr hst
    rw [if_neg (by simp [hr])]
    refine wp_pure ⟨rfl, half_getDirent fun k hk => ?_, Nat.le_of_not_lt hshort⟩
    rw [hst, delivered, store_image, if_pos (by omega), Nat.sub_zero]
    change _ = if 16 * s + k < x.ip.size.toNat then content x.ip x.disk (16 * s + k) else 0
    rw [if_pos (by omega)]

def Ragged (p : Panic) (x : Locked) (e : Panic) : Prop := e = p ∧ (node x.ip x.disk).size % 16 ≠ 0

structure Looked (n : Node) (name : Name) (ss : List Nat) (r : Option (Nat × Nat)) : Prop where
  found : r = (ss.find? (n.names name)).map fun s => (16 * s, (n.dirent s).inum.toNat)
  fits : ∀ s, ss.find? (n.names name) = some s → 16 * s + 16 ≤ n.size
  all : r = none → ∀ s ∈ ss, 16 * s + 16 ≤ n.size

theorem Looked.cons {n : Node} {name : Name} {ss : List Nat} {r : Option (Nat × Nat)} (hfits : 16 * s + 16 ≤ n.size)
    (hs : ¬n.names name s = true) (h : Looked n name ss r) : Looked n name (s :: ss) r where
  found := by
    rw [List.find?_cons_of_neg hs]
    exact h.found
  fits := by
    rw [List.find?_cons_of_neg hs]
    exact h.fits
  all h₀ := by
    rintro s' (_ | ⟨_, hs'⟩)
    · exact hfits
    · exact h.all h₀ s' hs'

theorem lookupLoop_spec (hl : Layout sb) (h : Good sb i x) (name : Name) (ss : List Nat)
    (hss : ∀ s ∈ ss, s < (node x.ip x.disk).slots) :
    Wp (lookupLoop sb name ss) x (fun r y => y = x ∧ Looked (node x.ip x.disk) name ss r)
      (Ragged .dirlookupRead x) := by
  induction ss with
  | nil => exact wp_pure ⟨rfl, rfl, by simp, by simp⟩
  | cons s ss ih =>
    have hrest := ih fun s' hs' => hss s' (List.mem_cons_of_mem _ hs')
    rw [lookupLoop]
    refine (readDirent_spec hl h .dirlookupRead (hss s (List.mem_cons_self ..))).bind_reads ?_
    rintro de ⟨rfl, hfits⟩
    refine wp_ite (fun h₀ =>
        hrest.imp fun r y hy => ⟨hy.1, hy.2.cons hfits fun hm => (Node.names_iff.mp hm).1 h₀⟩) fun h₀ => ?_
    by_cases hn : namecmp name ((node x.ip x.disk).dirent s).name = 0
    · have hs := Node.names_iff.mpr ⟨h₀, hn⟩
      rw [if_pos hn]
      refine wp_pure ⟨rfl, ?_, ?_, nofun⟩
      · rw [List.find?_cons_of_pos hs]
        rfl
      · intro s' hs'
        rw [List.find?_cons_of_pos hs] at hs'
        cases hs'
        exact hfits
    · rw [if_neg hn]
      exact hrest.imp fun r y hy => ⟨hy.1, hy.2.cons hfits fun hm => hn (Node.names_iff.mp hm).2⟩

theorem emptyLoop_spec (hl : Layout sb) (h : Good sb i x) (next : Nat) (ss : List Nat)
    (hss : ∀ s ∈ ss, s < (node x.ip x.disk).slots) :
    Wp (emptyLoop sb ss (16 * next)) x
      (fun r y => y = x ∧
        r = 16 * (ss.find? (node x.ip x.disk).unused).getD next)
      (Ragged .dirlinkRead x) := by
  induction ss with
  | nil => exact wp_pure ⟨rfl, rfl⟩
  | cons s ss ih =>
    have hrest := ih fun s' hs' => hss s' (List.mem_cons_of_mem _ hs')
    rw [emptyLoop]
    refine (readDirent_spec hl h .dirlinkRead (hss s (List.mem_cons_self ..))).bind_reads ?_
    rintro de ⟨rfl, -⟩
    by_cases h₀ : ((node x.ip x.disk).dirent s).inum = 0
    · rw [if_pos h₀, List.find?_cons_of_pos (Node.unused_iff.mpr h₀)]
      exact wp_pure ⟨rfl, rfl⟩
    · rw [if_neg h₀, List.find?_cons_of_neg (fun hm => h₀ (Node.unused_iff.mp hm))]
      exact hrest

end AdaptiveXv6.Nodes
