import AdaptiveXv6.ByteArrays
import AdaptiveXv6.DirectorySteps
import AdaptiveXv6.Entries

namespace AdaptiveXv6.DirectoryMaps

open Words Bytes Blocks Content Store Programs BlockMaps Allocation FileWrites InodeTable Directories Nodes
  Entries TableSteps EntryWrites DirectorySteps

variable {sb : Superblock} {fs fs' : Fs} {dp i s : Nat} {n n' : Node} {name : Name} {x : Locked}

section Bindings

def Binds (n : Node) (name : Name) (s i : Nat) : Prop :=
  s < n.slots ∧ (n.dirent s).inum ≠ 0 ∧ canon (n.dirent s).name = canon name ∧ (n.dirent s).inum.toNat = i

structure IsMap (n : Node) : Prop where
  whole : n.size % 16 = 0
  unique : ∀ r s, r < n.slots → s < n.slots → (n.dirent r).inum ≠ 0 → (n.dirent s).inum ≠ 0 →
    canon (n.dirent r).name = canon (n.dirent s).name → r = s

theorem find_iff (h : IsMap n) : n.find name = some (s, i) ↔ Binds n name s i := by
  rw [Node.find_some]
  constructor
  · rintro ⟨hf, hi⟩
    obtain ⟨hu, hc⟩ := Nodes.Node.names_iff.mp (List.find?_some hf)
    exact ⟨List.mem_range.mp (List.mem_of_find?_eq_some hf), hu, (namecmp_eq_zero.mp hc).symm, hi⟩
  · rintro ⟨hs, hu, hc, hi⟩
    have hnames : n.names name s = true := Nodes.Node.names_iff.mpr ⟨hu, namecmp_eq_zero.mpr hc.symm⟩
    obtain ⟨r, hr⟩ := Option.isSome_iff_exists.mp
      (List.find?_isSome.mpr ⟨s, List.mem_range.mpr hs, hnames⟩)
    obtain ⟨hru, hrc⟩ := Nodes.Node.names_iff.mp (List.find?_some hr)
    have hrs := h.unique r s (List.mem_range.mp (List.mem_of_find?_eq_some hr)) hs hru hu
      ((namecmp_eq_zero.mp hrc).symm.trans hc.symm)
    rw [← hrs] at hi ⊢
    exact ⟨hr, hi⟩

theorem find_none_iff (h : IsMap n) : n.find name = none ↔ ∀ s i, ¬Binds n name s i := by
  constructor
  · intro hnone s i hb
    rw [(find_iff h).mpr hb] at hnone
    cases hnone
  · intro hno
    cases hf : n.find name with
    | none => rfl
    | some r => exact absurd ((find_iff h).mp hf) (hno r.1 r.2)

theorem freeSlot_unused (hs : n.freeSlot < n.slots) : (n.dirent n.freeSlot).inum = 0 := by
  rw [Node.freeSlot] at hs ⊢
  cases hf : (List.range n.slots).find? n.unused with
  | none =>
    rw [hf, Option.getD_none] at hs
    exact absurd hs (Nat.lt_irrefl _)
  | some s =>
    rw [Option.getD_some]
    exact Nodes.Node.unused_iff.mp (List.find?_some hf)

theorem freeSlot_le_slots (n : Node) : n.freeSlot ≤ n.slots := by
  rw [Node.freeSlot]
  cases hf : (List.range n.slots).find? n.unused with
  | none => exact Nat.le_refl _
  | some s => exact Nat.le_of_lt (List.mem_range.mp (List.mem_of_find?_eq_some hf))

theorem dirent_add_self (n : Node) (name : Name) (inum : Nat) :
    (add n name inum).dirent n.freeSlot = ⟨BitVec.ofNat 16 inum, canon name⟩ := by
  rw [add, dirent_put_self]
  exact getDirent_byte (length_strncpy ..)

theorem binds_add {inum : Nat} (h₀ : 0 < inum) (h₁ : inum < 2 ^ 16) (hnone : ∀ s i, ¬Binds n name s i) (name' : Name)
    (s i : Nat) : Binds (add n name inum) name' s i ↔
      canon name' = canon name ∧ s = n.freeSlot ∧ i = inum ∨ canon name' ≠ canon name ∧ Binds n name' s i := by
  have hnum : (BitVec.ofNat 16 inum).toNat = inum := by
    rw [BitVec.toNat_ofNat]
    exact Nat.mod_eq_of_lt h₁
  have hle := freeSlot_le_slots n
  by_cases hs : s = n.freeSlot
  · subst hs
    rw [Binds, dirent_add_self]
    constructor
    · rintro ⟨-, -, hc, hi⟩
      exact .inl ⟨by rw [← hc]; exact canon_canon name, rfl, by rw [← hi]; exact hnum⟩
    · rintro (⟨hc, -, rfl⟩ | ⟨-, hlt, hu, -⟩)
      · refine ⟨?_, ?_, by rw [hc]; exact canon_canon name, hnum⟩
        · rw [add, slots_put]
          exact lt_max_of_lt_right (Nat.lt_succ_self _)
        · intro hz
          have hz' : BitVec.ofNat 16 i = 0 := hz
          have hzero : (0 : BitVec 16).toNat = 0 := rfl
          rw [hz', hzero] at hnum
          omega
      · exact absurd (freeSlot_unused hlt) hu
  · rw [Binds, add, dirent_put_of_ne hs, slots_put]
    constructor
    · rintro ⟨hlt, hu, hc, hi⟩
      have hlt' : s < n.slots := by
        rcases lt_max_iff.mp hlt with h | h
        · exact h
        · omega
      refine .inr ⟨?_, hlt', hu, hc, hi⟩
      intro heq
      exact hnone s i ⟨hlt', hu, hc.trans heq, hi⟩
    · rintro (⟨-, h, -⟩ | ⟨-, hlt, hu, hc, hi⟩)
      · exact absurd h hs
      · exact ⟨lt_max_of_lt_left hlt, hu, hc, hi⟩

theorem isMap_add {inum : Nat} (h : IsMap n) (hnone : ∀ s i, ¬Binds n name s i) : IsMap (add n name inum) where
  whole := by
    have hw := h.whole
    simp only [add, Node.put]
    omega
  unique := by
    have hle := freeSlot_le_slots n
    have hold : ∀ r, r ≠ n.freeSlot → r < (add n name inum).slots → r < n.slots := by
      intro r hr hlt
      rw [add, slots_put] at hlt
      rcases lt_max_iff.mp hlt with h | h
      · exact h
      · omega
    have hother : ∀ r, r ≠ n.freeSlot → (add n name inum).dirent r = n.dirent r := fun r hr => dirent_put_of_ne hr
    -- an entry in use has another name than the new one
    have hnew : ∀ r, r ≠ n.freeSlot → r < (add n name inum).slots → (n.dirent r).inum ≠ 0 →
        canon (n.dirent r).name ≠ canon (canon name) := by
      intro r hr hlt hu hc
      exact hnone r _ ⟨hold r hr hlt, hu, hc.trans (canon_canon name), rfl⟩
    intro r s hr hs hru hsu hc
    by_cases hrf : r = n.freeSlot
    · by_cases hsf : s = n.freeSlot
      · rw [hrf, hsf]
      · rw [hother s hsf] at hsu hc
        rw [hrf, dirent_add_self] at hc
        exact absurd hc.symm (hnew s hsf hs hsu)
    · rw [hother r hrf] at hru hc
      by_cases hsf : s = n.freeSlot
      · rw [hsf, dirent_add_self] at hc
        exact absurd hc (hnew r hrf hr hru)
      · rw [hother s hsf] at hsu hc
        exact h.unique r s (hold r hrf hr) (hold s hsf hs) hru hsu hc

def clear (n : Node) (s : Nat) : Node := n.put s fun _ => 0

theorem dirent_clear_self (n : Node) (s : Nat) : ((clear n s).dirent s).inum = 0 := by
  rw [clear, dirent_put_self]
  rfl

theorem slots_clear (hs : s < n.slots) : (clear n s).slots = n.slots := by
  rw [clear, slots_put]
  omega

theorem binds_clear (h : IsMap n) (hb : Binds n name s i) (name' : Name) (r j : Nat) :
    Binds (clear n s) name' r j ↔ canon name' ≠ canon name ∧ Binds n name' r j := by
  by_cases hr : r = s
  · subst hr
    constructor
    · rintro ⟨-, hu, -⟩
      exact absurd (dirent_clear_self n r) hu
    · rintro ⟨hne, -, -, hc, -⟩
      exact absurd (hc.symm.trans hb.2.2.1) hne
  · rw [Binds, slots_clear hb.1, clear, dirent_put_of_ne hr]
    refine ⟨fun hbr => ⟨?_, hbr⟩, fun hbr => hbr.2⟩
    intro heq
    exact hr (h.unique r s hbr.1 hb.1 hbr.2.1 hb.2.1 (hbr.2.2.1.trans (heq.trans hb.2.2.1.symm)))

theorem isMap_clear (h : IsMap n) (hs : s < n.slots) : IsMap (clear n s) where
  whole := by
    have hw := h.whole
    simp only [clear, Node.put]
    omega
  unique := by
    intro r q hr hq hru hqu hc
    rw [slots_clear hs] at hr hq
    have hrs : r ≠ s := by
      rintro rfl
      exact hru (dirent_clear_self n r)
    have hqs : q ≠ s := by
      rintro rfl
      exact hqu (dirent_clear_self n q)
    rw [clear, dirent_put_of_ne hrs] at hru hc
    rw [clear, dirent_put_of_ne hqs] at hqu
    rw [dirent_put_of_ne hqs] at hc
    exact h.unique r q hr hq hru hqu hc

end Bindings

section Calls

/-- What callers of dirlookup() and dirlink() have: a locked directory. -/
structure Directory (sb : Superblock) (dp : Nat) (n : Node) (fs : Fs) : Prop where
  good : Good sb dp (lockedInode fs dp)
  node : node (lockedInode fs dp).ip (lockedInode fs dp).disk = n
  type : n.type = T_DIR
  ref : 0 < (fs.itable dp).ref

/-- The calls on a directory: dirlink(), dirlookup(), and the clearing of an entry by sys_unlink(). -/
inductive Op
  | link (name : Name) (inum : Nat)
  | lookup (name : Name)
  | clear (name : Name)

inductive Outcome
  | linked (r : Int)
  | found (r : Option (Nat × Nat))
  | cleared (r : Option (Nat × Nat))

variable (sb)

/-- The caller gives back the inode that dirlookup() returned. -/
def putFound : Option (Nat × Nat) → FsM Unit
  | none => pure ()
  | some (_, ip) => iput sb ip

def clearEntry (dp : Nat) (name : Name) : FsM (Option (Nat × Nat)) := do
  match ← dirlookup sb dp name with
  | none => pure none
  | some (off, ip) => do
    let r ← onInode dp (writei sb dp (.kernel fun _ => 0) 0 off 16)
    if r ≠ 16 then throw .unlinkWritei
    iput sb ip
    pure (some (off, ip))

def perform (dp : Nat) : Op → FsM Outcome
  | .link name inum => do
    let r ← dirlink sb dp name inum
    pure (.linked r)
  | .lookup name => do
    let r ← dirlookup sb dp name
    putFound sb r
    pure (.found r)
  | .clear name => do
    let r ← clearEntry sb dp name
    pure (.cleared r)

def performAll (dp : Nat) : List Op → FsM (List Outcome)
  | [] => pure []
  | op :: ops => do
    let r ← perform sb dp op
    let rs ← performAll dp ops
    pure (r :: rs)

variable {sb}

/-- No entry is free, and no block for another one or the directory has its largest size. -/
def CannotGrow (sb : Superblock) (dp : Nat) (fs : Fs) (n : Node) : Prop :=
  n.freeSlot = n.slots ∧ (MAXFILE * BSIZE < 16 * n.slots + 16 ∨
    ∃ y, bmap sb (16 * n.slots / BSIZE) (lockedInode fs dp) = .ok (0, y))

/-- The calls as operations on a finite map from names to inodes and places. -/
def Behaves (sb : Superblock) (dp : Nat) (fs : Fs) (n : Node) : Op → Outcome → Node → Prop
  | .link name inum, .linked r, n' =>
    (r = 0 ∨ r = -1) ∧ (r = -1 ↔ (∃ s i, Binds n name s i) ∨ CannotGrow sb dp fs n) ∧
    (r = -1 → ∀ name' s i, Binds n' name' s i ↔ Binds n name' s i) ∧
    (r = 0 → ∃ q, ∀ name' s i, Binds n' name' s i ↔
      canon name' = canon name ∧ s = q ∧ i = inum ∨ canon name' ≠ canon name ∧ Binds n name' s i)
  | .lookup name, .found r, n' =>
    (∀ off i, r = some (off, i) ↔ ∃ s, off = 16 * s ∧ Binds n name s i) ∧
    ∀ name' s i, Binds n' name' s i ↔ Binds n name' s i
  | .clear name, .cleared r, n' =>
    (∀ off i, r = some (off, i) ↔ ∃ s, off = 16 * s ∧ Binds n name s i) ∧
    ∀ name' s i, Binds n' name' s i ↔ canon name' ≠ canon name ∧ Binds n name' s i
  | _, _, _ => False

/-- The inode numbers that a directory entry can hold. -/
def Op.Fits : Op → Prop
  | .link _ inum => 0 < inum ∧ inum < 2 ^ 16
  | _ => True

end Calls

section Table

structure Taken (dp i : Nat) (fs fs' : Fs) : Prop where
  disk : fs'.disk = fs.disk
  ip : (fs'.itable dp).ip = (fs.itable dp).ip
  others : dp ≠ i → (fs'.itable dp).ref = (fs.itable dp).ref
  ref : (fs'.itable i).ref = (fs.itable i).ref + 1
  fresh : (fs.itable i).ref = 0 → (fs'.itable i).valid = false
  slots : fs'.slots = if (fs.itable i).ref = 0 then fs.slots - 1 else fs.slots
  free : (fs.itable i).ref = 0 → 0 < fs.slots

theorem setEntry_ip {e : Entry} (dp : Nat) (h : e.ip = (fs.itable i).ip) :
    ((fs.setEntry i e).itable dp).ip = (fs.itable dp).ip := by
  by_cases hd : dp = i
  · simp [Fs.setEntry, hd, h]
  · simp [Fs.setEntry, hd]

theorem iget_taken (dp i : Nat) (fs : Fs) :
    Wp (iget i) fs (fun _ fs' => Taken dp i fs fs') fun e => e = .igetNoInodes ∧ fs.slots = 0 := by
  rw [Wp, iget]
  by_cases hr : 0 < (fs.itable i).ref
  · rw [if_pos hr]
    refine ⟨rfl, setEntry_ip dp rfl, ?_, ?_, fun h => absurd h (by omega), ?_, fun h => absurd h (by omega)⟩
    · intro hd
      simp [Fs.setEntry, hd]
    · simp [Fs.setEntry]
    · rw [if_neg (by omega)]
      rfl
  · rw [if_neg hr]
    by_cases hs : fs.slots = 0
    · rw [if_pos hs]
      exact ⟨rfl, hs⟩
    · rw [if_neg hs]
      refine ⟨rfl, setEntry_ip dp rfl, ?_, ?_, fun _ => ?_, ?_, fun _ => by omega⟩
      · intro hd
        simp [Fs.setEntry, hd]
      · simp [Fs.setEntry]
        omega
      · simp [Fs.setEntry]
      · rw [if_pos (by omega)]

theorem iput_back {fs₀ fs₁ fs₂ : Fs} (h : Taken dp i fs₀ fs₁)
    (hsame : ∀ j, (fs₂.itable j).ref = (fs₁.itable j).ref ∧ (fs₂.itable j).valid = (fs₁.itable j).valid)
    (hslots : fs₂.slots = fs₁.slots) :
    Wp (iput sb i) fs₂ (fun _ fs₃ => fs₃.disk = fs₂.disk ∧ (fs₃.itable dp).ip = (fs₂.itable dp).ip ∧
      (fs₃.itable dp).ref = (fs₀.itable dp).ref ∧ fs₃.slots = fs₀.slots) fun _ => False := by
  have href := h.ref
  have hslots' := h.slots
  have hkept : ¬((fs₂.itable i).ref = 1 ∧ (fs₂.itable i).valid = true ∧ (fs₂.itable i).ip.nlink = 0) := by
    rintro ⟨h₁, hv, -⟩
    rw [(hsame i).1, href] at h₁
    rw [(hsame i).2, h.fresh (by omega)] at hv
    cases hv
  rw [iput]
  refine wp_get_bind ?_
  dsimp only
  rw [if_neg hkept]
  rw [Wp, unref]
  refine ⟨rfl, setEntry_ip dp rfl, ?_, ?_⟩
  · by_cases hd : dp = i
    · subst hd
      simp [Fs.setEntry, (hsame dp).1, href]
    · simp [Fs.setEntry, hd, (hsame dp).1, h.others hd]
  · dsimp only
    rw [(hsame i).1, href, hslots, hslots']
    have := h.free
    split <;> split <;> omega

end Table

section Steps

/-- How the calls on a directory can panic. -/
def TableFull (fs : Fs) (e : Panic) : Prop := e = .igetNoInodes ∧ fs.slots = 0

theorem Directory.congr (h : Directory sb dp n fs) (hdisk : fs'.disk = fs.disk)
    (hip : (fs'.itable dp).ip = (fs.itable dp).ip) (href : 0 < (fs'.itable dp).ref) : Directory sb dp n fs' := by
  have hsame : lockedInode fs' dp = lockedInode fs dp := by rw [lockedInode, lockedInode, hdisk, hip]
  refine ⟨?_, ?_, h.type, href⟩
  · rw [hsame]
    exact h.good
  · rw [hsame]
    exact h.node

theorem Directory.taken (h : Directory sb dp n fs) (ht : Taken dp i fs fs') : Directory sb dp n fs' := by
  refine h.congr ht.disk ht.ip ?_
  have hr := h.ref
  by_cases hd : dp = i
  · rw [hd, ht.ref]
    exact Nat.succ_pos _
  · rw [ht.others hd]
    exact hr

theorem dirlookup_dir (hl : Layout sb) (h : Directory sb dp n fs) (hm : IsMap n) (name : Name) :
    Wp (dirlookup sb dp name) fs
      (fun r fs' => r = none ∧ n.find name = none ∧ fs' = fs ∨
        ∃ s i, n.find name = some (s, i) ∧ r = some (16 * s, i) ∧ Taken dp i fs fs')
      (TableFull fs) := by
  refine dirlookup_cases hl h.good h.node h.type (absurd hm.whole) (fun hnone _ => .inl ⟨rfl, hnone, rfl⟩) ?_
  intro s i hsome _
  exact (iget_taken dp i fs).imp fun _ _ ht => .inr ⟨s, i, hsome, rfl, ht⟩

theorem writei_entry_iff (hl : Layout sb) (h : Good sb dp x) (hs : 16 * s ≤ x.ip.size.toNat) (mem : Nat → Byte) :
    Wp (writei sb dp (.kernel mem) 0 (16 * s) 16) x
      (fun a _ => a ≠ 16 ↔ MAXFILE * BSIZE < 16 * s + 16 ∨ ∃ y, bmap sb (16 * s / BSIZE) x = .ok (0, y))
      fun _ => False := by
  have hlt := MAXFILE_lt
  have hsize : x.ip.size.toNat < 2 ^ 32 := x.ip.size.isLt
  by_cases hmax : 16 * s + 16 ≤ MAXFILE * BSIZE
  · have hu : u32 (16 * s + 16) = 16 * s + 16 := u32_of_lt (by omega)
    have hchunk : min (16 - 0) (BSIZE - 16 * s % BSIZE) = 16 := Nat.min_eq_left (aligned s)
    have hbn : 16 * s / BSIZE < MAXFILE := (Nat.div_lt_iff_lt_mul (by decide)).mpr (by omega)
    have hbmap := bmap_spec hl h hbn
    rw [writei]
    refine wp_get_bind ?_
    rw [hu, if_neg (by omega), if_neg (by omega), writeLoop, if_pos (by decide)]
    dsimp only
    rw [hchunk, writeChunk]
    simp only [bind_assoc]
    rw [Wp] at hbmap
    split at hbmap
    · rename_i a y heq
      refine wp_bind (wp_of_ok heq ?_)
      rw [heq]
      by_cases ha : a = 0
      · subst ha
        rw [if_pos rfl]
        refine wp_of_ok rfl ?_
        simp
      · rw [if_neg ha]
        refine wp_of_ok rfl ?_
        simp [ha]
        omega
    · exact hbmap.elim
  · refine wp_of_ok (writei_refused (by omega) (by decide) (.inr (.inr (by omega)))) ?_
    exact ⟨fun _ => .inl (by omega), fun _ => by decide⟩

theorem lockedInode_putBack (fs : Fs) (z : Locked) : lockedInode (putBack fs dp z) dp = z := by
  simp [lockedInode, putBack, Fs.setEntry]

theorem putBack_same (fs : Fs) (z : Locked) (j : Nat) :
    ((putBack fs dp z).itable j).ref = (fs.itable j).ref ∧ ((putBack fs dp z).itable j).valid = (fs.itable j).valid := by
  by_cases hj : j = dp
  · subst hj
    simp [putBack, Fs.setEntry]
  · simp [putBack, Fs.setEntry, hj]

section Calls

variable (hl : Layout sb) (h : Directory sb dp n fs)

include hl h

theorem writeEntry_dir (hs : 16 * s ≤ n.size) (mem : Nat → Byte) :
    Wp (onInode dp (writei sb dp (.kernel mem) 0 (16 * s) 16)) fs
      (fun a fs' => (a ≠ 16 ↔ MAXFILE * BSIZE < 16 * s + 16 ∨
          ∃ y, bmap sb (16 * s / BSIZE) (lockedInode fs dp) = .ok (0, y)) ∧
        Directory sb dp (if a = 16 then n.put s mem else n) fs' ∧ fs'.slots = fs.slots ∧
        ∀ j, (fs'.itable j).ref = (fs.itable j).ref ∧ (fs'.itable j).valid = (fs.itable j).valid)
      fun _ => False := by
  obtain ⟨hgood, rfl, hdir, href⟩ := h
  have hboth := ((writei_entry hl hgood hs mem).and (writei_entry_iff hl hgood hs mem)).mono (fun _ _ => id)
    (fun _ hf => hf.1)
  refine (onInode_spec hboth).imp ?_
  rintro a _ ⟨z, ⟨hz, hiff⟩, rfl⟩
  refine ⟨hiff, ⟨?_, ?_, ?_, ?_⟩, rfl, putBack_same fs z⟩
  · rw [lockedInode_putBack]
    exact hz.good
  · rw [lockedInode_putBack]
    exact hz.node
  · split
    · exact hdir
    · exact hdir
  · rw [(putBack_same fs z dp).1]
    exact href

theorem covered (hs : 16 * s + 16 ≤ n.size) :
    ¬(MAXFILE * BSIZE < 16 * s + 16 ∨ ∃ y, bmap sb (16 * s / BSIZE) (lockedInode fs dp) = .ok (0, y)) := by
  obtain ⟨hgood, rfl, -, -⟩ := h
  have hle : 16 * s ≤ (lockedInode fs dp).ip.size.toNat := Nat.le_trans (Nat.le_add_right ..) hs
  have hcov : 16 * s / BSIZE * BSIZE < (lockedInode fs dp).ip.size.toNat := by
    have hdiv := Nat.div_mul_le_self (16 * s) BSIZE
    have hsize : 16 * s + 16 ≤ (lockedInode fs dp).ip.size.toNat := hs
    omega
  have hboth := ((writei_entry hl hgood hle fun _ => 0).and (writei_entry_iff hl hgood hle fun _ => 0))
  rw [Wp] at hboth
  split at hboth
  · rename_i a z heq
    intro hno
    exact hboth.2.mpr hno (hboth.1.covered hcov).1
  · exact hboth.1.elim

theorem dirlink_dir (hm : IsMap n) (name : Name) (inum : Nat) : Wp (dirlink sb dp name inum) fs
      (fun r fs' => fs'.slots = fs.slots ∧
        (r = -1 ∧ Directory sb dp n fs' ∧ (n.find name ≠ none ∨ CannotGrow sb dp fs n) ∨
          r = 0 ∧ n.find name = none ∧ ¬CannotGrow sb dp fs n ∧ Directory sb dp (add n name inum) fs'))
      (TableFull fs) := by
  rw [dirlink]
  refine (dirlookup_dir hl h hm name).bind ?_
  rintro r fs' (⟨rfl, hnone, rfl⟩ | ⟨s, i, hsome, rfl, htaken⟩)
  · refine wp_get_bind ?_
    have hslots : slotsBelow (fs'.itable dp).ip.size.toNat = List.range n.slots := by
      rw [← h.node]
      rfl
    dsimp only
    rw [hslots, List.length_range]
    have hempty := emptyLoop_spec hl h.good n.slots (List.range n.slots)
      (fun s hs => by rw [h.node]; exact List.mem_range.mp hs)
    rw [h.node] at hempty
    refine Wp.bind_reads ((onInode_reads hempty).mono (fun _ _ => id) ?_) fun off hoff => ?_
    · rintro e ⟨-, hrag⟩
      rw [h.node] at hrag
      exact absurd hm.whole hrag
    · have hoff' : off = 16 * n.freeSlot := hoff
      subst hoff'
      refine ((writeEntry_dir hl h (freeSlot_le hm.whole) (entry inum name)).mono (fun _ _ => id)
        (fun _ => False.elim)).bind ?_
      rintro a fs'' ⟨hiff, hdir, hfree, -⟩
      -- an entry that is free within the directory can be written
      have hgrow : (MAXFILE * BSIZE < 16 * n.freeSlot + 16 ∨
          ∃ y, bmap sb (16 * n.freeSlot / BSIZE) (lockedInode fs' dp) = .ok (0, y)) ↔ CannotGrow sb dp fs' n := by
        rw [CannotGrow]
        by_cases hlt : n.freeSlot = n.slots
        · rw [hlt]
          exact ⟨fun hno => ⟨rfl, hno⟩, fun hno => hno.2⟩
        · have hle := freeSlot_le_slots n
          have hfit : 16 * n.freeSlot + 16 ≤ n.size := by
            have := lt_size_of_lt_slots (show n.freeSlot < n.slots by omega)
            have := hm.whole
            omega
          exact ⟨fun hno => absurd hno (covered hl h hfit), fun hno => absurd hno.1 hlt⟩
      rw [hgrow] at hiff
      by_cases ha : a = 16
      · rw [if_pos ha] at hdir
        rw [if_neg (fun hne => hne ha)]
        exact wp_pure ⟨hfree, .inr ⟨rfl, hnone, fun hno => hiff.mpr hno ha, hdir⟩⟩
      · rw [if_neg ha] at hdir
        rw [if_pos ha]
        exact wp_pure ⟨hfree, .inl ⟨rfl, hdir, .inr (hiff.mp ha)⟩⟩
  · refine ((iput_back htaken (fun _ => ⟨rfl, rfl⟩) rfl).mono (fun _ _ => id) (fun _ => False.elim)).bind ?_
    rintro _ fs'' ⟨hdisk, hip, href, hfree⟩
    refine wp_pure ⟨hfree, .inl ⟨rfl, (h.taken htaken).congr hdisk hip ?_, .inl ?_⟩⟩
    · rw [href]
      exact h.ref
    · rw [hsome]
      exact Option.some_ne_none _

theorem clearEntry_dir (hm : IsMap n) (name : Name) : Wp (clearEntry sb dp name) fs
      (fun r fs' => fs'.slots = fs.slots ∧
        (r = none ∧ n.find name = none ∧ fs' = fs ∨
          ∃ s i, n.find name = some (s, i) ∧ r = some (16 * s, i) ∧ Directory sb dp (clear n s) fs'))
      (TableFull fs) := by
  rw [clearEntry]
  refine (dirlookup_dir hl h hm name).bind ?_
  rintro r fs₁ (⟨rfl, hnone, rfl⟩ | ⟨s, i, hsome, rfl, htaken⟩)
  · exact wp_pure ⟨rfl, .inl ⟨rfl, hnone, rfl⟩⟩
  · have hb := (find_iff hm).mp hsome
    have hfit : 16 * s + 16 ≤ n.size := by
      have := lt_size_of_lt_slots hb.1
      have := hm.whole
      omega
    refine ((writeEntry_dir hl (h.taken htaken) (Nat.le_trans (Nat.le_add_right ..) hfit) fun _ => 0).mono
      (fun _ _ => id) (fun _ => False.elim)).bind ?_
    rintro a fs₂ ⟨hiff, hdir, hfree, hsame⟩
    have ha : a = 16 := by
      by_contra hne
      exact covered hl (h.taken htaken) hfit (hiff.mp hne)
    rw [if_pos ha] at hdir
    rw [if_neg (fun hne => hne ha)]
    refine ((iput_back htaken hsame hfree).mono (fun _ _ => id) (fun _ => False.elim)).bind ?_
    rintro _ fs₃ ⟨hdisk, hip, href, hfree'⟩
    refine wp_pure ⟨hfree', .inr ⟨s, i, hsome, rfl, hdir.congr hdisk hip ?_⟩⟩
    rw [href]
    exact h.ref

end Calls

theorem found_iff (hm : IsMap n) {r : Option (Nat × Nat)}
    (hr : r = none ∧ n.find name = none ∨ ∃ s i, n.find name = some (s, i) ∧ r = some (16 * s, i)) (off i : Nat) :
    r = some (off, i) ↔ ∃ s, off = 16 * s ∧ Binds n name s i := by
  rcases hr with ⟨rfl, hnone⟩ | ⟨s, j, hsome, rfl⟩
  · refine ⟨nofun, ?_⟩
    rintro ⟨s, -, hb⟩
    exact absurd hb ((find_none_iff hm).mp hnone s i)
  · constructor
    · intro h
      cases h
      exact ⟨s, rfl, (find_iff hm).mp hsome⟩
    · rintro ⟨q, rfl, hb⟩
      rw [(find_iff hm).mpr hb] at hsome
      cases hsome
      rfl

theorem perform_spec (hl : Layout sb) (h : Directory sb dp n fs) (hm : IsMap n) {op : Op} (hfit : op.Fits) :
    Wp (perform sb dp op) fs
      (fun r fs' => ∃ n', Directory sb dp n' fs' ∧ IsMap n' ∧ fs'.slots = fs.slots ∧ Behaves sb dp fs n op r n')
      (TableFull fs) := by
  cases op with
  | link name inum =>
    rw [perform]
    refine (dirlink_dir hl h hm name inum).bind ?_
    rintro r fs' ⟨hfree, ⟨rfl, hdir, hwhy⟩ | ⟨rfl, hnone, hgrow, hdir⟩⟩
    · refine wp_pure ⟨n, hdir, hm, hfree, .inr rfl, ⟨fun _ => ?_, fun _ => rfl⟩, fun _ _ _ _ => Iff.rfl,
        nofun⟩
      refine hwhy.imp_left fun hne => ?_
      obtain ⟨⟨s, i⟩, hs⟩ := Option.ne_none_iff_exists'.mp hne
      exact ⟨s, i, (find_iff hm).mp hs⟩
    · have hno := (find_none_iff hm).mp hnone
      refine wp_pure ⟨add n name inum, hdir, isMap_add hm hno, hfree, .inl rfl, ⟨nofun, ?_⟩,
        nofun, fun _ => ⟨n.freeSlot, binds_add hfit.1 hfit.2 hno⟩⟩
      rintro (⟨s, i, hb⟩ | hno')
      · exact absurd hb (hno s i)
      · exact absurd hno' hgrow
  | lookup name =>
    rw [perform]
    refine (dirlookup_dir hl h hm name).bind ?_
    rintro r fs' (⟨rfl, hnone, rfl⟩ | ⟨s, i, hsome, rfl, htaken⟩)
    · exact wp_pure_bind (wp_pure ⟨n, h, hm, rfl, found_iff hm (.inl ⟨rfl, hnone⟩), fun _ _ _ => Iff.rfl⟩)
    · refine ((iput_back htaken (fun _ => ⟨rfl, rfl⟩) rfl).mono (fun _ _ => id) (fun _ => False.elim)).bind ?_
      rintro _ fs'' ⟨hdisk, hip, href, hfree⟩
      refine wp_pure ⟨n, (h.taken htaken).congr hdisk hip ?_, hm, hfree,
        found_iff hm (.inr ⟨s, i, hsome, rfl⟩), fun _ _ _ => Iff.rfl⟩
      rw [href]
      exact h.ref
  | clear name =>
    rw [perform]
    refine (clearEntry_dir hl h hm name).bind ?_
    rintro r fs' ⟨hfree, ⟨rfl, hnone, rfl⟩ | ⟨s, i, hsome, rfl, hdir⟩⟩
    · refine wp_pure ⟨n, h, hm, rfl, found_iff hm (.inl ⟨rfl, hnone⟩), fun name' s i => ?_⟩
      refine ⟨fun hb => ⟨fun heq => ?_, hb⟩, fun hb => hb.2⟩
      exact (find_none_iff hm).mp hnone s i ⟨hb.1, hb.2.1, hb.2.2.1.trans heq, hb.2.2.2⟩
    · have hb := (find_iff hm).mp hsome
      exact wp_pure ⟨clear n s, hdir, isMap_clear hm hb.1, hfree, found_iff hm (.inr ⟨s, i, hsome, rfl⟩),
        binds_clear hm hb⟩

theorem performAll_spec (hl : Layout sb) (ops : List Op) (hfit : ∀ op ∈ ops, op.Fits) (h : Directory sb dp n fs)
    (hm : IsMap n) :
    Wp (performAll sb dp ops) fs (fun _ fs' => ∃ n', Directory sb dp n' fs' ∧ IsMap n' ∧ fs'.slots = fs.slots)
      (TableFull fs) := by
  induction ops generalizing n fs with
  | nil => exact wp_pure ⟨n, h, hm, rfl⟩
  | cons op ops ih =>
    rw [performAll]
    refine (perform_spec hl h hm (hfit op (List.mem_cons_self ..))).bind ?_
    rintro r fs₁ ⟨n₁, h₁, hm₁, hfree, -⟩
    have hrest := ih (fun op' hop' => hfit op' (List.mem_cons_of_mem _ hop')) h₁ hm₁
    have hfull : ∀ e, TableFull fs₁ e → TableFull fs e := by
      rintro e ⟨rfl, h₀⟩
      exact ⟨rfl, by rw [← hfree]; exact h₀⟩
    refine (hrest.mono (fun _ _ => id) hfull).bind ?_
    rintro rs fs₂ ⟨n₂, h₂, hm₂, hfree'⟩
    exact wp_pure ⟨n₂, h₂, hm₂, hfree'.trans hfree⟩

end Steps

/-- After any sequence of calls the directory is a finite map, and the next call does to it what it should.
Only a full inode table stops a call. -/
theorem directories_are_maps (hl : Layout sb) (h : Directory sb dp n fs) (hm : IsMap n) (ops : List Op)
    (hfit : ∀ op ∈ ops, op.Fits) :
    Wp (performAll sb dp ops) fs
      (fun _ fs' => ∃ n', Directory sb dp n' fs' ∧ IsMap n' ∧ ∀ op, op.Fits → Wp (perform sb dp op) fs'
        (fun r fs'' => ∃ n'', Directory sb dp n'' fs'' ∧ IsMap n'' ∧ Behaves sb dp fs' n' op r n'') (TableFull fs'))
      (TableFull fs) := by
  refine (performAll_spec hl ops hfit h hm).imp ?_
  rintro rs fs' ⟨n', h', hm', -⟩
  refine ⟨n', h', hm', fun op hop => (perform_spec hl h' hm' hop).imp ?_⟩
  rintro r fs'' ⟨n'', h'', hm'', -, hb⟩
  exact ⟨n'', h'', hm'', hb⟩

def emptyInode : Inode := { ByteArrays.tiny.ip with type := T_DIR, size := 0 }

def emptyFs : Fs where
  disk := setDinode ByteArrays.tinySuperblock ByteArrays.tiny.disk 1 emptyInode
  itable := fun _ => ⟨1, true, true, emptyInode⟩
  slots := 1

theorem emptyFs_directory :
    Directory ByteArrays.tinySuperblock 1 (node emptyInode emptyFs.disk) emptyFs where
  good := (storeInode (z := emptyInode) ByteArrays.tiny_layout ByteArrays.tiny_good (by decide) rfl
    (fun _ h => absurd h (Nat.not_lt_zero _))).1
  node := rfl
  type := rfl
  ref := Nat.one_pos

theorem directories_are_maps_empty : ∃ rs fs' n',
    performAll ByteArrays.tinySuperblock 1 [.link [97] 5, .link [98] 6] emptyFs = .ok (rs, fs') ∧
      Directory ByteArrays.tinySuperblock 1 n' fs' ∧ IsMap n' := by
  have hm : IsMap (node emptyInode emptyFs.disk) :=
    ⟨rfl, fun r s hr => absurd hr (Nat.not_lt_zero _)⟩
  have hfit : ∀ op ∈ [Op.link [97] 5, .link [98] 6], op.Fits := by
    intro op hop
    rcases List.mem_cons.mp hop with rfl | hop
    · exact ⟨by decide, by decide⟩
    · obtain rfl := List.mem_singleton.mp hop
      exact ⟨by decide, by decide⟩
  have hdir := emptyFs_directory
  have hfree : emptyFs.slots ≠ 0 := by decide
  generalize emptyFs = fs at hm hdir hfree ⊢
  rcases (directories_are_maps ByteArrays.tiny_layout hdir hm _ hfit).cases with
    ⟨rs, fs', heq, n', hd, hm', -⟩ | ⟨e, -, -, hfull⟩
  · exact ⟨rs, fs', n', heq, hd, hm'⟩
  · exact absurd hfull hfree

end AdaptiveXv6.DirectoryMaps
