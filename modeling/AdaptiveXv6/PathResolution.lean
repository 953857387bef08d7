import AdaptiveXv6.DirectoryMaps
import AdaptiveXv6.PathStrings

namespace AdaptiveXv6.PathResolution

open Bytes Blocks Content Store Programs BlockMaps InodeTable Directories Nodes TableSteps InodeSteps DirectorySteps
  PathStrings

def isDir (T : Tree) (i : Nat) : Bool := (T i).any fun n => decide (n.type = T_DIR)

/-- What dirlookup() finds in a directory. -/
def look (T : Tree) (dp : Nat) (name : Name) : Option Nat :=
  (T dp).bind fun n => if n.type = T_DIR then (n.find name).map Prod.snd else none

def lookup (T : Tree) (names : List Name) (ip : Nat) : Option Nat := names.foldlM (look T) ip

/-- The directory that the last component is looked up in. -/
def parentOf (T : Tree) (names : List Name) (ip : Nat) : Option (Nat × Name) :=
  names.getLast?.bind fun last =>
    (lookup T names.dropLast ip).bind fun dp => if isDir T dp then some (dp, last) else none

variable {sb : Superblock} {fs : Fs} {T : Tree} {R : Nat → Nat} {t : List Nat} {i m ip cwd : Nat} {n : Node}

theorem lookup_cons (T : Tree) (name : Name) (names : List Name) (ip : Nat) :
    lookup T (name :: names) ip = (look T ip name).bind (lookup T names) := List.foldlM_cons

theorem lookup_append (T : Tree) (names names' : List Name) (ip : Nat) :
    lookup T (names ++ names') ip = (lookup T names ip).bind (lookup T names') := List.foldlM_append

theorem isDir_iff {dp : Nat} : isDir T dp = true ↔ ∃ n, T dp = some n ∧ n.type = T_DIR := by
  rw [isDir]
  cases T dp <;> simp

theorem look_eq_none {dp : Nat} {name : Name} :
    look T dp name = none ↔ isDir T dp = false ∨ ∃ n, T dp = some n ∧ n.find name = none := by
  rw [look, isDir]
  cases T dp with
  | none => simp
  | some n =>
    dsimp only [Option.bind_some, Option.any_some]
    by_cases hdir : n.type = T_DIR
    · simp [hdir]
    · simp [hdir]

theorem lookup_eq_none {names : List Name} :
    lookup T names ip = none ↔ ∃ before name after dp, names = before ++ name :: after ∧
      lookup T before ip = some dp ∧ (isDir T dp = false ∨ ∃ n, T dp = some n ∧ n.find name = none) := by
  constructor
  · intro h
    induction names generalizing ip with
    | nil => cases h
    | cons name names ih =>
      cases hl : look T ip name with
      | none => exact ⟨[], name, names, ip, rfl, rfl, look_eq_none.mp hl⟩
      | some next =>
        rw [lookup_cons, hl] at h
        obtain ⟨before, x, after, dp, rfl, hdp, hx⟩ := ih h
        refine ⟨name :: before, x, after, dp, rfl, ?_, hx⟩
        rw [lookup_cons, hl]
        exact hdp
  · rintro ⟨before, x, after, dp, rfl, hdp, hx⟩
    rw [lookup_append, hdp, Option.bind_some, lookup_cons, look_eq_none.mpr hx]
    rfl

theorem parentOf_append (T : Tree) (names : List Name) (last : Name) (ip : Nat) :
    parentOf T (names ++ [last]) ip =
      (lookup T names ip).bind fun dp => if isDir T dp then some (dp, last) else none := by
  rw [parentOf, List.getLast?_concat, List.dropLast_concat]
  rfl

theorem parentOf_eq_none {names : List Name} :
    parentOf T names ip = none ↔ names = [] ∨ lookup T names.dropLast ip = none ∨
      ∃ dp, lookup T names.dropLast ip = some dp ∧ isDir T dp = false := by
  rcases List.eq_nil_or_concat' names with rfl | ⟨names, last, rfl⟩
  · exact ⟨fun _ => .inl rfl, fun _ => rfl⟩
  · rw [parentOf_append, List.dropLast_concat]
    cases lookup T names ip with
    | none => simp
    | some dp => simp

theorem lookup_of_parentOf {names : List Name} {dp : Nat} {last : Name}
    (h : parentOf T names ip = some (dp, last)) : names.getLast? = some last ∧ lookup T names ip = look T dp last := by
  rcases List.eq_nil_or_concat' names with rfl | ⟨names, last', rfl⟩
  · cases h
  · rw [parentOf_append] at h
    rw [lookup_append, List.getLast?_concat]
    cases hl : lookup T names ip with
    | none =>
      rw [hl] at h
      cases h
    | some d =>
      rw [hl, Option.bind_some] at h
      split at h
      · cases h
        refine ⟨rfl, ?_⟩
        rw [Option.bind_some, lookup_cons]
        cases look T dp last <;> rfl
      · cases h

/-- What namex() finds from ip on. -/
def found (T : Tree) (parent : Bool) (names : List Name) (ip : Nat) : Option (Nat × Name) :=
  if parent then parentOf T names ip else (lookup T names ip).map fun ip => (ip, [])

theorem look_eq {name : Name} (hn : T ip = some n) (hdir : n.type = T_DIR) :
    look T ip name = (n.find name).map Prod.snd := by
  rw [look, hn, Option.bind_some, if_pos hdir]

theorem found_cons {parent : Bool} {name : Name} {names : List Name} (h : ¬(parent = true ∧ names = [])) :
    found T parent (name :: names) ip = (look T ip name).bind (found T parent names) := by
  cases parent with
  | false =>
    change (lookup T (name :: names) ip).map _ = _
    rw [lookup_cons, Option.map_bind]
    rfl
  | true =>
    cases names with
    | nil => exact absurd ⟨rfl, rfl⟩ h
    | cons b names =>
      change parentOf T (name :: b :: names) ip = _
      rw [parentOf, List.getLast?_cons_cons, List.dropLast_cons_cons, lookup_cons]
      cases look T ip name with
      | none => exact Option.bind_fun_none _
      | some next => rfl

theorem found_none {parent : Bool} {name : Name} {names : List Name} (hdir : isDir T ip = false) :
    found T parent (name :: names) ip = none := by
  by_cases h : parent = true ∧ names = []
  · obtain ⟨rfl, rfl⟩ := h
    change (if isDir T ip then some (ip, name) else none) = none
    rw [hdir]
    rfl
  · rw [found_cons h, look_eq_none.mpr (.inl hdir)]
    rfl

/-- Whether the call keeps a reference, and to what. -/
def Resolved (sb : Superblock) (T : Tree) (R : Nat → Nat) (t : List Nat) (m : Nat) (r : Option (Nat × Name))
    (fs : Fs) : Prop :=
  match r with
  | none => At sb T R t [] m fs
  | some (ip, _) => At sb T R (ip :: t) [] m fs

/-- How namex() can panic, with c references of the call itself. -/
def LookupStops (sb : Superblock) (T : Tree) (R : Nat → Nat) (c : Nat) : Panic → Prop
  | .igetNoInodes => NINODE ≤ load sb R + c
  | .ilockNoType => Dangling T R
  | .dirlookupRead => Torn T
  | .dirlinkRead => Torn T
  | _ => False

theorem LookupStops.of_dir {c c' : Nat} {e : Panic} (hn : T i = some n) (hdir : n.type = T_DIR) (hc : c ≤ c')
    (h : DirStops sb R c n e) : LookupStops sb T R c' e := by
  cases e with
  | igetNoInodes => exact Nat.le_trans h (Nat.add_le_add_left hc _)
  | dirlookupRead => exact ⟨i, n, hn, hdir, h⟩
  | dirlinkRead => exact ⟨i, n, hn, hdir, h⟩
  | _ => exact h.elim

theorem dirlookup_look (hl : Layout sb) (hc : Calm T R) (hin : InRange sb T) {L : List Nat} (h : At sb T R t L m fs)
    {dp : Nat} (hdp : dp ∈ L) (hdir : isDir T dp = true) (name : Name) :
    Wp (dirlookup sb dp name) fs (fun r _ => r.map Prod.snd = look T dp name) (LookupStops sb T R t.length) := by
  obtain ⟨n, hn, htype⟩ := isDir_iff.mp hdir
  refine (dirlookup_spec hl hc hin h hdp hn htype).mono ?_ fun e => LookupStops.of_dir hn htype (Nat.le_refl _)
  rw [look, hn, Option.bind_some, if_pos htype]
  rintro r fs' (⟨hnone, -, rfl, -⟩ | ⟨s, i, hsome, -, rfl, -⟩)
  · rw [hnone]
  · rw [hsome]
    rfl

theorem namexLoop_spec (hl : Layout sb) (hc : Calm T R) (hin : InRange sb T) (parent : Bool) {path : Path}
    (hnul : 0 ∉ path) (junk name : List Byte) (h : At sb T R (ip :: t) [] m fs) (hk : Known T R ip) :
    Wp (namexLoop sb parent (path ++ 0 :: junk) name ip) fs
      (fun r fs' => r.map (read parent) = found T parent (components path) ip ∧ Resolved sb T R t m r fs')
      (LookupStops sb T R (t.length + 1)) := by
  induction hlen : path.length using Nat.strong_induction_on generalizing path name ip fs with
  | _ l ih =>
  subst hlen
  cases hcomp : components path with
  | nil =>
    rw [namexLoop, skipelem_none hcomp]
    cases parent with
    | false => exact wp_pure ⟨rfl, h⟩
    | true =>
      refine ((iput_spec hl h (by simp)).mono (fun _ _ => id) (fun _ => False.elim)).bind fun _ fs' hfs' => ?_
      rw [release_calm hc] at hfs'
      exact wp_pure ⟨rfl, hfs'⟩
  | cons elem elems =>
    obtain ⟨rest, name', heq, rfl, hnul', rfl, hlast, hlt⟩ := skipelem_cons junk name hnul hcomp
    have hstop : (rest ++ 0 :: junk).headD 0 = 0 ↔ components rest = [] := by
      rw [← hlast]
      cases rest with
      | nil => simp
      | cons a rest => exact ⟨fun h => absurd h fun h => hnul' (h ▸ List.mem_cons_self), nofun⟩
    rw [namexLoop, heq]
    refine ((ilock_spec h (by rw [List.count_cons_self]; omega)).mono (fun _ _ => id) ?_).bind ?_
    · rintro e (⟨-, hL⟩ | ⟨rfl, hnone⟩)
      · simp at hL
      · exact ⟨ip, hk, hnone⟩
    rintro _ fs₁ ⟨h₁, -⟩
    have hmem : ip ∈ [ip] := List.mem_cons_self ..
    have hT := h₁.node_eq hmem
    have hput : ∀ {fs₂ : Fs} {t₂ : List Nat}, At sb T R (ip :: t₂) [ip] m fs₂ →
        Wp (iunlockput sb ip) fs₂ (fun _ => At sb T R t₂ [] m) (LookupStops sb T R (t.length + 1)) := by
      intro fs₂ t₂ h₂
      refine (iunlockput_spec hl h₂ (by simp)).mono (fun _ fs₃ h₃ => ?_) (fun _ => False.elim)
      rwa [release_calm hc] at h₃
    refine wp_get_bind ?_
    by_cases hdir : (fs₁.itable ip).ip.type = T_DIR
    · rw [if_neg (fun h => h hdir)]
      by_cases hparent : parent = true ∧ components rest = []
      · rw [if_pos (hparent.imp_right hstop.mpr), hparent.1, hparent.2]
        refine ((iunlock_spec h₁ (by simp)).mono (fun _ _ => id) (fun _ => False.elim)).bind fun _ fs₂ h₂ => ?_
        refine wp_pure ⟨?_, h₂⟩
        exact (if_pos (isDir_iff.mpr ⟨_, hT, hdir⟩)).symm
      · rw [if_neg fun h => hparent (h.imp_right hstop.mp), ← dirlookup_string, found_cons hparent, look_eq hT hdir]
        refine ((dirlookup_spec hl hc hin h₁ hmem hT hdir).mono (fun _ _ => id)
          fun e => LookupStops.of_dir hT hdir (Nat.le_refl _)).bind ?_
        rintro r fs₂ (⟨hnone, -, rfl, h₂⟩ | ⟨s, next, hsome, hfits, rfl, h₂⟩)
        · rw [hnone]
          exact (hput h₂).bind fun _ fs₃ h₃ => wp_pure ⟨rfl, h₃⟩
        · rw [hsome]
          refine (hput h₂.swap).bind fun _ fs₃ h₃ => ?_
          exact ih _ hlt hnul' name' h₃ (.inr (.inr (named_of_find hT hdir hsome hfits))) rfl
    · have hnot : isDir T ip = false := by
        rw [isDir, hT]
        exact decide_eq_false hdir
      rw [if_pos hdir, found_none hnot]
      exact (hput h₁).bind fun _ fs₂ h₂ => wp_pure ⟨rfl, h₂⟩

def start (cwd : Nat) (path : Path) : Nat := if path.head? = some slash then ROOTINO else cwd

theorem namex_spec (hl : Layout sb) (hc : Calm T R) (hin : InRange sb T) (h : At sb T R t [] m fs)
    (hcwd : 0 < R cwd) {path : Path} (hnul : 0 ∉ path) (parent : Bool) (junk name : List Byte) :
    Wp (namex sb cwd (path ++ 0 :: junk) parent name) fs
      (fun r fs' => r.map (read parent) = found T parent (components path) (start cwd path) ∧
        Resolved sb T R t m r fs') (LookupStops sb T R (t.length + 1)) := by
  have hroot : (path ++ 0 :: junk).headD 0 = slash ↔ path.head? = some slash := by
    cases path with
    | nil => exact ⟨fun h => absurd (show (0 : Byte) = slash from h) (by decide), nofun⟩
    | cons a path => simp
  rw [namex, start]
  dsimp only
  by_cases hp : path.head? = some slash
  · rw [if_pos (hroot.mpr hp), if_pos (hroot.mpr hp), if_pos hp]
    refine ((iget_spec h hc hl.root).mono (fun _ _ => id) ?_).bind fun _ fs' hfs' => ?_
    · rintro e ⟨rfl, hcr⟩
      exact Nat.le_trans hcr (Nat.le_succ _)
    · exact namexLoop_spec hl hc hin parent hnul junk name hfs' (.inl rfl)
  · rw [if_neg (mt hroot.mp hp), if_neg (mt hroot.mp hp), if_neg hp]
    have href : 0 < (fs.itable cwd).ref := by
      rw [h.refs]
      omega
    refine ((idup_spec h href).mono (fun _ _ => id) (fun _ => False.elim)).bind fun _ fs' hfs' => ?_
    exact namexLoop_spec hl hc hin parent hnul junk name hfs' (.inr (.inl hcwd))

/-- All references taken are dropped, but the one to the inode returned. -/
def Dropped (fs fs' : Fs) (r : Option Nat) : Prop :=
  ∀ i, (fs'.itable i).ref = (fs.itable i).ref + if r = some i then 1 else 0

theorem Resolved.dropped (h : At sb T R t [] m fs) {r : Option (Nat × Name)} {fs' : Fs}
    (hr : Resolved sb T R t m r fs') : tree sb fs'.disk = T ∧ Dropped fs fs' (r.map Prod.fst) := by
  cases r with
  | none => exact ⟨At.tree hr, fun i => by rw [At.refs hr, h.refs]; rfl⟩
  | some x =>
    refine ⟨At.tree hr, fun i => ?_⟩
    rw [At.refs hr, h.refs, Option.map_some, List.count_cons, Nat.add_assoc]
    simp only [Option.some.injEq, beq_iff_eq]

/-- Paths name what their components name. A path is the bytes before its zero, and the name buffer may hold
anything. -/
theorem path_resolution (hl : Layout sb) (hc : Calm T R) (hin : InRange sb T) (h : At sb T R t [] m fs)
    (hcwd : 0 < R cwd) {path : Path} (hnul : 0 ∉ path) (junk name : List Byte) :
    names (path ++ 0 :: junk) name = components path ∧
    Wp (namei sb cwd (path ++ 0 :: junk) name) fs
      (fun r fs' => r = lookup T (components path) (start cwd path) ∧ tree sb fs'.disk = T ∧ Dropped fs fs' r)
      (LookupStops sb T R (t.length + 1)) ∧
    Wp (nameiparent sb cwd (path ++ 0 :: junk) name) fs
      (fun r fs' => r.map (read true) = parentOf T (components path) (start cwd path) ∧
        tree sb fs'.disk = T ∧ Dropped fs fs' (r.map Prod.fst))
      (LookupStops sb T R (t.length + 1)) ∧
    (∀ names ip, lookup T names ip = none ↔ ∃ before name after dp, names = before ++ name :: after ∧
      lookup T before ip = some dp ∧ (isDir T dp = false ∨ ∃ n, T dp = some n ∧ n.find name = none)) ∧
    (∀ names ip, parentOf T names ip = none ↔ names = [] ∨ lookup T names.dropLast ip = none ∨
      ∃ dp, lookup T names.dropLast ip = some dp ∧ isDir T dp = false) ∧
    (∀ names ip dp last, parentOf T names ip = some (dp, last) →
      names.getLast? = some last ∧ lookup T names ip = look T dp last) ∧
    ∀ fs' L t' dp, At sb T R t' L m fs' → dp ∈ L → isDir T dp = true → ∀ elem,
      Wp (dirlookup sb dp elem) fs' (fun r _ => r.map Prod.snd = look T dp elem) (LookupStops sb T R t'.length) := by
  -- both modes of namex() at once
  have hspec : ∀ parent, Wp (namex sb cwd (path ++ 0 :: junk) parent name) fs
      (fun r fs' => r.map (read parent) = found T parent (components path) (start cwd path) ∧
        tree sb fs'.disk = T ∧ Dropped fs fs' (r.map Prod.fst)) (LookupStops sb T R (t.length + 1)) := by
    intro parent
    refine (namex_spec hl hc hin h hcwd hnul parent junk name).imp ?_
    rintro r fs' ⟨hr, hres⟩
    exact ⟨hr, Resolved.dropped h hres⟩
  refine ⟨?_, ?_, ?_, fun _ _ => lookup_eq_none, fun _ _ => parentOf_eq_none, fun _ _ _ _ => lookup_of_parentOf,
    fun _ _ _ _ hat hdp hdir => dirlookup_look hl hc hin hat hdp hdir⟩
  · exact names_eq hnul
  · rw [namei]
    refine (hspec false).bind ?_
    rintro r fs' ⟨hr, hkeep⟩
    refine wp_pure ⟨?_, hkeep⟩
    have hr' := congrArg (Option.map Prod.fst) hr
    rw [found, if_neg Bool.false_ne_true, Option.map_map, Option.map_map] at hr'
    exact hr'.trans Option.map_id'
  · exact hspec true

section Example

open ByteArrays FileWrites

def rootInode : Inode := { tiny.ip with type := T_DIR, size := 32 }

/-- A disk with a root directory, which is the current directory of one process and has an unused entry and
"a" for itself. -/
def rootFs : Fs where
  disk := setDinode tinySuperblock tiny.disk 1 rootInode
  itable := fun i => if i = 1 then ⟨1, false, false, Inode.zero⟩ else ⟨0, false, false, Inode.zero⟩
  slots := 49

def rootRefs (i : Nat) : Nat := if i = 1 then 1 else 0

theorem rootFs_dinode : dinode tinySuperblock rootFs.disk 1 = rootInode := dinode_setDinode_self ..

theorem rootFs_root : tree tinySuperblock rootFs.disk 1 = some (node rootInode rootFs.disk) := by
  rw [tree, rootFs_dinode]
  exact if_pos ⟨by decide, by decide⟩

theorem rootFs_tree {i : Nat} {n : Node} (h : tree tinySuperblock rootFs.disk i = some n) :
    i = 1 ∧ n = node rootInode rootFs.disk := by
  have hlt : i < 2 := by
    rw [tree] at h
    split at h
    · rename_i hal
      exact hal.1
    · cases h
  rcases (show i = 0 ∨ i = 1 by omega) with rfl | rfl
  · rw [tree, if_neg fun hal => hal.2 rfl] at h
    cases h
  · rw [rootFs_root] at h
    exact ⟨rfl, (Option.some.inj h).symm⟩

theorem rootFs_named {i : Nat} (h : Named (tree tinySuperblock rootFs.disk) i) : i = 1 := by
  obtain ⟨p, n, s, hp, -, hs, hne, hi⟩ := h
  obtain ⟨-, rfl⟩ := rootFs_tree hp
  have hsize : 16 * s + 16 ≤ 32 := hs
  rcases (show s = 0 ∨ s = 1 by omega) with rfl | rfl
  · exact absurd (by decide +kernel) hne
  · rw [← hi]
    decide +kernel

theorem rootRefs_pos {i : Nat} (h : 0 < rootRefs i) : i = 1 := by
  by_contra hne
  rw [rootRefs, if_neg hne] at h
  exact Nat.lt_irrefl 0 h

theorem rootFs_at : At tinySuperblock (tree tinySuperblock rootFs.disk) rootRefs [] [] 0 rootFs := by
  have hfilled : ∀ bn, bn * BSIZE < 32 → blockAt tiny.ip tiny.disk bn ≠ 0 := by
    intro bn hbn
    change bn * 1024 < 32 at hbn
    obtain rfl : bn = 0 := by omega
    decide
  have hvalid := (storeInode (z := rootInode) tiny_layout tiny_good (by decide) rfl hfilled).1.valid
  have hfam : fam tinySuperblock 1 ⟨rootInode, rootFs.disk⟩ = dinode tinySuperblock rootFs.disk := by
    rw [fam, ← rootFs_dinode, Function.update_eq_self]
  rw [show setDinode tinySuperblock tiny.disk 1 rootInode = rootFs.disk from rfl, hfam] at hvalid
  have href : ∀ i, (rootFs.itable i).ref = rootRefs i := by
    intro i
    rw [rootFs, rootRefs]
    dsimp only
    split <;> rfl
  have hidle : ∀ i, (rootFs.itable i).locked = false ∧ (rootFs.itable i).valid = false := by
    intro i
    rw [rootFs]
    dsimp only
    split <;> exact ⟨rfl, rfl⟩
  refine ⟨⟨hvalid, ?_, ?_, ?_, ?_⟩, rfl, href, ?_, ?_, Allocation.Room.zero _ _⟩
  · intro i _ hv
    rw [(hidle i).2] at hv
    cases hv
  · intro i hi
    rw [href] at hi
    rw [rootRefs_pos hi]
    decide
  · intro i hi
    rw [(hidle i).1] at hi
    cases hi
  · rw [funext href]
    decide
  · intro i
    rw [(hidle i).1]
    simp
  · intro i n hn hz _
    rw [(rootFs_tree hn).2] at hz
    exact absurd hz (by decide)

theorem rootFs_stops {e : Panic} : ¬LookupStops tinySuperblock (tree tinySuperblock rootFs.disk) rootRefs 1 e := by
  have htorn : ¬Torn (tree tinySuperblock rootFs.disk) := by
    rintro ⟨i, n, hn, -, htorn⟩
    rw [(rootFs_tree hn).2] at htorn
    exact htorn rfl
  intro he
  cases e with
  | igetNoInodes => exact absurd (show NINODE ≤ load tinySuperblock rootRefs + 1 from he) (by decide)
  | ilockNoType =>
    obtain ⟨i, hknown, hnone⟩ := he
    have hi : i = 1 := hknown.elim id fun h => h.elim rootRefs_pos rootFs_named
    rw [hi, rootFs_root] at hnone
    cases hnone
  | dirlookupRead | dirlinkRead => exact htorn he
  | _ => exact he

/-- namei("/a//a") and nameiparent("/a//a"). -/
theorem path_resolution_root :
    Wp (namei tinySuperblock 1 [47, 97, 47, 47, 97, 0, 5] []) rootFs
      (fun r fs' => r = some 1 ∧ Dropped rootFs fs' (some 1)) (fun _ => False) ∧
    Wp (nameiparent tinySuperblock 1 [47, 97, 47, 47, 97, 0, 5] []) rootFs
      (fun r fs' => r.map (read true) = some (1, [97]) ∧ Dropped rootFs fs' (some 1)) fun _ => False := by
  have hc : Calm (tree tinySuperblock rootFs.disk) rootRefs := by
    intro i n hn _
    rw [(rootFs_tree hn).1]
    decide
  have hin : InRange tinySuperblock (tree tinySuperblock rootFs.disk) := by
    intro i hi
    rw [rootFs_named hi]
    decide
  have hlook : look (tree tinySuperblock rootFs.disk) 1 [97] = some 1 := by
    rw [look, rootFs_root]
    decide +kernel
  have hlookup : lookup (tree tinySuperblock rootFs.disk) [[97]] 1 = some 1 := by
    rw [lookup, List.foldlM_cons, hlook]
    rfl
  obtain ⟨-, hnamei, hparent, -⟩ := path_resolution tiny_layout hc hin rootFs_at
    (show 0 < rootRefs 1 by decide) (show (0 : Byte) ∉ [47, 97, 47, 47, 97] by decide) [5] []
  refine ⟨hnamei.mono ?_ fun _ => rootFs_stops, hparent.mono ?_ fun _ => rootFs_stops⟩
  · rintro r fs' ⟨hr, -, hdrop⟩
    have htwo : lookup (tree tinySuperblock rootFs.disk) [[97], [97]] 1 = some 1 := by
      rw [lookup, List.foldlM_cons, hlook]
      exact hlookup
    obtain rfl := hr.trans htwo
    exact ⟨rfl, hdrop⟩
  · rintro r fs' ⟨hr, -, hdrop⟩
    have hdir : isDir (tree tinySuperblock rootFs.disk) 1 = true := isDir_iff.mpr ⟨_, rootFs_root, rfl⟩
    have hone := parentOf_append (tree tinySuperblock rootFs.disk) [[97]] [97] 1
    rw [hlookup, Option.bind_some, if_pos hdir] at hone
    have hlast := hr.trans hone
    refine ⟨hlast, ?_⟩
    obtain ⟨x, rfl, hx⟩ := Option.map_eq_some_iff.mp hlast
    rwa [Option.map_some, show x.1 = 1 from congrArg Prod.fst hx] at hdrop

end Example

end AdaptiveXv6.PathResolution
