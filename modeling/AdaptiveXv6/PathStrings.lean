import Mathlib.Data.List.DropRight
import Mathlib.Data.List.TakeWhile
import AdaptiveXv6.DirectorySteps

namespace AdaptiveXv6.PathStrings

open Bytes Blocks InodeTable Directories

abbrev Path := List Byte

def slash : Byte := 47

/-- skipelem() on the bytes from a pointer on. The buffer holds what earlier calls left. -/
def skipelem (path name : List Byte) : Option (List Byte × List Byte) :=
  let s := path.dropWhile (· == slash)
  if s.headD 0 = 0 then none
  else
    let rest := s.dropWhile fun c => c != slash && c != 0
    let len := s.length - rest.length
    let name := if DIRSIZ ≤ len then s.take DIRSIZ ++ name.drop DIRSIZ else s.take len ++ 0 :: name.drop (len + 1)
    some (rest.dropWhile (· == slash), name)

theorem skipelem_lt {path name path' name' : List Byte} (h : skipelem path name = some (path', name')) :
    path'.length < path.length := by
  rw [skipelem] at h
  dsimp only at h
  split at h
  · cases h
  · rename_i hs
    cases h
    have hle := (List.dropWhile_suffix (l := path) (· == slash)).length_le
    have hhead := List.head?_dropWhile_not (· == slash) path
    generalize path.dropWhile (· == slash) = s at hs hle hhead ⊢
    cases s with
    | nil => exact absurd rfl hs
    | cons a s =>
      have ha : (a != slash && a != 0) = true := by
        have hslash : (a == slash) = false := by simpa using hhead
        have hzero : (a != 0) = true := bne_iff_ne.mpr hs
        rw [hzero, bne, hslash]
        rfl
      have hle₁ := (List.dropWhile_suffix (l := s) fun c => c != slash && c != 0).length_le
      have hle₂ := (List.dropWhile_suffix (l := s.dropWhile fun c => c != slash && c != 0) (· == slash)).length_le
      rw [List.dropWhile_cons_of_pos (p := fun c => c != slash && c != 0) ha]
      rw [List.length_cons] at hle
      omega

def string (name : List Byte) : Name := (name.take DIRSIZ).takeWhile (· != 0)

/-- What the calls of skipelem() leave in the buffer, one after the other. -/
def names (path name : List Byte) : List Name :=
  match _h : skipelem path name with
  | none => []
  | some (path', name') => string name' :: names path' name'
termination_by path.length
decreasing_by exact skipelem_lt _h

variable (sb : Superblock)

def namexLoop (nameiparent : Bool) (path name : List Byte) (ip : Nat) : FsM (Option (Nat × List Byte)) :=
  match _h : skipelem path name with
  | none => if nameiparent then do
      iput sb ip
      pure none
    else pure (some (ip, name))
  | some (path', name') => do
    ilock sb ip
    let fs ← get
    if (fs.itable ip).ip.type ≠ T_DIR then
      iunlockput sb ip
      pure none
    else if nameiparent ∧ path'.headD 0 = 0 then
      iunlock ip
      pure (some (ip, name'))
    else do
      let next ← dirlookup sb ip name'
      iunlockput sb ip
      match next with
      | none => pure none
      | some (_, next) => namexLoop nameiparent path' name' next
termination_by path.length
decreasing_by exact skipelem_lt _h

def namex (cwd : Nat) (path : List Byte) (nameiparent : Bool) (name : List Byte) :
    FsM (Option (Nat × List Byte)) := do
  let ip := if path.headD 0 = slash then ROOTINO else cwd
  if path.headD 0 = slash then iget ip else idup ip
  namexLoop sb nameiparent path name ip

def namei (cwd : Nat) (path name : List Byte) : FsM (Option Nat) := do
  let r ← namex sb cwd path false name
  pure (r.map Prod.fst)

def nameiparent (cwd : Nat) (path name : List Byte) : FsM (Option (Nat × List Byte)) := namex sb cwd path true name

section Components

variable {path rest w junk name : List Byte}

/-- The longest parts of a path without a slash. -/
def words (path : Path) : List Name := (path.splitOn slash).filter fun w => !w.isEmpty

def components (path : Path) : List Name := (words path).map (List.take DIRSIZ)

theorem words_slash (path : Path) : words (slash :: path) = words path := by
  rw [words, List.splitOn, List.splitOnP_cons_eq_if_modifyHead, if_pos (by decide)]
  rfl

theorem words_dropWhile (path : Path) : words (path.dropWhile (· == slash)) = words path := by
  induction path with
  | nil => rfl
  | cons a path ih =>
    rw [List.dropWhile_cons]
    split
    · rename_i ha
      rw [eq_of_beq ha, words_slash, ih]
    · rfl

theorem words_word (hne : w ≠ []) (hw : ∀ x ∈ w, (x == slash) = false)
    (hrest : rest = [] ∨ ∃ r, rest = slash :: r) : words (w ++ rest) = w :: words rest := by
  have hkeep : (!w.isEmpty) = true := by simpa using hne
  rcases hrest with rfl | ⟨r, rfl⟩
  · rw [List.append_nil, words, List.splitOn, List.splitOnP_eq_singleton hw, List.filter_cons, if_pos hkeep]
    rfl
  · rw [words, List.splitOn, List.splitOnP_append_cons_of_forall_mem hw slash (by decide),
      List.filter_cons, if_pos hkeep, words_slash]
    rfl

/-- A path has no components, or begins with one. -/
theorem words_split (path : Path) : path.dropWhile (· == slash) = [] ∧ words path = [] ∨
    ∃ w rest, path.dropWhile (· == slash) = w ++ rest ∧ w ≠ [] ∧ (∀ x ∈ w, (x == slash) = false) ∧
      (rest = [] ∨ ∃ r, rest = slash :: r) ∧ words path = w :: words (rest.dropWhile (· == slash)) := by
  rw [← words_dropWhile path]
  have hhead := List.head?_dropWhile_not (· == slash) path
  generalize path.dropWhile (· == slash) = s at hhead ⊢
  cases s with
  | nil => exact .inl ⟨rfl, rfl⟩
  | cons a s =>
    have ha : (a != slash) = true := by simpa using hhead
    have hsplit := List.takeWhile_append_dropWhile (p := (· != slash)) (l := a :: s)
    have hw : ∀ x ∈ (a :: s).takeWhile (· != slash), (x == slash) = false := by
      intro x hx
      simpa using List.mem_takeWhile_imp hx
    have hne : (a :: s).takeWhile (· != slash) ≠ [] := by
      rw [List.takeWhile_cons_of_pos (p := (· != slash)) ha]
      exact List.cons_ne_nil _ _
    have hstop : (a :: s).dropWhile (· != slash) = [] ∨ ∃ r, (a :: s).dropWhile (· != slash) = slash :: r := by
      have hnext := List.head?_dropWhile_not (· != slash) (a :: s)
      cases hr : (a :: s).dropWhile (· != slash) with
      | nil => exact .inl rfl
      | cons b r =>
        rw [hr] at hnext
        have hb : b = slash := by simpa using hnext
        exact .inr ⟨r, by rw [hb]⟩
    refine .inr ⟨_, _, hsplit.symm, hne, hw, hstop, ?_⟩
    rw [← hsplit, words_word hne hw hstop, words_dropWhile, hsplit]

theorem words_eq_nil : words path = [] ↔ path.dropWhile (· == slash) = [] := by
  rcases words_split path with ⟨hs, hw⟩ | ⟨w, rest, hs, hne, -, -, hw⟩
  · exact iff_of_true hw hs
  · rw [hw, hs]
    exact iff_of_false (List.cons_ne_nil _ _) fun h => hne (List.append_eq_nil_iff.mp h).1

theorem dropWhile_stop {α : Type} {p : α → Bool} {a : α} (hp : p a = false) (xs ys : List α) :
    (xs ++ a :: ys).dropWhile p = xs.dropWhile p ++ a :: ys := by
  induction xs with
  | nil => exact List.dropWhile_cons_of_neg (by simp [hp])
  | cons x xs ih =>
    rw [List.cons_append, List.dropWhile_cons, List.dropWhile_cons]
    split
    · exact ih
    · rfl

theorem takeWhile_nonzero {s : List Byte} (hs : 0 ∉ s) : s.takeWhile (· != 0) = s := by
  rw [List.takeWhile_eq_self_iff]
  exact fun a ha => bne_iff_ne.mpr fun h => hs (h ▸ ha)

theorem string_long {w rest : List Byte} (hw : 0 ∉ w) (hlen : DIRSIZ ≤ w.length) :
    string (w.take DIRSIZ ++ rest) = w.take DIRSIZ := by
  rw [string, List.take_append_of_le_length (by rw [List.length_take]; omega), List.take_take, Nat.min_self]
  exact takeWhile_nonzero fun h => hw (List.mem_of_mem_take h)

theorem string_short {w rest : List Byte} (hw : 0 ∉ w) (hlen : w.length < DIRSIZ) :
    string (w ++ 0 :: rest) = w.take DIRSIZ := by
  obtain ⟨k, hk⟩ : ∃ k, DIRSIZ = w.length + (k + 1) := ⟨DIRSIZ - w.length - 1, by omega⟩
  rw [string, hk, List.take_length_add_append, List.take_succ_cons, List.takeWhile_append_of_pos]
  · rw [List.takeWhile_cons_of_neg (by simp), List.append_nil, List.take_of_length_le (by omega)]
  · exact fun a ha => bne_iff_ne.mpr fun h => hw (h ▸ ha)

theorem skipelem_nil (h : path.dropWhile (· == slash) = []) : skipelem (path ++ 0 :: junk) name = none := by
  rw [skipelem, dropWhile_stop (by decide), h]
  rfl

theorem skipelem_word (junk name : List Byte) (hs : path.dropWhile (· == slash) = w ++ rest) (hne : w ≠ [])
    (hw : ∀ x ∈ w, (x == slash) = false) (hnul : 0 ∉ w) (hrest : rest = [] ∨ ∃ r, rest = slash :: r) :
    ∃ name', skipelem (path ++ 0 :: junk) name = some (rest.dropWhile (· == slash) ++ 0 :: junk, name') ∧
      string name' = w.take DIRSIZ := by
  have hhead : (w ++ rest ++ 0 :: junk).headD 0 ≠ 0 := by
    cases w with
    | nil => exact absurd rfl hne
    | cons a w => exact fun h => hnul (List.mem_cons.mpr (.inl h.symm))
  have hdrop : (w ++ rest ++ 0 :: junk).dropWhile (fun c => c != slash && c != 0) = rest ++ 0 :: junk := by
    rw [List.append_assoc, List.dropWhile_append_of_pos]
    · rcases hrest with rfl | ⟨r, rfl⟩ <;> exact List.dropWhile_cons_of_neg (by decide)
    · intro x hx
      have hzero : (x != 0) = true := bne_iff_ne.mpr fun h => hnul (h ▸ hx)
      rw [hzero, bne, hw x hx]
      rfl
  have hlen : (w ++ rest ++ 0 :: junk).length - (rest ++ 0 :: junk).length = w.length := by
    simp only [List.length_append]
    omega
  rw [skipelem, dropWhile_stop (by decide), hs]
  dsimp only
  rw [if_neg hhead, hdrop, dropWhile_stop (by decide), hlen, List.append_assoc]
  refine ⟨_, rfl, ?_⟩
  split
  · rename_i hlong
    rw [List.take_append_of_le_length hlong]
    exact string_long hnul hlong
  · rename_i hshort
    rw [List.take_left]
    exact string_short hnul (by omega)

theorem skipelem_none (h : components path = []) : skipelem (path ++ 0 :: junk) name = none :=
  skipelem_nil (words_eq_nil.mp (List.map_eq_nil_iff.mp h))

/-- Each call of skipelem() takes one component off the path. -/
theorem skipelem_cons (junk name : List Byte) (hnul : 0 ∉ path) {elem : Name} {elems : List Name}
    (h : components path = elem :: elems) :
    ∃ rest name', skipelem (path ++ 0 :: junk) name = some (rest ++ 0 :: junk, name') ∧ string name' = elem ∧
      0 ∉ rest ∧ components rest = elems ∧ (rest = [] ↔ elems = []) ∧ rest.length < path.length := by
  rw [components] at h
  rcases words_split path with ⟨-, hnil⟩ | ⟨w, rest, hs, hne, hw, hrest, hwords⟩
  · rw [hnil] at h
    cases h
  rw [hwords] at h
  cases h
  have hnul' : 0 ∉ w ++ rest := fun hm => hnul ((List.dropWhile_suffix _).subset (hs ▸ hm))
  obtain ⟨name', heq, hname⟩ :=
    skipelem_word junk name hs hne hw (fun hm => hnul' (List.mem_append_left _ hm)) hrest
  have hlt := skipelem_lt heq
  rw [List.length_append, List.length_append] at hlt
  refine ⟨_, name', heq, hname, fun hm => hnul' ?_, rfl, ?_, by omega⟩
  · exact List.mem_append_right _ ((List.dropWhile_suffix _).subset hm)
  · rw [List.map_eq_nil_iff, words_eq_nil, List.dropWhile_idempotent]

theorem names_eq (hnul : 0 ∉ path) : names (path ++ 0 :: junk) name = components path := by
  induction hlen : path.length using Nat.strong_induction_on generalizing path name with
  | _ l ih =>
    subst hlen
    cases hc : components path with
    | nil => rw [names, skipelem_none hc]
    | cons elem elems =>
      obtain ⟨rest, name', heq, rfl, hnul', rfl, -, hlt⟩ := skipelem_cons junk name hnul hc
      rw [names, heq]
      dsimp only
      rw [ih _ hlt hnul' rfl]

end Components

section Names

variable {sb}

theorem strncmp_takeWhile (n : Nat) (p q : Name) : strncmp n ((p.take n).takeWhile (· != 0)) q = strncmp n p q := by
  induction n generalizing p q with
  | zero => rfl
  | succ n ih =>
    cases p with
    | nil => rfl
    | cons a p =>
      rw [List.take_succ_cons]
      by_cases ha : a = 0
      · subst ha
        rw [List.takeWhile_cons_of_neg (by decide)]
        rfl
      · have ha' : (a != 0) = true := bne_iff_ne.mpr ha
        rw [List.takeWhile_cons_of_pos (p := (· != 0)) ha', strncmp, strncmp, List.tail_cons, ih]
        rfl

theorem namecmp_string (name t : Name) : namecmp (string name) t = namecmp name t := strncmp_takeWhile DIRSIZ name t

theorem lookupLoop_string (name : Name) (ss : List Nat) :
    lookupLoop sb (string name) ss = lookupLoop sb name ss := by
  induction ss with
  | nil => rfl
  | cons s ss ih => simp only [lookupLoop, namecmp_string, ih]

theorem dirlookup_string (dp : Nat) (name : Name) : dirlookup sb dp (string name) = dirlookup sb dp name := by
  simp only [dirlookup, lookupLoop_string]

/-- What the caller gets, without the rest of the buffer. -/
def read (nameiparent : Bool) (x : Nat × List Byte) : Nat × Name := (x.1, if nameiparent then string x.2 else [])

end Names

end AdaptiveXv6.PathStrings
