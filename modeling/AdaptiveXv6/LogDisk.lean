import AdaptiveXv6.Writes
import Mathlib.Algebra.Group.Nat.Defs

namespace AdaptiveXv6.LogDisk

open Function

abbrev BSIZE : Nat := 1024
abbrev MAXOPBLOCKS : Nat := 10
abbrev LOGBLOCKS : Nat := MAXOPBLOCKS * 3

theorem LOGBLOCKS_eq : LOGBLOCKS = 30 := rfl

abbrev Block := Fin (BSIZE / 4) → BitVec 32

abbrev Disk := Nat → Block

def word (v : Block) (i : Nat) : BitVec 32 := if h : i < BSIZE / 4 then v ⟨i, h⟩ else 0

/-- The struct logheader in a block: the count n, then block numbers, of which the first n count. -/
def getHead (v : Block) : List Nat :=
  (List.range (word v 0).toInt.toNat).map fun i => (word v (i + 1)).toNat

def putHead (lh : List Nat) (v : Block) : Block := fun i =>
  if i.val = 0 then BitVec.ofNat 32 lh.length
  else if i.val ≤ lh.length then BitVec.ofNat 32 (lh.getD (i.val - 1) 0)
  else v i

/-- The disk, the buffer cache with what log_write() and bwrite() left, log.lh and the disk writes issued so
far. -/
structure Store where
  disk : Disk
  cache : Nat → Option Block
  lh : List Nat
  issued : List (Nat × Block)

def bread (s : Store) (b : Nat) : Block := (s.cache b).getD (s.disk b)

def bwrite (s : Store) (b : Nat) (v : Block) : Store :=
  { s with
    disk := update s.disk b v
    cache := update s.cache b (some v)
    issued := s.issued ++ [(b, v)] }

def writeLogFrom (start : Nat) : Nat → List Nat → Store → Store
  | _, [], s => s
  | tail, b :: bs, s => writeLogFrom start (tail + 1) bs (bwrite s (start + tail + 1) (bread s b))

def installFrom (start : Nat) : Nat → List Nat → Store → Store
  | _, [], s => s
  | tail, b :: bs, s => installFrom start (tail + 1) bs (bwrite s b (bread s (start + tail + 1)))

def writeLog (start : Nat) (s : Store) : Store := writeLogFrom start 0 s.lh s

def installTrans (start : Nat) (s : Store) : Store := installFrom start 0 s.lh s

def readHead (start : Nat) (s : Store) : Store := { s with lh := getHead (bread s start) }

def writeHead (start : Nat) (s : Store) : Store := bwrite s start (putHead s.lh (bread s start))

def clear (s : Store) : Store := { s with lh := [] }

def recoverFromLog (start : Nat) (s : Store) : Store :=
  writeHead start (clear (installTrans start (readHead start s)))

def commit (start : Nat) (s : Store) : Store :=
  if s.lh.length > 0 then
    writeHead start (clear (installTrans start (writeHead start (writeLog start s))))
  else s

def commitWrites (start : Nat) (disk : Disk) (cache : Nat → Option Block) (lh : List Nat) :
    List (Nat × Block) :=
  (commit start ⟨disk, cache, lh, []⟩).issued

/-- The writes of a recovery that starts on this disk, with a cold cache. -/
def recoverWrites (start : Nat) (disk : Disk) : List (Nat × Block) :=
  (recoverFromLog start ⟨disk, fun _ => none, [], []⟩).issued

def Home (start b : Nat) : Prop := b < 2 ^ 32 ∧ (b < start ∨ start + LOGBLOCKS < b)

theorem word_putHead (lh : List Nat) (v : Block) {i : Nat} (hl : lh.length ≤ LOGBLOCKS) (hi : i < lh.length) :
    (word (putHead lh v) (i + 1)).toNat = lh[i] % 2 ^ 32 := by
  have hsize : i + 1 < BSIZE / 4 := by
    change i + 1 < 256
    rw [LOGBLOCKS_eq] at hl
    omega
  have hle : (⟨i + 1, hsize⟩ : Fin (BSIZE / 4)).val ≤ lh.length := hi
  rw [word, dif_pos hsize, putHead, if_neg (Nat.succ_ne_zero i), if_pos hle]
  simp [hi]

theorem getHead_putHead {lh : List Nat} (hl : lh.length ≤ LOGBLOCKS) (hb : ∀ b ∈ lh, b < 2 ^ 32)
    (v : Block) : getHead (putHead lh v) = lh := by
  have hn : (word (putHead lh v) 0).toInt.toNat = lh.length := by
    have hlt : lh.length < 2 ^ 31 := by
      rw [LOGBLOCKS_eq] at hl
      omega
    have hw : word (putHead lh v) 0 = BitVec.ofNat 32 lh.length := rfl
    rw [hw, BitVec.toInt_eq_toNat_of_lt] <;> rw [BitVec.toNat_ofNat] <;> omega
  rw [getHead, hn]
  refine List.ext_getElem (by simp) ?_
  intro i h₁ h₂
  have hlt := hb lh[i] (List.getElem_mem h₂)
  rw [List.getElem_map, List.getElem_range, word_putHead lh v hl h₂, Nat.mod_eq_of_lt hlt]

section Loops

variable {start : Nat} {s : Store} {b : Nat} {v : Block}

@[simp] theorem bread_bwrite_self : bread (bwrite s b v) b = v := by
  simp [bread, bwrite]

theorem bread_bwrite_of_ne {a : Nat} (h : a ≠ b) : bread (bwrite s b v) a = bread s a := by
  simp [bread, bwrite, update_of_ne h]

def logWrites (start : Nat) (v : Nat → Block) : Nat → List Nat → List (Nat × Block)
  | _, [] => []
  | tail, b :: bs => (start + tail + 1, v b) :: logWrites start v (tail + 1) bs

def homeWrites (start : Nat) (v : Nat → Block) : Nat → List Nat → List (Nat × Block)
  | _, [] => []
  | tail, b :: bs => (b, v (start + tail + 1)) :: homeWrites start v (tail + 1) bs

@[simp] theorem writeLogFrom_lh (tail : Nat) (bs : List Nat) : (writeLogFrom start tail bs s).lh = s.lh := by
  induction bs generalizing tail s with
  | nil => rfl
  | cons b bs ih => exact ih _

theorem writeLogFrom_issued {v : Nat → Block} {bs : List Nat} {tail : Nat}
    (hroom : tail + bs.length ≤ LOGBLOCKS) (hb : ∀ b ∈ bs, Home start b ∧ bread s b = v b) :
    (writeLogFrom start tail bs s).issued = s.issued ++ logWrites start v tail bs := by
  induction bs generalizing tail s with
  | nil => simp [writeLogFrom, logWrites]
  | cons b bs ih =>
    have hlen : tail + 1 + bs.length ≤ LOGBLOCKS := by
      simp only [List.length_cons] at hroom
      omega
    have hkeep : ∀ a ∈ bs, Home start a ∧
        bread (bwrite s (start + tail + 1) (bread s b)) a = v a := by
      intro a ha
      obtain ⟨hhome, hv⟩ := hb a (List.mem_cons_of_mem _ ha)
      refine ⟨hhome, ?_⟩
      have hne : a ≠ start + tail + 1 := by
        have := hhome.2
        omega
      rw [bread_bwrite_of_ne hne, hv]
    rw [writeLogFrom, ih hlen hkeep, (hb b (List.mem_cons_self ..)).2]
    simp [bwrite, logWrites]

theorem writeLogFrom_bread {bs : List Nat} {tail a : Nat} (ha : a ≤ start + tail ∨ start + tail + bs.length < a) :
    bread (writeLogFrom start tail bs s) a = bread s a := by
  induction bs generalizing tail s with
  | nil => rfl
  | cons b bs ih =>
    simp only [List.length_cons] at ha
    rw [writeLogFrom, ih (by omega), bread_bwrite_of_ne (by omega)]

theorem writeLogFrom_logged {v : Nat → Block} {bs : List Nat} {tail : Nat}
    (hroom : tail + bs.length ≤ LOGBLOCKS) (hb : ∀ b ∈ bs, Home start b ∧ bread s b = v b) {i : Nat}
    (hi : i < bs.length) : bread (writeLogFrom start tail bs s) (start + tail + i + 1) = v bs[i] := by
  induction bs generalizing tail s i with
  | nil => exact absurd hi (Nat.not_lt_zero _)
  | cons b bs ih =>
    have hkeep : ∀ a ∈ bs, Home start a ∧
        bread (bwrite s (start + tail + 1) (bread s b)) a = v a := by
      intro a ha
      obtain ⟨hhome, hv⟩ := hb a (List.mem_cons_of_mem _ ha)
      have hne : a ≠ start + tail + 1 := by
        have := hhome.2
        simp only [List.length_cons] at hroom
        omega
      exact ⟨hhome, by rw [bread_bwrite_of_ne hne, hv]⟩
    simp only [List.length_cons] at hroom hi
    rw [writeLogFrom]
    cases i with
    | zero =>
      rw [writeLogFrom_bread (.inl (by omega)), bread_bwrite_self]
      exact (hb b (List.mem_cons_self ..)).2
    | succ i =>
      have hroom' : tail + 1 + bs.length ≤ LOGBLOCKS := by omega
      have h := ih hroom' hkeep (Nat.lt_of_succ_lt_succ hi)
      rw [show start + tail + (i + 1) + 1 = start + (tail + 1) + i + 1 by omega, h]
      rfl

theorem homeWrites_congr {v w : Nat → Block} {bs : List Nat} {tail : Nat}
    (h : ∀ i, i < bs.length → v (start + tail + i + 1) = w (start + tail + i + 1)) :
    homeWrites start v tail bs = homeWrites start w tail bs := by
  induction bs generalizing tail with
  | nil => rfl
  | cons b bs ih =>
    have h0 := h 0 (Nat.zero_lt_succ _)
    rw [homeWrites, homeWrites, ih]
    · rw [show start + tail + 1 = start + tail + 0 + 1 by omega, h0]
    · intro i hi
      have hs := h (i + 1) (Nat.succ_lt_succ hi)
      rwa [show start + tail + (i + 1) + 1 = start + (tail + 1) + i + 1 by omega] at hs

theorem installFrom_issued {bs : List Nat} {tail : Nat} (hroom : tail + bs.length ≤ LOGBLOCKS)
    (hb : ∀ b ∈ bs, Home start b) :
    (installFrom start tail bs s).issued = s.issued ++ homeWrites start (bread s) tail bs := by
  induction bs generalizing tail s with
  | nil => simp [installFrom, homeWrites]
  | cons b bs ih =>
    simp only [List.length_cons] at hroom
    have hhome := (hb b (List.mem_cons_self ..)).2
    rw [installFrom, ih (by omega) (fun a ha => hb a (List.mem_cons_of_mem _ ha))]
    have hcongr : homeWrites start (bread (bwrite s b (bread s (start + tail + 1)))) (tail + 1) bs =
        homeWrites start (bread s) (tail + 1) bs :=
      homeWrites_congr (fun i hi => bread_bwrite_of_ne (by omega))
    rw [hcongr]
    simp [bwrite, homeWrites]

theorem homeWrites_logged {v w : Nat → Block} {bs : List Nat} {tail : Nat}
    (h : ∀ i (hi : i < bs.length), w (start + tail + i + 1) = v bs[i]) :
    homeWrites start w tail bs = bs.map fun b => (b, v b) := by
  induction bs generalizing tail with
  | nil => rfl
  | cons b bs ih =>
    rw [homeWrites, List.map_cons, ih]
    · rw [show start + tail + 1 = start + tail + 0 + 1 by omega, h 0 (Nat.zero_lt_succ _)]
      rfl
    · intro i hi
      have hs := h (i + 1) (Nat.succ_lt_succ hi)
      rw [show start + tail + (i + 1) + 1 = start + (tail + 1) + i + 1 by omega] at hs
      exact hs

end Loops

section Procedures

variable {start : Nat} {disk : Disk} {cache : Nat → Option Block} {lh : List Nat}

def contents (disk : Disk) (cache : Nat → Option Block) (b : Nat) : Block := (cache b).getD (disk b)

theorem commitWrites_nil : commitWrites start disk cache [] = [] := rfl

theorem commitWrites_eq (disk : Disk) (cache : Nat → Option Block) (hne : lh ≠ []) (hlen : lh.length ≤ LOGBLOCKS)
    (hb : ∀ b ∈ lh, Home start b) : ∃ x y, commitWrites start disk cache lh =
      logWrites start (contents disk cache) 0 lh ++ (start, putHead lh x) ::
        (lh.map (fun b => (b, contents disk cache b)) ++ [(start, putHead [] y)]) := by
  let s : Store := ⟨disk, cache, lh, []⟩
  let s₁ := writeHead start (writeLog start s)
  have hread : ∀ b ∈ lh, Home start b ∧ bread s b = contents disk cache b := fun b h => ⟨hb b h, rfl⟩
  have hroom : 0 + lh.length ≤ LOGBLOCKS := by omega
  have hlog : (writeLog start s).issued = logWrites start (contents disk cache) 0 lh :=
    writeLogFrom_issued hroom hread
  have hlh : s₁.lh = lh := writeLogFrom_lh 0 lh
  have hhead : s₁.issued = (writeLog start s).issued ++ [(start, putHead lh (bread (writeLog start s) start))] := by
    change _ ++ [(start, putHead (writeLogFrom start 0 lh s).lh _)] = _
    rw [writeLogFrom_lh]
  have hback : ∀ i (hi : i < lh.length), bread s₁ (start + 0 + i + 1) = contents disk cache lh[i] := by
    intro i hi
    rw [← writeLogFrom_logged hroom hread hi]
    exact bread_bwrite_of_ne (by omega)
  have hinst : (installTrans start s₁).issued = s₁.issued ++ lh.map fun b => (b, contents disk cache b) := by
    rw [installTrans, hlh, installFrom_issued hroom hb, homeWrites_logged hback]
  refine ⟨bread (writeLog start s) start, bread (clear (installTrans start s₁)) start, ?_⟩
  rw [commitWrites, commit, if_pos (List.length_pos_iff.mpr hne)]
  change (installTrans start s₁).issued ++ [(start, putHead [] _)] = _
  rw [hinst, hhead, hlog]
  simp [s₁, s]

theorem recoverWrites_eq (hlen : (getHead (disk start)).length ≤ LOGBLOCKS)
    (hb : ∀ b ∈ getHead (disk start), Home start b) :
    ∃ y, recoverWrites start disk =
      homeWrites start disk 0 (getHead (disk start)) ++ [(start, putHead [] y)] := by
  let s : Store := readHead start ⟨disk, fun _ => none, [], []⟩
  have hinst : (installTrans start s).issued = homeWrites start disk 0 (getHead (disk start)) :=
    installFrom_issued (s := s) (by rw [Nat.zero_add]; exact hlen) hb
  refine ⟨bread (clear (installTrans start s)) start, ?_⟩
  change (installTrans start s).issued ++ [(start, putHead [] _)] = _
  rw [hinst]

end Procedures

end AdaptiveXv6.LogDisk
