import AdaptiveXv6.Matcher
import AdaptiveXv6.Memmove

namespace AdaptiveXv6.Grep

open Bytes Matcher Memmove Function

def bufSize : Nat := 1024

abbrev Buffer := Memory Char

def nul : Char := '\x00'

/-- The string at p: the characters up to the NUL that ends it, or up to the end of buf. -/
def stringAt (buf : Buffer) (p : Nat) : Str :=
  (image (fun k => buf (p + k)) (bufSize - p)).takeWhile (· ≠ nul)

def strchr (buf : Buffer) (p : Nat) (c : Char) : Option Nat :=
  ((stringAt buf p).findIdx? (· = c)).map (p + ·)

theorem length_stringAt_le (buf : Buffer) (p : Nat) : (stringAt buf p).length ≤ bufSize - p := by
  rw [stringAt]
  refine (List.takeWhile_prefix _).length_le.trans ?_
  rw [length_image]

theorem strchr_range {buf : Buffer} {p q : Nat} {c : Char} (h : strchr buf p c = some q) :
    p ≤ q ∧ q < bufSize := by
  obtain ⟨k, hk, rfl⟩ := Option.map_eq_some_iff.mp h
  obtain ⟨hlt, -⟩ := List.findIdx?_eq_some_iff_getElem.mp hk
  have hlen := length_stringAt_le buf p
  omega

/-- The loop over the lines in buf: the rest of buf, the start of the unfinished line, and the output. -/
def scan (pattern : Str) (buf : Buffer) (p : Nat) (out : List Str) : Buffer × Nat × List Str :=
  match h : strchr buf p '\n' with
  | none => (buf, p, out)
  | some q =>
    let buf := update buf q nul
    if matchRe pattern (stringAt buf p) then
      let buf := update buf q '\n'
      scan pattern buf (q + 1) (out ++ [image (fun k => buf (p + k)) (q + 1 - p)])
    else scan pattern buf (q + 1) out
termination_by bufSize - p
decreasing_by
  all_goals
    have := strchr_range h
    omega

structure State where
  buf : Buffer
  m : Nat
  out : List Str

/-- The body of the loop of grep(), with a chunk read behind the m characters of the unfinished line. -/
def round (pattern chunk : Str) (s : State) : State :=
  let buf := store s.buf (s.m, chunk)
  let m := s.m + chunk.length
  let buf := update buf m nul
  let (buf, p, out) := scan pattern buf 0 s.out
  if 0 < m then
    let m := m - p
    { buf := (ulibMemmove 0 p m buf).2, m, out }
  else { buf, m, out }

/-- What the i-th read() returns for a count: at least one character if there is one and count is not 0, at
most count; how many is up to sizes. -/
def readCount (sizes : Nat → Nat) (i count : Nat) (input : Str) : Nat :=
  min (sizes i + 1) (min count input.length)

theorem readCount_le (sizes : Nat → Nat) (i count : Nat) (input : Str) :
    readCount sizes i count input ≤ count ∧ readCount sizes i count input ≤ input.length := by
  rw [readCount]
  omega

def grepLoop (pattern : Str) (sizes : Nat → Nat) (i : Nat) (input : Str) (s : State) : State :=
  let n := readCount sizes i (bufSize - s.m - 1) input
  if h : 0 < n then grepLoop pattern sizes (i + 1) (input.drop n) (round pattern (input.take n) s)
  else s
termination_by input.length
decreasing_by
  have hn : n ≤ input.length := (readCount_le sizes i _ input).2
  rw [List.length_drop]
  omega

def grep (pattern : Str) (sizes : Nat → Nat) (buf : Buffer) (input : Str) : List Str :=
  (grepLoop pattern sizes 0 input { buf, m := 0, out := [] }).out

def unlines (ls : List Str) : Str := (ls.map (· ++ ['\n'])).flatten

/-- The lines that match(), each with its newline. -/
def accepted (pattern : Str) (ls : List Str) : List Str := (ls.filter (matchRe pattern)).map (· ++ ['\n'])

@[simp] theorem unlines_nil : unlines [] = [] := rfl

theorem unlines_cons (l : Str) (ls : List Str) : unlines (l :: ls) = l ++ '\n' :: unlines ls := by simp [unlines]

theorem accepted_append (pattern : Str) (ls ls' : List Str) :
    accepted pattern (ls ++ ls') = accepted pattern ls ++ accepted pattern ls' := by simp [accepted]

theorem exists_unlines (s : Str) :
    ∃ ls t, unlines ls ++ t = s ∧ (∀ l ∈ ls, '\n' ∉ l) ∧ '\n' ∉ t := by
  induction s with
  | nil => exact ⟨[], [], rfl, by simp, by simp⟩
  | cons c s ih =>
    obtain ⟨ls, t, rfl, hls, ht⟩ := ih
    by_cases hc : c = '\n'
    · refine ⟨[] :: ls, t, ?_, by simpa using hls, ht⟩
      rw [unlines_cons, hc]
      rfl
    · cases ls with
      | nil => exact ⟨[], c :: t, rfl, by simp, by simp [ht, Ne.symm hc]⟩
      | cons l ls =>
        have hl : '\n' ∉ c :: l := by simp [hls l List.mem_cons_self, Ne.symm hc]
        refine ⟨(c :: l) :: ls, t, ?_, ?_, ht⟩
        · rw [unlines_cons, unlines_cons]
          rfl
        · intro l' hl'
          rcases List.mem_cons.mp hl' with rfl | hl'
          · exact hl
          · exact hls l' (List.mem_cons_of_mem _ hl')

theorem line_inj {l l' a b : Str} (h : l ++ '\n' :: a = l' ++ '\n' :: b) (hl : '\n' ∉ l) (hl' : '\n' ∉ l') :
    l = l' ∧ a = b := by
  induction l generalizing l' with
  | nil =>
    cases l' with
    | nil => exact ⟨rfl, (List.cons.inj h).2⟩
    | cons c l' =>
      obtain ⟨rfl, -⟩ := List.cons.inj h
      exact absurd List.mem_cons_self hl'
  | cons c l ih =>
    cases l' with
    | nil =>
      obtain ⟨rfl, -⟩ := List.cons.inj h
      exact absurd List.mem_cons_self hl
    | cons c' l' =>
      obtain ⟨rfl, htail⟩ := List.cons.inj h
      obtain ⟨rfl, hab⟩ := ih htail (List.not_mem_of_not_mem_cons hl) (List.not_mem_of_not_mem_cons hl')
      exact ⟨rfl, hab⟩

theorem unlines_split {ls ls' : List Str} {t : Str} (h : unlines ls ++ t = unlines ls')
    (hls : ∀ l ∈ ls, '\n' ∉ l) (hls' : ∀ l ∈ ls', '\n' ∉ l) : ∃ rest, ls' = ls ++ rest ∧ t = unlines rest := by
  induction ls generalizing ls' with
  | nil => exact ⟨ls', rfl, h⟩
  | cons l ls ih =>
    cases ls' with
    | nil =>
      rw [unlines_cons] at h
      simp at h
    | cons l' ls' =>
      rw [unlines_cons, unlines_cons, List.append_assoc, List.cons_append] at h
      obtain ⟨rfl, hrest⟩ := line_inj h (hls l List.mem_cons_self) (hls' l' List.mem_cons_self)
      obtain ⟨rest, rfl, ht⟩ := ih hrest (fun l hl => hls l (List.mem_cons_of_mem _ hl))
        (fun l hl => hls' l (List.mem_cons_of_mem _ hl))
      exact ⟨rest, rfl, ht⟩

def Holds (buf : Buffer) (p : Nat) (s : Str) : Prop := image (fun k => buf (p + k)) s.length = s

section Buffers

variable {buf buf' : Buffer} {p : Nat} {s t : Str}

theorem holds_append : Holds buf p (s ++ t) ↔ Holds buf p s ∧ Holds buf (p + s.length) t := by
  rw [Holds, List.length_append, image_add, Holds, Holds]
  constructor
  · intro h
    obtain ⟨hs, ht⟩ := List.append_inj h (length_image _ _)
    simp only [← Nat.add_assoc] at ht
    exact ⟨hs, ht⟩
  · rintro ⟨hs, ht⟩
    simp only [← Nat.add_assoc]
    rw [hs, ht]

theorem holds_congr (h : ∀ k < s.length, buf' (p + k) = buf (p + k)) (hs : Holds buf p s) : Holds buf' p s := by
  rw [Holds, ← hs, length_image, image_eq_iff]
  exact h

structure Text (buf : Buffer) (p : Nat) (s : Str) : Prop where
  holds : Holds buf p s
  plain : nul ∉ s
  ended : buf (p + s.length) = nul
  fits : p + s.length < bufSize

theorem stringAt_of_text (h : Text buf p s) : stringAt buf p = s := by
  have hfits := h.fits
  obtain ⟨r, hr⟩ : ∃ r, bufSize - p = s.length + (1 + r) := ⟨bufSize - p - s.length - 1, by omega⟩
  have hall : ∀ c ∈ s, decide (c ≠ nul) = true := by
    intro c hc
    simp only [decide_eq_true_eq]
    rintro rfl
    exact h.plain hc
  rw [stringAt, hr, image_add, h.holds, List.takeWhile_append_of_pos hall, image_add]
  simp [image, h.ended]

theorem Text.append_right (h : Text buf p (s ++ t)) (hsame : ∀ i, p + s.length ≤ i → buf' i = buf i) :
    Text buf' (p + s.length) t where
  holds := holds_congr (fun _ _ => hsame _ (by omega)) (holds_append.mp h.holds).2
  plain hmem := h.plain (List.mem_append_right s hmem)
  ended := by
    rw [hsame _ (by omega), Nat.add_assoc, ← List.length_append]
    exact h.ended
  fits := by
    have := h.fits
    rw [List.length_append] at this
    omega

theorem Text.cut (h : Text buf p (s ++ t)) : Text (update buf (p + s.length) nul) p s where
  holds := holds_congr (fun _ _ => update_of_ne (by omega) _ _) (holds_append.mp h.holds).1
  plain hmem := h.plain (List.mem_append_left t hmem)
  ended := update_self ..
  fits := by
    have := h.fits
    rw [List.length_append] at this
    omega

theorem findIdx?_newline (hs : '\n' ∉ s) : s.findIdx? (· = '\n') = none := by
  rw [List.findIdx?_eq_none_iff]
  intro c hc
  simp only [decide_eq_false_iff_not]
  rintro rfl
  exact hs hc

theorem strchr_none (h : Text buf p s) (hs : '\n' ∉ s) : strchr buf p '\n' = none := by
  rw [strchr, stringAt_of_text h, findIdx?_newline hs]
  rfl

theorem strchr_some (h : Text buf p (s ++ '\n' :: t)) (hs : '\n' ∉ s) :
    strchr buf p '\n' = some (p + s.length) := by
  rw [strchr, stringAt_of_text h, List.findIdx?_append, findIdx?_newline hs]
  simp [List.findIdx?_cons]

theorem scan_line (pattern : Str) (h : Text buf p (s ++ '\n' :: t)) (hs : '\n' ∉ s) (out : List Str) :
    ∃ buf', scan pattern buf p out = scan pattern buf' (p + s.length + 1) (out ++ accepted pattern [s]) ∧
      ∀ i, p + s.length + 1 ≤ i → buf' i = buf i := by
  have hcut := stringAt_of_text h.cut
  have hline : Holds buf p (s ++ ['\n']) := by
    have := h.holds
    rw [List.append_cons, holds_append] at this
    exact this.1
  have hnewline : buf (p + s.length) = '\n' := (List.cons.inj (holds_append.mp hline).2).1
  have hrestore : update (update buf (p + s.length) nul) (p + s.length) '\n' = buf := by
    rw [update_idem, ← hnewline, update_eq_self]
  rw [scan, strchr_some h hs]
  by_cases hmatch : matchRe pattern s = true
  · refine ⟨buf, ?_, fun _ _ => rfl⟩
    have hwrite : image (fun k => buf (p + k)) (p + s.length + 1 - p) = s ++ ['\n'] := by
      rw [Nat.add_assoc, Nat.add_sub_cancel_left, ← List.length_singleton, ← List.length_append]
      exact hline
    have hout : accepted pattern [s] = [s ++ ['\n']] := by simp [accepted, hmatch]
    simp only [hcut, hmatch, if_true]
    rw [hrestore, hwrite, hout]
  · refine ⟨update buf (p + s.length) nul, ?_, fun i hi => update_of_ne (by omega) _ _⟩
    have hout : accepted pattern [s] = [] := by simp [accepted, hmatch]
    simp only [hcut, hmatch]
    rw [hout, List.append_nil]
    rfl

end Buffers

-- By induction on the whole lines.
theorem scan_lines (pattern : Str) (ls : List Str) {t : Str} (hls : ∀ l ∈ ls, '\n' ∉ l) (ht : '\n' ∉ t)
    {buf : Buffer} {p : Nat} (h : Text buf p (unlines ls ++ t)) (out : List Str) :
    ∃ buf', scan pattern buf p out = (buf', p + (unlines ls).length, out ++ accepted pattern ls) ∧
      Holds buf' (p + (unlines ls).length) t := by
  induction ls generalizing buf p out with
  | nil =>
    rw [scan, strchr_none h ht]
    exact ⟨buf, by simp [accepted], h.holds⟩
  | cons l ls ih =>
    rw [unlines_cons, List.append_assoc, List.cons_append] at h
    obtain ⟨buf₁, hline, hsame⟩ := scan_line pattern h (hls l List.mem_cons_self) out
    have hlen : p + l.length + 1 = p + (l ++ ['\n']).length := by simp [Nat.add_assoc]
    rw [← List.singleton_append, ← List.append_assoc] at h
    obtain ⟨buf', hscan, hbuf'⟩ := ih (fun l' hl' => hls l' (List.mem_cons_of_mem _ hl'))
      (h.append_right fun i hi => hsame i (hlen ▸ hi)) (out ++ accepted pattern [l])
    have hnext : p + (unlines (l :: ls)).length = p + (l ++ ['\n']).length + (unlines ls).length := by
      rw [unlines_cons, List.append_cons, List.length_append, Nat.add_assoc]
    rw [hnext]
    refine ⟨buf', ?_, hbuf'⟩
    rw [hline, hlen, hscan, List.append_assoc, ← accepted_append]
    rfl

end AdaptiveXv6.Grep
