import AdaptiveXv6.Grep
import Mathlib.Data.List.TakeWhile

namespace AdaptiveXv6.GrepRuns

open Bytes Matcher Memmove Grep Function

structure Keeps (s : State) (kept : Str) : Prop where
  count : s.m = kept.length
  holds : Holds s.buf 0 kept

theorem holds_store (buf : Buffer) (p : Nat) (s : Str) : Holds (store buf (p, s)) p s := by
  apply List.ext_getElem (length_image _ _)
  intro k hk hks
  simp [image, store, hks]

theorem text_of_read {s : State} {kept chunk : Str} (h : Keeps s kept) (hnul : nul ∉ kept ++ chunk)
    (hfit : (kept ++ chunk).length < bufSize) :
    Text (update (store s.buf (s.m, chunk)) (s.m + chunk.length) nul) 0 (kept ++ chunk) where
  holds := by
    rw [h.count, holds_append, Nat.zero_add]
    constructor
    · refine holds_congr (fun k hk => ?_) h.holds
      rw [update_of_ne (by omega), store_outside]
      rintro ⟨hle, -⟩
      simp only at hle
      omega
    · exact holds_congr (fun k hk => update_of_ne (by omega) _ _) (holds_store s.buf kept.length chunk)
  plain := hnul
  ended := by
    rw [h.count, Nat.zero_add, List.length_append]
    exact update_self ..
  fits := by
    rw [Nat.zero_add]
    exact hfit

theorem holds_compact {buf : Buffer} {p : Nat} {t : Str} (h : Holds buf p t) (hfit : p + t.length < bufSize) :
    Holds (ulibMemmove 0 p t.length buf).2 0 t := by
  have hspace : bufSize ≤ 2 ^ 64 := by decide
  rw [ulibMemmove_moved (by omega) (by omega), Holds]
  have hmoved : ∀ k < t.length, moved 0 p t.length buf (0 + k) = buf (p + k) := by
    intro k hk
    rw [moved_apply, if_pos (by omega), Nat.sub_zero, Nat.zero_add]
  rw [image_eq_iff.mpr hmoved]
  exact h

theorem round_spec (pattern : Str) {s : State} {kept chunk t : Str} {ls : List Str} (h : Keeps s kept)
    (hnul : nul ∉ kept ++ chunk) (hfit : (kept ++ chunk).length < bufSize) (hchunk : 0 < chunk.length)
    (hsplit : unlines ls ++ t = kept ++ chunk) (hls : ∀ l ∈ ls, '\n' ∉ l) (ht : '\n' ∉ t) :
    Keeps (round pattern chunk s) t ∧ (round pattern chunk s).out = s.out ++ accepted pattern ls := by
  have htext := text_of_read h hnul hfit
  rw [← hsplit] at htext hfit
  obtain ⟨buf, hscan, hbuf⟩ := scan_lines pattern ls hls ht htext s.out
  have hm : s.m + chunk.length - (0 + (unlines ls).length) = t.length := by
    have hlen := congrArg List.length hsplit
    rw [List.length_append, List.length_append] at hlen
    rw [h.count]
    omega
  rw [List.length_append] at hfit
  rw [Grep.round]
  simp only [hscan, hm, if_pos (Nat.lt_of_lt_of_le hchunk (Nat.le_add_left _ s.m))]
  exact ⟨⟨rfl, holds_compact hbuf (by omega)⟩, trivial⟩

def short (l : Str) : Bool := l.length + 1 < bufSize

theorem length_lt_unlines {l : Str} {ls : List Str} (h : l ∈ ls) : l.length + 1 ≤ (unlines ls).length := by
  induction ls with
  | nil => exact absurd h List.not_mem_nil
  | cons l' ls ih =>
    rw [unlines_cons, List.length_append, List.length_cons]
    rcases List.mem_cons.mp h with rfl | h
    · omega
    · have := ih h
      omega

theorem nul_notMem_unlines {ls : List Str} (h : ∀ l ∈ ls, nul ∉ l) : nul ∉ unlines ls := by
  induction ls with
  | nil => exact List.not_mem_nil
  | cons l ls ih =>
    have hls := ih fun l' hl' => h l' (List.mem_cons_of_mem _ hl')
    have hne : nul ≠ '\n' := by decide
    simp [unlines_cons, h l List.mem_cons_self, hls, hne]

theorem length_le_of_newline {kept input l u : Str} (h : kept ++ input = l ++ '\n' :: u) (hkept : '\n' ∉ kept) :
    kept.length ≤ l.length := by
  rcases List.append_eq_append_iff.mp h with ⟨a, rfl, -⟩ | ⟨a, rfl, ha⟩
  · simp
  · cases a with
    | nil => simp
    | cons c a =>
      obtain ⟨rfl, -⟩ := List.cons.inj ha
      exact absurd (by simp) hkept

theorem readCount_eq_zero {sizes : Nat → Nat} {i count : Nat} {input : Str}
    (h : readCount sizes i count input = 0) : count = 0 ∨ input = [] := by
  rw [← List.length_eq_zero_iff]
  rw [readCount] at h
  omega

theorem takeWhile_short_of_stuck {kept input : Str} {ls : List Str} (hkept : '\n' ∉ kept)
    (hrest : kept ++ input = unlines ls) (h : bufSize - kept.length - 1 = 0 ∨ input = []) :
    ls.takeWhile short = [] := by
  cases ls with
  | nil => rfl
  | cons l ls =>
    rw [unlines_cons] at hrest
    have hlen := length_le_of_newline hrest hkept
    rcases h with hfull | rfl
    · have hlong : short l = false := by
        rw [short, decide_eq_false_iff_not]
        omega
      rw [List.takeWhile_cons, hlong]
      rfl
    · rw [List.append_nil] at hrest
      exact absurd (by simp [hrest]) hkept

-- The invariant: the unfinished line in buf and the input still to come are the lines to go.
theorem grepLoop_out (pattern : Str) (sizes : Nat → Nat) (i : Nat) (input : Str) (s : State)
    {kept : Str} {ls : List Str} (h : Keeps s kept) (hkept : '\n' ∉ kept) (hroom : kept.length < bufSize)
    (hls : ∀ l ∈ ls, '\n' ∉ l) (hnul : ∀ l ∈ ls, nul ∉ l) (hrest : kept ++ input = unlines ls) :
    (grepLoop pattern sizes i input s).out = s.out ++ accepted pattern (ls.takeWhile short) := by
  induction hlen : input.length using Nat.strong_induction_on generalizing i input s kept ls with
  | h n ih =>
    rw [grepLoop]
    by_cases hn : 0 < readCount sizes i (bufSize - s.m - 1) input
    · rw [dif_pos hn]
      obtain ⟨hcount, hinput⟩ := readCount_le sizes i (bufSize - s.m - 1) input
      generalize readCount sizes i (bufSize - s.m - 1) input = k at hn hcount hinput ⊢
      rw [h.count] at hcount
      have hchunk : (input.take k).length = k := by rw [List.length_take, Nat.min_eq_left hinput]
      have hfit : (kept ++ input.take k).length < bufSize := by
        rw [List.length_append, hchunk]
        omega
      obtain ⟨ls₁, t, hsplit, hls₁, ht⟩ := exists_unlines (kept ++ input.take k)
      have hall : unlines ls₁ ++ (t ++ input.drop k) = unlines ls := by
        rw [← List.append_assoc, hsplit, List.append_assoc, List.take_append_drop, hrest]
      obtain ⟨ls₂, rfl, hrest₂⟩ := unlines_split hall hls₁ hls
      have hplain : nul ∉ kept ++ input.take k := by
        intro hmem
        apply nul_notMem_unlines hnul
        rw [← hall, ← List.append_assoc, hsplit]
        exact List.mem_append_left _ hmem
      obtain ⟨hkeeps, hout⟩ := round_spec pattern h hplain hfit (by omega) hsplit hls₁ ht
      rw [← hsplit, List.length_append] at hfit
      have hshort : ∀ l ∈ ls₁, short l = true := by
        intro l hl
        have := length_lt_unlines hl
        rw [short, decide_eq_true_eq]
        omega
      rw [ih _ _ (i + 1) _ _ hkeeps ht (by omega) (fun l hl => hls l (List.mem_append_right _ hl))
        (fun l hl => hnul l (List.mem_append_right _ hl)) hrest₂ rfl, hout,
        List.takeWhile_append_of_pos hshort, accepted_append, List.append_assoc]
      rw [List.length_drop]
      omega
    · have hstuck := readCount_eq_zero (Nat.eq_zero_of_not_pos hn)
      rw [h.count] at hstuck
      rw [dif_neg hn, takeWhile_short_of_stuck hkept hrest hstuck]
      simp [accepted]

theorem grep_out (pattern : Str) (sizes : Nat → Nat) (buf : Buffer) {ls : List Str}
    (hls : ∀ l ∈ ls, '\n' ∉ l) (hnul : ∀ l ∈ ls, nul ∉ l) :
    grep pattern sizes buf (unlines ls) = accepted pattern (ls.takeWhile short) := by
  have hstart : Keeps { buf, m := 0, out := [] } [] := ⟨rfl, rfl⟩
  exact grepLoop_out pattern sizes 0 (unlines ls) _ hstart List.not_mem_nil (by decide) hls hnul rfl

/-- The output is right just when no line matches from the first one of more than 1022 characters on. -/
theorem grep_lines (pattern : Str) (sizes : Nat → Nat) (buf : Buffer) (ls : List Str)
    (hls : ∀ l ∈ ls, '\n' ∉ l) (hnul : ∀ l ∈ ls, nul ∉ l) :
    grep pattern sizes buf (unlines ls) = accepted pattern ls ↔
      ∀ l ∈ ls.dropWhile (fun l => l.length ≤ 1022), matchRe pattern l = false := by
  have hshort : short = fun l => decide (l.length ≤ 1022) := by
    funext l
    rw [short, decide_eq_decide, bufSize]
    omega
  have hsplit : accepted pattern ls =
      accepted pattern (ls.takeWhile short) ++ accepted pattern (ls.dropWhile short) := by
    rw [← accepted_append, List.takeWhile_append_dropWhile]
  rw [grep_out pattern sizes buf hls hnul, hsplit, List.self_eq_append_right, accepted, List.map_eq_nil_iff,
    List.filter_eq_nil_iff, hshort]
  simp only [Bool.not_eq_true]

theorem grep_lines_long :
    grep ['^', 'b'] (fun _ => 2) (fun _ => nul) (unlines [['b'], List.replicate 1023 'a', ['a', 'b']]) =
      accepted ['^', 'b'] [['b'], List.replicate 1023 'a', ['a', 'b']] := by
  refine (grep_lines ['^', 'b'] (fun _ => 2) (fun _ => nul) _ (by decide +kernel) (by decide +kernel)).mpr ?_
  have hlate : List.dropWhile (fun l => decide (l.length ≤ 1022)) [['b'], List.replicate 1023 'a', ['a', 'b']] =
      [List.replicate 1023 'a', ['a', 'b']] := by decide +kernel
  have hfirst : ∀ l, matchRe ['^', 'b'] ('a' :: l) = false := by
    intro l
    simp [matchRe, matchhere]
  rw [hlate, List.forall_mem_cons, List.forall_mem_singleton]
  exact ⟨hfirst (List.replicate 1022 'a'), hfirst ['b']⟩

theorem accepted_all (ls : List Str) : accepted [] ls = ls.map (· ++ ['\n']) := by
  have hall : ∀ l : Str, matchRe [] l = true := by
    intro l
    cases l <;> simp [matchRe, search, matchhere]
  rw [accepted, List.filter_eq_self.mpr fun l _ => hall l]

/-- A first line of 1023 characters: neither it nor the lines behind it are written. -/
theorem grep_long_line :
    grep [] (fun _ => 0) (fun _ => nul) (unlines [List.replicate 1023 'a', ['b']]) = [] ∧
      accepted [] [List.replicate 1023 'a', ['b']] = [List.replicate 1023 'a' ++ ['\n'], ['b', '\n']] := by
  have hplain : ∀ c : Char, c ≠ 'a' → c ≠ 'b' → ∀ l ∈ [List.replicate 1023 'a', ['b']], c ∉ l := by
    intro c ha hb l hl hc
    rcases List.mem_cons.mp hl with rfl | hl
    · exact ha (List.eq_of_mem_replicate hc)
    · rw [List.mem_singleton.mp hl] at hc
      exact hb (List.mem_singleton.mp hc)
  have hlong : short (List.replicate 1023 'a') = false := by
    rw [short, List.length_replicate]
    rfl
  refine ⟨?_, accepted_all _⟩
  rw [grep_out [] _ _ (hplain '\n' (by decide) (by decide)) (hplain nul (by decide) (by decide)),
    List.takeWhile_cons, hlong]
  rfl

end AdaptiveXv6.GrepRuns
