import AdaptiveXv6.Shell

namespace AdaptiveXv6.ShellTokens

open Shell

inductive Tok
  | word (w : Str)
  | sym (c : Char)
  | append
  deriving DecidableEq

namespace Tok

def text : Tok → Str
  | .word w => w
  | .sym c => [c]
  | .append => ['>', '>']

def code : Tok → Char
  | .word _ => 'a'
  | .sym c => c
  | .append => '+'

/-- A word has some characters and no whitespace or symbols. -/
def Valid : Tok → Prop
  | .word w => w ≠ [] ∧ ∀ c ∈ w, isWord c = true ∧ c ≠ '\x00'
  | .sym c => symbols.contains c = true
  | .append => True

/-- What may follow the token directly. -/
def Ends : Tok → Str → Prop
  | .word _, s => ∀ c ∈ s.head?, isWord c = false
  | .sym '>', s => s.head? ≠ some '>'
  | _, _ => True

def first : Tok → Option Char
  | .word _ => none
  | .sym c => some c
  | .append => some '>'

end Tok

def White (s : Str) : Prop := ∀ c ∈ s, whitespace.contains c = true

inductive Spaced : List Tok → Str → Prop
  | nil {w : Str} (hw : White w) : Spaced [] w
  | cons {w : Str} {tok : Tok} {toks : List Tok} {s : Str} (hw : White w) (hv : tok.Valid) (he : tok.Ends s)
      (h : Spaced toks s) : Spaced (tok :: toks) (w ++ (tok.text ++ s))

variable {w s : Str} {tok : Tok} {toks : List Tok} {c : Char}

theorem skip_white (hw : White w) : skip (w ++ s) = skip s := by
  induction w with
  | nil => rfl
  | cons c w ih =>
    rw [List.cons_append, skip, List.dropWhile_cons_of_pos (hw c List.mem_cons_self)]
    exact ih fun d hd => hw d (List.mem_cons_of_mem _ hd)

theorem skip_of_not_white (hc : whitespace.contains c = false) : skip (c :: s) = c :: s := by
  rw [skip, List.dropWhile_cons_of_neg (by rw [hc]; decide)]

theorem not_white_of_word (hc : isWord c = true) : whitespace.contains c = false := by
  rw [isWord, Bool.and_eq_true, Bool.not_eq_true'] at hc
  exact hc.1

theorem not_symbol_of_word (hc : isWord c = true) : symbols.contains c = false := by
  rw [isWord, Bool.and_eq_true, Bool.not_eq_true', Bool.not_eq_true'] at hc
  exact hc.2

theorem not_white_of_symbol (hc : symbols.contains c = true) : whitespace.contains c = false := by
  simp only [symbols, List.contains_iff_mem, List.mem_cons, List.not_mem_nil, or_false] at hc
  rcases hc with rfl | rfl | rfl | rfl | rfl | rfl | rfl <;> decide

theorem skip_text (hv : tok.Valid) : skip (tok.text ++ s) = tok.text ++ s := by
  cases tok with
  | word w =>
    cases w with
    | nil => exact absurd rfl hv.1
    | cons c w => exact skip_of_not_white (not_white_of_word (hv.2 c List.mem_cons_self).1)
  | sym c => exact skip_of_not_white (not_white_of_symbol hv)
  | append => exact skip_of_not_white (by decide)

theorem spaced_skip (h : Spaced toks s) : Spaced toks (skip s) := by
  cases h with
  | nil hw =>
    rw [← List.append_nil s, skip_white hw]
    exact .nil nofun
  | @cons w tok toks s hw hv he h =>
    rw [skip_white hw, skip_text hv, ← List.nil_append (tok.text ++ s)]
    exact .cons nofun hv he h

theorem skip_nil (h : Spaced [] s) : skip s = [] := by
  cases h with
  | nil hw =>
    rw [← List.append_nil s, skip_white hw]
    rfl

theorem skip_cons (h : Spaced (tok :: toks) s) :
    ∃ r, skip s = tok.text ++ r ∧ tok.Valid ∧ tok.Ends r ∧ Spaced toks r := by
  cases h with
  | @cons w tok toks r hw hv he h => exact ⟨r, by rw [skip_white hw, skip_text hv], hv, he, h⟩

def begins (set : Str) : List Tok → Bool
  | [] => false
  | tok :: _ => match tok.first with
    | none => false
    | some c => set.contains c

theorem peek_begins {set : Str} (hset : ∀ c ∈ set, symbols.contains c = true) (h : Spaced toks s) :
    peek s set = (skip s, begins set toks) := by
  rw [peek]
  cases toks with
  | nil =>
    rw [skip_nil h]
    rfl
  | cons tok toks =>
    obtain ⟨r, hs, hv, -, -⟩ := skip_cons h
    rw [hs]
    cases tok with
    | word w =>
      cases w with
      | nil => exact absurd rfl hv.1
      | cons c w =>
        have hc := not_symbol_of_word (hv.2 c List.mem_cons_self).1
        have hnot : set.contains c = false := by
          rw [← Bool.not_eq_true, List.contains_iff_mem]
          intro hmem
          rw [hset c hmem] at hc
          cases hc
        change (_, set.contains c) = (_, false)
        rw [hnot]
    | sym c => rfl
    | append => rfl

theorem dropWhile_word {r : Str} (hw : ∀ c ∈ w, isWord c = true) (hr : ∀ c ∈ r.head?, isWord c = false) :
    (w ++ r).dropWhile isWord = r := by
  induction w with
  | nil =>
    cases r with
    | nil => rfl
    | cons c r =>
      rw [List.nil_append, List.dropWhile_cons_of_neg]
      rw [hr c rfl]
      decide
  | cons c w ih =>
    rw [List.cons_append, List.dropWhile_cons_of_pos (hw c List.mem_cons_self)]
    exact ih fun d hd => hw d (List.mem_cons_of_mem _ hd)

theorem symbol_cases (hc : symbols.contains c = true) :
    (c = '|' ∨ c = '(' ∨ c = ')' ∨ c = ';' ∨ c = '&' ∨ c = '<') ∨ c = '>' := by
  simp only [symbols, List.contains_iff_mem, List.mem_cons, List.not_mem_nil, or_false] at hc
  rcases hc with rfl | rfl | rfl | rfl | rfl | rfl | rfl <;> decide

theorem not_listed_of_word (hc : isWord c = true) :
    ¬(c = '|' ∨ c = '(' ∨ c = ')' ∨ c = ';' ∨ c = '&' ∨ c = '<') ∧ c ≠ '>' := by
  have hnot := not_symbol_of_word hc
  constructor
  · rintro (rfl | rfl | rfl | rfl | rfl | rfl) <;> revert hnot <;> decide
  · rintro rfl
    revert hnot
    decide

theorem gettoken_cons (h : Spaced (tok :: toks) s) :
    ∃ r, gettoken s = ⟨tok.code, tok.text ++ r, r, skip r⟩ ∧ skip s = tok.text ++ r ∧ tok.Valid ∧ tok.Ends r ∧
      Spaced toks r := by
  obtain ⟨r, hs, hv, he, h⟩ := skip_cons h
  refine ⟨r, ?_, hs, hv, he, h⟩
  rw [gettoken, hs]
  cases tok with
  | word w =>
    cases w with
    | nil => exact absurd rfl hv.1
    | cons c w =>
      have hc := not_listed_of_word (hv.2 c List.mem_cons_self).1
      have hdrop : (c :: (w ++ r)).dropWhile isWord = r := dropWhile_word (w := c :: w) (fun d hd => (hv.2 d hd).1) he
      rw [show (Tok.word (c :: w)).text ++ r = c :: (w ++ r) from rfl]
      dsimp only
      rw [if_neg hc.1, if_neg hc.2, hdrop]
      rfl
  | sym c =>
    change (if _ then _ else if _ then _ else _) = _
    rcases symbol_cases hv with hc | rfl
    · rw [if_pos hc]
      rfl
    · rw [if_neg (by decide), if_pos rfl]
      cases r with
      | nil => rfl
      | cons d r =>
        have hd : d ≠ '>' := fun hd => he (by rw [hd]; rfl)
        split
        · rename_i heq
          cases heq
          exact absurd rfl hd
        · rfl
  | append => rfl

theorem gettoken_nil (h : Spaced [] s) : gettoken s = ⟨'\x00', [], [], []⟩ := by
  rw [gettoken, skip_nil h]

end AdaptiveXv6.ShellTokens
