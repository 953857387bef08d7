import Mathlib.Computability.Language

namespace AdaptiveXv6.Matcher

/-- A C string up to its NUL, which the code reads at the end of the list. -/
abbrev Str := List Char

mutual

def matchhere (re text : Str) : Bool :=
  match re with
  | [] => true
  | c :: '*' :: rest => matchstar c rest text
  | ['$'] => text.isEmpty
  | c :: rest =>
    match text with
    | [] => false
    | t :: tail => if c = '.' ∨ c = t then matchhere rest tail else false
termination_by (re.length, text.length, 0)

def matchstar (c : Char) (re text : Str) : Bool :=
  if matchhere re text then true
  else
    match text with
    | [] => false
    | t :: tail => if t = c ∨ c = '.' then matchstar c re tail else false
termination_by (re.length, text.length, 1)

end

def search (re : Str) : Str → Bool
  | [] => matchhere re []
  | t :: tail => if matchhere re (t :: tail) then true else search re tail

def matchRe (re text : Str) : Bool :=
  match re with
  | '^' :: rest => matchhere rest text
  | _ => search re text

inductive Piece where
  | one (c : Char)
  | star (c : Char)
deriving DecidableEq, Repr

def pieces : Str → List Piece
  | [] => []
  | c :: '*' :: rest => .star c :: pieces rest
  | ['$'] => []
  | c :: rest => .one c :: pieces rest

/-- Whether the last character is a $ that stands for the end of the text. -/
def toEnd : Str → Bool
  | [] => false
  | _ :: '*' :: rest => toEnd rest
  | ['$'] => true
  | _ :: rest => toEnd rest

/-- The character c denotes itself, and a period any character. -/
def Covers (c t : Char) : Prop := c = '.' ∨ c = t

def single (c : Char) : Language Char := {s | ∃ t, Covers c t ∧ s = [t]}

def Piece.language : Piece → Language Char
  | .one c => single c
  | .star c => KStar.kstar (single c)

def language (ps : List Piece) : Language Char := (ps.map Piece.language).prod

def Opens (l : Language Char) (toEnd : Bool) (text : Str) : Prop :=
  ∃ s rest, s ++ rest = text ∧ s ∈ l ∧ (toEnd = true → rest = [])

section Openings

variable {l : Language Char} {e : Bool} {c t : Char} {text tail : Str}

theorem opens_unit : Opens 1 e text ↔ (e = true → text = []) := by
  constructor
  · rintro ⟨s, rest, rfl, hs, hend⟩ he
    rw [hs, hend he]
    rfl
  · intro hend
    exact ⟨[], text, rfl, rfl, hend⟩

theorem opens_single_nil : ¬Opens (single c * l) e [] := by
  rintro ⟨s, rest, htext, hs, -⟩
  obtain ⟨_, ⟨t, -, rfl⟩, s, -, rfl⟩ := Language.mem_mul.mp hs
  cases htext

theorem opens_single_cons : Opens (single c * l) e (t :: tail) ↔ Covers c t ∧ Opens l e tail := by
  constructor
  · rintro ⟨_, rest, htext, hmul, hend⟩
    obtain ⟨_, ⟨t, ht, rfl⟩, s, hs, rfl⟩ := Language.mem_mul.mp hmul
    cases htext
    exact ⟨ht, s, rest, rfl, hs, hend⟩
  · rintro ⟨ht, s, rest, rfl, hs, hend⟩
    exact ⟨t :: s, rest, rfl, Language.mem_mul.mpr ⟨[t], ⟨t, ht, rfl⟩, s, hs, rfl⟩, hend⟩

theorem opens_add {k : Language Char} : Opens (k + l) e text ↔ Opens k e text ∨ Opens l e text := by
  constructor
  · rintro ⟨s, rest, htext, hs | hs, hend⟩
    · exact .inl ⟨s, rest, htext, hs, hend⟩
    · exact .inr ⟨s, rest, htext, hs, hend⟩
  · rintro (⟨s, rest, htext, hs, hend⟩ | ⟨s, rest, htext, hs, hend⟩)
    · exact ⟨s, rest, htext, .inl hs, hend⟩
    · exact ⟨s, rest, htext, .inr hs, hend⟩

theorem opens_star :
    Opens (KStar.kstar (single c) * l) e text ↔
      Opens l e text ∨ Opens (single c * (KStar.kstar (single c) * l)) e text := by
  conv_lhs => rw [← Language.one_add_self_mul_kstar_eq_kstar, add_mul, one_mul, mul_assoc]
  exact opens_add

-- One round of the loop looks for the rest of the pattern, and goes on past one repetition of c.
theorem matchstar_iff {re : Str} (h : ∀ text, matchhere re text = true ↔ Opens l e text) (text : Str) :
    matchstar c re text = true ↔ Opens (KStar.kstar (single c) * l) e text := by
  induction text with
  | nil =>
    rw [matchstar, opens_star, ← h]
    simp [opens_single_nil]
  | cons t tail ih =>
    have hcovers : Covers c t ↔ t = c ∨ c = '.' := by rw [Covers, or_comm, eq_comm]
    rw [matchstar, opens_star, opens_single_cons, ← h, ← ih, hcovers]
    by_cases hmatch : matchhere re (t :: tail) = true
    · simp [hmatch]
    · simp [hmatch]

end Openings

theorem language_cons (p : Piece) (ps : List Piece) : language (p :: ps) = p.language * language ps := by
  rw [language, language, List.map_cons, List.prod_cons]

theorem matchhere_iff (re text : Str) :
    matchhere re text = true ↔ Opens (language (pieces re)) (toEnd re) text := by
  induction re using pieces.induct generalizing text with
  | case1 =>
    rw [matchhere, pieces, toEnd]
    exact (opens_unit.trans (by simp)).symm
  | case2 c rest ih =>
    rw [matchhere, pieces, toEnd, language_cons]
    exact matchstar_iff ih text
  | case3 =>
    rw [matchhere, pieces, toEnd]
    exact (opens_unit.trans (by simp)).symm
  | case4 c rest hstar hend ih =>
    have hone : language (pieces (c :: rest)) = single c * language (pieces rest) := by
      rw [pieces, language_cons]
      · rfl
      · exact hstar
      · exact hend
    have htoEnd : toEnd (c :: rest) = toEnd rest := by
      rw [toEnd]
      · exact hstar
      · exact hend
    rw [hone, htoEnd]
    cases text with
    | nil =>
      have hfail : matchhere (c :: rest) [] = false := by
        rw [matchhere]
        · exact hstar
        · exact hend
      simp [hfail, opens_single_nil]
    | cons t tail =>
      have hstep : matchhere (c :: rest) (t :: tail) =
          if c = '.' ∨ c = t then matchhere rest tail else false := by
        rw [matchhere]
        · exact hstar
        · exact hend
      rw [hstep, opens_single_cons, ← ih, Covers]
      simp

theorem search_iff (re text : Str) :
    search re text = true ↔ ∃ before after, before ++ after = text ∧ matchhere re after = true := by
  induction text with
  | nil => simp [search]
  | cons t tail ih =>
    rw [search]
    by_cases hmatch : matchhere re (t :: tail) = true
    · simp only [hmatch, if_true, true_iff]
      exact ⟨[], t :: tail, rfl, hmatch⟩
    · simp only [hmatch]
      constructor
      · intro h
        obtain ⟨before, after, htail, h⟩ := ih.mp h
        exact ⟨t :: before, after, congrArg (t :: ·) htail, h⟩
      · rintro ⟨before, after, htext, h⟩
        cases before with
        | nil =>
          cases htext
          exact absurd h hmatch
        | cons u before =>
          cases htext
          exact ih.mpr ⟨before, after, rfl, h⟩

def body : Str → Str
  | '^' :: rest => rest
  | re => re

theorem matchRe_begin (rest text : Str) : matchRe ('^' :: rest) text = matchhere rest text := rfl

theorem matchRe_search {re : Str} (h : re.head? ≠ some '^') (text : Str) :
    body re = re ∧ matchRe re text = search re text := by
  rw [body, matchRe]
  · exact ⟨rfl, rfl⟩
  all_goals
    rintro rest rfl
    exact h rfl

/-- A text is accepted iff it contains a string of the pattern's language, at its beginning if
the pattern begins with ^ and at its end if it ends with $. -/
theorem matchRe_iff (re text : Str) :
    matchRe re text = true ↔
      ∃ before s after, before ++ (s ++ after) = text ∧ s ∈ language (pieces (body re)) ∧
        (re.head? = some '^' → before = []) ∧ (toEnd (body re) = true → after = []) := by
  by_cases hbegin : re.head? = some '^'
  · obtain ⟨rest, rfl⟩ : ∃ rest, re = '^' :: rest := List.head?_eq_some_iff.mp hbegin
    rw [matchRe_begin, matchhere_iff]
    constructor
    · rintro ⟨s, after, htext, hs, hend⟩
      exact ⟨[], s, after, htext, hs, fun _ => rfl, hend⟩
    · rintro ⟨before, s, after, htext, hs, hfirst, hend⟩
      rw [hfirst rfl] at htext
      exact ⟨s, after, htext, hs, hend⟩
  · obtain ⟨hbody, hsearch⟩ := matchRe_search hbegin text
    rw [hbody, hsearch, search_iff]
    constructor
    · rintro ⟨before, _, htext, hmatch⟩
      obtain ⟨s, after, rfl, hs, hend⟩ := (matchhere_iff re _).mp hmatch
      exact ⟨before, s, after, htext, hs, fun h => absurd h hbegin, hend⟩
    · rintro ⟨before, s, after, htext, hs, -, hend⟩
      exact ⟨before, s ++ after, htext, (matchhere_iff re _).mpr ⟨s, after, rfl, hs, hend⟩⟩

end AdaptiveXv6.Matcher
