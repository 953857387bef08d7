import Mathlib.Data.List.DropRight
import Mathlib.Data.List.Forall2
import AdaptiveXv6.ShellTokens

namespace AdaptiveXv6.ShellGrammar

open Shell ShellTokens Filter

inductive Redirection
  | input | output | append
  deriving DecidableEq, Repr

namespace Redirection

def tok : Redirection → Tok
  | .input => .sym '<'
  | .output => .sym '>'
  | .append => .append

def mode : Redirection → Nat
  | .input => O_RDONLY
  | .output => O_WRONLY ||| O_CREATE ||| O_TRUNC
  | .append => O_WRONLY ||| O_CREATE

def fd : Redirection → Nat
  | .input => 0
  | _ => 1

end Redirection

inductive Tree
  | exec (words : List Str)
  | redir (cmd : Tree) (file : Str) (how : Redirection)
  | pipe (left right : Tree)
  | list (left right : Tree)
  | back (cmd : Tree)

abbrev Redirs := List (Redirection × Str)

def redirToks (rs : Redirs) : List Tok := rs.flatMap fun r => [r.1.tok, .word r.2]

/-- Redirections apply in the order of the text, the first one innermost. -/
def wraps (t : Tree) (rs : Redirs) : Tree := rs.foldl (fun t r => .redir t r.2 r.1) t

/-- A word and the redirections up to the next word. -/
abbrev Group := Str × Redirs

def groupToks (gs : List Group) : List Tok := gs.flatMap fun g => .word g.1 :: redirToks g.2

inductive Level
  | line | backs | pipe | exec

/-- The grammar that the comments and functions of the shell describe, over tokens. -/
inductive Grammar : Level → Tree → List Tok → Prop
  | block {t : Tree} {ts : List Tok} (rs : Redirs) (h : Grammar .line t ts) :
      Grammar .exec (wraps t rs) (.sym '(' :: (ts ++ .sym ')' :: redirToks rs))
  | words (rs : Redirs) (gs : List Group) (hlen : gs.length < MAXARGS) :
      Grammar .exec (wraps (.exec (gs.map Prod.fst)) (rs ++ gs.flatMap Prod.snd)) (redirToks rs ++ groupToks gs)
  | single {t : Tree} {ts : List Tok} (h : Grammar .exec t ts) : Grammar .pipe t ts
  | pipe {t u : Tree} {ts us : List Tok} (ht : Grammar .exec t ts) (hu : Grammar .pipe u us) :
      Grammar .pipe (.pipe t u) (ts ++ .sym '|' :: us)
  | front {t : Tree} {ts : List Tok} (h : Grammar .pipe t ts) : Grammar .backs t ts
  | back {t : Tree} {ts : List Tok} (h : Grammar .backs t ts) : Grammar .backs (.back t) (ts ++ [.sym '&'])
  | last {t : Tree} {ts : List Tok} (h : Grammar .backs t ts) : Grammar .line t ts
  | list {t u : Tree} {ts us : List Tok} (ht : Grammar .backs t ts) (hu : Grammar .line u us) :
      Grammar .line (.list t u) (ts ++ .sym ';' :: us)

structure Points (line : Str) (a : Str × Str) (w : Str) : Prop where
  start : a.1 = w ++ a.2
  word : ∀ c ∈ w, isWord c = true ∧ c ≠ '\x00'
  stop : ∀ c ∈ a.2.head?, isWord c = false
  within : a.1 <:+ line

def Denotes (line : Str) : Cmd → Tree → Prop
  | .exec argv, .exec ws => List.Forall₂ (Points line) argv ws
  | .redir cmd q eq mode fd, .redir t f how =>
    Denotes line cmd t ∧ Points line (q, eq) f ∧ mode = how.mode ∧ fd = how.fd
  | .pipe l r, .pipe t u => Denotes line l t ∧ Denotes line r u
  | .list l r, .list t u => Denotes line l t ∧ Denotes line r u
  | .back cmd, .back t => Denotes line cmd t
  | _, _ => False

variable {line s : Str} {tok : Tok} {toks more : List Tok} {cmd : Cmd} {t : Tree} {rs : Redirs} {gs : List Group}

theorem wraps_append {r : Redirection × Str} : wraps t (rs ++ [r]) = .redir (wraps t rs) r.2 r.1 := by
  rw [wraps, List.foldl_append]
  rfl

theorem denotes_addArg {ws : List Str} {w : Str} {a : Str × Str} (h : Denotes line cmd (wraps (.exec ws) rs))
    (ha : Points line a w) : Denotes line (cmd.addArg a) (wraps (.exec (ws ++ [w])) rs) := by
  induction rs using List.reverseRecOn generalizing cmd with
  | nil =>
    cases cmd with
    | exec argv => exact List.rel_append h (.cons ha .nil)
    | _ => exact h.elim
  | append_singleton rs r ih =>
    rw [wraps_append] at h ⊢
    cases cmd with
    | redir cmd q eq mode fd => exact ⟨ih h.1, h.2⟩
    | _ => exact h.elim

theorem denotes_redircmd (how : Redirection) (h : Denotes line cmd t) {q eq f : Str} (hf : Points line (q, eq) f) :
    Denotes line (redircmd cmd how.tok.code q eq) (.redir t f how) := by
  cases how with
  | input | output | append => exact ⟨h, hf, rfl, rfl⟩

structure Ready (line : Str) (toks : List Tok) (s : Str) : Prop where
  spaced : Spaced toks s
  within : s <:+ line

theorem skip_skip (s : Str) : skip (skip s) = skip s := List.dropWhile_idempotent _ _

theorem gettoken_skip (s : Str) : gettoken (skip s) = gettoken s := by
  rw [gettoken, gettoken, skip_skip]

theorem ready_skip (h : Ready line toks s) : Ready line toks (skip s) :=
  ⟨spaced_skip h.spaced, (List.dropWhile_suffix _).trans h.within⟩

theorem ready_next (h : Ready line (tok :: toks) s) :
    ∃ q eq rest, gettoken (skip s) = ⟨tok.code, q, eq, rest⟩ ∧ Ready line toks rest ∧
      ∀ w, tok = .word w → Points line (q, eq) w := by
  have hs := ready_skip h
  obtain ⟨r, hget, hskip, hv, he, hr⟩ := gettoken_cons hs.spaced
  have hwithin : tok.text ++ r <:+ line := by
    rw [← hskip]
    exact (List.dropWhile_suffix _).trans hs.within
  have hr' : Ready line toks r := ⟨hr, (List.suffix_append _ _).trans hwithin⟩
  refine ⟨_, _, _, hget, ready_skip hr', ?_⟩
  rintro w rfl
  exact ⟨rfl, hv.2, he, hwithin⟩

theorem ready_peek (set : Str) (hset : set.all symbols.contains = true) (h : Ready line toks s) :
    peek s set = (skip s, begins set toks) := peek_begins (List.all_eq_true.mp hset) h.spaced

theorem eventually_succ {P Q : Nat → Prop} (h : ∀ᶠ k in atTop, P k) (hPQ : ∀ k, P k → Q (k + 1)) :
    ∀ᶠ k in atTop, Q k := by
  obtain ⟨n, hn⟩ := eventually_atTop.mp h
  refine eventually_atTop.mpr ⟨n + 1, fun k hk => ?_⟩
  obtain ⟨j, rfl⟩ := Nat.exists_eq_succ_of_ne_zero (Nat.ne_of_gt (Nat.lt_of_lt_of_le n.succ_pos hk))
  exact hPQ j (hn j (Nat.le_of_succ_le_succ hk))

def Follows (set : Str) (more : List Tok) : Prop := more = [] ∨ begins set more = true

theorem not_begins {set set' : Str} (h : Follows set more) (hdis : (set.all fun c => !set'.contains c) = true) :
    begins set' more = false := by
  rcases h with rfl | h
  · rfl
  · cases more with
    | nil => rfl
    | cons tok more =>
      rw [begins] at h ⊢
      cases hc : tok.first with
      | none => rfl
      | some c =>
        rw [hc] at h
        simpa using List.all_eq_true.mp hdis c (List.contains_iff_mem.mp h)

theorem Follows.mono {set set' : Str} (h : Follows set more) (hsub : set.all set'.contains = true) :
    Follows set' more := by
  rcases h with rfl | h
  · exact .inl rfl
  · cases more with
    | nil => exact .inl rfl
    | cons tok more =>
      refine .inr ?_
      rw [begins] at h ⊢
      cases hc : tok.first with
      | none =>
        rw [hc] at h
        cases h
      | some c =>
        rw [hc] at h
        exact List.all_eq_true.mp hsub c (List.contains_iff_mem.mp h)

theorem first_redirection (how : Redirection) : ∃ c, how.tok.first = some c ∧ (c = '<' ∨ c = '>') := by
  cases how with
  | input => exact ⟨'<', rfl, .inl rfl⟩
  | output | append => exact ⟨'>', rfl, .inr rfl⟩

theorem eventually_one {α : Type} {f : Nat → α} {x : α} (h : ∀ k, f (k + 1) = x) : ∀ᶠ k in atTop, f k = x :=
  eventually_succ (P := fun _ => True) (Eventually.of_forall fun _ => trivial) fun k _ => h k

theorem redirToks_cons {r : Redirection × Str} :
    redirToks (r :: rs) ++ more = r.1.tok :: .word r.2 :: (redirToks rs ++ more) := rfl

theorem redirs_run (hd : Denotes line cmd t) (h : Ready line (redirToks rs ++ more) s)
    (hf : begins ['<', '>'] more = false) :
    ∃ cmd' s', (∀ᶠ k in atTop, parseredirs k cmd s = .ok (cmd', s')) ∧ Ready line more s' ∧
      Denotes line cmd' (wraps t rs) := by
  have hset : ['<', '>'].all symbols.contains = true := rfl
  induction rs generalizing cmd t s with
  | nil =>
    rw [redirToks, List.flatMap_nil, List.nil_append] at h
    refine ⟨cmd, skip s, eventually_one fun k => ?_, ready_skip h, hd⟩
    rw [parseredirs, ready_peek _ hset h, hf]
    rfl
  | cons r rs ih =>
    have hb : begins ['<', '>'] (redirToks (r :: rs) ++ more) = true := by
      obtain ⟨c, hc, hcc⟩ := first_redirection r.1
      rw [redirToks_cons, begins, hc]
      rcases hcc with rfl | rfl <;> rfl
    have hpeek := ready_peek _ hset h
    obtain ⟨q, eq, rest, hget, hready, -⟩ := ready_next
      (show Ready line (r.1.tok :: (.word r.2 :: (redirToks rs ++ more))) s from h)
    obtain ⟨q', eq', rest', hget', hready', hp⟩ := ready_next hready
    rw [gettoken_skip] at hget'
    obtain ⟨cmd', s', hrun, hmore, hden⟩ := ih (denotes_redircmd r.1 hd (hp r.2 rfl)) hready'
    refine ⟨cmd', s', eventually_succ hrun fun k hk => ?_, hmore, hden⟩
    rw [parseredirs, hpeek, hb]
    dsimp only
    rw [if_pos rfl, hget]
    dsimp only
    rw [hget']
    exact (if_neg (by simp [Tok.code])).trans hk

theorem args_run (ws : List Str) (hd : Denotes line cmd (wraps (.exec ws) rs)) (h : Ready line (groupToks gs ++ more) s)
    (hf : Follows ['|', ')', '&', ';'] more) (hlen : ws.length + gs.length < MAXARGS) :
    ∃ cmd' s', (∀ᶠ k in atTop, parseargs k cmd ws.length s = .ok (cmd', s')) ∧ Ready line more s' ∧
      Denotes line cmd' (wraps (.exec (ws ++ gs.map Prod.fst)) (rs ++ gs.flatMap Prod.snd)) := by
  have hset : ['|', ')', '&', ';'].all symbols.contains = true := rfl
  induction gs generalizing cmd ws rs s with
  | nil =>
    rw [groupToks, List.flatMap_nil, List.nil_append] at h
    rw [List.map_nil, List.append_nil, List.flatMap_nil, List.append_nil]
    rcases hf with rfl | hf
    · refine ⟨cmd, [], eventually_one fun k => ?_, ⟨.nil nofun, List.nil_suffix⟩, hd⟩
      rw [parseargs, ready_peek _ hset h]
      dsimp only
      rw [gettoken_skip, gettoken_nil h.spaced]
      rfl
    · refine ⟨cmd, skip s, eventually_one fun k => ?_, ready_skip h, hd⟩
      rw [parseargs, ready_peek _ hset h, hf]
      rfl
  | cons g gs ih =>
    obtain ⟨w, grs⟩ := g
    have hpeek := ready_peek _ hset h
    have hb : begins ['|', ')', '&', ';'] (groupToks ((w, grs) :: gs) ++ more) = false := rfl
    have htoks : groupToks ((w, grs) :: gs) ++ more = .word w :: (redirToks grs ++ (groupToks gs ++ more)) := by
      simp [groupToks]
    rw [htoks] at h
    obtain ⟨q, eq, rest, hget, hready, hp⟩ := ready_next h
    have hnot : begins ['<', '>'] (groupToks gs ++ more) = false := by
      cases gs with
      | nil => exact not_begins hf rfl
      | cons g gs => rfl
    obtain ⟨cmd₁, s₁, hrun₁, hready₁, hden₁⟩ := redirs_run (denotes_addArg hd (hp w rfl)) hready hnot
    have hwraps : wraps (wraps (.exec (ws ++ [w])) rs) grs = wraps (.exec (ws ++ [w])) (rs ++ grs) := by
      rw [wraps, wraps, wraps, List.foldl_append]
    rw [hwraps] at hden₁
    rw [List.length_cons] at hlen
    obtain ⟨cmd', s', hrun, hmore, hden⟩ := ih _ hden₁ hready₁ (by rw [List.length_append, List.length_singleton]; omega)
    refine ⟨cmd', s', ?_, hmore, ?_⟩
    · refine eventually_succ (hrun₁.and hrun) fun k hk => ?_
      obtain ⟨hk₁, hk₂⟩ := hk
      have hzero : ¬(Tok.word w).code = '\x00' := (by decide : 'a' ≠ '\x00')
      have hword : ¬(Tok.word w).code ≠ 'a' := not_not.mpr rfl
      rw [parseargs, hpeek, hb]
      dsimp only
      rw [if_neg (by decide), hget]
      dsimp only
      rw [if_neg hzero, if_neg hword, if_neg (by omega), hk₁]
      rw [List.length_append, List.length_singleton] at hk₂
      exact hk₂
    · simpa using hden

def Runs (line : Str) (parse : Nat → Str → Except Error (Cmd × Str)) (set : Str) (t : Tree) (ts : List Tok) : Prop :=
  ∀ more s, Follows set more → Ready line (ts ++ more) s →
    ∃ cmd s', (∀ᶠ k in atTop, parse k s = .ok (cmd, s')) ∧ Ready line more s' ∧ Denotes line cmd t

theorem exec_words (line : Str) (rs : Redirs) (gs : List Group) (hlen : gs.length < MAXARGS) :
    Runs line parseexec ['|', ')', '&', ';'] (wraps (.exec (gs.map Prod.fst)) (rs ++ gs.flatMap Prod.snd))
      (redirToks rs ++ groupToks gs) := by
  intro more s hf h
  have hpeek := ready_peek ['('] rfl h
  rw [List.append_assoc] at h
  have hnot : begins ['<', '>'] (groupToks gs ++ more) = false := by
    cases gs with
    | nil => exact not_begins hf rfl
    | cons g gs => rfl
  have hb : begins ['('] (redirToks rs ++ groupToks gs ++ more) = false := by
    cases rs with
    | nil =>
      cases gs with
      | nil => exact not_begins hf rfl
      | cons g gs => rfl
    | cons r rs =>
      obtain ⟨c, hc, hcc⟩ := first_redirection r.1
      rw [List.append_assoc, redirToks_cons, begins, hc]
      rcases hcc with rfl | rfl <;> rfl
  have hexec : Denotes line (.exec []) (.exec []) := List.Forall₂.nil
  obtain ⟨cmd₁, s₁, hrun₁, hready₁, hden₁⟩ := redirs_run hexec (ready_skip h) hnot
  obtain ⟨cmd, s', hrun, hmore, hden⟩ := args_run [] hden₁ hready₁ hf (by simpa using hlen)
  refine ⟨cmd, s', eventually_succ (hrun₁.and hrun) fun k hk => ?_, hmore, hden⟩
  rw [parseexec, hpeek, hb]
  dsimp only
  rw [if_neg (by decide), hk.1]
  exact hk.2

theorem exec_block {ts : List Tok} (rs : Redirs) (ht : Runs line parseline [')'] t ts) :
    Runs line parseexec ['|', ')', '&', ';'] (wraps t rs) (.sym '(' :: (ts ++ .sym ')' :: redirToks rs)) := by
  intro more s hf h
  have hpeek := ready_peek ['('] rfl h
  have hpeek' := ready_peek ['('] rfl (ready_skip h)
  have hskip : skip (skip s) = skip s := skip_skip s
  have hopen : begins ['('] (.sym '(' :: (ts ++ .sym ')' :: redirToks rs) ++ more) = true := rfl
  have hend : begins [')'] (.sym ')' :: (redirToks rs ++ more)) = true := rfl
  obtain ⟨q, eq, rest, hget, hready, -⟩ := ready_next h
  have hinner : Ready line (ts ++ (.sym ')' :: (redirToks rs ++ more))) rest := by simpa using hready
  obtain ⟨cmd₁, s₁, hrun₁, hready₁, hden₁⟩ := ht _ _ (.inr rfl) hinner
  have hclose := ready_peek [')'] rfl hready₁
  obtain ⟨q', eq', rest', hget', hready', -⟩ := ready_next hready₁
  obtain ⟨cmd, s', hrun, hmore, hden⟩ := redirs_run hden₁ hready' (not_begins hf rfl)
  refine ⟨cmd, s', ?_, hmore, hden⟩
  have hblock : ∀ᶠ k in atTop, parseblock k (skip s) = .ok (cmd, s') := by
    refine eventually_succ (hrun₁.and hrun) fun k hk => ?_
    rw [parseblock, hpeek', hskip, hopen]
    dsimp only
    rw [if_pos rfl, hget]
    dsimp only
    rw [hk.1]
    dsimp only
    rw [hclose, hend]
    dsimp only
    rw [if_pos rfl, hget']
    exact hk.2
  refine eventually_succ hblock fun k hk => ?_
  rw [parseexec, hpeek, hopen]
  exact (if_pos rfl).trans hk

theorem pipe_single {ts : List Tok} (ht : Runs line parseexec ['|', ')', '&', ';'] t ts) :
    Runs line parsepipe [')', '&', ';'] t ts := by
  intro more s hf h
  obtain ⟨cmd, s', hrun, hready, hden⟩ := ht more s (hf.mono rfl) h
  refine ⟨cmd, skip s', eventually_succ hrun fun k hk => ?_, ready_skip hready, hden⟩
  rw [parsepipe, hk]
  dsimp only
  rw [ready_peek _ rfl hready, not_begins hf rfl]
  rfl

theorem pipe_more {u : Tree} {ts us : List Tok} (ht : Runs line parseexec ['|', ')', '&', ';'] t ts)
    (hu : Runs line parsepipe [')', '&', ';'] u us) :
    Runs line parsepipe [')', '&', ';'] (.pipe t u) (ts ++ .sym '|' :: us) := by
  intro more s hf h
  rw [List.append_assoc] at h
  obtain ⟨cmd₁, s₁, hrun₁, hready₁, hden₁⟩ := ht _ s (.inr rfl) h
  have hpeek := ready_peek ['|'] rfl hready₁
  obtain ⟨q, eq, rest, hget, hready, -⟩ := ready_next hready₁
  obtain ⟨cmd₂, s₂, hrun₂, hready₂, hden₂⟩ := hu more rest hf hready
  have hb : begins ['|'] (.sym '|' :: us ++ more) = true := rfl
  refine ⟨.pipe cmd₁ cmd₂, s₂, eventually_succ (hrun₁.and hrun₂) fun k hk => ?_, hready₂, hden₁, hden₂⟩
  rw [parsepipe, hk.1]
  dsimp only
  rw [hpeek, hb]
  dsimp only
  rw [if_pos rfl, hget]
  dsimp only
  rw [hk.2]

def Backs (cmd₀ : Cmd) (s₀ : Str) (cmd : Cmd) (s : Str) : Prop :=
  ∀ x, (∀ᶠ k in atTop, parseback k cmd s = x) → ∀ᶠ k in atTop, parseback k cmd₀ s₀ = x

def RunsBacks (line : Str) (t : Tree) (ts : List Tok) : Prop :=
  ∀ more s, Follows [')', '&', ';'] more → Ready line (ts ++ more) s →
    ∃ cmd₀ s₀ cmd s', (∀ᶠ k in atTop, parsepipe k s = .ok (cmd₀, s₀)) ∧ Backs cmd₀ s₀ cmd s' ∧
      Ready line more s' ∧ Denotes line cmd t

theorem backs_front {ts : List Tok} (ht : Runs line parsepipe [')', '&', ';'] t ts) : RunsBacks line t ts := by
  intro more s hf h
  obtain ⟨cmd, s', hrun, hready, hden⟩ := ht more s hf h
  exact ⟨cmd, s', cmd, s', hrun, fun _ hx => hx, hready, hden⟩

theorem backs_back {ts : List Tok} (ht : RunsBacks line t ts) : RunsBacks line (.back t) (ts ++ [.sym '&']) := by
  intro more s hf h
  rw [List.append_assoc] at h
  obtain ⟨cmd₀, s₀, cmd, s', hrun, hbacks, hready, hden⟩ := ht (.sym '&' :: more) s (.inr rfl) h
  have hpeek := ready_peek ['&'] rfl hready
  obtain ⟨q, eq, rest, hget, hrest, -⟩ := ready_next hready
  have hb : begins ['&'] (.sym '&' :: more) = true := rfl
  refine ⟨cmd₀, s₀, .back cmd, rest, hrun, fun x hx => hbacks x (eventually_succ hx fun k hk => ?_), hrest, hden⟩
  rw [parseback, hpeek, hb]
  dsimp only
  rw [if_pos rfl, hget]
  exact hk

theorem backs_stop (hready : Ready line more s) (hb : begins ['&'] more = false) :
    ∀ᶠ k in atTop, parseback k cmd s = .ok (cmd, skip s) := by
  refine eventually_one fun k => ?_
  rw [parseback, ready_peek _ rfl hready, hb]
  rfl

theorem line_last {ts : List Tok} (ht : RunsBacks line t ts) : Runs line parseline [')'] t ts := by
  intro more s hf h
  obtain ⟨cmd₀, s₀, cmd, s', hrun, hbacks, hready, hden⟩ := ht more s (hf.mono rfl) h
  have hstop := hbacks _ (backs_stop hready (not_begins hf rfl))
  refine ⟨cmd, skip (skip s'), eventually_succ (hrun.and hstop) fun k hk => ?_, ready_skip (ready_skip hready), hden⟩
  rw [parseline, hk.1]
  dsimp only
  rw [hk.2]
  dsimp only
  rw [ready_peek _ rfl (ready_skip hready), not_begins hf rfl]
  rfl

theorem line_list {u : Tree} {ts us : List Tok} (ht : RunsBacks line t ts) (hu : Runs line parseline [')'] u us) :
    Runs line parseline [')'] (.list t u) (ts ++ .sym ';' :: us) := by
  intro more s hf h
  rw [List.append_assoc] at h
  obtain ⟨cmd₀, s₀, cmd, s', hrun, hbacks, hready, hden⟩ := ht (.sym ';' :: us ++ more) s (.inr rfl) h
  have hstop := hbacks _ (backs_stop hready rfl)
  have hready' := ready_skip hready
  have hpeek := ready_peek [';'] rfl hready'
  have hb : begins [';'] (.sym ';' :: us ++ more) = true := rfl
  obtain ⟨q, eq, rest, hget, hrest, -⟩ := ready_next hready'
  obtain ⟨cmd₂, s₂, hrun₂, hready₂, hden₂⟩ := hu more rest hf hrest
  refine ⟨.list cmd cmd₂, s₂, eventually_succ ((hrun.and hstop).and hrun₂) fun k hk => ?_, hready₂, hden, hden₂⟩
  rw [parseline, hk.1.1]
  dsimp only
  rw [hk.1.2]
  dsimp only
  rw [hpeek, hb]
  dsimp only
  rw [if_pos rfl, hget]
  dsimp only
  rw [hk.2]

/-- What each part of the grammar stands for in the parser. -/
def Parsed (line : Str) : Level → Tree → List Tok → Prop
  | .exec => Runs line parseexec ['|', ')', '&', ';']
  | .pipe => Runs line parsepipe [')', '&', ';']
  | .backs => RunsBacks line
  | .line => Runs line parseline [')']

theorem parsed {level : Level} {ts : List Tok} (h : Grammar level t ts) : Parsed line level t ts := by
  induction h with
  | block rs _ ih => exact exec_block rs ih
  | words rs gs hlen => exact exec_words line rs gs hlen
  | single _ ih => exact pipe_single ih
  | pipe _ _ iht ihu => exact pipe_more iht ihu
  | front _ ih => exact backs_front ih
  | back _ ih => exact backs_back ih
  | last _ ih => exact line_last ih
  | list _ _ iht ihu => exact line_list iht ihu

end AdaptiveXv6.ShellGrammar
