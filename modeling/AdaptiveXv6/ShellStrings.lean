import AdaptiveXv6.ShellGrammar

namespace AdaptiveXv6.ShellStrings

open Shell ShellTokens ShellGrammar Filter Function

variable {line w : Str} {t : Tree} {cmd : Cmd} {b : Buffer} {n : Nat}

/-- The C string at a pointer into a line of n characters. -/
def string (n : Nat) (b : Buffer) (q : Str) : Str :=
  ((List.range (q.length + 1)).map fun j => b (n - q.length + j)).takeWhile (· ≠ '\x00')

/-- The command, read with its strings, is the tree. -/
def Reads (n : Nat) (b : Buffer) : Cmd → Tree → Prop
  | .exec argv, .exec ws => argv.map (fun a => string n b a.1) = ws
  | .redir cmd q _ mode fd, .redir t f how => Reads n b cmd t ∧ string n b q = f ∧ mode = how.mode ∧ fd = how.fd
  | .pipe l r, .pipe t u => Reads n b l t ∧ Reads n b r u
  | .list l r, .list t u => Reads n b l t ∧ Reads n b r u
  | .back cmd, .back t => Reads n b cmd t
  | _, _ => False

def ends : Cmd → List Str
  | .exec argv => argv.map Prod.snd
  | .redir cmd _ efile _ _ => ends cmd ++ [efile]
  | .pipe left right => ends left ++ ends right
  | .list left right => ends left ++ ends right
  | .back cmd => ends cmd

theorem nulterminate_eq (n : Nat) (cmd : Cmd) (b : Buffer) : nulterminate n cmd b = (ends cmd).foldl (terminate n) b := by
  induction cmd generalizing b with
  | exec argv => rw [nulterminate, ends, List.foldl_map]
  | redir cmd _ efile _ _ ih => rw [nulterminate, ends, List.foldl_append, ih]; rfl
  | pipe left right ihl ihr => rw [nulterminate, ends, List.foldl_append, ihl, ihr]
  | list left right ihl ihr => rw [nulterminate, ends, List.foldl_append, ihl, ihr]
  | back cmd ih => rw [nulterminate, ends, ih]

theorem foldl_terminate (es : List Str) (i : Nat) :
    es.foldl (terminate n) b i = if i ∈ es.map (fun e => n - e.length) then '\x00' else b i := by
  induction es generalizing b with
  | nil => simp
  | cons e es ih =>
    rw [List.foldl_cons, ih, List.map_cons]
    by_cases hi : i ∈ es.map fun e => n - e.length
    · rw [if_pos hi, if_pos (List.mem_cons_of_mem _ hi)]
    · rw [if_neg hi]
      by_cases he : i = n - e.length
      · subst he
        rw [terminate, update_self, if_pos List.mem_cons_self]
      · rw [terminate, update_of_ne he, if_neg (by simp only [List.mem_cons, he, hi, or_self, not_false_eq_true])]

theorem exists_points {argv : List (Str × Str)} {ws : List Str} (h : List.Forall₂ (Points line) argv ws)
    {a : Str × Str} (ha : a ∈ argv) : ∃ w, Points line a w := by
  induction h with
  | nil => cases ha
  | cons hx _ ih =>
    rcases List.mem_cons.mp ha with rfl | ha
    · exact ⟨_, hx⟩
    · exact ih ha

theorem ends_spec (h : Denotes line cmd t) {e : Str} (he : e ∈ ends cmd) :
    e <:+ line ∧ ∀ c ∈ e.head?, isWord c = false := by
  have hpoints : ∀ {a w}, Points line a w → a.2 <:+ line ∧ ∀ c ∈ a.2.head?, isWord c = false := by
    intro a w ha
    refine ⟨?_, ha.stop⟩
    have hsuf : a.2 <:+ a.1 := ⟨w, ha.start.symm⟩
    exact hsuf.trans ha.within
  induction cmd generalizing t with
  | exec argv =>
    cases t with
    | exec ws =>
      obtain ⟨a, ha, rfl⟩ := List.mem_map.mp he
      obtain ⟨w, hw⟩ := exists_points h ha
      exact hpoints hw
    | _ => exact h.elim
  | redir cmd q eq mode fd ih =>
    cases t with
    | redir t f how =>
      rcases List.mem_append.mp he with he | he
      · exact ih h.1 he
      · rw [List.mem_singleton.mp he]
        exact hpoints h.2.1
    | _ => exact h.elim
  | pipe left right ihl ihr =>
    cases t with
    | pipe t u =>
      rcases List.mem_append.mp he with he | he
      · exact ihl h.1 he
      · exact ihr h.2 he
    | _ => exact h.elim
  | list left right ihl ihr =>
    cases t with
    | list t u =>
      rcases List.mem_append.mp he with he | he
      · exact ihl h.1 he
      · exact ihr h.2 he
    | _ => exact h.elim
  | back cmd ih =>
    cases t with
    | back t => exact ih h he
    | _ => exact h.elim

theorem string_points {es : List Str} {a : Str × Str} (hes : ∀ e ∈ es, e <:+ line ∧ ∀ c ∈ e.head?, isWord c = false)
    (ha : Points line a w) (hmem : a.2 ∈ es) :
    string line.length (es.foldl (terminate line.length) (buffer line)) a.1 = w := by
  obtain ⟨pre, hpre⟩ := ha.within
  have hstart := ha.start
  have hline : line = pre ++ (w ++ a.2) := by rw [← hpre, hstart]
  have hlen : a.1.length = w.length + a.2.length := by rw [hstart, List.length_append]
  have hpos : line.length - a.1.length = pre.length := by
    rw [← hpre, List.length_append, Nat.add_sub_cancel]
  have hchar : ∀ j (hj : j < w.length),
      es.foldl (terminate line.length) (buffer line) (pre.length + j) = w[j] := by
    intro j hj
    have hcell : buffer line (pre.length + j) = w[j] := by
      rw [buffer, hline, List.getD_eq_getElem?_getD, List.getElem?_append_right (Nat.le_add_right _ _),
        Nat.add_sub_cancel_left, List.getElem?_append_left hj, List.getElem?_eq_getElem hj]
      rfl
    rw [foldl_terminate, if_neg, hcell]
    intro hin
    obtain ⟨e, he, hidx⟩ := List.mem_map.mp hin
    obtain ⟨⟨p, hp⟩, hhead⟩ := hes e he
    have hword := (ha.word w[j] (List.getElem_mem hj)).1
    have hplen : p.length = pre.length + j := by
      rw [← hidx, ← hp, List.length_append, Nat.add_sub_cancel]
    have hb : buffer line (pre.length + j) = e.headD '\x00' := by
      rw [buffer, ← hp, List.getD_eq_getElem?_getD, List.getElem?_append_right (Nat.le_of_eq hplen), hplen, Nat.sub_self]
      cases e <;> rfl
    cases e with
    | nil =>
      have hnul := (ha.word w[j] (List.getElem_mem hj)).2
      rw [hcell] at hb
      exact hnul hb
    | cons c e =>
      have hnot := hhead c rfl
      rw [hcell] at hb
      rw [show w[j] = c from hb, hnot] at hword
      cases hword
  have hend : es.foldl (terminate line.length) (buffer line) (pre.length + w.length) = '\x00' := by
    rw [foldl_terminate, if_pos]
    refine List.mem_map.mpr ⟨a.2, hmem, ?_⟩
    rw [hline, List.length_append, List.length_append]
    omega
  rw [string, hpos, hlen]
  have hsplit : (List.range (w.length + a.2.length + 1)).map (fun j =>
      es.foldl (terminate line.length) (buffer line) (pre.length + j)) =
      w ++ '\x00' :: (List.range a.2.length).map (fun j =>
        es.foldl (terminate line.length) (buffer line) (pre.length + (w.length + 1 + j))) := by
    rw [show w.length + a.2.length + 1 = w.length + (1 + a.2.length) by omega, List.range_add, List.map_append]
    congr 1
    · apply List.ext_getElem
      · simp
      · intro j hj hj'
        rw [List.getElem_map, List.getElem_range]
        exact hchar j hj'
    · rw [Nat.add_comm 1, List.range_succ_eq_map, List.map_cons, List.map_cons, Nat.add_zero, hend]
      congr 1
      simp [comp_def, Nat.add_assoc, Nat.add_comm 1]
  rw [hsplit, List.takeWhile_append_of_pos]
  · simp
  · intro c hc
    exact decide_eq_true (ha.word c hc).2

theorem reads_of_denotes {es : List Str} (hes : ∀ e ∈ es, e <:+ line ∧ ∀ c ∈ e.head?, isWord c = false)
    (h : Denotes line cmd t) (hsub : ∀ e ∈ ends cmd, e ∈ es) :
    Reads line.length (es.foldl (terminate line.length) (buffer line)) cmd t := by
  induction cmd generalizing t with
  | exec argv =>
    cases t with
    | exec ws =>
      rw [Reads]
      rw [Denotes] at h
      induction h with
      | nil => rfl
      | cons hx _ ih =>
        rw [List.map_cons, string_points hes hx (hsub _ List.mem_cons_self),
          ih fun e he => hsub e (List.mem_cons_of_mem _ he)]
    | _ => exact h.elim
  | redir cmd q eq mode fd ih =>
    cases t with
    | redir t f how =>
      refine ⟨ih h.1 fun e he => hsub e (List.mem_append_left _ he), ?_, h.2.2⟩
      exact string_points hes h.2.1 (hsub eq (List.mem_append_right _ List.mem_cons_self))
    | _ => exact h.elim
  | pipe left right ihl ihr =>
    cases t with
    | pipe t u =>
      exact ⟨ihl h.1 fun e he => hsub e (List.mem_append_left _ he),
        ihr h.2 fun e he => hsub e (List.mem_append_right _ he)⟩
    | _ => exact h.elim
  | list left right ihl ihr =>
    cases t with
    | list t u =>
      exact ⟨ihl h.1 fun e he => hsub e (List.mem_append_left _ he),
        ihr h.2 fun e he => hsub e (List.mem_append_right _ he)⟩
    | _ => exact h.elim
  | back cmd ih =>
    cases t with
    | back t => exact ih h hsub
    | _ => exact h.elim

/-- The texts of a tree: its tokens by the grammar, with any whitespace. -/
def Renders (t : Tree) (text : Str) : Prop := ∃ ts, Grammar .line t ts ∧ Spaced ts text

/-- At most MAXARGS - 1 words, none with whitespace or symbols. -/
def Proper : Tree → Prop
  | .exec words => words.length < MAXARGS ∧ ∀ w ∈ words, (Tok.word w).Valid
  | .redir cmd file _ => Proper cmd ∧ (Tok.word file).Valid
  | .pipe left right => Proper left ∧ Proper right
  | .list left right => Proper left ∧ Proper right
  | .back cmd => Proper cmd

theorem exec_of_line {ts : List Tok} (h : Grammar .line t ts) (hv : ∀ tok ∈ ts, tok.Valid) :
    ∃ ts, Grammar .exec t ts ∧ ∀ tok ∈ ts, tok.Valid := by
  refine ⟨_, Grammar.block [] h, fun tok htok => ?_⟩
  simp only [redirToks, List.flatMap_nil, List.mem_cons, List.mem_append, List.not_mem_nil, or_false] at htok
  rcases htok with rfl | htok | rfl
  · rfl
  · exact hv tok htok
  · rfl

theorem valid_redirection (how : Redirection) : how.tok.Valid := by
  cases how with
  | input | output => rfl
  | append => trivial

theorem exists_grammar (h : Proper t) : ∃ ts, Grammar .exec t ts ∧ ∀ tok ∈ ts, tok.Valid := by
  induction t with
  | exec words =>
    have hwords : words.length = (words.map fun w => ((w, []) : Group)).length := (List.length_map _).symm
    have htree : wraps (.exec ((words.map fun w => ((w, []) : Group)).map Prod.fst))
        ([] ++ (words.map fun w => ((w, []) : Group)).flatMap Prod.snd) = .exec words := by
      have hnone : words.flatMap (fun _ => ([] : Redirs)) = [] := List.flatMap_eq_nil_iff.mpr fun _ _ => rfl
      simp [wraps, comp_def, List.flatMap_map, hnone]
    have hg := Grammar.words [] (words.map fun w => ((w, []) : Group)) (hwords ▸ h.1)
    rw [htree] at hg
    refine ⟨_, hg, fun tok htok => ?_⟩
    simp only [redirToks, groupToks, List.flatMap_nil, List.nil_append, List.flatMap_map, List.mem_flatMap,
      List.mem_cons, List.not_mem_nil, or_false] at htok
    obtain ⟨w, hw, rfl⟩ := htok
    exact h.2 w hw
  | redir cmd file how ih =>
    obtain ⟨ts, hg, hv⟩ := ih h.1
    refine ⟨_, Grammar.block [(how, file)] (.last (.front (.single hg))), fun tok htok => ?_⟩
    simp only [redirToks, List.flatMap_cons, List.flatMap_nil, List.append_nil, List.mem_cons, List.mem_append,
      List.not_mem_nil, or_false] at htok
    rcases htok with rfl | htok | rfl | rfl | rfl
    · rfl
    · exact hv tok htok
    · rfl
    · exact valid_redirection how
    · exact h.2
  | pipe left right ihl ihr =>
    obtain ⟨ts, hl, hvl⟩ := ihl h.1
    obtain ⟨us, hr, hvr⟩ := ihr h.2
    refine exec_of_line (.last (.front (.pipe hl (.single hr)))) fun tok htok => ?_
    rcases List.mem_append.mp htok with htok | htok
    · exact hvl tok htok
    rcases List.mem_cons.mp htok with rfl | htok
    · rfl
    · exact hvr tok htok
  | list left right ihl ihr =>
    obtain ⟨ts, hl, hvl⟩ := ihl h.1
    obtain ⟨us, hr, hvr⟩ := ihr h.2
    refine exec_of_line (.list (.front (.single hl)) (.last (.front (.single hr)))) fun tok htok => ?_
    rcases List.mem_append.mp htok with htok | htok
    · exact hvl tok htok
    rcases List.mem_cons.mp htok with rfl | htok
    · rfl
    · exact hvr tok htok
  | back cmd ih =>
    obtain ⟨ts, hg, hv⟩ := ih h
    refine exec_of_line (.last (.back (.front (.single hg)))) fun tok htok => ?_
    rcases List.mem_append.mp htok with htok | htok
    · exact hv tok htok
    · rw [List.mem_singleton.mp htok]
      rfl

theorem exists_spaced {ts : List Tok} (hv : ∀ tok ∈ ts, tok.Valid) :
    ∃ text, Spaced ts text ∧ ∀ c ∈ text.head?, c = ' ' := by
  induction ts with
  | nil => exact ⟨[], .nil nofun, nofun⟩
  | cons tok ts ih =>
    obtain ⟨text, hs, hhead⟩ := ih fun u hu => hv u (List.mem_cons_of_mem _ hu)
    refine ⟨[' '] ++ (tok.text ++ text), .cons ?_ (hv tok List.mem_cons_self) ?_ hs, ?_⟩
    · intro c hc
      rw [List.mem_singleton.mp hc]
      rfl
    · rw [Tok.Ends.eq_def]
      split
      · intro c hc
        rw [hhead c hc]
        rfl
      · intro hc
        cases hhead '>' hc
      · trivial
    · rintro _ ⟨⟩
      rfl

/-- Every proper tree has texts, and each is parsed to the tree, with all strings terminated. -/
theorem shell_round_trip (t : Tree) : (Proper t → ∃ text, Renders t text) ∧
    ∀ text, Renders t text → ∃ cmd b, (∀ᶠ fuel in atTop, parsecmd fuel text = .ok (cmd, b)) ∧
      Reads text.length b cmd t := by
  refine ⟨fun h => ?_, fun text h => ?_⟩
  · obtain ⟨ts, hg, hv⟩ := exists_grammar h
    obtain ⟨text, hs, -⟩ := exists_spaced hv
    exact ⟨text, ts, .last (.front (.single hg)), hs⟩
  · obtain ⟨ts, hg, hs⟩ := h
    have hready : Ready text (ts ++ []) text := ⟨by rw [List.append_nil]; exact hs, List.suffix_rfl⟩
    obtain ⟨cmd, rest, hrun, hrest, hden⟩ := parsed hg [] text (.inl rfl) hready
    refine ⟨cmd, nulterminate text.length cmd (buffer text), hrun.mono fun k hk => ?_, ?_⟩
    · rw [parsecmd, hk]
      dsimp only
      rw [peek, skip_nil hrest.spaced]
      rfl
    · rw [nulterminate_eq]
      exact reads_of_denotes (fun e he => ends_spec hden he) hden fun e he => he

end AdaptiveXv6.ShellStrings
