import Mathlib.Order.Filter.AtTopBot.Basic

namespace AdaptiveXv6.Shell

/-- A C string without its terminator. A pointer into the line is the rest of the line. -/
abbrev Str := List Char

abbrev MAXARGS : Nat := 10

def whitespace : Str := [' ', '\t', '\r', '\n', '\x0b']

def symbols : Str := ['<', '|', '>', '&', ';', '(', ')']

def skip (s : Str) : Str := s.dropWhile fun c => whitespace.contains c

def isWord (c : Char) : Bool := !whitespace.contains c && !symbols.contains c

structure Token where
  ret : Char
  q : Str
  eq : Str
  rest : Str

def gettoken (s : Str) : Token :=
  match skip s with
  | [] => ⟨'\x00', [], [], []⟩
  | c :: t =>
    if c = '|' ∨ c = '(' ∨ c = ')' ∨ c = ';' ∨ c = '&' ∨ c = '<' then ⟨c, c :: t, t, skip t⟩
    else if c = '>' then
      match t with
      | '>' :: u => ⟨'+', c :: t, u, skip u⟩
      | _ => ⟨'>', c :: t, t, skip t⟩
    else ⟨'a', c :: t, (c :: t).dropWhile isWord, skip ((c :: t).dropWhile isWord)⟩

/-- The new *ps, and whether one of the characters stands there. -/
def peek (s toks : Str) : Str × Bool :=
  (skip s, match skip s with
    | [] => false
    | c :: _ => toks.contains c)

/-- The commands, with the pointers of argv and eargv, of file and efile. -/
inductive Cmd
  | exec (argv : List (Str × Str))
  | redir (cmd : Cmd) (file efile : Str) (mode fd : Nat)
  | pipe (left right : Cmd)
  | list (left right : Cmd)
  | back (cmd : Cmd)

/-- The store to cmd->argv and cmd->eargv; ret may already point to redirections of cmd. -/
def Cmd.addArg : Cmd → Str × Str → Cmd
  | .exec argv, a => .exec (argv ++ [a])
  | .redir cmd file efile mode fd, a => .redir (cmd.addArg a) file efile mode fd
  | cmd, _ => cmd

inductive Error
  | fuel
  | panic (message : String)
  deriving DecidableEq

def O_RDONLY : Nat := 0x000
def O_WRONLY : Nat := 0x001
def O_CREATE : Nat := 0x200
def O_TRUNC : Nat := 0x400

def redircmd (cmd : Cmd) (tok : Char) (q eq : Str) : Cmd :=
  if tok = '<' then .redir cmd q eq O_RDONLY 0
  else if tok = '>' then .redir cmd q eq (O_WRONLY ||| O_CREATE ||| O_TRUNC) 1
  else if tok = '+' then .redir cmd q eq (O_WRONLY ||| O_CREATE) 1
  else cmd

def parseredirs : Nat → Cmd → Str → Except Error (Cmd × Str)
  | 0, _, _ => .error .fuel
  | fuel + 1, cmd, s =>
    if (peek s ['<', '>']).2 then
      let tok := gettoken (peek s ['<', '>']).1
      let file := gettoken tok.rest
      if file.ret ≠ 'a' then .error (.panic "missing file for redirection")
      else parseredirs fuel (redircmd cmd tok.ret file.q file.eq) file.rest
    else .ok (cmd, (peek s ['<', '>']).1)

def parseargs : Nat → Cmd → Nat → Str → Except Error (Cmd × Str)
  | 0, _, _, _ => .error .fuel
  | fuel + 1, ret, argc, s =>
    if (peek s ['|', ')', '&', ';']).2 then .ok (ret, (peek s ['|', ')', '&', ';']).1)
    else
      let tok := gettoken (peek s ['|', ')', '&', ';']).1
      if tok.ret = '\x00' then .ok (ret, tok.rest)
      else if tok.ret ≠ 'a' then .error (.panic "syntax")
      else if argc + 1 ≥ MAXARGS then .error (.panic "too many args")
      else match parseredirs fuel (ret.addArg (tok.q, tok.eq)) tok.rest with
        | .error e => .error e
        | .ok (ret, s) => parseargs fuel ret (argc + 1) s

def parseback : Nat → Cmd → Str → Except Error (Cmd × Str)
  | 0, _, _ => .error .fuel
  | fuel + 1, cmd, s =>
    if (peek s ['&']).2 then parseback fuel (.back cmd) (gettoken (peek s ['&']).1).rest
    else .ok (cmd, (peek s ['&']).1)

mutual

def parseline : Nat → Str → Except Error (Cmd × Str)
  | 0, _ => .error .fuel
  | fuel + 1, s => match parsepipe fuel s with
    | .error e => .error e
    | .ok (cmd, s) => match parseback fuel cmd s with
      | .error e => .error e
      | .ok (cmd, s) =>
        if (peek s [';']).2 then match parseline fuel (gettoken (peek s [';']).1).rest with
          | .error e => .error e
          | .ok (right, s) => .ok (.list cmd right, s)
        else .ok (cmd, (peek s [';']).1)

def parsepipe : Nat → Str → Except Error (Cmd × Str)
  | 0, _ => .error .fuel
  | fuel + 1, s => match parseexec fuel s with
    | .error e => .error e
    | .ok (cmd, s) =>
      if (peek s ['|']).2 then match parsepipe fuel (gettoken (peek s ['|']).1).rest with
        | .error e => .error e
        | .ok (right, s) => .ok (.pipe cmd right, s)
      else .ok (cmd, (peek s ['|']).1)

def parseblock : Nat → Str → Except Error (Cmd × Str)
  | 0, _ => .error .fuel
  | fuel + 1, s =>
    if (peek s ['(']).2 then match parseline fuel (gettoken (peek s ['(']).1).rest with
      | .error e => .error e
      | .ok (cmd, s) =>
        if (peek s [')']).2 then parseredirs fuel cmd (gettoken (peek s [')']).1).rest
        else .error (.panic "syntax - missing )")
    else .error (.panic "parseblock")

def parseexec : Nat → Str → Except Error (Cmd × Str)
  | 0, _ => .error .fuel
  | fuel + 1, s =>
    if (peek s ['(']).2 then parseblock fuel (peek s ['(']).1
    else match parseredirs fuel (.exec []) (peek s ['(']).1 with
      | .error e => .error e
      | .ok (ret, s) => parseargs fuel ret 0 s

end

/-- The memory of the line: cell i holds character i, and the last cell the terminator. -/
abbrev Buffer := Nat → Char

def buffer (s : Str) : Buffer := fun i => s.getD i '\x00'

def terminate (n : Nat) (b : Buffer) (eq : Str) : Buffer := Function.update b (n - eq.length) '\x00'

def nulterminate (n : Nat) : Cmd → Buffer → Buffer
  | .exec argv, b => argv.foldl (fun b a => terminate n b a.2) b
  | .redir cmd _ efile _ _, b => terminate n (nulterminate n cmd b) efile
  | .pipe left right, b => nulterminate n right (nulterminate n left b)
  | .list left right, b => nulterminate n right (nulterminate n left b)
  | .back cmd, b => nulterminate n cmd b

def parsecmd (fuel : Nat) (s : Str) : Except Error (Cmd × Buffer) :=
  match parseline fuel s with
  | .error e => .error e
  | .ok (cmd, rest) =>
    if (peek rest []).1 ≠ [] then .error (.panic "syntax")
    else .ok (cmd, nulterminate s.length cmd (buffer s))

end AdaptiveXv6.Shell
