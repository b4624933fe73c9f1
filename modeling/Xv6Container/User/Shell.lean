import Mathlib.Tactic
import Xv6Container.Params

/-!
# The parser of the shell

The parser of `sh.c`. A pointer into the line is the rest of the line from there on; the end of
the line is the NUL. Beside it stands the grammar: how tokens are spelled, and which trees a list
of tokens has.
-/

namespace Xv6Container.Shell

abbrev MAXARGS : ℕ := 10

/-- `struct cmd`, with strings of type `ω`. -/
inductive Cmd (ω : Type)
  | exec (argv : List ω)
  | redir (cmd : Cmd ω) (file : ω) (mode : UInt32) (fd : ℕ)
  | pipe (left right : Cmd ω)
  | list (left right : Cmd ω)
  | back (cmd : Cmd ω)
  deriving DecidableEq

/-- The arguments of `redircmd` but for the command. -/
structure Redir (ω : Type) where
  file : ω
  mode : UInt32
  fd : ℕ

variable {ω ω' : Type}

def Redir.map (f : ω → ω') (r : Redir ω) : Redir ω' := ⟨f r.file, r.mode, r.fd⟩

def Cmd.map (f : ω → ω') : Cmd ω → Cmd ω'
  | .exec argv => .exec (argv.map f)
  | .redir cmd file mode fd => .redir (cmd.map f) (f file) mode fd
  | .pipe left right => .pipe (left.map f) (right.map f)
  | .list left right => .list (left.map f) (right.map f)
  | .back cmd => .back (cmd.map f)

/-- `redircmd`, once for each redirection. -/
def wrap (cmd : Cmd ω) (rs : List (Redir ω)) : Cmd ω :=
  rs.foldl (fun c r => .redir c r.file r.mode r.fd) cmd

/-- `backcmd`, `k` times. -/
def backs : ℕ → Cmd ω → Cmd ω
  | 0, cmd => cmd
  | k + 1, cmd => backs k (.back cmd)

def isSpace (c : UInt8) : Bool := c = 32 || c = 9 || c = 13 || c = 10 || c = 11

/-- The tokens that are no words; `gtgt` is `">>"`. -/
inductive Sym
  | pipe | lpar | rpar | semi | amp | lt | gt | gtgt
  deriving DecidableEq, Repr

/-- The token that starts with a byte of `symbols`. -/
def symOf (c : UInt8) : Option Sym :=
  if c = 124 then some .pipe
  else if c = 40 then some .lpar
  else if c = 41 then some .rpar
  else if c = 59 then some .semi
  else if c = 38 then some .amp
  else if c = 60 then some .lt
  else if c = 62 then some .gt
  else none

def Sym.char : Sym → UInt8
  | .pipe => 124
  | .lpar => 40
  | .rpar => 41
  | .semi => 59
  | .amp => 38
  | .lt => 60
  | .gt | .gtgt => 62

/-- A byte of a word: in neither of `whitespace` and `symbols`. -/
def isWord (c : UInt8) : Bool := !isSpace c && (symOf c).isNone

/-- What `gettoken` returns: 0, a symbol, or `'a'`. -/
inductive Tok
  | eof
  | sym (y : Sym)
  | word
  deriving DecidableEq, Repr

/-- The result of `gettoken`: the token, where it starts and ends, and the new `*ps`. -/
structure Got where
  tok : Tok
  q : List UInt8
  eq : List UInt8
  rest : List UInt8

/-- `while(s < es && strchr(whitespace, *s)) s++`. -/
def skip (s : List UInt8) : List UInt8 := s.dropWhile isSpace

/-- The switch of `gettoken`, at a byte `c` that is no white space. -/
def gettokenAt (c : UInt8) (t : List UInt8) : Got :=
  match symOf c with
  | some .gt =>
    if t.head? = some 62 then ⟨.sym .gtgt, c :: t, t.tail, skip t.tail⟩
    else ⟨.sym .gt, c :: t, t, skip t⟩
  | some y => ⟨.sym y, c :: t, t, skip t⟩
  | none => ⟨.word, c :: t, (c :: t).dropWhile isWord, skip ((c :: t).dropWhile isWord)⟩

def gettoken (ps : List UInt8) : Got :=
  match skip ps with
  | [] => ⟨.eof, [], [], []⟩
  | c :: t => gettokenAt c t

/-- `peek`: whether the next byte is one of `toks`, and the new `*ps`. -/
def peek (ps : List UInt8) (toks : UInt8 → Bool) : Bool × List UInt8 :=
  match skip ps with
  | [] => (false, [])
  | c :: t => (toks c, c :: t)

/-- A word in the line: its first byte, and the byte behind it. -/
structure Span where
  q : List UInt8
  eq : List UInt8

/-- `panic` of the shell, or more recursive calls than allowed for. -/
inductive Err
  | panic (msg : String)
  | fuel
  deriving DecidableEq

/-- The switch of `parseredirs`. -/
def redirOf (tok : Tok) (file : ω) : List (Redir ω) :=
  match tok with
  | .sym .lt => [⟨file, O_RDONLY, 0⟩]
  | .sym .gt => [⟨file, O_WRONLY ||| O_CREATE, 1⟩]
  | .sym .gtgt => [⟨file, O_WRONLY ||| O_CREATE, 1⟩]
  | _ => []

/-- The loop of `parseredirs`: the redirections that it wraps around its command, and, here as
below, the new `*ps`. -/
def parseredirs : ℕ → List UInt8 → Except Err (List (Redir Span) × List UInt8)
  | 0, _ => .error .fuel
  | n + 1, ps =>
    let k := peek ps fun c => c = 60 || c = 62
    if k.1 then
      let tok := gettoken k.2
      let g := gettoken tok.rest
      if g.tok = .word then do
        let r ← parseredirs n g.rest
        pure (redirOf tok.tok ⟨g.q, g.eq⟩ ++ r.1, r.2)
      else .error (.panic "missing file for redirection")
    else .ok ([], k.2)

/-- The loop of `parseexec` with `argc` arguments so far: the words that it stores into `argv`, and
the redirections that it wraps around the command. -/
def parseargs : ℕ → ℕ → List UInt8 → Except Err ((List Span × List (Redir Span)) × List UInt8)
  | 0, _, _ => .error .fuel
  | n + 1, argc, ps =>
    let k := peek ps fun c => c = 124 || c = 41 || c = 38 || c = 59
    if k.1 then .ok (([], []), k.2)
    else
      let g := gettoken k.2
      match g.tok with
      | .eof => .ok (([], []), g.rest)
      | .sym _ => .error (.panic "syntax")
      | .word =>
        if argc + 1 ≥ MAXARGS then .error (.panic "too many args")
        else do
          let r ← parseredirs (g.rest.length + 1) g.rest
          let more ← parseargs n (argc + 1) r.2
          pure ((⟨g.q, g.eq⟩ :: more.1.1, r.1 ++ more.1.2), more.2)

/-- The loop of `parseline` over `'&'`: how often it goes round. -/
def parseamps : ℕ → List UInt8 → Except Err (ℕ × List UInt8)
  | 0, _ => .error .fuel
  | n + 1, ps =>
    let k := peek ps fun c => c = 38
    if k.1 then do
      let r ← parseamps n (gettoken k.2).rest
      pure (r.1 + 1, r.2)
    else .ok (0, k.2)

/-- `parseexec` but for the blocks. -/
def parsesimple (ps : List UInt8) : Except Err (Cmd Span × List UInt8) := do
  let r ← parseredirs (ps.length + 1) ps
  let a ← parseargs (r.2.length + 1) 0 r.2
  pure (wrap (.exec a.1.1) (r.1 ++ a.1.2), a.2)

mutual

def parseline : ℕ → List UInt8 → Except Err (Cmd Span × List UInt8)
  | 0, _ => .error .fuel
  | n + 1, ps => do
    let cmd ← parsepipe n ps
    let a ← parseamps (cmd.2.length + 1) cmd.2
    let k := peek a.2 fun c => c = 59
    if k.1 then do
      let more ← parseline n (gettoken k.2).rest
      pure (.list (backs a.1 cmd.1) more.1, more.2)
    else pure (backs a.1 cmd.1, k.2)

def parsepipe : ℕ → List UInt8 → Except Err (Cmd Span × List UInt8)
  | 0, _ => .error .fuel
  | n + 1, ps => do
    let cmd ← parseexec n ps
    let k := peek cmd.2 fun c => c = 124
    if k.1 then do
      let more ← parsepipe n (gettoken k.2).rest
      pure (.pipe cmd.1 more.1, more.2)
    else pure (cmd.1, k.2)

def parseexec : ℕ → List UInt8 → Except Err (Cmd Span × List UInt8)
  | 0, _ => .error .fuel
  | n + 1, ps =>
    let k := peek ps fun c => c = 40
    if k.1 then parseblock n k.2 else parsesimple k.2

def parseblock : ℕ → List UInt8 → Except Err (Cmd Span × List UInt8)
  | 0, _ => .error .fuel
  | n + 1, ps =>
    let k := peek ps fun c => c = 40
    if !k.1 then .error (.panic "parseblock")
    else do
      let cmd ← parseline n (gettoken k.2).rest
      let close := peek cmd.2 fun c => c = 41
      if !close.1 then .error (.panic "syntax - missing )")
      else do
        let rest := (gettoken close.2).rest
        let r ← parseredirs (rest.length + 1) rest
        pure (wrap cmd.1 r.1, r.2)

end

/-- The bytes of the line, counted from its end: the NUL is number 0. -/
abbrev Buffer := ℕ → UInt8

/-- The line before it is cut into strings. -/
def bufferOf (s : List UInt8) : Buffer := fun d => (s.drop (s.length - d)).headD 0

/-- The string that starts at a place of the buffer. -/
def cstr (buf : Buffer) : ℕ → List UInt8
  | 0 => []
  | d + 1 => if buf (d + 1) = 0 then [] else buf (d + 1) :: cstr buf d

/-- `*eq = 0`. -/
def cut (buf : Buffer) (w : Span) : Buffer := Function.update buf w.eq.length 0

def nulterminate : Cmd Span → Buffer → Buffer
  | .exec argv, buf => argv.foldl cut buf
  | .redir cmd file _ _, buf => cut (nulterminate cmd buf) file
  | .pipe left right, buf => nulterminate right (nulterminate left buf)
  | .list left right, buf => nulterminate right (nulterminate left buf)
  | .back cmd, buf => nulterminate cmd buf

def parsecmd (s : List UInt8) : Except Err (Cmd (List UInt8)) := do
  let cmd ← parseline (4 * s.length + 4) s
  let k := peek cmd.2 fun _ => false
  if k.2 ≠ [] then .error (.panic "syntax")
  else pure (cmd.1.map fun w => cstr (nulterminate cmd.1 (bufferOf s)) w.q.length)

/-- A token of the language. -/
inductive Token
  | sym (y : Sym)
  | word (w : List UInt8)
  deriving DecidableEq

/-- The text consists of the tokens, with white space between them. A word ends where its bytes end,
and `">>"` is one token. -/
inductive Spells : List UInt8 → List Token → Prop
  | nil : Spells [] []
  | space {c : UInt8} {s : List UInt8} {ts : List Token} (hc : isSpace c = true)
      (h : Spells s ts) : Spells (c :: s) ts
  | sym {c : UInt8} {y : Sym} {s : List UInt8} {ts : List Token} (hc : symOf c = some y)
      (hgt : y = .gt → s.head? ≠ some 62) (h : Spells s ts) : Spells (c :: s) (.sym y :: ts)
  | gtgt {s : List UInt8} {ts : List Token} (h : Spells s ts) :
      Spells (62 :: 62 :: s) (.sym .gtgt :: ts)
  | word {c : UInt8} {w s : List UInt8} {ts : List Token} (hc : isWord c = true)
      (hw : ∀ b ∈ w, isWord b = true) (hend : ∀ b ∈ s.head?, isWord b = false)
      (h : Spells s ts) : Spells (c :: (w ++ s)) (.word (c :: w) :: ts)

def redirTo : Sym → List UInt8 → Option (Redir (List UInt8))
  | .lt, w => some ⟨w, O_RDONLY, 0⟩
  | .gt, w => some ⟨w, O_WRONLY ||| O_CREATE, 1⟩
  | .gtgt, w => some ⟨w, O_WRONLY ||| O_CREATE, 1⟩
  | _, _ => none

/-- `redir*`. -/
inductive Redirs : List Token → List (Redir (List UInt8)) → Prop
  | nil : Redirs [] []
  | cons {y : Sym} {w : List UInt8} {r : Redir (List UInt8)} {ts : List Token}
      {rs : List (Redir (List UInt8))} (hr : redirTo y w = some r) (h : Redirs ts rs) :
      Redirs (.sym y :: .word w :: ts) (r :: rs)

/-- `(word redir*)*`: the words, and the redirections between them. -/
inductive Words : List Token → List (List UInt8) → List (Redir (List UInt8)) → Prop
  | nil : Words [] [] []
  | cons {ts us : List Token} {w : List UInt8} {ws : List (List UInt8)}
      {rs rs' : List (Redir (List UInt8))} (h : Redirs ts rs) (hrest : Words us ws rs') :
      Words (.word w :: ts ++ us) (w :: ws) (rs ++ rs')

/-- The nonterminals that are commands. -/
inductive Nt
  | line | pipe | exec

/-- The tokens are derived from a nonterminal, with a tree. -/
inductive Derives : Nt → List Token → Cmd (List UInt8) → Prop
  -- line ::= pipe '&'*
  | line {ts : List Token} {c : Cmd (List UInt8)} (k : ℕ) (h : Derives .pipe ts c) :
      Derives .line (ts ++ List.replicate k (.sym .amp)) (backs k c)
  -- line ::= pipe '&'* ';' line
  | lines {ts us : List Token} {c d : Cmd (List UInt8)} (k : ℕ) (h : Derives .pipe ts c)
      (hrest : Derives .line us d) :
      Derives .line (ts ++ List.replicate k (.sym .amp) ++ .sym .semi :: us) (.list (backs k c) d)
  -- pipe ::= exec
  | pipe {ts : List Token} {c : Cmd (List UInt8)} (h : Derives .exec ts c) : Derives .pipe ts c
  -- pipe ::= exec '|' pipe
  | pipes {ts us : List Token} {c d : Cmd (List UInt8)} (h : Derives .exec ts c)
      (hrest : Derives .pipe us d) : Derives .pipe (ts ++ .sym .pipe :: us) (.pipe c d)
  -- exec ::= '(' line ')' redir*
  | block {ts us : List Token} {c : Cmd (List UInt8)} {rs : List (Redir (List UInt8))}
      (h : Derives .line ts c) (hrs : Redirs us rs) :
      Derives .exec (.sym .lpar :: ts ++ .sym .rpar :: us) (wrap c rs)
  -- exec ::= redir* (word redir*)*
  | simple {ts us : List Token} {ws : List (List UInt8)} {rs rs' : List (Redir (List UInt8))}
      (h : Redirs ts rs) (hws : Words us ws rs') (hlen : ws.length ≤ MAXARGS - 1) :
      Derives .exec (ts ++ us) (wrap (.exec ws) (rs ++ rs'))

/-- The text is a command line of the language, with a tree. -/
def Accepts (s : List UInt8) (c : Cmd (List UInt8)) : Prop :=
  ∃ ts, Spells s ts ∧ Derives .line ts c

end Xv6Container.Shell
