/-
  Xv6.Sh.Parse — `sh.c`: the command-line parser.

  `buf` is the line without the NUL that ends it, and pointers into it are offsets: `es` is
  `buf.length`, where `*s` reads the NUL. A command is the tree that the constructors of
  `sh.c` build; words and file names in it are the offsets `q`, `eq` of their two ends.
  `panic` ends the shell's child. The routines are mutually recursive and are given a bound
  on the depth of the recursion; `Stop.fuel` is that it was too small.
-/

import Mathlib

namespace Xv6.Sh

def MAXARGS : Nat := 10
def O_RDONLY : Nat := 0x000
def O_WRONLY : Nat := 0x001
def O_CREATE : Nat := 0x200

inductive Cmd where
  | exec (argv : List (Nat × Nat))
  | redir (cmd : Cmd) (file efile mode fd : Nat)
  | pipe (left right : Cmd)
  | list (left right : Cmd)
  | back (cmd : Cmd)
deriving DecidableEq

inductive Stop where
  | fuel
  | panic (msg : String)
deriving DecidableEq

/-! ## Tokens -/

def whitespace : List Char := [' ', '\t', '\r', '\n', '\x0b']
def symbols : List Char := ['<', '|', '>', '&', ';', '(', ')']

/-- `strchr(s, c)` as a truth value; the `strchr` of `ulib.c` does not find the NUL. -/
def strchr (s : List Char) (c : Char) : Bool := s.contains c

/-- `*s`. -/
def char (buf : List Char) (s : Nat) : Char := buf.getD s '\x00'

/-- `while(s < es && p(*s)) s++`, `k` being `es - s`. -/
def skip (p : Char → Bool) (buf : List Char) : Nat → Nat → Nat
  | 0, s => s
  | k + 1, s => if p (char buf s) then skip p buf k (s + 1) else s

def skipBlanks (buf : List Char) (s : Nat) : Nat := skip (strchr whitespace) buf (buf.length - s) s

/-- What `gettoken` returns, with `*q`, `*eq` and `*ps`. -/
structure Gettoken where
  ret : Char
  q : Nat
  eq : Nat
  s : Nat

def isWord (c : Char) : Bool := !strchr whitespace c && !strchr symbols c

def gettoken (buf : List Char) (s : Nat) : Gettoken :=
  let q := skipBlanks buf s
  let c := char buf q
  let (ret, s) :=
    if c = '\x00' then (c, q)
    else if c = '|' || c = '(' || c = ')' || c = ';' || c = '&' || c = '<' then (c, q + 1)
    else if c = '>' then
      if char buf (q + 1) = '>' then ('+', q + 2) else (c, q + 1)
    else ('a', skip isWord buf (buf.length - q) q)
  ⟨ret, q, s, skipBlanks buf s⟩

def peek (buf : List Char) (s : Nat) (toks : List Char) : Bool × Nat :=
  let s := skipBlanks buf s
  (char buf s != '\x00' && strchr toks (char buf s), s)

/-! ## Commands -/

/-- The switch of `parseredirs`. -/
def redircmd (tok : Char) (cmd : Cmd) (q eq : Nat) : Cmd :=
  if tok = '<' then .redir cmd q eq O_RDONLY 0
  else if tok = '>' then .redir cmd q eq (O_WRONLY ||| O_CREATE) 1
  else if tok = '+' then .redir cmd q eq (O_WRONLY ||| O_CREATE) 1
  else cmd

def parseredirs (buf : List Char) : Nat → Cmd → Nat → Except Stop (Cmd × Nat)
  | 0, _, _ => .error .fuel
  | fuel + 1, cmd, s =>
    let (more, s) := peek buf s ['<', '>']
    if more then
      let t := gettoken buf s
      let f := gettoken buf t.s
      if f.ret ≠ 'a' then .error (.panic "missing file for redirection")
      else parseredirs buf fuel (redircmd t.ret cmd f.q f.eq) f.s
    else .ok (cmd, s)

/-- `cmd->argv[argc] = q; cmd->eargv[argc] = eq` for the `execcmd` that `ret` is, or that is
    inside the redirections of `ret`. -/
def addArg (q eq : Nat) : Cmd → Cmd
  | .exec argv => .exec (argv ++ [(q, eq)])
  | .redir cmd file efile mode fd => .redir (addArg q eq cmd) file efile mode fd
  | cmd => cmd

/-- The loop of `parseexec`. -/
def parseargs (buf : List Char) : Nat → Nat → Cmd → Nat → Except Stop (Cmd × Nat)
  | 0, _, _, _ => .error .fuel
  | fuel + 1, argc, ret, s =>
    let (done, s) := peek buf s ['|', ')', '&', ';']
    if done then .ok (ret, s)
    else
      let t := gettoken buf s
      if t.ret = '\x00' then .ok (ret, t.s)
      else if t.ret ≠ 'a' then .error (.panic "syntax")
      else if argc + 1 ≥ MAXARGS then .error (.panic "too many args")
      else do
        let (ret, s) ← parseredirs buf fuel (addArg t.q t.eq ret) t.s
        parseargs buf fuel (argc + 1) ret s

/-- The loop of `parseline`. -/
def parseback (buf : List Char) : Nat → Cmd → Nat → Except Stop (Cmd × Nat)
  | 0, _, _ => .error .fuel
  | fuel + 1, cmd, s =>
    let (more, s) := peek buf s ['&']
    if more then parseback buf fuel (.back cmd) (gettoken buf s).s else .ok (cmd, s)

mutual

def parseline (buf : List Char) : Nat → Nat → Except Stop (Cmd × Nat)
  | 0, _ => .error .fuel
  | fuel + 1, s => do
    let (cmd, s) ← parsepipe buf fuel s
    let (cmd, s) ← parseback buf fuel cmd s
    let (more, s) := peek buf s [';']
    if more then
      let (rest, s) ← parseline buf fuel (gettoken buf s).s
      .ok (.list cmd rest, s)
    else .ok (cmd, s)

def parsepipe (buf : List Char) : Nat → Nat → Except Stop (Cmd × Nat)
  | 0, _ => .error .fuel
  | fuel + 1, s => do
    let (cmd, s) ← parseexec buf fuel s
    let (more, s) := peek buf s ['|']
    if more then
      let (rest, s) ← parsepipe buf fuel (gettoken buf s).s
      .ok (.pipe cmd rest, s)
    else .ok (cmd, s)

def parseblock (buf : List Char) : Nat → Nat → Except Stop (Cmd × Nat)
  | 0, _ => .error .fuel
  | fuel + 1, s => do
    let (isOpen, s) := peek buf s ['(']
    if !isOpen then .error (.panic "parseblock")
    else
      let (cmd, s) ← parseline buf fuel (gettoken buf s).s
      let (isClosed, s) := peek buf s [')']
      if !isClosed then .error (.panic "syntax - missing )")
      else parseredirs buf fuel cmd (gettoken buf s).s

def parseexec (buf : List Char) : Nat → Nat → Except Stop (Cmd × Nat)
  | 0, _ => .error .fuel
  | fuel + 1, s => do
    let (block, s) := peek buf s ['(']
    if block then parseblock buf fuel s
    else
      let (ret, s) ← parseredirs buf fuel (.exec []) s
      parseargs buf fuel 0 ret s

end

/-- `nulterminate`: the line, with its NUL, gets a NUL at the end of every word and file name. -/
def nulterminate : Cmd → List Char → List Char
  | .exec argv, mem => argv.foldl (fun mem w => mem.set w.2 '\x00') mem
  | .redir cmd _ efile _ _, mem => (nulterminate cmd mem).set efile '\x00'
  | .pipe left right, mem => nulterminate right (nulterminate left mem)
  | .list left right, mem => nulterminate right (nulterminate left mem)
  | .back cmd, mem => nulterminate cmd mem

/-- The command and the line after `nulterminate`. -/
def parsecmd (fuel : Nat) (buf : List Char) : Except Stop (Cmd × List Char) := do
  let (cmd, s) ← parseline buf fuel 0
  let (_, s) := peek buf s []
  if s ≠ buf.length then .error (.panic "syntax")
  else .ok (cmd, nulterminate cmd (buf ++ ['\x00']))

end Xv6.Sh
