/-
  Xv6.Ftable.Calls — the file table and the calls that use it (`file.c`, `pipe.c`,
  `sysfile.c`: `sys_open`, `sys_dup`, `sys_close`, `sys_pipe`; `proc.c`: `fork`, `exit`).

  A call is a program of actions: a section under `ftable.lock` or a pipe's lock, `kalloc`
  and `kfree` of a pipe's page, an access to a table of descriptors, or the assignments to
  a file that nobody else has yet. Calls of different processes interleave between them.

  What the calls find out elsewhere is given with the call: the inode a path leads to, if
  any (`sys_open`), the slot and page that are free, if any, and whether there is memory
  for the child (`fork`). The inode's side of `fileclose` and `sys_open` is in
  `Xv6.Fs.Namespace`. A page that is not allocated is neither a pipe to close nor one to
  free: an action on it fails.
-/

import Xv6.Fs.Namespace

namespace Xv6.Ftable

open Lib Prog
open Fs.Namespace (nofile nfile oWronly oRdwr)

/-! ## State -/

/-- `type` with the pointer that goes with it; `G` are the pages. -/
inductive Kind (G : Type) where
  | none
  | pipe (g : G)
  | inode (ip : Nat)
  deriving DecidableEq

structure File (G : Type) where
  ref : Nat
  type : Kind G
  readable : Bool
  writable : Bool

structure Pipe where
  readopen : Bool
  writeopen : Bool
  deriving DecidableEq

def Pipe.isOpen (x : Pipe) : Bool → Bool
  | false => x.readopen
  | true => x.writeopen

/-- A slot of `ptable`; an embryo is being made by its parent. -/
inductive Slot (P : Type) where
  | unused
  | embryo (parent : P)
  | running
  | zombie
  deriving DecidableEq

abbrev Fds := Fin nofile → Option (Fin nfile)

structure St (P G : Type) where
  file : Fin nfile → File G
  ofile : P → Fds
  /-- The pages allocated for pipes. -/
  pipe : G → Option Pipe
  slot : P → Slot P
  initproc : P
  /-- What the process's last call, or the one it is in, found as its descriptors. -/
  before : P → Fds
  /-- What the process's last call returned. -/
  result : P → Option Int

inductive Panic where
  /-- "filedup" -/
  | filedup
  /-- "fileclose" -/
  | fileclose
  /-- "init exiting" -/
  | initExiting
  /-- Use of a page that is free. -/
  | freePage
  deriving DecidableEq

/-! ## Actions -/

inductive Act (P G : Type) where
  | enter
  | leave (v : Int)
  | filealloc
  | filedup (f : Fin nfile)
  /-- `fileclose` under `ftable.lock`: `ff`, if this was the last reference. -/
  | fileclose (f : Fin nfile)
  /-- `pipeclose` under the pipe's lock: whether both ends are closed. -/
  | pipeclose (g : G) (writable : Bool)
  | kalloc (g : Option G)
  | kfree (g : G)
  /-- `p->readopen = 1; p->writeopen = 1;` -/
  | initpipe (g : G)
  /-- `type`, `readable` and `writable` of a new file. -/
  | setfile (f : Fin nfile) (type : Kind G) (readable writable : Bool)
  | ofile (fd : Fin nofile)
  | fdalloc (f : Fin nfile)
  | clearfd (fd : Fin nofile)
  | allocproc (q : P)
  | freeproc (q : P)
  /-- `np->ofile[fd] = f;` -/
  | childfd (q : P) (fd : Fin nofile) (f : Fin nfile)
  | spawn (q : P)
  | isInit
  | zombie
  | reap (q : P)
  | panic (m : Panic)

def Act.Res {P G : Type} : Act P G → Type
  | .enter => Bool
  | .filealloc => Option (Fin nfile)
  | .fileclose _ => Option (File G)
  | .pipeclose _ _ => Bool
  | .kalloc _ => Option G
  | .ofile _ => Option (Fin nfile)
  | .fdalloc _ => Option (Fin nofile)
  | .allocproc _ => Bool
  | .isInit => Bool
  | .reap _ => Bool
  | .panic _ => Empty
  | _ => Unit

section Exec

variable {P G : Type} [DecidableEq P] [DecidableEq G]

def setFile (s : St P G) (f : Fin nfile) (x : File G) : St P G := { s with file := Function.update s.file f x }

def setFd (s : St P G) (q : P) (fd : Fin nofile) (x : Option (Fin nfile)) : St P G :=
  { s with ofile := Function.update s.ofile q (Function.update (s.ofile q) fd x) }

def setSlot (s : St P G) (q : P) (x : Slot P) : St P G := { s with slot := Function.update s.slot q x }

def setPipe (s : St P G) (g : G) (x : Option Pipe) : St P G := { s with pipe := Function.update s.pipe g x }

def Pipe.close (x : Pipe) : Bool → Pipe
  | true => { x with writeopen := false }
  | false => { x with readopen := false }

def exec (p : P) : (a : Act P G) → St P G → Out Panic (a.Res × St P G)
  | .enter, s => match s.slot p with
    | .running => .ok (true, { s with before := Function.update s.before p (s.ofile p), result := Function.update s.result p none })
    | _ => .ok (false, s)
  | .leave v, s => .ok ((), { s with result := Function.update s.result p (some v) })
  | .filealloc, s => match (List.finRange nfile).find? fun f => (s.file f).ref = 0 with
    | some f => .ok (some f, setFile s f { s.file f with ref := 1 })
    | none => .ok (none, s)
  | .filedup f, s =>
    if (s.file f).ref < 1 then .fail .filedup else .ok ((), setFile s f { s.file f with ref := (s.file f).ref + 1 })
  | .fileclose f, s =>
    if (s.file f).ref < 1 then .fail .fileclose
    else if 0 < (s.file f).ref - 1 then .ok (none, setFile s f { s.file f with ref := (s.file f).ref - 1 })
    else .ok (some (s.file f), setFile s f { s.file f with ref := 0, type := .none })
  | .pipeclose g w, s => match s.pipe g with
    | some x => .ok (x.close w == ⟨false, false⟩, setPipe s g (some (x.close w)))
    | none => .fail .freePage
  -- the page's old contents are of no use to anyone
  | .kalloc g, s => match g with
    | some g => if s.pipe g = none then .ok (some g, setPipe s g (some ⟨false, false⟩)) else .ok (none, s)
    | none => .ok (none, s)
  | .kfree g, s => match s.pipe g with
    | some _ => .ok ((), setPipe s g none)
    | none => .fail .freePage
  | .initpipe g, s => .ok ((), setPipe s g (some ⟨true, true⟩))
  | .setfile f type readable writable, s => .ok ((), setFile s f { s.file f with type, readable, writable })
  | .ofile fd, s => .ok (s.ofile p fd, s)
  | .fdalloc f, s => match (List.finRange nofile).find? fun fd => (s.ofile p fd).isNone with
    | some fd => .ok (some fd, setFd s p fd (some f))
    | none => .ok (none, s)
  | .clearfd fd, s => .ok ((), setFd s p fd none)
  | .allocproc q, s => match s.slot q with
    | .unused => .ok (true, setSlot s q (.embryo p))
    | _ => .ok (false, s)
  | .freeproc q, s => .ok ((), setSlot s q .unused)
  | .childfd q fd f, s => .ok ((), setFd s q fd (some f))
  | .spawn q, s => .ok ((), { setSlot s q .running with result := Function.update s.result q none })
  | .isInit, s => .ok (decide (p = s.initproc), s)
  | .zombie, s => .ok ((), setSlot s p .zombie)
  | .reap q, s => match s.slot q with
    | .zombie => .ok (true, setSlot s q .unused)
    | _ => .ok (false, s)
  | .panic m, _ => .fail m

end Exec

/-! ## Programs -/

section Programs

variable {P G : Type}

abbrev M (P G : Type) := Prog (Act P G) Act.Res

def filealloc : M P G (Option (Fin nfile)) := perform Act.filealloc
def filedup (f : Fin nfile) : M P G Unit := perform (Act.filedup f)
def kalloc (g : Option G) : M P G (Option G) := perform (Act.kalloc g)
def kfree (g : G) : M P G Unit := perform (Act.kfree g)
def fdalloc (f : Fin nfile) : M P G (Option (Fin nofile)) := perform (Act.fdalloc f)
def ofile (fd : Fin nofile) : M P G (Option (Fin nfile)) := perform (Act.ofile fd)
def clearfd (fd : Fin nofile) : M P G Unit := perform (Act.clearfd fd)
def setfile (f : Fin nfile) (type : Kind G) (readable writable : Bool) : M P G Unit :=
  perform (Act.setfile f type readable writable)

def allocproc (q : P) : M P G Bool := perform (Act.allocproc q)
def isInit : M P G Bool := perform Act.isInit
def reap (q : P) : M P G Bool := perform (Act.reap q)
def enter : M P G Bool := perform Act.enter
def lastEnd (g : G) (writable : Bool) : M P G Bool := perform (Act.pipeclose g writable)
def lastRef (f : Fin nfile) : M P G (Option (File G)) := perform (Act.fileclose f)

def pipeclose (g : G) (writable : Bool) : M P G Unit := do
  if ← lastEnd g writable then kfree g

/-- What `fileclose` does after the last reference is gone; of an inode, `iput`. -/
def closeLast (ff : File G) : M P G Unit :=
  match ff.type with
  | .pipe g => pipeclose g ff.writable
  | .inode _ => pure ()
  | .none => pure ()

def fileclose (f : Fin nfile) : M P G Unit := do
  match ← lastRef f with
  | none => pure ()
  | some ff => closeLast ff

/-- The exits of `pipealloc` that fail. -/
def pipeallocBad (p : Option G) (f0 f1 : Option (Fin nfile)) : M P G (Option (Fin nfile × Fin nfile)) := do
  p.forM kfree
  f0.forM fileclose
  f1.forM fileclose
  return none

def pipealloc (page : Option G) : M P G (Option (Fin nfile × Fin nfile)) := do
  let some f0 ← filealloc | pipeallocBad none none none
  let some f1 ← filealloc | pipeallocBad none (some f0) none
  let some g ← kalloc page | pipeallocBad none (some f0) (some f1)
  perform (Act.initpipe g)
  setfile f0 (.pipe g) true false
  setfile f1 (.pipe g) false true
  return some (f0, f1)

/-- `argfd`: the descriptor and its file. -/
def argfd (n : Int) : M P G (Option (Fin nofile × Fin nfile)) := do
  if h : 0 ≤ n ∧ n < nofile then
    let fd : Fin nofile := ⟨n.toNat, by omega⟩
    match ← ofile fd with
    | some f => return some (fd, f)
    | none => return none
  else return none

def sysDup (n : Int) : M P G Int := do
  let some (_, f) ← argfd n | return -1
  let some fd ← fdalloc f | return -1
  filedup f
  return fd

def sysClose (n : Int) : M P G Int := do
  let some (fd, f) ← argfd n | return -1
  clearfd fd
  fileclose f
  return 0

/-- `sys_open`, after the path has led to `ip` or nowhere. -/
def sysOpen (ip : Option Nat) (omode : Nat) : M P G Int := do
  let some i := ip | return -1
  let some f ← filealloc | return -1
  let some fd ← fdalloc f | fileclose f; return -1
  setfile f (.inode i) (omode &&& oWronly == 0) (omode &&& oWronly != 0 || omode &&& oRdwr != 0)
  return fd

/-- `sys_pipe`; `arg`: the user's array is in its memory. -/
def sysPipe (arg : Bool) (page : Option G) : M P G Int := do
  if arg then
    let some (rf, wf) ← pipealloc page | return -1
    let some fd0 ← fdalloc rf | fileclose rf; fileclose wf; return -1
    let some _ ← fdalloc wf | clearfd fd0; fileclose rf; fileclose wf; return -1
    return 0
  else return -1

def forkFiles (q : P) : List (Fin nofile) → M P G Unit
  | [] => pure ()
  | fd :: fds => do
    match ← ofile fd with
    | some f =>
      filedup f
      perform (Act.childfd q fd f)
      forkFiles q fds
    | none => forkFiles q fds

/-- `fork` to the slot `np` with the id `pid`; `mem`: `copyuvm` finds memory. -/
def fork (np : Option P) (mem : Bool) (pid : Nat) : M P G Int := do
  let some q := np | return -1
  if ← allocproc q then
    if mem then
      forkFiles q (List.finRange nofile)
      perform (Act.spawn q)
      return pid
    else
      perform (Act.freeproc q)
      return -1
  else return -1

def exitFiles : List (Fin nofile) → M P G Unit
  | [] => pure ()
  | fd :: fds => do
    match ← ofile fd with
    | some f =>
      fileclose f
      clearfd fd
      exitFiles fds
    | none => exitFiles fds

def exit : M P G Unit := do
  if ← isInit then act (.panic .initExiting) fun e => nomatch e
  else
    exitFiles (List.finRange nofile)
    perform Act.zombie

inductive Call (P G : Type) where
  | open (ip : Option Nat) (omode : Nat)
  | dup (n : Int)
  | close (n : Int)
  | pipe (arg : Bool) (page : Option G)
  | fork (np : Option P) (mem : Bool) (pid : Nat)
  /-- `wait` finds the zombie `q`, if it is one. -/
  | wait (q : P)
  | exit

/-- The call's return value; `exit` has none. -/
def Call.code : Call P G → M P G (Option Int)
  | .open ip omode => do return some (← sysOpen ip omode)
  | .dup n => do return some (← sysDup n)
  | .close n => do return some (← sysClose n)
  | .pipe arg page => do return some (← sysPipe arg page)
  | .fork np mem pid => do return some (← Ftable.fork np mem pid)
  | .wait q => do if ← reap q then return some 0 else return some (-1)
  | .exit => do Ftable.exit; return none

def Call.body (c : Call P G) : M P G Unit := do
  if ← enter then
    if let some v ← c.code then perform (Act.leave v)

end Programs

end Xv6.Ftable
