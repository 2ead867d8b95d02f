/-
  Xv6.Fs.Namespace — names, links and references (`fs.c`: `iput`, `ialloc`, `dirlookup`
  to `nameiparent`; `sysfile.c`; `file.c`: `filealloc`, `filedup`, `fileclose`; `proc.c`:
  what `fork` and `exit` do with files).

  A directory is the list of its entries, slot by slot; an entry with inode number 0 is
  empty. The other contents of files are left out. An inode is one value here: the copy
  in the cache is the one on disk whenever the inode's lock is free
  (`Icache.icache_identity`), and the code changes it and calls `iupdate` under that lock.

  The functions are programs of the actions in `Act`. An action is what is done under
  `icache.lock`, `ftable.lock` or `ptable.lock`, under the buffer of an on-disk inode
  (`claim`), or to an inode whose sleep-lock is held; taking and giving up a sleep-lock
  are actions. `iput`'s look at the count (`last`), its freeing (`free`) and its decrement
  (`unref`) are three, and so interleave with everything else.

  The cache has room for every inode in use and the disk for every block (`balloc` and
  `iget` panic otherwise), and the tests in `ilock` and `iunlock` that the caller holds the
  inode are left out. `begin_op` and `end_op` are counted only.
-/

import Xv6.Fs.Layout
import Xv6.Lib.Prog

namespace Xv6.Fs.Namespace

open Xv6.Lib Prog

def nofile : Nat := 16
def nfile : Nat := 100

abbrev Name := List UInt8

def slash : UInt8 := 47
def dot : Name := [46]
def dotdot : Name := [46, 46]

/-! ## Paths -/

/-- The next element of the path, cut to `DIRSIZ`, and what follows it. -/
def skipelem (path : List UInt8) : Option (Name × List UInt8) :=
  match path.dropWhile (· == slash) with
  | [] => none
  | s => some ((s.takeWhile (· != slash)).take dirSiz, (s.dropWhile (· != slash)).dropWhile (· == slash))

/-- `skipelem` again and again, at most so many times. -/
def elemsUpTo : Nat → List UInt8 → List Name
  | 0, _ => []
  | n + 1, path => match skipelem path with
    | none => []
    | some (name, rest) => name :: elemsUpTo n rest

/-- The elements `namex` sees. -/
def elems (path : List UInt8) : List Name := elemsUpTo path.length path

theorem skipelem_lt {path rest : List UInt8} {name : Name} (h : skipelem path = some (name, rest)) :
    rest.length < path.length := by
  unfold skipelem at h
  split at h
  · cases h
  · rename_i hs
    cases h
    have hlen : (path.dropWhile (· == slash)).length ≤ path.length := (List.dropWhile_suffix _).length_le
    cases hp : path.dropWhile (· == slash) with
    | nil => exact absurd hp hs
    | cons c cs =>
      -- the element has a first character
      have hc : (c != slash) = true := by
        have := List.head_dropWhile_not (· == slash) (l := path) (by rw [hp]; simp)
        simpa [hp] using this
      have hrest : ((cs.dropWhile (· != slash)).dropWhile (· == slash)).length ≤ cs.length :=
        ((List.dropWhile_suffix _).length_le).trans (List.dropWhile_suffix _).length_le
      rw [hp, List.length_cons] at hlen
      rw [List.dropWhile_cons, if_pos hc]
      omega

theorem elemsUpTo_enough {n m : Nat} {path : List UInt8} (hn : path.length ≤ n) (hm : path.length ≤ m) :
    elemsUpTo n path = elemsUpTo m path := by
  induction n generalizing m path with
  | zero =>
    rw [List.length_eq_zero_iff.mp (Nat.le_zero.mp hn)]
    cases m <;> rfl
  | succ n ih =>
    cases m with
    | zero =>
      rw [List.length_eq_zero_iff.mp (Nat.le_zero.mp hm)]
      rfl
    | succ m =>
      unfold elemsUpTo
      cases hs : skipelem path with
      | none => rfl
      | some x =>
        have := skipelem_lt hs
        dsimp only
        rw [ih (m := m) (by omega) (by omega)]

/-- `elems` goes on until `skipelem` finds no element. -/
theorem elems_eq (path : List UInt8) : elems path = match skipelem path with
    | none => []
    | some (name, rest) => name :: elems rest := by
  unfold elems
  rw [elemsUpTo_enough (m := path.length + 1) le_rfl (by omega), elemsUpTo]
  cases hs : skipelem path with
  | none => rfl
  | some x =>
    have := skipelem_lt hs
    dsimp only
    rw [elemsUpTo_enough (by omega) le_rfl]

/-! ## Directories -/

structure Dirent where
  inum : Nat
  name : Name
  deriving DecidableEq

/-- A cleared entry (`memset`). -/
def Dirent.empty : Dirent := ⟨0, []⟩

/-- The loop of `dirlookup` from slot `k` on: an entry's inode number and slot. -/
def lookupFrom (name : Name) : Nat → List Dirent → Option (Nat × Nat)
  | _, [] => none
  | k, e :: es => if e.inum ≠ 0 ∧ e.name = name then some (e.inum, k) else lookupFrom name (k + 1) es

def lookup (name : Name) (ents : List Dirent) : Option (Nat × Nat) := lookupFrom name 0 ents

/-- `dirlink` writes over the first empty entry, or behind the last. -/
def put (e : Dirent) : List Dirent → List Dirent
  | [] => [e]
  | x :: xs => if x.inum = 0 then e :: xs else x :: put e xs

/-- The entries a directory can have. -/
def maxEnts : Nat := maxFile * bsize / direntSize

/-- `writei` takes the entry. -/
def fits (ents : List Dirent) : Bool := ents.any (·.inum = 0) || ents.length < maxEnts

/-! ## Actions -/

structure Node where
  type : Option FileType
  major : Int
  minor : Int
  nlink : Int
  ents : List Dirent
  deriving DecidableEq

def Node.blank (t : Option FileType) : Node := ⟨t, 0, 0, 0, []⟩

/-- What a `short` holds. -/
def short (n : Int) : Int := n.bmod 65536

structure File where
  ref : Nat
  /-- The inode of an `FD_INODE`. -/
  ip : Option Nat
  readable : Bool
  writable : Bool

inductive Proc (P : Type) where
  | unused
  | embryo (parent : P)
  | running

structure St (P : Type) where
  inode : Nat → Node
  ref : Nat → Nat
  valid : Nat → Bool
  lock : Nat → Option P
  /-- 0: none. -/
  cwd : P → Nat
  file : Fin nfile → File
  ofile : P → Fin nofile → Option (Fin nfile)
  proc : P → Proc P
  outstanding : Nat

inductive Panic where
  /-- "ilock: no type" -/
  | noType
  /-- "ialloc: no inodes" -/
  | noInodes
  /-- "dirlookup not DIR" -/
  | notDir
  /-- "dirlink" -/
  | dirlink
  /-- "unlink: nlink < 1" -/
  | nlink
  /-- "create dots" -/
  | dots
  /-- "create: dirlink" -/
  | create
  /-- "filedup" -/
  | filedup
  /-- "fileclose" -/
  | fileclose
  deriving DecidableEq, Repr

inductive Act (P : Type) where
  | beginOp
  | endOp
  | acquiresleep (i : Nat)
  | releasesleep (i : Nat)
  /-- The rest of `ilock`. -/
  | load (i : Nat)
  /-- `iput`'s test: valid, no links, and the last reference. -/
  | last (i : Nat)
  /-- `itrunc`, type 0, `iupdate`, `valid = 0`. -/
  | free (i : Nat)
  /-- `ip->ref--`. -/
  | unref (i : Nat)
  | iget (i : Nat)
  /-- `idup(myproc()->cwd)`. -/
  | idup
  /-- `ialloc`'s test and marking of one inode. -/
  | claim (i : Nat) (t : FileType)
  | dirlookup (dp : Nat) (name : Name)
  | isdirempty (i : Nat)
  /-- The second half of `dirlink`. -/
  | enter (dp : Nat) (name : Name) (inum : Nat)
  /-- A cleared entry is written over slot `k`. -/
  | erase (dp k : Nat)
  /-- `major`, `minor`, `nlink = 1`, `iupdate`. -/
  | init (i : Nat) (major minor : Int)
  /-- `nlink++`, `iupdate`. -/
  | incr (i : Nat)
  /-- `nlink--`, `iupdate`. -/
  | decr (i : Nat)
  | mycwd
  | setcwd (i : Nat)
  | running
  | filealloc
  | fdalloc (f : Fin nfile)
  /-- `f->type = FD_INODE`, `f->ip = ip`, `readable`, `writable`. -/
  | setfile (f : Fin nfile) (i omode : Nat)
  /-- `myproc()->ofile[fd]`. -/
  | ofile (fd : Fin nofile)
  | clearfd (fd : Fin nofile)
  /-- `fileclose` but for the `iput`: the inode to put, if this was the last reference to the file. -/
  | fileclose (f : Fin nfile)
  | filedup (f : Fin nfile)
  | allocproc (q : P)
  /-- `copyuvm` failed: the slot is given back. -/
  | freeproc (q : P)
  /-- The child gets its files and directory and is made `RUNNABLE`. -/
  | spawn (q : P) (files : Fin nofile → Option (Fin nfile)) (cwd : Nat)
  /-- The end of `exit`; the slot can be used again once the parent has waited. -/
  | zombie
  | panic (m : Panic)

def Act.Res {P : Type} : Act P → Type
  | .load _ => Node
  | .last _ => Bool
  | .idup => Nat
  | .claim _ _ => Bool
  | .dirlookup _ _ => Option (Nat × Nat)
  | .isdirempty _ => Bool
  | .mycwd => Nat
  | .running => Bool
  | .filealloc => Option (Fin nfile)
  | .fdalloc _ => Option (Fin nofile)
  | .ofile _ => Option (Fin nfile)
  | .fileclose _ => Option Nat
  | .allocproc _ => Bool
  | .panic _ => Empty
  | _ => Unit

abbrev M (P : Type) := Prog (Act P) Act.Res

def oWronly : Nat := 0x001
def oRdwr : Nat := 0x002
def oCreate : Nat := 0x200

section Exec

variable {P : Type} [DecidableEq P]

def File.opened (f : File) (i omode : Nat) : File :=
  { f with ip := some i, readable := omode &&& oWronly == 0, writable := omode &&& oWronly != 0 || omode &&& oRdwr != 0 }

def setInode (s : St P) (i : Nat) (n : Node) : St P := { s with inode := Function.update s.inode i n }

def addRef (s : St P) (i : Nat) : St P :=
  { s with ref := Function.update s.ref i (s.ref i + 1),
           valid := if s.ref i = 0 then Function.update s.valid i false else s.valid }

def exec (p : P) : (a : Act P) → St P → Out Panic (a.Res × St P)
  | .beginOp, s => .ok ((), { s with outstanding := s.outstanding + 1 })
  | .endOp, s => .ok ((), { s with outstanding := s.outstanding - 1 })
  | .acquiresleep i, s => match s.lock i with
    | none => .ok ((), { s with lock := Function.update s.lock i (some p) })
    | some _ => .wait
  | .releasesleep i, s => .ok ((), { s with lock := Function.update s.lock i none })
  | .load i, s =>
    if (s.inode i).type = none then .fail .noType
    else .ok (s.inode i, { s with valid := Function.update s.valid i true })
  | .last i, s => .ok (s.valid i && (s.inode i).nlink = 0 && s.ref i = 1, s)
  | .free i, s => .ok ((), { setInode s i { s.inode i with type := none, ents := [] } with
      valid := Function.update s.valid i false })
  | .unref i, s => .ok ((), { s with ref := Function.update s.ref i (s.ref i - 1) })
  | .iget i, s => .ok ((), addRef s i)
  | .idup, s => .ok (s.cwd p, addRef s (s.cwd p))
  | .claim i t, s =>
    if (s.inode i).type = none then .ok (true, setInode s i (Node.blank (some t))) else .ok (false, s)
  | .dirlookup dp name, s =>
    if (s.inode dp).type ≠ some .dir then .fail .notDir
    else match lookup name (s.inode dp).ents with
      | some (i, k) => .ok (some (i, k), addRef s i)
      | none => .ok (none, s)
  | .isdirempty i, s => .ok (((s.inode i).ents.drop 2).all (·.inum = 0), s)
  | .enter dp name i, s =>
    if fits (s.inode dp).ents then
      .ok ((), setInode s dp { s.inode dp with ents := put ⟨i % 65536, name⟩ (s.inode dp).ents })
    else .fail .dirlink
  | .erase dp k, s => .ok ((), setInode s dp { s.inode dp with ents := (s.inode dp).ents.set k .empty })
  | .init i major minor, s => .ok ((), setInode s i { s.inode i with major := major, minor := minor, nlink := 1 })
  | .incr i, s => .ok ((), setInode s i { s.inode i with nlink := short ((s.inode i).nlink + 1) })
  | .decr i, s => .ok ((), setInode s i { s.inode i with nlink := short ((s.inode i).nlink - 1) })
  | .mycwd, s => .ok (s.cwd p, s)
  | .setcwd i, s => .ok ((), { s with cwd := Function.update s.cwd p i })
  | .running, s => .ok (match s.proc p with | .running => true | _ => false, s)
  | .filealloc, s => match (List.finRange nfile).find? fun f => (s.file f).ref = 0 with
    | some f => .ok (some f, { s with file := Function.update s.file f { s.file f with ref := 1 } })
    | none => .ok (none, s)
  | .fdalloc f, s => match (List.finRange nofile).find? fun fd => (s.ofile p fd).isNone with
    | some fd => .ok (some fd, { s with
        ofile := Function.update s.ofile p (Function.update (s.ofile p) fd (some f)) })
    | none => .ok (none, s)
  | .setfile f i omode, s => .ok ((), { s with file := Function.update s.file f ((s.file f).opened i omode) })
  | .ofile fd, s => .ok (s.ofile p fd, s)
  | .clearfd fd, s => .ok ((), { s with ofile := Function.update s.ofile p (Function.update (s.ofile p) fd none) })
  | .fileclose f, s =>
    if (s.file f).ref < 1 then .fail .fileclose
    else if 0 < (s.file f).ref - 1 then
      .ok (none, { s with file := Function.update s.file f { s.file f with ref := (s.file f).ref - 1 } })
    else .ok ((s.file f).ip, { s with file := Function.update s.file f { s.file f with ref := 0, ip := none } })
  | .filedup f, s =>
    if (s.file f).ref < 1 then .fail .filedup
    else .ok ((), { s with file := Function.update s.file f { s.file f with ref := (s.file f).ref + 1 } })
  | .allocproc q, s => match s.proc q with
    | .unused => .ok (true, { s with proc := Function.update s.proc q (.embryo p) })
    | _ => .ok (false, s)
  | .freeproc q, s => .ok ((), { s with proc := Function.update s.proc q .unused })
  | .spawn q files c, s => .ok ((), { s with
      ofile := Function.update s.ofile q files, cwd := Function.update s.cwd q c,
      proc := Function.update s.proc q .running })
  | .zombie, s => .ok ((), { s with proc := Function.update s.proc p .unused })
  | .panic m, _ => .fail m

end Exec

section Programs

variable {P : Type}

def panic (m : Panic) : M P α := act (.panic m) fun e => nomatch e

def beginOp : M P Unit := perform Act.beginOp
def endOp : M P Unit := perform Act.endOp
def acquiresleep (i : Nat) : M P Unit := perform (Act.acquiresleep i)
def iunlock (i : Nat) : M P Unit := perform (Act.releasesleep i)
def load (i : Nat) : M P Node := perform (Act.load i)
def last (i : Nat) : M P Bool := perform (Act.last i)
def free (i : Nat) : M P Unit := perform (Act.free i)
def unref (i : Nat) : M P Unit := perform (Act.unref i)
def iget (i : Nat) : M P Unit := perform (Act.iget i)
def idup : M P Nat := perform Act.idup
def claim (i : Nat) (t : FileType) : M P Bool := perform (Act.claim i t)
def dirlookup (dp : Nat) (name : Name) : M P (Option (Nat × Nat)) := perform (Act.dirlookup dp name)
def isdirempty (i : Nat) : M P Bool := perform (Act.isdirempty i)
def enter (dp : Nat) (name : Name) (inum : Nat) : M P Unit := perform (Act.enter dp name inum)
def erase (dp k : Nat) : M P Unit := perform (Act.erase dp k)
def init (i : Nat) (major minor : Int) : M P Unit := perform (Act.init i major minor)
def incr (i : Nat) : M P Unit := perform (Act.incr i)
def decr (i : Nat) : M P Unit := perform (Act.decr i)
def mycwd : M P Nat := perform Act.mycwd
def setcwd (i : Nat) : M P Unit := perform (Act.setcwd i)
def running : M P Bool := perform Act.running
def filealloc : M P (Option (Fin nfile)) := perform Act.filealloc
def fdalloc (f : Fin nfile) : M P (Option (Fin nofile)) := perform (Act.fdalloc f)
def setfile (f : Fin nfile) (i omode : Nat) : M P Unit := perform (Act.setfile f i omode)
def ofile (fd : Fin nofile) : M P (Option (Fin nfile)) := perform (Act.ofile fd)
def clearfd (fd : Fin nofile) : M P Unit := perform (Act.clearfd fd)
def filedup (f : Fin nfile) : M P Unit := perform (Act.filedup f)
def allocproc (q : P) : M P Bool := perform (Act.allocproc q)
def freeproc (q : P) : M P Unit := perform (Act.freeproc q)
def spawn (q : P) (files : Fin nofile → Option (Fin nfile)) (cwd : Nat) : M P Unit := perform (Act.spawn q files cwd)
def zombie : M P Unit := perform Act.zombie

/-! ## Inodes -/

def ilock (i : Nat) : M P Node := do
  acquiresleep i
  load i

/-- What `iput` does under the inode's lock. -/
def iputLocked (i : Nat) : M P Unit := do
  if ← last i then free i else return ()

def iput (i : Nat) : M P Unit := do
  acquiresleep i
  iputLocked i
  iunlock i
  unref i

def iunlockput (i : Nat) : M P Unit := do
  iunlock i
  iput i

def iallocFrom (t : FileType) : List Nat → M P Nat
  | [] => panic .noInodes
  | i :: is => do
    if ← claim i t then
      iget i
      return i
    else iallocFrom t is

def ialloc (ninodes : Nat) (t : FileType) : M P Nat := iallocFrom t (List.range' 1 (ninodes - 1))

/-! ## Names -/

def dirlink (dp : Nat) (name : Name) (inum : Nat) : M P Int := do
  match ← dirlookup dp name with
  | some (ip, _) =>
    iput ip
    return -1
  | none =>
    enter dp name inum
    return 0

/-- The loop of `namex`; with an inode goes the last element, when its parent was asked for. -/
def walk (parent : Bool) : List Name → Nat → M P (Option (Nat × Name))
  | [], ip =>
    if parent then do
      iput ip
      return none
    else return some (ip, [])
  | name :: rest, ip => do
    let n ← ilock ip
    if n.type ≠ some .dir then
      iunlockput ip
      return none
    else if parent && rest.isEmpty then
      iunlock ip
      return some (ip, name)
    else
      match ← dirlookup ip name with
      | none =>
        iunlockput ip
        return none
      | some (next, _) =>
        iunlockput ip
        walk parent rest next

def namex (path : List UInt8) (parent : Bool) : M P (Option (Nat × Name)) :=
  if path.head? = some slash then do
    iget rootIno
    walk parent (elems path) rootIno
  else do
    let ip ← idup
    walk parent (elems path) ip

def namei (path : List UInt8) : M P (Option (Nat × Name)) := namex path false

def nameiparent (path : List UInt8) : M P (Option (Nat × Name)) := namex path true

/-! ## `sysfile.c` -/

/-- `bad:` in `sys_link`. -/
def linkBad (ip : Nat) : M P Int := do
  let _ ← ilock ip
  decr ip
  iunlockput ip
  endOp
  return -1

/-- `sys_link` with the parent directory found. -/
def linkIn (dp : Nat) (name : Name) (ip : Nat) : M P Int := do
  let _ ← ilock dp
  let r ← dirlink dp name ip
  if r < 0 then do
    iunlockput dp
    linkBad ip
  else do
    iunlockput dp
    iput ip
    endOp
    return 0

/-- `sys_link` with the count incremented. -/
def linkTo (new : List UInt8) (ip : Nat) : M P Int := do
  match ← nameiparent new with
  | none => linkBad ip
  | some (dp, name) => linkIn dp name ip

/-- `sys_link` up to the incremented count: the file, if there is one to link to. -/
def linkOld (old : List UInt8) : M P (Option Nat) := do
  beginOp
  match ← namei old with
  | none =>
    endOp
    return none
  | some (ip, _) =>
    let n ← ilock ip
    if n.type = some .dir then do
      iunlockput ip
      endOp
      return none
    else do
      incr ip
      iunlock ip
      return some ip

def sysLink (old new : List UInt8) : M P Int := do
  match ← linkOld old with
  | none => return -1
  | some ip => linkTo new ip

/-- `bad:` in `sys_unlink`. -/
def unlinkBad (dp : Nat) : M P Int := do
  iunlockput dp
  endOp
  return -1

/-- The parent loses the link that a directory's `..` was. -/
def dropDots (dp : Nat) (type : Option FileType) : M P Unit := if type = some .dir then decr dp else return ()

/-- The entry in slot `k` goes, and the link it was. -/
def unlinkEntry (dp k ip : Nat) (type : Option FileType) : M P Int := do
  erase dp k
  dropDots dp type
  iunlockput dp
  decr ip
  iunlockput ip
  endOp
  return 0

/-- `sys_unlink` with the entry found. -/
def unlinkAt (dp k ip : Nat) : M P Int := do
  let n ← ilock ip
  if n.nlink < 1 then panic .nlink
  else if n.type = some .dir then do
    if ← isdirempty ip then unlinkEntry dp k ip n.type
    else do
      iunlockput ip
      unlinkBad dp
  else unlinkEntry dp k ip n.type

def sysUnlink (path : List UInt8) : M P Int := do
  beginOp
  match ← nameiparent path with
  | none =>
    endOp
    return -1
  | some (dp, name) =>
    let _ ← ilock dp
    if name = dot ∨ name = dotdot then unlinkBad dp
    else do
      match ← dirlookup dp name with
      | none => unlinkBad dp
      | some (ip, k) => unlinkAt dp k ip

/-- `create` of a name that exists. -/
def createOld (dp ip : Nat) (t : FileType) : M P (Option Nat) := do
  iunlockput dp
  let n ← ilock ip
  if t = .file ∧ n.type = some .file then return some ip
  else do
    iunlockput ip
    return none

/-- The `.` and `..` of a new directory. -/
def createDots (dp ip : Nat) : M P Unit := do
  incr dp
  let r ← dirlink ip dot ip
  if r < 0 then panic .dots
  else do
    let r ← dirlink ip dotdot dp
    if r < 0 then panic .dots else return ()

def createBody (dp ip : Nat) (t : FileType) : M P Unit := if t = .dir then createDots dp ip else return ()

def createNew (ninodes : Nat) (dp : Nat) (name : Name) (t : FileType) (major minor : Int) : M P (Option Nat) := do
  let ip ← ialloc ninodes t
  let _ ← ilock ip
  init ip major minor
  createBody dp ip t
  let r ← dirlink dp name ip
  if r < 0 then panic .create
  else do
    iunlockput dp
    return some ip

/-- The inode is returned locked. -/
def create (ninodes : Nat) (path : List UInt8) (t : FileType) (major minor : Int) : M P (Option Nat) := do
  match ← nameiparent path with
  | none => return none
  | some (dp, name) =>
    let _ ← ilock dp
    match ← dirlookup dp name with
    | some (ip, _) => createOld dp ip t
    | none => createNew ninodes dp name t major minor

def fileclose (f : Fin nfile) : M P Unit := do
  match ← perform (Act.fileclose f) with
  | none => return ()
  | some ip =>
    beginOp
    iput ip
    endOp

/-- `sys_open` with the inode locked. -/
def openInode (omode ip : Nat) : M P Int := do
  match ← filealloc with
  | none =>
    iunlockput ip
    endOp
    return -1
  | some f =>
    match ← fdalloc f with
    | none =>
      fileclose f
      iunlockput ip
      endOp
      return -1
    | some fd =>
      iunlock ip
      endOp
      setfile f ip omode
      return fd.val

def sysOpen (ninodes : Nat) (path : List UInt8) (omode : Nat) : M P Int := do
  beginOp
  if omode &&& oCreate ≠ 0 then do
    match ← create ninodes path .file 0 0 with
    | none =>
      endOp
      return -1
    | some ip => openInode omode ip
  else do
    match ← namei path with
    | none =>
      endOp
      return -1
    | some (ip, _) =>
      let n ← ilock ip
      if n.type = some .dir ∧ omode ≠ 0 then do
        iunlockput ip
        endOp
        return -1
      else openInode omode ip

/-- `sys_mkdir` and `sys_mknod`. -/
def sysMake (ninodes : Nat) (path : List UInt8) (t : FileType) (major minor : Int) : M P Int := do
  beginOp
  match ← create ninodes path t major minor with
  | none =>
    endOp
    return -1
  | some ip =>
    iunlockput ip
    endOp
    return 0

def sysMkdir (ninodes : Nat) (path : List UInt8) : M P Int := sysMake ninodes path .dir 0 0

def sysMknod (ninodes : Nat) (path : List UInt8) (major minor : Int) : M P Int :=
  sysMake ninodes path .dev (short major) (short minor)

def sysChdir (path : List UInt8) : M P Int := do
  beginOp
  match ← namei path with
  | none =>
    endOp
    return -1
  | some (ip, _) =>
    let n ← ilock ip
    if n.type ≠ some .dir then do
      iunlockput ip
      endOp
      return -1
    else do
      iunlock ip
      let c ← mycwd
      iput c
      endOp
      setcwd ip
      return 0

/-- `exec`: it reads the file with the inode locked (`loads`: that goes well), and builds
    the new image after it has put the inode (`builds`). -/
def sysExec (path : List UInt8) (loads builds : Bool) : M P Int := do
  beginOp
  match ← namei path with
  | none =>
    endOp
    return -1
  | some (ip, _) =>
    let _ ← ilock ip
    iunlockput ip
    endOp
    return if loads && builds then 0 else -1

def sysClose (fd : Fin nofile) : M P Int := do
  match ← ofile fd with
  | none => return -1
  | some f =>
    clearfd fd
    fileclose f
    return 0

/-! ## `proc.c` -/

/-- The files of a new process: `filedup` of each of the parent's. -/
def dupFiles : List (Fin nofile) → (Fin nofile → Option (Fin nfile)) → M P (Fin nofile → Option (Fin nfile))
  | [], files => return files
  | fd :: fds, files => do
    match ← ofile fd with
    | none => dupFiles fds files
    | some f =>
      filedup f
      dupFiles fds (Function.update files fd (some f))

/-- `fork` with a slot for the child; `copied`: `copyuvm` found the memory. -/
def forkInto (q : P) (copied : Bool) : M P Int :=
  if copied then do
    let files ← dupFiles (List.finRange nofile) fun _ => none
    let c ← idup
    spawn q files c
    return 0
  else do
    freeproc q
    return -1

def fork (q : P) (copied : Bool) : M P Int := do
  if ← allocproc q then forkInto q copied else return -1

def closeAll : List (Fin nofile) → M P Unit
  | [] => return ()
  | fd :: fds => do
    match ← ofile fd with
    | none => closeAll fds
    | some f =>
      fileclose f
      clearfd fd
      closeAll fds

def exit : M P Unit := do
  closeAll (List.finRange nofile)
  beginOp
  let c ← mycwd
  iput c
  endOp
  setcwd 0
  zombie

end Programs

/-! ## Calls -/

inductive Call (P : Type) where
  | mkdir (path : List UInt8)
  | mknod (path : List UInt8) (major minor : Int)
  | open_ (path : List UInt8) (omode : Nat)
  | link (old new : List UInt8)
  | unlink (path : List UInt8)
  | chdir (path : List UInt8)
  | exec (path : List UInt8) (loads builds : Bool)
  | close (fd : Fin nofile)
  | fork (q : P) (copied : Bool)
  | exit
  /-- A call that cannot fetch its arguments; `op`: it tries after `begin_op`
      (`sys_mkdir`, `sys_mknod`, `sys_chdir`). -/
  | badArgs (op : Bool)

/-- The end of a call that cannot fetch its arguments. -/
def badArgs {P : Type} (op : Bool) : M P Unit :=
  if op then do
    beginOp
    endOp
  else return ()

def Call.prog {P : Type} (ninodes : Nat) : Call P → M P Unit
  | .mkdir path => do let _ ← sysMkdir ninodes path; return ()
  | .mknod path major minor => do let _ ← sysMknod ninodes path major minor; return ()
  | .open_ path omode => do let _ ← sysOpen ninodes path omode; return ()
  | .link old new => do let _ ← sysLink old new; return ()
  | .unlink path => do let _ ← sysUnlink path; return ()
  | .chdir path => do let _ ← sysChdir path; return ()
  | .close fd => do let _ ← sysClose fd; return ()
  | .exec path loads builds => do let _ ← sysExec path loads builds; return ()
  | .fork q copied => do let _ ← Namespace.fork q copied; return ()
  | .exit => Namespace.exit
  | .badArgs op => Namespace.badArgs op

/-- Only a running process makes calls. -/
def Call.body {P : Type} (ninodes : Nat) (c : Call P) : M P Unit := do
  if ← Namespace.running then c.prog ninodes else return ()

end Xv6.Fs.Namespace
