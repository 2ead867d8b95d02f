/-
  Xv6.Fs.Incore — the file system calls over in-core inodes and the bytes of blocks
  (`fs.c`: `ilock` to `nameiparent`; `file.c`: `fileread`, `filewrite`; `sysfile.c`:
  `sys_link`, `sys_unlink`, `create`).

  The in-core inode (`mem`) is part of the state: the functions read and change its fields
  while they hold its lock, `ilock` fills it in when it is not valid, and `iupdate` copies
  it to disk. The functions of `Fs.Store` that work on one inode are used on its fields
  (`withInode`). A change of a block through `log_write` panics outside of a transaction.

  Names are elements of `Namespace.elems`; the current directory of a call is a parameter.
-/

import Xv6.Fs.Store
import Xv6.Fs.Namespace

namespace Xv6.Fs.Incore

open Xv6.Lib Prog

structure St (P : Type) where
  store : Store P
  mem : Nat → Dinode
  /-- `log.outstanding`. -/
  outstanding : Nat

inductive Panic where
  | store (m : Fs.Panic)
  /-- "log_write outside of trans" -/
  | outsideTrans
  /-- "isdirempty: readi" -/
  | isdirempty
  /-- "unlink: nlink < 1" -/
  | nlink
  /-- "unlink: writei" -/
  | unlink
  /-- "create dots" -/
  | dots
  /-- "create: dirlink" -/
  | create
  deriving DecidableEq, Repr

inductive Act where
  | beginOp
  | endOp
  | disk (a : Fs.Act)
  /-- The rest of `ilock`. -/
  | fill (i : Nat)
  /-- The in-core inode's fields, if it is valid. -/
  | cached (i : Nat)
  /-- The in-core inode's fields. -/
  | get (i : Nat)
  | set (i : Nat) (d : Dinode)
  | panic (m : Panic)

def Act.Res : Act → Type
  | .disk a => a.Res
  | .cached _ => Option Dinode
  | .get _ => Dinode
  | .panic _ => Empty
  | _ => Unit

abbrev M := Prog Act Act.Res

/-- The action has called `log_write`. -/
def logs : (a : Fs.Act) → a.Res → Bool
  | .mark _ _, r => r.isSome
  | .claim _ _, r => r
  | .bzero _ _, _ | .bfree _ _, _ | .bwrite _ _ _, _ | .iupdate _ _, _ => true
  | _, _ => false

section Exec

variable {P : Type} (sb : Superblock)

def exec (p : P) : (a : Act) → St P → Out Panic (a.Res × St P)
  | .beginOp, s => .ok ((), { s with outstanding := s.outstanding + 1 })
  | .endOp, s => .ok ((), { s with outstanding := s.outstanding - 1 })
  | .disk a, s => match Fs.exec sb p a s.store with
    | .ok (r, st) => if logs a r ∧ s.outstanding < 1 then .fail .outsideTrans else .ok (r, { s with store := st })
    | .wait => .wait
    | .fail m => .fail (.store m)
  | .fill i, s =>
    if s.store.valid i then .ok ((), s)
    else if (s.store.inode i).type = none then .fail (.store .noType)
    else .ok ((), { s with store := { s.store with valid := Function.update s.store.valid i true },
                           mem := Function.update s.mem i (s.store.inode i) })
  | .cached i, s => .ok (if s.store.valid i then some (s.mem i) else none, s)
  | .get i, s => .ok (s.mem i, s)
  | .set i d, s => .ok ((), { s with mem := Function.update s.mem i d })
  | .panic m, _ => .fail m

end Exec

def panic (m : Panic) : M α := act (.panic m) fun e => nomatch e

/-- A program of `Fs.Store`'s actions. -/
def disk : Fs.M α → M α
  | .ret x => ret x
  | .act a k => act (.disk a) fun r => disk (k r)

def beginOp : M Unit := perform Act.beginOp
def endOp : M Unit := perform Act.endOp
def cached (i : Nat) : M (Option Dinode) := perform (Act.cached i)
def get (i : Nat) : M Dinode := perform (Act.get i)
def set (i : Nat) (d : Dinode) : M Unit := perform (Act.set i d)

/-- A function of one inode, on its in-core fields. -/
def withInode (i : Nat) (f : Dinode → Fs.M (α × Dinode)) : M α := do
  let d ← get i
  let r ← disk (f d)
  set i r.2
  return r.1

variable (sb : Superblock) (dev : Devsw)

/-! ## Inodes -/

def iget (i : Nat) : M Unit := disk (Fs.iget i)
def ialloc (t : FileType) : M Nat := disk (Fs.ialloc sb t)
def iunlock (i : Nat) : M Unit := disk (releasesleep i)

def ilock (i : Nat) : M Unit := do
  disk (acquiresleep i)
  perform (Act.fill i)

def iupdate (i : Nat) : M Unit := do
  let d ← get i
  disk (Fs.iupdate i d)

def itrunc (i : Nat) : M Unit := withInode i fun d => do
  let d ← Fs.itrunc i d
  return ((), d)

/-- Truncate and free. -/
def iputFree (i : Nat) : M Unit := do
  itrunc i
  let d ← get i
  set i { d with type := none }
  iupdate i
  disk (invalidate i)

/-- What `iput` does under the inode's lock. -/
def iputLocked (i : Nat) : M Unit := do
  match ← cached i with
  | some d =>
    if d.nlink = 0 then do
      let r ← disk (sample i)
      if r = 1 then iputFree i else return ()
    else return ()
  | none => return ()

def iput (i : Nat) : M Unit := do
  disk (acquiresleep i)
  iputLocked i
  iunlock i
  disk (unref i)

def iunlockput (i : Nat) : M Unit := do
  iunlock i
  iput i

def readi (i off n : Nat) : M (Option (List UInt8)) := withInode i fun d => Fs.readi sb dev i d off n

def writei (i : Nat) (src : List UInt8) (off : Nat) : M Int := withInode i fun d => Fs.writei sb dev i d src off

/-! ## Directories -/

def dirlookup (dp : Nat) (name : List UInt8) : M (Option (Nat × Nat)) :=
  withInode dp fun d => Fs.dirlookup sb dev dp d name

/-- `dirlink`'s search for an empty entry. -/
def emptySlot (dp : Nat) : M Nat :=
  withInode dp fun d => Fs.emptyFrom sb dev dp (direntSize * ((d.size + direntSize - 1) / direntSize)) (offsets d) d

/-- The bytes of a `struct dirent`. -/
def dirent (inum : Nat) (name : List UInt8) : List UInt8 :=
  UInt8.ofNat inum :: UInt8.ofNat (inum / 256) :: strncpy name dirSiz

def dirlink (dp : Nat) (name : List UInt8) (inum : Nat) : M Int := do
  match ← dirlookup sb dev dp name with
  | some (ip, _) =>
    iput ip
    return -1
  | none =>
    let off ← emptySlot sb dev dp
    let n ← writei sb dev dp (dirent inum name) off
    if n ≠ direntSize then panic (.store .link) else return 0

/-- The loop of `isdirempty`. -/
def emptyBut (dp : Nat) : List Nat → M Bool
  | [] => return true
  | off :: offs => do
    match ← readi sb dev dp off direntSize with
    | some de =>
      if de.length ≠ direntSize then panic .isdirempty
      else if deInum de ≠ 0 then return false
      else emptyBut dp offs
    | none => panic .isdirempty

def isdirempty (dp : Nat) : M Bool := do
  let d ← get dp
  emptyBut sb dev dp ((offsets d).drop 2)

/-! ## Names -/

/-- The loop of `namex`; with an inode goes the last element, when its parent was asked for. -/
def walk (parent : Bool) : List Namespace.Name → Nat → M (Option (Nat × Namespace.Name))
  | [], ip =>
    if parent then do
      iput ip
      return none
    else return some (ip, [])
  | name :: rest, ip => do
    ilock ip
    let d ← get ip
    if d.type ≠ some .dir then
      iunlockput ip
      return none
    else if parent && rest.isEmpty then
      iunlock ip
      return some (ip, name)
    else
      match ← dirlookup sb dev ip name with
      | none =>
        iunlockput ip
        return none
      | some (next, _) =>
        iunlockput ip
        walk parent rest next

def namex (cwd : Nat) (path : List UInt8) (parent : Bool) : M (Option (Nat × Namespace.Name)) := do
  let ip := if path.head? = some Namespace.slash then rootIno else cwd
  iget ip
  walk sb dev parent (Namespace.elems path) ip

def namei (cwd : Nat) (path : List UInt8) : M (Option (Nat × Namespace.Name)) := namex sb dev cwd path false

def nameiparent (cwd : Nat) (path : List UInt8) : M (Option (Nat × Namespace.Name)) := namex sb dev cwd path true

/-! ## Calls -/

/-- `ip->nlink += k`, `iupdate`. -/
def addLinks (i : Nat) (k : Int) : M Unit := do
  let d ← get i
  set i { d with nlink := Namespace.short (d.nlink + k) }
  iupdate i

/-- `bad:` in `sys_link`. -/
def linkBad (ip : Nat) : M Int := do
  ilock ip
  addLinks ip (-1)
  iunlockput ip
  endOp
  return -1

/-- `sys_link` with the parent directory found. -/
def linkIn (dp : Nat) (name : Namespace.Name) (ip : Nat) : M Int := do
  ilock dp
  let r ← dirlink sb dev dp name ip
  if r < 0 then do
    iunlockput dp
    linkBad ip
  else do
    iunlockput dp
    iput ip
    endOp
    return 0

/-- `sys_link` with the count incremented. -/
def linkTo (cwd : Nat) (new : List UInt8) (ip : Nat) : M Int := do
  match ← nameiparent sb dev cwd new with
  | none => linkBad ip
  | some (dp, name) => linkIn sb dev dp name ip

def sysLink (cwd : Nat) (old new : List UInt8) : M Int := do
  beginOp
  match ← namei sb dev cwd old with
  | none =>
    endOp
    return -1
  | some (ip, _) =>
    ilock ip
    let d ← get ip
    if d.type = some .dir then do
      iunlockput ip
      endOp
      return -1
    else do
      addLinks ip 1
      iunlock ip
      linkTo sb dev cwd new ip

/-- `bad:` in `sys_unlink`. -/
def unlinkBad (dp : Nat) : M Int := do
  iunlockput dp
  endOp
  return -1

/-- The parent loses the link that a directory's `..` was. -/
def dropDots (dp ip : Nat) : M Unit := do
  let d ← get ip
  if d.type = some .dir then addLinks dp (-1) else return ()

/-- The entry at `off` goes, and the link it was. -/
def unlinkEntry (dp off ip : Nat) : M Int := do
  let n ← writei sb dev dp (List.replicate direntSize 0) off
  if n ≠ direntSize then panic .unlink
  else do
    dropDots dp ip
    iunlockput dp
    addLinks ip (-1)
    iunlockput ip
    endOp
    return 0

/-- `sys_unlink` with the entry found. -/
def unlinkAt (dp off ip : Nat) : M Int := do
  ilock ip
  let d ← get ip
  if d.nlink < 1 then panic .nlink
  else if d.type = some .dir then do
    if ← isdirempty sb dev ip then unlinkEntry sb dev dp off ip
    else do
      iunlockput ip
      unlinkBad dp
  else unlinkEntry sb dev dp off ip

def sysUnlink (cwd : Nat) (path : List UInt8) : M Int := do
  beginOp
  match ← nameiparent sb dev cwd path with
  | none =>
    endOp
    return -1
  | some (dp, name) =>
    ilock dp
    if namecmp name Namespace.dot = 0 ∨ namecmp name Namespace.dotdot = 0 then unlinkBad dp
    else do
      match ← dirlookup sb dev dp name with
      | none => unlinkBad dp
      | some (ip, off) => unlinkAt sb dev dp off ip

/-- `create` of a name that exists. -/
def createOld (dp ip : Nat) (t : FileType) : M (Option Nat) := do
  iunlockput dp
  ilock ip
  let d ← get ip
  if t = .file ∧ d.type = some .file then return some ip
  else do
    iunlockput ip
    return none

/-- The `.` and `..` of a new directory. -/
def createDots (dp ip : Nat) : M Unit := do
  addLinks dp 1
  let r ← dirlink sb dev ip Namespace.dot ip
  if r < 0 then panic .dots
  else do
    let r ← dirlink sb dev ip Namespace.dotdot dp
    if r < 0 then panic .dots else return ()

def createBody (dp ip : Nat) (t : FileType) : M Unit := if t = .dir then createDots sb dev dp ip else return ()

def createNew (dp : Nat) (name : Namespace.Name) (t : FileType) (major minor : Int) : M (Option Nat) := do
  let ip ← ialloc sb t
  ilock ip
  let d ← get ip
  set ip { d with major := major, minor := minor, nlink := 1 }
  iupdate ip
  createBody sb dev dp ip t
  let r ← dirlink sb dev dp name ip
  if r < 0 then panic .create
  else do
    iunlockput dp
    return some ip

/-- The inode is returned locked. -/
def create (cwd : Nat) (path : List UInt8) (t : FileType) (major minor : Int) : M (Option Nat) := do
  match ← nameiparent sb dev cwd path with
  | none => return none
  | some (dp, name) =>
    ilock dp
    match ← dirlookup sb dev dp name with
    | some (ip, _) => createOld dp ip t
    | none => createNew sb dev dp name t major minor

/-- `sys_mkdir` and `sys_mknod`, and `sys_open` with `O_CREATE` up to the file. -/
def sysCreate (cwd : Nat) (path : List UInt8) (t : FileType) (major minor : Int) : M Unit := do
  beginOp
  match ← create sb dev cwd path t major minor with
  | none => endOp
  | some ip =>
    iunlockput ip
    endOp

/-- `fileread` of an inode, at an offset. -/
def fileread (i off n : Nat) : M (Option (List UInt8)) := do
  ilock i
  let r ← readi sb dev i off n
  iunlock i
  return r

/-- One round of `filewrite`. -/
def filewrite (i : Nat) (src : List UInt8) (off : Nat) : M Int := do
  beginOp
  ilock i
  let r ← writei sb dev i src off
  iunlock i
  endOp
  return r

end Xv6.Fs.Incore
