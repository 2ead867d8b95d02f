/-
  Xv6.Fs.Store — blocks and inode contents (`fs.c`: `balloc` to `dirlink`, over the byte
  contents of blocks; `string.c`: `strncmp`, `strncpy`).

  The functions are programs of the actions in `Act`: what is done under one buffer's
  lock, under `icache.lock`, or by taking or giving up an inode's sleep-lock. `balloc`
  looks at one bitmap block at a time and zeroes the block it found in a later action, so
  calls of different operations interleave in it too.

  The store has the bitmap, the inodes and the blocks each as its own map. A locked
  inode's in-memory copy is a value of the program (`Dinode`); that it is the on-disk
  inode's when the lock is taken is `Icache.icache_identity`. `ref` and `valid` are kept
  by inode number. `freed` is not in the code: how often an inode was written with type 0.

  The first argument of the block actions is the inode they are done for, where the code
  passes `ip->dev`. A device's own read and write functions are a parameter (`Devsw`).
-/

import Xv6.Fs.Layout
import Xv6.Lib.Prog

namespace Xv6.Fs

open Xv6.Lib Prog

def bpb : Nat := bsize * 8

/-- The fields used here. The data area is the last `nblocks` blocks. -/
structure Superblock where
  size : Nat
  nblocks : Nat
  ninodes : Nat
  hmeta : nblocks < size
  hsize : size < 2 ^ 32

def Superblock.nmeta (sb : Superblock) : Nat := sb.size - sb.nblocks

structure Store (P : Type) where
  bitmap : Nat → Bool
  inode : Nat → Dinode
  data : Nat → Block
  ref : Nat → Nat
  valid : Nat → Bool
  lock : Nat → Option P
  freed : Nat → Nat

inductive Panic where
  /-- "balloc: out of blocks" -/
  | outOfBlocks
  /-- "freeing free block" -/
  | freeingFree
  /-- "ialloc: no inodes" -/
  | noInodes
  /-- "ilock: no type" -/
  | noType
  /-- "bmap: out of range" -/
  | outOfRange
  /-- "dirlookup not DIR" -/
  | notDir
  /-- "dirlookup read" -/
  | lookupRead
  /-- "dirlink read" -/
  | linkRead
  /-- "dirlink" -/
  | link
  deriving DecidableEq, Repr

inductive Act where
  /-- `balloc`'s search of bitmap block `j`, and marking what it finds. -/
  | mark (ip j : Nat)
  | bzero (ip b : Nat)
  | bfree (ip b : Nat)
  | bread (ip b : Nat)
  /-- Change a block's data and `log_write` it. -/
  | bwrite (ip b : Nat) (v : Block)
  | acquiresleep (i : Nat)
  | releasesleep (i : Nat)
  /-- The rest of `ilock`. -/
  | load (i : Nat)
  /-- `iput`'s look at the entry: its copy, if valid. -/
  | cached (i : Nat)
  | iupdate (i : Nat) (d : Dinode)
  /-- `ip->valid = 0`. -/
  | invalidate (i : Nat)
  /-- `ialloc`'s test and marking of one inode. -/
  | claim (i : Nat) (t : FileType)
  | iget (i : Nat)
  /-- `r = ip->ref`. -/
  | sample (i : Nat)
  /-- `ip->ref--`. -/
  | unref (i : Nat)
  | panic (m : Panic)

def Act.Res : Act → Type
  | .mark _ _ => Option Nat
  | .bread _ _ => Block
  | .load _ => Dinode
  | .cached _ => Option Dinode
  | .claim _ _ => Bool
  | .sample _ => Nat
  | .panic _ => Empty
  | _ => Unit

abbrev M := Prog Act Act.Res

section Exec

variable {P : Type} (sb : Superblock)

/-- The blocks whose bits are in bitmap block `j`. -/
def bits (j : Nat) : List Nat := List.range' (j * bpb) (min bpb (sb.size - j * bpb))

def exec (p : P) : (a : Act) → Store P → Out Panic (a.Res × Store P)
  | .mark _ j, s => match (bits sb j).find? fun b => !s.bitmap b with
    | some b => .ok (some b, { s with bitmap := Function.update s.bitmap b true })
    | none => .ok (none, s)
  | .bzero _ b, s => .ok ((), { s with data := Function.update s.data b zeroBlock })
  | .bfree _ b, s =>
    if s.bitmap b then .ok ((), { s with bitmap := Function.update s.bitmap b false }) else .fail .freeingFree
  | .bread _ b, s => .ok (s.data b, s)
  | .bwrite _ b v, s => .ok ((), { s with data := Function.update s.data b v })
  | .acquiresleep i, s => match s.lock i with
    | none => .ok ((), { s with lock := Function.update s.lock i (some p) })
    | some _ => .wait
  | .releasesleep i, s => .ok ((), { s with lock := Function.update s.lock i none })
  | .load i, s =>
    if (s.inode i).type = none then .fail .noType
    else .ok (s.inode i, { s with valid := Function.update s.valid i true })
  | .cached i, s => .ok (if s.valid i then some (s.inode i) else none, s)
  | .iupdate i d, s =>
    .ok ((), { s with inode := Function.update s.inode i d,
                      freed := if d.type = none then Function.update s.freed i (s.freed i + 1) else s.freed })
  | .invalidate i, s => .ok ((), { s with valid := Function.update s.valid i false })
  | .claim i t, s =>
    if (s.inode i).type = none then
      .ok (true, { s with inode := Function.update s.inode i (Dinode.blank (some t)) })
    else .ok (false, s)
  | .iget i, s =>
    .ok ((), { s with ref := Function.update s.ref i (s.ref i + 1),
                      valid := if s.ref i = 0 then Function.update s.valid i false else s.valid })
  | .sample i, s => .ok (s.ref i, s)
  | .unref i, s => .ok ((), { s with ref := Function.update s.ref i (s.ref i - 1) })
  | .panic m, _ => .fail m

end Exec

/-! ## Blocks -/

def panic (m : Panic) : M α := act (.panic m) fun e => nomatch e

def mark (ip j : Nat) : M (Option Nat) := perform (Act.mark ip j)
def bzero (ip b : Nat) : M Unit := perform (Act.bzero ip b)
def bfree (ip b : Nat) : M Unit := perform (Act.bfree ip b)
def bread (ip b : Nat) : M Block := perform (Act.bread ip b)
def bwrite (ip b : Nat) (v : Block) : M Unit := perform (Act.bwrite ip b v)
def acquiresleep (i : Nat) : M Unit := perform (Act.acquiresleep i)
def releasesleep (i : Nat) : M Unit := perform (Act.releasesleep i)
def load (i : Nat) : M Dinode := perform (Act.load i)
def cached (i : Nat) : M (Option Dinode) := perform (Act.cached i)
def iupdate (i : Nat) (d : Dinode) : M Unit := perform (Act.iupdate i d)
def invalidate (i : Nat) : M Unit := perform (Act.invalidate i)
def claim (i : Nat) (t : FileType) : M Bool := perform (Act.claim i t)
def iget (i : Nat) : M Unit := perform (Act.iget i)
def sample (i : Nat) : M Nat := perform (Act.sample i)
def unref (i : Nat) : M Unit := perform (Act.unref i)

def ballocFrom (ip : Nat) : List Nat → M Nat
  | [] => panic .outOfBlocks
  | j :: js => do
    match ← mark ip j with
    | some b =>
      bzero ip b
      return b
    | none => ballocFrom ip js

def balloc (sb : Superblock) (ip : Nat) : M Nat := ballocFrom ip (List.range ((sb.size + bpb - 1) / bpb))

/-! ## Inode contents -/

def Dinode.setAddr (d : Dinode) (j : Fin (ndirect + 1)) (b : Nat) : Dinode :=
  { d with addrs := Function.update d.addrs j b }

def direct (bn : Fin ndirect) : Fin (ndirect + 1) := bn.castSucc

def indirect : Fin (ndirect + 1) := Fin.last ndirect

variable (sb : Superblock)

/-- `if((addr = ip->addrs[j]) == 0) ip->addrs[j] = addr = balloc(ip->dev)`. -/
def ensureAddr (ip : Nat) (d : Dinode) (j : Fin (ndirect + 1)) : M (Nat × Dinode) :=
  if d.addrs j = 0 then do
    let b ← balloc sb ip
    return (b, d.setAddr j b)
  else return (d.addrs j, d)

/-- The block number, and the inode's copy after it. -/
def bmap (ip : Nat) (d : Dinode) (bn : Nat) : M (Nat × Dinode) :=
  if h : bn < ndirect then ensureAddr sb ip d (direct ⟨bn, h⟩)
  else if bn - ndirect < nindirect then do
    let r ← ensureAddr sb ip d indirect
    let a ← bread ip r.1
    if word a (bn - ndirect) = 0 then
      let b ← balloc sb ip
      bwrite ip r.1 (setWord a (bn - ndirect) b)
      return (b, r.2)
    else return (word a (bn - ndirect), r.2)
  else panic .outOfRange

def truncDirect (ip : Nat) : List (Fin ndirect) → Dinode → M Dinode
  | [], d => return d
  | j :: js, d =>
    if d.addrs (direct j) ≠ 0 then do
      bfree ip (d.addrs (direct j))
      truncDirect ip js (d.setAddr (direct j) 0)
    else truncDirect ip js d

def truncEntries (ip : Nat) (a : Block) : List Nat → M Unit
  | [] => return ()
  | j :: js =>
    if word a j ≠ 0 then do
      bfree ip (word a j)
      truncEntries ip a js
    else truncEntries ip a js

/-- `itrunc`'s second half. -/
def truncIndirect (ip : Nat) (d : Dinode) : M Dinode :=
  if d.addrs indirect ≠ 0 then do
    let a ← bread ip (d.addrs indirect)
    truncEntries ip a (List.range nindirect)
    bfree ip (d.addrs indirect)
    return d.setAddr indirect 0
  else return d

def itrunc (ip : Nat) (d : Dinode) : M Dinode := do
  let d ← truncDirect ip (List.finRange ndirect) d
  let d ← truncIndirect ip d
  iupdate ip { d with size := 0 }
  return { d with size := 0 }

/-- `memmove(data + o, src, n)`. -/
def patch (v : Block) (o : Nat) (src : List UInt8) : Block :=
  fun k => if o ≤ k.val then src.getD (k.val - o) (v k) else v k

/-- `memmove(dst, data + o, n)`. -/
def slice (v : Block) (o n : Nat) : List UInt8 := (List.range n).map fun k => UInt8.ofNat (byteAt v (o + k))

/-- `devsw`: `none` where the code returns -1 without calling the device. -/
structure Devsw where
  read : Int → Option (Nat → Option (List UInt8))
  write : Int → Option (List UInt8 → Int)

variable (dev : Devsw)

/-- The loop of `readi`; the first argument bounds its rounds. -/
def readLoop (ip : Nat) : Nat → Dinode → Nat → Nat → M (List UInt8 × Dinode)
  | 0, d, _, _ => return ([], d)
  | fuel + 1, d, off, n =>
    if n = 0 then return ([], d)
    else do
      let r ← bmap sb ip d (off / bsize)
      let v ← bread ip r.1
      let m := min n (bsize - off % bsize)
      let rest ← readLoop ip fuel r.2 (off + m) (n - m)
      return (slice v (off % bsize) m ++ rest.1, rest.2)

/-- `none` is -1. -/
def readi (ip : Nat) (d : Dinode) (off n : Nat) : M (Option (List UInt8) × Dinode) :=
  if d.type = some .dev then
    match dev.read d.major with
    | none => return (none, d)
    | some f => return (f n, d)
  else if off > d.size ∨ (off + n) % 2 ^ 32 < off then return (none, d)
  else do
    let n := if (off + n) % 2 ^ 32 > d.size then d.size - off else n
    let r ← readLoop sb ip n d off n
    return (some r.1, r.2)

def writeLoop (ip : Nat) : Nat → Dinode → List UInt8 → Nat → M Dinode
  | 0, d, _, _ => return d
  | fuel + 1, d, src, off =>
    if src.length = 0 then return d
    else do
      let r ← bmap sb ip d (off / bsize)
      let v ← bread ip r.1
      let m := min src.length (bsize - off % bsize)
      bwrite ip r.1 (patch v (off % bsize) (src.take m))
      writeLoop ip fuel r.2 (src.drop m) (off + m)

/-- `n` is the length of `src`. -/
def writei (ip : Nat) (d : Dinode) (src : List UInt8) (off : Nat) : M (Int × Dinode) :=
  let n := src.length
  if d.type = some .dev then
    match dev.write d.major with
    | none => return (-1, d)
    | some f => return (f src, d)
  else if off > d.size ∨ (off + n) % 2 ^ 32 < off then return (-1, d)
  else if (off + n) % 2 ^ 32 > maxFile * bsize then return (-1, d)
  else do
    let d ← writeLoop sb ip n d src off
    if n > 0 ∧ off + n > d.size then
      let d := { d with size := off + n }
      iupdate ip d
      return ((n : Int), d)
    else return ((n : Int), d)

/-! ## Inodes -/

def iallocFrom (t : FileType) : List Nat → M Nat
  | [] => panic .noInodes
  | i :: is => do
    if ← claim i t then
      iget i
      return i
    else iallocFrom t is

def ialloc (t : FileType) : M Nat := iallocFrom t (List.range' 1 (sb.ninodes - 1))

def ilock (i : Nat) : M Dinode := do
  acquiresleep i
  load i

/-- Truncate and free. -/
def iputFree (i : Nat) (d : Dinode) : M Unit := do
  let d ← itrunc i d
  iupdate i { d with type := none }
  invalidate i

/-- What `iput` does under the inode's lock. -/
def iputLocked (i : Nat) : M Unit := do
  match ← cached i with
  | some d =>
    if d.nlink = 0 then do
      let r ← sample i
      if r = 1 then iputFree i d else return ()
    else return ()
  | none => return ()

def iput (i : Nat) : M Unit := do
  acquiresleep i
  iputLocked i
  releasesleep i
  unref i

/-! ## Directories -/

/-- A C string: beyond the end of the list it is NUL. -/
def strncmp : Nat → List UInt8 → List UInt8 → Int
  | 0, _, _ => 0
  | n + 1, p, q =>
    if p.headD 0 ≠ 0 ∧ p.headD 0 = q.headD 0 then strncmp n p.tail q.tail
    else ((p.headD 0).toNat : Int) - (q.headD 0).toNat

def strncpy (t : List UInt8) (n : Nat) : List UInt8 :=
  let u := (t.take n).takeWhile (· ≠ 0)
  u ++ List.replicate (n - u.length) 0

def namecmp (s t : List UInt8) : Int := strncmp dirSiz s t

/-- `de.inum` of the 16 bytes of a `struct dirent`; `de.name` is the rest. -/
def deInum (de : List UInt8) : Nat := (de.getD 0 0).toNat + 256 * (de.getD 1 0).toNat

def offsets (d : Dinode) : List Nat :=
  (List.range ((d.size + direntSize - 1) / direntSize)).map (direntSize * ·)

/-- The loop of `dirlookup`: an entry's inode number and offset. -/
def lookupFrom (ip : Nat) (name : List UInt8) : List Nat → Dinode → M (Option (Nat × Nat) × Dinode)
  | [], d => return (none, d)
  | off :: offs, d => do
    let r ← readi sb dev ip d off direntSize
    match r.1 with
    | some de =>
      if de.length ≠ direntSize then panic .lookupRead
      else if deInum de ≠ 0 ∧ namecmp name (de.drop 2) = 0 then
        iget (deInum de)
        return (some (deInum de, off), r.2)
      else lookupFrom ip name offs r.2
    | none => panic .lookupRead

def dirlookup (ip : Nat) (d : Dinode) (name : List UInt8) : M (Option (Nat × Nat) × Dinode) :=
  if d.type ≠ some .dir then panic .notDir else lookupFrom sb dev ip name (offsets d) d

/-- The second loop of `dirlink`: the offset of an empty entry, or the end. -/
def emptyFrom (ip : Nat) (eof : Nat) : List Nat → Dinode → M (Nat × Dinode)
  | [], d => return (eof, d)
  | off :: offs, d => do
    let r ← readi sb dev ip d off direntSize
    match r.1 with
    | some de =>
      if de.length ≠ direntSize then panic .linkRead
      else if deInum de = 0 then return (off, r.2)
      else emptyFrom ip eof offs r.2
    | none => panic .linkRead

def dirlink (ip : Nat) (d : Dinode) (name : List UInt8) (inum : Nat) : M (Int × Dinode) := do
  let r ← dirlookup sb dev ip d name
  match r.1 with
  | some (i, _) =>
    iput i
    return (-1, r.2)
  | none =>
    let e ← emptyFrom sb dev ip (direntSize * ((d.size + direntSize - 1) / direntSize)) (offsets d) r.2
    let de := UInt8.ofNat inum :: UInt8.ofNat (inum / 256) :: strncpy name dirSiz
    let w ← writei sb dev ip e.2 de e.1
    if w.1 ≠ direntSize then panic .link else return (0, w.2)

end Xv6.Fs
