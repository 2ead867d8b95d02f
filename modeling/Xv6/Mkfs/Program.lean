/-
  Xv6.Mkfs.Program — the program that makes a file system image (`mkfs.c`).

  The image is a file of sectors that grows as it is written; a read past its end fails.
  The host is little-endian, so `xshort` and `xint` leave the bits as they are. What
  `read` returns for an input file is a list of chunks of 1 to `BSIZE` bytes; the files
  can all be opened.
-/

import Xv6.Fs.Image
import Xv6.Fs.Namespace

namespace Xv6.Mkfs

open Xv6.Fs Image

def ninodes : Nat := 200
def nbitmap : Nat := fsSize / (bsize * 8) + 1
def ninodeblocks : Nat := ninodes / ipb + 1
def nlog : Nat := logSize
def nmeta : Nat := 2 + nlog + ninodeblocks + nbitmap
def nblocks : Nat := fsSize - nmeta
def inodestart : Nat := 2 + nlog
def bmapstart : Nat := 2 + nlog + ninodeblocks

structure Img where
  disk : Disk
  /-- The sectors the file has. -/
  sects : Nat
  freeinode : Nat
  freeblock : Nat

/-- Why `mkfs` gives up. -/
inductive Err where
  /-- `perror("read")` -/
  | read
  /-- `assert(rootino == ROOTINO)` -/
  | rootino
  /-- `assert(index(argv[i], '/') == 0)` -/
  | slash
  /-- `assert(fbn < MAXFILE)` -/
  | maxfile
  /-- `assert(used < BSIZE*8)` -/
  | bitmap
  deriving DecidableEq, Repr

abbrev M := StateT Img (Except Err)

def wsect (sec : Nat) (buf : Block) : M Unit :=
  modify fun s => { s with disk := Function.update s.disk sec buf, sects := max s.sects (sec + 1) }

def rsect (sec : Nat) : M Block := do
  let s ← get
  if sec < s.sects then return s.disk sec else throw .read

def iblock (inum : Nat) : Nat := inum / ipb + inodestart

def winode (inum : Nat) (ip : Dinode) : M Unit := do
  let buf ← rsect (iblock inum)
  wsect (iblock inum) (putDinode buf (inum % ipb) ip)

def rinode (inum : Nat) : M Dinode := do
  let buf ← rsect (iblock inum)
  return getDinode buf (inum % ipb)

def ialloc (t : FileType) : M Nat := do
  let s ← get
  set { s with freeinode := s.freeinode + 1 }
  winode s.freeinode { Dinode.blank (some t) with nlink := 1 }
  return s.freeinode

/-- The bitmap block with the first `used` bits set. -/
def bitmapOf (used : Nat) : Block := (List.range used).foldl setBit zeroBlock

def balloc (used : Nat) : M Unit :=
  if used < bsize * 8 then wsect bmapstart (bitmapOf used) else throw .bitmap

/-- `freeblock++`. -/
def newBlock : M Nat := do
  let s ← get
  set { s with freeblock := s.freeblock + 1 }
  return s.freeblock

/-- `if(din.addrs[j] == 0) din.addrs[j] = freeblock++`. -/
def ensure (din : Dinode) (j : Fin (ndirect + 1)) : M Dinode :=
  if din.addrs j = 0 then do
    let b ← newBlock
    return din.setAddr j b
  else return din

/-- The block for `fbn`, and the inode after it. -/
def locate (din : Dinode) (fbn : Nat) : M (Nat × Dinode) :=
  if h : fbn < ndirect then do
    let din ← ensure din (direct ⟨fbn, h⟩)
    return (din.addrs (direct ⟨fbn, h⟩), din)
  else do
    let din ← ensure din indirect
    let ind ← rsect (din.addrs indirect)
    if word ind (fbn - ndirect) = 0 then do
      let b ← newBlock
      wsect (din.addrs indirect) (setWord ind (fbn - ndirect) b)
      return (b, din)
    else return (word ind (fbn - ndirect), din)

/-- The loop of `iappend`: the inode and the offset after it. The first argument bounds its rounds. -/
def appendLoop : Nat → Dinode → Nat → List UInt8 → M (Dinode × Nat)
  | 0, din, off, _ => return (din, off)
  | fuel + 1, din, off, p =>
    if p.length = 0 then return (din, off)
    else if off / bsize < maxFile then do
      let r ← locate din (off / bsize)
      let n1 := min p.length ((off / bsize + 1) * bsize - off)
      let buf ← rsect r.1
      wsect r.1 (patch buf (off - off / bsize * bsize) (p.take n1))
      appendLoop fuel r.2 (off + n1) (p.drop n1)
    else throw .maxfile

def iappend (inum : Nat) (p : List UInt8) : M Unit := do
  let din ← rinode inum
  let r ← appendLoop p.length din din.size p
  winode inum { r.1 with size := r.2 }

/-! ## `main` -/

/-- The bytes of a `struct dirent`. -/
def entry (inum : Nat) (name : List UInt8) : List UInt8 :=
  UInt8.ofNat inum :: UInt8.ofNat (inum / 256) :: strncpy name dirSiz

/-- What one `read` of a file returned. -/
structure Chunk where
  bytes : List UInt8
  nonempty : bytes ≠ []
  le : bytes.length ≤ bsize

structure Input where
  /-- `argv[i]`. -/
  arg : List UInt8
  hnul : 0 ∉ arg
  reads : List Chunk

def underscore : UInt8 := 95

namespace Input

/-- The name in the image: without one leading `_`. -/
def name (f : Input) : List UInt8 := if f.arg.head? = some underscore then f.arg.tail else f.arg

def contents (f : Input) : List UInt8 := f.reads.flatMap Chunk.bytes

end Input

def copy (inum : Nat) : List Chunk → M Unit
  | [] => return ()
  | c :: cs => do
    iappend inum c.bytes
    copy inum cs

def addFile (f : Input) : M Unit :=
  if Namespace.slash ∈ f.arg then throw .slash
  else do
    let inum ← ialloc .file
    iappend rootIno (entry inum f.name)
    copy inum f.reads

def addFiles : List Input → M Unit
  | [] => return ()
  | f :: fs => do
    addFile f
    addFiles fs

def zeroSects : List Nat → M Unit
  | [] => return ()
  | i :: is => do
    wsect i zeroBlock
    zeroSects is

def superblock : Super := ⟨fsSize, nblocks, ninodes, nlog, 2, inodestart, bmapstart⟩

/-- The block with the super block. -/
def superSector (sb : Super) : Block :=
  setWord (setWord (setWord (setWord (setWord (setWord (setWord zeroBlock 0 sb.size) 1 sb.nblocks) 2 sb.ninodes) 3 sb.nlog)
    4 sb.logstart) 5 sb.inodestart) 6 sb.bmapstart

/-- The size of the root directory is rounded up. -/
def fixRoot : M Unit := do
  let din ← rinode rootIno
  winode rootIno { din with size := (din.size / bsize + 1) * bsize }

def main (files : List Input) : M Unit := do
  zeroSects (List.range fsSize)
  wsect 1 (superSector superblock)
  let rootino ← ialloc .dir
  if rootino ≠ rootIno then throw .rootino
  else do
    iappend rootino (entry rootino Namespace.dot)
    iappend rootino (entry rootino Namespace.dotdot)
    addFiles files
    fixRoot
    let s ← get
    balloc s.freeblock

/-- The image file, or the error. -/
def mkfs (files : List Input) : Except Err Disk := do
  let r ← main files ⟨fun _ => zeroBlock, 0, 1, nmeta⟩
  return r.2.disk

end Xv6.Mkfs
