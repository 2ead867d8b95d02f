/-
  Xv6.Fs.Layout — on-disk inodes and directory entries (`fs.h`, `stat.h`).

  `type` is `none` for a free inode (0 on disk), else one of `T_DIR`, `T_FILE`, `T_DEV`.
  `addrs` has the `NDIRECT` direct block numbers and, last, the indirect block's; 0 is no
  block.
-/

import Xv6.Param

namespace Xv6.Fs

def dirSiz : Nat := 14
def direntSize : Nat := 16

inductive FileType where
  | dir
  | file
  | dev
  deriving DecidableEq, Repr

structure Dinode where
  type : Option FileType
  major : Int
  minor : Int
  nlink : Int
  size : Nat
  addrs : Fin (ndirect + 1) → Nat

/-- A cleared inode (`memset`) of the given type. -/
def Dinode.blank (t : Option FileType) : Dinode := ⟨t, 0, 0, 0, 0, fun _ => 0⟩

end Xv6.Fs
