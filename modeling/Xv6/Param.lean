/-
  Xv6.Param — the kernel's constants (`param.h`, `fs.h`) and disk blocks.

  A block is `BSIZE` bytes. The log header, indirect blocks and on-disk inodes store
  32-bit little-endian words in it (`word`, `setWord`); a word read back is the word
  written, and other words of the block are not disturbed.
-/

import Mathlib

namespace Xv6

def maxOpBlocks : Nat := 10
def logSize : Nat := maxOpBlocks * 3
def nbuf : Nat := maxOpBlocks * 3
def ninode : Nat := 50
def fsSize : Nat := 1000
def rootDev : Nat := 1
def rootIno : Nat := 1
def bsize : Nat := 512
def ndirect : Nat := 12
def nindirect : Nat := bsize / 4
def maxFile : Nat := ndirect + nindirect

abbrev Block := Fin bsize → UInt8

abbrev Disk := Nat → Block

def zeroBlock : Block := fun _ => 0

/-! ## Words in a block -/

def byteAt (b : Block) (k : Nat) : Nat := if h : k < bsize then (b ⟨k, h⟩).toNat else 0

/-- `((uint*)b)[i]`. -/
def word (b : Block) (i : Nat) : Nat :=
  byteAt b (4 * i) + 256 * byteAt b (4 * i + 1) + 65536 * byteAt b (4 * i + 2) + 16777216 * byteAt b (4 * i + 3)

def setWord (b : Block) (i v : Nat) : Block :=
  fun k => if k.val / 4 = i then UInt8.ofNat (v / 256 ^ (k.val % 4)) else b k

theorem byteAt_setWord_same (b : Block) {i j : Nat} (v : Nat) (hi : i < bsize / 4) (hj : j < 4) :
    byteAt (setWord b i v) (4 * i + j) = v / 256 ^ j % 256 := by
  have hk : 4 * i + j < bsize := by unfold bsize at *; omega
  have hdiv : (4 * i + j) / 4 = i := by omega
  have hmod : (4 * i + j) % 4 = j := by omega
  simp [byteAt, hk, setWord, hdiv, hmod]

theorem byteAt_setWord_ne (b : Block) {i k : Nat} (v : Nat) (h : k / 4 ≠ i) :
    byteAt (setWord b i v) k = byteAt b k := by
  by_cases hk : k < bsize
  · simp [byteAt, hk, setWord, h]
  · simp [byteAt, hk]

theorem word_setWord_same (b : Block) {i v : Nat} (hi : i < bsize / 4) (hv : v < 2 ^ 32) :
    word (setWord b i v) i = v := by
  have h0 := byteAt_setWord_same b v hi (j := 0) (by omega)
  have h1 := byteAt_setWord_same b v hi (j := 1) (by omega)
  have h2 := byteAt_setWord_same b v hi (j := 2) (by omega)
  have h3 := byteAt_setWord_same b v hi (j := 3) (by omega)
  simp only [Nat.add_zero] at h0
  rw [word, h0, h1, h2, h3]
  norm_num at *
  omega

theorem word_setWord_ne (b : Block) {i j : Nat} (v : Nat) (h : j ≠ i) : word (setWord b i v) j = word b j := by
  unfold word
  rw [byteAt_setWord_ne, byteAt_setWord_ne, byteAt_setWord_ne, byteAt_setWord_ne] <;> omega

end Xv6
