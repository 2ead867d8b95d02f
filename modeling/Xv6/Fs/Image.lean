/-
  Xv6.Fs.Image — a disk as the kernel reads it (`fs.h`; `fs.c`: `readsb`, and where
  `ilock`, `iupdate` and `balloc` find inodes and bits).

  An inode is 64 bytes of its block, sixteen little-endian words: type and major, minor
  and nlink (shorts), size, and the 13 addresses. An inode read back is the inode written,
  and the other inodes of the block stay as they are.
-/

import Xv6.Fs.Store

namespace Xv6.Fs.Image

/-- `sizeof(struct dinode)`. -/
def dinodeSize : Nat := 64

def ipb : Nat := bsize / dinodeSize

/-- `struct superblock`. -/
structure Super where
  size : Nat
  nblocks : Nat
  ninodes : Nat
  nlog : Nat
  logstart : Nat
  inodestart : Nat
  bmapstart : Nat
  deriving DecidableEq, Repr

def readsb (disk : Disk) : Super :=
  ⟨word (disk 1) 0, word (disk 1) 1, word (disk 1) 2, word (disk 1) 3, word (disk 1) 4, word (disk 1) 5, word (disk 1) 6⟩

/-! ## Inodes -/

/-- `T_DIR`, `T_FILE` and `T_DEV`; no other type is ever written. -/
def typeOf : Nat → Option FileType
  | 1 => some .dir
  | 2 => some .file
  | 3 => some .dev
  | _ => none

def typeCode : Option FileType → Nat
  | none => 0
  | some .dir => 1
  | some .file => 2
  | some .dev => 3

/-- The bits of a short. -/
def bits16 (n : Int) : Nat := (n % 65536).toNat

/-- `((struct dinode*)b)[k]`. -/
def getDinode (b : Block) (k : Nat) : Dinode where
  type := typeOf (word b (16 * k) % 65536)
  major := Int.bmod (word b (16 * k) / 65536) 65536
  minor := Int.bmod (word b (16 * k + 1) % 65536) 65536
  nlink := Int.bmod (word b (16 * k + 1) / 65536) 65536
  size := word b (16 * k + 2)
  addrs j := word b (16 * k + 3 + j)

def dinodeWord (d : Dinode) (j : Nat) : Nat :=
  if j = 0 then typeCode d.type + 65536 * bits16 d.major
  else if j = 1 then bits16 d.minor + 65536 * bits16 d.nlink
  else if j = 2 then d.size
  else if h : j - 3 < ndirect + 1 then d.addrs ⟨j - 3, h⟩ else 0

/-- `((struct dinode*)b)[k] = d`. -/
def putDinode (b : Block) (k : Nat) (d : Dinode) : Block :=
  fun x => if x.val / 64 = k then UInt8.ofNat (dinodeWord d (x.val % 64 / 4) / 256 ^ (x.val % 4)) else b x

/-- The fields are within their types. -/
structure Fits (d : Dinode) : Prop where
  major : Int.bmod d.major 65536 = d.major
  minor : Int.bmod d.minor 65536 = d.minor
  nlink : Int.bmod d.nlink 65536 = d.nlink
  size : d.size < 2 ^ 32
  addrs : ∀ j, d.addrs j < 2 ^ 32

theorem typeOf_typeCode (t : Option FileType) : typeOf (typeCode t) = t := by
  rcases t with _ | _ | _ | _ <;> rfl

theorem typeCode_lt (t : Option FileType) : typeCode t < 65536 := by
  rcases t with _ | _ | _ | _ <;> decide

theorem bits16_lt (n : Int) : bits16 n < 65536 := by unfold bits16; omega

theorem bmod_bits16 (n : Int) : Int.bmod (bits16 n : Nat) 65536 = Int.bmod n 65536 := by
  have h : ((bits16 n : Nat) : Int) = n % 65536 := by unfold bits16; omega
  rw [h]
  exact Int.emod_bmod n 65536

variable {k j : Nat}

theorem byteAt_putDinode_ne (b : Block) {x : Nat} (d : Dinode) (h : x / 64 ≠ k) :
    byteAt (putDinode b k d) x = byteAt b x := by
  by_cases hx : x < bsize
  · simp [byteAt, hx, putDinode, h]
  · simp [byteAt, hx]

variable {b : Block} {d : Dinode}

theorem byteAt_putDinode {n : Nat} (hk : k < ipb) (hj : j < 16) (hn : n < 4) :
    byteAt (putDinode b k d) (4 * (16 * k + j) + n) = dinodeWord d j / 256 ^ n % 256 := by
  have hx : 4 * (16 * k + j) + n < bsize := by unfold ipb dinodeSize bsize at *; omega
  have h1 : (4 * (16 * k + j) + n) / 64 = k := by omega
  have h2 : (4 * (16 * k + j) + n) % 64 / 4 = j := by omega
  have h3 : (4 * (16 * k + j) + n) % 4 = n := by omega
  simp [byteAt, hx, putDinode, h1, h2, h3]

theorem word_putDinode (hk : k < ipb) (hj : j < 16) (hw : dinodeWord d j < 2 ^ 32) :
    word (putDinode b k d) (16 * k + j) = dinodeWord d j := by
  have h0 : byteAt (putDinode b k d) (4 * (16 * k + j)) = dinodeWord d j / 256 ^ 0 % 256 :=
    byteAt_putDinode hk hj (show 0 < 4 by omega)
  have h1 : byteAt (putDinode b k d) (4 * (16 * k + j) + 1) = dinodeWord d j / 256 ^ 1 % 256 :=
    byteAt_putDinode hk hj (by omega)
  have h2 : byteAt (putDinode b k d) (4 * (16 * k + j) + 2) = dinodeWord d j / 256 ^ 2 % 256 :=
    byteAt_putDinode hk hj (by omega)
  have h3 : byteAt (putDinode b k d) (4 * (16 * k + j) + 3) = dinodeWord d j / 256 ^ 3 % 256 :=
    byteAt_putDinode hk hj (by omega)
  rw [word, h0, h1, h2, h3]
  norm_num at *
  omega

theorem word_putDinode_ne {i : Nat} (h : i / 16 ≠ k) : word (putDinode b k d) i = word b i := by
  unfold word
  rw [byteAt_putDinode_ne, byteAt_putDinode_ne, byteAt_putDinode_ne, byteAt_putDinode_ne] <;> omega

theorem dinodeWord_lt (h : Fits d) (j : Nat) : dinodeWord d j < 2 ^ 32 := by
  unfold dinodeWord
  have h1 := typeCode_lt d.type
  have h2 := bits16_lt d.major
  have h3 := bits16_lt d.minor
  have h4 := bits16_lt d.nlink
  have h5 := h.size
  split
  · omega
  · split
    · omega
    · split
      · exact h5
      · split
        · exact h.addrs _
        · omega

theorem getDinode_putDinode (hk : k < ipb) (h : Fits d) : getDinode (putDinode b k d) k = d := by
  have hw : ∀ j, j < 16 → word (putDinode b k d) (16 * k + j) = dinodeWord d j := fun j hj =>
    word_putDinode hk hj (dinodeWord_lt h j)
  have h0 : word (putDinode b k d) (16 * k) = typeCode d.type + 65536 * bits16 d.major := hw 0 (by decide)
  have h1 : word (putDinode b k d) (16 * k + 1) = bits16 d.minor + 65536 * bits16 d.nlink := hw 1 (by decide)
  have h2 : word (putDinode b k d) (16 * k + 2) = d.size := hw 2 (by decide)
  have h3 : ∀ j : Fin (ndirect + 1), word (putDinode b k d) (16 * k + 3 + j) = d.addrs j := by
    intro j
    have hj := j.isLt
    have : 3 + j.val < 16 := by unfold ndirect at hj; omega
    rw [Nat.add_assoc, hw _ this]
    unfold dinodeWord
    rw [if_neg (by omega), if_neg (by omega), if_neg (by omega), dif_pos (by omega)]
    congr 1
    exact Fin.ext (by simp)
  have ht := typeCode_lt d.type
  have hm := bits16_lt d.minor
  unfold getDinode
  rw [h0, h1, h2]
  have e1 : (typeCode d.type + 65536 * bits16 d.major) % 65536 = typeCode d.type := by omega
  have e2 : ((typeCode d.type + 65536 * bits16 d.major : Nat) : Int) / 65536 = (bits16 d.major : Nat) := by omega
  have e3 : ((bits16 d.minor + 65536 * bits16 d.nlink : Nat) : Int) % 65536 = (bits16 d.minor : Nat) := by omega
  have e4 : ((bits16 d.minor + 65536 * bits16 d.nlink : Nat) : Int) / 65536 = (bits16 d.nlink : Nat) := by omega
  rw [e1, typeOf_typeCode, e2, e3, e4, bmod_bits16, bmod_bits16, bmod_bits16, h.major, h.minor, h.nlink]
  rw [show (fun j : Fin (ndirect + 1) => word (putDinode b k d) (16 * k + 3 + j)) = d.addrs from funext h3]

theorem getDinode_putDinode_ne (h : j ≠ k) : getDinode (putDinode b k d) j = getDinode b j := by
  have hw : ∀ n, n < 16 → word (putDinode b k d) (16 * j + n) = word b (16 * j + n) := fun n hn =>
    word_putDinode_ne (by omega)
  have h0 : word (putDinode b k d) (16 * j) = word b (16 * j) := hw 0 (by decide)
  unfold getDinode
  rw [h0, hw 1 (by decide), hw 2 (by decide)]
  congr 1
  funext a
  have ha := a.isLt
  rw [Nat.add_assoc, hw _ (by unfold ndirect at ha; omega)]

theorem getDinode_zero (k : Nat) : getDinode zeroBlock k = Dinode.blank none := by
  have : ∀ i, word zeroBlock i = 0 := by
    intro i
    have hb : ∀ x, byteAt zeroBlock x = 0 := by intro x; unfold byteAt; split <;> simp [zeroBlock]
    simp [word, hb]
  simp [getDinode, this, Dinode.blank, typeOf]

/-! ## The free map -/

def bit (b : Block) (k : Nat) : Bool := (byteAt b (k / 8)).testBit (k % 8)

/-- `b[k/8] |= 1 << (k%8)`. -/
def setBit (b : Block) (k : Nat) : Block :=
  fun x => if x.val = k / 8 then b x ||| UInt8.ofNat (1 <<< (k % 8)) else b x

theorem bit_setBit (hk : k / 8 < bsize) : bit (setBit b k) j = (bit b j || decide (j = k)) := by
  by_cases e : j / 8 = k / 8
  · have hm : (1 : Nat) <<< (k % 8) < 256 := by
      rw [Nat.one_shiftLeft]
      calc 2 ^ (k % 8) < 2 ^ 8 := Nat.pow_lt_pow_right (by omega) (Nat.mod_lt _ (by omega))
        _ = 256 := rfl
    have hb : byteAt (setBit b k) (j / 8) = byteAt b (j / 8) ||| 1 <<< (k % 8) := by
      simp [byteAt, setBit, e, hk, UInt8.toNat_or, Nat.mod_eq_of_lt hm]
    rw [bit, bit, hb, Nat.testBit_or]
    congr 1
    rw [Nat.one_shiftLeft, Nat.testBit_two_pow]
    by_cases e' : j = k
    · simp [e']
    · have : k % 8 ≠ j % 8 := by omega
      simp [e', this]
  · have hb : byteAt (setBit b k) (j / 8) = byteAt b (j / 8) := by
      by_cases hj : j / 8 < bsize
      · simp [byteAt, setBit, hj, e]
      · simp [byteAt, hj]
    have : j ≠ k := fun e' => e (by rw [e'])
    simp [bit, hb, this]

theorem bit_zero (k : Nat) : bit zeroBlock k = false := by
  have hb : byteAt zeroBlock (k / 8) = 0 := by unfold byteAt; split <;> simp [zeroBlock]
  simp [bit, hb]

/-! ## The kernel's view -/

/-- Where `ilock` and `iupdate` find inode `i`. -/
def inodeAt (sb : Super) (disk : Disk) (i : Nat) : Dinode := getDinode (disk (i / ipb + sb.inodestart)) (i % ipb)

/-- `balloc`'s bit of block `b`. -/
def bitmapAt (sb : Super) (disk : Disk) (b : Nat) : Bool := bit (disk (b / bpb + sb.bmapstart)) (b % bpb)

/-- After boot, with nothing in the inode cache. -/
def mounted (P : Type) (disk : Disk) : Store P where
  bitmap := bitmapAt (readsb disk) disk
  inode := inodeAt (readsb disk) disk
  data := disk
  ref _ := 0
  valid _ := false
  lock _ := none
  freed _ := 0

end Xv6.Fs.Image
