/-
  Xv6.Fs.Contents — the bytes of a file, and what `readi` and `writei` do to them.

  Block `bn` of a file is the block that `bmap` finds for it; where there is none the file
  reads as zeros. `readi` of a part whose blocks are all there returns its bytes and does
  nothing but read blocks (`reads_readi`). `writei` allocates what is missing and writes:
  the bytes change where it wrote and nowhere else (`ends_writei`). It fails only when a
  block is missing and none is free (`Room`).
-/

import Xv6.Fs.BlockSafety

namespace Xv6.Fs.Contents

open Xv6.Lib Prog Blocks Function List

variable {P : Type} {sb : Superblock} {p : P} {s : Store P} {ip : Nat} {d : Dinode} {m : Nat → Block}

/-! ## Bytes -/

def fileBlock (d : Dinode) (m : Nat → Block) (bn : Nat) : Block :=
  if blockAt d m bn = 0 then zeroBlock else m (blockAt d m bn)

theorem mod_bsize (k : Nat) : k % bsize < bsize := Nat.mod_lt _ (by decide)

def byte (d : Dinode) (m : Nat → Block) (k : Nat) : UInt8 := fileBlock d m (k / bsize) ⟨k % bsize, mod_bsize k⟩

def bytes (d : Dinode) (m : Nat → Block) (off n : Nat) : List UInt8 := (List.range n).map fun k => byte d m (off + k)

@[simp] theorem bytes_length (off n : Nat) : (bytes d m off n).length = n := by simp [bytes]

variable {n off : Nat}

theorem bytes_getElem? {k : Nat} (h : k < n) : (bytes d m off n)[k]? = some (byte d m (off + k)) := by
  simp [bytes, h]

theorem bytes_add (off a b : Nat) : bytes d m off (a + b) = bytes d m off a ++ bytes d m (off + a) b := by
  simp [bytes, range_add, Nat.add_assoc]

variable {d' : Dinode} {m' : Nat → Block}

theorem bytes_congr
    (h : ∀ k, off ≤ k → k < off + n → byte d' m' k = byte d m k) : bytes d' m' off n = bytes d m off n := by
  unfold bytes
  refine map_congr_left fun k hk => h _ (by omega) ?_
  rw [mem_range] at hk
  omega

theorem bytes_sub {c : List UInt8} (h : bytes d m 0 c.length = c) (hle : off + n ≤ c.length) :
    bytes d m off n = (c.drop off).take n := by
  refine ext_getElem? fun k => ?_
  by_cases hk : k < n
  · rw [bytes_getElem? hk, getElem?_take_of_lt hk, getElem?_drop, ← h, bytes_getElem? (by omega), Nat.zero_add]
  · rw [getElem?_eq_none (by simp; omega), getElem?_eq_none (by simp; omega)]

/-- A part of one block. -/
theorem bytes_slice (h : off % bsize + n ≤ bsize) :
    bytes d m off n = slice (fileBlock d m (off / bsize)) (off % bsize) n := by
  unfold bytes slice
  refine map_congr_left fun k hk => ?_
  rw [mem_range] at hk
  have h1 : (off + k) / bsize = off / bsize := by unfold bsize at *; omega
  have h2 : (off + k) % bsize = off % bsize + k := by unfold bsize at *; omega
  simp only [byte, h1, h2, byteAt, show off % bsize + k < bsize by omega, dif_pos, UInt8.ofNat_toNat]

/-- `src` is written at `off`, within one block. -/
theorem byte_patch {src : List UInt8} (hblk : fileBlock d' m' = update (fileBlock d m) (off / bsize)
      (patch (fileBlock d m (off / bsize)) (off % bsize) src)) (hfit : off % bsize + src.length ≤ bsize) (k : Nat) :
    byte d' m' k = if off ≤ k then src.getD (k - off) (byte d m k) else byte d m k := by
  unfold byte
  rw [hblk]
  by_cases e : k / bsize = off / bsize
  · rw [e, update_self]
    have hmod : off ≤ k ↔ off % bsize ≤ k % bsize := by unfold bsize at *; omega
    simp only [patch, hmod]
    split
    · rename_i hle
      rw [show k % bsize - off % bsize = k - off by unfold bsize at *; omega]
    · rfl
  · rw [update_of_ne e]
    split
    · rename_i hle
      rw [getD_eq_default]
      unfold bsize at *
      omega
    · rfl

theorem bytes_patch {c src : List UInt8} (hblk : fileBlock d' m' = update (fileBlock d m) (c.length / bsize)
      (patch (fileBlock d m (c.length / bsize)) (c.length % bsize) src))
    (hfit : c.length % bsize + src.length ≤ bsize) (hc : bytes d m 0 c.length = c) :
    bytes d' m' 0 (c.length + src.length) = c ++ src := by
  have hbyte := byte_patch hblk hfit
  rw [bytes_add, Nat.zero_add]
  congr 1
  · rw [bytes_congr fun k _ hk => ?_, hc]
    rw [hbyte, if_neg (by omega)]
  · refine ext_getElem (by simp) fun k h1 h2 => ?_
    simp only [bytes, getElem_map, getElem_range]
    rw [hbyte, if_pos (by omega), Nat.add_sub_cancel_left, getD_eq_getElem _ _ h2]

/-! ## Reading -/

def IsRead : Act → Prop
  | .bread _ _ => True
  | _ => False

/-- The program returns `x` and does nothing but read blocks. -/
def Reads (sb : Superblock) (p : P) (c : M α) (s : Store P) (x : α) : Prop :=
  run (exec sb) p c s = .ok (x, s) ∧ Upholds (exec sb) p (fun a _ => IsRead a) c s

theorem Reads.ret (x : α) : Reads sb p (ret x) s x := ⟨rfl, trivial⟩

theorem Reads.bind {c : M α} {f : α → M β} {x : α} {y : β} (hc : Reads sb p c s x) (hf : Reads sb p (f x) s y) :
    Reads sb p (c >>= f) s y := by
  refine ⟨?_, hc.2.bind fun x' s' h => ?_⟩
  · rw [run_bind_ok _ hc.1]; exact hf.1
  · rw [hc.1] at h
    cases h
    exact hf.2

theorem Reads.bread (b : Nat) : Reads sb p (Fs.bread ip b) s (s.data b) := ⟨rfl, trivial, trivial⟩

theorem reads_ensureAddr {j : Fin (ndirect + 1)} (h : d.addrs j ≠ 0) :
    Reads sb p (ensureAddr sb ip d j) s (d.addrs j, d) := by
  unfold ensureAddr
  rw [if_neg h]
  exact .ret _

theorem reads_bmap {bn : Nat} (h : blockAt d s.data bn ≠ 0) :
    Reads sb p (bmap sb ip d bn) s (blockAt d s.data bn, d) := by
  unfold bmap
  split
  · rename_i hbn
    have hs : slotOf bn = some (.direct ⟨bn, hbn⟩) := by simp [slotOf, hbn]
    rw [blockAt_some hs] at h ⊢
    exact reads_ensureAddr h
  · rename_i hbn
    split
    · rename_i hbn'
      have hs : slotOf bn = some (.entry ⟨bn - ndirect, hbn'⟩) := by simp [slotOf, hbn, hbn']
      rw [blockAt_some hs] at h ⊢
      have hi : d.addrs indirect ≠ 0 := fun e => h (by simp [ptr, e])
      have hw : ptr d s.data (.entry ⟨bn - ndirect, hbn'⟩) = word (s.data (d.addrs indirect)) (bn - ndirect) := by
        simp [ptr, hi]
      rw [hw] at h ⊢
      refine (reads_ensureAddr hi).bind ((Reads.bread _).bind ?_)
      rw [if_neg h]
      exact .ret _
    · rename_i hbn'
      exact absurd (by simp [blockAt, slotOf, hbn, hbn']) h

/-- The part of the file from `off` on has its blocks. -/
def Present (d : Dinode) (m : Nat → Block) (off n : Nat) : Prop :=
  ∀ bn, off / bsize ≤ bn → bn * bsize < off + n → blockAt d m bn ≠ 0

theorem Present.drop {a b : Nat} (h : Present d m off (a + b)) : Present d m (off + a) b := by
  intro bn h1 h2
  refine h bn (le_trans ?_ h1) (by omega)
  exact Nat.div_le_div_right (by omega)

theorem reads_readLoop (fuel : Nat) : ∀ off n, n ≤ fuel → Present d s.data off n →
    Reads sb p (readLoop sb ip fuel d off n) s (bytes d s.data off n, d) := by
  induction fuel with
  | zero =>
    intro off n hn _
    obtain rfl : n = 0 := by omega
    exact .ret _
  | succ fuel ih =>
    intro off n hn hp
    unfold readLoop
    split
    · rename_i h0
      subst h0
      exact .ret _
    · rename_i h0
      have hb := hp (off / bsize) le_rfl (by have := Nat.div_mul_le_self off bsize; omega)
      have hpos : 0 < bsize - off % bsize := by have := mod_bsize off; omega
      obtain ⟨k, hk⟩ : ∃ k, n = min n (bsize - off % bsize) + k := ⟨n - min n (bsize - off % bsize), by omega⟩
      have hsub : n - min n (bsize - off % bsize) = k := by omega
      refine (reads_bmap hb).bind ((Reads.bread _).bind ?_)
      dsimp only
      rw [hsub]
      refine (ih _ _ (by omega) (Present.drop (by rw [← hk]; exact hp))).bind ?_
      have hsplit : bytes d s.data off n = slice (s.data (blockAt d s.data (off / bsize))) (off % bsize)
          (min n (bsize - off % bsize)) ++ bytes d s.data (off + min n (bsize - off % bsize)) k := by
        conv => lhs; rw [hk]
        rw [bytes_add, bytes_slice (by have := mod_bsize off; omega), fileBlock, if_neg hb]
      rw [hsplit]
      exact .ret _

theorem reads_readi {dev : Devsw} (ht : d.type ≠ some .dev) (hle : off + n ≤ d.size) (hs : d.size < 2 ^ 32)
    (hp : Present d s.data off n) : Reads sb p (readi sb dev ip d off n) s (some (bytes d s.data off n), d) := by
  unfold readi
  rw [if_neg ht, Nat.mod_eq_of_lt (by omega), if_neg (by omega)]
  dsimp only
  rw [if_neg (by omega)]
  exact (reads_readLoop _ _ _ le_rfl hp).bind (.ret _)

/-! ## Writing -/

/-- A block goes to slot `x`, which had none: the file's contents are as before. -/
theorem fileBlock_alloc {x : Slot} {b : Nat} (hx : ptr d m x = 0) (h0 : b ≠ 0)
    (hp : ptr d' m' = update (ptr d m) x b) (hb : m' b = zeroBlock)
    (hm : ∀ y, y ≠ .ind → ptr d m y ≠ 0 → m' (ptr d m y) = m (ptr d m y)) : fileBlock d' m' = fileBlock d m := by
  funext bn
  unfold fileBlock
  cases hs : slotOf bn with
  | none => simp [blockAt, hs]
  | some y =>
    rw [blockAt_some hs, blockAt_some hs, hp]
    by_cases ey : y = x
    · subst ey
      rw [update_self, if_neg h0, if_pos hx, hb]
    · rw [update_of_ne ey]
      split
      · rfl
      · rename_i hy
        exact hm y (fun e => slotOf_ne_ind bn (e ▸ hs)) hy

/-- The file's blocks are marked, and each is in one place of it. -/
structure Owned (sb : Superblock) (s : Store P) (d : Dinode) : Prop where
  inj : Inj d s.data
  marked : ∀ x, ptr d s.data x ≠ 0 → s.bitmap (ptr d s.data x) = true
  reserved : ∀ b, b < sb.nmeta → s.bitmap b = true

/-! ## Room -/

/-- The slots that block `bn` of a file needs. -/
def needs (bn : Nat) : Finset Slot :=
  match slotOf bn with
  | some (.entry j) => {.ind, .entry j}
  | some x => {x}
  | none => ∅

/-- How many slots have no block, of those that the first `n` blocks need. -/
def missing (n : Nat) (d : Dinode) (m : Nat → Block) : Nat := (((Finset.range n).biUnion needs).filter fun x => ptr d m x = 0).card

/-- The blocks that `balloc` can find. -/
def free (sb : Superblock) (s : Store P) : Finset Nat := (Finset.range sb.size).filter fun b => s.bitmap b = false

/-- The first `n` blocks can be had, or it may fail. -/
def Room (sb : Superblock) (B : Panic → Prop) (n : Nat) (s : Store P) (d : Dinode) : Prop := B .outOfBlocks ∨ missing n d s.data ≤ (free sb s).card

section Write

variable {s' : Store P} {d' : Dinode} {b bn : Nat} {Q : β → Store P → Prop} {B : Panic → Prop} {W : Prop}

/-- A block as `balloc` leaves it. -/
def taken (s : Store P) (b : Nat) : Store P :=
  { s with bitmap := Function.update s.bitmap b true, data := Function.update s.data b zeroBlock }

@[simp] theorem taken_data (s : Store P) (b : Nat) : (taken s b).data = update s.data b zeroBlock := rfl

/-- A block as `log_write` leaves it. -/
def stored (s : Store P) (b : Nat) (v : Block) : Store P := { s with data := Function.update s.data b v }

theorem ends_bread {k : Block → M β} (h : Ends (exec sb) p (k (s.data b)) s Q B W) :
    Ends (exec sb) p (bread ip b >>= k) s Q B W :=
  Ends.act (show exec sb p (.bread ip b) s = .ok (s.data b, s) from rfl) h

theorem ends_bwrite {v : Block} {k : Unit → M β} (h : Ends (exec sb) p (k ()) (stored s b v) Q B W) :
    Ends (exec sb) p (bwrite ip b v >>= k) s Q B W :=
  Ends.act (show exec sb p (.bwrite ip b v) s = .ok ((), stored s b v) from rfl) h

theorem ends_balloc {k : Nat → M β} (hB : B .outOfBlocks ∨ 0 < (free sb s).card)
    (h : ∀ b, s.bitmap b = false → b < sb.size → Ends (exec sb) p (k b) (taken s b) Q B W) :
    Ends (exec sb) p (balloc sb ip >>= k) s Q B W := by
  have hB : B .outOfBlocks ∨ ∃ j ∈ range ((sb.size + bpb - 1) / bpb), ∃ b ∈ bits sb j, s.bitmap b = false := by
    refine hB.imp_right fun hpos => ?_
    obtain ⟨b, hb⟩ := Finset.card_pos.1 hpos
    obtain ⟨hlt, hfree⟩ := Finset.mem_filter.1 hb
    rw [Finset.mem_range] at hlt
    refine ⟨b / bpb, ?_, b, ?_, hfree⟩
    · rw [mem_range]
      unfold bpb bsize
      omega
    · rw [bits, mem_range'_1]
      unfold bpb bsize
      omega
  unfold balloc
  generalize range ((sb.size + bpb - 1) / bpb) = js at hB
  induction js with
  | nil =>
    refine Ends.fail (e := .outOfBlocks) rfl (hB.resolve_right fun ⟨j, hj, _⟩ => ?_)
    cases hj
  | cons j js ih =>
    cases hf : (bits sb j).find? fun b => !s.bitmap b with
    | none =>
      refine Ends.act (show exec sb p (.mark ip j) s = .ok (none, s) by simp only [exec, hf]) (ih (hB.imp_right fun ⟨j', hj', b, hb, hfree⟩ => ?_))
      rcases mem_cons.1 hj' with rfl | hj'
      · exact absurd (find?_eq_none.1 hf b hb) (by simp [hfree])
      · exact ⟨j', hj', b, hb, hfree⟩
    | some b =>
      refine Ends.act (show exec sb p (.mark ip j) s =
        .ok (some b, { s with bitmap := update s.bitmap b true }) by simp only [exec, hf]) ?_
      refine Ends.act rfl (h b ?_ (mem_bits (mem_of_find?_eq_some hf)))
      simpa using find?_some hf

theorem Owned.ne_zero (h : Owned sb s d) (hb : s.bitmap b = false) : b ≠ 0 := by
  intro e
  subst e
  have hpos : 0 < sb.nmeta := by have := sb.hmeta; unfold Superblock.nmeta; omega
  rw [h.reserved 0 hpos] at hb
  cases hb

/-- No slot has a block that is not marked. -/
theorem Owned.fresh (h : Owned sb s d) (hb : s.bitmap b = false) (x : Slot) : ptr d s.data x ≠ b := by
  intro e
  have := h.marked x (by rw [e]; exact h.ne_zero hb)
  rw [e, hb] at this
  cases this

variable {x : Slot}

theorem Owned.alloc (h : Owned sb s d) (hb : s.bitmap b = false) (hx : ptr d s.data x = 0)
    (hp : ptr d' s'.data = update (ptr d s.data) x b) (hm : s'.bitmap = update s.bitmap b true) :
    Owned sb s' d' := by
  refine ⟨fun y z hy hyz => ?_, fun y hy => ?_, fun c hc => ?_⟩
  · rw [hp] at hy hyz
    by_cases ey : y = x
    · by_cases ez : z = x
      · rw [ey, ez]
      · subst ey
        rw [update_self, update_of_ne ez] at hyz
        exact absurd hyz.symm (h.fresh hb z)
    · rw [update_of_ne ey] at hy hyz
      by_cases ez : z = x
      · subst ez
        rw [update_self] at hyz
        exact absurd hyz (h.fresh hb y)
      · rw [update_of_ne ez] at hyz
        exact h.inj y z hy hyz
  · rw [hp] at hy ⊢
    rw [hm]
    by_cases ey : y = x
    · subst ey
      rw [update_self, update_self]
    · rw [update_of_ne ey] at hy ⊢
      rw [update_of_ne (h.fresh hb y)]
      exact h.marked y hy
  · rw [hm, update_apply]
    split
    · rfl
    · exact h.reserved c hc

/-- The blocks of others are left alone. -/
def Others (s : Store P) (d : Dinode) (s' : Store P) (d' : Dinode) : Prop :=
  ∀ c, s.bitmap c = true → (∀ x, ptr d s.data x ≠ c) → s'.bitmap c = true ∧ s'.data c = s.data c ∧ ∀ x, ptr d' s'.data x ≠ c

theorem Others.refl : Others s d s d := fun _ hc hx => ⟨hc, rfl, hx⟩

theorem Others.trans {s'' : Store P} {d'' : Dinode} (h : Others s d s' d') (h' : Others s' d' s'' d'') : Others s d s'' d'' := by
  intro c hc hx
  obtain ⟨h1, h2, h3⟩ := h c hc hx
  obtain ⟨g1, g2, g3⟩ := h' c h1 h3
  exact ⟨g1, g2.trans h2, g3⟩

/-- A free block goes to a slot. Of the inode's own blocks the indirect one may change. -/
theorem Others.alloc (hb : s.bitmap b = false) (hp : ptr d' s'.data = update (ptr d s.data) x b)
    (hm : s'.bitmap = update s.bitmap b true) (hd : ∀ c, c ≠ b → (∀ x, ptr d s.data x ≠ c) → s'.data c = s.data c) : Others s d s' d' := by
  intro c hc hx
  have hne : c ≠ b := fun e => by rw [e, hb] at hc; cases hc
  refine ⟨by rw [hm, update_of_ne hne]; exact hc, hd c hne hx, fun y => ?_⟩
  rw [hp]
  by_cases ey : y = x
  · rw [ey, update_self]
    exact hne.symm
  · rw [update_of_ne ey]
    exact hx y

variable {n off : Nat}

/-- A missing slot gets one of the free blocks. -/
theorem Room.alloc (h : Room sb B n s d) (hx : x ∈ (Finset.range n).biUnion needs) (hx0 : ptr d s.data x = 0) (h0 : b ≠ 0)
    (hb : s.bitmap b = false) (hlt : b < sb.size) (hp : ptr d' s'.data = update (ptr d s.data) x b)
    (hm : s'.bitmap = update s.bitmap b true) : Room sb B n s' d' := by
  refine h.imp_right fun hle => ?_
  have hfree : free sb s' = (free sb s).erase b := by
    ext c
    simp only [free, Finset.mem_filter, Finset.mem_erase, hm]
    by_cases e : c = b
    · simp [e]
    · simp [e]
  have hmiss : ((Finset.range n).biUnion needs).filter (fun y => ptr d' s'.data y = 0) =
      (((Finset.range n).biUnion needs).filter fun y => ptr d s.data y = 0).erase x := by
    ext y
    simp only [Finset.mem_filter, Finset.mem_erase, hp]
    by_cases e : y = x
    · simp [e, h0]
    · simp [e]
  unfold missing at hle ⊢
  rw [hfree, hmiss, Finset.card_erase_of_mem (Finset.mem_filter.2 ⟨hx, hx0⟩),
    Finset.card_erase_of_mem (show b ∈ free sb s from Finset.mem_filter.2 ⟨Finset.mem_range.2 hlt, hb⟩)]
  omega

/-- While a slot is missing, there is a block for it. -/
theorem Room.free_pos (h : Room sb B n s d) (hx : x ∈ (Finset.range n).biUnion needs) (hx0 : ptr d s.data x = 0) :
    B .outOfBlocks ∨ 0 < (free sb s).card := by
  refine h.imp_right fun hle => Nat.lt_of_lt_of_le (Finset.card_pos.2 ⟨x, ?_⟩) hle
  exact Finset.mem_filter.2 ⟨hx, hx0⟩

theorem Room.congr (h : Room sb B n s d) (hp : ptr d' s'.data = ptr d s.data) (hm : s'.bitmap = s.bitmap) : Room sb B n s' d' := by
  unfold Room missing free at h ⊢
  rw [hp, hm]
  exact h

/-- What `bmap` makes of an inode's copy and the store. -/
structure Grown (sb : Superblock) (s : Store P) (d : Dinode) (s' : Store P) (d' : Dinode) : Prop where
  owned : Owned sb s' d'
  block : fileBlock d' s'.data = fileBlock d s.data
  present : ∀ bn, blockAt d s.data bn ≠ 0 → blockAt d' s'.data bn ≠ 0
  same : d' = { d with addrs := d'.addrs }
  rest : s' = { s with bitmap := s'.bitmap, data := s'.data }
  others : Others s d s' d'

theorem Grown.refl (h : Owned sb s d) : Grown sb s d s d := ⟨h, rfl, fun _ h => h, rfl, rfl, .refl⟩

theorem Grown.trans {s'' : Store P} {d'' : Dinode} (h : Grown sb s d s' d') (h' : Grown sb s' d' s'' d'') :
    Grown sb s d s'' d'' := by
  refine ⟨h'.owned, h'.block.trans h.block, fun bn hbn => h'.present bn (h.present bn hbn), ?_, ?_, h.others.trans h'.others⟩
  · rw [h'.same, h.same]
  · rw [h'.rest, h.rest]

theorem present_alloc {m' : Nat → Block} (h0 : b ≠ 0) (hp : ptr d' m' = update (ptr d m) x b) (bn : Nat)
    (hbn : blockAt d m bn ≠ 0) : blockAt d' m' bn ≠ 0 := by
  cases hs : slotOf bn with
  | none => exact absurd (by simp [blockAt, hs]) hbn
  | some y =>
    rw [blockAt_some hs] at hbn ⊢
    rw [hp]
    by_cases ey : y = x
    · subst ey; rw [update_self]; exact h0
    · rw [update_of_ne ey]; exact hbn

/-- `balloc` for a slot in `addrs` that is empty. -/
theorem Owned.ensure {j : Fin (ndirect + 1)} (h : Owned sb s d) (hb : s.bitmap b = false)
    (hx : ptr d s.data x = 0) (hp : ptr (d.setAddr j b) (taken s b).data = update (ptr d s.data) x b) :
    Grown sb s d (taken s b) (d.setAddr j b) := by
  have h0 := h.ne_zero hb
  refine ⟨h.alloc hb hx hp rfl, ?_, present_alloc h0 hp, rfl, rfl, .alloc hb hp rfl fun c hc _ => update_of_ne hc _ _⟩
  refine fileBlock_alloc hx h0 hp (update_self _ _ _) fun y _ _ => ?_
  exact update_of_ne (h.fresh hb y) _ _

variable {k : Nat × Dinode → M β}

/-- `ensureAddr` for a slot in `addrs`. -/
theorem ends_ensureAddr {j : Fin (ndirect + 1)} (h : Owned sb s d) (hx : ptr d s.data x = d.addrs j)
    (hp : ∀ b, s.bitmap b = false → d.addrs j = 0 → ptr (d.setAddr j b) (taken s b).data = update (ptr d s.data) x b)
    (hS : x ∈ (Finset.range n).biUnion needs) (hroom : Room sb B n s d)
    (hk : ∀ d' s', Grown sb s d s' d' → Room sb B n s' d' → d'.addrs j ≠ 0 → (∀ y, y ≠ x → ptr d' s'.data y = ptr d s.data y) →
      Ends (exec sb) p (k (d'.addrs j, d')) s' Q B W) : Ends (exec sb) p (ensureAddr sb ip d j >>= k) s Q B W := by
  unfold ensureAddr
  split
  · rename_i h0
    rw [Prog.bind_assoc]
    refine ends_balloc (hroom.free_pos hS (hx.trans h0)) fun b hb hlt => ?_
    have hself : (d.setAddr j b).addrs j = b := by simp [Dinode.setAddr]
    have := hk _ _ (h.ensure hb (hx.trans h0) (hp b hb h0)) (hroom.alloc hS (hx.trans h0) (h.ne_zero hb) hb hlt (hp b hb h0) rfl)
      (by rw [hself]; exact h.ne_zero hb) fun y hy => by rw [hp b hb h0, update_of_ne hy]
    rw [hself] at this
    exact this
  · rename_i h0
    exact hk d s (.refl h) hroom h0 fun _ _ => rfl

theorem ends_ensureDirect {j : Fin ndirect} (h : Owned sb s d) (hS : .direct j ∈ (Finset.range n).biUnion needs)
    (hroom : Room sb B n s d)
    (hk : ∀ d' s', Grown sb s d s' d' → Room sb B n s' d' → d'.addrs (direct j) ≠ 0 → (∀ y, y ≠ .direct j → ptr d' s'.data y = ptr d s.data y) →
      Ends (exec sb) p (k (d'.addrs (direct j), d')) s' Q B W) :
    Ends (exec sb) p (ensureAddr sb ip d (direct j) >>= k) s Q B W := by
  refine ends_ensureAddr h rfl (fun b hb _ => ?_) hS hroom hk
  rw [ptr_setAddr, (ptr_congr fun hi => ?_ : ptr d (taken s b).data = ptr d s.data)]
  exact update_of_ne (h.fresh hb .ind) _ _

theorem ends_ensureIndirect (h : Owned sb s d) (hS : .ind ∈ (Finset.range n).biUnion needs) (hroom : Room sb B n s d)
    (hk : ∀ d' s', Grown sb s d s' d' → Room sb B n s' d' → d'.addrs indirect ≠ 0 → (∀ y, y ≠ .ind → ptr d' s'.data y = ptr d s.data y) →
      Ends (exec sb) p (k (d'.addrs indirect, d')) s' Q B W) :
    Ends (exec sb) p (ensureAddr sb ip d indirect >>= k) s Q B W := by
  refine ends_ensureAddr h rfl (fun b _ h0 => ?_) hS hroom hk
  rw [ptr_setIndirect h0 (by rw [taken_data, update_self]),
    (ptr_congr fun hi => absurd h0 hi : ptr d (taken s b).data = ptr d s.data)]

theorem blockAt_congr {m' : Nat → Block} (h : ∀ x, slotOf bn = some x → ptr d' m' x = ptr d m x) : blockAt d' m' bn = blockAt d m bn := by
  cases hs : slotOf bn with
  | none => simp [blockAt, hs]
  | some y => rw [blockAt_some hs, blockAt_some hs, h y hs]

theorem needs_subset (hbn : bn < n) : needs bn ⊆ (Finset.range n).biUnion needs := Finset.subset_biUnion_of_mem needs (Finset.mem_range.2 hbn)

theorem ends_bmap (h : Owned sb s d) (hbn : bn < maxFile) (hn : bn < n) (hroom : Room sb B n s d)
    (hk : ∀ d' s', Grown sb s d s' d' → Room sb B n s' d' → blockAt d' s'.data bn ≠ 0 → (blockAt d s.data bn ≠ 0 → d' = d ∧ s' = s) →
      (∀ bn', bn' ≠ bn → blockAt d' s'.data bn' = blockAt d s.data bn') → Ends (exec sb) p (k (blockAt d' s'.data bn, d')) s' Q B W) :
    Ends (exec sb) p (bmap sb ip d bn >>= k) s Q B W := by
  by_cases hpres : blockAt d s.data bn ≠ 0
  · -- the block is there
    unfold Ends
    rw [run_bind_ok _ (reads_bmap hpres).1]
    exact hk d s (.refl h) hroom hpres (fun _ => ⟨rfl, rfl⟩) fun _ _ => rfl
  · unfold bmap
    split
    · rename_i hlt
      have hs : slotOf bn = some (.direct ⟨bn, hlt⟩) := by simp [slotOf, hlt]
      have hS := needs_subset hn (show Slot.direct ⟨bn, hlt⟩ ∈ needs bn by simp [needs, hs])
      refine ends_ensureDirect h hS hroom fun d' s' hg hr h0 hoth => ?_
      have hat : blockAt d' s'.data bn = d'.addrs (direct ⟨bn, hlt⟩) := blockAt_some hs d' s'.data
      rw [← hat] at h0 ⊢
      refine hk d' s' hg hr h0 (fun e => absurd e hpres) fun bn' hne => blockAt_congr fun y hy => hoth y fun e => ?_
      exact hne (slotOf_inj hy (e ▸ hs))
    · rename_i hge
      have hent : bn - ndirect < nindirect := by unfold maxFile at hbn; omega
      have hs : slotOf bn = some (.entry ⟨bn - ndirect, hent⟩) := by simp [slotOf, hge, hent]
      have hS := needs_subset hn (show Slot.ind ∈ needs bn by simp [needs, hs])
      have hS' := needs_subset hn (show Slot.entry ⟨bn - ndirect, hent⟩ ∈ needs bn by simp [needs, hs])
      rw [if_pos hent, Prog.bind_assoc]
      refine ends_ensureIndirect h hS hroom fun d₁ s₁ hg hr hi hoth => ?_
      have hat : ∀ bn', blockAt d₁ s₁.data bn' = blockAt d s.data bn' := fun bn' => blockAt_congr fun y hy => hoth y fun e => slotOf_ne_ind bn' (e ▸ hy)
      have hword : word (s₁.data (d₁.addrs indirect)) (bn - ndirect) = 0 := by
        have := (hat bn).trans (not_not.mp hpres)
        rw [blockAt_some hs] at this
        simpa [ptr, hi] using this
      rw [Prog.bind_assoc]
      refine ends_bread ?_
      rw [if_pos hword, Prog.bind_assoc]
      have hx : ptr d₁ s₁.data (.entry ⟨bn - ndirect, hent⟩) = 0 := by simpa [ptr, hi] using hword
      refine ends_balloc (hr.free_pos hS' hx) fun b hb hlt => ?_
      -- the new block is not the indirect block
      have hne : d₁.addrs indirect ≠ b := hg.owned.fresh hb .ind
      rw [Prog.bind_assoc]
      refine ends_bwrite ?_
      generalize hs₂ : stored (taken s₁ b) (d₁.addrs indirect) (setWord (s₁.data (d₁.addrs indirect)) (bn - ndirect) b) = s₂
      have hdata : s₂.data = update (update s₁.data b zeroBlock) (d₁.addrs indirect)
          (setWord (s₁.data (d₁.addrs indirect)) (bn - ndirect) b) := by rw [← hs₂]; rfl
      have hbits : s₂.bitmap = update s₁.bitmap b true := by rw [← hs₂]; rfl
      have hp : ptr d₁ s₂.data = update (ptr d₁ s₁.data) (.entry ⟨bn - ndirect, hent⟩) b :=
        ptr_setEntry hi (lt_trans hlt sb.hsize) (by rw [hdata, update_self])
      have h0 := hg.owned.ne_zero hb
      have hgrown : Grown sb s₁ d₁ s₂ d₁ := by
        refine ⟨hg.owned.alloc hb hx hp hbits, ?_, present_alloc h0 hp, rfl, by rw [← hs₂]; rfl, .alloc hb hp hbits fun c hc hcx => ?_⟩
        · refine fileBlock_alloc hx h0 hp ?_ fun y hy hy0 => ?_
          · rw [hdata, update_of_ne (Ne.symm hne), update_self]
          · rw [hdata, update_of_ne, update_of_ne (hg.owned.fresh hb y)]
            exact fun e => hy (hg.owned.inj y .ind hy0 e)
        · rw [hdata, update_of_ne (show c ≠ d₁.addrs indirect from Ne.symm (hcx .ind)), update_of_ne hc]
      have hat' : blockAt d₁ s₂.data bn = b := by rw [blockAt_some hs, hp, update_self]
      have := hk d₁ s₂ (hg.trans hgrown) (hr.alloc hS' hx h0 hb hlt hp hbits) (by rw [hat']; exact h0) (fun e => absurd e hpres) fun bn' hne' => ?_
      · rw [hat'] at this
        exact this
      · rw [← hat bn']
        refine blockAt_congr fun y hy => ?_
        rw [hp, update_of_ne]
        exact fun e => hne' (slotOf_inj hy (e ▸ hs))

/-- A block of the file's data is written. -/
theorem fileBlock_write {v : Block} (hinj : Inj d m) (hbn : blockAt d m bn ≠ 0) :
    ptr d (update m (blockAt d m bn) v) = ptr d m ∧
      fileBlock d (update m (blockAt d m bn) v) = update (fileBlock d m) bn v := by
  obtain ⟨x, hs⟩ : ∃ x, slotOf bn = some x := by
    cases hs : slotOf bn with
    | none => exact absurd (by simp [blockAt, hs]) hbn
    | some x => exact ⟨x, rfl⟩
  have hbx := blockAt_some hs d m
  rw [hbx] at hbn ⊢
  have hp : ptr d (update m (ptr d m x) v) = ptr d m := by
    refine ptr_congr fun hi => update_of_ne (fun e => ?_) _ _
    exact slotOf_ne_ind bn (by rw [hs, hinj x .ind hbn e.symm])
  refine ⟨hp, funext fun bn' => ?_⟩
  have hbb : blockAt d (update m (ptr d m x) v) bn' = blockAt d m bn' := by
    unfold blockAt
    rw [hp]
  unfold fileBlock
  rw [hbb]
  by_cases e : bn' = bn
  · subst e
    rw [update_self, hbx, if_neg hbn, update_self]
  · rw [update_of_ne e]
    split
    · rfl
    · rename_i h0
      refine update_of_ne (fun e' => ?_) _ _
      cases hs' : slotOf bn' with
      | none => simp [blockAt, hs'] at h0
      | some y =>
        rw [blockAt_some hs'] at h0 e'
        exact e (slotOf_inj hs' (by rw [hs, hinj y x h0 e']))

/-- Block `bn` has one of the `n` bytes from `off` on. -/
def Touches (off n bn : Nat) : Prop := ∃ k < n, (off + k) / bsize = bn

/-- What the loop of `writei` makes of an inode's copy and the store, for `src` at `off`. -/
structure Put (sb : Superblock) (s : Store P) (d : Dinode) (off : Nat) (src : List UInt8) (s' : Store P) (d' : Dinode) : Prop where
  owned : Owned sb s' d'
  byte : ∀ k, byte d' s'.data k = if off ≤ k then src.getD (k - off) (byte d s.data k) else byte d s.data k
  block : ∀ bn, blockAt d' s'.data bn ≠ 0 ↔ blockAt d s.data bn ≠ 0 ∨ Touches off src.length bn
  keep : (∀ bn, Touches off src.length bn → blockAt d s.data bn ≠ 0) → d' = d
  same : d' = { d with addrs := d'.addrs }
  rest : s' = { s with bitmap := s'.bitmap, data := s'.data }
  others : Others s d s' d'

theorem Put.nil (h : Owned sb s d) (off : Nat) : Put sb s d off [] s d := by
  refine ⟨h, fun k => ?_, fun bn => ?_, fun _ => rfl, rfl, rfl, .refl⟩
  · rw [getD_nil, ite_self]
  · exact ⟨.inl, fun h => h.resolve_right fun ⟨k, hk, _⟩ => absurd hk (Nat.not_lt_zero k)⟩

/-- The first `n` bytes, then the rest. -/
theorem Put.trans {s'' : Store P} {d'' : Dinode} {src : List UInt8} (hn : n ≤ src.length) (h : Put sb s d off (src.take n) s' d')
    (h' : Put sb s' d' (off + n) (src.drop n) s'' d'') : Put sb s d off src s'' d'' := by
  have hlen : (src.take n).length = n := by rw [length_take]; omega
  have htouch : ∀ bn, Touches off src.length bn ↔ Touches off (src.take n).length bn ∨ Touches (off + n) (src.drop n).length bn := fun bn => by
    rw [hlen, length_drop]
    constructor
    · intro ⟨k, hk, he⟩
      by_cases hkn : k < n
      · exact .inl ⟨k, hkn, he⟩
      · exact .inr ⟨k - n, by omega, by rw [show off + n + (k - n) = off + k by omega]; exact he⟩
    · intro ht
      rcases ht with ⟨k, hk, he⟩ | ⟨k, hk, he⟩
      · exact ⟨k, by omega, he⟩
      · exact ⟨n + k, by omega, by rw [← Nat.add_assoc]; exact he⟩
  refine ⟨h'.owned, fun k => ?_, fun bn => ?_, fun hall => ?_, by rw [h'.same, h.same], by rw [h'.rest, h.rest], h.others.trans h'.others⟩
  · rw [h'.byte, h.byte]
    by_cases h1 : off ≤ k
    · by_cases h2 : off + n ≤ k
      · rw [if_pos h2, if_pos h1, if_pos h1, getD_eq_getElem?_getD, getElem?_drop, show n + (k - (off + n)) = k - off by omega,
          getD_eq_default _ _ (by omega), getD_eq_getElem?_getD]
      · rw [if_neg h2, if_pos h1, if_pos h1, getD_eq_getElem?_getD, getElem?_take_of_lt (by omega), getD_eq_getElem?_getD]
    · rw [if_neg h1, if_neg (by omega), if_neg h1]
  · rw [h'.block, h.block, htouch, or_assoc]
  · have hd : d' = d := h.keep fun bn ht => hall bn ((htouch bn).2 (.inl ht))
    exact (h'.keep fun bn ht => (h.block bn).2 (.inl (hall bn ((htouch bn).2 (.inr ht))))).trans hd

/-- A part of one block is written. -/
theorem Put.patch (src : List UInt8) (hg : Grown sb s d s' d') (hfit : off % bsize + src.length ≤ bsize) (hpos : 0 < src.length)
    (hat : blockAt d' s'.data (off / bsize) ≠ 0) (hkeep : blockAt d s.data (off / bsize) ≠ 0 → d' = d ∧ s' = s)
    (hoth : ∀ bn, bn ≠ off / bsize → blockAt d' s'.data bn = blockAt d s.data bn) :
    ptr d' (stored s' (blockAt d' s'.data (off / bsize)) (Fs.patch (s'.data (blockAt d' s'.data (off / bsize))) (off % bsize) src)).data = ptr d' s'.data ∧
    Put sb s d off src (stored s' (blockAt d' s'.data (off / bsize)) (Fs.patch (s'.data (blockAt d' s'.data (off / bsize))) (off % bsize) src)) d' := by
  have hv : s'.data (blockAt d' s'.data (off / bsize)) = fileBlock d s.data (off / bsize) := by
    rw [← hg.block, fileBlock, if_neg hat]
  obtain ⟨hptr, hfile⟩ := fileBlock_write (v := Fs.patch (s'.data (blockAt d' s'.data (off / bsize))) (off % bsize) src) hg.owned.inj hat
  generalize hs₂ : stored s' (blockAt d' s'.data (off / bsize)) (Fs.patch (s'.data (blockAt d' s'.data (off / bsize))) (off % bsize) src) = s₂
  have hdata : s₂.data = update s'.data (blockAt d' s'.data (off / bsize))
      (Fs.patch (s'.data (blockAt d' s'.data (off / bsize))) (off % bsize) src) := by rw [← hs₂]; rfl
  have hbits : s₂.bitmap = s'.bitmap := by rw [← hs₂]; rfl
  rw [← hdata] at hptr hfile
  have hblock : ∀ bn, blockAt d' s₂.data bn = blockAt d' s'.data bn := fun bn => by unfold blockAt; rw [hptr]
  have htouch : ∀ bn, Touches off src.length bn ↔ bn = off / bsize := fun bn => by
    constructor
    · intro ⟨k, hk, he⟩
      unfold bsize at *
      omega
    · intro e
      exact ⟨0, hpos, e.symm⟩
  refine ⟨hptr, ⟨⟨by rw [Inj, hptr]; exact hg.owned.inj, fun x hx => ?_, by rw [hbits]; exact hg.owned.reserved⟩, byte_patch (by rw [hfile, hg.block, hv]) hfit,
    fun bn => ?_, fun hall => (hkeep (hall _ ((htouch _).2 rfl))).1, hg.same, by rw [← hs₂, stored, hg.rest], hg.others.trans fun c hc hcx => ?_⟩⟩
  · rw [hptr] at hx ⊢
    rw [hbits]
    exact hg.owned.marked x hx
  · rw [hblock, htouch]
    by_cases e : bn = off / bsize
    · rw [e]
      exact iff_of_true hat (.inr rfl)
    · rw [hoth bn e]
      exact ⟨.inl, fun h => h.resolve_right e⟩
  · have hne : c ≠ blockAt d' s'.data (off / bsize) := fun e => by
      obtain ⟨x, hs⟩ : ∃ x, slotOf (off / bsize) = some x := by
        cases hs : slotOf (off / bsize) with
        | none => exact absurd (by simp [blockAt, hs]) hat
        | some x => exact ⟨x, rfl⟩
      exact hcx x (by rw [e, blockAt_some hs])
    exact ⟨by rw [hbits]; exact hc, by rw [hdata, update_of_ne hne], by rw [hptr]; exact hcx⟩

theorem ends_writeLoop {fuel : Nat} {src : List UInt8} {k : Dinode → M β} (h : Owned sb s d) (hfuel : src.length ≤ fuel)
    (hmax : off + src.length ≤ maxFile * bsize) (hn : off + src.length ≤ n * bsize) (hroom : Room sb B n s d)
    (hk : ∀ d' s', Put sb s d off src s' d' → Room sb B n s' d' → Ends (exec sb) p (k d') s' Q B W) :
    Ends (exec sb) p (writeLoop sb ip fuel d src off >>= k) s Q B W := by
  induction fuel generalizing s d off src with
  | zero =>
    obtain rfl : src = [] := eq_nil_of_length_eq_zero (by omega)
    exact hk d s (.nil h off) hroom
  | succ fuel ih =>
    unfold writeLoop
    split
    · rename_i h0
      obtain rfl : src = [] := eq_nil_of_length_eq_zero h0
      exact hk d s (.nil h off) hroom
    · rename_i h0
      have hmod := mod_bsize off
      have hbn : ∀ N, off + src.length ≤ N * bsize → off / bsize < N := fun N hN => Nat.div_lt_of_lt_mul (by rw [Nat.mul_comm]; omega)
      rw [Prog.bind_assoc]
      refine ends_bmap h (hbn _ hmax) (hbn _ hn) hroom fun d₁ s₁ hg hr hat hkeep hoth => ?_
      rw [Prog.bind_assoc]
      refine ends_bread ?_
      dsimp only
      generalize hm : min src.length (bsize - off % bsize) = m
      rw [Prog.bind_assoc]
      refine ends_bwrite ?_
      have hlen : (src.take m).length = m := by rw [length_take]; omega
      obtain ⟨hptr, hput⟩ := Put.patch (src.take m) hg (by rw [hlen]; omega) (by rw [hlen]; omega) hat hkeep hoth
      have hroom₂ := hr.congr hptr (show (stored s₁ _ _).bitmap = s₁.bitmap from rfl)
      refine ih hput.owned (by rw [length_drop]; omega) (by rw [length_drop]; omega) (by rw [length_drop]; omega) hroom₂ fun d' s' hput' hr' => ?_
      exact hk d' s' (hput.trans (by omega) hput') hr'

/-- What `writei` of `src` at `off` makes of an inode's copy and the store. -/
structure Wrote (sb : Superblock) (ip : Nat) (s : Store P) (d : Dinode) (off : Nat) (src : List UInt8) (s' : Store P)
    (d' : Dinode) : Prop where
  owned : Owned sb s' d'
  byte : ∀ k, byte d' s'.data k = if off ≤ k then src.getD (k - off) (byte d s.data k) else byte d s.data k
  dense : Present d' s'.data 0 d'.size
  same : d' = { d with addrs := d'.addrs, size := max d.size (off + src.length) }
  disk : s.inode ip = d → s'.inode ip = d'
  rest : s' = { s with bitmap := s'.bitmap, data := s'.data, inode := Function.update s.inode ip (s'.inode ip) }
  others : Others s d s' d'

theorem ends_writei {dev : Devsw} {src : List UInt8} {k : Int × Dinode → M β} (h : Owned sb s d)
    (hdev : d.type ≠ some .dev) (hnone : d.type ≠ none) (hd : Present d s.data 0 d.size) (hoff : off ≤ d.size)
    (hmax : off + src.length ≤ maxFile * bsize) (hn : off + src.length ≤ n * bsize) (hroom : Room sb B n s d)
    (hk : ∀ d' s', Wrote sb ip s d off src s' d' → Room sb B n s' d' → Ends (exec sb) p (k (src.length, d')) s' Q B W) :
    Ends (exec sb) p (writei sb dev ip d src off >>= k) s Q B W := by
  have h32 : maxFile * bsize < 2 ^ 32 := by decide
  unfold writei
  dsimp only
  rw [if_neg hdev, Nat.mod_eq_of_lt (by omega), if_neg (by omega), if_neg (by omega), Prog.bind_assoc]
  refine ends_writeLoop h le_rfl hmax hn hroom fun d₁ s₁ hput hr => ?_
  have hsize : d₁.size = d.size := by rw [hput.same]
  -- the blocks up to the new end are there
  have hpres : ∀ bn, bn * bsize < max d.size (off + src.length) → blockAt d₁ s₁.data bn ≠ 0 := fun bn hlt => by
    rw [hput.block]
    by_cases hin : bn * bsize < d.size
    · exact .inl (hd bn (by simp) (by omega))
    · refine .inr ⟨bn * bsize - off, by omega, ?_⟩
      rw [show off + (bn * bsize - off) = bn * bsize by omega]
      exact Nat.mul_div_cancel bn (by decide)
  split
  · rename_i hgrow
    rw [hsize] at hgrow
    refine Ends.act (show exec sb p (.iupdate ip { d₁ with size := off + src.length }) s₁ = .ok ((), _) from rfl) ?_
    have hupd : ({ d₁ with size := off + src.length } : Dinode).type ≠ none := by
      show d₁.type ≠ none
      rw [hput.same]
      exact hnone
    rw [if_neg hupd]
    refine hk { d₁ with size := off + src.length } { s₁ with inode := update s₁.inode ip { d₁ with size := off + src.length } }
      ⟨⟨hput.owned.inj, hput.owned.marked, hput.owned.reserved⟩, hput.byte, fun bn _ hlt => hpres bn ?_, ?_, fun _ => update_self _ _ _, ?_, hput.others⟩
      (hr.congr rfl rfl)
    · have hlt : bn * bsize < 0 + (off + src.length) := hlt
      omega
    · rw [show max d.size (off + src.length) = off + src.length by omega]
      rw [hput.same]
    · rw [hput.rest]
      simp only [update_self]
  · rename_i hgrow
    rw [hsize] at hgrow
    have hle : off + src.length ≤ d.size := by omega
    obtain rfl : d₁ = d := hput.keep fun bn ⟨k, hk, he⟩ => hd bn (by simp) (by
      have := Nat.div_mul_le_self (off + k) bsize
      rw [he] at this
      omega)
    have hinode : s₁.inode = s.inode := by rw [hput.rest]
    refine hk d₁ s₁ ⟨hput.owned, hput.byte, fun bn _ hlt => hpres bn (by omega), ?_, fun e => by rw [hinode]; exact e, ?_, hput.others⟩ hr
    · rw [show max d₁.size (off + src.length) = d₁.size by omega]
    · rw [hinode, update_eq_self]
      exact hput.rest

end Write

end Xv6.Fs.Contents
