/-
  Xv6.Fs.Blocks — which blocks an inode has, and what the functions of `Fs.Store` do to
  them while its lock is held.

  An inode names blocks in `addrs[0..NDIRECT)`, in `addrs[NDIRECT]` and in the entries of
  the indirect block (`Slot`). A thread that holds an inode's lock owns the inode on disk
  and its blocks (`Cell`), and `spec` says what each action does to them: `balloc` adds a
  free block, `bfree` takes a block of the inode away. The copy the code works on can be
  ahead of the disk, so `Mem` relates the blocks to the copy and `Tidy` to the disk.

  Each function's `wp_` lemma says that it needs and leaves the inode's blocks in order;
  `Fs.BlockSafety` puts the threads together.
-/

import Xv6.Fs.Store

namespace Xv6.Fs.Blocks

open Xv6.Lib Prog Function List

variable {P : Type} (sb : Superblock)

/-! ## Consistency -/

def Area (b : Nat) : Prop := sb.nmeta ≤ b ∧ b < sb.size

/-- Where an inode has a block number: in `addrs`, or in its indirect block. -/
inductive Slot where
  | direct (j : Fin ndirect)
  | ind
  | entry (j : Fin nindirect)
  deriving DecidableEq

def ptr (d : Dinode) (m : Nat → Block) : Slot → Nat
  | .direct j => d.addrs (direct j)
  | .ind => d.addrs indirect
  | .entry j => if d.addrs indirect = 0 then 0 else word (m (d.addrs indirect)) j

/-- Where the number of a file's `bn`th block is. -/
def slotOf (bn : Nat) : Option Slot :=
  if h : bn < ndirect then some (.direct ⟨bn, h⟩)
  else if h : bn - ndirect < nindirect then some (.entry ⟨bn - ndirect, h⟩)
  else none

def blockAt (d : Dinode) (m : Nat → Block) (bn : Nat) : Nat := ((slotOf bn).map (ptr d m)).getD 0

/-- The blocks a file of its size has. -/
def nblk (d : Dinode) : Nat := (d.size + bsize - 1) / bsize

/-- The file has its first `n` blocks and no others. -/
def Full (d : Dinode) (m : Nat → Block) (n : Nat) : Prop := ∀ bn, blockAt d m bn ≠ 0 ↔ bn < n

/-- Inode and slot `x` refer to `b`. -/
def Refers (s : Store P) (b : Nat) (x : Nat × Slot) : Prop :=
  (s.inode x.1).type ≠ none ∧ ptr (s.inode x.1) s.data x.2 = b

structure BlockConsistent (s : Store P) : Prop where
  reserved : ∀ b, b < sb.nmeta → s.bitmap b = true
  marked : ∀ b, Area sb b → (s.bitmap b = true ↔ ∃! x, Refers s b x)
  unmarked : ∀ b, s.bitmap b = false → ∀ x, ¬ Refers s b x
  full : ∀ i, Full (s.inode i) s.data (nblk (s.inode i))

structure Consistent (s : Store P) : Prop where
  reserved : ∀ b, b < sb.nmeta → s.bitmap b = true
  marked : ∀ b, Area sb b → (s.bitmap b = true ↔ ∃! x, Refers s b x)
  unmarked : ∀ b, s.bitmap b = false → ∀ x, ¬ Refers s b x
  full : ∀ i, (s.inode i).type ≠ none → Full (s.inode i) s.data (nblk (s.inode i))
  area : ∀ b x, Refers s b x → b ≠ 0 → Area sb b

/-! ## What an operation owns -/

/-- A locked inode: what is on disk, and its blocks. -/
structure Cell where
  disk : Dinode
  blk : Nat → Option Block

def Cell.view (c : Cell) (b : Nat) : Block := (c.blk b).getD zeroBlock

def Cell.put (c : Cell) (b : Nat) (v : Block) : Cell := { c with blk := Function.update c.blk b (some v) }

def Cell.del (c : Cell) (b : Nat) : Cell := { c with blk := Function.update c.blk b none }

inductive Hold where
  | out
  /-- Locked; the inode is as its own. -/
  | bare
  /-- Locked; type 0 is on disk and `valid` not cleared yet. -/
  | zeroed
  | cell (c : Cell)

abbrev Held := Nat → Hold

def Refs (d : Dinode) (m : Nat → Block) (b : Nat) : Prop := b ≠ 0 ∧ ∃ x, ptr d m x = b

def Inj (d : Dinode) (m : Nat → Block) : Prop := ∀ x y, ptr d m x ≠ 0 → ptr d m x = ptr d m y → x = y

/-- The copy `d` refers to each of the cell's blocks once and to no other. -/
structure Mem (d : Dinode) (c : Cell) : Prop where
  inj : Inj d c.view
  own : ∀ b, (c.blk b).isSome ↔ Refs d c.view b

/-- What is on disk is in order. -/
structure Tidy (c : Cell) : Prop where
  mem : Mem c.disk c
  full : Full c.disk c.view (nblk c.disk)

/-- What each action needs of an operation's locked inodes and makes of them. -/
def spec (_ : P) : (a : Act) → Held → (a.Res → Held → Prop) → Prop
  | .mark ip _, r, Q => ∃ c, r ip = .cell c ∧ Q none r ∧
    ∀ b v, Area sb b → c.blk b = none → Q (some b) (Function.update r ip (.cell (c.put b v)))
  | .bzero ip b, r, Q => ∃ c, r ip = .cell c ∧ (c.blk b).isSome ∧ Q () (Function.update r ip (.cell (c.put b zeroBlock)))
  | .bfree ip b, r, Q => ∃ c, r ip = .cell c ∧ (c.blk b).isSome ∧ Q () (Function.update r ip (.cell (c.del b)))
  | .bread ip b, r, Q => ∃ c v, r ip = .cell c ∧ c.blk b = some v ∧ Q v r
  | .bwrite ip b v, r, Q => ∃ c, r ip = .cell c ∧ (c.blk b).isSome ∧ Q () (Function.update r ip (.cell (c.put b v)))
  | .acquiresleep i, r, Q => r i = .out → Q () (Function.update r i .bare)
  | .releasesleep i, r, Q => (r i = .bare ∨ ∃ c, r i = .cell c ∧ Tidy c) ∧ Q () (Function.update r i .out)
  | .load i, r, Q => r i = .bare ∧
    ∀ c : Cell, c.disk.type ≠ none → Tidy c → Q c.disk (Function.update r i (.cell c))
  | .cached i, r, Q => r i = .bare ∧ Q none r ∧
    ∀ c : Cell, c.disk.type ≠ none → Tidy c → Q (some c.disk) (Function.update r i (.cell c))
  | .iupdate i d, r, Q => ∃ c, r i = .cell c ∧
    (d.type ≠ none → Q () (Function.update r i (.cell { c with disk := d }))) ∧
    (d.type = none → (∀ b, c.blk b = none) ∧ Q () (Function.update r i .zeroed))
  | .invalidate i, r, Q => r i = .zeroed ∧ Q () (Function.update r i .bare)
  | .claim _ _, r, Q => Q true r ∧ Q false r
  | .iget _, r, Q => Q () r
  | .sample _, r, Q => ∀ n, Q n r
  | .unref _, r, Q => Q () r
  | .panic m, _, _ => m ≠ .freeingFree

theorem spec_mono : Monotone (spec (P := P) sb) := by
  intro p a r Q Q' hQ h
  cases a <;> simp only [spec] at h ⊢
  case iupdate i d =>
    obtain ⟨c, hc, h⟩ := h
    exact ⟨c, hc, by grind⟩
  all_goals grind

/-! ## Block numbers -/

variable {sb}

variable {b : Nat}

theorem Area.ne_zero (h : Area sb b) : b ≠ 0 := by
  have := sb.hmeta
  have := h.1
  unfold Superblock.nmeta at this
  omega

theorem Area.word (h : Area sb b) : b < 2 ^ 32 := lt_trans h.2 sb.hsize

variable {d : Dinode} {m m' : Nat → Block}

theorem ptr_congr (h : d.addrs indirect ≠ 0 → m (d.addrs indirect) = m' (d.addrs indirect)) : ptr d m = ptr d m' := by
  funext x
  cases x with
  | entry j =>
    by_cases e : d.addrs indirect = 0
    · simp [ptr, e]
    · simp [ptr, h e]
  | _ => rfl

theorem direct_ne_indirect (j : Fin ndirect) : direct j ≠ indirect := by
  simp [direct, indirect, Fin.ext_iff, Fin.val_last]
  omega

theorem direct_inj {j j' : Fin ndirect} : direct j = direct j' ↔ j = j' := by
  simp [direct]

@[simp] theorem put_blk_self (c : Cell) (b : Nat) (v : Block) : (c.put b v).blk b = some v := by simp [Cell.put]

theorem put_blk_ne (c : Cell) {a : Nat} (v : Block) (h : a ≠ b) : (c.put b v).blk a = c.blk a := by simp [Cell.put, h]

@[simp] theorem put_view_self (c : Cell) (b : Nat) (v : Block) : (c.put b v).view b = v := by simp [Cell.view]

theorem put_view_ne (c : Cell) {a : Nat} (v : Block) (h : a ≠ b) : (c.put b v).view a = c.view a := by
  simp [Cell.view, put_blk_ne c v h]

@[simp] theorem put_put (c : Cell) (b : Nat) (v w : Block) : (c.put b v).put b w = c.put b w := by simp [Cell.put]

variable {c : Cell}

theorem blk_view (h : (c.blk b).isSome) : c.blk b = some (c.view b) := by
  obtain ⟨v, hv⟩ := Option.isSome_iff_exists.mp h
  simp [Cell.view, hv]

theorem put_isSome (c : Cell) (a b : Nat) (v : Block) : ((c.put b v).blk a).isSome ↔ a = b ∨ (c.blk a).isSome := by
  by_cases e : a = b <;> simp [Cell.put, e]

theorem del_isSome (c : Cell) (a b : Nat) : ((c.del b).blk a).isSome ↔ a ≠ b ∧ (c.blk a).isSome := by
  by_cases e : a = b <;> simp [Cell.del, e]

variable {x : Slot}

theorem Mem.ptr_own (h : Mem d c) (hx : ptr d c.view x ≠ 0) :
    (c.blk (ptr d c.view x)).isSome := (h.own _).mpr ⟨hx, x, rfl⟩

theorem Mem.fresh (h : Mem d c) (hb : c.blk b = none) (h0 : b ≠ 0) (x : Slot) : ptr d c.view x ≠ b := by
  intro e
  have := h.ptr_own (x := x) (by rw [e]; exact h0)
  rw [e, hb] at this
  cases this

/-- A new block goes to a slot that had none. -/
theorem Mem.alloc {d' : Dinode} {c' : Cell} (h : Mem d c) (hx : ptr d c.view x = 0)
    (hb : c.blk b = none) (h0 : b ≠ 0) (hp : ptr d' c'.view = update (ptr d c.view) x b)
    (hc : ∀ a, (c'.blk a).isSome ↔ a = b ∨ (c.blk a).isSome) : Mem d' c' := by
  have hf := h.fresh hb h0
  refine ⟨fun y z hy hyz => ?_, fun a => ?_⟩
  · rw [hp] at hy hyz
    have := h.inj y z
    grind [update_apply]
  · rw [hc, h.own, Refs, Refs, hp]
    refine ⟨fun ha => ?_, fun ⟨ha, y, hy⟩ => by grind [update_apply]⟩
    rcases ha with rfl | ⟨ha, y, hy⟩
    · exact ⟨h0, x, update_self x _ _⟩
    · exact ⟨ha, y, by grind [update_apply]⟩

/-- Writing a block that is not the indirect block changes no block number. -/
theorem Mem.write (h : Mem d c) (hb : (c.blk b).isSome) (hi : b ≠ d.addrs indirect)
    (v : Block) : ptr d (c.put b v).view = ptr d c.view ∧ Mem d (c.put b v) := by
  have hp : ptr d (c.put b v).view = ptr d c.view := ptr_congr fun _ => put_view_ne c v (Ne.symm hi)
  refine ⟨hp, ?_, fun a => ?_⟩
  · rw [Inj, hp]; exact h.inj
  · rw [put_isSome, Refs, hp, ← Refs, ← h.own]
    grind

theorem blockAt_some {bn : Nat} (h : slotOf bn = some x) (d : Dinode) (m : Nat → Block) :
    blockAt d m bn = ptr d m x := by simp [blockAt, h]

theorem slotOf_inj {bn bn' : Nat} (h : slotOf bn = some x) (h' : slotOf bn' = some x) : bn = bn' := by
  grind [slotOf]

theorem slotOf_ne_ind (bn : Nat) : slotOf bn ≠ some .ind := by
  grind [slotOf]

/-- Block `bn` of a file with `nb` blocks is added at its end. -/
theorem Full.alloc {d' : Dinode} {nb : Nat} (h : Full d m nb)
    (hs : slotOf nb = some x) (h0 : b ≠ 0) (hp : ptr d' m' = update (ptr d m) x b) : Full d' m' (nb + 1) := by
  intro bn
  by_cases e : bn = nb
  · subst e
    rw [blockAt_some hs, hp, update_self]
    simp [h0]
  · have : blockAt d' m' bn = blockAt d m bn := by
      cases hx : slotOf bn with
      | none => simp [blockAt, hx]
      | some y =>
        have : y ≠ x := by rintro rfl; exact e (slotOf_inj hx hs)
        rw [blockAt_some hx, blockAt_some hx, hp, update_of_ne this]
    rw [this, h bn]
    omega

theorem ptr_setAddr {j : Fin ndirect} : ptr (d.setAddr (direct j) b) m = update (ptr d m) (.direct j) b := by
  have hi : (d.setAddr (direct j) b).addrs indirect = d.addrs indirect := by
    simp [Dinode.setAddr, Ne.symm (direct_ne_indirect j)]
  funext x
  cases x with
  | direct j' => by_cases e : j' = j <;> simp [ptr, Dinode.setAddr, direct_inj, e]
  | ind => simp [ptr, hi]
  | entry j' => simp [ptr, hi]

theorem word_zero (j : Nat) : word zeroBlock j = 0 := by
  have : ∀ k, byteAt zeroBlock k = 0 := by intro k; unfold byteAt; split <;> simp [zeroBlock]
  simp [word, this]

/-- A new, zeroed indirect block has no entries. -/
theorem ptr_setIndirect (h : d.addrs indirect = 0) (hm : m b = zeroBlock) :
    ptr (d.setAddr indirect b) m = update (ptr d m) .ind b := by
  have hi : (d.setAddr indirect b).addrs indirect = b := by simp [Dinode.setAddr]
  funext x
  cases x with
  | direct j => simp [ptr, Dinode.setAddr, direct_ne_indirect]
  | ind => simp [ptr, hi]
  | entry j => simp [ptr, hi, hm, h, word_zero]

theorem ptr_setEntry {j : Fin nindirect} (h : d.addrs indirect ≠ 0)
    (hb : b < 2 ^ 32) (hm : m' (d.addrs indirect) = setWord (m (d.addrs indirect)) j b) :
    ptr d m' = update (ptr d m) (.entry j) b := by
  funext x
  cases x with
  | direct j' | ind => rw [update_of_ne (by simp)]; rfl
  | entry j' =>
    have h1 := word_setWord_same (m (d.addrs indirect)) j.isLt hb
    have h2 := word_setWord_ne (m (d.addrs indirect)) b (i := j) (j := j')
    by_cases e : j' = j
    · simp [ptr, h, hm, e, h1]
    · simp [ptr, h, hm, e, h2 fun e' => e (Fin.ext e')]

/-! ## Contents -/

section Wp

variable {p : P} {ip : Nat} {r : Held} {c : Cell} {d : Dinode}

variable {b bn nb n off i : Nat} {Q : α → Held → Prop}

theorem wp_bread {f : Block → M α} (hr : r ip = .cell c) (hb : (c.blk b).isSome)
    (h : wp (spec sb) p (f (c.view b)) Q r) : wp (spec sb) p (bread ip b >>= f) Q r :=
  ⟨c, c.view b, hr, blk_view hb, h⟩

variable {f : Unit → M α}

theorem wp_bwrite {v : Block} (hr : r ip = .cell c)
    (hb : (c.blk b).isSome) (h : wp (spec sb) p (f ()) Q (update r ip (.cell (c.put b v)))) :
    wp (spec sb) p (bwrite ip b v >>= f) Q r :=
  ⟨c, hr, hb, h⟩

theorem wp_bfree (hr : r ip = .cell c) (hb : (c.blk b).isSome)
    (h : wp (spec sb) p (f ()) Q (update r ip (.cell (c.del b)))) : wp (spec sb) p (bfree ip b >>= f) Q r :=
  ⟨c, hr, hb, h⟩

theorem wp_iupdate {d' : Dinode} (hr : r ip = .cell c) (ht : d'.type ≠ none)
    (h : wp (spec sb) p (f ()) Q (update r ip (.cell { c with disk := d' }))) :
    wp (spec sb) p (iupdate ip d' >>= f) Q r :=
  ⟨c, hr, fun _ => h, fun e => absurd e ht⟩

theorem wp_panic {m : Panic} (h : m ≠ .freeingFree) : wp (spec sb) p (panic m) Q r := h

theorem wp_balloc {Q : Nat → Held → Prop} (hr : r ip = .cell c)
    (hQ : ∀ b, Area sb b → c.blk b = none → Q b (update r ip (.cell (c.put b zeroBlock)))) :
    wp (spec sb) p (balloc sb ip) Q r := by
  unfold balloc
  induction range ((sb.size + bpb - 1) / bpb) with
  | nil => exact wp_panic (by decide)
  | cons j js ih =>
    refine ⟨c, hr, ih, fun b v hb hn => ?_⟩
    refine ⟨c.put b v, by simp, by simp, ?_⟩
    rw [update_idem, put_put]
    exact hQ b hb hn

/-- What `bmap` makes of a file with `nb` blocks. -/
structure Mapped (d : Dinode) (c : Cell) (nb bn b : Nat) (d' : Dinode) (c' : Cell) : Prop where
  mem : Mem d' c'
  full : Full d' c'.view (max nb (bn + 1))
  at_ : blockAt d' c'.view bn = b
  ne : b ≠ 0
  same : d' = { d with addrs := d'.addrs }
  disk : c'.disk = c.disk
  keep : bn < nb → d' = d ∧ c' = c

theorem Mapped.old (hm : Mem d c) (hf : Full d c.view nb) (hbn : bn < nb) :
    Mapped d c nb bn (blockAt d c.view bn) d c :=
  ⟨hm, by rw [Nat.max_eq_left (by omega)]; exact hf, rfl, (hf bn).mpr hbn, rfl, rfl, fun _ => ⟨rfl, rfl⟩⟩

theorem wp_ensureDirect {j : Fin ndirect} {Q : Nat × Dinode → Held → Prop} (hr : r ip = .cell c)
    (hm : Mem d c) (hf : Full d c.view nb) (hbn : j.val ≤ nb)
    (hQ : ∀ b d' c', Mapped d c nb j b d' c' → Q (b, d') (update r ip (.cell c'))) :
    wp (spec sb) p (ensureAddr sb ip d (direct j)) Q r := by
  have hs : slotOf j = some (.direct j) := by simp [slotOf]
  have hb : blockAt d c.view j = d.addrs (direct j) := blockAt_some hs d c.view
  unfold ensureAddr
  split
  · rename_i h0
    have hjn : j.val = nb := by
      have : ¬ j.val < nb := fun h => ((hf j).mpr h) (hb.trans h0)
      omega
    refine wp_bind (spec_mono sb) (wp_balloc hr fun b hb hn => ?_)
    have hp : ptr (d.setAddr (direct j) b) (c.put b zeroBlock).view = update (ptr d c.view) (.direct j) b := by
      rw [ptr_setAddr, (ptr_congr fun hi => ?_ : ptr d (c.put b zeroBlock).view = ptr d c.view)]
      exact put_view_ne c _ (hm.fresh hn hb.ne_zero .ind)
    refine hQ b _ _ ⟨hm.alloc (x := .direct j) h0 hn hb.ne_zero hp (fun a => put_isSome c a b _), ?_, ?_, hb.ne_zero, rfl,
      rfl, fun h => ?_⟩
    · rw [show max nb (j.val + 1) = nb + 1 by omega]
      exact hf.alloc (by rw [← hjn]; exact hs) hb.ne_zero hp
    · rw [blockAt_some hs, hp, update_self]
    · omega
  · rename_i h0
    have hjn : j.val < nb := (hf j).mp (by rw [hb]; exact h0)
    have := hQ _ _ _ (Mapped.old hm hf hjn)
    rw [hb] at this
    rwa [← hr, update_eq_self] at this

/-- The indirect block is there, or is allocated and has no entries. -/
theorem wp_ensureIndirect {Q : Nat × Dinode → Held → Prop} (hr : r ip = .cell c) (hm : Mem d c)
    (hQ : ∀ b d' c', Mem d' c' → d'.addrs indirect = b → b ≠ 0 → d' = { d with addrs := d'.addrs } → c'.disk = c.disk →
      (∀ bn, blockAt d' c'.view bn = blockAt d c.view bn) → (d.addrs indirect ≠ 0 → d' = d ∧ c' = c) →
      Q (b, d') (update r ip (.cell c'))) :
    wp (spec sb) p (ensureAddr sb ip d indirect) Q r := by
  unfold ensureAddr
  split
  · rename_i h0
    refine wp_bind (spec_mono sb) (wp_balloc hr fun b hb hn => ?_)
    have hp : ptr (d.setAddr indirect b) (c.put b zeroBlock).view = update (ptr d c.view) .ind b := by
      rw [ptr_setIndirect h0 (put_view_self c b zeroBlock),
        (ptr_congr fun hi => absurd h0 hi : ptr d (c.put b zeroBlock).view = ptr d c.view)]
    refine hQ b _ _ (hm.alloc (x := .ind) h0 hn hb.ne_zero hp (fun a => put_isSome c a b _)) (by simp [Dinode.setAddr])
      hb.ne_zero rfl rfl (fun bn => ?_) (fun h => absurd h0 h)
    cases hs : slotOf bn with
    | none => simp [blockAt, hs]
    | some x =>
      have : x ≠ .ind := fun e => slotOf_ne_ind bn (e ▸ hs)
      rw [blockAt_some hs, blockAt_some hs, hp, update_of_ne this]
  · rename_i h0
    have := hQ _ _ _ hm rfl h0 rfl rfl (fun _ => rfl) (fun _ => ⟨rfl, rfl⟩)
    rwa [← hr, update_eq_self] at this

theorem wp_bmap {Q : Nat × Dinode → Held → Prop} (hr : r ip = .cell c) (hm : Mem d c)
    (hf : Full d c.view nb) (hbn : bn ≤ nb)
    (hQ : ∀ b d' c', Mapped d c nb bn b d' c' → Q (b, d') (update r ip (.cell c'))) :
    wp (spec sb) p (bmap sb ip d bn) Q r := by
  unfold bmap
  split
  · rename_i h
    exact wp_ensureDirect (j := ⟨bn, h⟩) hr hm hf hbn hQ
  · rename_i h
    split
    · rename_i h'
      have hs : slotOf bn = some (.entry ⟨bn - ndirect, h'⟩) := by simp [slotOf, h, h']
      refine wp_bind (spec_mono sb) (wp_ensureIndirect hr hm fun i d₁ c₁ hm₁ hi hi0 hd₁ hc₁ hb₁ hkeep => ?_)
      have hown : (c₁.blk i).isSome := hi ▸ hm₁.ptr_own (x := .ind) (by rw [← hi] at hi0; exact hi0)
      have hword : word (c₁.view i) (bn - ndirect) = blockAt d c.view bn := by
        rw [← hb₁, blockAt_some hs]
        simp [ptr, hi, hi0]
      refine wp_bread (c := c₁) (by simp) hown ?_
      split
      · rename_i h0
        have hbn' : bn = nb := by
          have : ¬ bn < nb := fun hlt => ((hf bn).mpr hlt) (hword ▸ h0)
          omega
        refine wp_bind (spec_mono sb) (wp_balloc (c := c₁) (by simp) fun b hb hn => ?_)
        have hbi : i ≠ b := fun e => by rw [e, hn] at hown; cases hown
        refine wp_bwrite (c := c₁.put b zeroBlock) (by simp) (by rw [put_isSome]; exact Or.inr hown) ?_
        rw [update_idem, update_idem]
        have hp : ptr d₁ ((c₁.put b zeroBlock).put i (setWord (c₁.view i) (bn - ndirect) b)).view =
            update (ptr d₁ c₁.view) (.entry ⟨bn - ndirect, h'⟩) b :=
          ptr_setEntry (by rw [hi]; exact hi0) hb.word (by rw [hi, put_view_self])
        have hx : ptr d₁ c₁.view (.entry ⟨bn - ndirect, h'⟩) = 0 := by
          rw [← blockAt_some hs, hb₁, ← hword]; exact h0
        have hf₁ : Full d₁ c₁.view nb := fun k => by rw [hb₁]; exact hf k
        refine hQ b d₁ _ ⟨hm₁.alloc hx hn hb.ne_zero hp (fun a => ?_), ?_, ?_, hb.ne_zero, hd₁, hc₁, fun hlt => ?_⟩
        · rw [put_isSome, put_isSome]
          grind
        · rw [show max nb (bn + 1) = nb + 1 by omega]
          exact hf₁.alloc (by rw [← hbn']; exact hs) hb.ne_zero hp
        · rw [blockAt_some hs, hp, update_self]
        · omega
      · rename_i h0
        have hlt : bn < nb := (hf bn).mp (hword ▸ h0)
        have hind : d.addrs indirect ≠ 0 := by
          intro e
          apply h0
          rw [hword, blockAt_some hs]
          simp [ptr, e]
        obtain ⟨rfl, rfl⟩ := hkeep hind
        rw [hword]
        exact hQ _ _ _ (Mapped.old hm hf hlt)
    · exact wp_panic (by decide)

theorem Mapped.owned {d' : Dinode} {c' : Cell} (h : Mapped d c nb bn b d' c') :
    (c'.blk b).isSome ∧ b ≠ d'.addrs indirect := by
  have hne := h.ne
  rw [← h.at_] at hne ⊢
  cases hs : slotOf bn with
  | none => simp [blockAt, hs] at hne
  | some x =>
    rw [blockAt_some hs] at hne ⊢
    refine ⟨h.mem.ptr_own hne, fun e => slotOf_ne_ind bn (hs.trans (congrArg some ?_))⟩
    exact h.mem.inj x .ind hne e

/-- Reading a file where it has blocks changes nothing. -/
theorem wp_readLoop (hr : r ip = .cell c) (hm : Mem d c) (hf : Full d c.view nb) (fuel : Nat) :
    ∀ off n, off + n ≤ nb * bsize →
      wp (spec sb) p (readLoop sb ip fuel d off n) (fun x r' => x.2 = d ∧ r' = r) r := by
  induction fuel with
  | zero => exact fun _ _ _ => ⟨rfl, rfl⟩
  | succ fuel ih =>
    intro off n hle
    unfold readLoop
    split
    · exact ⟨rfl, rfl⟩
    · rename_i hn
      have hbn : off / bsize < nb := Nat.div_lt_of_lt_mul (by rw [Nat.mul_comm]; omega)
      refine wp_bind (spec_mono sb) (wp_bmap hr hm hf (Nat.le_of_lt hbn) fun b d' c' h => ?_)
      obtain ⟨rfl, rfl⟩ := h.keep hbn
      rw [← hr, update_eq_self]
      refine wp_bread hr h.owned.1 (wp_bind (spec_mono sb) ?_)
      exact wp_mono (spec_mono sb) (ih _ _ (by omega)) fun x r' hx => hx

theorem nblk_le (d : Dinode) : d.size ≤ nblk d * bsize := by
  unfold nblk bsize
  omega

variable {dev : Devsw}

theorem wp_readi {Q : Option (List UInt8) × Dinode → Held → Prop} (hr : r ip = .cell c)
    (hm : Mem d c) (hf : Full d c.view (nblk d)) (hlt : off + n < 2 ^ 32) (hQ : ∀ o, Q (o, d) r) :
    wp (spec sb) p (readi sb dev ip d off n) Q r := by
  unfold readi
  rw [Nat.mod_eq_of_lt hlt]
  split
  · split <;> exact hQ _
  · split
    · exact hQ _
    · rename_i hoff
      refine wp_bind (spec_mono sb) (wp_mono (spec_mono sb) (wp_readLoop hr hm hf _ _ _ ?_) fun x r' hx => ?_)
      · refine le_trans ?_ (nblk_le d)
        split <;> omega
      · obtain ⟨h1, rfl⟩ := hx
        rw [h1]
        exact hQ _

theorem Full.le {m : Nat → Block} (h : Full d m n) : n ≤ maxFile := by
  by_contra hlt
  have hb := (h maxFile).mpr (by omega)
  have : slotOf maxFile = none := by decide
  simp [blockAt, this] at hb

theorem offsets_lt {m : Nat → Block} (hf : Full d m (nblk d)) (h : off ∈ offsets d) : off + direntSize < 2 ^ 32 := by
  obtain ⟨k, hk, rfl⟩ := mem_map.mp h
  rw [mem_range] at hk
  have h1 := nblk_le d
  have h2 := hf.le
  unfold maxFile ndirect nindirect bsize at *
  unfold direntSize at *
  omega

theorem wp_lookupFrom {name : List UInt8} {Q : Option (Nat × Nat) × Dinode → Held → Prop}
    (hr : r ip = .cell c) (hm : Mem d c) (hf : Full d c.view (nblk d)) (hQ : ∀ o, Q (o, d) r) (offs : List Nat)
    (hl : ∀ off ∈ offs, off + direntSize < 2 ^ 32) : wp (spec sb) p (lookupFrom sb dev ip name offs d) Q r := by
  induction offs with
  | nil => exact hQ none
  | cons off offs ih =>
    refine wp_bind (spec_mono sb) (wp_readi hr hm hf (hl off mem_cons_self) fun o => ?_)
    cases o with
    | none => exact wp_panic (by decide)
    | some de =>
      dsimp only
      split
      · exact wp_panic (by decide)
      · split
        · exact hQ _
        · exact ih fun off' h => hl off' (mem_cons_of_mem _ h)

theorem wp_dirlookup {name : List UInt8} {Q : Option (Nat × Nat) × Dinode → Held → Prop}
    (hr : r ip = .cell c) (hm : Mem d c) (hf : Full d c.view (nblk d)) (hQ : ∀ o, Q (o, d) r) :
    wp (spec sb) p (dirlookup sb dev ip d name) Q r := by
  unfold dirlookup
  split
  · exact wp_panic (by decide)
  · exact wp_lookupFrom hr hm hf hQ _ fun off h => offsets_lt hf h

theorem wp_emptyFrom {eof : Nat} {Q : Nat × Dinode → Held → Prop}
    (hr : r ip = .cell c) (hm : Mem d c) (hf : Full d c.view (nblk d)) (hQ : ∀ off, Q (off, d) r) (offs : List Nat)
    (hl : ∀ off ∈ offs, off + direntSize < 2 ^ 32) : wp (spec sb) p (emptyFrom sb dev ip eof offs d) Q r := by
  induction offs with
  | nil => exact hQ eof
  | cons off offs ih =>
    refine wp_bind (spec_mono sb) (wp_readi hr hm hf (hl off mem_cons_self) fun o => ?_)
    cases o with
    | none => exact wp_panic (by decide)
    | some de =>
      dsimp only
      split
      · exact wp_panic (by decide)
      · split
        · exact hQ _
        · exact ih fun off' h => hl off' (mem_cons_of_mem _ h)

theorem div_lt_up (off : Nat) (h : 0 < n) : off / bsize + 1 ≤ (off + n + bsize - 1) / bsize := by
  unfold bsize
  omega

theorem up_le : (off + bsize - 1) / bsize ≤ nb ↔ off ≤ nb * bsize := by
  unfold bsize
  omega

/-- What writing up to `off'` makes of a file with `nb` blocks. -/
structure Written (d : Dinode) (c : Cell) (nb off' : Nat) (d' : Dinode) (c' : Cell) : Prop where
  mem : Mem d' c'
  full : Full d' c'.view (max nb ((off' + bsize - 1) / bsize))
  same : d' = { d with addrs := d'.addrs }
  disk : c'.disk = c.disk
  keep : off' ≤ nb * bsize → d' = d

theorem wp_writeLoop {Q : Dinode → Held → Prop} (fuel : Nat) : ∀ {r : Held} {c : Cell} {d : Dinode} {nb : Nat}
    (src : List UInt8) (off : Nat), r ip = .cell c → Mem d c → Full d c.view nb → off ≤ nb * bsize → src.length ≤ fuel →
    (∀ d' c', Written d c nb (off + src.length) d' c' → Q d' (update r ip (.cell c'))) →
    wp (spec sb) p (writeLoop sb ip fuel d src off) Q r := by
  have stop : ∀ {r : Held} {c : Cell} {d : Dinode} {nb off : Nat} {src : List UInt8}, r ip = .cell c → Mem d c →
      Full d c.view nb → off ≤ nb * bsize → src.length = 0 →
      (∀ d' c', Written d c nb (off + src.length) d' c' → Q d' (update r ip (.cell c'))) → Q d r := by
    intro r c d nb off src hr hm hf hoff h0 hQ
    have hle : (off + bsize - 1) / bsize ≤ nb := up_le.mpr hoff
    have := hQ d c ⟨hm, by rw [h0, Nat.add_zero, Nat.max_eq_left hle]; exact hf, rfl, rfl, fun _ => rfl⟩
    rwa [← hr, update_eq_self] at this
  induction fuel with
  | zero =>
    intro r c d nb src off hr hm hf hoff hlen hQ
    exact stop hr hm hf hoff (by omega) hQ
  | succ fuel ih =>
    intro r c d nb src off hr hm hf hoff hlen hQ
    unfold writeLoop
    split
    · exact stop hr hm hf hoff (by assumption) hQ
    · rename_i hne
      have hbn : off / bsize ≤ nb := Nat.div_le_of_le_mul (by rw [Nat.mul_comm]; exact hoff)
      refine wp_bind (spec_mono sb) (wp_bmap hr hm hf hbn fun b d₁ c₁ h => ?_)
      obtain ⟨hown, hni⟩ := h.owned
      refine wp_bread (c := c₁) (by simp) hown (wp_bwrite (c := c₁) (by simp) hown ?_)
      rw [update_idem]
      obtain ⟨hp, hm₂⟩ := h.mem.write hown hni (patch (c₁.view b) (off % bsize)
        (src.take (min src.length (bsize - off % bsize))))
      have hf₂ : Full d₁ (c₁.put b (patch (c₁.view b) (off % bsize)
          (src.take (min src.length (bsize - off % bsize))))).view (max nb (off / bsize + 1)) := by
        intro k
        rw [blockAt, hp]
        exact h.full k
      refine ih _ _ (by simp) hm₂ hf₂ ?_ ?_ fun d' c' hw => ?_
      · have h1 : off + min src.length (bsize - off % bsize) ≤ (off / bsize + 1) * bsize := by unfold bsize; omega
        exact le_trans h1 (Nat.mul_le_mul_right _ (le_max_right _ _))
      · rw [length_drop]
        have : 0 < bsize - off % bsize := by unfold bsize; omega
        omega
      · rw [update_idem]
        have hlen' : off + min src.length (bsize - off % bsize) + (src.drop (min src.length (bsize - off % bsize))).length =
            off + src.length := by rw [length_drop]; omega
        rw [hlen'] at hw
        refine hQ d' c' ⟨hw.mem, ?_, ?_, hw.disk.trans h.disk, fun hle => ?_⟩
        · have hfull := hw.full
          rwa [max_assoc, Nat.max_eq_right (div_lt_up off (Nat.pos_of_ne_zero hne))] at hfull
        · rw [hw.same, h.same]
        · have hlt : off / bsize < nb := lt_of_lt_of_le (div_lt_up off (Nat.pos_of_ne_zero hne)) (up_le.mpr hle)
          rw [hw.keep (by rw [Nat.max_eq_left hlt]; exact hle), (h.keep hlt).1]

theorem wp_writei {src : List UInt8} {Q : Int × Dinode → Held → Prop} (hr : r ip = .cell c)
    (ht : Tidy c) (hty : c.disk.type ≠ none) (hQ : ∀ x c', Tidy c' → Q x (update r ip (.cell c'))) :
    wp (spec sb) p (writei sb dev ip c.disk src off) Q r := by
  have same : ∀ x, Q x r := by
    intro x
    have := hQ x c ht
    rwa [← hr, update_eq_self] at this
  unfold writei
  dsimp only
  split
  · split <;> exact same _
  · split
    · exact same _
    · rename_i hoff
      split
      · exact same _
      · have hle : off ≤ nblk c.disk * bsize := le_trans (by omega) (nblk_le c.disk)
        refine wp_bind (spec_mono sb) (wp_writeLoop _ _ _ hr ht.mem ht.full hle le_rfl fun d' c' hw => ?_)
        have hsize : d'.size = c.disk.size := by rw [hw.same]
        have htype : d'.type = c.disk.type := by rw [hw.same]
        split
        · rename_i hgrow
          refine wp_iupdate (c := c') (by simp) (by rw [htype]; exact hty) ?_
          rw [update_idem]
          refine hQ _ _ ⟨⟨hw.mem.inj, hw.mem.own⟩, ?_⟩
          have hn : nblk c.disk ≤ (off + src.length + bsize - 1) / bsize := by
            unfold nblk bsize
            omega
          have := hw.full
          rw [Nat.max_eq_right hn] at this
          exact this
        · rename_i hgrow
          have hle' : off + src.length ≤ nblk c.disk * bsize := le_trans (by omega) (nblk_le c.disk)
          have hd : d' = c'.disk := by rw [hw.keep hle', hw.disk]
          refine hQ _ _ ⟨hd ▸ hw.mem, ?_⟩
          have := hw.full
          rw [Nat.max_eq_left (up_le.mpr hle')] at this
          rwa [hd, ← hw.disk] at this

/-- Freeing a direct block. -/
theorem Mem.free {j : Fin ndirect} (h : Mem d c) :
    Mem (d.setAddr (direct j) 0) (c.del (d.addrs (direct j))) := by
  have hi : d.addrs indirect ≠ 0 → d.addrs indirect ≠ d.addrs (direct j) := by
    intro hi e
    cases h.inj .ind (.direct j) hi e
  have hp : ptr (d.setAddr (direct j) 0) (c.del (d.addrs (direct j))).view = update (ptr d c.view) (.direct j) 0 := by
    rw [ptr_setAddr, (ptr_congr fun hx => ?_ : ptr d (c.del (d.addrs (direct j))).view = ptr d c.view)]
    simp [Cell.view, Cell.del, hi hx]
  have hj : ptr d c.view (.direct j) = d.addrs (direct j) := rfl
  refine ⟨fun x y hx hxy => ?_, fun b => ?_⟩
  · rw [hp] at hx hxy
    have := h.inj x y
    grind [update_apply]
  · rw [del_isSome, h.own, Refs, Refs, hp]
    have := fun x => h.inj x (.direct j)
    refine ⟨fun ⟨hb, hb0, x, hx⟩ => ⟨hb0, x, by grind [update_apply]⟩, fun ⟨hb0, x, hx⟩ => ?_⟩
    exact ⟨by grind [update_apply], hb0, x, by grind [update_apply]⟩

theorem wp_truncDirect {Q : Dinode → Held → Prop} (js : List (Fin ndirect)) : ∀ {r : Held} {c : Cell} {d : Dinode},
    r ip = .cell c → Mem d c →
    (∀ d' c', Mem d' c' → (∀ j, d'.addrs (direct j) = if j ∈ js then 0 else d.addrs (direct j)) → d'.type = d.type →
      Q d' (update r ip (.cell c'))) →
    wp (spec sb) p (truncDirect ip js d) Q r := by
  induction js with
  | nil =>
    intro r c d hr hm hQ
    have := hQ d c hm (by simp) rfl
    rwa [← hr, update_eq_self] at this
  | cons j js ih =>
    intro r c d hr hm hQ
    unfold truncDirect
    split
    · rename_i h0
      refine wp_bfree hr (hm.ptr_own (x := .direct j) h0) (ih (by simp) (hm.free) fun d' c' hm' ha htype => ?_)
      rw [update_idem]
      refine hQ d' c' hm' (fun j' => ?_) htype
      rw [ha]
      by_cases e : j' = j <;> simp [Dinode.setAddr, direct_inj, e]
    · rename_i h0
      refine ih hr hm fun d' c' hm' ha htype => hQ d' c' hm' (fun j' => ?_) htype
      rw [ha]
      by_cases e : j' = j <;> simp [e, not_not.mp h0]

theorem wp_truncEntries {a : Block} {Q : Unit → Held → Prop} (js : List Nat) : ∀ {r : Held} {c : Cell},
    r ip = .cell c → js.Nodup → (∀ j ∈ js, word a j ≠ 0 → (c.blk (word a j)).isSome) →
    (∀ j ∈ js, ∀ j' ∈ js, word a j ≠ 0 → word a j = word a j' → j = j') →
    (∀ c', (∀ x, (c'.blk x).isSome ↔ (c.blk x).isSome ∧ ∀ j ∈ js, word a j = x → x = 0) →
      Q () (update r ip (.cell c'))) →
    wp (spec sb) p (truncEntries ip a js) Q r := by
  induction js with
  | nil =>
    intro r c hr _ _ _ hQ
    have := hQ c (by simp)
    rwa [← hr, update_eq_self] at this
  | cons j js ih =>
    intro r c hr hnd hown hinj hQ
    obtain ⟨hj, hnd⟩ := nodup_cons.mp hnd
    have hinj' : ∀ i ∈ js, ∀ i' ∈ js, word a i ≠ 0 → word a i = word a i' → i = i' := fun i hi i' hi' =>
      hinj i (mem_cons_of_mem _ hi) i' (mem_cons_of_mem _ hi')
    unfold truncEntries
    split
    · rename_i h0
      refine wp_bfree hr (hown j mem_cons_self h0) (ih (c := c.del (word a j)) (by simp) hnd
        (fun i hi hi0 => ?_) hinj' fun c' hc' => ?_)
      · rw [del_isSome]
        refine ⟨fun e => ?_, hown i (mem_cons_of_mem _ hi) hi0⟩
        exact hj (hinj i (mem_cons_of_mem _ hi) j mem_cons_self hi0 e ▸ hi)
      · rw [update_idem]
        refine hQ c' fun x => ?_
        rw [hc', del_isSome, forall_mem_cons]
        grind
    · rename_i h0
      refine ih hr hnd (fun i hi => hown i (mem_cons_of_mem _ hi)) hinj' fun c' hc' => hQ c' fun x => ?_
      rw [hc', forall_mem_cons]
      grind

theorem setIndirect_nil (hdir : ∀ j, d.addrs (direct j) = 0) : ∀ j, (d.setAddr indirect 0).addrs j = 0 := by
  refine Fin.lastCases (by simp [Dinode.setAddr, indirect]) fun j => ?_
  have hne : direct j ≠ indirect := (Fin.castSucc_lt_last j).ne
  show update d.addrs indirect 0 (direct j) = 0
  rw [update_of_ne hne]
  exact hdir j

theorem wp_truncIndirect {Q : Dinode → Held → Prop} (hr : r ip = .cell c) (hm : Mem d c)
    (hdir : ∀ j, d.addrs (direct j) = 0)
    (hQ : ∀ d' c', (∀ b, c'.blk b = none) → (∀ j, d'.addrs j = 0) → d'.type = d.type →
      Q d' (update r ip (.cell c'))) :
    wp (spec sb) p (truncIndirect ip d) Q r := by
  -- the blocks left are the indirect block and its entries
  have hleft : ∀ b, (c.blk b).isSome → b = d.addrs indirect ∨ ∃ j : Fin nindirect, ptr d c.view (.entry j) = b := by
    intro b hb
    obtain ⟨hb0, x, hx⟩ := (hm.own b).mp hb
    cases x with
    | direct j => exact absurd (hx.symm.trans (hdir j)) hb0
    | ind => exact Or.inl hx.symm
    | entry j => exact Or.inr ⟨j, hx⟩
  unfold truncIndirect
  split
  · rename_i h0
    have hind : (c.blk (d.addrs indirect)).isSome := hm.ptr_own (x := .ind) h0
    have hent : ∀ {j}, (hj : j ∈ range nindirect) →
        word (c.view (d.addrs indirect)) j = ptr d c.view (.entry ⟨j, mem_range.mp hj⟩) := by
      intro j hj
      simp [ptr, h0]
    refine wp_bread hr hind (wp_bind (spec_mono sb) ?_)
    refine wp_truncEntries _ hr nodup_range (fun j hj hj0 => ?_) (fun j hj j' hj' hj0 e => ?_) fun c₂ hc₂ => ?_
    · rw [hent hj] at hj0 ⊢
      exact hm.ptr_own hj0
    · rw [hent hj] at hj0 e
      rw [hent hj'] at e
      have := hm.inj _ _ hj0 e
      simpa using this
    · have hind₂ : (c₂.blk (d.addrs indirect)).isSome := by
        rw [hc₂]
        refine ⟨hind, fun j hj e => ?_⟩
        rw [hent hj] at e
        cases hm.inj _ .ind (by rw [e]; exact h0) e
      refine wp_bfree (c := c₂) (by simp) hind₂ ?_
      rw [update_idem]
      refine hQ _ _ (fun b => ?_) (setIndirect_nil hdir) rfl
      rw [← Option.not_isSome_iff_eq_none, del_isSome, hc₂]
      intro ⟨hb, hs, hall⟩
      rcases hleft b hs with e | ⟨j, hj⟩
      · exact hb e
      · have := hall j (mem_range.mpr j.isLt) (by rw [hent (mem_range.mpr j.isLt)]; exact hj)
        exact ((hm.own b).mp hs).1 this
  · rename_i h0
    have hnone : ∀ b, c.blk b = none := by
      intro b
      rw [← Option.not_isSome_iff_eq_none]
      intro hs
      have hb0 := ((hm.own b).mp hs).1
      rcases hleft b hs with e | ⟨j, hj⟩
      · exact hb0 (e.trans (not_not.mp h0))
      · rw [ptr, if_pos (not_not.mp h0)] at hj
        exact hb0 hj.symm
    have := hQ d c hnone (Fin.lastCases (not_not.mp h0) hdir) rfl
    rwa [← hr, update_eq_self] at this

/-- An inode without blocks. -/
theorem tidy_nil (hc : ∀ b, c.blk b = none) (ha : ∀ j, c.disk.addrs j = 0) (hs : c.disk.size = 0) : Tidy c := by
  have hp : ∀ x, ptr c.disk c.view x = 0 := by
    intro x
    cases x with
    | direct j => exact ha _
    | ind => exact ha _
    | entry j => exact if_pos (ha _)
  refine ⟨⟨fun x y hx => absurd (hp x) hx, fun b => ?_⟩, fun bn => ?_⟩
  · rw [hc]
    refine ⟨fun h => by simp at h, fun ⟨hb, x, hx⟩ => absurd ((hp x).symm.trans hx).symm hb⟩
  · have hb : blockAt c.disk c.view bn = 0 := by
      unfold blockAt
      cases slotOf bn with
      | none => rfl
      | some x => exact hp x
    simp [hb, nblk, hs, bsize]

/-- `itrunc` leaves the inode no blocks. -/
theorem wp_itrunc {Q : Dinode → Held → Prop} (hr : r ip = .cell c) (hm : Mem d c) (hty : d.type ≠ none)
    (hQ : ∀ d' c', (∀ b, c'.blk b = none) → Tidy c' → Q d' (update r ip (.cell c'))) :
    wp (spec sb) p (itrunc ip d) Q r := by
  refine wp_bind (spec_mono sb) (wp_truncDirect _ hr hm fun d₁ c₁ hm₁ hdir htype₁ => ?_)
  refine wp_bind (spec_mono sb) (wp_truncIndirect (c := c₁) (by simp) hm₁ (fun j => by rw [hdir]; simp)
    fun d₂ c₂ hc₂ haddrs htype₂ => ?_)
  refine wp_iupdate (c := c₂) (by simp) ?_ ?_
  · show d₂.type ≠ none
    rw [htype₂, htype₁]; exact hty
  · rw [update_idem, update_idem]
    exact hQ _ _ hc₂ (tidy_nil hc₂ haddrs rfl)

theorem wp_release
    (hr : r i = .bare ∨ ∃ c, r i = .cell c ∧ Tidy c) (h : wp (spec sb) p (f ()) Q (update r i .out)) :
    wp (spec sb) p (releasesleep i >>= f) Q r := ⟨hr, h⟩

/-- `iput` gives back what it takes. -/
theorem wp_iput {Q : Unit → Held → Prop} (hQ : Q () r) : wp (spec sb) p (iput i) Q r := by
  show spec sb p (.acquiresleep i) r _
  intro hout
  have out : update r i .out = r := by rw [← hout]; exact update_eq_self _ _
  have fin : ∀ x, (x = .bare ∨ ∃ c, x = .cell c ∧ Tidy c) →
      wp (spec sb) p (do releasesleep i; unref i) Q (update (update r i .bare) i x) := by
    intro x hx
    refine wp_release (by simpa using hx) ?_
    rw [update_idem, update_idem, out]
    exact hQ
  refine wp_bind (spec_mono sb) (c := iputLocked i) ?_
  refine ⟨by simp, ?_, fun c hty hc => ?_⟩
  · have := fin .bare (Or.inl rfl)
    rwa [update_idem] at this
  · show wp (spec sb) p (if c.disk.nlink = 0 then _ else _) _ _
    split
    · intro (n : Nat)
      show wp (spec sb) p (if n = 1 then _ else _) _ _
      split
      · refine wp_bind (spec_mono sb) (wp_itrunc (c := c) (by simp) hc.mem hty fun d' c' hc' _ => ?_)
        refine ⟨c', by simp, fun h => absurd rfl h, fun _ => ⟨hc', by simp, ?_⟩⟩
        have := fin .bare (Or.inl rfl)
        simp only [update_idem] at this ⊢
        exact this
      · exact fin _ (Or.inr ⟨_, rfl, hc⟩)
    · exact fin _ (Or.inr ⟨_, rfl, hc⟩)

theorem wp_dirlink {name : List UInt8} {inum : Nat} {Q : Int × Dinode → Held → Prop} (hr : r ip = .cell c)
    (ht : Tidy c) (hty : c.disk.type ≠ none) (hQ : ∀ x c', Tidy c' → Q x (update r ip (.cell c'))) :
    wp (spec sb) p (dirlink sb dev ip c.disk name inum) Q r := by
  refine wp_bind (spec_mono sb) (wp_dirlookup hr ht.mem ht.full fun o => ?_)
  cases o with
  | some x =>
    refine wp_bind (spec_mono sb) (wp_iput ?_)
    have := hQ (-1, c.disk) c ht
    rwa [← hr, update_eq_self] at this
  | none =>
    refine wp_bind (spec_mono sb) (wp_emptyFrom hr ht.mem ht.full (fun off => ?_) _ fun off h => offsets_lt ht.full h)
    refine wp_bind (spec_mono sb) (wp_writei hr ht hty fun x c' hc' => ?_)
    split
    · exact wp_panic (by decide)
    · exact hQ _ _ hc'

theorem wp_ialloc {t : FileType} {Q : Nat → Held → Prop} (hQ : ∀ i, Q i r) : wp (spec sb) p (ialloc sb t) Q r := by
  unfold ialloc
  induction range' 1 (sb.ninodes - 1) with
  | nil => exact wp_panic (by decide)
  | cons i is ih => exact ⟨hQ i, ih⟩

/-- An operation on one locked inode. -/
theorem wp_locked {f : Dinode → M α} {Q : Unit → Held → Prop} (hout : r i = .out) (hQ : Q () r)
    (h : ∀ c, Tidy c → c.disk.type ≠ none →
      wp (spec sb) p (f c.disk) (fun _ r' => ∃ c', Tidy c' ∧ r' = update r i (.cell c'))
        (update r i (.cell c))) : wp (spec sb) p (do let d ← ilock i; let _ ← f d; releasesleep i) Q r := by
  show spec sb p (.acquiresleep i) r _
  intro _
  refine ⟨by simp, fun c hty hc => ?_⟩
  rw [update_idem]
  show wp (spec sb) p (f c.disk >>= fun _ => releasesleep i) Q _
  refine wp_bind (spec_mono sb) (wp_mono (spec_mono sb) (h c hc hty) fun x r' hx => ?_)
  obtain ⟨c', hc', rfl⟩ := hx
  refine ⟨Or.inr ⟨c', by simp, hc'⟩, ?_⟩
  rw [update_idem, show update r i .out = r by rw [← hout]; exact update_eq_self _ _]
  exact hQ

end Wp

end Xv6.Fs.Blocks
