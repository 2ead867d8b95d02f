/-
  Xv6.Mkfs.Format — what is on the image that `mkfs` writes.

  `mkfs` hands out blocks in order, so every block from the first data block to `freeblock`
  is in one place of one inode (`Books`). `iappend` adds bytes to the end of one file and
  leaves the others as they are (`returns_iappend`); the directory and the files grow in
  turn, and at the end every file has its bytes (`mkfs_image`).
-/

import Xv6.Fs.Contents
import Xv6.Fs.Dirent
import Xv6.Mkfs.Program

namespace Xv6.Mkfs

open Xv6.Fs Image Blocks Contents Function

/-! ## Returning -/

/-- Run from `s`, the program returns, and `Q` holds then. -/
def Returns (c : M α) (s : Img) (Q : α → Img → Prop) : Prop := ∃ x s', c.run s = .ok (x, s') ∧ Q x s'

theorem Returns.pure {x : α} {s : Img} {Q : α → Img → Prop} (h : Q x s) : Returns (pure x) s Q := ⟨x, s, rfl, h⟩

theorem Returns.bind {c : M α} {f : α → M β} {s : Img} {Q : β → Img → Prop}
    (h : Returns c s fun x s' => Returns (f x) s' Q) : Returns (c >>= f) s Q := by
  obtain ⟨x, s', hc, y, s'', hf, hQ⟩ := h
  refine ⟨y, s'', ?_, hQ⟩
  rw [StateT.run_bind, hc]
  exact hf

theorem Returns.mono {c : M α} {s : Img} {Q Q' : α → Img → Prop} (h : Returns c s Q) (hQ : ∀ x s', Q x s' → Q' x s') :
    Returns c s Q' := by
  obtain ⟨x, s', hc, hq⟩ := h
  exact ⟨x, s', hc, hQ x s' hq⟩

section Sectors

variable {s : Img} {sec : Nat} {Q : α → Img → Prop}

/-- The image after a sector has been written. -/
def put (s : Img) (sec : Nat) (b : Block) : Img :=
  { s with disk := Function.update s.disk sec b, sects := max s.sects (sec + 1) }

theorem put_disk (s : Img) (sec : Nat) (b : Block) : (put s sec b).disk = update s.disk sec b := rfl

theorem returns_rsect {k : Block → M α} (hs : sec < s.sects) (h : Returns (k (s.disk sec)) s Q) :
    Returns (rsect sec >>= k) s Q := by
  refine Returns.bind ⟨s.disk sec, s, ?_, h⟩
  simp [rsect, hs]
  rfl

theorem returns_wsect {b : Block} {k : Unit → M α} (h : Returns (k ()) (put s sec b) Q) :
    Returns (wsect sec b >>= k) s Q := Returns.bind ⟨(), put s sec b, rfl, h⟩

theorem returns_newBlock {k : Nat → M α} (h : Returns (k s.freeblock) { s with freeblock := s.freeblock + 1 } Q) :
    Returns (newBlock >>= k) s Q := Returns.bind ⟨s.freeblock, _, rfl, h⟩

end Sectors

/-! ## Blocks handed out -/

/-- Blocks `nmeta` to `fb` are each in one place of one inode, and those after have not been written. -/
structure Books (m : Disk) (fb : Nat) (nodes : Nat → Dinode) : Prop where
  range : ∀ i x, ptr (nodes i) m x ≠ 0 → nmeta ≤ ptr (nodes i) m x ∧ ptr (nodes i) m x < fb
  inj : ∀ i x j y, ptr (nodes i) m x ≠ 0 → ptr (nodes i) m x = ptr (nodes j) m y → i = j ∧ x = y
  onto : ∀ b, nmeta ≤ b → b < fb → ∃ i x, ptr (nodes i) m x = b
  zero : ∀ b, fb ≤ b → m b = zeroBlock
  low : nmeta ≤ fb

/-- A file's blocks are as they were. -/
structure Kept (m m' : Disk) (d : Dinode) : Prop where
  ptr : ptr d m' = ptr d m
  block : fileBlock d m' = fileBlock d m

theorem Kept.refl (m : Disk) (d : Dinode) : Kept m m d := ⟨rfl, rfl⟩

variable {m m' : Disk} {d : Dinode}

theorem Kept.trans {m'' : Disk} (h : Kept m m' d) (h' : Kept m' m'' d) : Kept m m'' d :=
  ⟨h'.ptr.trans h.ptr, h'.block.trans h.block⟩

theorem blockAt_congr {d' : Dinode} {bn : Nat} (h : ∀ x, slotOf bn = some x → ptr d' m' x = ptr d m x) :
    blockAt d' m' bn = blockAt d m bn := by
  cases hs : slotOf bn with
  | none => simp [blockAt, hs]
  | some x => rw [blockAt_some hs, blockAt_some hs, h x hs]

/-- A disk that differs from `m` in no block of the file. -/
theorem Kept.of_eq (h : ∀ x, Blocks.ptr d m x ≠ 0 → m' (Blocks.ptr d m x) = m (Blocks.ptr d m x)) : Kept m m' d := by
  have hp : Blocks.ptr d m' = Blocks.ptr d m := ptr_congr fun hi => h .ind hi
  refine ⟨hp, funext fun bn => ?_⟩
  have hb : blockAt d m' bn = blockAt d m bn := blockAt_congr fun x _ => by rw [hp]
  unfold fileBlock
  rw [hb]
  split
  · rfl
  · rename_i h0
    cases hs : slotOf bn with
    | none => simp [blockAt, hs] at h0
    | some x =>
      rw [blockAt_some hs] at h0 ⊢
      exact h x h0

section Alloc

variable {m m' : Disk} {fb i : Nat} {nodes : Nat → Dinode} {d d' : Dinode}

/-- The same pointers, and nothing written after `fb`. -/
theorem Books.congr {nodes' : Nat → Dinode} (h : Books m fb nodes) (hp : ∀ j, ptr (nodes' j) m' = ptr (nodes j) m)
    (hz : ∀ b, fb ≤ b → m' b = m b) : Books m' fb nodes' := by
  refine ⟨fun j x => ?_, fun j x k y => ?_, fun b h1 h2 => ?_, fun b hb => ?_, h.low⟩
  · rw [hp]; exact h.range j x
  · rw [hp, hp]; exact h.inj j x k y
  · obtain ⟨j, x, hx⟩ := h.onto b h1 h2
    exact ⟨j, x, by rw [hp]; exact hx⟩
  · rw [hz b hb]; exact h.zero b hb

theorem Books.fb_pos (h : Books m fb nodes) : 0 < fb := lt_of_lt_of_le (by decide) h.low

/-- An inode's own addresses are blocks handed out. -/
theorem Books.addrs_lt (h : Books m fb nodes) (i : Nat) (j : Fin (ndirect + 1)) : (nodes i).addrs j < fb := by
  have hpos := h.fb_pos
  have hptr : ∀ x, ptr (nodes i) m x = (nodes i).addrs j → (nodes i).addrs j < fb := fun x hx => by
    have := h.range i x
    omega
  induction j using Fin.lastCases with
  | last => exact hptr .ind rfl
  | cast j => exact hptr (.direct j) rfl

theorem Books.at_self (h : Books m fb (update nodes i d)) {x : Slot} (hx : ptr d m x ≠ 0) :
    nmeta ≤ ptr d m x ∧ ptr d m x < fb := by
  have := h.range i x
  rw [update_self] at this
  exact this hx

theorem Books.at_inj (h : Books m fb (update nodes i d)) {x y : Slot} (hx : ptr d m x ≠ 0)
    (hxy : ptr d m x = ptr d m y) : x = y := by
  have := h.inj i x i y
  rw [update_self] at this
  exact (this hx hxy).2

/-- No block of one inode is another's. -/
theorem Books.apart (h : Books m fb (update nodes i d)) {j : Nat} (hj : j ≠ i) {x y : Slot}
    (hx : ptr d m x ≠ 0) : ptr (nodes j) m y ≠ ptr d m x := by
  intro e
  have := h.inj i x j y
  rw [update_self, update_of_ne hj] at this
  exact hj (this hx e.symm).1.symm

theorem Books.others (h : Books m fb (update nodes i d))
    (hm : ∀ b, (∀ x, ptr d m x ≠ b) → b < fb → m' b = m b) {j : Nat} (hj : j ≠ i) : Kept m m' (nodes j) := by
  refine Kept.of_eq fun y hy => hm _ (fun x e => ?_) ?_
  · exact h.apart hj (show ptr d m x ≠ 0 by rw [e]; exact hy) e.symm
  · have := h.range j y
    rw [update_of_ne hj] at this
    exact (this hy).2

/-- Block `fb` goes to slot `x`, which had none. -/
theorem Books.alloc {x : Slot} (h : Books m fb (update nodes i d)) (hx : ptr d m x = 0)
    (hp : ptr d' m' = update (ptr d m) x fb) (hm : ∀ b, (d.addrs indirect = 0 ∨ b ≠ d.addrs indirect) → m' b = m b) :
    Books m' (fb + 1) (update nodes i d') ∧ (∀ j, j ≠ i → Kept m m' (nodes j)) ∧
      fileBlock d' m' = fileBlock d m ∧ ∀ b, b < nmeta → m' b = m b := by
  have hind : d.addrs indirect ≠ 0 → nmeta ≤ d.addrs indirect ∧ d.addrs indirect < fb := fun hi => h.at_self (x := .ind) hi
  have hsame : ∀ b, (∀ x, ptr d m x ≠ b) → m' b = m b := fun b hb => hm b (.inr fun e => hb .ind e.symm)
  have hoth : ∀ j, j ≠ i → Kept m m' (nodes j) := fun j hj => h.others (fun b hb _ => hsame b hb) hj
  have hzero : ∀ b, fb ≤ b → m' b = zeroBlock := by
    intro b hb
    rw [hm b ?_, h.zero b hb]
    by_cases e : d.addrs indirect = 0
    · exact .inl e
    · exact .inr (by have := (hind e).2; omega)
  have hlow := h.low
  have hpos : 0 < nmeta := by decide
  -- the pointers after: the new block at (i, x), the others as before
  have hall : ∀ j y, ptr (update nodes i d' j) m' y =
      if j = i ∧ y = x then fb else ptr (update nodes i d j) m y := by
    intro j y
    by_cases ej : j = i
    · subst ej; simp [hp, update_apply]
    · simp [ej, (hoth j ej).ptr]
  refine ⟨⟨?_, ?_, ?_, fun b hb => hzero b (by omega), by omega⟩, hoth, ?_, ?_⟩
  · intro j y hy
    have := h.range j y
    grind
  · intro j y k z hy hyz
    have := h.range j y
    have := h.range k z
    have := h.inj j y k z
    grind
  · intro b hb hlt
    by_cases e : b = fb
    · exact ⟨i, x, by rw [hall, if_pos ⟨rfl, rfl⟩, e]⟩
    · obtain ⟨j, y, hy⟩ := h.onto b hb (by omega)
      exact ⟨j, y, by grind⟩
  · refine fileBlock_alloc hx (by omega) hp (hzero fb le_rfl) fun y hy hy0 => hm _ ?_
    by_cases e : d.addrs indirect = 0
    · exact .inl e
    · exact .inr fun e' => hy (h.at_inj hy0 (y := .ind) e')
  · intro b hb
    refine hm b ?_
    by_cases e : d.addrs indirect = 0
    · exact .inl e
    · exact .inr (by have := (hind e).1; omega)

/-- A block of the file's data is written. -/
theorem Books.write {bn : Nat} {v : Block} (h : Books m fb (update nodes i d)) (hb : blockAt d m bn ≠ 0) :
    Books (update m (blockAt d m bn) v) fb (update nodes i d) ∧
      (∀ j, j ≠ i → Kept m (update m (blockAt d m bn) v) (nodes j)) ∧
      ptr d (update m (blockAt d m bn) v) = ptr d m ∧
      fileBlock d (update m (blockAt d m bn) v) = update (fileBlock d m) bn v ∧
      ∀ b, b < nmeta → update m (blockAt d m bn) v b = m b := by
  have hinj : Inj d m := fun x y hx hxy => h.at_inj hx hxy
  obtain ⟨hp, hblk⟩ := fileBlock_write (v := v) hinj hb
  obtain ⟨x, hx⟩ : ∃ x, ptr d m x = blockAt d m bn := by
    cases hs : slotOf bn with
    | none => exact absurd (by simp [blockAt, hs]) hb
    | some x => exact ⟨x, (blockAt_some hs d m).symm⟩
  have hrange : nmeta ≤ blockAt d m bn ∧ blockAt d m bn < fb := hx ▸ h.at_self (by rw [hx]; exact hb)
  have hoth : ∀ j, j ≠ i → Kept m (update m (blockAt d m bn) v) (nodes j) := fun j hj =>
    h.others (fun b hb' _ => update_of_ne (fun e => hb' x (hx.trans e.symm)) _ _) hj
  refine ⟨h.congr (fun j => ?_) fun b hb => update_of_ne (by omega) _ _, hoth, hp, hblk,
    fun b hb => update_of_ne (by omega) _ _⟩
  by_cases ej : j = i
  · subst ej; rw [update_self]; exact hp
  · rw [update_of_ne ej]; exact (hoth j ej).ptr

end Alloc

/-! ## `iappend` -/

/-- The blocks of a file with `n` blocks of data, the indirect block included. -/
def blk (n : Nat) : Nat := n + if ndirect < n then 1 else 0

/-- The blocks of data of a file of `n` bytes. -/
def upto (n : Nat) : Nat := (n + bsize - 1) / bsize

/-- The file has its first `n` blocks of data, and an indirect block if it needs one. -/
structure Shape (m : Disk) (d : Dinode) (n : Nat) : Prop where
  full : Full d m n
  ind : d.addrs indirect ≠ 0 ↔ ndirect < n

/-- The file's bytes are `c`, and zeros after that. -/
structure Holds (m : Disk) (d : Dinode) (c : List UInt8) : Prop where
  shape : Shape m d (upto c.length)
  bytes : bytes d m 0 c.length = c
  tail : ∀ k, c.length ≤ k → byte d m k = 0

theorem Kept.holds {c : List UInt8} (hk : Kept m m' d) (h : Holds m d c) : Holds m' d c := by
  have hbyte : ∀ k, byte d m' k = byte d m k := fun k => by unfold byte; rw [hk.block]
  refine ⟨⟨fun bn => ?_, h.shape.ind⟩, ?_, fun k hk => ?_⟩
  · rw [blockAt_congr fun x _ => congrFun hk.ptr x]; exact h.shape.full bn
  · rw [bytes_congr fun k _ _ => hbyte k]
    exact h.bytes
  · rw [hbyte]; exact h.tail k hk

theorem ptr_withSize (d : Dinode) (n : Nat) (m : Disk) : ptr { d with size := n } m = ptr d m := by
  funext x
  cases x <;> rfl

theorem Holds.withSize {c : List UInt8} (h : Holds m d c) (n : Nat) :
    Holds m { d with size := n } c := ⟨⟨h.shape.full, h.shape.ind⟩, h.bytes, h.tail⟩

/-- What happens while inode `i`'s copy goes from `d` to `d'`: the rest is as it was. -/
structure Step (nodes : Nat → Dinode) (i : Nat) (s : Img) (d : Dinode) (s' : Img) (d' : Dinode) : Prop where
  sects : s'.sects = s.sects
  freeinode : s'.freeinode = s.freeinode
  books : Books s'.disk s'.freeblock (Function.update nodes i d')
  others : ∀ j, j ≠ i → Kept s.disk s'.disk (nodes j)
  metas : ∀ b, b < nmeta → s'.disk b = s.disk b
  same : d' = { d with addrs := d'.addrs }

section Append

variable {nodes : Nat → Dinode} {i : Nat} {s s' s'' : Img} {d d' d'' : Dinode} {Q : α → Img → Prop}

theorem Step.refl (h : Books s.disk s.freeblock (update nodes i d)) : Step nodes i s d s d :=
  ⟨rfl, rfl, h, fun _ _ => Kept.refl _ _, fun _ _ => rfl, rfl⟩

theorem Step.trans (h : Step nodes i s d s' d') (h' : Step nodes i s' d' s'' d'') : Step nodes i s d s'' d'' :=
  ⟨h'.sects.trans h.sects, h'.freeinode.trans h.freeinode, h'.books, fun j hj => (h.others j hj).trans (h'.others j hj),
    fun b hb => (h'.metas b hb).trans (h.metas b hb), by rw [h'.same, h.same]⟩

theorem returns_ensureDirect {j : Fin ndirect} {nb : Nat} {k : Dinode → M α}
    (hb : Books s.disk s.freeblock (update nodes i d)) (hsh : Shape s.disk d nb) (hle : j.val ≤ nb)
    (hk : ∀ d' s', Step nodes i s d s' d' → Shape s'.disk d' (max nb (j.val + 1)) →
      blockAt d' s'.disk j.val = d'.addrs (direct j) → d'.addrs (direct j) ≠ 0 → fileBlock d' s'.disk = fileBlock d s.disk →
      s'.freeblock = s.freeblock + (blk (max nb (j.val + 1)) - blk nb) → Returns (k d') s' Q) :
    Returns (ensure d (direct j) >>= k) s Q := by
  have hs : slotOf j = some (.direct j) := by simp [slotOf]
  have hat : ∀ (d : Dinode) (m : Disk), blockAt d m j = d.addrs (direct j) := fun d m => blockAt_some hs d m
  have hj := j.isLt
  unfold ensure
  split
  · rename_i h0
    have hjn : j.val = nb := by
      have : ¬ j.val < nb := fun h => ((hsh.full j).mpr h) ((hat d s.disk).trans h0)
      omega
    have hmax : max nb (j.val + 1) = nb + 1 := by omega
    rw [show (newBlock >>= fun b => pure (d.setAddr (direct j) b)) >>= k =
      newBlock >>= fun b => k (d.setAddr (direct j) b) from by simp]
    refine returns_newBlock ?_
    have hp : ptr (d.setAddr (direct j) s.freeblock) s.disk = update (ptr d s.disk) (.direct j) s.freeblock :=
      ptr_setAddr
    obtain ⟨hbooks, hoth, hblk, hmeta⟩ := hb.alloc (x := .direct j) h0 hp fun _ _ => rfl
    have hfb : s.freeblock ≠ 0 := hb.fb_pos.ne'
    have hself : (d.setAddr (direct j) s.freeblock).addrs (direct j) = s.freeblock := by simp [Dinode.setAddr]
    refine hk _ _ ⟨rfl, rfl, hbooks, hoth, hmeta, rfl⟩ ?_ (hat _ _) (by rw [hself]; exact hfb) hblk ?_
    · rw [hmax]
      refine ⟨hsh.full.alloc (hjn ▸ hs) hfb hp, ?_⟩
      have hi : (d.setAddr (direct j) s.freeblock).addrs indirect = d.addrs indirect := by
        simp [Dinode.setAddr, Ne.symm (direct_ne_indirect j)]
      rw [hi, hsh.ind]
      omega
    · rw [hmax]
      show s.freeblock + 1 = _
      unfold blk
      rw [if_neg (by omega), if_neg (by omega)]
      omega
  · rename_i h0
    have hjn : j.val < nb := (hsh.full j).mp (by rw [hat]; exact h0)
    have hmax : max nb (j.val + 1) = nb := by omega
    rw [pure_bind]
    exact hk d s (.refl hb) (by rw [hmax]; exact hsh) (hat _ _) h0 rfl (by rw [hmax]; omega)

theorem returns_ensureIndirect {k : Dinode → M α} (hb : Books s.disk s.freeblock (update nodes i d))
    (hk : ∀ d' s', Step nodes i s d s' d' → (∀ bn, blockAt d' s'.disk bn = blockAt d s.disk bn) → d'.addrs indirect ≠ 0 →
      fileBlock d' s'.disk = fileBlock d s.disk →
      s'.freeblock = s.freeblock + (if d.addrs indirect = 0 then 1 else 0) → Returns (k d') s' Q) :
    Returns (ensure d indirect >>= k) s Q := by
  unfold ensure
  split
  · rename_i h0
    rw [show (newBlock >>= fun b => pure (d.setAddr indirect b)) >>= k =
      newBlock >>= fun b => k (d.setAddr indirect b) from by simp]
    refine returns_newBlock ?_
    have hp : ptr (d.setAddr indirect s.freeblock) s.disk = update (ptr d s.disk) .ind s.freeblock :=
      ptr_setIndirect h0 (hb.zero _ le_rfl)
    obtain ⟨hbooks, hoth, hblk, hmeta⟩ := hb.alloc (x := .ind) h0 hp fun _ _ => rfl
    have hfb : s.freeblock ≠ 0 := hb.fb_pos.ne'
    refine hk _ _ ⟨rfl, rfl, hbooks, hoth, hmeta, rfl⟩ (fun bn => blockAt_congr fun x hx => ?_)
      (by simpa [Dinode.setAddr] using hfb) hblk (by simp [h0])
    rw [hp, update_of_ne]
    exact fun e => slotOf_ne_ind bn (e ▸ hx)
  · rename_i h0
    rw [pure_bind]
    exact hk d s (.refl hb) (fun _ => rfl) h0 rfl (by simp [h0])

theorem returns_locate {fbn nb : Nat} {k : Nat × Dinode → M α} (hb : Books s.disk s.freeblock (update nodes i d))
    (hsh : Shape s.disk d nb) (hle : fbn ≤ nb) (hmax : fbn < maxFile) (hs : s.sects = fsSize)
    (hroom : s.freeblock + (blk (max nb (fbn + 1)) - blk nb) ≤ fsSize)
    (hk : ∀ d' s', Step nodes i s d s' d' → Shape s'.disk d' (max nb (fbn + 1)) → blockAt d' s'.disk fbn ≠ 0 →
      fileBlock d' s'.disk = fileBlock d s.disk → s'.freeblock = s.freeblock + (blk (max nb (fbn + 1)) - blk nb) →
      Returns (k (blockAt d' s'.disk fbn, d')) s' Q) :
    Returns (locate d fbn >>= k) s Q := by
  unfold locate
  split
  · rename_i h
    rw [show (ensure d (direct ⟨fbn, h⟩) >>= fun din => pure (din.addrs (direct ⟨fbn, h⟩), din)) >>= k =
      ensure d (direct ⟨fbn, h⟩) >>= fun din => k (din.addrs (direct ⟨fbn, h⟩), din) from by simp]
    refine returns_ensureDirect (j := ⟨fbn, h⟩) hb hsh hle fun d' s' h1 h2 hat h3 h4 h5 => ?_
    rw [← hat] at h3 ⊢
    exact hk d' s' h1 h2 h3 h4 h5
  · rename_i h
    have hent : fbn - ndirect < nindirect := by unfold maxFile at hmax; omega
    have hslot : slotOf fbn = some (.entry ⟨fbn - ndirect, hent⟩) := by simp [slotOf, h, hent]
    rw [bind_assoc]
    refine returns_ensureIndirect hb fun d₁ s₁ h1 hat₁ hi₁ hblk₁ hfree₁ => ?_
    have hrange := h1.books.at_self (x := .ind) hi₁
    have hpind : ptr d₁ s₁.disk .ind = d₁.addrs indirect := rfl
    rw [hpind] at hrange
    have hword : word (s₁.disk (d₁.addrs indirect)) (fbn - ndirect) = blockAt d s.disk fbn := by
      rw [← hat₁, blockAt_some hslot]
      simp [ptr, hi₁]
    have hind := hsh.ind
    have hfull₁ : Full d₁ s₁.disk nb := fun bn => by rw [hat₁]; exact hsh.full bn
    have hlow := hb.low
    -- the blocks handed out so far
    have hfree : s₁.freeblock ≤ fsSize := by
      rw [hfree₁]
      split
      · rename_i h0
        have : ¬ ndirect < nb := fun hlt => hind.mpr hlt h0
        have hnb : nb = fbn := by omega
        unfold blk at hroom
        rw [if_pos (by omega), if_neg this] at hroom
        omega
      · omega
    rw [bind_assoc]
    refine returns_rsect (by rw [h1.sects, hs]; omega) ?_
    split
    · rename_i h0
      have hnb : fbn = nb := by
        have : ¬ fbn < nb := fun hlt => ((hsh.full fbn).mpr hlt) (hword ▸ h0)
        omega
      have hm : max nb (fbn + 1) = nb + 1 := by omega
      rw [show (newBlock >>= fun b => wsect (d₁.addrs indirect) (setWord (s₁.disk (d₁.addrs indirect)) (fbn - ndirect) b) >>=
          fun _ => pure (b, d₁)) >>= k = newBlock >>= fun b => wsect (d₁.addrs indirect)
          (setWord (s₁.disk (d₁.addrs indirect)) (fbn - ndirect) b) >>= fun _ => k (b, d₁) from by simp]
      refine returns_newBlock (returns_wsect ?_)
      have hfb : s₁.freeblock ≠ 0 := h1.books.fb_pos.ne'
      have hcount : s.freeblock + (blk (max nb (fbn + 1)) - blk nb) = s₁.freeblock + 1 := by
        rw [hm, hfree₁]
        unfold blk
        rw [if_pos (show ndirect < nb + 1 by omega)]
        by_cases e : d.addrs indirect = 0
        · have : ¬ ndirect < nb := fun hlt => hind.mpr hlt e
          rw [if_pos e, if_neg this]
          omega
        · rw [if_neg e, if_pos (hind.mp e)]
          omega
      have hp : ptr d₁ (update s₁.disk (d₁.addrs indirect)
          (setWord (s₁.disk (d₁.addrs indirect)) (fbn - ndirect) s₁.freeblock)) =
          update (ptr d₁ s₁.disk) (.entry ⟨fbn - ndirect, hent⟩) s₁.freeblock :=
        ptr_setEntry hi₁ (by have : fsSize < 2 ^ 32 := by decide
                             omega) (update_self _ _ _)
      have hx : ptr d₁ s₁.disk (.entry ⟨fbn - ndirect, hent⟩) = 0 := by
        rw [← blockAt_some hslot, hat₁, ← hword]; exact h0
      obtain ⟨hbooks, hoth, hblk, hmeta⟩ := h1.books.alloc hx hp fun b hb' =>
        update_of_ne (hb'.resolve_left hi₁) _ _
      have hat : blockAt d₁ (update s₁.disk (d₁.addrs indirect)
          (setWord (s₁.disk (d₁.addrs indirect)) (fbn - ndirect) s₁.freeblock)) fbn = s₁.freeblock := by
        rw [blockAt_some hslot, hp, update_self]
      have hstep : Step nodes i s d (put { s₁ with freeblock := s₁.freeblock + 1 } (d₁.addrs indirect)
          (setWord (s₁.disk (d₁.addrs indirect)) (fbn - ndirect) s₁.freeblock)) d₁ := by
        refine h1.trans ⟨?_, rfl, hbooks, hoth, hmeta, rfl⟩
        show max s₁.sects (d₁.addrs indirect + 1) = s₁.sects
        rw [h1.sects, hs]
        omega
      have := hk d₁ _ hstep ⟨?_, ?_⟩ (hat.symm ▸ hfb) (hblk.trans hblk₁) hcount.symm
      · rw [show blockAt d₁ (put { s₁ with freeblock := s₁.freeblock + 1 } (d₁.addrs indirect)
          (setWord (s₁.disk (d₁.addrs indirect)) (fbn - ndirect) s₁.freeblock)).disk fbn = s₁.freeblock from hat] at this
        exact this
      · rw [hm]
        exact hfull₁.alloc (hnb ▸ hslot) hfb hp
      · rw [hm]
        exact iff_of_true hi₁ (by omega)
    · rename_i h0
      have hlt : fbn < nb := (hsh.full fbn).mp (hword ▸ h0)
      have hm : max nb (fbn + 1) = nb := by omega
      have hind0 : d.addrs indirect ≠ 0 := hind.mpr (by omega)
      rw [hm] at hk
      rw [if_neg hind0] at hfree₁
      rw [pure_bind, hword, ← hat₁]
      exact hk d₁ s₁ h1 ⟨hfull₁, iff_of_true hi₁ (by omega)⟩ (by rw [hat₁, ← hword]; exact h0) hblk₁ (by omega)

theorem blk_mono {a b : Nat} (h : a ≤ b) : blk a ≤ blk b := by
  unfold blk
  split <;> split <;> omega

theorem upto_mono {a b : Nat} (h : a ≤ b) : upto a ≤ upto b := Nat.div_le_div_right (by omega)

theorem returns_appendLoop (fuel : Nat) : ∀ {s : Img} {d : Dinode} {c p : List UInt8}, p.length ≤ fuel →
    s.sects = fsSize → Books s.disk s.freeblock (update nodes i d) → Holds s.disk d c →
    c.length + p.length ≤ maxFile * bsize →
    s.freeblock + (blk (upto (c.length + p.length)) - blk (upto c.length)) ≤ fsSize →
    Returns (appendLoop fuel d c.length p) s fun r s' => Step nodes i s d s' r.1 ∧ r.2 = c.length + p.length ∧
      Holds s'.disk r.1 (c ++ p) ∧
      s'.freeblock = s.freeblock + (blk (upto (c.length + p.length)) - blk (upto c.length)) := by
  have stop : ∀ {s : Img} {d : Dinode} {c p : List UInt8}, p.length = 0 →
      Books s.disk s.freeblock (update nodes i d) → Holds s.disk d c →
      Step nodes i s d s d ∧ c.length = c.length + p.length ∧ Holds s.disk d (c ++ p) ∧
        s.freeblock = s.freeblock + (blk (upto (c.length + p.length)) - blk (upto c.length)) := by
    intro s d c p h0 hb hc
    rw [List.length_eq_zero_iff] at h0
    subst h0
    exact ⟨.refl hb, rfl, by rw [List.append_nil]; exact hc, by simp⟩
  induction fuel with
  | zero =>
    intro s d c p hp _ hb hc _ _
    exact .pure (stop (by omega) hb hc)
  | succ fuel ih =>
    intro s d c p hp hs hb hc hlen hroom
    unfold appendLoop
    split
    · rename_i h0
      exact .pure (stop h0 hb hc)
    · rename_i h0
      have hfbn : c.length / bsize < maxFile := Nat.div_lt_of_lt_mul (by rw [Nat.mul_comm]; omega)
      rw [if_pos hfbn]
      -- the part of `p` that goes into this block
      have hoff : c.length - c.length / bsize * bsize = c.length % bsize := by
        have := Nat.div_add_mod' c.length bsize; omega
      have hrest : (c.length / bsize + 1) * bsize - c.length = bsize - c.length % bsize := by
        have := Nat.div_add_mod' c.length bsize; rw [Nat.add_one_mul]; omega
      have hmod := mod_bsize c.length
      obtain ⟨n, hn, hn0, hnb⟩ : ∃ n, min p.length ((c.length / bsize + 1) * bsize - c.length) = n ∧ 0 < n ∧
          n ≤ p.length ∧ c.length % bsize + n ≤ bsize := by
        refine ⟨_, rfl, ?_, ?_, ?_⟩ <;> rw [hrest] <;> omega
      have hmax : max (upto c.length) (c.length / bsize + 1) = upto (c.length + n) := by
        unfold upto bsize at *; omega
      have hblk1 : blk (upto c.length) ≤ blk (upto (c.length + n)) := blk_mono (upto_mono (by omega))
      have hblk2 : blk (upto (c.length + n)) ≤ blk (upto (c.length + p.length)) := blk_mono (upto_mono (by omega))
      have htake : (p.take n).length = n := by rw [List.length_take]; omega
      dsimp only
      rw [hn, hoff]
      refine returns_locate hb hc.shape (by unfold upto bsize; omega) hfbn hs (by rw [hmax]; omega)
        fun d₁ s₁ h1 hsh₁ hat₁ hblk₁ hfree₁ => ?_
      rw [hmax] at hsh₁ hfree₁
      have hrange : blockAt d₁ s₁.disk (c.length / bsize) < s₁.freeblock := by
        obtain ⟨x, hx⟩ : ∃ x, slotOf (c.length / bsize) = some x := by
          cases hx : slotOf (c.length / bsize) with
          | none => exact absurd (by simp [blockAt, hx]) hat₁
          | some x => exact ⟨x, rfl⟩
        rw [blockAt_some hx] at hat₁ ⊢
        exact (h1.books.at_self hat₁).2
      refine returns_rsect (by rw [h1.sects, hs]; omega) (returns_wsect ?_)
      dsimp only
      rw [show s₁.disk (blockAt d₁ s₁.disk (c.length / bsize)) = fileBlock d s.disk (c.length / bsize) by
        rw [← hblk₁, fileBlock, if_neg hat₁]]
      generalize hv : patch (fileBlock d s.disk (c.length / bsize)) (c.length % bsize) (p.take n) = v
      obtain ⟨hbooks, hoth, hptr, hfb, hmeta⟩ := h1.books.write hat₁ (v := v)
      have hstep : Step nodes i s d (put s₁ (blockAt d₁ s₁.disk (c.length / bsize)) v) d₁ := by
        refine h1.trans ⟨?_, rfl, hbooks, hoth, hmeta, rfl⟩
        show max s₁.sects (blockAt d₁ s₁.disk (c.length / bsize) + 1) = s₁.sects
        rw [h1.sects, hs]
        omega
      have hholds : Holds (put s₁ (blockAt d₁ s₁.disk (c.length / bsize)) v).disk d₁ (c ++ p.take n) := by
        have hpatch : fileBlock d₁ (put s₁ (blockAt d₁ s₁.disk (c.length / bsize)) v).disk =
            update (fileBlock d s.disk) (c.length / bsize)
              (patch (fileBlock d s.disk (c.length / bsize)) (c.length % bsize) (p.take n)) := by
          rw [hv, ← hblk₁]
          exact hfb
        have hfit : c.length % bsize + (p.take n).length ≤ bsize := by rw [htake]; exact hnb.2
        refine ⟨⟨fun bn => ?_, ?_⟩, ?_, fun k hk => ?_⟩
        · rw [List.length_append, htake, ← hsh₁.full bn]
          rw [show blockAt d₁ (put s₁ (blockAt d₁ s₁.disk (c.length / bsize)) v).disk bn = blockAt d₁ s₁.disk bn from
            blockAt_congr fun x _ => congrFun hptr x]
        · rw [List.length_append, htake]; exact hsh₁.ind
        · rw [List.length_append]
          exact bytes_patch hpatch hfit hc.bytes
        · rw [List.length_append] at hk
          rw [byte_patch hpatch hfit, if_pos (by omega), List.getD_eq_default _ _ (by omega)]
          exact hc.tail k (by omega)
      have hlen' : (c ++ p.take n).length = c.length + n := by rw [List.length_append, htake]
      have hsum : (c ++ p.take n).length + (p.drop n).length = c.length + p.length := by
        rw [hlen', List.length_drop]; omega
      have hnext := ih (s := put s₁ (blockAt d₁ s₁.disk (c.length / bsize)) v) (d := d₁) (c := c ++ p.take n) (p := p.drop n)
        (by rw [List.length_drop]; omega) (hstep.sects.trans hs) hstep.books hholds (by rw [hsum]; exact hlen)
        (by rw [hsum, hlen']; show s₁.freeblock + _ ≤ _; omega)
      rw [hlen'] at hnext
      refine hnext.mono fun r s' hr => ?_
      obtain ⟨hr1, hr2, hr3, hr4⟩ := hr
      refine ⟨hstep.trans hr1, ?_, ?_, ?_⟩
      · rw [hr2, List.length_drop]; omega
      · rwa [List.append_assoc, List.take_append_drop] at hr3
      · rw [hr4, ← hlen', hsum, hlen']
        show s₁.freeblock + _ = _
        omega

end Append

/-! ## Inodes on the image -/

/-- Inode `i` of the image. -/
def nodeOf (m : Disk) (i : Nat) : Dinode :=
  if i < ninodes then getDinode (m (iblock i)) (i % ipb) else Dinode.blank none

theorem iblock_range {i : Nat} (h : i < ninodes) : 2 ≤ iblock i ∧ iblock i < bmapstart := by
  have e1 : ipb = 8 := by decide
  have e2 : inodestart = 32 := by decide
  have e3 : bmapstart = 58 := by decide
  unfold iblock
  unfold ninodes at h
  rw [e1, e2, e3]
  omega

theorem bmapstart_lt : bmapstart < nmeta := by decide

theorem nmeta_lt : nmeta < fsSize := by decide

/-- The inodes are in the blocks between the superblock and the bitmap. -/
theorem nodeOf_congr (h : ∀ b, 2 ≤ b → b < bmapstart → m' b = m b) : nodeOf m' = nodeOf m := by
  funext j
  unfold nodeOf
  split
  · rename_i hj
    rw [h _ (iblock_range hj).1 (iblock_range hj).2]
  · rfl

theorem nodeOf_put {i : Nat} (hi : i < ninodes) (hd : Fits d) :
    nodeOf (update m (iblock i) (putDinode (m (iblock i)) (i % ipb) d)) = update (nodeOf m) i d := by
  have hipb : 0 < ipb := by decide
  funext j
  unfold nodeOf
  by_cases e : j = i
  · subst e
    rw [if_pos hi, update_self, update_self, getDinode_putDinode (Nat.mod_lt _ hipb) hd]
  · rw [update_of_ne e]
    split
    · by_cases eb : iblock j = iblock i
      · have hne : j % ipb ≠ i % ipb := by
          intro em
          have : j / ipb = i / ipb := by unfold iblock at eb; omega
          exact e (by rw [← Nat.div_add_mod j ipb, ← Nat.div_add_mod i ipb, this, em])
        rw [eb, update_self, getDinode_putDinode_ne hne]
      · rw [update_of_ne eb]
    · rfl

/-- Only blocks of the metadata changed. -/
theorem Books.metas {fb : Nat} {nodes : Nat → Dinode} (h : Books m fb nodes)
    (hm : ∀ b, nmeta ≤ b → m' b = m b) : Books m' fb nodes ∧ ∀ i, Kept m m' (nodes i) := by
  have hk : ∀ i, Kept m m' (nodes i) := fun i => Kept.of_eq fun x hx => hm _ (h.range i x hx).1
  exact ⟨h.congr (fun i => (hk i).ptr) fun b hb => hm b (h.low.trans hb), hk⟩

/-- The blocks of all files. -/
def total (cs : List (List UInt8)) : Nat := (cs.map fun c => blk (upto c.length)).sum

theorem total_set {cs : List (List UInt8)} {k : Nat} {c p : List UInt8} (hk : cs[k]? = some c) :
    total (cs.set k p) + blk (upto c.length) = total cs + blk (upto p.length) := by
  unfold total
  induction cs generalizing k with
  | nil => cases hk
  | cons x xs ih =>
    cases k with
    | zero =>
      cases hk
      simp
      omega
    | succ k =>
      have := ih (k := k) hk
      simp only [List.set_cons_succ, List.map_cons, List.sum_cons]
      omega

theorem total_cons (c : List UInt8) (cs : List (List UInt8)) : total (c :: cs) = blk (upto c.length) + total cs := by
  simp [total]

theorem total_nil : total [] = 0 := rfl

theorem total_append (cs cs' : List (List UInt8)) : total (cs ++ cs') = total cs + total cs' := by
  simp [total]

/-- The image has files with the contents `cs`, the first of them the root directory. -/
structure Ok (s : Img) (cs : List (List UInt8)) : Prop where
  sects : s.sects = fsSize
  count : s.freeinode = cs.length + 1
  books : Books s.disk s.freeblock (nodeOf s.disk)
  holds : ∀ k c, cs[k]? = some c → Holds s.disk (nodeOf s.disk (k + 1)) c
  node : ∀ k c, cs[k]? = some c → ∃ a,
    nodeOf s.disk (k + 1) = ⟨some (if k = 0 then .dir else .file), 0, 0, 1, c.length, a⟩
  unused : ∀ i, i = 0 ∨ cs.length < i → nodeOf s.disk i = Dinode.blank none
  space : s.freeblock = nmeta + total cs
  super : s.disk 1 = superSector superblock

section Inodes

variable {s s' : Img} {cs : List (List UInt8)} {i k : Nat} {c p : List UInt8} {d : Dinode} {Q : α → Img → Prop}

theorem returns_rinode {f : Dinode → M α} (hi : i < ninodes) (hs : s.sects = fsSize)
    (h : Returns (f (nodeOf s.disk i)) s Q) : Returns (rinode i >>= f) s Q := by
  have hr := iblock_range hi
  have hb := bmapstart_lt
  have hm := nmeta_lt
  unfold rinode
  rw [bind_assoc]
  refine returns_rsect (by omega) ?_
  rw [pure_bind]
  rw [nodeOf, if_pos hi] at h
  exact h

/-- The image after inode `i` has been written. -/
def putNode (s : Img) (i : Nat) (d : Dinode) : Img := put s (iblock i) (putDinode (s.disk (iblock i)) (i % ipb) d)

theorem returns_winode {f : Unit → M α} (hi : i < ninodes) (hs : s.sects = fsSize)
    (h : Returns (f ()) (putNode s i d) Q) : Returns (winode i d >>= f) s Q := by
  have hr := iblock_range hi
  have hb := bmapstart_lt
  have hm := nmeta_lt
  unfold winode
  rw [bind_assoc]
  exact returns_rsect (by omega) (returns_wsect h)

theorem putNode_sects (hi : i < ninodes) (hs : s.sects = fsSize) : (putNode s i d).sects = fsSize := by
  have hr := iblock_range hi
  have hb := bmapstart_lt
  have hm := nmeta_lt
  show max s.sects (iblock i + 1) = fsSize
  omega

theorem putNode_data (hi : i < ninodes) {b : Nat} (hb : nmeta ≤ b ∨ b < 2) : (putNode s i d).disk b = s.disk b := by
  have hr := iblock_range hi
  have := bmapstart_lt
  exact update_of_ne (by omega) _ _

/-- Blocks were added to inode `i`, and it is written with its new size. -/
theorem Ok.write (h : Ok s cs) (hk : cs[k]? = some c) (hn : cs.length < ninodes) (hst : Step (nodeOf s.disk) (k + 1) s
    (nodeOf s.disk (k + 1)) s' d) (hh : Holds s'.disk d p) (hfree : s'.freeblock = s.freeblock + (blk (upto p.length) -
    blk (upto c.length))) (hle : c.length ≤ p.length) (hp : p.length ≤ maxFile * bsize) (hroom : s'.freeblock ≤ fsSize) :
    Ok (putNode s' (k + 1) { d with size := p.length }) (cs.set k p) := by
  have hkl := (List.getElem?_eq_some_iff.mp hk).1
  have hi : k + 1 < ninodes := by omega
  obtain ⟨a, ha⟩ := h.node k c hk
  have hd : ({ d with size := p.length } : Dinode) = ⟨some (if k = 0 then .dir else .file), 0, 0, 1, p.length, d.addrs⟩ := by
    rw [hst.same, ha]
  have h32 : fsSize < 2 ^ 32 := by decide
  have hmax : maxFile * bsize < 2 ^ 32 := by decide
  have hfit : Fits { d with size := p.length } := by
    rw [hd]
    refine ⟨rfl, rfl, rfl, by show p.length < _; omega, fun j => ?_⟩
    have := hst.books.addrs_lt (k + 1) j
    rw [update_self] at this
    show d.addrs j < 2 ^ 32
    omega
  -- the inodes on disk are those before, but for this one
  have hnode0 : nodeOf s'.disk = nodeOf s.disk := nodeOf_congr fun b _ hb => hst.metas b (hb.trans bmapstart_lt)
  have hnode : nodeOf (putNode s' (k + 1) { d with size := p.length }).disk =
      update (nodeOf s.disk) (k + 1) { d with size := p.length } := by
    rw [← hnode0]; exact nodeOf_put hi hfit
  have hbooks : Books s'.disk s'.freeblock (update (nodeOf s.disk) (k + 1) { d with size := p.length }) := by
    refine hst.books.congr (fun j => ?_) fun _ _ => rfl
    by_cases e : j = k + 1
    · subst e; rw [update_self, update_self, ptr_withSize]
    · rw [update_of_ne e, update_of_ne e]
  have hdata : ∀ b, nmeta ≤ b → (putNode s' (k + 1) { d with size := p.length }).disk b = s'.disk b :=
    fun b hb => putNode_data hi (.inl hb)
  obtain ⟨hbooks', hkept⟩ := hbooks.metas hdata
  have hself := hkept (k + 1)
  rw [update_self] at hself
  refine ⟨putNode_sects hi (hst.sects.trans h.sects), ?_, ?_, fun j c' hc' => ?_, fun j c' hc' => ?_, fun j hj => ?_, ?_, ?_⟩
  · rw [List.length_set]; exact hst.freeinode.trans h.count
  · rw [hnode]; exact hbooks'
  · rw [hnode]
    by_cases e : j = k
    · subst e
      rw [List.getElem?_set_self hkl] at hc'
      cases hc'
      rw [update_self]
      exact hself.holds (hh.withSize _)
    · rw [List.getElem?_set_ne (Ne.symm e)] at hc'
      have hj := hkept (j + 1)
      rw [update_of_ne (by omega)] at hj ⊢
      exact hj.holds ((hst.others (j + 1) (by omega)).holds (h.holds j c' hc'))
  · rw [hnode]
    by_cases e : j = k
    · subst e
      rw [List.getElem?_set_self hkl] at hc'
      cases hc'
      rw [update_self]
      exact ⟨_, hd⟩
    · rw [List.getElem?_set_ne (Ne.symm e)] at hc'
      rw [update_of_ne (by omega)]
      exact h.node j c' hc'
  · rw [List.length_set] at hj
    rw [hnode, update_of_ne (by omega)]
    exact h.unused j hj
  · have hset := total_set (p := p) hk
    show s'.freeblock = _
    have hmono : blk (upto c.length) ≤ blk (upto p.length) := blk_mono (upto_mono hle)
    have := h.space
    omega
  · rw [putNode_data hi (.inr (by omega)), hst.metas 1 (by decide)]
    exact h.super

theorem returns_iappend (h : Ok s cs) (hk : cs[k]? = some c) (hn : cs.length < ninodes)
    (hlen : c.length + p.length ≤ maxFile * bsize) (hroom : nmeta + total (cs.set k (c ++ p)) ≤ fsSize) :
    Returns (iappend (k + 1) p) s fun _ s' => Ok s' (cs.set k (c ++ p)) := by
  have hkl := (List.getElem?_eq_some_iff.mp hk).1
  obtain ⟨a, ha⟩ := h.node k c hk
  have hsize : (nodeOf s.disk (k + 1)).size = c.length := by rw [ha]
  have hlen' : (c ++ p).length = c.length + p.length := List.length_append
  have hset := total_set (p := c ++ p) hk
  rw [hlen'] at hset
  have hmono : blk (upto c.length) ≤ blk (upto (c.length + p.length)) := blk_mono (upto_mono (by omega))
  have hspace := h.space
  unfold iappend
  refine returns_rinode (by omega) h.sects (Returns.bind ?_)
  rw [hsize]
  have hbooks : Books s.disk s.freeblock (update (nodeOf s.disk) (k + 1) (nodeOf s.disk (k + 1))) := by
    rw [update_eq_self]; exact h.books
  have happ := returns_appendLoop p.length le_rfl h.sects hbooks (h.holds k c hk) hlen (by omega)
  refine happ.mono fun r s' ⟨hst, hoff, hh, hfree⟩ => ?_
  rw [← bind_pure (winode _ _)]
  refine returns_winode (by omega) (hst.sects.trans h.sects) (.pure ?_)
  rw [hoff, ← hlen']
  exact h.write hk hn hst hh (by rw [hlen']; exact hfree) (by omega) (by omega) (by omega)

theorem fits_new (t : FileType) : Fits { Dinode.blank (some t) with nlink := 1 } :=
  ⟨rfl, rfl, rfl, by show (0 : Nat) < _; decide, fun _ => by show (0 : Nat) < _; decide⟩

theorem ptr_blank {d : Dinode} (h : ∀ j, d.addrs j = 0) (m : Disk) (x : Slot) : ptr d m x = 0 := by
  cases x with
  | direct j => exact h _
  | ind => exact h _
  | entry j => simp [ptr, h]

theorem returns_ialloc {t : FileType} (h : Ok s cs) (hn : cs.length + 1 < ninodes)
    (ht : t = if cs.length = 0 then .dir else .file) :
    Returns (ialloc t) s fun r s' => r = cs.length + 1 ∧ Ok s' (cs ++ [[]]) := by
  unfold ialloc
  have hi : s.freeinode < ninodes := by rw [h.count]; exact hn
  refine Returns.bind ⟨s, s, rfl, Returns.bind ⟨(), { s with freeinode := s.freeinode + 1 }, rfl, ?_⟩⟩
  refine returns_winode hi h.sects (.pure ⟨h.count, ?_⟩)
  have hnode : nodeOf (putNode { s with freeinode := s.freeinode + 1 } s.freeinode
      { Dinode.blank (some t) with nlink := 1 }).disk = update (nodeOf s.disk) s.freeinode
        { Dinode.blank (some t) with nlink := 1 } := nodeOf_put hi (fits_new t)
  -- neither the free inode nor the new one has blocks
  have hbooks : Books s.disk s.freeblock (update (nodeOf s.disk) s.freeinode
      { Dinode.blank (some t) with nlink := 1 }) := by
    refine h.books.congr (fun j => funext fun x => ?_) fun _ _ => rfl
    by_cases e : j = s.freeinode
    · subst e
      rw [update_self, ptr_blank (fun _ => rfl), h.unused _ (.inr (by rw [h.count]; omega)), ptr_blank (fun _ => rfl)]
    · rw [update_of_ne e]
  have hdata : ∀ b, nmeta ≤ b → (putNode { s with freeinode := s.freeinode + 1 } s.freeinode
      { Dinode.blank (some t) with nlink := 1 }).disk b = s.disk b := fun b hb => putNode_data hi (.inl hb)
  obtain ⟨hbooks', hkept⟩ := hbooks.metas hdata
  have hcount := h.count
  -- where the contents `cs ++ [[]]` are
  have hget : ∀ k c, (cs ++ [[]])[k]? = some c → cs[k]? = some c ∨ k = cs.length ∧ c = [] := by
    grind
  refine ⟨putNode_sects hi h.sects, ?_, ?_, fun k c hc => ?_, fun k c hc => ?_, fun j hj => ?_, ?_, ?_⟩
  · show s.freeinode + 1 = _
    rw [List.length_append, List.length_singleton, hcount]
  · rw [hnode]; exact hbooks'
  · rw [hnode]
    rcases hget k c hc with hc | ⟨rfl, rfl⟩
    · have hkl := (List.getElem?_eq_some_iff.mp hc).1
      have hj := hkept (k + 1)
      rw [update_of_ne (by omega)] at hj ⊢
      exact hj.holds (h.holds k c hc)
    · rw [hcount, update_self]
      have hblank : ∀ bn m, blockAt { Dinode.blank (some t) with nlink := 1 } m bn = 0 := by
        intro bn m
        cases hs : slotOf bn with
        | none => simp [blockAt, hs]
        | some x => rw [blockAt_some hs, ptr_blank fun _ => rfl]
      refine ⟨⟨fun bn => ?_, ?_⟩, rfl, fun k _ => ?_⟩
      · rw [hblank]
        exact iff_of_false (fun e => e rfl) (Nat.not_lt_zero _)
      · exact iff_of_false (fun e => e rfl) (by decide)
      · unfold byte fileBlock
        rw [if_pos (hblank _ _)]
        rfl
  · rw [hnode]
    rcases hget k c hc with hc | ⟨rfl, rfl⟩
    · have hkl := (List.getElem?_eq_some_iff.mp hc).1
      rw [update_of_ne (by omega)]
      exact h.node k c hc
    · rw [hcount, update_self, ht]
      exact ⟨_, rfl⟩
  · rw [List.length_append, List.length_singleton] at hj
    rw [hnode, update_of_ne (by omega)]
    exact h.unused j (by omega)
  · show s.freeblock = _
    rw [total_append, h.space]
    rfl
  · rw [putNode_data hi (.inr (by omega))]
    exact h.super

end Inodes

/-! ## `main` -/

@[simp] theorem entry_length (inum : Nat) (name : List UInt8) : (entry inum name).length = direntSize := by
  simp only [entry, List.length_cons, strncpy_length]
  rfl

/-- The entries of the files, from inode `i` on. -/
def entriesFrom : Nat → List Input → List UInt8
  | _, [] => []
  | i, f :: fs => entry i f.name ++ entriesFrom (i + 1) fs

theorem entriesFrom_length (i : Nat) (fs : List Input) : (entriesFrom i fs).length = direntSize * fs.length := by
  induction fs generalizing i with
  | nil => rfl
  | cons f fs ih =>
    simp only [entriesFrom, List.length_append, entry_length, ih, List.length_cons]
    unfold direntSize
    omega

/-- The bytes of the root directory. -/
def rootBytes (files : List Input) : List UInt8 :=
  entry rootIno Namespace.dot ++ entry rootIno Namespace.dotdot ++ entriesFrom 2 files

theorem rootBytes_length (files : List Input) : (rootBytes files).length = direntSize * (files.length + 2) := by
  simp only [rootBytes, List.length_append, entry_length, entriesFrom_length]
  unfold direntSize
  omega

/-- What `mkfs` can be given. -/
structure Accepted (files : List Input) : Prop where
  noSlash : ∀ f ∈ files, Namespace.slash ∉ f.arg
  size : ∀ f ∈ files, f.contents.length ≤ maxFile * bsize
  count : files.length ≤ ninodes - 2
  fit : nmeta + total (rootBytes files :: files.map Input.contents) ≤ fsSize

section Main

variable {s : Img} {cs : List (List UInt8)} {k : Nat} {c : List UInt8}

theorem returns_copy (chunks : List Chunk) (h : Ok s cs) (hk : cs[k]? = some c) (hn : cs.length < ninodes)
    (hlen : (c ++ chunks.flatMap Chunk.bytes).length ≤ maxFile * bsize)
    (hroom : nmeta + total (cs.set k (c ++ chunks.flatMap Chunk.bytes)) ≤ fsSize) :
    Returns (copy (k + 1) chunks) s fun _ s' => Ok s' (cs.set k (c ++ chunks.flatMap Chunk.bytes)) := by
  induction chunks generalizing s cs c with
  | nil =>
    refine .pure ?_
    have hset : cs.set k c = cs := by rw [← (List.getElem?_eq_some_iff.mp hk).2, List.set_getElem_self]
    rw [List.flatMap_nil, List.append_nil, hset]
    exact h
  | cons ch chunks ih =>
    rw [List.flatMap_cons, ← List.append_assoc] at hlen hroom ⊢
    have hkl := (List.getElem?_eq_some_iff.mp hk).1
    have hl : c.length + ch.bytes.length ≤ (c ++ ch.bytes ++ chunks.flatMap Chunk.bytes).length := by
      rw [List.length_append, List.length_append]; omega
    have h1 := total_set (p := c ++ ch.bytes) hk
    have h2 := total_set (p := c ++ ch.bytes ++ chunks.flatMap Chunk.bytes) hk
    have h3 : blk (upto (c ++ ch.bytes).length) ≤ blk (upto (c ++ ch.bytes ++ chunks.flatMap Chunk.bytes).length) :=
      blk_mono (upto_mono (by rw [List.length_append, List.length_append, List.length_append]; omega))
    unfold copy
    refine Returns.bind ((returns_iappend h hk hn (by omega) (by omega)).mono fun _ s' h' => ?_)
    have hset : (cs.set k (c ++ ch.bytes)).set k (c ++ ch.bytes ++ chunks.flatMap Chunk.bytes) =
        cs.set k (c ++ ch.bytes ++ chunks.flatMap Chunk.bytes) := List.set_set ..
    have := ih h' (c := c ++ ch.bytes) (List.getElem?_set_self hkl) (by rw [List.length_set]; exact hn) hlen (by rw [hset]; exact hroom)
    rwa [hset] at this

theorem returns_addFiles (fs : List Input) {root : List UInt8} {done : List (List UInt8)} (h : Ok s (root :: done))
    (hslash : ∀ f ∈ fs, Namespace.slash ∉ f.arg) (hsize : ∀ f ∈ fs, f.contents.length ≤ maxFile * bsize)
    (hn : done.length + fs.length + 1 < ninodes) (hroot : root.length + direntSize * fs.length ≤ maxFile * bsize)
    (hroom : nmeta + total ((root ++ entriesFrom (done.length + 2) fs) :: (done ++ fs.map Input.contents)) ≤ fsSize) :
    Returns (addFiles fs) s fun _ s' =>
      Ok s' ((root ++ entriesFrom (done.length + 2) fs) :: (done ++ fs.map Input.contents)) := by
  induction fs generalizing s root done with
  | nil =>
    refine .pure ?_
    simp only [entriesFrom, List.append_nil, List.map_nil]
    exact h
  | cons f fs ih =>
    obtain ⟨hf, hslash⟩ := List.forall_mem_cons.mp hslash
    obtain ⟨hfs, hsize⟩ := List.forall_mem_cons.mp hsize
    rw [List.length_cons] at hn hroot
    -- the contents after each of the steps
    have hend : (root ++ entriesFrom (done.length + 2) (f :: fs)) :: (done ++ (f :: fs).map Input.contents) =
        ((root ++ entry (done.length + 2) f.name) ++ entriesFrom ((done ++ [f.contents]).length + 2) fs) ::
          ((done ++ [f.contents]) ++ fs.map Input.contents) := by
      simp [entriesFrom, List.append_assoc]
    rw [hend] at hroom ⊢
    have hgrow : blk (upto (root ++ entry (done.length + 2) f.name).length) ≤
        blk (upto ((root ++ entry (done.length + 2) f.name) ++ entriesFrom ((done ++ [f.contents]).length + 2) fs).length) := by
      refine blk_mono (upto_mono ?_)
      exact (List.prefix_append _ _).length_le
    have hnil : total [[]] = 0 := rfl
    rw [total_cons, total_append, total_append] at hroom
    unfold addFiles addFile
    rw [if_neg hf, bind_assoc]
    refine Returns.bind ((returns_ialloc h (by rw [List.length_cons]; omega) (by simp)).mono fun inum s1 ⟨hinum, h1⟩ => ?_)
    rw [List.length_cons] at hinum
    subst hinum
    rw [bind_assoc]
    have hroot1 : ((root :: done) ++ [[]])[0]? = some root := rfl
    have hlen1 : ((root :: done) ++ [[]]).length < ninodes := by
      rw [List.length_append, List.length_cons, List.length_singleton]; omega
    have hset1 : ((root :: done) ++ [[]]).set 0 (root ++ entry (done.length + 2) f.name) =
        (root ++ entry (done.length + 2) f.name) :: (done ++ [[]]) := rfl
    refine Returns.bind ((returns_iappend (k := 0) h1 hroot1 hlen1 ?_ ?_).mono fun _ s2 h2 => ?_)
    · rw [entry_length]; rw [Nat.mul_add] at hroot; omega
    · rw [hset1, total_cons, total_append, hnil]; omega
    · rw [hset1] at h2
      have hlast : ((root ++ entry (done.length + 2) f.name) :: (done ++ [[]]))[done.length + 1]? = some [] := by simp
      have hset2 : ((root ++ entry (done.length + 2) f.name) :: (done ++ [[]])).set (done.length + 1) f.contents =
          (root ++ entry (done.length + 2) f.name) :: (done ++ [f.contents]) := by simp
      have hcopy := returns_copy f.reads h2 hlast
        (by rw [List.length_cons, List.length_append, List.length_singleton]; omega) hfs
        (by rw [List.nil_append, show f.reads.flatMap Chunk.bytes = f.contents from rfl, hset2, total_cons, total_append]; omega)
      refine Returns.bind (hcopy.mono fun _ s3 h3 => ?_)
      rw [List.nil_append, show f.reads.flatMap Chunk.bytes = f.contents from rfl, hset2] at h3
      refine ih h3 hslash hsize ?_ ?_ ?_
      · rw [List.length_append, List.length_singleton]; omega
      · rw [List.length_append, entry_length]; rw [Nat.mul_add] at hroot; omega
      · rw [total_cons, total_append, total_append]; exact hroom

theorem returns_zeroSects {fi fb : Nat} (n a : Nat) {Q : Unit → Img → Prop} (h : Q () ⟨fun _ => zeroBlock, a + n, fi, fb⟩) :
    Returns (zeroSects (List.range' a n)) ⟨fun _ => zeroBlock, a, fi, fb⟩ Q := by
  induction n generalizing a with
  | zero => exact .pure h
  | succ n ih =>
    rw [List.range'_succ]
    refine returns_wsect ?_
    have hput : put ⟨fun _ => zeroBlock, a, fi, fb⟩ a zeroBlock = ⟨fun _ => zeroBlock, a + 1, fi, fb⟩ := by
      simp [put, update_eq_self]
    rw [hput]
    refine ih (a + 1) ?_
    rwa [show a + 1 + n = a + (n + 1) by omega]

/-- The image before the first inode. -/
theorem ok_nil : Ok (put ⟨fun _ => zeroBlock, fsSize, 1, nmeta⟩ 1 (superSector superblock)) [] := by
  have hnode : ∀ i, nodeOf (put ⟨fun _ => zeroBlock, fsSize, 1, nmeta⟩ 1 (superSector superblock)).disk i = Dinode.blank none := by
    intro i
    unfold nodeOf
    split
    · rename_i hi
      have hne : iblock i ≠ 1 := by have := iblock_range hi; omega
      rw [put_disk, update_of_ne hne, getDinode_zero]
    · rfl
  have hptr : ∀ i m x, ptr (nodeOf (put ⟨fun _ => zeroBlock, fsSize, 1, nmeta⟩ 1 (superSector superblock)).disk i) m x = 0 := by
    intro i m x
    rw [hnode]
    exact ptr_blank (fun _ => rfl) m x
  refine ⟨rfl, rfl, ⟨fun i x hx => ?_, fun i x j y hx => ?_, fun b h1 h2 => ?_, fun b hb => ?_, le_rfl⟩,
    fun k c hc => ?_, fun k c hc => ?_, fun i _ => hnode i, rfl, rfl⟩
  · exact absurd (hptr i _ x) hx
  · exact absurd (hptr i _ x) hx
  · exact absurd h2 (Nat.not_lt.mpr h1)
  · have : 1 < nmeta := by decide
    have hb' : nmeta ≤ b := hb
    rw [put_disk, update_of_ne (by omega)]
  · cases hc
  · cases hc

/-- What is on the image. -/
structure Finished (m : Disk) (files : List Input) : Prop where
  super : m 1 = superSector superblock
  bitmap : m bmapstart = bitmapOf (nmeta + total (rootBytes files :: files.map Input.contents))
  books : Books m (nmeta + total (rootBytes files :: files.map Input.contents)) (nodeOf m)
  holds : ∀ k c, (rootBytes files :: files.map Input.contents)[k]? = some c → Holds m (nodeOf m (k + 1)) c
  root : ∃ a, nodeOf m rootIno = ⟨some .dir, 0, 0, 1, ((rootBytes files).length / bsize + 1) * bsize, a⟩
  file : ∀ k c, (files.map Input.contents)[k]? = some c → ∃ a, nodeOf m (k + 2) = ⟨some .file, 0, 0, 1, c.length, a⟩
  unused : ∀ i, i = 0 ∨ files.length + 1 < i → nodeOf m i = Dinode.blank none

variable {files : List Input}

theorem rootBytes_le (h : files.length ≤ ninodes - 2) : (rootBytes files).length ≤ maxFile * bsize := by
  rw [rootBytes_length]
  calc direntSize * (files.length + 2) ≤ direntSize * ninodes := Nat.mul_le_mul_left _ (by unfold ninodes at *; omega)
    _ ≤ maxFile * bsize := by decide

/-- `fixRoot` and `balloc` after the files. -/
theorem returns_finish (h : Ok s (rootBytes files :: files.map Input.contents))
    (hn : files.length ≤ ninodes - 2) (hfit : nmeta + total (rootBytes files :: files.map Input.contents) ≤ fsSize) :
    Returns (do fixRoot; let s ← get; balloc s.freeblock) s fun _ s' => Finished s'.disk files := by
  obtain ⟨a, ha⟩ := h.node 0 _ rfl
  have ha : nodeOf s.disk rootIno = ⟨some .dir, 0, 0, 1, (rootBytes files).length, a⟩ := ha
  have hi : rootIno < ninodes := by decide
  generalize hsz : ((rootBytes files).length / bsize + 1) * bsize = sz
  have hszlt : sz < 2 ^ 32 := by
    have := rootBytes_le hn
    have hm : maxFile * bsize + bsize < 2 ^ 32 := by decide
    rw [← hsz, Nat.add_one_mul]
    have := Nat.div_mul_le_self (rootBytes files).length bsize
    omega
  -- the root's addresses are those before
  have hfits : Fits { nodeOf s.disk rootIno with size := sz } := by
    have hspace := h.space
    have h32 : fsSize < 2 ^ 32 := by decide
    refine ⟨by rw [ha]; rfl, by rw [ha]; rfl, by rw [ha]; rfl, hszlt, fun j => ?_⟩
    have := h.books.addrs_lt rootIno j
    show (nodeOf s.disk rootIno).addrs j < _
    omega
  have hnode : nodeOf (putNode s rootIno { nodeOf s.disk rootIno with size := sz }).disk =
      update (nodeOf s.disk) rootIno { nodeOf s.disk rootIno with size := sz } := nodeOf_put hi hfits
  have hfree : s.freeblock = nmeta + total (rootBytes files :: files.map Input.contents) := h.space
  unfold fixRoot
  rw [bind_assoc]
  refine returns_rinode hi h.sects ?_
  rw [show (nodeOf s.disk rootIno).size = (rootBytes files).length by rw [ha], hsz]
  refine returns_winode hi h.sects (Returns.bind ⟨_, _, rfl, ?_⟩)
  have hused : s.freeblock < bsize * 8 := by
    have : fsSize < bsize * 8 := by decide
    omega
  show Returns (balloc s.freeblock) _ _
  unfold balloc
  rw [if_pos hused, ← bind_pure (wsect _ _)]
  refine returns_wsect (.pure ?_)
  -- the last two blocks written are metadata
  have hdata : ∀ b, nmeta ≤ b ∨ b < 2 → (put (putNode s rootIno { nodeOf s.disk rootIno with size := sz }) bmapstart
      (bitmapOf s.freeblock)).disk b = s.disk b := by
    intro b hb
    have h1 := bmapstart_lt
    have h2 : 2 ≤ bmapstart := by decide
    rw [put_disk, update_of_ne (by omega)]
    exact putNode_data hi hb
  have hnode' : nodeOf (put (putNode s rootIno { nodeOf s.disk rootIno with size := sz }) bmapstart
      (bitmapOf s.freeblock)).disk = update (nodeOf s.disk) rootIno { nodeOf s.disk rootIno with size := sz } := by
    rw [← hnode]
    exact nodeOf_congr fun b _ hb => update_of_ne hb.ne _ _
  obtain ⟨hbooks, hkept⟩ := h.books.metas fun b hb => hdata b (.inl hb)
  refine ⟨?_, ?_, ?_, fun k c hc => ?_, ?_, fun k c hc => ?_, fun i hi => ?_⟩
  · rw [hdata 1 (.inr (by decide))]; exact h.super
  · rw [← hfree, put_disk, update_self]
  · rw [hnode', ← hfree]
    refine hbooks.congr (fun j => ?_) fun _ _ => rfl
    by_cases e : j = rootIno
    · subst e; rw [update_self, ptr_withSize]
    · rw [update_of_ne e]
  · rw [hnode']
    have hk := (hkept (k + 1)).holds (h.holds k c hc)
    by_cases e : k = 0
    · subst e
      have hself : update (nodeOf s.disk) rootIno { nodeOf s.disk rootIno with size := sz } (0 + 1) =
          { nodeOf s.disk rootIno with size := sz } := by rw [show 0 + 1 = rootIno from rfl, update_self]
      rw [hself]
      exact hk.withSize sz
    · rw [update_of_ne (by unfold rootIno; omega)]
      exact hk
  · rw [hnode', update_self, ha, hsz]
    exact ⟨a, rfl⟩
  · rw [hnode', update_of_ne (by unfold rootIno; omega)]
    obtain ⟨b, hb⟩ := h.node (k + 1) c hc
    rw [if_neg (by omega)] at hb
    exact ⟨b, hb⟩
  · rw [hnode', update_of_ne (by unfold rootIno; omega)]
    exact h.unused i (by simpa using hi)

/-- On every input it can be given, `mkfs` writes the image with these files. -/
theorem mkfs_image (h : Accepted files) : ∃ m, mkfs files = .ok m ∧ Finished m files := by
  have hroot := rootBytes_le h.count
  have hcount := h.count
  have hfit := h.fit
  have hmain : Returns (main files) ⟨fun _ => zeroBlock, 0, 1, nmeta⟩ fun _ s' => Finished s'.disk files := by
    unfold main
    rw [List.range_eq_range']
    refine Returns.bind (returns_zeroSects fsSize 0 ?_)
    rw [Nat.zero_add]
    refine returns_wsect (Returns.bind ((returns_ialloc ok_nil (by decide) rfl).mono fun r s1 ⟨hr, h1⟩ => ?_))
    have hr : r = rootIno := hr
    subst hr
    rw [if_neg (fun e => e rfl)]
    -- the root directory alone takes no more than all files
    have hle : ∀ n, n ≤ (rootBytes files).length → nmeta + blk (upto n) ≤ fsSize := by
      intro n hn
      have := blk_mono (upto_mono hn)
      rw [total_cons] at hfit
      omega
    have hlen := rootBytes_length files
    rw [Nat.mul_add] at hlen
    have hset : ∀ c c' : List UInt8, [c].set 0 c' = [c'] := fun _ _ => rfl
    refine Returns.bind ((returns_iappend (k := 0) (c := []) h1 rfl (by decide) ?_ ?_).mono fun _ s2 h2 => ?_)
    · rw [List.length_nil, entry_length]; omega
    · rw [show ([] ++ [[]] : List (List UInt8)) = [[]] from rfl, hset, total_cons, total_nil, Nat.add_zero, List.nil_append, entry_length]
      exact hle _ (by omega)
    · refine Returns.bind ((returns_iappend (k := 0) (c := entry rootIno Namespace.dot) h2 rfl (by decide) ?_ ?_).mono
        fun _ s3 h3 => ?_)
      · rw [entry_length, entry_length]; omega
      · rw [show ([] ++ [[]] : List (List UInt8)).set 0 ([] ++ entry rootIno Namespace.dot) = [entry rootIno Namespace.dot]
          from rfl, hset, total_cons, total_nil, Nat.add_zero, List.length_append, entry_length, entry_length]
        exact hle _ (by omega)
      · have h3' : Ok s3 [entry rootIno Namespace.dot ++ entry rootIno Namespace.dotdot] := h3
        have hadd := returns_addFiles files h3' h.noSlash h.size
          (by rw [List.length_nil]; unfold ninodes at *; omega)
          (by rw [List.length_append, entry_length, entry_length]; omega) hfit
        refine Returns.bind (hadd.mono fun _ s4 h4 => ?_)
        exact returns_finish h4 hcount hfit
  obtain ⟨x, s', hrun, himg⟩ := hmain
  refine ⟨s'.disk, ?_, himg⟩
  unfold mkfs
  rw [show main files ⟨fun _ => zeroBlock, 0, 1, nmeta⟩ = .ok (x, s') from hrun]
  rfl

end Main

/-! ## The root directory's entries -/

def rootEntries (files : List Input) : List (List UInt8) :=
  entry rootIno Namespace.dot :: entry rootIno Namespace.dotdot :: files.mapIdx fun k f => entry (k + 2) f.name

theorem rootEntries_length (files : List Input) : (rootEntries files).length = files.length + 2 := by
  simp [rootEntries]

variable {files : List Input}

theorem rootEntries_size : ∀ e ∈ rootEntries files, e.length = direntSize := by
  intro e he
  simp only [rootEntries, List.mem_cons, List.mem_mapIdx] at he
  rcases he with rfl | rfl | ⟨k, _, rfl⟩ <;> exact entry_length _ _

theorem entriesFrom_eq (i : Nat) (fs : List Input) : entriesFrom i fs = (fs.mapIdx fun k f => entry (k + i) f.name).flatten := by
  induction fs generalizing i with
  | nil => rfl
  | cons f fs ih =>
    rw [entriesFrom, ih, List.mapIdx_cons, List.flatten_cons, Nat.zero_add]
    simp only [Nat.add_assoc, Nat.add_comm 1]

theorem rootBytes_eq (files : List Input) : rootBytes files = (rootEntries files).flatten := by
  simp [rootBytes, rootEntries, entriesFrom_eq]

/-- A piece of a list of pieces of one length. -/
theorem flatten_piece {w : Nat} {L : List (List UInt8)} (hw : ∀ e ∈ L, e.length = w) {k : Nat} {e : List UInt8}
    (hk : L[k]? = some e) : (L.flatten.drop (w * k)).take w = e := by
  induction L generalizing k with
  | nil => cases hk
  | cons x L ih =>
    obtain ⟨hx, hL⟩ := List.forall_mem_cons.mp hw
    cases k with
    | zero =>
      cases hk
      rw [Nat.mul_zero, List.drop_zero, List.flatten_cons, List.take_append_of_le_length (by omega), List.take_of_length_le (by omega)]
    | succ k =>
      rw [List.flatten_cons, List.drop_append, List.drop_of_length_le (by rw [hx, Nat.mul_succ]; omega), List.nil_append,
        hx, Nat.mul_succ, Nat.add_sub_cancel]
      exact ih hL hk

theorem Finished.entry (h : Finished m files) {k : Nat} {e : List UInt8}
    (hk : (rootEntries files)[k]? = some e) : bytes (nodeOf m rootIno) m (direntSize * k) direntSize = e := by
  have hlen := (List.getElem?_eq_some_iff.mp hk).1
  rw [rootEntries_length] at hlen
  have hh : Holds m (nodeOf m rootIno) (rootBytes files) := h.holds 0 _ rfl
  rw [bytes_sub hh.bytes ?_, rootBytes_eq]
  · exact flatten_piece rootEntries_size hk
  · rw [rootBytes_length, ← Nat.mul_succ]
    exact Nat.mul_le_mul_left _ (by omega)

theorem Finished.entry_none (h : Finished m files) {k : Nat} (hk : files.length + 2 ≤ k) :
    bytes (nodeOf m rootIno) m (direntSize * k) direntSize = List.replicate direntSize 0 := by
  have hh : Holds m (nodeOf m rootIno) (rootBytes files) := h.holds 0 _ rfl
  refine List.ext_getElem (by simp) fun j h1 h2 => ?_
  rw [List.getElem_replicate]
  simp only [bytes, List.getElem_map, List.getElem_range]
  refine hh.tail _ ?_
  show (rootBytes files).length ≤ _
  rw [rootBytes_length]
  exact (Nat.mul_le_mul_left _ hk).trans (Nat.le_add_right _ _)

/-- The inode number and the name of entry `k`. -/
def nameAt (files : List Input) : Nat → Option (List UInt8)
  | 0 => some Namespace.dot
  | 1 => some Namespace.dotdot
  | k + 2 => (files[k]?).map Input.name

theorem rootEntries_getElem? (files : List Input) (k : Nat) :
    (rootEntries files)[k]? = (nameAt files k).map fun name => Mkfs.entry (max k 1) name := by
  match k with
  | 0 => rfl
  | 1 => rfl
  | k + 2 => cases h : files[k]? <;> simp [rootEntries, nameAt, h]

/-! ## The kernel's view of it -/

theorem readsb_super : ∀ m : Disk, m 1 = superSector superblock → readsb m = superblock := by
  intro m h
  unfold readsb
  rw [h]
  decide +kernel

theorem Finished.readsb (h : Finished m files) : readsb m = superblock := readsb_super m h.super

theorem Finished.inode {P : Type} (h : Finished m files) {i : Nat} (hi : i < ninodes) :
    (mounted P m).inode i = nodeOf m i := by
  show inodeAt (Image.readsb m) m i = _
  rw [h.readsb, nodeOf, if_pos hi]
  rfl

theorem bit_bitmapOf {used b : Nat} (hu : used ≤ bsize * 8) : bit (bitmapOf used) b = decide (b < used) := by
  unfold bitmapOf
  induction used with
  | zero => simp [bit_zero]
  | succ n ih =>
    rw [List.range_succ, List.foldl_append, List.foldl_cons, List.foldl_nil, bit_setBit (by unfold bsize at *; omega),
      ih (by omega)]
    by_cases h : b < n
    · simp [h]; omega
    · by_cases e : b = n
      · simp [e]
      · simp [h, e]; omega

theorem Finished.bitmapAt {P : Type} (h : Finished m files) (ha : Accepted files) {b : Nat} (hb : b < fsSize) :
    (mounted P m).bitmap b = decide (b < nmeta + total (rootBytes files :: files.map Input.contents)) := by
  have hbpb : bpb = 4096 := by decide
  have hfs : fsSize = 1000 := rfl
  have hfit := ha.fit
  show bit (m (b / bpb + (Image.readsb m).bmapstart)) (b % bpb) = _
  rw [h.readsb, Nat.div_eq_of_lt (by omega), Nat.mod_eq_of_lt (by omega), Nat.zero_add]
  show bit (m bmapstart) b = _
  rw [h.bitmap, bit_bitmapOf (by unfold bsize; omega)]

end Xv6.Mkfs
