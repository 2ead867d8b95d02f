/-
  Xv6.Fs.LogBudget — how many blocks one chunk of `filewrite` logs (`fs.c`: `bzero`,
  `balloc`, `bmap`, `iupdate`, `writei`; `file.c`: `max` in `filewrite`).

  `logged` is the block that an action passes to `log_write`: the bitmap block that
  `balloc` marks in, the block it zeroes, the indirect block, a data block, the inode's
  block. Each round of `writei` logs its data block; it allocates at most that block and,
  once, the indirect block, and each allocation dirties one bitmap block. A chunk that
  does not begin at a block boundary has one round more, and its first block is there.

    • `writei_fits_reservation`: at most `MAXOPBLOCKS` different blocks, whatever the
      geometry and the bitmap, as long as block 0 is not free.
    • `block_zero_free`: with block 0 free there can be more, since the number 0 of the
      indirect block is taken for none and it is allocated again.
-/

import Xv6.Fs.Filewrite
import Xv6.Fs.Image

namespace Xv6.Fs.LogBudget

open Xv6.Lib Prog Blocks Contents Filewrite Image Function List

/-- `IBLOCK(i, sb)`. -/
def iblock (g : Super) (i : Nat) : Nat := i / ipb + g.inodestart

/-- `BBLOCK(b, sb)`. -/
def bblock (g : Super) (b : Nat) : Nat := b / bpb + g.bmapstart

/-- The block an action passes to `log_write`. -/
def logged (g : Super) : (a : Act) → a.Res → List Nat
  | .mark _ j, some _ => [bblock g (j * bpb)]
  | .claim i _, true => [iblock g i]
  | .bzero _ b, _ => [b]
  | .bfree _ b, _ => [bblock g b]
  | .bwrite _ b _, _ => [b]
  | .iupdate i _, _ => [iblock g i]
  | _, _ => []

/-- The different blocks that a run passes to `log_write`. -/
def loggedBlocks {P : Type} (sb : Superblock) (g : Super) (p : P) (c : M α) (s : Store P) : Finset Nat :=
  (emitted (exec sb) (logged g) p c s).toFinset

/-! ## Allocation -/

section Alloc

variable {P : Type} {sb : Superblock} {g : Super} {p : P} {s : Store P} {ip : Nat} {d : Dinode}

theorem emits_ballocFrom (h0 : s.bitmap 0 = true) (js : List Nat) :
    Emits (exec sb) (logged g) p (ballocFrom ip js) s
      (fun b s' l => b ≠ 0 ∧ s'.bitmap 0 = true ∧ ∃ m, l = [m, b]) (· = []) := by
  induction js with
  | nil => exact Emits.fail rfl rfl
  | cons j js ih =>
    cases hfind : (bits sb j).find? fun b => !s.bitmap b with
    | none =>
      have hx : exec sb p (.mark ip j) s = .ok (none, s) := by simp only [exec, hfind]
      exact (emits_act hx).2 ih
    | some b =>
      have hx : exec sb p (.mark ip j) s = .ok (some b, { s with bitmap := update s.bitmap b true }) := by
        simp only [exec, hfind]
      have hb : b ≠ 0 := fun e => by
        have := find?_some hfind
        rw [e, h0] at this
        cases this
      refine (emits_act hx).2 ⟨hb, ?_, bblock g (j * bpb), rfl⟩
      show update s.bitmap b true 0 = true
      rw [update_of_ne hb.symm]
      exact h0

theorem emits_balloc (h0 : s.bitmap 0 = true) :
    Emits (exec sb) (logged g) p (balloc sb ip) s (fun b s' l => b ≠ 0 ∧ s'.bitmap 0 = true ∧ ∃ m, l = [m, b]) (· = []) :=
  emits_ballocFrom h0 _

/-- What `ensureAddr` of a slot gives and logs. -/
structure Ensured (d : Dinode) (j : Fin (ndirect + 1)) (b : Nat) (d' : Dinode) (s' : Store P) (l : List Nat) : Prop where
  addr : d'.addrs j = b
  ne : b ≠ 0
  others : ∀ k, k ≠ j → d'.addrs k = d.addrs k
  zero : s'.bitmap 0 = true
  cost : (d' = d ∧ l = []) ∨ (d.addrs j = 0 ∧ ∃ m, l = [m, b])

theorem emits_ensureAddr (h0 : s.bitmap 0 = true) (j : Fin (ndirect + 1)) :
    Emits (exec sb) (logged g) p (ensureAddr sb ip d j) s (fun x s' l => Ensured d j x.1 x.2 s' l) (· = []) := by
  unfold ensureAddr
  split
  · rename_i hz
    refine Emits.bind ((emits_balloc h0).mono (fun b s' l ⟨hb, hs, m, hl⟩ => ?_) fun _ e => e)
    refine ⟨update_self _ _ _, hb, fun k hk => update_of_ne hk _ _, hs, .inr ⟨hz, m, ?_⟩⟩
    rw [hl]
    rfl
  · rename_i hz
    exact ⟨rfl, hz, fun _ _ => rfl, h0, .inl ⟨rfl, rfl⟩⟩

end Alloc

/-! ## Rounds -/

/-- The list has at most `c` different numbers besides the indirect block's. -/
def Covered (l : List Nat) (c ind : Nat) : Prop := ∃ C : Finset Nat, C.card ≤ c ∧ ∀ x ∈ l, x ∈ C ∨ (x = ind ∧ ind ≠ 0)

variable {l : List Nat}

theorem Covered.append {l' : List Nat} {c c' ind : Nat} (h : Covered l c ind) (h' : Covered l' c' ind) : Covered (l ++ l') (c + c') ind := by
  obtain ⟨C, hc, hl⟩ := h
  obtain ⟨C', hc', hl'⟩ := h'
  refine ⟨C ∪ C', (Finset.card_union_le _ _).trans (Nat.add_le_add hc hc'), fun x hx => ?_⟩
  rcases mem_append.1 hx with hx | hx
  · exact (hl x hx).imp (Finset.mem_union_left _) id
  · exact (hl' x hx).imp (Finset.mem_union_right _) id

/-- An indirect block there is stays. -/
theorem Covered.of_kept {c ind ind' : Nat} (h : Covered l c ind) (hk : ind ≠ 0 → ind' = ind) : Covered l c ind' := by
  obtain ⟨C, hc, hl⟩ := h
  refine ⟨C, hc, fun x hx => (hl x hx).imp id fun ⟨e, hne⟩ => ?_⟩
  rw [hk hne]
  exact ⟨e, hne⟩

theorem Covered.card_le {c ind : Nat} (h : Covered l c ind) : l.toFinset.card ≤ c + 1 := by
  obtain ⟨C, hc, hl⟩ := h
  have hsub : l.toFinset ⊆ insert ind C := fun x hx => by
    rcases hl x (mem_toFinset.1 hx) with hx | ⟨rfl, _⟩
    · exact Finset.mem_insert_of_mem hx
    · exact Finset.mem_insert_self _ _
  exact (Finset.card_le_card hsub).trans ((Finset.card_insert_le _ _).trans (Nat.add_le_add_right hc 1))

/-- The indirect block is still to be allocated. -/
def lacks (d : Dinode) : Nat := if d.addrs indirect = 0 then 1 else 0

/-- From the copy `d` to `d'`, the blocks `l` were logged: at most `n` and the indirect
    block, with one more for the indirect block's allocation. -/
structure Spent (d : Dinode) (n : Nat) (l : List Nat) (d' : Dinode) : Prop where
  kept : d.addrs indirect ≠ 0 → d'.addrs indirect = d.addrs indirect
  cost : ∃ c, Covered l c (d'.addrs indirect) ∧ c + lacks d' ≤ n + lacks d

theorem Spent.trans {d d' d'' : Dinode} {n n' : Nat} {l' : List Nat} (h : Spent d n l d') (h' : Spent d' n' l' d'') :
    Spent d (n + n') (l ++ l') d'' := by
  obtain ⟨c, hc, hle⟩ := h.cost
  obtain ⟨c', hc', hle'⟩ := h'.cost
  refine ⟨fun hne => ?_, c + c', (hc.of_kept h'.kept).append hc', by omega⟩
  have hkept := h.kept hne
  rw [h'.kept (by rw [hkept]; exact hne), hkept]

theorem Spent.mono {d d' : Dinode} {n n' : Nat} (h : Spent d n l d') (hn : n ≤ n') : Spent d n' l d' := by
  obtain ⟨c, hc, hle⟩ := h.cost
  exact ⟨h.kept, c, hc, by omega⟩

/-- A list that does not need the exception. -/
theorem Spent.of_list {d d' : Dinode} {n : Nat} (hind : d'.addrs indirect = d.addrs indirect)
    (C : Finset Nat) (hc : C.card ≤ n) (hl : ∀ x ∈ l, x ∈ C ∨ (x = d.addrs indirect ∧ d.addrs indirect ≠ 0)) : Spent d n l d' := by
  refine ⟨fun _ => hind, n, ⟨C, hc, by rw [hind]; exact hl⟩, ?_⟩
  unfold lacks
  rw [hind]

theorem Spent.nil (d : Dinode) (n : Nat) : Spent d n [] d :=
  .of_list rfl ∅ (Nat.zero_le n) fun _ h => absurd h not_mem_nil

section Rounds

variable {P : Type} {sb : Superblock} {g : Super} {p : P} {s : Store P} {ip bn : Nat} {d : Dinode}

/-- A block that is there costs itself. -/
theorem emits_bmap_present {F : List Nat → Prop} (h : blockAt d s.data bn ≠ 0) :
    Emits (exec sb) (logged g) p (bmap sb ip d bn) s (fun x s' l => s' = s ∧ Spent d 1 (l ++ [x.1]) x.2) F := by
  obtain ⟨hrun, hup⟩ : Contents.Reads sb p (bmap sb ip d bn) s (blockAt d s.data bn, d) := reads_bmap h
  refine Emits.silent hrun hup (fun a _ r ha => ?_) ⟨rfl, .of_list rfl {blockAt d s.data bn} le_rfl fun x hx => ?_⟩
  · cases a <;> first | rfl | exact ha.elim
  · exact .inl (Finset.mem_singleton.2 (mem_singleton.1 hx))

/-- The blocks logged for the indirect block, and others. -/
theorem Ensured.spent {d' : Dinode} {l rest : List Nat} {i n : Nat} {s' : Store P} (h : Ensured d indirect i d' s' l) (C : Finset Nat)
    (hC : C.card ≤ n) (hrest : ∀ x ∈ rest, x ∈ C ∨ x = i) : Spent d n (l ++ rest) d' := by
  have hi : d'.addrs indirect = i := h.addr
  rcases h.cost with ⟨rfl, rfl⟩ | ⟨hz, m, rfl⟩
  · exact .of_list rfl C hC fun x hx => (hrest x hx).imp id fun e => ⟨by rw [hi]; exact e, by rw [hi]; exact h.ne⟩
  · refine ⟨fun hne => absurd hz hne, n + 1, ⟨insert m C, (Finset.card_insert_le _ _).trans (Nat.add_le_add_right hC 1), fun x hx => ?_⟩, ?_⟩
    · rw [hi]
      simp only [cons_append, nil_append, mem_cons] at hx
      rcases hx with rfl | rfl | hx
      · exact .inl (Finset.mem_insert_self _ _)
      · exact .inr ⟨rfl, h.ne⟩
      · exact (hrest x hx).imp (Finset.mem_insert_of_mem) fun e => ⟨e, h.ne⟩
    · unfold lacks
      rw [if_pos hz, if_neg (by rw [hi]; exact h.ne)]

/-- Any block costs itself, and a bitmap block if it is allocated. -/
theorem emits_bmap (h0 : s.bitmap 0 = true) :
    Emits (exec sb) (logged g) p (bmap sb ip d bn) s (fun x s' l => s'.bitmap 0 = true ∧ Spent d 2 (l ++ [x.1]) x.2)
      (fun l => ∃ d', Spent d 0 l d') := by
  unfold bmap
  split
  · rename_i hbn
    refine (emits_ensureAddr h0 _).mono (fun x s' l h => ⟨h.zero, ?_⟩) fun l e => ⟨d, e ▸ .nil d 0⟩
    have hind : x.2.addrs indirect = d.addrs indirect := h.others _ (Fin.castSucc_lt_last _).ne'
    rcases h.cost with ⟨_, rfl⟩ | ⟨_, m, rfl⟩
    · exact .of_list hind {x.1} (by simp) fun y hy => .inl (by simpa using hy)
    · refine .of_list hind {m, x.1} Finset.card_le_two fun y hy => .inl ?_
      simpa using hy
  · split
    · refine Emits.bind ((emits_ensureAddr h0 _).mono (fun x s₁ l h => ?_) fun l e => ⟨d, e ▸ .nil d 0⟩)
      refine (emits_act (show exec sb p (.bread ip x.1) s₁ = .ok (s₁.data x.1, s₁) from rfl)).2 ?_
      show Emits _ _ _ (if _ then _ else _) _ _ _
      split
      · refine Emits.bind ((emits_balloc h.zero).mono (fun b s₂ l' ⟨_, hz, m, hl⟩ => ?_) fun l' hl => ?_)
        · refine (emits_act (show exec sb p (.bwrite ip x.1 _) s₂ = .ok ((), _) from rfl)).2 ⟨hz, ?_⟩
          subst hl
          simp only [append_assoc]
          refine h.spent {m, b} Finset.card_le_two fun y hy => ?_
          simp [logged] at hy ⊢
          tauto
        · subst hl
          exact ⟨x.2, h.spent ∅ le_rfl fun y hy => by simp [logged] at hy⟩
      · refine ⟨h.zero, ?_⟩
        simp only [append_assoc]
        exact h.spent {word (s₁.data x.1) (bn - ndirect)} (by simp) fun y hy => .inl (by simpa [logged, emitted] using hy)
    · exact Emits.fail rfl ⟨d, .nil d 0⟩

/-- The loop of `writei`: `k` rounds, the first on a block that is there if `u` is 1. -/
theorem emits_writeLoop {fuel k u off : Nat} {src : List UInt8} (h0 : s.bitmap 0 = true)
    (hk : src ≠ [] → off % bsize + src.length ≤ k * bsize) (hu : u = 0 ∨ u = 1 ∧ src ≠ [] ∧ blockAt d s.data (off / bsize) ≠ 0) :
    Emits (exec sb) (logged g) p (writeLoop sb ip fuel d src off) s (fun d' _ l => Spent d (2 * k - u) l d')
      (fun l => ∃ d', Spent d (2 * k - u) l d') := by
  induction fuel generalizing s d src off k u with
  | zero => exact .nil d _
  | succ fuel ih =>
    unfold writeLoop
    split
    · exact .nil d _
    · rename_i hlen
      have hne : src ≠ [] := fun e => hlen (by rw [e]; rfl)
      have hround := hk hne
      have hmod := mod_bsize off
      obtain ⟨k, rfl⟩ : ∃ k', k = k' + 1 := ⟨k - 1, by
        rcases k with _ | k
        · rw [Nat.zero_mul] at hround
          omega
        · rfl⟩
      -- this round
      have hbmap : Emits (exec sb) (logged g) p (bmap sb ip d (off / bsize)) s
          (fun x s' l => s'.bitmap 0 = true ∧ Spent d (2 - u) (l ++ [x.1]) x.2) (fun l => ∃ d', Spent d 0 l d') := by
        rcases hu with rfl | ⟨rfl, _, hat⟩
        · exact emits_bmap h0
        · exact (emits_bmap_present hat).mono (fun x s' l h => ⟨by rw [h.1]; exact h0, h.2⟩) fun _ h => h
      refine Emits.bind (hbmap.mono (fun x s₁ l hx => ?_) fun l h => h.imp fun d' h => h.mono (Nat.zero_le _))
      obtain ⟨hz, h⟩ := hx
      refine (emits_act (show exec sb p (.bread ip x.1) s₁ = .ok (s₁.data x.1, s₁) from rfl)).2 ?_
      refine (emits_act (show exec sb p (.bwrite ip x.1 _) s₁ = .ok ((), _) from rfl)).2 ?_
      -- the others
      have hall : ∀ l' d', Spent x.2 (2 * k - 0) l' d' → Spent d (2 * (k + 1) - u) (l ++ ([] ++ ([x.1] ++ l'))) d' := fun l' d' h' => by
        have hmono : 2 - u + (2 * k - 0) ≤ 2 * (k + 1) - u := by omega
        simpa using (h.trans h').mono hmono
      show Emits _ _ _ (writeLoop sb ip fuel x.2 (src.drop (min src.length (bsize - off % bsize))) _) _ _ _
      refine Emits.mono (F := fun l' => ∃ d', Spent x.2 (2 * k - 0) l' d') (ih (u := 0) (k := k) hz (fun hrest => ?_) (.inl rfl))
        (fun d' _ l' h' => hall l' d' h') fun l' h' => h'.imp (hall l')
      have hpos : 0 < (src.drop (min src.length (bsize - off % bsize))).length := length_pos_of_ne_nil hrest
      rw [length_drop] at hpos ⊢
      have hm : min src.length (bsize - off % bsize) = bsize - off % bsize := by omega
      rw [hm]
      have hstart : (off + (bsize - off % bsize)) % bsize = 0 := by
        unfold bsize
        omega
      rw [hstart]
      rw [Nat.add_mul] at hround
      omega

/-- A chunk of `filewrite` passes at most `MAXOPBLOCKS` different blocks to `log_write`. -/
theorem writei_fits_reservation (sb : Superblock) (g : Super) (dev : Devsw) (p : P) (ip : Nat) (d : Dinode) (s : Store P) (off : Nat)
    (src : List UInt8) (hfile : d.type = some .file) (hall : ∀ bn, bn < nblk d → blockAt d s.data bn ≠ 0) (h0 : s.bitmap 0 = true)
    (hoff : off ≤ d.size) (hn : src.length ≤ chunkMax) :
    (loggedBlocks sb g p (writei sb dev ip d src off) s).card ≤ maxOpBlocks := by
  have hcm : chunkMax = 3 * bsize := by decide
  have hpos : 0 < bsize := by decide
  have hmod := mod_bsize off
  -- three rounds, or four of which the first finds its block
  obtain ⟨k, u, hbudget, hk, hu⟩ : ∃ k u, 2 * k - u ≤ 7 ∧ (src ≠ [] → off % bsize + src.length ≤ k * bsize) ∧
      (u = 0 ∨ u = 1 ∧ src ≠ [] ∧ blockAt d s.data (off / bsize) ≠ 0) := by
    by_cases haligned : off % bsize = 0
    · exact ⟨3, 0, by omega, fun _ => by omega, .inl rfl⟩
    · by_cases hsrc : src = []
      · exact ⟨3, 0, by omega, fun hne => absurd hsrc hne, .inl rfl⟩
      · refine ⟨4, 1, by omega, fun _ => by omega, .inr ⟨rfl, hsrc, hall _ ?_⟩⟩
        unfold nblk bsize at *
        omega
  have hloop : Emits (exec sb) (logged g) p (writeLoop sb ip src.length d src off) s (fun d' _ l => Spent d (2 * k - u) l d')
      (fun l => ∃ d', Spent d (2 * k - u) l d') := emits_writeLoop h0 hk hu
  have hlacks : ∀ d, lacks d ≤ 1 := fun d => by unfold lacks; split <;> omega
  have hspent : ∀ l d', Spent d (2 * k - u) l d' → l.toFinset.card ≤ 9 := fun l d' h => by
    obtain ⟨c, hc, hle⟩ := h.cost
    have := hlacks d
    exact hc.card_le.trans (by omega)
  have hends : Emits (exec sb) (logged g) p (writei sb dev ip d src off) s (fun _ _ l => l.toFinset.card ≤ 10)
      (fun l => l.toFinset.card ≤ 10) := by
    unfold writei
    dsimp only
    rw [if_neg (by rw [hfile]; decide)]
    split
    · exact Nat.zero_le _
    · split
      · exact Nat.zero_le _
      · refine Emits.bind (hloop.mono (fun d' s' l h => ?_) fun l ⟨d', h⟩ => (hspent l d' h).trans (by omega))
        split
        · refine (emits_act (show exec sb p (.iupdate ip _) s' = .ok ((), _) from rfl)).2 ?_
          show (l ++ [iblock g ip]).toFinset.card ≤ 10
          rw [List.toFinset_append]
          exact (Finset.card_union_le _ _).trans (Nat.add_le_add (hspent l d' h) (List.toFinset_card_le _))
        · show (l ++ []).toFinset.card ≤ 10
          rw [List.append_nil]
          exact (hspent l d' h).trans (by omega)
  exact hends.always

end Rounds

/-! ## Block 0 free -/

/-- Five bitmap blocks, and the inodes in block 32. -/
def wide : Superblock := ⟨20480, 20441, 8, by decide, by decide⟩

def wideSuper : Super := ⟨20480, 20441, 8, 30, 2, 32, 34⟩

/-- Of each bitmap block only the first bit is clear, of the first `i` not that either. -/
def heads (i b : Nat) : Bool := decide (b % bpb ≠ 0 ∨ b / bpb < i)

section Wide

variable {p : Unit} {s : Store Unit} {ip i bn : Nat} {d : Dinode} {Q : β → Store Unit → List Nat → Prop} {F : List Nat → Prop}

theorem heads_find {j : Nat} (hj : j < 5) (hs : s.bitmap = heads i) :
    ((bits wide j).find? fun b => !s.bitmap b) = if j < i then none else some (j * bpb) := by
  have hbits : bits wide j = range' (j * bpb) bpb := by
    show range' (j * bpb) (min bpb (20480 - j * bpb)) = _
    rw [Nat.min_eq_left (by unfold bpb bsize; omega)]
  rw [hbits, hs]
  split
  · rename_i hlt
    refine find?_eq_none.2 fun b hb => ?_
    have hb := mem_range'_1.1 hb
    unfold heads bpb bsize at *
    simp
    omega
  · rename_i hge
    show find? _ (j * bpb :: range' (j * bpb + 1) (bpb - 1)) = _
    refine find?_cons_of_pos ?_
    unfold heads bpb bsize
    simp
    omega

/-- Block `b`, the first of bitmap block `i`, is taken. -/
def took (s : Store Unit) (i b : Nat) : Store Unit := { s with bitmap := heads (i + 1), data := Function.update s.data b zeroBlock }

theorem exec_mark_heads (hs : s.bitmap = heads i) (hi : i < 5) :
    exec wide p (.mark ip i) s = .ok (some (i * bpb), { s with bitmap := heads (i + 1) }) := by
  have hfind := heads_find hi hs
  rw [if_neg (lt_irrefl i)] at hfind
  simp only [exec, hfind]
  congr 3
  rw [hs]
  funext b
  by_cases e : b = i * bpb
  · rw [e, update_self]
    simp [heads, bpb, bsize]
  · rw [update_of_ne e]
    refine decide_eq_decide.2 ?_
    unfold bpb bsize at *
    omega

variable {b a : Nat}

theorem emits_balloc_heads {k : Nat → M β} (hs : s.bitmap = heads i) (hi : i < 5) (hb : i * bpb = b)
    (h : Emits (exec wide) (logged wideSuper) p (k b) (took s i b) (fun x s' l => Q x s' ([34 + i, b] ++ l)) fun l => F ([34 + i, b] ++ l)) :
    Emits (exec wide) (logged wideSuper) p (balloc wide ip >>= k) s Q F := by
  have hblock : bblock wideSuper (i * bpb) = 34 + i := by
    show i * bpb / bpb + 34 = 34 + i
    rw [Nat.mul_div_cancel _ (by decide), Nat.add_comm]
  have hfrom : ∀ n j, j ≤ i → j + n = 5 → Emits (exec wide) (logged wideSuper) p (ballocFrom ip (range' j n) >>= k) s Q F := by
    intro n
    induction n with
    | zero => intro j hj hn; omega
    | succ n ih =>
      intro j hj hn
      by_cases hlt : j < i
      · have hfind := heads_find (j := j) (by omega) hs
        rw [if_pos hlt] at hfind
        have hx : exec wide p (.mark ip j) s = .ok (none, s) := by simp only [exec, hfind]
        exact (emits_act hx).2 (ih (j + 1) (by omega) (by omega))
      · obtain rfl : j = i := by omega
        refine (emits_act (exec_mark_heads hs hi)).2 ?_
        refine (emits_act (show exec wide p (.bzero ip (j * bpb)) _ = .ok ((), _) from rfl)).2 ?_
        simp only [logged, hblock]
        subst hb
        exact h
  have hlist : range ((wide.size + bpb - 1) / bpb) = range' 0 5 := by decide
  show Emits _ _ _ (ballocFrom ip (range ((wide.size + bpb - 1) / bpb)) >>= k) _ _ _
  rw [hlist]
  exact hfrom 5 0 (Nat.zero_le _) rfl

theorem bmap_entry (k : Nat × Dinode → M β) (hbn : ndirect ≤ bn ∧ bn - ndirect < nindirect) :
    (bmap wide ip d bn >>= k) = ensureAddr wide ip d indirect >>= fun r => act (.bread ip r.1) fun (v : Block) =>
      if word v (bn - ndirect) = 0 then balloc wide ip >>= fun b => act (.bwrite ip r.1 (setWord v (bn - ndirect) b)) fun _ => k (b, r.2)
      else k (word v (bn - ndirect), r.2) := by
  unfold bmap
  rw [dif_neg (by omega), if_pos hbn.2, Prog.bind_assoc]
  refine congrArg _ (funext fun r => congrArg (act _) (funext fun v => ?_))
  show (if word v (bn - ndirect) = 0 then balloc wide ip >>= fun b => bwrite ip r.1 (setWord v (bn - ndirect) b) >>= fun _ =>
    ret (b, r.2) else ret (word v (bn - ndirect), r.2)) >>= k = _
  split
  · rw [Prog.bind_assoc]
    rfl
  · rfl

variable {k : Nat × Dinode → M β}

/-- The rest of `bmap`, once there is the indirect block `a`. -/
theorem emits_missing {j : Nat} (hs : s.bitmap = heads i) (hi : i < 5) (hb : i * bpb = b) (hw : word (s.data a) j = 0)
    (h : Emits (exec wide) (logged wideSuper) p (k (b, d)) (stored (took s i b) a (setWord (s.data a) j b))
      (fun x s' l => Q x s' ([34 + i, b, a] ++ l)) fun l => F ([34 + i, b, a] ++ l)) :
    Emits (exec wide) (logged wideSuper) p (act (.bread ip a) fun (v : Block) => if word v j = 0 then
      balloc wide ip >>= fun b => act (.bwrite ip a (setWord v j b)) fun _ => k (b, d) else k (word v j, d)) s Q F := by
  refine (emits_act (show exec wide p (.bread ip a) s = .ok (s.data a, s) from rfl)).2 ?_
  rw [if_pos hw]
  refine emits_balloc_heads hs hi hb ?_
  exact (emits_act (show exec wide p (.bwrite ip a _) _ = .ok ((), _) from rfl)).2 h

/-- `bmap` of a missing entry. -/
theorem emits_entry (hs : s.bitmap = heads i) (hi : i < 5) (hb : i * bpb = b)
    (hbn : ndirect ≤ bn ∧ bn - ndirect < nindirect) (ha : d.addrs indirect = a) (h0 : a ≠ 0) (hw : word (s.data a) (bn - ndirect) = 0)
    (h : Emits (exec wide) (logged wideSuper) p (k (b, d)) (stored (took s i b) a (setWord (s.data a) (bn - ndirect) b))
      (fun x s' l => Q x s' ([34 + i, b, a] ++ l)) fun l => F ([34 + i, b, a] ++ l)) :
    Emits (exec wide) (logged wideSuper) p (bmap wide ip d bn >>= k) s Q F := by
  subst ha
  rw [bmap_entry k hbn, ensureAddr, if_neg h0]
  exact emits_missing hs hi hb hw h

/-- `bmap` of an entry, without an indirect block. -/
theorem emits_entry_new (hs : s.bitmap = heads i) (hi : i + 1 < 5) (ha : i * bpb = a)
    (hb : (i + 1) * bpb = b) (hbn : ndirect ≤ bn ∧ bn - ndirect < nindirect) (hz : d.addrs indirect = 0)
    (h : Emits (exec wide) (logged wideSuper) p (k (b, d.setAddr indirect a))
      (stored (took (took s i a) (i + 1) b) a (setWord zeroBlock (bn - ndirect) b))
      (fun x s' l => Q x s' ([34 + i, a] ++ ([34 + (i + 1), b, a] ++ l))) fun l => F ([34 + i, a] ++ ([34 + (i + 1), b, a] ++ l))) :
    Emits (exec wide) (logged wideSuper) p (bmap wide ip d bn >>= k) s Q F := by
  have hread : (took s i a).data a = zeroBlock := update_self _ _ _
  have hw : word zeroBlock (bn - ndirect) = 0 := by simp [word, byteAt, zeroBlock]
  rw [bmap_entry k hbn, ensureAddr, if_pos hz, Prog.bind_assoc]
  refine emits_balloc_heads hs (by omega) ha ?_
  refine emits_missing (s := took s i a) (i := i + 1) rfl hi hb (by rw [hread]; exact hw) ?_
  rw [hread]
  exact h

theorem emits_store {c : M β} (f : Block → Block)
    (h : Emits (exec wide) (logged wideSuper) p c (stored s b (f (s.data b))) (fun x s' l => Q x s' ([b] ++ l)) fun l => F ([b] ++ l)) :
    Emits (exec wide) (logged wideSuper) p (act (.bread ip b) fun (v : Block) => act (.bwrite ip b (f v)) fun _ => c) s Q F := by
  refine (emits_act (show exec wide p (.bread ip b) s = .ok (s.data b, s) from rfl)).2 ?_
  exact (emits_act (show exec wide p (.bwrite ip b _) s = .ok ((), _) from rfl)).2 h

theorem writeLoop_round (bn o m e : Nat) {fuel off : Nat} {src : List UInt8} (k : Dinode → M β) (hbn : off / bsize = bn) (ho : off % bsize = o)
    (hm : min src.length (bsize - o) = m) (h0 : src.length ≠ 0) (hoff : off + m = e) :
    (writeLoop wide ip (fuel + 1) d src off >>= k) = bmap wide ip d bn >>= fun r => act (.bread ip r.1) fun (v : Block) =>
      act (.bwrite ip r.1 (patch v o (src.take m))) fun _ => writeLoop wide ip fuel r.2 (src.drop m) e >>= k := by
  subst hbn ho hm hoff
  rw [writeLoop, if_neg h0, Prog.bind_assoc]
  rfl

/-- A file of twelve blocks, the last not full. -/
def twelve : Dinode :=
  { Dinode.blank (some .file) with nlink := 1, size := 5732, addrs := fun j => if j = indirect then 0 else 100 + j.val }

/-- Block 0 is marked free. -/
def bootFree : Store Unit where
  bitmap := heads 0
  inode i := if i = 1 then twelve else Dinode.blank none
  data _ := zeroBlock
  ref i := if i = 1 then 1 else 0
  valid i := decide (i = 1)
  lock i := if i = 1 then some () else none
  freed _ := 0

/-- With block 0 free, a chunk logs twelve blocks: the indirect block is allocated twice. -/
theorem block_zero_free : (∀ bn, bn < nblk twelve → blockAt twelve bootFree.data bn ≠ 0) ∧ ∀ src : List UInt8, src.length = chunkMax →
    (loggedBlocks wide wideSuper () (writei wide ⟨fun _ => none, fun _ => none⟩ 1 twelve src twelve.size) bootFree).card = 12 := by
  refine ⟨by decide, fun src hsrc => ?_⟩
  have hsrc : src.length = 1536 := hsrc
  have hends : Emits (exec wide) (logged wideSuper) () (writei wide ⟨fun _ => none, fun _ => none⟩ 1 twelve src 5732) bootFree
      (fun _ _ l => l.toFinset.card = 12) (fun l => l.toFinset.card = 12) := by
    unfold writei
    dsimp only
    rw [hsrc, if_neg (by decide), if_neg (by decide), if_neg (by decide)]
    -- block 11 is there
    rw [writeLoop_round 11 100 412 6144 _ rfl rfl (by rw [hsrc]; rfl) (by omega) rfl,
      show bmap wide 1 twelve 11 = ret (111, twelve) from rfl, ret_bind]
    refine emits_store _ ?_
    generalize hs1 : stored bootFree 111 _ = s1
    have hb1 : s1.bitmap = heads 0 := by rw [← hs1]; rfl
    -- block 12 and an indirect block with number 0
    have h2 : (src.drop 412).length = 1124 := by rw [List.length_drop, hsrc]
    generalize src.drop 412 = src2 at h2 ⊢
    rw [writeLoop_round 12 0 512 6656 _ rfl rfl (by rw [h2]; rfl) (by omega) rfl]
    refine emits_entry_new (i := 0) (a := 0) (b := 4096) hb1 (by decide) (by decide) (by decide) (by decide) rfl ?_
    refine emits_store _ ?_
    generalize hs2 : stored (stored (took (took s1 0 0) (0 + 1) 4096) 0 _) 4096 _ = s2
    have hb2 : s2.bitmap = heads 2 := by rw [← hs2]; rfl
    have hd1 : (twelve.setAddr indirect 0).addrs indirect = 0 ∧ (twelve.setAddr indirect 0).size = 5732 := ⟨by simp [Dinode.setAddr], rfl⟩
    dsimp only
    generalize twelve.setAddr indirect 0 = d1 at hd1 ⊢
    -- block 13 and another indirect block
    have h3 : (src2.drop 512).length = 612 := by rw [List.length_drop, h2]
    generalize src2.drop 512 = src3 at h3 ⊢
    rw [writeLoop_round 13 0 512 7168 _ rfl rfl (by rw [h3]; rfl) (by omega) rfl]
    refine emits_entry_new (i := 2) (a := 8192) (b := 12288) hb2 (by decide) (by decide) (by decide) (by decide) hd1.1 ?_
    refine emits_store _ ?_
    generalize hs3 : stored (stored (took (took s2 2 8192) (2 + 1) 12288) 8192 _) 12288 _ = s3
    have hb3 : s3.bitmap = heads 4 := by rw [← hs3]; rfl
    have hw3 : word (s3.data 8192) (14 - ndirect) = 0 := by
      have hdata : s3.data 8192 = setWord zeroBlock (13 - ndirect) 12288 := by
        rw [← hs3]
        simp [stored]
      rw [hdata, word_setWord_ne _ _ (by decide)]
      simp [word, byteAt, zeroBlock]
    have hd2 : (d1.setAddr indirect 8192).addrs indirect = 8192 ∧ (d1.setAddr indirect 8192).size = 5732 :=
      ⟨by simp [Dinode.setAddr], hd1.2⟩
    dsimp only
    generalize d1.setAddr indirect 8192 = d2 at hd2 ⊢
    -- block 14
    have h4 : (src3.drop 512).length = 100 := by rw [List.length_drop, h3]
    generalize src3.drop 512 = src4 at h4 ⊢
    rw [writeLoop_round 14 0 100 7268 _ rfl rfl (by rw [h4]; rfl) (by omega) rfl]
    refine emits_entry (i := 4) (a := 8192) (b := 16384) hb3 (by decide) (by decide) (by decide) hd2.1 (by decide) hw3 ?_
    refine emits_store _ ?_
    have h5 : (src4.drop 100).length = 0 := by rw [List.length_drop, h4]
    rw [writeLoop, if_pos h5, pure_eq, ret_bind, if_pos ⟨by decide, by rw [hd2.2]; decide⟩]
    refine (emits_act (show exec wide () (.iupdate 1 _) _ = .ok ((), _) from rfl)).2 ?_
    show ([111, 34, 0, 35, 4096, 0, 4096, 36, 8192, 37, 12288, 8192, 12288, 38, 16384, 8192, 16384, 32] : List Nat).toFinset.card = 12
    decide
  exact hends.always

end Wide

/-- The same file and chunk, with block 0 in use. -/
theorem writei_fits_reservation_twelve : ∃ src : List UInt8, src.length = chunkMax ∧
    (loggedBlocks wide wideSuper () (writei wide ⟨fun _ => none, fun _ => none⟩ 1 twelve src twelve.size)
      { bootFree with bitmap := heads 1 }).card ≤ maxOpBlocks :=
  ⟨List.replicate chunkMax 7, List.length_replicate, writei_fits_reservation wide wideSuper ⟨fun _ => none, fun _ => none⟩ () 1 twelve
    { bootFree with bitmap := heads 1 } twelve.size _ rfl (by decide) rfl le_rfl List.length_replicate.le⟩

end Xv6.Fs.LogBudget
