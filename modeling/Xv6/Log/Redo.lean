/-
  Xv6.Log.Redo — the redo log on disk (`log.c`: `write_log`, `write_head`,
  `install_trans`, `read_head`, `commit`, `recover_from_log`).

  The log area is the header block `log.start` and the slots behind it. A block reads
  as its pinned copy (modified, `log_write`n, not yet written back) or, without one, as
  the disk's block; `bwrite` writes the disk and unpins. `writes` records every
  single-block write in the order it reaches the disk. A crash keeps the disk some
  prefix of them produced and loses all the rest.

  Proved:
  - `commit_writes`: the writes of a commit are the slots, the header, the home blocks
    and the cleared header, in this order.
  - `crash_atomic`: cut a commit after any number of its writes, run recovery any number
    of times, each cut off anywhere, and once to its end: the blocks outside the log are
    the new ones if the first header write reached the disk, and the old ones otherwise.
-/

import Xv6.Param
import Xv6.Lib.Writes

namespace Xv6.Log

open Xv6.Lib.Writes Function List

/-- `log.start` and `log.size`. -/
structure Geom where
  start : Nat
  size : Nat
  deriving DecidableEq, Repr

def Geom.InLog (L : Geom) (b : Nat) : Prop := L.start ≤ b ∧ b < L.start + L.size

instance (L : Geom) (b : Nat) : Decidable (L.InLog b) := inferInstanceAs (Decidable (_ ∧ _))

structure Sys where
  disk : Disk
  /-- Buffers with `B_DIRTY`: pinned in the cache by `log_write`. -/
  pinned : Nat → Option Block
  /-- `log.lh.block[0..n)`. -/
  lh : List Nat
  writes : List (Nat × Block)

def bread (s : Sys) (b : Nat) : Block := (s.pinned b).getD (s.disk b)

def bwrite (s : Sys) (b : Nat) (v : Block) : Sys :=
  { s with disk := Function.update s.disk b v, pinned := Function.update s.pinned b none,
           writes := s.writes ++ [(b, v)] }

/-! ## The header block -/

/-- A 32-bit word as a C `int`. -/
def toInt (w : Nat) : Int := if w < 2 ^ 31 then w else (w : Int) - 2 ^ 32

/-- `hb->n = n; hb->block[i] = block[i]` over the block's old bytes. -/
def encodeHead (b : Block) (lh : List Nat) : Block :=
  (List.range lh.length).foldl (fun b i => setWord b (i + 1) (lh.getD i 0)) (setWord b 0 lh.length)

def decodeHead (b : Block) : List Nat := (List.range (toInt (word b 0)).toNat).map fun i => word b (i + 1)

/-! ## `log.c` -/

variable (L : Geom)

def writeLogAt (s : Sys) (tail : Nat) : Sys := bwrite s (L.start + tail + 1) (bread s (s.lh.getD tail 0))

def writeLog (s : Sys) : Sys := (List.range s.lh.length).foldl (writeLogAt L) s

def installAt (s : Sys) (tail : Nat) : Sys := bwrite s (s.lh.getD tail 0) (bread s (L.start + tail + 1))

def installTrans (s : Sys) : Sys := (List.range s.lh.length).foldl (installAt L) s

def readHead (s : Sys) : Sys := { s with lh := decodeHead (bread s L.start) }

def writeHead (s : Sys) : Sys := bwrite s L.start (encodeHead (bread s L.start) s.lh)

def commit (s : Sys) : Sys :=
  if 0 < s.lh.length then writeHead L { installTrans L (writeHead L (writeLog L s)) with lh := [] } else s

def recoverFromLog (s : Sys) : Sys := writeHead L { installTrans L (readHead L s) with lh := [] }

/-- The machine after a crash: the disk, and nothing in memory. -/
def boot (d : Disk) : Sys := ⟨d, fun _ => none, [], []⟩

/-- The writes a run of `recover_from_log` issues on `d`. -/
def recoverWrites (d : Disk) : List (Nat × Block) := (recoverFromLog L (boot d)).writes

/-- What a commit is given: distinct home blocks outside the log, at most `log.size - 1`
    and (`log.lh.block[]`) at most `LOGSIZE` of them, with new contents in the cache. -/
structure Txn where
  blocks : List Nat
  data : Nat → Block
  nodup : blocks.Nodup
  room : blocks.length < L.size
  fits : blocks.length ≤ logSize
  uint : ∀ b ∈ blocks, b < 2 ^ 32
  home : ∀ b ∈ blocks, ¬ L.InLog b

variable {L}

/-- The machine when `commit` is called. -/
def Txn.sys (t : Txn L) (d : Disk) : Sys := ⟨d, fun b => if b ∈ t.blocks then some (t.data b) else none, t.blocks, []⟩

/-- The disk with the transaction's blocks replaced. -/
def Txn.new (t : Txn L) (d : Disk) : Disk := fun b => if b ∈ t.blocks then t.data b else d b

def Txn.writes (t : Txn L) (d : Disk) : List (Nat × Block) := (commit L (t.sys d)).writes

/-! ## The header round trip -/

theorem word_foldl (lh : List Nat) (b : Block) (n j : Nat) (hn : n < bsize / 4) (h32 : ∀ x ∈ lh, x < 2 ^ 32) :
    word ((range n).foldl (fun b i => setWord b (i + 1) (lh.getD i 0)) b) j =
      if 1 ≤ j ∧ j ≤ n then lh.getD (j - 1) 0 else word b j := by
  induction n with
  | zero => simp; omega
  | succ n ih =>
    rw [range_succ, foldl_append, foldl_cons, foldl_nil]
    by_cases e : j = n + 1
    · subst e
      have hv : lh.getD n 0 < 2 ^ 32 := by
        by_cases h : n < lh.length
        · rw [getD_eq_getElem _ _ h]; exact h32 _ (getElem_mem h)
        · rw [getD_eq_default _ _ (by omega)]; norm_num
      rw [word_setWord_same _ hn hv, if_pos (by omega), Nat.add_sub_cancel]
    · rw [word_setWord_ne _ _ e, ih (by omega)]
      by_cases h : 1 ≤ j ∧ j ≤ n
      · rw [if_pos h, if_pos (by omega)]
      · rw [if_neg h, if_neg (by omega)]

theorem encodeHead_zero (b : Block) (lh : List Nat) (hn : lh.length ≤ logSize) (h32 : ∀ x ∈ lh, x < 2 ^ 32) :
    word (encodeHead b lh) 0 = lh.length := by
  have hn' : lh.length < bsize / 4 := by unfold logSize maxOpBlocks at hn; unfold bsize; omega
  rw [encodeHead, word_foldl lh _ _ _ hn' h32, if_neg (by omega)]
  exact word_setWord_same _ (by unfold bsize; omega) (by unfold bsize at hn'; omega)

theorem decode_encode (b : Block) (lh : List Nat) (hn : lh.length ≤ logSize) (h32 : ∀ x ∈ lh, x < 2 ^ 32) :
    decodeHead (encodeHead b lh) = lh := by
  have hn' : lh.length < bsize / 4 := by unfold logSize maxOpBlocks at hn; unfold bsize; omega
  have hlen : (toInt lh.length).toNat = lh.length := by
    unfold toInt bsize at *; rw [if_pos (by omega)]; exact Int.toNat_natCast _
  rw [decodeHead, encodeHead_zero b lh hn h32, hlen]
  apply ext_getElem
  · simp
  · intro i h1 h2
    simp only [getElem_map, getElem_range]
    rw [encodeHead, word_foldl lh _ _ _ hn' h32, if_pos (by omega), Nat.add_sub_cancel, getD_eq_getElem _ _ h2]

/-! ## What each part writes -/

/-- `s'` is `s` after the block writes `ws`: the disk, the reads and the record agree. -/
structure Issued (s s' : Sys) (ws : List (Nat × Block)) : Prop where
  disk : s'.disk = after s.disk ws
  view : bread s' = after (bread s) ws
  writes : s'.writes = s.writes ++ ws
  lh : s'.lh = s.lh

theorem Issued.refl (s : Sys) : Issued s s [] := ⟨rfl, rfl, (append_nil _).symm, rfl⟩

theorem Issued.trans {s s' s'' : Sys} {ws vs : List (Nat × Block)} (h : Issued s s' ws) (h' : Issued s' s'' vs) :
    Issued s s'' (ws ++ vs) where
  disk := by rw [h'.disk, h.disk, after_append]
  view := by rw [h'.view, h.view, after_append]
  writes := by rw [h'.writes, h.writes, append_assoc]
  lh := by rw [h'.lh, h.lh]

theorem issued_bwrite (s : Sys) (b : Nat) (v : Block) : Issued s (bwrite s b v) [(b, v)] where
  disk := rfl
  view := by
    funext x
    by_cases e : x = b
    · subst e; simp [bread, bwrite]
    · simp [bread, bwrite, e]
  writes := rfl
  lh := rfl

theorem issued_writeHead (s : Sys) :
    Issued s (writeHead L s) [(L.start, encodeHead (bread s L.start) s.lh)] :=
  issued_bwrite _ _ _

/-- A loop that writes, at each `t`, a value the earlier writes of the loop do not change. -/
theorem issued_loop {f : Sys → Nat → Sys} {addr : Nat → Nat} {val : Nat → Block} (s : Sys) (ts : List Nat)
    (hf : ∀ (s' : Sys) (ws : List (Nat × Block)) (t : Nat), t ∈ ts → Issued s s' ws →
      (∀ w ∈ ws, ∃ u ∈ ts, w.1 = addr u) → f s' t = bwrite s' (addr t) (val t)) :
    Issued s (ts.foldl f s) (ts.map fun t => (addr t, val t)) := by
  induction ts using reverseRecOn with
  | nil => exact Issued.refl s
  | append_singleton ts t ih =>
    have h := ih fun s' ws u hu hs hw => hf s' ws u (by simp [hu]) hs fun w hws => by
      obtain ⟨v, hv, e⟩ := hw w hws
      exact ⟨v, by simp [hv], e⟩
    rw [foldl_append, foldl_cons, foldl_nil, map_append, map_singleton]
    rw [hf _ _ t (by simp) h fun w hw => by
      obtain ⟨u, hu, rfl⟩ := mem_map.mp hw
      exact ⟨u, by simp [hu], rfl⟩]
    exact h.trans (issued_bwrite _ _ _)

/-- The writes of `write_log`: block `i` of the transaction, as it reads, to slot `i`. -/
def slotWrites (L : Geom) (lh : List Nat) (v : Nat → Block) : List (Nat × Block) :=
  (List.range lh.length).map fun t => (L.start + t + 1, v (lh.getD t 0))

/-- The writes of `install_trans`: slot `i`, as it reads, to home block `i`. -/
def homeWrites (L : Geom) (lh : List Nat) (v : Nat → Block) : List (Nat × Block) :=
  (List.range lh.length).map fun t => (lh.getD t 0, v (L.start + t + 1))

/-- The home blocks lie outside a log that has a slot for each. -/
def HomeOk (L : Geom) (lh : List Nat) : Prop := lh.length < L.size ∧ ∀ b ∈ lh, ¬ L.InLog b

variable {lh : List Nat}

theorem getD_mem {t : Nat} (h : t < lh.length) : lh.getD t 0 ∈ lh := by
  rw [getD_eq_getElem _ _ h]; exact getElem_mem h

theorem slot_ne_home (h : HomeOk L lh) {t u : Nat} (ht : t < lh.length) (hu : u < lh.length) :
    lh.getD t 0 ≠ L.start + u + 1 := by
  intro e
  have hout := h.2 _ (getD_mem ht)
  have hlen := h.1
  exact hout ⟨by omega, by omega⟩

theorem issued_writeLog {s : Sys} (h : HomeOk L s.lh) : Issued s (writeLog L s) (slotWrites L s.lh (bread s)) := by
  refine issued_loop s _ fun s' ws t ht hs hw => ?_
  have ht := mem_range.mp ht
  rw [writeLogAt, hs.lh, hs.view, after_other]
  intro w hws e
  obtain ⟨u, hu, e'⟩ := hw w hws
  exact slot_ne_home h ht (mem_range.mp hu) (e ▸ e')

theorem issued_installTrans {s : Sys} (h : HomeOk L s.lh) :
    Issued s (installTrans L s) (homeWrites L s.lh (bread s)) := by
  refine issued_loop s _ fun s' ws t ht hs hw => ?_
  have ht := mem_range.mp ht
  rw [installAt, hs.lh, hs.view, after_other]
  intro w hws e
  obtain ⟨u, hu, e'⟩ := hw w hws
  exact slot_ne_home h (mem_range.mp hu) ht (e' ▸ e)

theorem Txn.homeOk (t : Txn L) : HomeOk L t.blocks := ⟨t.room, t.home⟩

theorem Txn.bread_sys (t : Txn L) (d : Disk) : bread (t.sys d) = t.new d := by
  funext b
  by_cases h : b ∈ t.blocks <;> simp [bread, Txn.sys, Txn.new, h]

theorem start_inLog (h : 0 < L.size) : L.InLog L.start := ⟨Nat.le_refl _, by omega⟩

theorem ne_start (hL : 0 < L.size) {b : Nat} (hb : ¬ L.InLog b) : b ≠ L.start := fun e =>
  hb (e ▸ start_inLog hL)

theorem start_not_mem (t : Txn L) : L.start ∉ t.blocks := fun h =>
  t.home _ h (start_inLog (Nat.lt_of_le_of_lt (Nat.zero_le _) t.room))

/-- Slot writes touch the slots only. -/
theorem slotWrites_key {v : Nat → Block} {w : Nat × Block} (hw : w ∈ slotWrites L lh v) :
    L.start < w.1 ∧ w.1 ≤ L.start + lh.length := by
  obtain ⟨u, hu, rfl⟩ := mem_map.mp hw
  have := mem_range.mp hu
  exact ⟨by simp only; omega, by simp only; omega⟩

theorem after_slotWrites (v : Nat → Block) (d : Disk) {i : Nat} (hi : i < lh.length) :
    after d (slotWrites L lh v) (L.start + i + 1) = v (lh.getD i 0) := by
  refine after_index (fun t => L.start + t + 1) (fun t => v (lh.getD t 0)) d ?_ (mem_range.mpr hi)
  intro u _ w _ e
  obtain rfl : u = w := by omega
  rfl

/-- Once slot `i` holds block `i`'s data, `install_trans` writes each home block its data. -/
theorem homeWrites_eq {v f : Nat → Block} (h : ∀ i < lh.length, v (L.start + i + 1) = f (lh.getD i 0)) :
    homeWrites L lh v = lh.map fun b => (b, f b) := by
  apply ext_getElem
  · simp [homeWrites]
  · intro i h1 h2
    have hi : i < lh.length := by simpa using h2
    simp only [homeWrites, getElem_map, getElem_range, h i hi, getD_eq_getElem _ _ hi]

/-- The header block `commit` writes first. -/
def Txn.head (t : Txn L) (d : Disk) : Block := encodeHead (d L.start) t.blocks

theorem Txn.issued_slots (t : Txn L) (d : Disk) :
    Issued (t.sys d) (writeLog L (t.sys d)) (slotWrites L t.blocks t.data) := by
  have h := issued_writeLog (L := L) (s := t.sys d) t.homeOk
  rw [t.bread_sys] at h
  have e : slotWrites L t.blocks (t.new d) = slotWrites L t.blocks t.data := by
    refine map_congr_left fun i hi => ?_
    simp only [Txn.new, if_pos (getD_mem (mem_range.mp hi))]
  exact e ▸ h

theorem Txn.issued_head (t : Txn L) (d : Disk) :
    Issued (t.sys d) (writeHead L (writeLog L (t.sys d))) (slotWrites L t.blocks t.data ++ [(L.start, t.head d)]) := by
  have h := t.issued_slots d
  have e : bread (writeLog L (t.sys d)) L.start = d L.start := by
    rw [h.view, after_other _ (fun w hw e => by have := (slotWrites_key hw).1; omega), t.bread_sys, Txn.new,
      if_neg (start_not_mem t)]
  have h2 := issued_writeHead (L := L) (writeLog L (t.sys d))
  rw [e, h.lh] at h2
  exact h.trans h2

theorem Txn.issued_home (t : Txn L) (d : Disk) :
    Issued (t.sys d) (installTrans L (writeHead L (writeLog L (t.sys d))))
      (slotWrites L t.blocks t.data ++ [(L.start, t.head d)] ++ t.blocks.map fun b => (b, t.data b)) := by
  have h := t.issued_head d
  have h3 := issued_installTrans (L := L) (s := writeHead L (writeLog L (t.sys d))) (by rw [h.lh]; exact t.homeOk)
  have e : homeWrites L t.blocks (bread (writeHead L (writeLog L (t.sys d)))) = t.blocks.map fun b => (b, t.data b) := by
    refine homeWrites_eq fun i hi => ?_
    rw [h.view, after_append, after_other]
    · exact after_slotWrites t.data _ hi
    · intro w hw e
      rw [mem_singleton.mp hw] at e
      simp only at e
      omega
  rw [h.lh] at h3
  exact h.trans (e ▸ h3)

/-- The writes of a commit: slots, header, home blocks, cleared header. -/
theorem commit_writes (t : Txn L) (d : Disk) (hne : t.blocks ≠ []) :
    t.writes d = slotWrites L t.blocks t.data ++ (L.start, t.head d) ::
      ((t.blocks.map fun b => (b, t.data b)) ++ [(L.start, encodeHead (t.head d) [])]) := by
  have hpos : 0 < (t.sys d).lh.length := length_pos_iff.mpr hne
  have h := t.issued_home d
  have h4 := issued_writeHead (L := L) { installTrans L (writeHead L (writeLog L (t.sys d))) with lh := [] }
  have e : bread { installTrans L (writeHead L (writeLog L (t.sys d))) with lh := [] } L.start = t.head d := by
    show bread (installTrans L (writeHead L (writeLog L (t.sys d)))) L.start = t.head d
    rw [h.view, after_append, after_append, after_other]
    · simp
    · intro w hw e
      obtain ⟨b, hb, rfl⟩ := mem_map.mp hw
      exact start_not_mem t (e ▸ hb)
  rw [e] at h4
  unfold Txn.writes commit
  rw [if_pos hpos, h4.writes]
  show (installTrans L (writeHead L (writeLog L (t.sys d)))).writes ++ _ = _
  rw [h.writes]
  show [] ++ _ ++ _ = _
  simp only [nil_append, append_assoc, cons_append]

variable {d e d₀ : Disk}

/-- The writes of a recovery: the home blocks the header names, and the cleared header. -/
theorem recoverWrites_eq (h : HomeOk L (decodeHead (d L.start))) :
    recoverWrites L d = homeWrites L (decodeHead (d L.start)) d ++ [(L.start, encodeHead (d L.start) [])] := by
  have h1 := issued_installTrans (L := L) (s := readHead L (boot d)) h
  have h2 := issued_writeHead (L := L) { installTrans L (readHead L (boot d)) with lh := [] }
  have hlast : bread { installTrans L (readHead L (boot d)) with lh := [] } L.start = d L.start := by
    show bread (installTrans L (readHead L (boot d))) L.start = d L.start
    rw [h1.view, after_other]
    · rfl
    · intro w hw e
      obtain ⟨i, hi, rfl⟩ := mem_map.mp hw
      have hm := getD_mem (mem_range.mp hi)
      simp only at e
      exact h.2 _ hm (e ▸ start_inLog (Nat.lt_of_le_of_lt (Nat.zero_le _) h.1))
  rw [hlast] at h2
  unfold recoverWrites recoverFromLog
  rw [h2.writes]
  show (installTrans L (readHead L (boot d))).writes ++ _ = _
  rw [h1.writes]
  rfl

/-! ## Crashes -/

/-- No transaction is committed: the header's count is 0. -/
def Clean (L : Geom) (d : Disk) : Prop := word (d L.start) 0 = 0

instance (L : Geom) (d : Disk) : Decidable (Clean L d) := inferInstanceAs (Decidable (_ = _))

/-- A clean log, over the home blocks of `e`. -/
def Quiet (L : Geom) (e d : Disk) : Prop := Clean L d ∧ ∀ b, ¬ L.InLog b → d b = e b

/-- The header names the transaction, the slots hold it, and some of it is installed. -/
structure Committed (t : Txn L) (d₀ d : Disk) : Prop where
  head : decodeHead (d L.start) = t.blocks
  slots : ∀ i < t.blocks.length, d (L.start + i + 1) = t.data (t.blocks.getD i 0)
  home : ∀ b, ¬ L.InLog b → d b = d₀ b ∨ b ∈ t.blocks ∧ d b = t.data b

theorem decodeHead_clean (h : Clean L d) : decodeHead (d L.start) = [] := by
  rw [decodeHead, h]; rfl

theorem clean_update (d : Disk) (b : Block) : Clean L (update d L.start (encodeHead b [])) := by
  unfold Clean
  rw [update_self]
  exact encodeHead_zero b [] (Nat.zero_le _) (fun _ h => by cases h)

theorem take_snoc {α : Type} (ws : List α) (x : α) (k : Nat) :
    (ws ++ [x]).take k = ws.take k ∨ (ws ++ [x]).take k = ws ++ [x] := by
  by_cases h : k ≤ ws.length
  · exact Or.inl (take_append_of_le_length h)
  · exact Or.inr (take_of_length_le (by simp; omega))

theorem recoverWrites_quiet (hL : 0 < L.size) (h : Quiet L e d) :
    recoverWrites L d = [(L.start, encodeHead (d L.start) [])] := by
  have hd := decodeHead_clean h.1
  rw [recoverWrites_eq (by rw [hd]; exact ⟨hL, fun _ h => by cases h⟩), hd]
  rfl

theorem quiet_update (hL : 0 < L.size) (h : Quiet L e d) (b : Block) :
    Quiet L e (update d L.start (encodeHead b [])) := by
  refine ⟨clean_update d b, fun x hx => ?_⟩
  rw [update_of_ne (ne_start hL hx)]
  exact h.2 x hx

theorem quiet_take (hL : 0 < L.size) (h : Quiet L e d) (k : Nat) :
    Quiet L e (after d ((recoverWrites L d).take k)) := by
  rw [recoverWrites_quiet hL h]
  cases k with
  | zero => exact h
  | succ k => rw [take_of_length_le (by simp)]; exact quiet_update hL h _

theorem quiet_done (hL : 0 < L.size) (h : Quiet L e d) : Quiet L e (after d (recoverWrites L d)) := by
  rw [recoverWrites_quiet hL h]; exact quiet_update hL h _

/-- Recovery leaves a clean log's home blocks alone, wherever it is cut. -/
theorem recovers_quiet {d' : Disk} (hL : 0 < L.size) (h : Quiet L e d) (hr : Recovers (recoverWrites L) d d') :
    Quiet L e d' :=
  recovers_inv (P := Quiet L e) (fun _ hd k => quiet_take hL hd k) (fun _ hd => quiet_done hL hd) hr h

variable {t : Txn L}

theorem recoverWrites_committed (h : Committed t d₀ d) :
    recoverWrites L d = (t.blocks.map fun b => (b, t.data b)) ++ [(L.start, encodeHead (d L.start) [])] := by
  rw [recoverWrites_eq (by rw [h.head]; exact t.homeOk), h.head, homeWrites_eq h.slots]

variable {k : Nat}

theorem Txn.not_mem_of_inLog (t : Txn L) {a : Nat} (ha : L.InLog a) :
    ∀ w ∈ (t.blocks.take k).map fun b => (b, t.data b), w.1 ≠ a := by
  intro w hw e
  obtain ⟨b, hb, rfl⟩ := mem_map.mp hw
  subst e
  exact t.home _ (mem_of_mem_take hb) ha

/-- Installing some of the home blocks keeps the transaction committed. -/
theorem committed_take (h : Committed t d₀ d) (k : Nat) :
    Committed t d₀ (after d ((t.blocks.take k).map fun b => (b, t.data b))) where
  head := by
    rw [after_other _ (t.not_mem_of_inLog (start_inLog (Nat.lt_of_le_of_lt (Nat.zero_le _) t.room)))]
    exact h.head
  slots := by
    intro i hi
    have := t.room
    rw [after_other _ (t.not_mem_of_inLog ⟨by omega, by omega⟩)]
    exact h.slots i hi
  home := by
    intro b hb
    by_cases hm : b ∈ t.blocks.take k
    · right
      refine ⟨mem_of_mem_take hm, ?_⟩
      exact after_index id t.data d (fun u _ v _ e => congrArg t.data e) hm
    · rw [after_other]
      · exact h.home b hb
      · intro w hw e
        obtain ⟨x, hx, rfl⟩ := mem_map.mp hw
        exact hm (e ▸ hx)

/-- Installing all of them and clearing the header leaves a clean log over the new blocks. -/
theorem committed_done (h : Committed t d₀ d) (x : Block) :
    Quiet L (t.new d₀) (after d ((t.blocks.map fun b => (b, t.data b)) ++ [(L.start, encodeHead x [])])) := by
  rw [after_append]
  refine ⟨clean_update _ _, fun b hb => ?_⟩
  have hL : 0 < L.size := Nat.lt_of_le_of_lt (Nat.zero_le _) t.room
  rw [after_cons, after_nil, update_of_ne (ne_start hL hb), Txn.new]
  by_cases hm : b ∈ t.blocks
  · rw [if_pos hm]
    exact after_index id t.data d (fun u _ v _ e => congrArg t.data e) hm
  · rw [if_neg hm, after_other]
    · rcases h.home b hb with e | e
      · exact e
      · exact absurd e.1 hm
    · intro w hw e
      obtain ⟨y, hy, rfl⟩ := mem_map.mp hw
      exact hm (e ▸ hy)

/-- Recovery finishes a committed transaction, wherever it is cut. -/
theorem recovers_committed {d' : Disk} (h : Committed t d₀ d)
    (hr : Recovers (recoverWrites L) d d') : Quiet L (t.new d₀) d' := by
  have hL : 0 < L.size := Nat.lt_of_le_of_lt (Nat.zero_le _) t.room
  refine recovers_inv (P := fun d => Committed t d₀ d ∨ Quiet L (t.new d₀) d) ?_ ?_ hr (Or.inl h)
  · intro d hd k
    rcases hd with hd | hd
    · rw [recoverWrites_committed hd]
      rcases take_snoc (t.blocks.map fun b => (b, t.data b)) (L.start, encodeHead (d L.start) []) k with e | e
      · rw [e, ← map_take]; exact Or.inl (committed_take hd k)
      · rw [e]; exact Or.inr (committed_done hd _)
    · exact Or.inr (quiet_take hL hd k)
  · intro d hd
    rcases hd with hd | hd
    · rw [recoverWrites_committed hd]; exact committed_done hd _
    · exact quiet_done hL hd

/-- The first header write is among the first `k` writes of the commit. -/
def Txn.HeadReached (t : Txn L) (d : Disk) (k : Nat) : Prop := ∃ w ∈ (t.writes d).take k, w.1 = L.start

theorem slotWrites_length (lh : List Nat) (v : Nat → Block) : (slotWrites L lh v).length = lh.length := by
  simp [slotWrites]

theorem take_before (hne : t.blocks ≠ []) (hk : k ≤ t.blocks.length) :
    (t.writes d).take k = (slotWrites L t.blocks t.data).take k := by
  rw [commit_writes t d hne, take_append_of_le_length (by rw [slotWrites_length]; exact hk)]

theorem take_after (hne : t.blocks ≠ []) (hk : t.blocks.length < k) :
    (t.writes d).take k = slotWrites L t.blocks t.data ++ (L.start, t.head d) ::
      ((t.blocks.map fun b => (b, t.data b)) ++ [(L.start, encodeHead (t.head d) [])]).take
        (k - t.blocks.length - 1) := by
  obtain ⟨m, rfl⟩ : ∃ m, k = t.blocks.length + (m + 1) := ⟨k - t.blocks.length - 1, by omega⟩
  rw [commit_writes t d hne, take_append, slotWrites_length, take_of_length_le (by simp [slotWrites_length]),
    Nat.add_sub_cancel_left, take_succ_cons, Nat.add_sub_cancel]

theorem headReached_iff (hne : t.blocks ≠ []) : t.HeadReached d k ↔ t.blocks.length < k := by
  constructor
  · intro ⟨w, hw, e⟩
    by_contra hk
    rw [take_before hne (by omega)] at hw
    have := (slotWrites_key (mem_of_mem_take hw)).1
    omega
  · intro hk
    exact ⟨(L.start, t.head d), by rw [take_after hne hk]; simp, rfl⟩

/-- Cut before the header write, the commit has only filled slots. -/
theorem cut_before (hc : Clean L d) (hne : t.blocks ≠ [])
    (hk : k ≤ t.blocks.length) : Quiet L d (after d ((t.writes d).take k)) := by
  have slot : ∀ w ∈ (t.writes d).take k, L.start < w.1 ∧ L.InLog w.1 := by
    intro w hw
    rw [take_before hne hk] at hw
    have hkey := slotWrites_key (mem_of_mem_take hw)
    have := t.room
    exact ⟨hkey.1, by omega, by omega⟩
  refine ⟨?_, fun b hb => after_other _ fun w hw e => hb (e ▸ (slot w hw).2)⟩
  unfold Clean
  rw [after_other _ fun w hw e => by have := (slot w hw).1; omega]
  exact hc

/-- The disk the header write leaves is committed. -/
theorem committed_head (t : Txn L) (d : Disk) :
    Committed t d (after d (slotWrites L t.blocks t.data ++ [(L.start, t.head d)])) := by
  have hL : 0 < L.size := Nat.lt_of_le_of_lt (Nat.zero_le _) t.room
  rw [after_append]
  refine ⟨?_, fun i hi => ?_, fun b hb => Or.inl ?_⟩
  · rw [after_cons, after_nil, update_self]
    exact decode_encode _ _ t.fits t.uint
  · rw [after_cons, after_nil, update_of_ne (by omega)]
    exact after_slotWrites t.data d hi
  · rw [after_cons, after_nil, update_of_ne (ne_start hL hb)]
    refine after_other _ fun w hw e => hb ?_
    have hkey := slotWrites_key hw
    have := t.room
    exact e ▸ ⟨by omega, by omega⟩

/-- Cut after the header write, the commit is where a recovery could be. -/
theorem cut_after (hne : t.blocks ≠ []) (hk : t.blocks.length < k) :
    Committed t d (after d ((t.writes d).take k)) ∨ Quiet L (t.new d) (after d ((t.writes d).take k)) := by
  have h := committed_head t d
  rw [take_after hne hk, ← singleton_append, ← append_assoc, after_append]
  rcases take_snoc (t.blocks.map fun b => (b, t.data b)) (L.start, encodeHead (t.head d) [])
    (k - t.blocks.length - 1) with e | e
  · rw [e, ← map_take]; exact Or.inl (committed_take h _)
  · rw [e]; exact Or.inr (committed_done h _)

/-- A commit is atomic across crashes. Cut it after `k` of its writes and recover, each
    recovery but the last cut off anywhere: outside the log, the disk is the one the
    transaction describes if the first header write was among the `k`, else the old one. -/
theorem crash_atomic (t : Txn L) (d : Disk) (hc : Clean L d) (k : Nat) {d' : Disk}
    (hr : Recovers (recoverWrites L) (after d ((t.writes d).take k)) d') :
    (t.HeadReached d k → ∀ b, ¬ L.InLog b → d' b = t.new d b) ∧
    (¬ t.HeadReached d k → ∀ b, ¬ L.InLog b → d' b = d b) ∧
    ((∃ b, ¬ L.InLog b ∧ t.new d b ≠ d b) → ((∀ b, ¬ L.InLog b → d' b = t.new d b) ↔ t.HeadReached d k)) := by
  have hL : 0 < L.size := Nat.lt_of_le_of_lt (Nat.zero_le _) t.room
  have hnew : t.HeadReached d k → ∀ b, ¬ L.InLog b → d' b = t.new d b := by
    intro hh
    have hne : t.blocks ≠ [] := by
      intro e
      obtain ⟨w, hw, -⟩ := hh
      simp [Txn.writes, commit, Txn.sys, e] at hw
    rcases cut_after hne ((headReached_iff hne).mp hh) with h | h
    · exact (recovers_committed h hr).2
    · exact (recovers_quiet hL h hr).2
  have hold : ¬ t.HeadReached d k → ∀ b, ¬ L.InLog b → d' b = d b := by
    intro hh
    by_cases hne : t.blocks = []
    · have e : (t.writes d).take k = [] := by simp [Txn.writes, commit, Txn.sys, hne]
      rw [e] at hr
      exact (recovers_quiet hL ⟨hc, fun _ _ => rfl⟩ hr).2
    · have hk : k ≤ t.blocks.length := Nat.le_of_not_lt fun h => hh ((headReached_iff hne).mpr h)
      exact (recovers_quiet hL (cut_before hc hne hk) hr).2
  refine ⟨hnew, hold, fun ⟨b, hb, hdiff⟩ => ⟨fun h => ?_, hnew⟩⟩
  by_contra hh
  exact hdiff ((h b hb).symm.trans (hold hh b hb))

/-- Block 100, all bytes 7, on the log `mkfs` lays out. -/
def oneBlock : Txn ⟨2, logSize⟩ where
  blocks := [100]
  data := fun _ _ => 7
  nodup := by decide
  room := by decide
  fits := by decide
  uint := by decide
  home := by decide

/-- Cut right after the header write, then in recovery before it installs anything. -/
theorem crash_atomic_one_block :
    Clean ⟨2, logSize⟩ (fun _ => zeroBlock) ∧
    ∃ d', Recovers (recoverWrites ⟨2, logSize⟩)
        (after (fun _ => zeroBlock) ((oneBlock.writes fun _ => zeroBlock).take 2)) d' ∧ d' 100 = fun _ => 7 := by
  have hc : Clean ⟨2, logSize⟩ (fun _ => zeroBlock) := by decide
  refine ⟨hc, _, .cut 0 (.done _), ?_⟩
  have hh : oneBlock.HeadReached (fun _ => zeroBlock) 2 := (headReached_iff (by decide)).mpr (by decide)
  exact (crash_atomic oneBlock _ hc 2 (.cut 0 (.done _))).1 hh 100 (by decide)

end Xv6.Log
