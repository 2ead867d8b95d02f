/-
  Xv6.Fs.ReadWrite — a file is an array of bytes (`fs.c`: `readi`, `writei`).

  The array is read with `readBytes` and changed with `writeBytes`. In a consistent state
  `readi` and `writei` of an allocated inode do that to its contents (`readi_run`,
  `Wrote.contents`), and other inodes keep their blocks and contents, since each block of the
  data area is in one place (`Wrote.others_keep`).

    • `byte_array`: both for any offset and length, with enough free blocks.
-/

import Xv6.Fs.Contents

namespace Xv6.Fs.Contents

open Xv6.Lib Prog Blocks List

/-! ## Arrays of bytes -/

/-- `none` is -1. -/
def readBytes (c : List UInt8) (off n : Nat) : Option (List UInt8) :=
  if c.length < off ∨ 2 ^ 32 ≤ off + n then none else some ((c.drop off).take n)

/-- The bytes from `off` on are replaced by `src`. -/
def writeBytes (c : List UInt8) (off : Nat) (src : List UInt8) : List UInt8 := c.take off ++ src ++ c.drop (off + src.length)

variable {P : Type} {sb : Superblock} {p : P} {s s' : Store P} {ip off : Nat} {d d' : Dinode} {dev : Devsw} {src : List UInt8}

def contents (d : Dinode) (m : Nat → Block) : List UInt8 := bytes d m 0 d.size

theorem contents_length {m : Nat → Block} : (contents d m).length = d.size := bytes_length 0 d.size

theorem writeBytes_getElem? {bs : List UInt8} (h : off ≤ bs.length) (k : Nat) :
    (writeBytes bs off src)[k]? = if k < off then bs[k]? else if k < off + src.length then src[k - off]? else bs[k]? := by
  have hlen : (bs.take off).length = off := by rw [length_take]; omega
  unfold writeBytes
  by_cases h1 : k < off
  · rw [if_pos h1, append_assoc, getElem?_append_left (by omega), getElem?_take_of_lt h1]
  · rw [if_neg h1]
    by_cases h2 : k < off + src.length
    · rw [if_pos h2, append_assoc, getElem?_append_right (by omega), hlen, getElem?_append_left (by omega)]
    · rw [if_neg h2, getElem?_append_right (by rw [length_append]; omega), length_append, hlen, getElem?_drop,
        show off + src.length + (k - (off + src.length)) = k by omega]

/-- Two pieces, one after the other, are one. -/
theorem writeBytes_append {c a b : List UInt8} (h : off ≤ c.length) :
    writeBytes (writeBytes c off a) (off + a.length) b = writeBytes c off (a ++ b) := by
  have hlen : (c.take off ++ a).length = off + a.length := by rw [length_append, length_take]; omega
  unfold writeBytes
  rw [take_append_of_le_length hlen.ge, take_of_length_le hlen.le, length_append, append_assoc (c.take off),
    drop_append, hlen, drop_eq_nil_of_le (by omega), nil_append, drop_drop]
  congr 2
  omega

theorem writeBytes_length {c : List UInt8} (h : off ≤ c.length) : (writeBytes c off src).length = max c.length (off + src.length) := by
  unfold writeBytes
  rw [length_append, length_append, length_take, length_drop]
  omega

/-! ## One inode -/

theorem readi_run {n : Nat} (ht : d.type ≠ some .dev) (hs : d.size < 2 ^ 32) (hp : Present d s.data 0 d.size) (ho : off < 2 ^ 32) (hn : n < 2 ^ 32) :
    run (exec sb) p (readi sb dev ip d off n) s = .ok ((readBytes (contents d s.data) off n, d), s) := by
  have hpart : ∀ k, off + k ≤ d.size → Present d s.data off k := fun k hk bn _ h2 => hp bn (by simp) (by omega)
  have hsub : ∀ k, off + k ≤ d.size → bytes d s.data off k = ((contents d s.data).drop off).take k := fun k hk =>
    bytes_sub (by rw [contents_length]; rfl) (by rw [contents_length]; exact hk)
  unfold readBytes readi
  rw [contents_length, if_neg ht]
  by_cases hbad : d.size < off ∨ 2 ^ 32 ≤ off + n
  · rw [if_pos hbad, if_pos (by omega)]
    rfl
  · have hmin : (if (off + n) % 2 ^ 32 > d.size then d.size - off else n) = min n (d.size - off) := by split <;> omega
    have htake : ((contents d s.data).drop off).take n = ((contents d s.data).drop off).take (min n (d.size - off)) := by
      refine take_eq_take_iff.2 ?_
      rw [length_drop, contents_length]
      omega
    rw [if_neg hbad, if_neg (by omega)]
    dsimp only
    rw [hmin, htake, ← hsub (min n (d.size - off)) (by omega)]
    exact ((reads_readLoop _ _ _ le_rfl (hpart (min n (d.size - off)) (by omega))).bind (y := (some (bytes d s.data off _), d)) (.ret _)).1

theorem Wrote.contents (h : Wrote sb ip s d off src s' d') (hoff : off ≤ d.size) : contents d' s'.data = writeBytes (contents d s.data) off src := by
  have hsize : d'.size = max d.size (off + src.length) := by rw [h.same]
  refine ext_getElem? fun k => ?_
  rw [writeBytes_getElem? (by rw [contents_length]; exact hoff)]
  have hold : ∀ k, (Contents.contents d s.data)[k]? = if k < d.size then some (Contents.byte d s.data k) else none := fun k => by
    by_cases hk : k < d.size
    · rw [if_pos hk, Contents.contents, bytes_getElem? hk, Nat.zero_add]
    · rw [if_neg hk, getElem?_eq_none (by rw [contents_length]; omega)]
  by_cases hk : k < d'.size
  · rw [Contents.contents, bytes_getElem? hk, Nat.zero_add, h.byte, hold]
    by_cases h1 : k < off
    · rw [if_neg (by omega), if_pos h1, if_pos (by omega)]
    · rw [if_pos (by omega), if_neg h1]
      by_cases h2 : k < off + src.length
      · rw [if_pos h2, getD_eq_getElem?_getD, getElem?_eq_getElem (by omega)]
        rfl
      · rw [if_neg h2, if_pos (by omega), getD_eq_default _ _ (by omega)]
  · rw [getElem?_eq_none (by rw [contents_length]; omega), hold, if_neg (by omega), if_neg (by omega), if_neg (by omega)]

/-! ## A consistent state -/

theorem Consistent.owned (h : Consistent sb s) (ht : (s.inode ip).type ≠ none) : Owned sb s (s.inode ip) := by
  refine ⟨fun x y hx hxy => ?_, fun x hx => (h.set ht ⟨hx, x, rfl⟩).1, h.reserved⟩
  obtain ⟨_, _, z, _, hz⟩ := h.set ht ⟨hx, x, rfl⟩
  exact congrArg Prod.snd ((hz (ip, x) ⟨ht, rfl⟩).trans (hz (ip, y) ⟨ht, hxy.symm⟩).symm)

theorem Consistent.present (h : Consistent sb s) (ht : (s.inode ip).type ≠ none) : Present (s.inode ip) s.data 0 (s.inode ip).size := by
  intro bn _ hlt
  refine (h.full ip ht bn).2 ?_
  unfold nblk bsize at *
  omega

theorem Consistent.size_le (h : Consistent sb s) (ht : (s.inode ip).type ≠ none) : (s.inode ip).size ≤ maxFile * bsize := by
  have hout : ¬ blockAt (s.inode ip) s.data maxFile ≠ 0 := not_not.2 (by simp [blockAt, slotOf, maxFile])
  have hn : ¬ maxFile < nblk (s.inode ip) := fun hlt => hout ((h.full ip ht maxFile).2 hlt)
  unfold nblk bsize at *
  omega

/-- The blocks of another inode are not touched. -/
theorem Wrote.others_keep (h : Consistent sb s) (ht : (s.inode ip).type ≠ none) (hw : Wrote sb ip s (s.inode ip) off src s' d') {j : Nat} (hj : j ≠ ip) :
    s'.inode j = s.inode j ∧ ((s.inode j).type ≠ none →
      ptr (s'.inode j) s'.data = ptr (s.inode j) s.data ∧ Contents.contents (s'.inode j) s'.data = Contents.contents (s.inode j) s.data) := by
  have hinode : s'.inode j = s.inode j := by
    rw [hw.rest]
    exact Function.update_of_ne hj _ _
  refine ⟨hinode, fun htj => ?_⟩
  rw [hinode]
  have hdata : ∀ x, ptr (s.inode j) s.data x ≠ 0 → s'.data (ptr (s.inode j) s.data x) = s.data (ptr (s.inode j) s.data x) := fun x hx => by
    obtain ⟨hbit, _, z, _, hz⟩ := h.set htj ⟨hx, x, rfl⟩
    refine (hw.others _ hbit fun y hy => hj ?_).2.1
    exact congrArg Prod.fst ((hz (j, x) ⟨htj, rfl⟩).trans (hz (ip, y) ⟨ht, hy⟩).symm)
  have hptr : ptr (s.inode j) s'.data = ptr (s.inode j) s.data := ptr_congr fun hi => hdata .ind hi
  refine ⟨hptr, bytes_congr fun k _ _ => ?_⟩
  have hblock : fileBlock (s.inode j) s'.data (k / bsize) = fileBlock (s.inode j) s.data (k / bsize) := by
    have hat : blockAt (s.inode j) s'.data (k / bsize) = blockAt (s.inode j) s.data (k / bsize) := by rw [blockAt, hptr, blockAt]
    unfold fileBlock
    rw [hat]
    cases hs : slotOf (k / bsize) with
    | none => simp [blockAt, hs]
    | some x =>
      rw [blockAt_some hs]
      split
      · rfl
      · rename_i hx
        exact hdata x hx
  rw [Contents.byte, Contents.byte, hblock]

/-! ## `readi` and `writei` -/

/-- What is not written: too far out, or too much. -/
def Refused (size off n : Nat) : Prop := size < off ∨ 2 ^ 32 ≤ off + n ∨ maxFile * bsize < off + n

theorem writei_refused (hdev : d.type ≠ some .dev) (ho : off < 2 ^ 32) (hn : src.length < 2 ^ 32) (hr : Refused d.size off src.length) :
    run (exec sb) p (writei sb dev ip d src off) s = .ok ((-1, d), s) := by
  unfold Refused at hr
  unfold writei
  dsimp only
  rw [if_neg hdev]
  by_cases h1 : off > d.size ∨ (off + src.length) % 2 ^ 32 < off
  · rw [if_pos h1]
    rfl
  · rw [if_neg h1, if_pos (by omega)]
    rfl

/-- The blocks of a file of `n` bytes. -/
def blocksFor (n : Nat) : Nat := (n + bsize - 1) / bsize

/-- After `writei` has written `src` at `off`. -/
structure Replaced (sb : Superblock) (dev : Devsw) (p : P) (ip : Nat) (s : Store P) (off : Nat) (src : List UInt8) (s' : Store P) (d' : Dinode) : Prop where
  disk : s'.inode ip = d'
  size : d'.size = max (s.inode ip).size (off + src.length)
  read : ∀ o n, o < 2 ^ 32 → n < 2 ^ 32 →
    run (exec sb) p (readi sb dev ip d' o n) s' = .ok ((readBytes (writeBytes (contents (s.inode ip) s.data) off src) o n, d'), s')
  others : ∀ j, j ≠ ip → s'.inode j = s.inode j ∧ ((s.inode j).type ≠ none →
    ptr (s'.inode j) s'.data = ptr (s.inode j) s.data ∧ contents (s'.inode j) s'.data = contents (s.inode j) s.data)

theorem byte_array (dev : Devsw) (p : P) (h : Consistent sb s) (ht : (s.inode ip).type ≠ none) (hdev : (s.inode ip).type ≠ some .dev)
    (off : Nat) (src : List UInt8) (ho : off < 2 ^ 32) (hn : src.length < 2 ^ 32)
    (hroom : ¬ Refused (s.inode ip).size off src.length → missing (blocksFor (off + src.length)) (s.inode ip) s.data ≤ (free sb s).card) :
    (∀ o n, o < 2 ^ 32 → n < 2 ^ 32 →
      run (exec sb) p (readi sb dev ip (s.inode ip) o n) s = .ok ((readBytes (contents (s.inode ip) s.data) o n, s.inode ip), s)) ∧
    Ends (exec sb) p (writei sb dev ip (s.inode ip) src off) s (fun x s' =>
      (x.1 = -1 ↔ Refused (s.inode ip).size off src.length) ∧
      (Refused (s.inode ip).size off src.length → x.2 = s.inode ip ∧ s' = s) ∧
      (¬ Refused (s.inode ip).size off src.length → x.1 = src.length ∧ Replaced sb dev p ip s off src s' x.2)) (fun _ => False) False := by
  have h32 : maxFile * bsize < 2 ^ 32 := by decide
  have hsize := Consistent.size_le h ht
  refine ⟨fun o n hlo hln => readi_run hdev (by omega) (Consistent.present h ht) hlo hln, ?_⟩
  by_cases hr : Refused (s.inode ip).size off src.length
  · have hrun : run (exec sb) p (writei sb dev ip (s.inode ip) src off) s = .ok ((-1, s.inode ip), s) := writei_refused hdev ho hn hr
    unfold Ends
    rw [hrun]
    exact ⟨iff_of_true rfl hr, fun _ => ⟨rfl, rfl⟩, fun hn => absurd hr hn⟩
  · have hr' := hr
    unfold Refused at hr'
    rw [← Prog.bind_ret (writei _ _ _ _ _ _)]
    refine ends_writei (n := blocksFor (off + src.length)) (Consistent.owned h ht) hdev ht (Consistent.present h ht) (by omega) (by omega)
      (by unfold blocksFor bsize; omega) (.inr (hroom hr)) fun d' s' hw _ => ?_
    have hsz : d'.size = max (s.inode ip).size (off + src.length) := by rw [hw.same]
    have htype : d'.type = (s.inode ip).type := by rw [hw.same]
    refine ⟨iff_of_false (by dsimp only; omega) hr, fun e => absurd e hr, fun _ => ⟨rfl, hw.disk rfl, hsz, fun o n hlo hln => ?_, fun j hj => hw.others_keep h ht hj⟩⟩
    rw [← hw.contents (by omega)]
    exact readi_run (by rw [htype]; exact hdev) (show d'.size < 2 ^ 32 by omega) hw.dense hlo hln

/-- Two bytes across the end of a file of one block. -/
theorem byte_array_oneFile : ∃ s : Store Unit, Consistent tiny s ∧ (s.inode 1).type = some .file ∧
    Ends (exec tiny) () (writei tiny ⟨fun _ => none, fun _ => none⟩ 1 (s.inode 1) [1, 2] 511) s (fun x s' => x.1 = 2 ∧
      Replaced tiny ⟨fun _ => none, fun _ => none⟩ () 1 s 511 [1, 2] s' x.2) (fun _ => False) False := by
  refine ⟨oneFile 1 7, (quiet_oneFile 1).consistent, rfl, ?_⟩
  have h := (byte_array ⟨fun _ => none, fun _ => none⟩ () (quiet_oneFile 1).consistent
    (show ((oneFile (P := Unit) 1 7).inode 1).type ≠ none by decide) (by decide) 511 [1, 2]
    (by decide) (by decide) fun _ => by decide +kernel).2
  refine h.mono (fun x s' _ hx => ?_) (fun _ h => h) id
  exact hx.2.2 fun hr => absurd hr (by unfold Refused; decide)

/-- Two files whose block is block 2, of the metadata. -/
def sharing : Store Unit :=
  { oneFile 1 2 with inode := fun i => if i = 1 ∨ i = 2 then (oneFile (P := Unit) 1 2).inode 1 else Dinode.blank none }

theorem sharing_refers {c : Nat} {x : Nat × Slot} (h : Refers sharing c x) : Refers (oneFile (P := Unit) 1 2) c (1, x.2) := by
  obtain ⟨ht, hp⟩ := h
  by_cases e : x.1 = 1 ∨ x.1 = 2
  · have hi : sharing.inode x.1 = (oneFile (P := Unit) 1 2).inode 1 := if_pos e
    rw [hi] at hp
    exact ⟨show ((oneFile (P := Unit) 1 2).inode 1).type ≠ none by decide, hp⟩
  · have hi : sharing.inode x.1 = Dinode.blank none := if_neg e
    rw [hi] at ht
    exact absurd rfl ht

theorem sharing_consistent : BlockConsistent tiny sharing := by
  have h := consistent_oneFile (P := Unit) 1
  refine ⟨h.reserved, fun b hb => ?_, fun b hb x hx => h.unmarked b hb _ (sharing_refers hx), fun i => ?_⟩
  · refine iff_of_false (fun hm => ?_) fun ⟨x, hx, _⟩ => ?_
    · have hb5 : 5 ≤ b := hb.1
      have := (marked_oneFile (P := Unit) 1 2 b).1 hm
      omega
    · have hb5 : 5 ≤ b := hb.1
      obtain ⟨_, hc⟩ := refers_oneFile.1 (sharing_refers hx)
      split at hc <;> omega
  · by_cases e : i = 1 ∨ i = 2
    · rw [show sharing.inode i = (oneFile (P := Unit) 1 2).inode 1 from if_pos e]
      exact h.full 1
    · rw [show sharing.inode i = (oneFile (P := Unit) 1 2).inode 3 from if_neg e]
      exact h.full 3

/-- Writing to one of them changes the other. -/
theorem shared_block_written : BlockConsistent tiny sharing ∧ ∃ d' s',
    run (exec tiny) () (writei tiny ⟨fun _ => none, fun _ => none⟩ 1 (sharing.inode 1) [7] 0) sharing = .ok ((1, d'), s') ∧
    contents (s'.inode 2) s'.data ≠ contents (sharing.inode 2) sharing.data := by
  refine ⟨sharing_consistent, _, _, rfl, fun h => ?_⟩
  have := congrArg List.head? h
  revert this
  decide +kernel

end Xv6.Fs.Contents
