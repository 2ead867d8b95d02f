/-
  Xv6.Fs.Filewrite — writing through an open file (`file.c`: `filewrite` of an
  `FD_INODE`).

  A write is done in chunks of at most `chunkMax` bytes, each from `begin_op` to `end_op`
  (`Incore.filewrite`). One chunk is one action here: it runs on the kernel's state at the
  offset that the file has then, and advances the offset by what `writei` returns. Calls of
  several processes on one `struct file` interleave between their chunks.

    • `filewrite_partial_iff`: a call that returns -1 has changed nothing, or the file had
      room below the maximal size for its first chunk but not for all of it.
    • `chunks_in_order`: with room for all, any interleaving of calls puts the chunks one
      behind the other, and every call returns its length.
-/

import Xv6.Fs.Directory
import Xv6.Fs.ReadWrite

namespace Xv6.Fs.Filewrite

open Xv6.Lib Prog Blocks Contents Directory Function List

/-- `max` in `filewrite`. -/
def chunkMax : Nat := ((maxOpBlocks - 1 - 1 - 2) / 2) * 512

/-- The kernel, with one `struct file` that is an inode's. -/
structure St (P : Type) where
  kernel : Incore.St P
  /-- `f->ip`. -/
  ip : Nat
  /-- `f->off`. -/
  off : Nat
  /-- What a process's call has returned. -/
  result : P → Option Int

inductive Panic where
  | kernel (m : Incore.Panic)
  /-- "short filewrite" -/
  | short
  deriving DecidableEq, Repr

inductive Act where
  /-- A chunk: `begin_op`, `ilock`, `writei` at `f->off`, `f->off += r`, `iunlock`, `end_op`. -/
  | write (src : List UInt8)
  /-- The call returns. -/
  | done (r : Int)
  | panic (m : Panic)

def Act.Res : Act → Type
  | .write _ => Int
  | .done _ => Unit
  | .panic _ => Empty

abbrev M := Prog Act Act.Res

section Program

def write (src : List UInt8) : M Int := perform (Act.write src)
def panic (m : Panic) : M α := act (.panic m) fun e => nomatch e

/-- `i == n ? n : -1`. -/
def outcome (buf : List UInt8) (i : Nat) : Int := if i = buf.length then buf.length else -1

/-- The loop from `i` on; the first argument bounds its rounds. -/
def writeLoop (buf : List UInt8) : Nat → Nat → M Int
  | 0, i => return outcome buf i
  | fuel + 1, i =>
    if i < buf.length then do
      let n1 := min (buf.length - i) chunkMax
      let r ← write ((buf.drop i).take n1)
      if r < 0 then return outcome buf i
      else if r ≠ n1 then panic .short
      else writeLoop buf fuel (i + r.toNat)
    else return outcome buf i

/-- `n` is the length of `buf`. -/
def filewrite (writable : Bool) (buf : List UInt8) : M Int :=
  if !writable then return -1 else writeLoop buf buf.length 0

theorem filewrite_writable (buf : List UInt8) : filewrite true buf = writeLoop buf buf.length 0 := rfl

/-- A process that calls `filewrite`. -/
def call (buf : List UInt8) : M Unit := do
  let r ← filewrite true buf
  perform (Act.done r)

end Program

section Exec

variable {P : Type} [DecidableEq P] (sb : Superblock) (dev : Devsw)

def exec (p : P) : (a : Act) → St P → Out Panic (a.Res × St P)
  | .write src, s => match run (Incore.exec sb) p (Incore.filewrite sb dev s.ip src s.off) s.kernel with
    | .ok (r, k) => .ok (r, { s with kernel := k, off := if r > 0 then s.off + r.toNat else s.off })
    | .wait => .wait
    | .fail m => .fail (.kernel m)
  | .done r, s => .ok ((), { s with result := Function.update s.result p (some r) })
  | .panic m, _ => .fail m

end Exec

/-! ## One chunk -/

/-- A regular file in order: nobody holds its lock, a valid copy is the inode on disk, it
    owns its blocks and has them up to its size. -/
structure Regular {P : Type} (sb : Superblock) (S : Incore.St P) (ip : Nat) : Prop where
  idle : S.store.lock ip = none
  copy : S.store.valid ip = true → S.mem ip = S.store.inode ip
  file : (S.store.inode ip).type = some .file
  owned : Owned sb S.store (S.store.inode ip)
  dense : Present (S.store.inode ip) S.store.data 0 (S.store.inode ip).size

/-- The file's contents. -/
def text {P : Type} (S : Incore.St P) (ip : Nat) : List UInt8 := contents (S.store.inode ip) S.store.data

section Chunk

variable {P : Type} {sb : Superblock} {dev : Devsw} {p : P} {S : Incore.St P} {ip off : Nat} {src : List UInt8}
  {Q : β → Incore.St P → Prop} {B : Incore.Panic → Prop} {W : Prop}

/-- In a consistent file system every allocated regular file is in order when nobody uses it. -/
theorem Regular.of_consistent (h : Consistent sb S.store) (hl : S.store.lock ip = none)
    (hc : S.store.valid ip = true → S.mem ip = S.store.inode ip) (hf : (S.store.inode ip).type = some .file) : Regular sb S ip := by
  have ht : (S.store.inode ip).type ≠ none := by rw [hf]; decide
  exact ⟨hl, hc, hf, Consistent.owned h ht, Consistent.present h ht⟩

theorem Regular.size_le (h : Regular sb S ip) : (S.store.inode ip).size ≤ maxFile * bsize := by
  by_contra hn
  refine h.dense maxFile (by simp) (by omega) ?_
  simp [blockAt, slotOf, maxFile]

theorem text_length (S : Incore.St P) (ip : Nat) : (text S ip).length = (S.store.inode ip).size := contents_length

/-- `ilock` of an inode whose copy, if valid, is the inode on disk. -/
theorem ends_ilock_copy {k : Unit → Incore.M β} (hl : S.store.lock ip = none) (ht : (S.store.inode ip).type ≠ none)
    (hc : S.store.valid ip = true → S.mem ip = S.store.inode ip) (h : Ends (Incore.exec sb) p (k ()) (filled p ip S) Q B W) :
    Ends (Incore.exec sb) p (Incore.ilock ip >>= k) S Q B W := by
  cases hv : S.store.valid ip with
  | false => exact ends_ilock_fresh hl hv ht h
  | true =>
    refine ends_ilock_valid hl hv ?_
    have he : filled p ip S = withLock S (update S.store.lock ip (some p)) := by
      unfold filled withLock
      rw [← hc hv, update_eq_self, ← hv, update_eq_self]
    rw [← he]
    exact h

variable {k : Int → Incore.M β}

/-- A chunk, from what `writei` does to the locked inode. -/
theorem ends_chunk (h : Regular sb S ip)
    (hw : Ends (Fs.exec sb) p (Fs.writei sb dev ip (S.store.inode ip) src off) (filled p ip S).store
      (fun x s' => Ends (Incore.exec sb) p (k x.1)
        ⟨{ s' with lock := update s'.lock ip none }, update S.mem ip x.2, S.outstanding⟩ Q B W)
      (fun e => B (.store e)) W) : Ends (Incore.exec sb) p (Incore.filewrite sb dev ip src off >>= k) S Q B W := by
  have ht : (S.store.inode ip).type ≠ none := by rw [h.file]; decide
  unfold Incore.filewrite
  rw [Prog.bind_assoc]
  refine Ends.act (show Incore.exec sb p .beginOp S = .ok ((), { S with outstanding := S.outstanding + 1 }) from rfl) ?_
  show Ends _ p ((Incore.ilock ip >>= _) >>= k) _ Q B W
  rw [Prog.bind_assoc]
  refine ends_ilock_copy (S := { S with outstanding := S.outstanding + 1 }) h.idle ht h.copy ?_
  rw [Prog.bind_assoc]
  refine ends_withInode_trans (S := filled p ip _) (Nat.le_add_left 1 S.outstanding) ?_
  rw [filled_mem]
  refine hw.mono (fun x s' _ hx => ?_) (fun _ e => e) id
  rw [Prog.bind_assoc]
  refine ends_iunlock ?_
  rw [Prog.bind_assoc]
  refine Ends.act (show Incore.exec sb p .endOp _ = .ok ((), _) from rfl) ?_
  show Ends _ p (k x.1) _ Q B W
  simpa [withLock, filled] using hx

theorem ends_chunk_written {n : Nat} (h : Regular sb S ip) (hoff : off ≤ (S.store.inode ip).size)
    (hmax : off + src.length ≤ maxFile * bsize) (hn : off + src.length ≤ n * bsize)
    (hroom : Room sb (fun e => B (.store e)) n S.store (S.store.inode ip))
    (hk : ∀ S', Regular sb S' ip → text S' ip = writeBytes (text S ip) off src →
      Room sb (fun e => B (.store e)) n S'.store (S'.store.inode ip) → Ends (Incore.exec sb) p (k src.length) S' Q B W) :
    Ends (Incore.exec sb) p (Incore.filewrite sb dev ip src off >>= k) S Q B W := by
  refine ends_chunk h ?_
  rw [← Prog.bind_ret (Fs.writei _ _ _ _ _ _)]
  refine ends_writei (n := n) ⟨h.owned.inj, h.owned.marked, h.owned.reserved⟩ (by rw [h.file]; decide) (by rw [h.file]; decide)
    h.dense hoff hmax hn (hroom.congr rfl rfl) fun d' s' hw hr => ?_
  have hdisk : s'.inode ip = d' := hw.disk rfl
  refine hk _ ⟨update_self _ _ _, fun _ => ?_, ?_, ?_, ?_⟩ ?_ ?_
  · show update S.mem ip d' ip = s'.inode ip
    rw [update_self, hdisk]
  · show (s'.inode ip).type = _
    rw [hdisk, hw.same]
    exact h.file
  · show Owned sb _ (s'.inode ip)
    rw [hdisk]
    exact ⟨hw.owned.inj, hw.owned.marked, hw.owned.reserved⟩
  · show Present (s'.inode ip) _ 0 (s'.inode ip).size
    rw [hdisk]
    exact hw.dense
  · show contents (s'.inode ip) s'.data = _
    rw [hdisk]
    exact hw.contents hoff
  · show Room sb _ n _ (s'.inode ip)
    rw [hdisk]
    exact hr.congr rfl rfl

theorem ends_chunk_refused (h : Regular sb S ip) (ho : off < 2 ^ 32) (hn : src.length < 2 ^ 32)
    (hr : Refused (S.store.inode ip).size off src.length)
    (hk : ∀ S', Regular sb S' ip → text S' ip = text S ip → Ends (Incore.exec sb) p (k (-1)) S' Q B W) :
    Ends (Incore.exec sb) p (Incore.filewrite sb dev ip src off >>= k) S Q B W := by
  refine ends_chunk h ?_
  unfold Ends
  rw [writei_refused (by rw [h.file]; decide) ho hn hr]
  refine hk _ ⟨update_self _ _ _, fun _ => update_self _ _ _, h.file, ?_, h.dense⟩ rfl
  exact ⟨h.owned.inj, h.owned.marked, h.owned.reserved⟩

end Chunk

/-! ## The file's offset -/

section File

variable {P : Type} {sb : Superblock} {dev : Devsw} {p : P} {s s' s'' : St P} {src buf : List UInt8} {n : Nat} {B : Prop}

/-- The open file is a regular one in order, and its offset lies inside. -/
structure Opened (sb : Superblock) (s : St P) : Prop where
  regular : Regular sb s.kernel s.ip
  within : s.off ≤ (s.kernel.store.inode s.ip).size

def St.text (s : St P) : List UInt8 := Filewrite.text s.kernel s.ip

/-- There are free blocks for a file of `n` blocks, unless `B`. -/
def St.Room (sb : Superblock) (B : Prop) (n : Nat) (s : St P) : Prop :=
  Contents.Room sb (fun _ => B) n s.kernel.store (s.kernel.store.inode s.ip)

/-- `src` has been written at the offset. -/
structure Appended (sb : Superblock) (s : St P) (src : List UInt8) (s' : St P) : Prop where
  opened : Opened sb s'
  ip : s'.ip = s.ip
  off : s'.off = s.off + src.length
  text : s'.text = writeBytes s.text s.off src
  result : s'.result = s.result

theorem Opened.text_length (h : Opened sb s) : s.off ≤ s.text.length := by
  unfold St.text
  rw [Filewrite.text_length]
  exact h.within

theorem writeBytes_nil (c : List UInt8) (off : Nat) : writeBytes c off [] = c := by
  unfold writeBytes
  rw [append_nil, length_nil, Nat.add_zero, take_append_drop]

theorem Appended.nil (h : Opened sb s) : Appended sb s [] s := ⟨h, rfl, rfl, (writeBytes_nil _ _).symm, rfl⟩

theorem Appended.trans {a b : List UInt8} (ho : Opened sb s) (h : Appended sb s a s') (h' : Appended sb s' b s'') :
    Appended sb s (a ++ b) s'' := by
  refine ⟨h'.opened, h'.ip.trans h.ip, ?_, ?_, h'.result.trans h.result⟩
  · rw [h'.off, h.off, length_append, Nat.add_assoc]
  · rw [h'.text, h.text, h.off, writeBytes_append ho.text_length]

def outOfBlocks : Panic := .kernel (.store .outOfBlocks)

variable [DecidableEq P]

theorem write_fits (dev : Devsw) (p : P) (src : List UInt8) (h : Opened sb s) (hmax : s.off + src.length ≤ maxFile * bsize) (hn : s.off + src.length ≤ n * bsize)
    (hroom : s.Room sb B n) :
    (∃ s', exec sb dev p (.write src) s = .ok ((src.length : Int), s') ∧ Appended sb s src s' ∧ s'.Room sb B n) ∨
      (exec sb dev p (.write src) s = .fail outOfBlocks ∧ B) := by
  have hends : Ends (Incore.exec sb) p (Incore.filewrite sb dev s.ip src s.off) s.kernel
      (fun r S' => r = src.length ∧ Regular sb S' s.ip ∧ text S' s.ip = writeBytes (text s.kernel s.ip) s.off src ∧
        Contents.Room sb (fun _ => B) n S'.store (S'.store.inode s.ip))
      (fun e => e = .store .outOfBlocks ∧ B) False := by
    rw [← Prog.bind_ret (Incore.filewrite _ _ _ _ _)]
    refine ends_chunk_written h.regular h.within hmax hn (hroom.imp (fun hB => ⟨rfl, hB⟩) id) fun S' hreg htext hr => ?_
    exact ⟨rfl, hreg, htext, hr.imp (fun hB => hB.2) id⟩
  unfold Ends at hends
  simp only [exec]
  cases hrun : run (Incore.exec sb) p (Incore.filewrite sb dev s.ip src s.off) s.kernel with
  | ok x =>
    rw [hrun] at hends
    obtain ⟨r, k⟩ := x
    obtain ⟨rfl, hreg, htext, hroom'⟩ := hends
    have hlen := congrArg length htext
    rw [text_length, writeBytes_length (c := text s.kernel s.ip) h.text_length, text_length] at hlen
    have hoff : (if (src.length : Int) > 0 then s.off + (src.length : Int).toNat else s.off) = s.off + src.length := by
      split <;> omega
    left
    refine ⟨{ s with kernel := k, off := s.off + src.length }, by dsimp only; rw [hoff], ⟨⟨hreg, ?_⟩, rfl, rfl, htext, rfl⟩, hroom'⟩
    show s.off + src.length ≤ (k.store.inode s.ip).size
    omega
  | wait =>
    rw [hrun] at hends
    exact hends.elim
  | fail e =>
    rw [hrun] at hends
    exact .inr ⟨by rw [hends.1]; rfl, hends.2⟩

theorem write_refused (dev : Devsw) (p : P) (src : List UInt8) (h : Opened sb s) (hn : src.length ≤ chunkMax) (hmax : maxFile * bsize < s.off + src.length) :
    ∃ s', exec sb dev p (.write src) s = .ok ((-1 : Int), s') ∧ Appended sb s [] s' := by
  have hends : Ends (Incore.exec sb) p (Incore.filewrite sb dev s.ip src s.off) s.kernel
      (fun r S' => r = -1 ∧ Regular sb S' s.ip ∧ text S' s.ip = text s.kernel s.ip) (fun _ => False) False := by
    have hle := h.within.trans h.regular.size_le
    have h32 : maxFile * bsize < 2 ^ 32 := by decide
    have hcm : chunkMax < 2 ^ 32 := by decide
    rw [← Prog.bind_ret (Incore.filewrite _ _ _ _ _)]
    refine ends_chunk_refused h.regular (by omega) (by omega) (.inr (.inr hmax)) fun S' hreg htext => ?_
    exact ⟨rfl, hreg, htext⟩
  obtain ⟨r, S', hrun, rfl, hreg, htext⟩ := hends.result
  refine ⟨{ s with kernel := S' }, by simp only [exec, hrun]; rfl, ⟨hreg, ?_⟩, rfl, rfl, ?_, rfl⟩
  · have hlen := congrArg length htext
    rw [text_length, text_length] at hlen
    show s.off ≤ (S'.store.inode s.ip).size
    rw [hlen]
    exact h.within
  · rw [writeBytes_nil]
    exact htext

/-! ## One call -/

theorem chunkMax_pos : 0 < chunkMax := by decide

variable {i fuel : Nat}

theorem chunk_length (buf : List UInt8) (i : Nat) : ((buf.drop i).take (min (buf.length - i) chunkMax)).length = min (buf.length - i) chunkMax := by
  rw [length_take, length_drop]
  omega

theorem writeLoop_succ (hi : i < buf.length) : writeLoop buf (fuel + 1) i =
    act (Act.write ((buf.drop i).take (min (buf.length - i) chunkMax))) fun (r : Int) => if r < 0 then ret (outcome buf i)
      else if r ≠ (min (buf.length - i) chunkMax : Nat) then panic .short else writeLoop buf fuel (i + r.toNat) := by
  rw [writeLoop, if_pos hi]
  rfl

/-- The loop goes on when a chunk has been written. -/
theorem ends_writeLoop_succ {Q : Int → St P → Prop} {F : Panic → Prop} (hi : i < buf.length)
    (h : (∃ s', exec sb dev p (.write ((buf.drop i).take (min (buf.length - i) chunkMax))) s =
          .ok (((min (buf.length - i) chunkMax : Nat) : Int), s') ∧
        Ends (exec sb dev) p (writeLoop buf fuel (i + min (buf.length - i) chunkMax)) s' Q F False) ∨
      (exec sb dev p (.write ((buf.drop i).take (min (buf.length - i) chunkMax))) s = .fail outOfBlocks ∧ F outOfBlocks)) :
    Ends (exec sb dev) p (writeLoop buf (fuel + 1) i) s Q F False := by
  rw [writeLoop_succ hi]
  rcases h with ⟨s', hx, h⟩ | ⟨hx, h⟩
  · refine Ends.act hx ?_
    rw [if_neg (by omega), if_neg (fun e => e rfl), Int.toNat_natCast]
    exact h
  · exact Ends.fail hx h

/-- The whole of the rest is written. -/
theorem ends_writeLoop_fits (h : Opened sb s) (hi : i ≤ buf.length) (hf : buf.length - i ≤ fuel)
    (hmax : s.off + (buf.length - i) ≤ maxFile * bsize) (hn : s.off + (buf.length - i) ≤ n * bsize) (hroom : s.Room sb B n) :
    Ends (exec sb dev) p (writeLoop buf fuel i) s (fun r s' => r = buf.length ∧ Appended sb s (buf.drop i) s')
      (fun e => e = outOfBlocks ∧ B) False := by
  induction fuel generalizing i s with
  | zero =>
    obtain rfl : i = buf.length := by omega
    rw [drop_length]
    exact ⟨if_pos rfl, .nil h⟩
  | succ fuel ih =>
    by_cases hlt : i < buf.length
    · have hpos := chunkMax_pos
      have hlen := chunk_length buf i
      refine ends_writeLoop_succ hlt ?_
      rcases write_fits dev p ((buf.drop i).take (min (buf.length - i) chunkMax)) h (by omega) (by omega) hroom with
        ⟨s', hx, happ, hroom'⟩ | ⟨hx, hB⟩
      · rw [hlen] at hx
        have hoff := happ.off
        refine .inl ⟨s', hx, ?_⟩
        refine (ih happ.opened (by omega) (by omega) (by omega) (by omega) hroom').mono (fun r s'' _ ⟨hr, hrest⟩ => ⟨hr, ?_⟩)
          (fun _ e => e) id
        have := happ.trans h hrest
        rwa [← drop_drop, take_append_drop] at this
      · exact .inr ⟨hx, rfl, hB⟩
    · obtain rfl : i = buf.length := by omega
      unfold writeLoop
      rw [if_neg hlt, drop_length]
      exact ⟨if_pos rfl, .nil h⟩

/-- The whole chunks are written that fit below the maximal size. -/
theorem ends_writeLoop_exceeds (dev : Devsw) (p : P) (buf : List UInt8) (i : Nat) {fuel : Nat} (h : Opened sb s) (hf : buf.length - i ≤ fuel) (hmax : maxFile * bsize < s.off + (buf.length - i))
    (hroom : s.Room sb B maxFile) :
    Ends (exec sb dev) p (writeLoop buf fuel i) s (fun r s' => r = -1 ∧
        Appended sb s ((buf.drop i).take ((maxFile * bsize - s.off) / chunkMax * chunkMax)) s')
      (fun e => e = outOfBlocks ∧ B) False := by
  have hin := h.within.trans h.regular.size_le
  induction fuel generalizing i s with
  | zero => omega
  | succ fuel ih =>
    have hlt : i < buf.length := by omega
    have hpos := chunkMax_pos
    have hlen := chunk_length buf i
    by_cases hfit : s.off + min (buf.length - i) chunkMax ≤ maxFile * bsize
    · have hwhole : min (buf.length - i) chunkMax = chunkMax := by omega
      rw [hwhole] at hlen hfit
      refine ends_writeLoop_succ hlt ?_
      rw [hwhole]
      rcases write_fits dev p ((buf.drop i).take chunkMax) h (by omega) (by omega) hroom with ⟨s', hx, happ, hroom'⟩ | ⟨hx, hB⟩
      · rw [hlen] at hx
        have hoff := happ.off
        rw [hlen] at hoff
        refine .inl ⟨s', hx, ?_⟩
        refine (ih _ happ.opened (by omega) (by omega) hroom' (by omega)).mono (fun r s'' _ ⟨hr, hrest⟩ => ⟨hr, ?_⟩) (fun _ e => e) id
        have hk : (maxFile * bsize - s.off) / chunkMax * chunkMax =
            chunkMax + (maxFile * bsize - s'.off) / chunkMax * chunkMax := by
          rw [hoff, ← Nat.sub_sub, Nat.div_eq_sub_div hpos (by omega), Nat.add_mul, Nat.one_mul, Nat.add_comm]
        have := happ.trans h hrest
        rwa [← drop_drop, ← take_add, ← hk] at this
      · exact .inr ⟨hx, rfl, hB⟩
    · have hk : (maxFile * bsize - s.off) / chunkMax * chunkMax = 0 := by
        rw [Nat.div_eq_of_lt (by omega), Nat.zero_mul]
      obtain ⟨s', hx, happ⟩ := write_refused dev p ((buf.drop i).take (min (buf.length - i) chunkMax)) h
        (by omega) (by omega)
      rw [writeLoop_succ hlt]
      refine Ends.act hx ?_
      show Ends (exec sb dev) p (ret (outcome buf i)) s' _ _ _
      rw [hk, take_zero]
      exact ⟨if_neg (by omega), happ⟩

/-- A call that returned -1 has changed nothing, one that returned `n` has written the buffer. -/
structure AllOrNothing (s : St P) (buf : List UInt8) (r : Int) (s' : St P) : Prop where
  result : r = -1 ∨ r = buf.length
  nothing : r = -1 → s'.text = s.text ∧ s'.text.length = s.text.length ∧ s'.off = s.off
  all : r = buf.length → s'.text = writeBytes s.text s.off buf ∧ s'.off = s.off + buf.length

omit [DecidableEq P] in
theorem AllOrNothing.of_nil (h : Appended sb s [] s') : AllOrNothing s buf (-1) s' := by
  have ht : s'.text = s.text := by rw [h.text, writeBytes_nil]
  exact ⟨.inl rfl, fun _ => ⟨ht, by rw [ht], h.off⟩, fun e => by omega⟩

/-- The first chunk fits below the maximal size and the whole does not. -/
def Partial (writable : Bool) (off n : Nat) : Prop :=
  writable = true ∧ chunkMax < n ∧ off + chunkMax ≤ maxFile * bsize ∧ maxFile * bsize < off + n

theorem filewrite_partial_iff (sb : Superblock) (dev : Devsw) (p : P) (s : St P) (h : Opened sb s) (writable : Bool) (buf : List UInt8) :
    (¬ Partial writable s.off buf.length →
      Ends (exec sb dev) p (filewrite writable buf) s (AllOrNothing s buf) (· = outOfBlocks) False) ∧
    (Partial writable s.off buf.length → s.Room sb False maxFile → ∃ s' k, 0 < k ∧
      run (exec sb dev) p (filewrite writable buf) s = .ok (-1, s') ∧ s'.off = s.off + k ∧
      s'.text = writeBytes s.text s.off (buf.take k)) := by
  have hpos := chunkMax_pos
  refine ⟨fun hp => ?_, fun ⟨hw, hlong, hfirst, hall⟩ hroom => ?_⟩
  · cases writable with
    | false => exact .of_nil (.nil h)
    | true =>
      rw [filewrite_writable]
      have hroom : s.Room sb True maxFile := .inl trivial
      by_cases hfit : s.off + buf.length ≤ maxFile * bsize
      · refine (ends_writeLoop_fits h (Nat.zero_le _) le_rfl hfit hfit hroom).mono (fun r s' _ ⟨hr, happ⟩ => ?_) (fun _ e => e.1) id
        exact ⟨.inr hr, fun e => by omega, fun _ => ⟨happ.text, happ.off⟩⟩
      · refine (ends_writeLoop_exceeds dev p buf 0 h le_rfl (by omega) hroom).mono (fun r s' _ ⟨hr, happ⟩ => ?_) (fun _ e => e.1) id
        have hfirst : maxFile * bsize - s.off < chunkMax := by
          by_contra hn
          exact hp ⟨rfl, by omega, by omega, by omega⟩
        rw [Nat.div_eq_of_lt hfirst, Nat.zero_mul, List.take_zero] at happ
        exact hr ▸ .of_nil happ
  · subst hw
    rw [filewrite_writable]
    have hends := ends_writeLoop_exceeds dev p buf 0 h le_rfl (by omega) hroom
    obtain ⟨_, s', hrun, rfl, happ⟩ := (hends.mono (fun _ _ _ hq => hq) (fun _ e => e.2) id).result
    have hle := Nat.div_mul_le_self (maxFile * bsize - s.off) chunkMax
    have hk : 0 < (maxFile * bsize - s.off) / chunkMax * chunkMax := Nat.mul_pos (Nat.div_pos (by omega) hpos) hpos
    refine ⟨s', (maxFile * bsize - s.off) / chunkMax * chunkMax, hk, hrun, ?_, happ.text⟩
    rw [happ.off, List.drop_zero, List.length_take, Nat.min_eq_left (by omega)]

end File

/-! ### A large write to an empty file -/

section Example

def disk400 : Superblock := ⟨400, 395, 2, by decide, by decide⟩

/-- Inode 1 is an open file without contents, and all data blocks are free. -/
def emptyFile (P : Type) : St P where
  kernel :=
    { store :=
        { bitmap := fun b => decide (b < 5)
          inode := fun i => if i = 1 then { Dinode.blank (some .file) with nlink := 1 } else Dinode.blank none
          data := fun _ => zeroBlock
          ref := fun i => if i = 1 then 1 else 0
          valid := fun _ => false
          lock := fun _ => none
          freed := fun _ => 0 }
      mem := fun _ => Dinode.blank none
      outstanding := 0 }
  ip := 1
  off := 0
  result := fun _ => none

variable (P : Type)

theorem emptyFile_ptr (i : Nat) (x : Slot) : ptr ((emptyFile P).kernel.store.inode i) (emptyFile P).kernel.store.data x = 0 := by
  have haddrs : ∀ j, ((emptyFile P).kernel.store.inode i).addrs j = 0 := fun j => by
    show (if i = 1 then _ else _ : Dinode).addrs j = 0
    split <;> rfl
  cases x with
  | direct j => exact haddrs _
  | ind => exact haddrs _
  | entry j => exact if_pos (haddrs _)

theorem consistent_emptyFile : Consistent disk400 (emptyFile P).kernel.store := by
  have href : ∀ b x, Refers (emptyFile P).kernel.store b x → b = 0 := fun b x hx => by rw [← hx.2, emptyFile_ptr P]
  refine ⟨fun b hb => decide_eq_true hb, fun b hb => ?_, fun b hb x hx => ?_, fun i _ bn => ?_, fun b x hx hb => absurd (href b x hx) hb⟩
  · have h5 : 5 ≤ b := hb.1
    refine iff_of_false (fun hm => ?_) fun ⟨x, hx, _⟩ => ?_
    · have := of_decide_eq_true hm
      omega
    · have := href b x hx
      omega
  · rw [href b x hx] at hb
    exact absurd hb (show decide (0 < 5) ≠ false by decide)
  · refine iff_of_false (fun hn => hn ?_) ?_
    · unfold blockAt
      cases slotOf bn with
      | none => rfl
      | some x => exact emptyFile_ptr P i x
    · have hsize : ((emptyFile P).kernel.store.inode i).size = 0 := by
        show (if i = 1 then _ else _ : Dinode).size = 0
        split <;> rfl
      unfold nblk
      rw [hsize]
      exact Nat.not_lt_zero bn

theorem opened_emptyFile : Opened disk400 (emptyFile P) :=
  ⟨.of_consistent (consistent_emptyFile P) rfl (fun e => by cases e) rfl, Nat.zero_le _⟩

theorem room_emptyFile : (emptyFile Unit).Room disk400 False maxFile := by
  right
  have hfree : (free disk400 (emptyFile Unit).kernel.store).card = 395 := by decide +kernel
  rw [hfree]
  decide +kernel

/-- A buffer one byte longer than a file can be is written in part, and the call returns -1. -/
theorem filewrite_partial : Consistent disk400 (emptyFile Unit).kernel.store ∧ Opened disk400 (emptyFile Unit) ∧
    ∀ buf : List UInt8, buf.length = 71681 → ∃ s',
      run (exec disk400 ⟨fun _ => none, fun _ => none⟩) () (filewrite true buf) (emptyFile Unit) = .ok (-1, s') ∧
      (emptyFile Unit).off = 0 ∧ s'.off = 70656 ∧ (emptyFile Unit).text.length = 0 ∧ s'.text.length = 70656 := by
  refine ⟨consistent_emptyFile Unit, opened_emptyFile Unit, fun buf hbuf => ?_⟩
  have hends := ends_writeLoop_exceeds ⟨fun _ => none, fun _ => none⟩ () buf 0
    (opened_emptyFile Unit) le_rfl (by rw [hbuf]; decide) room_emptyFile
  obtain ⟨_, s', hrun, rfl, happ⟩ := (hends.mono (fun _ _ _ hq => hq) (fun _ e => e.2) id).result
  have happ : Appended disk400 (emptyFile Unit) (buf.take 70656) s' := happ
  have hlen : (buf.take 70656).length = 70656 := by
    rw [List.length_take, hbuf]
    rfl
  refine ⟨s', hrun, rfl, ?_, rfl, ?_⟩
  · rw [happ.off, hlen]
    rfl
  · rw [happ.text, writeBytes_length (opened_emptyFile Unit).text_length, hlen]
    rfl

/-- Both parts, at an empty file. -/
theorem filewrite_partial_iff_emptyFile : Opened disk400 (emptyFile Unit) ∧
    Ends (exec disk400 ⟨fun _ => none, fun _ => none⟩) () (filewrite true [1, 2, 3]) (emptyFile Unit)
      (AllOrNothing (emptyFile Unit) [1, 2, 3]) (· = outOfBlocks) False ∧
    ∃ buf s' k, 0 < k ∧ run (exec disk400 ⟨fun _ => none, fun _ => none⟩) () (filewrite true buf) (emptyFile Unit) = .ok (-1, s') ∧
      s'.off = (emptyFile Unit).off + k ∧ s'.text = writeBytes (emptyFile Unit).text (emptyFile Unit).off (buf.take k) := by
  obtain ⟨buf, hbuf⟩ : ∃ buf : List UInt8, buf.length = 71681 := ⟨List.replicate 71681 7, List.length_replicate⟩
  refine ⟨opened_emptyFile Unit, (filewrite_partial_iff disk400 _ () (emptyFile Unit) (opened_emptyFile Unit) true [1, 2, 3]).1 ?_,
    buf, (filewrite_partial_iff disk400 _ () (emptyFile Unit) (opened_emptyFile Unit) true buf).2 ?_ room_emptyFile⟩
  · intro ⟨_, hlong, _⟩
    exact absurd hlong (by decide)
  · unfold Partial
    rw [hbuf]
    decide

end Example

/-! ## Calls side by side -/

section Calls

variable {P : Type} [DecidableEq P]

/-- The chunks written, in the order of the inode's lock, with who wrote them. -/
abbrev History (P : Type) := List (P × List UInt8)

def note (p : P) : (a : Act) → a.Res → St P → History P → History P
  | .write src, r, _, h =>
    let r : Int := r
    if r < 0 then h else h ++ [(p, src)]
  | _, _, _, h => h

/-- All that was written. -/
def written (h : History P) : List UInt8 := (h.map (·.2)).flatten

/-- What `p` wrote. -/
def writtenBy (p : P) (h : History P) : List UInt8 := ((h.filter (·.1 = p)).map (·.2)).flatten

omit [DecidableEq P] in
theorem written_snoc (h : History P) (p : P) (c : List UInt8) : written (h ++ [(p, c)]) = written h ++ c := by
  simp [written]

theorem writtenBy_snoc (h : History P) (p : P) (c : List UInt8) : writtenBy p (h ++ [(p, c)]) = writtenBy p h ++ c := by
  simp [writtenBy]

theorem writtenBy_snoc_ne (h : History P) {p q : P} (c : List UInt8) (hq : q ≠ p) : writtenBy q (h ++ [(p, c)]) = writtenBy q h := by
  simp [writtenBy, hq.symm]

theorem written_length [Fintype P] (h : History P) : (written h).length = ∑ p, (writtenBy p h).length := by
  induction h using reverseRecOn with
  | nil => simp [written, writtenBy]
  | append_singleton h x ih =>
    obtain ⟨p, c⟩ := x
    have hsum : ∀ q, (writtenBy q (h ++ [(p, c)])).length = (writtenBy q h).length + if q = p then c.length else 0 := fun q => by
      by_cases e : q = p
      · rw [e, writtenBy_snoc, length_append, if_pos rfl]
      · rw [writtenBy_snoc_ne h c e, if_neg e, Nat.add_zero]
    rw [written_snoc, length_append, ih, Finset.sum_congr rfl fun q _ => hsum q, Finset.sum_add_distrib, Finset.sum_ite_eq']
    simp

/-- The chunks a buffer is written in. -/
def rounds (buf : List UInt8) : Nat := (buf.length + chunkMax - 1) / chunkMax

/-- A call that has made `k` steps. -/
def after (buf : List UInt8) (k : Nat) : M Unit :=
  if k ≤ rounds buf then writeLoop buf (buf.length - k) (min (k * chunkMax) buf.length) >>= fun r => perform (Act.done r)
  else ret ()

theorem call_eq_after (buf : List UInt8) : call buf = after buf 0 := by
  unfold after
  rw [if_pos (Nat.zero_le _), Nat.zero_mul, Nat.zero_min]
  rfl

variable {buf : List UInt8} {k : Nat}

theorem lt_rounds_iff (buf : List UInt8) (k : Nat) : k < rounds buf ↔ k * chunkMax < buf.length := by
  unfold rounds chunkMax maxOpBlocks
  omega

theorem after_done (hk : rounds buf < k) : after buf k = ret () := if_neg (by omega)

theorem after_last : after buf (rounds buf) = act (Act.done buf.length) ret := by
  have hle : buf.length ≤ rounds buf * chunkMax := by
    have := lt_rounds_iff buf (rounds buf)
    omega
  have hloop : ∀ fuel, writeLoop buf fuel buf.length = ret (buf.length : Int) := fun fuel => by
    cases fuel with
    | zero => exact congrArg ret (if_pos rfl)
    | succ fuel =>
      unfold writeLoop
      rw [if_neg (lt_irrefl _)]
      exact congrArg ret (if_pos rfl)
  unfold after
  rw [if_pos le_rfl, Nat.min_eq_right hle, hloop]
  rfl

/-- The chunk of step `k`. -/
def chunk (buf : List UInt8) (k : Nat) : List UInt8 := (buf.drop (k * chunkMax)).take chunkMax

theorem take_chunk : buf.take (k * chunkMax) ++ chunk buf k = buf.take ((k + 1) * chunkMax) := by
  rw [chunk, Nat.add_mul, Nat.one_mul, ← take_add]

theorem after_write (hk : k < rounds buf) : ∃ f, after buf k = act (.write (chunk buf k)) f ∧
    f ((chunk buf k).length : Int) = after buf (k + 1) := by
  have hlt := (lt_rounds_iff buf k).1 hk
  have hpos := chunkMax_pos
  obtain ⟨fuel, hfuel⟩ : ∃ fuel, buf.length - k = fuel + 1 := ⟨buf.length - k - 1, by
    have : k * 1 ≤ k * chunkMax := Nat.mul_le_mul_left k hpos
    omega⟩
  have hchunk : (buf.drop (k * chunkMax)).take (min (buf.length - k * chunkMax) chunkMax) = chunk buf k := by
    rw [chunk, ← length_drop, Nat.min_comm, ← take_take, take_length]
  have hlen : (chunk buf k).length = min (buf.length - k * chunkMax) chunkMax := by rw [← hchunk, chunk_length]
  have hnext : k * chunkMax + min (buf.length - k * chunkMax) chunkMax = min ((k + 1) * chunkMax) buf.length := by
    rw [Nat.add_mul]
    omega
  have hafter : after buf k = writeLoop buf (fuel + 1) (k * chunkMax) >>= fun r => perform (Act.done r) := by
    rw [after, if_pos hk.le, hfuel, Nat.min_eq_left hlt.le]
  rw [hafter, writeLoop_succ hlt, hchunk]
  refine ⟨_, rfl, ?_⟩
  dsimp only
  rw [hlen, if_neg (by omega), if_neg (fun e => e rfl), Int.toNat_natCast, hnext, after, if_pos (Nat.succ_le_of_lt hk),
    show buf.length - (k + 1) = fuel by omega]
  rfl

/-- Every process is about to call `filewrite` with its buffer. -/
def start (s : St P) (buf : P → List UInt8) : Pool Act Act.Res P (St P × History P) Panic :=
  ⟨({ s with result := fun _ => none }, []), fun p => call (buf p), none⟩

def calls (sb : Superblock) (dev : Devsw) (s : St P) (buf : P → List UInt8) (es : List (Ev P Empty)) :
    Pool Act Act.Res P (St P × History P) Panic :=
  Pool.runs (recorded (exec sb dev) note) Empty.elim (start s buf) es

/-- The steps of `p`. -/
def isStep (p : P) : Ev P Empty → Bool
  | .step q => q = p
  | .start _ _ => false

/-- A process with this buffer has made `k` steps: what it wrote, its thread, its result. -/
structure At (buf : List UInt8) (k : Nat) (mine : List UInt8) (thread : M Unit) (result : Option Int) : Prop where
  mine : mine = buf.take (k * chunkMax)
  thread : thread = after buf k
  result : result = if rounds buf < k then some (buf.length : Int) else none

/-- After `count p` steps of each process `p`. -/
structure Inv (sb : Superblock) (s : St P) (buf : P → List UInt8) (n : Nat) (B : Prop) (count : P → Nat)
    (π : Pool Act Act.Res P (St P × History P) Panic) : Prop where
  failed : π.failed = none
  appended : Appended sb { s with result := π.state.1.result } (written π.state.2) π.state.1
  room : π.state.1.Room sb B n
  procs : ∀ p, At (buf p) (count p) (writtenBy p π.state.2) (π.threads p) (π.state.1.result p)

theorem take_of_rounds_le {buf : List UInt8} {k : Nat} (h : rounds buf ≤ k) : buf.take (k * chunkMax) = buf := by
  have := lt_rounds_iff buf k
  exact take_of_length_le (by omega)

variable {sb : Superblock} {dev : Devsw} {s : St P} {buf : P → List UInt8} {n : Nat} {B : Prop} {count : P → Nat}
  {π : Pool Act Act.Res P (St P × History P) Panic} {p : P}

/-- A process that has returned makes no more steps. -/
theorem inv_idle (h : Inv sb s buf n B count π) (hk : rounds (buf p) < count p) :
    Inv sb s buf n B (update count p (count p + 1)) (Pool.step (recorded (exec sb dev) note) Empty.elim π (.step p)) := by
  rw [Pool.step_ret ((h.procs p).thread.trans (after_done hk))]
  refine ⟨h.failed, h.appended, h.room, fun q => ?_⟩
  by_cases e : q = p
  · subst e
    rw [update_self]
    obtain ⟨hmine, hthread, hresult⟩ := h.procs q
    refine ⟨?_, ?_, ?_⟩
    · rw [hmine, take_of_rounds_le (by omega), take_of_rounds_le (by omega)]
    · rw [hthread, after_done hk, after_done (by omega)]
    · rw [hresult, if_pos hk, if_pos (by omega)]
  · rw [update_of_ne e]
    exact h.procs q

theorem inv_done (h : Inv sb s buf n B count π) (hk : count p = rounds (buf p)) :
    Inv sb s buf n B (update count p (count p + 1)) (Pool.step (recorded (exec sb dev) note) Empty.elim π (.step p)) := by
  have hthread : π.threads p = act (Act.done (buf p).length) ret := by rw [(h.procs p).thread, hk, after_last]
  have hx : recorded (exec sb dev) note p (Act.done (buf p).length) π.state =
      .ok ((), ({ π.state.1 with result := update π.state.1.result p (some ((buf p).length : Int)) }, π.state.2)) := rfl
  rw [Pool.step_ok h.failed hthread hx]
  refine ⟨h.failed, ⟨⟨h.appended.opened.regular, h.appended.opened.within⟩, h.appended.ip, h.appended.off, h.appended.text, rfl⟩,
    h.room, fun q => ?_⟩
  dsimp only
  by_cases e : q = p
  · subst e
    rw [update_self, update_self]
    refine ⟨?_, (update_self ..).trans (after_done (by omega)).symm, (if_pos (by omega)).symm⟩
    rw [(h.procs q).mine, take_of_rounds_le hk.ge, take_of_rounds_le (by omega)]
  · rw [update_of_ne e, update_of_ne e]
    exact ⟨(h.procs q).mine, (update_of_ne e ..).trans (h.procs q).thread, (h.procs q).result⟩

theorem inv_write [Fintype P] (hs : Opened sb s) (hmax : s.off + ∑ p, (buf p).length ≤ maxFile * bsize)
    (hn : s.off + ∑ p, (buf p).length ≤ n * bsize) (h : Inv sb s buf n B count π) (hk : count p < rounds (buf p)) :
    Inv sb s buf n B (update count p (count p + 1)) (Pool.step (recorded (exec sb dev) note) Empty.elim π (.step p)) ∨
      ((Pool.step (recorded (exec sb dev) note) Empty.elim π (.step p)).failed = some outOfBlocks ∧ B) := by
  obtain ⟨f, hf, hnext⟩ := after_write hk
  have hthread : π.threads p = act (Act.write (chunk (buf p) (count p))) f := by rw [(h.procs p).thread, hf]
  have hmine : ∀ q, writtenBy q (π.state.2 ++ [(p, chunk (buf p) (count p))]) =
      (buf q).take (update count p (count p + 1) q * chunkMax) := fun q => by
    by_cases e : q = p
    · subst e
      rw [update_self, writtenBy_snoc, (h.procs q).mine, take_chunk]
    · rw [update_of_ne e, writtenBy_snoc_ne _ _ e, (h.procs q).mine]
  -- the chunk ends inside what all processes write together
  have hend : π.state.1.off + (chunk (buf p) (count p)).length ≤ s.off + ∑ p, (buf p).length := by
    have hoff : π.state.1.off = s.off + (written π.state.2).length := h.appended.off
    rw [hoff, Nat.add_assoc, ← length_append, ← written_snoc _ p, written_length]
    refine Nat.add_le_add_left (Finset.sum_le_sum fun q _ => ?_) _
    rw [hmine, length_take]
    exact Nat.min_le_right _ _
  rcases write_fits dev p _ h.appended.opened (hend.trans hmax) (hend.trans hn) h.room with ⟨s', hx, happ, hroom⟩ | ⟨hx, hB⟩
  · left
    have hx' : recorded (exec sb dev) note p (Act.write (chunk (buf p) (count p))) π.state =
        .ok (((chunk (buf p) (count p)).length : Int), (s', π.state.2 ++ [(p, chunk (buf p) (count p))])) := by
      simp only [recorded, hx, note]
      rw [if_neg (by omega)]
    rw [Pool.step_ok h.failed hthread hx']
    refine ⟨h.failed, ?_, hroom, fun q => ⟨hmine q, ?_, ?_⟩⟩
    · dsimp only
      rw [written_snoc, happ.result]
      exact h.appended.trans ⟨hs.regular, hs.within⟩ happ
    · dsimp only
      by_cases e : q = p
      · subst e
        rw [update_self, update_self, hnext]
      · rw [update_of_ne e, update_of_ne e]
        exact (h.procs q).thread
    · dsimp only
      rw [happ.result, (h.procs q).result]
      by_cases e : q = p
      · subst e
        rw [update_self, if_neg (by omega), if_neg (by omega)]
      · rw [update_of_ne e]
  · right
    refine ⟨?_, hB⟩
    simp only [Pool.step, h.failed, hthread, recorded, hx]

theorem inv_step [Fintype P] (hs : Opened sb s) (hmax : s.off + ∑ p, (buf p).length ≤ maxFile * bsize)
    (hn : s.off + ∑ p, (buf p).length ≤ n * bsize) (h : Inv sb s buf n B count π) (p : P) :
    Inv sb s buf n B (update count p (count p + 1)) (Pool.step (recorded (exec sb dev) note) Empty.elim π (.step p)) ∨
      ((Pool.step (recorded (exec sb dev) note) Empty.elim π (.step p)).failed = some outOfBlocks ∧ B) := by
  rcases lt_trichotomy (count p) (rounds (buf p)) with hk | hk | hk
  · exact inv_write hs hmax hn h hk
  · exact .inl (inv_done h hk)
  · exact .inl (inv_idle h hk)

theorem inv_start (hs : Opened sb s) (hroom : s.Room sb B n) : Inv sb s buf n B (fun _ => 0) (start s buf) := by
  refine ⟨rfl, .nil ⟨hs.regular, hs.within⟩, hroom, fun p => ⟨?_, call_eq_after _, rfl⟩⟩
  rw [Nat.zero_mul]
  rfl

theorem inv_calls [Fintype P] (dev : Devsw) (hs : Opened sb s) (hmax : s.off + ∑ p, (buf p).length ≤ maxFile * bsize)
    (hn : s.off + ∑ p, (buf p).length ≤ n * bsize) (hroom : s.Room sb B n) (es : List (Ev P Empty)) :
    Inv sb s buf n B (fun p => es.countP (isStep p)) (calls sb dev s buf es) ∨
      ((calls sb dev s buf es).failed = some outOfBlocks ∧ B) := by
  induction es using reverseRecOn with
  | nil => exact .inl (inv_start hs hroom)
  | append_singleton es e ih =>
    have hstep : calls sb dev s buf (es ++ [e]) = Pool.step (recorded (exec sb dev) note) Empty.elim (calls sb dev s buf es) e :=
      foldl_concat ..
    rw [hstep]
    cases e with
    | start p c => exact c.elim
    | step p =>
      rcases ih with h | ⟨hf, hB⟩
      · have hcount : (fun q => (es ++ [Ev.step p]).countP (isStep q)) =
            update (fun q => es.countP (isStep q)) p (es.countP (isStep p) + 1) := by
          funext q
          rw [countP_append, countP_singleton]
          by_cases e : q = p
          · subst e
            rw [update_self]
            simp [isStep]
          · rw [update_of_ne e]
            simp [isStep, Ne.symm e]
        rw [hcount]
        exact inv_step hs hmax hn h p
      · refine .inr ⟨?_, hB⟩
        simp only [Pool.step, hf]

/-- In any interleaving of the calls, the chunks stand one behind the other from the old
    offset on, and every call returns its length. The kernel stops only when the disk is full. -/
theorem chunks_in_order [Fintype P] (sb : Superblock) (dev : Devsw) (s : St P) (hs : Opened sb s) (buf : P → List UInt8)
    (hmax : s.off + ∑ p, (buf p).length ≤ maxFile * bsize) (es : List (Ev P Empty)) :
    ((calls sb dev s buf es).failed ≠ none → (calls sb dev s buf es).failed = some outOfBlocks ∧
      ¬ s.Room sb False (blocksFor (s.off + ∑ p, (buf p).length))) ∧
    ((calls sb dev s buf es).failed = none →
      (calls sb dev s buf es).state.1.text = writeBytes s.text s.off (written (calls sb dev s buf es).state.2) ∧
      (calls sb dev s buf es).state.1.off = s.off + (written (calls sb dev s buf es).state.2).length ∧
      (∀ p, writtenBy p (calls sb dev s buf es).state.2 <+: buf p) ∧
      (∀ p r, (calls sb dev s buf es).state.1.result p = some r → r = (buf p).length ∧
        writtenBy p (calls sb dev s buf es).state.2 = buf p) ∧
      (∀ p, rounds (buf p) < es.countP (isStep p) → (calls sb dev s buf es).state.1.result p = some ((buf p).length : Int)) ∧
      ((∀ p, (calls sb dev s buf es).state.1.result p ≠ none) →
        (calls sb dev s buf es).state.1.off = s.off + ∑ p, (buf p).length)) := by
  have hroom : s.Room sb (¬ s.Room sb False (blocksFor (s.off + ∑ p, (buf p).length))) (blocksFor (s.off + ∑ p, (buf p).length)) := by
    by_cases h : s.Room sb False (blocksFor (s.off + ∑ p, (buf p).length))
    · exact .inr (h.resolve_left id)
    · exact .inl h
  have hn : s.off + ∑ p, (buf p).length ≤ blocksFor (s.off + ∑ p, (buf p).length) * bsize := by
    unfold blocksFor bsize
    omega
  rcases inv_calls dev hs hmax hn hroom es with h | ⟨hf, hB⟩
  · refine ⟨fun hf => absurd h.failed hf, fun _ => ?_⟩
    have hres : ∀ p r, (calls sb dev s buf es).state.1.result p = some r → r = (buf p).length ∧
        writtenBy p (calls sb dev s buf es).state.2 = buf p := fun p r hr => by
      obtain ⟨hmine, _, hresult⟩ := h.procs p
      rw [hr] at hresult
      split at hresult
      · rename_i hk
        exact ⟨Option.some.inj hresult, hmine.trans (take_of_rounds_le hk.le)⟩
      · cases hresult
    refine ⟨h.appended.text, h.appended.off, fun p => ?_, hres, fun p hk => ?_, fun hall => ?_⟩
    · rw [(h.procs p).mine]
      exact List.take_prefix _ _
    · rw [(h.procs p).result, if_pos hk]
    · have hoff : (calls sb dev s buf es).state.1.off = s.off + (written (calls sb dev s buf es).state.2).length := h.appended.off
      rw [hoff, written_length]
      refine congrArg (s.off + ·) (Finset.sum_congr rfl fun p _ => ?_)
      obtain ⟨r, hr⟩ := Option.ne_none_iff_exists'.1 (hall p)
      rw [(hres p r hr).2]
  · exact ⟨fun _ => ⟨hf, hB⟩, fun hnone => by rw [hf] at hnone; cases hnone⟩

/-- Two processes, two chunks and one. -/
theorem chunks_in_order_two : ∃ buf : Bool → List UInt8, (buf true).length = 2000 ∧ (buf false).length = 3 ∧
    (calls disk400 ⟨fun _ => none, fun _ => none⟩ (emptyFile Bool) buf
      [.step true, .step false, .step true, .step true, .step false]).state.1.result true = some 2000 := by
  have hlen : (List.replicate 2000 (1 : UInt8)).length = 2000 := List.length_replicate
  generalize List.replicate 2000 (1 : UInt8) = long at hlen
  have hsum : ∑ p : Bool, (if p then long else [4, 5, 6]).length = 2003 := by
    rw [Fintype.sum_bool, if_pos rfl, hlen]
    rfl
  obtain ⟨hfail, hok⟩ := chunks_in_order disk400 ⟨fun _ => none, fun _ => none⟩ (emptyFile Bool) (opened_emptyFile Bool)
    (fun p : Bool => if p then long else [4, 5, 6]) (by rw [hsum]; decide) [.step true, .step false, .step true, .step true, .step false]
  have hnone : (calls disk400 ⟨fun _ => none, fun _ => none⟩ (emptyFile Bool) (fun p : Bool => if p then long else [4, 5, 6])
      [.step true, .step false, .step true, .step true, .step false]).failed = none := by
    by_contra hne
    refine (hfail hne).2 ?_
    rw [hsum]
    exact .inr (by decide +kernel)
  refine ⟨fun p : Bool => if p then long else [4, 5, 6], hlen, rfl, ?_⟩
  have hr := (hok hnone).2.2.2.2.1 true (by unfold rounds; rw [if_pos rfl, hlen]; decide)
  rw [if_pos rfl, hlen] at hr
  exact hr

end Calls

end Xv6.Fs.Filewrite
