/-
  Xv6.Fs.Directory — a directory's bytes as a list of entries.

  An entry is 16 bytes: the inode number and the name, of which its `key` counts. Over the
  entries `dirlookup` is `Namespace.lookup`, which ties `Fs.Namespace` to the bytes on disk
  (`looks_dirlookup`).
-/

import Xv6.Fs.Contents
import Xv6.Fs.Dirent
import Xv6.Fs.Incore
import Xv6.Fs.Links

namespace Xv6.Fs.Directory

open Xv6.Lib Prog Blocks Contents Namespace Function

variable {P : Type} {sb : Superblock} {dev : Devsw} {p : P} {s : Store P} {ip : Nat} {d : Dinode} {m : Nat → Block}

/-! ## Entries -/

def entAt (d : Dinode) (m : Nat → Block) (k : Nat) : Dirent :=
  ⟨deInum (bytes d m (direntSize * k) direntSize), key ((bytes d m (direntSize * k) direntSize).drop 2)⟩

def ents (d : Dinode) (m : Nat → Block) : List Dirent := (List.range (d.size / direntSize)).map (entAt d m)

/-- A directory's copy: its size is a number of entries, and its blocks are there. -/
structure Sits (s : Store P) (d : Dinode) : Prop where
  type : d.type = some .dir
  whole : d.size % direntSize = 0
  le : d.size ≤ maxFile * bsize
  dense : Present d s.data 0 d.size

/-! ## Looking -/

/-- The action never calls `log_write`. -/
def Silent : Fs.Act → Bool
  | .mark _ _ | .claim _ _ | .bzero _ _ | .bfree _ _ | .bwrite _ _ _ | .iupdate _ _ => false
  | _ => true

/-- The program returns `x` and leaves the store as `s'`, without `log_write`. -/
def Looks (sb : Superblock) (p : P) (c : Fs.M α) (s : Store P) (x : α) (s' : Store P) : Prop :=
  run (Fs.exec sb) p c s = .ok (x, s') ∧ Upholds (Fs.exec sb) p (fun a _ => Silent a = true) c s

theorem Looks.ret (x : α) : Looks sb p (ret x) s x s := ⟨rfl, trivial⟩

theorem Looks.bind {c : Fs.M α} {f : α → Fs.M β} {x : α} {y : β} {s' s'' : Store P} (hc : Looks sb p c s x s')
    (hf : Looks sb p (f x) s' y s'') : Looks sb p (c >>= f) s y s'' := by
  refine ⟨?_, hc.2.bind fun x' t h => ?_⟩
  · rw [run_bind_ok _ hc.1]; exact hf.1
  · rw [hc.1] at h
    cases h
    exact hf.2

theorem looks_of_reads {c : Fs.M α} {x : α} (h : Reads sb p c s x) : Looks sb p c s x s := by
  refine ⟨h.1, h.2.mono fun a _ ha => ?_⟩
  cases a <;> first | rfl | exact ha.elim

/-- An entry as the loops read it. -/
theorem looks_entry (hd : d.type = some .dir) (hle : d.size ≤ maxFile * bsize) {k : Nat}
    (hk : direntSize * k + direntSize ≤ d.size) (hp : Present d s.data (direntSize * k) direntSize) :
    Looks sb p (readi sb dev ip d (direntSize * k) direntSize) s
      (some (bytes d s.data (direntSize * k) direntSize), d) s := by
  refine looks_of_reads (reads_readi (by rw [hd]; decide) hk ?_ hp)
  exact lt_of_le_of_lt hle (by decide)

/-- The store after `iget`. -/
def got (s : Store P) (i : Nat) : Store P :=
  { s with ref := Function.update s.ref i (s.ref i + 1),
           valid := if s.ref i = 0 then Function.update s.valid i false else s.valid }

theorem looks_iget (i : Nat) : Looks sb p (iget i) s () (got s i) := ⟨rfl, rfl, trivial⟩

/-- The entry has the name. -/
def Hits (name : List UInt8) (e : Dirent) : Prop := e.inum ≠ 0 ∧ e.name = key name

instance (name : List UInt8) (e : Dirent) : Decidable (Hits name e) := inferInstanceAs (Decidable (_ ∧ _))

section Lookup

variable {name : List UInt8} {k : Nat} {offs : List Nat} (hd : d.type = some .dir) (hle : d.size ≤ maxFile * bsize)
  (hk : direntSize * k + direntSize ≤ d.size) (hp : Present d s.data (direntSize * k) direntSize)

include hd hle hk hp

theorem looks_hit (hh : Hits name (entAt d s.data k)) :
    Looks sb p (Fs.lookupFrom sb dev ip name (direntSize * k :: offs) d) s
      (some ((entAt d s.data k).inum, direntSize * k), d) (got s (entAt d s.data k).inum) := by
  refine (looks_entry hd hle hk hp).bind ?_
  dsimp only
  rw [if_neg (by simp), if_pos ⟨hh.1, namecmp_eq_zero.mpr hh.2.symm⟩]
  exact (looks_iget _).bind (.ret _)

theorem looks_miss {x : Option (Nat × Nat) × Dinode} {s' : Store P} (hh : ¬ Hits name (entAt d s.data k))
    (h : Looks sb p (Fs.lookupFrom sb dev ip name offs d) s x s') :
    Looks sb p (Fs.lookupFrom sb dev ip name (direntSize * k :: offs) d) s x s' := by
  refine (looks_entry hd hle hk hp).bind ?_
  dsimp only
  rw [if_neg (by simp), if_neg]
  · exact h
  · exact fun e => hh ⟨e.1, (namecmp_eq_zero.mp e.2).symm⟩

end Lookup

theorem Sits.entry (h : Sits s d) {k : Nat} (hk : k < d.size / direntSize) :
    direntSize * k + direntSize ≤ d.size ∧ Present d s.data (direntSize * k) direntSize := by
  have hle : direntSize * k + direntSize ≤ d.size := by
    rw [← Nat.mul_succ]
    exact (Nat.mul_le_mul_left _ hk).trans (Nat.mul_div_le _ _)
  exact ⟨hle, fun bn _ hlt => h.dense bn (by simp) (by omega)⟩

/-- The store after a lookup. -/
def found (s : Store P) : Option (Nat × Nat) → Store P
  | some (i, _) => got s i
  | none => s

theorem looks_lookupFrom (h : Sits s d) (name : List UInt8) (n j : Nat) (hn : j + n ≤ d.size / direntSize) :
    Looks sb p (Fs.lookupFrom sb dev ip name ((List.range' j n).map (direntSize * ·)) d) s
      ((Namespace.lookupFrom (key name) j ((List.range' j n).map (entAt d s.data))).map fun x => (x.1, direntSize * x.2), d)
      (found s (Namespace.lookupFrom (key name) j ((List.range' j n).map (entAt d s.data)))) := by
  induction n generalizing j with
  | zero => exact .ret _
  | succ n ih =>
    rw [List.range'_succ, List.map_cons, List.map_cons, Namespace.lookupFrom]
    obtain ⟨hk, hp⟩ := h.entry (k := j) (by omega)
    split
    · rename_i hh
      exact looks_hit h.type h.le hk hp hh
    · rename_i hh
      exact looks_miss h.type h.le hk hp hh (ih (j + 1) (by omega))

theorem Sits.offsets (h : Sits s d) : offsets d = (List.range' 0 (d.size / direntSize)).map (direntSize * ·) := by
  have hw := h.whole
  unfold Fs.offsets
  rw [List.range_eq_range', show (d.size + direntSize - 1) / direntSize = d.size / direntSize by
    unfold direntSize at *; omega]

/-- `dirlookup` is `lookup` in the entries. -/
theorem looks_dirlookup (h : Sits s d) (name : List UInt8) :
    Looks sb p (Fs.dirlookup sb dev ip d name) s
      ((lookup (key name) (ents d s.data)).map fun x => (x.1, direntSize * x.2), d)
      (found s (lookup (key name) (ents d s.data))) := by
  unfold Fs.dirlookup
  rw [if_neg (by rw [h.type]; exact fun e => e rfl), h.offsets]
  have hlook : Looks sb p (Fs.lookupFrom sb dev ip name ((List.range' 0 (d.size / direntSize)).map (direntSize * ·)) d) s _ _ :=
    looks_lookupFrom h name (d.size / direntSize) 0 (by omega)
  rw [← List.range_eq_range'] at hlook ⊢
  exact hlook

/-! ## In-core -/

section Incore

variable {S : Incore.St P} {Q : β → Incore.St P → Prop} {B : Incore.Panic → Prop} {W : Prop}

theorem run_disk {c : Fs.M α} {x : α} {st : Store P} (h : Looks sb p c S.store x st) :
    run (Incore.exec sb) p (Incore.disk c) S = .ok (x, { S with store := st }) := by
  obtain ⟨hrun, hup⟩ := h
  induction c generalizing S with
  | ret y => cases hrun; rfl
  | act a k ih =>
    obtain ⟨r, s', hx, hrest⟩ := run_act_inv (Fs.exec sb) hrun
    simp only [Upholds] at hup
    rw [hx] at hup
    have hlog : Incore.logs a r = false := by cases a <;> first | rfl | cases hup.1
    have hstep : Incore.exec sb p (.disk a) S = .ok (r, { S with store := s' }) := by
      simp only [Incore.exec, hx, hlog, Bool.false_eq_true, false_and, if_false]
    show run (Incore.exec sb) p (act (.disk a) fun r => Incore.disk (k r)) S = _
    rw [run_act _ _ _ _ hstep]
    exact ih r (S := { S with store := s' }) hrest hup.2

theorem ends_disk {c : Fs.M α} {k : α → Incore.M β} (hout : 1 ≤ S.outstanding)
    (h : Ends (Fs.exec sb) p c S.store (fun x st => Ends (Incore.exec sb) p (k x) { S with store := st } Q B W)
      (fun e => B (.store e)) W) :
    Ends (Incore.exec sb) p (Incore.disk c >>= k) S Q B W := by
  induction c generalizing S with
  | ret x => exact h
  | act a f ih =>
    show Ends (Incore.exec sb) p (act (.disk a) fun r => Incore.disk (f r) >>= k) S Q B W
    unfold Ends at h
    simp only [run] at h
    cases hx : Fs.exec sb p a S.store with
    | ok y =>
      rw [hx] at h
      have hstep : Incore.exec sb p (.disk a) S = .ok (y.1, { S with store := y.2 }) := by
        simp only [Incore.exec, hx]
        rw [if_neg (by omega)]
      exact Ends.act hstep (ih y.1 (S := { S with store := y.2 }) hout h)
    | wait =>
      rw [hx] at h
      exact Ends.wait (by simp only [Incore.exec, hx]) h
    | fail e =>
      rw [hx] at h
      exact Ends.fail (e := .store e) (by simp only [Incore.exec, hx]) h

variable {i : Nat}

/-- A silent function of one inode. -/
theorem ends_withInode {f : Dinode → Fs.M (α × Dinode)} {k : α → Incore.M β} {x : α} {d' : Dinode} {st : Store P}
    (h : Looks sb p (f (S.mem i)) S.store (x, d') st)
    (hk : Ends (Incore.exec sb) p (k x) { S with store := st, mem := update S.mem i d' } Q B W) :
    Ends (Incore.exec sb) p (Incore.withInode i f >>= k) S Q B W := by
  unfold Incore.withInode
  rw [Prog.bind_assoc]
  refine Ends.act (show Incore.exec sb p (.get i) S = .ok (S.mem i, S) from rfl) ?_
  show Ends (Incore.exec sb) p ((Incore.disk (f (S.mem i)) >>= fun r => Incore.set i r.2 >>= fun _ => ret r.1) >>= k) S Q B W
  rw [Prog.bind_assoc]
  unfold Ends
  rw [run_bind_ok _ (run_disk h)]
  exact hk

/-- A function of one inode, in a transaction. -/
theorem ends_withInode_trans {f : Dinode → Fs.M (α × Dinode)} {k : α → Incore.M β} (hout : 1 ≤ S.outstanding)
    (h : Ends (Fs.exec sb) p (f (S.mem i)) S.store (fun x st => Ends (Incore.exec sb) p (k x.1)
      { S with store := st, mem := update S.mem i x.2 } Q B W) (fun e => B (.store e)) W) :
    Ends (Incore.exec sb) p (Incore.withInode i f >>= k) S Q B W := by
  unfold Incore.withInode
  rw [Prog.bind_assoc]
  refine Ends.act (show Incore.exec sb p (.get i) S = .ok (S.mem i, S) from rfl) ?_
  show Ends (Incore.exec sb) p ((Incore.disk (f (S.mem i)) >>= fun r => Incore.set i r.2 >>= fun _ => ret r.1) >>= k) S Q B W
  rw [Prog.bind_assoc]
  exact ends_disk hout h

theorem ends_get {k : Dinode → Incore.M β} (h : Ends (Incore.exec sb) p (k (S.mem i)) S Q B W) :
    Ends (Incore.exec sb) p (Incore.get i >>= k) S Q B W :=
  Ends.act (show Incore.exec sb p (.get i) S = .ok (S.mem i, S) from rfl) h

/-- The locks are `l`. -/
def withLock (S : Incore.St P) (l : Nat → Option P) : Incore.St P := { S with store := { S.store with lock := l } }

/-- The references are `r`. -/
def withRef (S : Incore.St P) (r : Nat → Nat) : Incore.St P := { S with store := { S.store with ref := r } }

theorem exec_disk {a : Fs.Act} {r : a.Res} {st : Store P} (h : Fs.exec sb p a S.store = .ok (r, st))
    (hl : Incore.logs a r = false) : Incore.exec sb p (.disk a) S = .ok (r, { S with store := st }) := by
  simp only [Incore.exec, h, hl, Bool.false_eq_true, false_and, if_false]

variable {k : Unit → Incore.M β}

theorem ends_iget (h : Ends (Incore.exec sb) p (k ()) { S with store := got S.store i } Q B W) :
    Ends (Incore.exec sb) p (Incore.iget i >>= k) S Q B W := by
  unfold Ends
  rw [run_bind_ok _ (show run (Incore.exec sb) p (Incore.iget i) S = _ from run_disk (looks_iget i))]
  exact h

theorem ends_acquiresleep (hl : S.store.lock i = none)
    (h : Ends (Incore.exec sb) p (k ()) (withLock S (update S.store.lock i (some p))) Q B W) :
    Ends (Incore.exec sb) p (Incore.disk (acquiresleep i) >>= k) S Q B W := by
  refine Ends.act (exec_disk (a := .acquiresleep i) (r := ()) ?_ rfl) h
  simp only [Fs.exec, hl]

theorem ends_ilock_valid (hl : S.store.lock i = none) (hv : S.store.valid i = true)
    (h : Ends (Incore.exec sb) p (k ()) (withLock S (update S.store.lock i (some p))) Q B W) :
    Ends (Incore.exec sb) p (Incore.ilock i >>= k) S Q B W := by
  show Ends (Incore.exec sb) p (Incore.disk (acquiresleep i) >>= fun _ => act (.fill i) k) S Q B W
  refine ends_acquiresleep hl (Ends.act (r := ()) ?_ h)
  simp only [Incore.exec, withLock, hv, if_true]

/-- The state after `ilock` has read inode `i`. -/
def filled (p : P) (i : Nat) (S : Incore.St P) : Incore.St P :=
  { S with store := { S.store with lock := Function.update S.store.lock i (some p),
                                   valid := Function.update S.store.valid i true },
           mem := Function.update S.mem i (S.store.inode i) }

theorem filled_mem (p : P) (i : Nat) (S : Incore.St P) : (filled p i S).mem i = S.store.inode i := update_self _ _ _

theorem ends_ilock_fresh (hl : S.store.lock i = none) (hv : S.store.valid i = false)
    (ht : (S.store.inode i).type ≠ none) (h : Ends (Incore.exec sb) p (k ()) (filled p i S) Q B W) :
    Ends (Incore.exec sb) p (Incore.ilock i >>= k) S Q B W := by
  show Ends (Incore.exec sb) p (Incore.disk (acquiresleep i) >>= fun _ => act (.fill i) k) S Q B W
  refine ends_acquiresleep hl (Ends.act ?_ h)
  show Incore.exec sb p (.fill i) (withLock S _) = _
  simp only [Incore.exec, withLock, hv, Bool.false_eq_true, if_false, ht, filled]

theorem ends_iunlock (h : Ends (Incore.exec sb) p (k ()) (withLock S (update S.store.lock i none)) Q B W) :
    Ends (Incore.exec sb) p (Incore.iunlock i >>= k) S Q B W :=
  Ends.act (exec_disk (a := .releasesleep i) (r := ()) rfl rfl) h

theorem ends_unref
    (h : Ends (Incore.exec sb) p (k ()) (withRef S (update S.store.ref i (S.store.ref i - 1))) Q B W) :
    Ends (Incore.exec sb) p (Incore.disk (unref i) >>= k) S Q B W :=
  Ends.act (exec_disk (a := .unref i) (r := ()) rfl rfl) h

/-- What `iput` does under the lock of an inode that is not to be freed: nothing. -/
theorem ends_iputLocked_kept (hkeep : S.store.valid i = true → (S.mem i).nlink = 0 → S.store.ref i ≠ 1)
    (h : Ends (Incore.exec sb) p (k ()) S Q B W) : Ends (Incore.exec sb) p (Incore.iputLocked i >>= k) S Q B W := by
  unfold Incore.iputLocked
  rw [Prog.bind_assoc]
  by_cases hv : S.store.valid i = true
  · refine Ends.act (show Incore.exec sb p (.cached i) S = .ok (some (S.mem i), S) by simp only [Incore.exec, hv]; rfl) ?_
    show Ends (Incore.exec sb) p ((if (S.mem i).nlink = 0 then _ else _) >>= k) S Q B W
    split
    · rename_i hn
      refine Ends.act (exec_disk (a := .sample i) (r := S.store.ref i) rfl rfl) ?_
      show Ends (Incore.exec sb) p ((if S.store.ref i = 1 then _ else _) >>= k) S Q B W
      rw [if_neg (hkeep hv hn)]
      exact h
    · exact h
  · refine Ends.act (show Incore.exec sb p (.cached i) S = .ok (none, S) by simp only [Incore.exec, hv]; rfl) ?_
    exact h

/-- `iput` of an inode that is not to be freed. -/
theorem ends_iput_kept (hl : S.store.lock i = none)
    (hkeep : S.store.valid i = true → (S.mem i).nlink = 0 → S.store.ref i ≠ 1)
    (hk : Ends (Incore.exec sb) p (k ()) (withRef S (update S.store.ref i (S.store.ref i - 1))) Q B W) :
    Ends (Incore.exec sb) p (Incore.iput i >>= k) S Q B W := by
  have hlock : update (update S.store.lock i (some p)) i none = S.store.lock := by
    funext j
    by_cases e : j = i
    · subst e; rw [update_self, hl]
    · rw [update_of_ne e, update_of_ne e]
  unfold Incore.iput
  rw [Prog.bind_assoc]
  refine ends_acquiresleep hl ?_
  rw [Prog.bind_assoc]
  refine ends_iputLocked_kept hkeep ?_
  rw [Prog.bind_assoc]
  refine ends_iunlock (ends_unref ?_)
  simp only [withLock, hlock]
  exact hk

end Incore

end Xv6.Fs.Directory
