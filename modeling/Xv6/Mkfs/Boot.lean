/-
  Xv6.Mkfs.Boot — the kernel on the image `mkfs` has written (`mkfs.c`: `main`; `fs.c`:
  `readsb`, `ilock`, `readi`, `dirlookup`, `namei`).

  After boot nothing is cached, so `namei` and `readi` see the image alone. The root's
  entries are those of the files in the order of the arguments, behind `.` and `..`; the
  lookup passes over the entries before a file's, which have other names, and never gets
  to the end of the root, where its last block may not exist. The file's blocks are the
  ones `iappend` has filled.
-/

import Xv6.Fs.Directory
import Xv6.Mkfs.Format

namespace Xv6.Mkfs

open Xv6.Lib Xv6.Fs Xv6.Fs.Image Xv6.Fs.Contents Xv6.Fs.Blocks Xv6.Fs.Directory Prog

/-- `namei`, and then the inode and all its bytes. -/
def readWhole (sb : Superblock) (dev : Devsw) (cwd : Nat) (path : List UInt8) :
    Incore.M (Option (Dinode × Option (List UInt8))) := do
  match ← Incore.namei sb dev cwd path with
  | none => return none
  | some (ip, _) =>
    Incore.ilock ip
    let d ← Incore.get ip
    let r ← Incore.readi sb dev ip 0 d.size
    return some (d, r)

/-- The names by which the files are to be found. -/
structure Named (files : List Input) : Prop where
  nonempty : ∀ f ∈ files, f.name ≠ []
  notDots : ∀ f ∈ files, f.name ≠ Namespace.dot ∧ f.name ≠ Namespace.dotdot
  distinct : (files.map fun f => f.name.take dirSiz).Nodup

/-! ## Names -/

theorem name_subset (f : Input) : f.name ⊆ f.arg := by
  unfold Input.name
  split
  · exact List.tail_subset _
  · exact fun _ h => h

theorem key_of_noNul {s : List UInt8} (h : (0 : UInt8) ∉ s) : key s = s.take dirSiz := by
  unfold key keyUpTo
  rw [List.takeWhile_eq_self_iff]
  intro a ha
  have : a ≠ 0 := fun e => h (e ▸ List.mem_of_mem_take ha)
  simpa using this

theorem key_name (f : Input) : key f.name = f.name.take dirSiz := key_of_noNul fun h => f.hnul (name_subset f h)

theorem elems_name {name : List UInt8} (h : Namespace.slash ∉ name) (hne : name ≠ []) :
    Namespace.elems (Namespace.slash :: name) = [name.take dirSiz] := by
  have hpass : ∀ a ∈ name, (a != Namespace.slash) = true := fun a ha => by
    have : a ≠ Namespace.slash := fun e => h (e ▸ ha)
    simpa using this
  have hdrop : (Namespace.slash :: name).dropWhile (· == Namespace.slash) = name := by
    rw [List.dropWhile_cons, if_pos (by simp)]
    cases name with
    | nil => rfl
    | cons a as =>
      rw [List.dropWhile_cons, if_neg]
      simpa using hpass a List.mem_cons_self
  have hskip : Namespace.skipelem (Namespace.slash :: name) = some (name.take dirSiz, []) := by
    unfold Namespace.skipelem
    rw [hdrop]
    cases name with
    | nil => exact absurd rfl hne
    | cons a as =>
      show some ((((a :: as).takeWhile _).take dirSiz, ((a :: as).dropWhile _).dropWhile _)) = _
      rw [List.takeWhile_eq_self_iff.mpr hpass, List.dropWhile_eq_nil_iff.mpr hpass]
      rfl
  rw [Namespace.elems_eq, hskip]
  rfl

theorem Holds.present {m : Disk} {d : Dinode} {c : List UInt8} (h : Holds m d c) : Present d m 0 c.length := by
  intro bn _ hbn
  refine (h.shape.full bn).mpr ?_
  unfold upto
  unfold bsize at *
  omega

/-! ## The lookup -/

/-- The entries before slot `K` have other names, and that one has this name. -/
theorem looks_search {P : Type} {sb : Superblock} {dev : Devsw} {p : P} {s : Store P} {ip : Nat} {d : Dinode}
    {name : List UInt8} {K : Nat} (hd : d.type = some .dir) (hle : d.size ≤ maxFile * bsize)
    (hpos : ∀ j ≤ K, direntSize * j + direntSize ≤ d.size ∧ Present d s.data (direntSize * j) direntSize)
    (hmiss : ∀ j < K, ¬ Hits name (entAt d s.data j)) (hhit : Hits name (entAt d s.data K)) (n j : Nat) (hj : j ≤ K)
    (hn : K < j + n) :
    Looks sb p (Fs.lookupFrom sb dev ip name ((List.range' j n).map (direntSize * ·)) d) s
      (some ((entAt d s.data K).inum, direntSize * K), d) (got s (entAt d s.data K).inum) := by
  induction n generalizing j with
  | zero => omega
  | succ n ih =>
    rw [List.range'_succ, List.map_cons]
    obtain ⟨hk, hp⟩ := hpos j hj
    by_cases e : j = K
    · subst e
      exact looks_hit hd hle hk hp hhit
    · exact looks_miss hd hle hk hp (hmiss j (by omega)) (ih (j + 1) (by omega) (by omega))

section Root

variable {P : Type} {sb : Superblock} {dev : Devsw} {p : P} {m : Disk} {files : List Input}

theorem Finished.entAt (h : Finished m files) (hcount : files.length ≤ ninodes - 2) {k : Nat} {name : List UInt8}
    (hk : nameAt files k = some name) : Directory.entAt (nodeOf m rootIno) m k = ⟨max k 1, key name⟩ := by
  have he : (rootEntries files)[k]? = some (Mkfs.entry (max k 1) name) := by rw [rootEntries_getElem?, hk]; rfl
  have hlt := (List.getElem?_eq_some_iff.mp he).1
  rw [rootEntries_length] at hlt
  have hsmall : max k 1 < 65536 := by unfold ninodes at hcount; omega
  unfold Directory.entAt
  rw [h.entry he]
  unfold Mkfs.entry
  rw [deInum_bytes, Nat.mod_eq_of_lt hsmall]
  show Namespace.Dirent.mk _ (key (strncpy name dirSiz)) = _
  rw [key_strncpy]

theorem nameAt_lt {k : Nat} (h : k < files.length + 2) : ∃ name, nameAt files k = some name := by
  match k with
  | 0 => exact ⟨_, rfl⟩
  | 1 => exact ⟨_, rfl⟩
  | k + 2 => exact ⟨_, by rw [nameAt, List.getElem?_eq_getElem (by omega)]; rfl⟩

/-- The root is large enough for its entries, and their blocks are there. -/
theorem Finished.slots (h : Finished m files) {k : Nat} (hk : k < files.length + 2) :
    direntSize * k + direntSize ≤ (nodeOf m rootIno).size ∧ Present (nodeOf m rootIno) m (direntSize * k) direntSize := by
  obtain ⟨a, ha⟩ := h.root
  have hh : Holds m (nodeOf m rootIno) (rootBytes files) := h.holds 0 _ rfl
  have hlen : direntSize * k + direntSize ≤ (rootBytes files).length := by
    rw [rootBytes_length, ← Nat.mul_succ]
    exact Nat.mul_le_mul_left _ hk
  refine ⟨hlen.trans ?_, fun bn _ hbn => (hh.shape.full bn).mpr ?_⟩
  · rw [ha]
    show _ ≤ ((rootBytes files).length / bsize + 1) * bsize
    unfold bsize
    omega
  · unfold upto
    unfold bsize at *
    omega

/-- The files' entries have names of their own. -/
theorem names_apart {f : Input} {k j : Nat} {name : List UInt8} (hn : Named files) (hf : files[k]? = some f)
    (hj : nameAt files j = some name) (hjk : j < k + 2) : key name ≠ key f.name := by
  have hmem : f ∈ files := List.mem_of_getElem? hf
  have hdots := hn.notDots f hmem
  have hlong : ∀ d : List UInt8, d.length < dirSiz → f.name.take dirSiz = d → f.name = d := by
    intro d hd e
    have hl : (f.name.take dirSiz).length < dirSiz := by rw [e]; exact hd
    rw [List.length_take] at hl
    rw [← e, List.take_of_length_le (by omega)]
  match j with
  | 0 =>
    cases hj
    rw [key_name]
    exact fun e => hdots.1 (hlong _ (by decide) (e.symm.trans (by decide)))
  | 1 =>
    cases hj
    rw [key_name]
    exact fun e => hdots.2 (hlong _ (by decide) (e.symm.trans (by decide)))
  | j + 2 =>
    obtain ⟨g, hg, rfl⟩ := Option.map_eq_some_iff.mp hj
    rw [key_name, key_name]
    intro e
    have hjl := (List.getElem?_eq_some_iff.mp hg).1
    have := (List.nodup_iff_getElem?_ne_getElem?.mp hn.distinct) j k (by omega)
      (by rw [List.length_map]; exact (List.getElem?_eq_some_iff.mp hf).1)
    rw [List.getElem?_map, List.getElem?_map, hg, hf] at this
    exact this (congrArg some e)

/-- The kernel finds a file's inode number under its name. -/
theorem Finished.looks (h : Finished m files) (ha : Accepted files) (hn : Named files) {f : Input} {k : Nat}
    (hf : files[k]? = some f) {s : Store P} (hdata : s.data = m) :
    Looks sb p (Fs.dirlookup sb dev rootIno (nodeOf m rootIno) (f.name.take dirSiz)) s
      (some (k + 2, direntSize * (k + 2)), nodeOf m rootIno) (got s (k + 2)) := by
  have hk : k < files.length := (List.getElem?_eq_some_iff.mp hf).1
  have hat : nameAt files (k + 2) = some f.name := by simp [nameAt, hf]
  have hkey : key (f.name.take dirSiz) = key f.name := by
    rw [key_name, key_of_noNul fun hm => f.hnul (name_subset f (List.mem_of_mem_take hm)), List.take_take, Nat.min_self]
  obtain ⟨a, hroot⟩ := h.root
  have htype : (nodeOf m rootIno).type = some .dir := by rw [hroot]
  have hK : Directory.entAt (nodeOf m rootIno) m (k + 2) = ⟨k + 2, key f.name⟩ := by
    rw [h.entAt ha.count hat, Nat.max_eq_left (by omega)]
  have hsize : (nodeOf m rootIno).size = (files.length + 2 - (files.length + 2) % 32 + 32) * direntSize := by
    rw [hroot]
    show ((rootBytes files).length / bsize + 1) * bsize = _
    rw [rootBytes_length]
    unfold direntSize bsize
    omega
  have hle : (nodeOf m rootIno).size ≤ maxFile * bsize := by
    have hcount := ha.count
    rw [hsize]
    unfold ninodes at hcount
    calc (files.length + 2 - (files.length + 2) % 32 + 32) * direntSize ≤ 232 * direntSize := Nat.mul_le_mul_right _ (by omega)
      _ ≤ maxFile * bsize := by decide
  -- the entries before the file's have other names
  have hmiss : ∀ j < k + 2, ¬ Hits (f.name.take dirSiz) (Directory.entAt (nodeOf m rootIno) s.data j) := by
    intro j hj
    obtain ⟨name, hname⟩ := nameAt_lt (show j < files.length + 2 by omega)
    rw [hdata, h.entAt ha.count hname]
    exact fun hh => names_apart hn hf hname hj (hh.2.trans hkey)
  have hhit : Hits (f.name.take dirSiz) (Directory.entAt (nodeOf m rootIno) s.data (k + 2)) := by
    rw [hdata, hK]
    exact ⟨by simp, hkey.symm⟩
  have hsearch : Looks sb p (Fs.lookupFrom sb dev rootIno (f.name.take dirSiz)
      ((List.range' 0 (((nodeOf m rootIno).size + direntSize - 1) / direntSize)).map (direntSize * ·)) (nodeOf m rootIno)) s _ _ :=
    looks_search htype hle (fun j hj => by rw [hdata]; exact h.slots (by omega)) hmiss hhit _ 0 (by omega)
      (by rw [hsize]; unfold direntSize; omega)
  rw [hdata, hK] at hsearch
  unfold Fs.dirlookup offsets
  rw [if_neg (fun e => e htype), List.range_eq_range']
  exact hsearch

end Root

/-! ## The kernel's run -/

section Run

variable {P : Type} {sb : Superblock} {dev : Devsw} {p : P} {S : Incore.St P} {Q : β → Incore.St P → Prop}
  {B : Incore.Panic → Prop} {W : Prop}

/-- On a file that is only in the root, after boot: `namei` of its path. -/
theorem ends_namei {m : Disk} {mem : Nat → Dinode} {n cwd i off : Nat} {name : List UInt8}
    {k : Option (Nat × Namespace.Name) → Incore.M β} (hne : name ≠ []) (hslash : Namespace.slash ∉ name)
    (hroot : ∃ a z, (mounted P m).inode rootIno = ⟨some .dir, 0, 0, 1, z, a⟩) (hi : i ≠ rootIno)
    (hlook : ∀ s : Store P, s.data = m → Looks sb p
      (Fs.dirlookup sb dev rootIno ((mounted P m).inode rootIno) (name.take dirSiz)) s
      (some (i, off), (mounted P m).inode rootIno) (got s i))
    (hk : ∀ S : Incore.St P, S.store.data = m → S.store.inode = (mounted P m).inode → S.store.lock i = none →
      S.store.valid i = false → Ends (Incore.exec sb) p (k (some (i, []))) S Q B W) :
    Ends (Incore.exec sb) p (Incore.namei sb dev cwd (Namespace.slash :: name) >>= k) ⟨mounted P m, mem, n⟩ Q B W := by
  obtain ⟨a, z, hnode⟩ := hroot
  have htype : ((mounted P m).inode rootIno).type = some .dir := by rw [hnode]
  have hnamei : Incore.namei sb dev cwd (Namespace.slash :: name) =
      (Incore.iget rootIno >>= fun _ => Incore.walk sb dev false [name.take dirSiz] rootIno) := by
    unfold Incore.namei Incore.namex
    rw [elems_name hslash hne]
    rfl
  rw [hnamei, Prog.bind_assoc]
  refine ends_iget ?_
  unfold Incore.walk
  rw [Prog.bind_assoc]
  refine ends_ilock_fresh rfl (by simp [got, mounted]) (by show ((mounted P m).inode rootIno).type ≠ none; simp [htype]) ?_
  rw [Prog.bind_assoc]
  refine ends_get ?_
  have hmem : (filled p rootIno ⟨got (mounted P m) rootIno, mem, n⟩).mem rootIno = (mounted P m).inode rootIno :=
    filled_mem _ _ _
  rw [hmem, if_neg (fun e => e htype), if_neg (by simp), Prog.bind_assoc]
  refine ends_withInode (i := rootIno) (by rw [hmem]; exact hlook _ rfl) ?_
  dsimp only
  unfold Incore.iunlockput
  rw [Prog.bind_assoc, Prog.bind_assoc]
  refine ends_iunlock (ends_iput_kept (by simp [withLock]) (fun _ h0 => ?_) ?_)
  · simp [withLock, filled, hnode] at h0
  · unfold Incore.walk
    rw [if_neg (by simp)]
    refine hk _ rfl rfl ?_ ?_
    · simp [withRef, withLock, filled, got, mounted, hi]
    · simp [withRef, withLock, filled, got, mounted, hi]

/-- On the image `mkfs` writes, the kernel finds every file under its name, as a file with one
    link, and reads its bytes. -/
theorem kernel_reads_image (P : Type) (sb : Superblock) (dev : Devsw) (p : P) (cwd : Nat) (mem : Nat → Dinode) (n : Nat)
    (files : List Input) (ha : Accepted files) (hn : Named files) :
    ∃ m, mkfs files = .ok m ∧ ∀ f ∈ files, ∃ d S,
      run (Incore.exec sb) p (readWhole sb dev cwd (Namespace.slash :: f.name)) ⟨mounted P m, mem, n⟩ =
        .ok (some (d, some f.contents), S) ∧
      d.type = some .file ∧ d.nlink = 1 ∧ d.size = f.contents.length := by
  obtain ⟨m, hm, h⟩ := mkfs_image ha
  refine ⟨m, hm, fun f hf => ?_⟩
  obtain ⟨k, hk⟩ := List.mem_iff_getElem?.mp hf
  have hlt : k < files.length := (List.getElem?_eq_some_iff.mp hk).1
  have hcount := ha.count
  have hsize := ha.size f hf
  have hslash : Namespace.slash ∉ f.name := fun hs => ha.noSlash f hf (name_subset f hs)
  have hroot : (mounted P m).inode rootIno = nodeOf m rootIno := h.inode (by decide)
  have hfile : (mounted P m).inode (k + 2) = nodeOf m (k + 2) := h.inode (by unfold ninodes at *; omega)
  obtain ⟨a, hnode⟩ := h.file k f.contents (by rw [List.getElem?_map, hk]; rfl)
  have hholds : Holds m (nodeOf m (k + 2)) f.contents := h.holds (k + 1) _ (by simp [hk])
  have hread : ∀ s : Store P, s.data = m → Reads sb p (Fs.readi sb dev (k + 2) (nodeOf m (k + 2)) 0 (nodeOf m (k + 2)).size) s
      (some f.contents, nodeOf m (k + 2)) := by
    intro s hs
    have hsz : (nodeOf m (k + 2)).size = f.contents.length := by rw [hnode]
    have hbytes : bytes (nodeOf m (k + 2)) s.data 0 (nodeOf m (k + 2)).size = f.contents := by rw [hs, hsz]; exact hholds.bytes
    rw [← hbytes]
    refine reads_readi (by rw [hnode]; simp) (by omega) (by rw [hsz]; exact lt_of_le_of_lt hsize (by decide)) ?_
    rw [hs, hsz]
    exact hholds.present
  have hends : Ends (Incore.exec sb) p (readWhole sb dev cwd (Namespace.slash :: f.name)) ⟨mounted P m, mem, n⟩
      (fun r _ => r = some (nodeOf m (k + 2), some f.contents)) (fun _ => False) False := by
    have hi : k + 2 ≠ rootIno := by unfold rootIno; omega
    have hlook : ∀ s : Store P, s.data = m → Looks sb p (Fs.dirlookup sb dev rootIno ((mounted P m).inode rootIno)
        (f.name.take dirSiz)) s (some (k + 2, direntSize * (k + 2)), (mounted P m).inode rootIno) (got s (k + 2)) := by
      intro s hs
      rw [hroot]
      exact h.looks ha hn hk hs
    refine ends_namei (hn.nonempty f hf) hslash ?_ hi hlook fun S hd hino hl hv => ?_
    · obtain ⟨b, hb⟩ := h.root
      exact ⟨b, _, hroot.trans hb⟩
    · have hS : S.store.inode (k + 2) = nodeOf m (k + 2) := by rw [hino, hfile]
      have htype : (S.store.inode (k + 2)).type ≠ none := by rw [hS, hnode]; simp
      refine ends_ilock_fresh hl hv htype (ends_get ?_)
      rw [filled_mem, hS]
      refine ends_withInode (i := k + 2) (by rw [filled_mem, hS]; exact looks_of_reads (hread _ hd)) ?_
      rfl
  unfold Ends at hends
  split at hends
  · rename_i x S hrun
    subst hends
    exact ⟨_, S, hrun, by rw [hnode], by rw [hnode], by rw [hnode]⟩
  · exact hends.elim
  · exact hends.elim

/-- `_cat`, read in two chunks, and an empty `a`. -/
def twoFiles : List Input :=
  [⟨[95, 99, 97, 116], by decide, [⟨[1, 2], by decide, by decide⟩, ⟨[3], by decide, by decide⟩]⟩, ⟨[97], by decide, []⟩]

theorem kernel_reads_two_files : ∃ m, mkfs twoFiles = .ok m ∧ ∀ f ∈ twoFiles, ∃ d S,
    run (Incore.exec ⟨fsSize, nblocks, ninodes, by decide, by decide⟩) () (readWhole ⟨fsSize, nblocks, ninodes, by decide, by decide⟩
      ⟨fun _ => none, fun _ => none⟩ 1 (Namespace.slash :: f.name)) ⟨mounted Unit m, fun _ => Dinode.blank none, 0⟩ =
        .ok (some (d, some f.contents), S) ∧
      d.type = some .file ∧ d.nlink = 1 ∧ d.size = f.contents.length :=
  kernel_reads_image Unit _ _ () 1 _ 0 twoFiles ⟨by decide, by decide, by decide, by decide⟩ ⟨by decide, by decide, by decide⟩

end Run

end Xv6.Mkfs
