/-
  Xv6.Fs.Open — `sys_open` on the file system and the file table (`sysfile.c`: `sys_open`,
  `create`; `file.c`: `filealloc`, `fileclose`).

  The state is that of `Fs.Incore` and that of `Ftable.Calls`, and a call is a program of
  both's actions. The path and the mode have been fetched from the user's memory.

  - A failed `open` leaves the inodes, the blocks' contents and the bitmap as they were,
    unless it was to create the file and the file was not there (`failed_open_iff`).
  - Then `create` has made the file by the time `filealloc` or `fdalloc` fails, and it stays
    (`full_table_leaves_file`).
-/

import Xv6.Fs.Iput
import Xv6.Fs.Path
import Xv6.Ftable.Calls

namespace Xv6.Fs.Open

open Xv6.Lib Prog Namespace Contents Directory Fs.Path Function

/-! ## The call -/

structure St (P G : Type) where
  fs : Incore.St P
  table : Ftable.St P G

inductive Panic where
  | fs (m : Incore.Panic)
  | table (m : Ftable.Panic)

inductive Act (P G : Type) where
  | fs (a : Incore.Act)
  | table (a : Ftable.Act P G)

def Act.Res {P G : Type} : Act P G → Type
  | .fs a => a.Res
  | .table a => a.Res

variable {P G : Type}

def exec [DecidableEq P] [DecidableEq G] (sb : Superblock) (p : P) : (a : Act P G) → St P G → Out Panic (a.Res × St P G)
  | .fs a, s => match Incore.exec sb p a s.fs with
    | .ok (r, S) => .ok (r, { s with fs := S })
    | .wait => .wait
    | .fail m => .fail (.fs m)
  | .table a, s => match Ftable.exec p a s.table with
    | .ok (r, T) => .ok (r, { s with table := T })
    | .wait => .wait
    | .fail m => .fail (.table m)

abbrev M (P G : Type) := Prog (Act P G) Act.Res

def onFs : Incore.M α → M P G α
  | .ret x => ret x
  | .act a k => act (.fs a) fun r => onFs (k r)

def onTable : Ftable.M P G α → M P G α
  | .ret x => ret x
  | .act a k => act (.table a) fun r => onTable (k r)

def oWronly : BitVec 32 := 0x001
def oRdwr : BitVec 32 := 0x002
def oCreate : BitVec 32 := 0x200

/-- The inode's reference goes in a transaction. -/
def closeInode (ip : Nat) : Incore.M Unit := do
  Incore.beginOp
  Incore.iput ip
  Incore.endOp

def fileclose (f : Fin nfile) : M P G Unit := do
  match ← onTable (Ftable.lastRef f) with
  | none => return ()
  | some ff =>
    match ff.type with
    | .pipe g => onTable (Ftable.pipeclose g ff.writable)
    | .inode ip => onFs (closeInode ip)
    | .none => return ()

/-- The exits that fail with the inode locked. -/
def openBad (ip : Nat) : M P G Int := do
  onFs do
    Incore.iunlockput ip
    Incore.endOp
  return -1

/-- Both tables had room. -/
def openDone (omode : BitVec 32) (ip : Nat) (f : Fin nfile) (fd : Fin nofile) : M P G Int := do
  onFs (Incore.iunlock ip)
  onFs Incore.endOp
  onTable (Ftable.setfile f (.inode ip) (omode &&& oWronly == 0) (omode &&& oWronly != 0 || omode &&& oRdwr != 0))
  return fd.val

/-- `sys_open` with the inode locked. -/
def openInode (omode : BitVec 32) (ip : Nat) : M P G Int := do
  match ← onTable Ftable.filealloc with
  | none => openBad ip
  | some f =>
    match ← onTable (Ftable.fdalloc f) with
    | none =>
      fileclose f
      openBad ip
    | some fd => openDone omode ip f fd

variable (sb : Superblock) (dev : Devsw)

def sysOpen (cwd : Nat) (path : List UInt8) (omode : BitVec 32) : M P G Int := do
  onFs Incore.beginOp
  if omode &&& oCreate ≠ 0 then do
    match ← onFs (Incore.create sb dev cwd path .file 0 0) with
    | none =>
      onFs Incore.endOp
      return -1
    | some ip => openInode omode ip
  else do
    match ← onFs (Incore.namei sb dev cwd path) with
    | none =>
      onFs Incore.endOp
      return -1
    | some (ip, _) =>
      let d ← onFs do
        Incore.ilock ip
        Incore.get ip
      if d.type = some .dir ∧ omode ≠ 0 then openBad ip else openInode omode ip

/-! ## What is asked -/

/-- The path leads to a directory that lacks its last element. -/
def New (S : Incore.St P) (cwd : Nat) (path : List UInt8) : Prop :=
  ∃ dp n, walk S true (comps path) (start cwd path) = some (dp, n) ∧ lookup n (dirents S dp) = none

/-- The file system is consistent, and nobody has a free inode; a file that nobody has is of no type. -/
structure Consistent (s : St P G) (cwd : Nat) : Prop extends Path.Consistent s.fs cwd where
  unused : ∀ i, (s.fs.store.inode i).type = none → s.fs.store.ref i = 0
  closed : ∀ f, (s.table.file f).ref = 0 → (s.table.file f).type = .none

/-! ## An inode that was made stays -/

/-- An inode that `iput` does not free, on disk and in core. -/
structure Made (S : Incore.St P) (ip : Nat) : Prop where
  type : (S.store.inode ip).type ≠ none
  nlink : (S.store.inode ip).nlink ≠ 0
  memType : (S.mem ip).type ≠ none
  memNlink : (S.mem ip).nlink ≠ 0

/-- Not an `iupdate` of `ip`. -/
def sparesDisk (ip : Nat) : Fs.Act → Prop
  | .iupdate i _ => i ≠ ip
  | _ => True

/-- Not a change of `ip`'s fields. -/
def spares (ip : Nat) : Incore.Act → Prop
  | .disk a => sparesDisk ip a
  | .set i _ => i ≠ ip
  | _ => True

section Spares

variable {sb dev} {ip dp : Nat}

theorem all_ballocFrom (js : List Nat) : (ballocFrom dp js).All (sparesDisk ip) := by
  induction js with
  | nil => exact ⟨trivial, fun e => nomatch e⟩
  | cons j js ih =>
    refine ⟨trivial, fun r => ?_⟩
    cases r with
    | none => exact ih
    | some b => exact ⟨trivial, fun _ => trivial⟩

theorem all_ensureAddr (d : Dinode) (j : Fin (ndirect + 1)) : (ensureAddr sb dp d j).All (sparesDisk ip) := by
  unfold ensureAddr
  split
  · exact All.bind (all_ballocFrom _) fun _ => trivial
  · trivial

theorem all_bmap (d : Dinode) (bn : Nat) : (bmap sb dp d bn).All (sparesDisk ip) := by
  unfold bmap
  split
  · exact all_ensureAddr d _
  · split
    · refine All.bind (all_ensureAddr d _) fun r => ⟨trivial, fun (a : Block) => ?_⟩
      show All _ (if word a (bn - ndirect) = 0 then _ else _)
      split
      · exact All.bind (all_ballocFrom _) fun _ => ⟨trivial, fun _ => trivial⟩
      · trivial
    · exact ⟨trivial, fun e => nomatch e⟩

theorem all_readLoop (fuel : Nat) (d : Dinode) (off n : Nat) : (readLoop sb dp fuel d off n).All (sparesDisk ip) := by
  induction fuel generalizing d off n with
  | zero => trivial
  | succ fuel ih =>
    unfold readLoop
    split
    · trivial
    · refine All.bind (all_bmap d _) fun r => All.step trivial fun v => ?_
      exact All.bind (ih ..) fun _ => trivial

theorem all_readi (d : Dinode) (off n : Nat) : (Fs.readi sb dev dp d off n).All (sparesDisk ip) := by
  unfold Fs.readi
  split
  · split <;> trivial
  · split
    · trivial
    · exact All.bind (all_readLoop ..) fun _ => trivial

theorem all_writeLoop (fuel : Nat) (d : Dinode) (src : List UInt8) (off : Nat) :
    (writeLoop sb dp fuel d src off).All (sparesDisk ip) := by
  induction fuel generalizing d src off with
  | zero => trivial
  | succ fuel ih =>
    unfold writeLoop
    split
    · trivial
    · exact All.bind (all_bmap d _) fun r => All.step trivial fun v => All.step trivial fun _ => ih ..

theorem all_writei (hne : dp ≠ ip) (d : Dinode) (src : List UInt8) (off : Nat) :
    (Fs.writei sb dev dp d src off).All (sparesDisk ip) := by
  simp only [Fs.writei]
  split
  · split <;> trivial
  · split
    · trivial
    · split
      · trivial
      · refine All.bind (all_writeLoop ..) fun d => ?_
        split
        · exact ⟨hne, fun _ => trivial⟩
        · trivial

theorem all_lookupFrom (name : List UInt8) (offs : List Nat) (d : Dinode) :
    (Fs.lookupFrom sb dev dp name offs d).All (sparesDisk ip) := by
  induction offs generalizing d with
  | nil => trivial
  | cons off offs ih =>
    refine All.bind (all_readi d off direntSize) fun r => ?_
    split
    · split
      · exact ⟨trivial, fun e => nomatch e⟩
      · split
        · exact ⟨trivial, fun _ => trivial⟩
        · exact ih r.2
    · exact ⟨trivial, fun e => nomatch e⟩

theorem all_dirlookup (d : Dinode) (name : List UInt8) : (Fs.dirlookup sb dev dp d name).All (sparesDisk ip) := by
  unfold Fs.dirlookup
  split
  · exact ⟨trivial, fun e => nomatch e⟩
  · exact all_lookupFrom name _ d

theorem all_emptyFrom (eof : Nat) (offs : List Nat) (d : Dinode) : (Fs.emptyFrom sb dev dp eof offs d).All (sparesDisk ip) := by
  induction offs generalizing d with
  | nil => trivial
  | cons off offs ih =>
    refine All.bind (all_readi d off direntSize) fun r => ?_
    split
    · split
      · exact ⟨trivial, fun e => nomatch e⟩
      · split
        · trivial
        · exact ih r.2
    · exact ⟨trivial, fun e => nomatch e⟩

theorem all_disk {c : Fs.M α} (h : c.All (sparesDisk ip)) : (Incore.disk c).All (spares ip) := by
  induction c with
  | ret x => trivial
  | act a k ih => exact ⟨h.1, fun r => ih r (h.2 r)⟩

theorem all_withInode (hne : dp ≠ ip) {f : Dinode → Fs.M (α × Dinode)} (h : ∀ d, (f d).All (sparesDisk ip)) :
    (Incore.withInode dp f).All (spares ip) :=
  All.step trivial fun d => All.bind (all_disk (h d)) fun _ => All.step hne fun _ => trivial

theorem all_iputFree (hne : dp ≠ ip) : (Incore.iputFree dp).All (spares ip) := by
  have htrunc : ∀ d, (Fs.itrunc dp d).All (sparesDisk ip) :=
    Iput.all_itrunc (fun _ => trivial) (fun _ => trivial) fun _ => hne
  refine All.bind (all_withInode hne fun d => All.bind (htrunc d) fun _ => trivial) fun _ => ?_
  refine All.step trivial fun d => All.step hne fun _ => All.bind ?_ fun _ => ⟨trivial, fun _ => trivial⟩
  exact All.step trivial fun d => ⟨hne, fun _ => trivial⟩

theorem all_iputLocked (hne : dp ≠ ip) : (Incore.iputLocked dp).All (spares ip) := by
  refine All.step trivial fun (o : Option Dinode) => ?_
  cases o with
  | none => trivial
  | some d =>
    show All _ (if d.nlink = 0 then _ else _)
    split
    · refine All.bind (all_disk ⟨trivial, fun _ => trivial⟩) fun r => ?_
      split
      · exact all_iputFree hne
      · trivial
    · trivial

theorem all_iunlockput (hne : dp ≠ ip) : (Incore.iunlockput dp).All (spares ip) := by
  have hact : ∀ {a : Fs.Act}, sparesDisk ip a → (Incore.disk (perform a)).All (spares ip) := fun ha =>
    all_disk ⟨ha, fun _ => trivial⟩
  refine All.bind (hact trivial) fun _ => All.bind (hact trivial) fun _ => ?_
  exact All.bind (all_iputLocked hne) fun _ => All.bind (hact trivial) fun _ => hact trivial

variable {p : P}

theorem exec_type {a : Fs.Act} (ha : sparesDisk ip a) {s s' : Store P} {r : a.Res} (ht : (s.inode ip).type ≠ none)
    (h : Fs.exec sb p a s = .ok (r, s')) : s'.inode ip = s.inode ip := by
  cases a with
  | iupdate i d =>
    cases h
    exact update_of_ne (Ne.symm ha) ..
  | claim i t =>
    simp only [Fs.exec] at h
    split at h
    · rename_i hn
      cases h
      exact update_of_ne (fun e => ht (by rw [e]; exact hn)) ..
    · cases h
      rfl
  | mark ip j => simp only [Fs.exec] at h; split at h <;> cases h <;> rfl
  | bfree ip b => simp only [Fs.exec] at h; split at h <;> cases h; rfl
  | acquiresleep i => simp only [Fs.exec] at h; split at h <;> cases h; rfl
  | load i => simp only [Fs.exec] at h; split at h <;> cases h; rfl
  | panic m => cases h
  | _ => cases h; rfl

theorem Made.congr {S S' : Incore.St P} (hm : Made S ip) (hi : S'.store.inode ip = S.store.inode ip)
    (hmem : S'.mem ip = S.mem ip ∨ S'.mem ip = S.store.inode ip) : Made S' ip := by
  refine ⟨hi ▸ hm.type, hi ▸ hm.nlink, ?_, ?_⟩
  · rcases hmem with e | e
    · exact e ▸ hm.memType
    · exact e ▸ hm.type
  · rcases hmem with e | e
    · exact e ▸ hm.memNlink
    · exact e ▸ hm.nlink

theorem Made.of_eq {S : Incore.St P} {d : Dinode} (hi : S.store.inode ip = d) (hm : S.mem ip = d) (ht : d.type ≠ none)
    (hn : d.nlink ≠ 0) : Made S ip := by
  refine ⟨?_, ?_, ?_, ?_⟩
  · rwa [hi]
  · rwa [hi]
  · rwa [hm]
  · rwa [hm]

theorem Made.exec {a : Incore.Act} (ha : spares ip a) {S S' : Incore.St P} {r : a.Res} (hm : Made S ip)
    (h : Incore.exec sb p a S = .ok (r, S')) : Made S' ip := by
  cases a with
  | disk a =>
    simp only [Incore.exec] at h
    cases hx : Fs.exec sb p a S.store with
    | ok y =>
      rw [hx] at h
      simp only at h
      split at h
      · cases h
      · cases h
        exact hm.congr (exec_type ha hm.type hx) (Or.inl rfl)
    | wait =>
      rw [hx] at h
      cases h
    | fail e =>
      rw [hx] at h
      cases h
  | fill i =>
    simp only [Incore.exec] at h
    split at h
    · cases h
      exact hm
    · split at h
      · cases h
      · cases h
        refine hm.congr rfl ?_
        by_cases e : ip = i
        · subst e
          exact Or.inr (update_self ..)
        · exact Or.inl (update_of_ne e ..)
  | set i d =>
    cases h
    exact hm.congr rfl (Or.inl (update_of_ne (Ne.symm ha) ..))
  | panic m => cases h
  | _ =>
    cases h
    exact hm.congr rfl (Or.inl rfl)

variable {S : Incore.St P} {k : α → Incore.M β} {Q : β → Incore.St P → Prop}

theorem Made.bind (hm : Made S ip) {c : Incore.M α} (hc : c.All (spares ip))
    (hk : ∀ x S', Made S' ip → Ends (Incore.exec sb) p (k x) S' Q (fun _ => True) True) :
    Ends (Incore.exec sb) p (c >>= k) S Q (fun _ => True) True :=
  Ends.bind ((hc.keeps (J := fun S => Made S ip) (fun _ _ _ _ ha hm h => hm.exec ha h) hm).mono
    (fun x S' _ h => hk x S' h) (fun _ => id) id)

/-- The inode has a link: `iput` does not free it. -/
theorem Made.iunlockput (hm : Made S ip) {k : Unit → Incore.M β}
    (hk : ∀ S', Made S' ip → Ends (Incore.exec sb) p (k ()) S' Q (fun _ => True) True) :
    Ends (Incore.exec sb) p (Incore.iunlockput ip >>= k) S Q (fun _ => True) True := by
  have hact : ∀ {a : Fs.Act}, sparesDisk ip a → (Incore.disk (perform a)).All (spares ip) := fun ha =>
    all_disk ⟨ha, fun _ => trivial⟩
  unfold Incore.iunlockput Incore.iput
  rw [Prog.bind_assoc]
  refine hm.bind (hact trivial) fun _ S1 h1 => ?_
  rw [Prog.bind_assoc]
  refine h1.bind (hact trivial) fun _ S2 h2 => ?_
  rw [Prog.bind_assoc]
  refine ends_iputLocked_kept (fun _ e => absurd e h2.memNlink) ?_
  rw [Prog.bind_assoc]
  exact h2.bind (hact trivial) fun _ S3 h3 => h3.bind (hact trivial) fun _ S4 h4 => hk S4 h4

/-! ## `create` -/

theorem run_disk_inv {c : Fs.M α} {S S' : Incore.St P} {x : α} (h : run (Incore.exec sb) p (Incore.disk c) S = .ok (x, S')) :
    ∃ st, run (Fs.exec sb) p c S.store = .ok (x, st) ∧ S' = { S with store := st } := by
  induction c generalizing S with
  | ret y =>
    cases h
    exact ⟨_, rfl, rfl⟩
  | act a f ih =>
    obtain ⟨r, S1, hx, hrest⟩ := run_act_inv _ h
    simp only [Incore.exec] at hx
    cases ha : Fs.exec sb p a S.store with
    | ok y =>
      rw [ha] at hx
      simp only at hx
      split at hx
      · cases hx
      · cases hx
        rw [run_act _ _ _ _ ha]
        exact ih y.1 hrest
    | wait =>
      rw [ha] at hx
      cases hx
    | fail e =>
      rw [ha] at hx
      cases hx

/-- The inode was free, and is not in the cache if nobody had it. -/
theorem run_iallocFrom {t : FileType} {is : List Nat} {s s' : Store P} {i : Nat}
    (h : run (Fs.exec sb) p (iallocFrom t is) s = .ok (i, s')) :
    (s.inode i).type = none ∧ (s'.inode i).type = some t ∧ (s.ref i = 0 → s'.valid i = false) := by
  induction is generalizing s with
  | nil => cases h
  | cons j js ih =>
    obtain ⟨r, s1, hx, hrest⟩ := run_act_inv _ (show run (Fs.exec sb) p (act (.claim j t) fun (r : Bool) =>
      if r = true then act (.iget j) fun _ => ret j else iallocFrom t js) s = .ok (i, s') from h)
    simp only [Fs.exec] at hx
    split at hx
    · rename_i hfree
      cases hx
      cases hrest
      refine ⟨hfree, ?_, fun h0 => ?_⟩
      · show (update s.inode i _ i).type = some t
        rw [update_self]
        rfl
      · show (if s.ref i = 0 then update s.valid i false else s.valid) i = false
        rw [if_pos h0, update_self]
    · cases hx
      exact ih hrest

theorem ends_ilock_new {k : Unit → Incore.M β} (hv : S.store.valid ip = false) (ht : (S.store.inode ip).type ≠ none)
    (hk : ∀ S', (S'.mem ip).type ≠ none → Ends (Incore.exec sb) p (k ()) S' Q (fun _ => True) True) :
    Ends (Incore.exec sb) p (Incore.ilock ip >>= k) S Q (fun _ => True) True := by
  cases hl : S.store.lock ip with
  | none =>
    refine ends_ilock_fresh hl hv ht (hk _ ?_)
    rw [filled_mem]
    exact ht
  | some q => exact Ends.wait (a := Incore.Act.disk (.acquiresleep ip)) (by simp only [Incore.exec, Fs.exec, hl]) trivial

/-- The new inode gets its first link, in core and on disk. -/
theorem ends_firstLink {d : Dinode} {k : Unit → Incore.M β} (ht : d.type ≠ none) (hn : d.nlink ≠ 0)
    (hk : ∀ S', Made S' ip → Ends (Incore.exec sb) p (k ()) S' Q (fun _ => True) True) :
    Ends (Incore.exec sb) p (Incore.set ip d >>= fun _ => Incore.iupdate ip >>= k) S Q (fun _ => True) True := by
  have hmem : update S.mem ip d ip = d := update_self ..
  have hset : Incore.exec sb p (.set ip d) S = .ok ((), { S with mem := update S.mem ip d }) := rfl
  refine Ends.act hset ?_
  show Ends _ _ (Incore.iupdate ip >>= k) _ _ _ _
  refine Ends.bind (Ends.of_ok fun _ S' hrun => hk S' ?_)
  obtain ⟨_, S1, hget, hrun⟩ := run_act_inv _ hrun
  cases hget
  obtain ⟨st, hup, rfl⟩ := run_disk_inv hrun
  cases hup
  have hinode : update S.store.inode ip (update S.mem ip d ip) ip = d := by
    rw [update_self, hmem]
  exact Made.of_eq hinode hmem ht hn

/-- `dirlink` of another inode's name, unless the name is there. -/
theorem Made.dirlink (hne : dp ≠ ip) (hm : Made S ip) {name : List UInt8} {k : Int → Incore.M β}
    (hold : ∀ S', Ends (Incore.exec sb) p (k (-1)) S' Q (fun _ => True) True)
    (hk : ∀ S', Made S' ip → Ends (Incore.exec sb) p (k 0) S' Q (fun _ => True) True) :
    Ends (Incore.exec sb) p (Incore.dirlink sb dev dp name ip >>= k) S Q (fun _ => True) True := by
  unfold Incore.dirlink
  rw [Prog.bind_assoc]
  refine hm.bind (all_withInode hne fun d => all_dirlookup d name) fun r S1 h1 => ?_
  cases r with
  | some x =>
    show Ends _ _ ((Incore.iput x.1 >>= fun _ => ret (-1)) >>= k) _ _ _ _
    rw [Prog.bind_assoc]
    exact Ends.bind (Ends.of_ok fun _ S2 _ => hold S2)
  | none =>
    show Ends _ _ ((Incore.emptySlot sb dev dp >>= fun off => Incore.writei sb dev dp (Incore.dirent ip name) off >>= fun n =>
      if n ≠ direntSize then Incore.panic (.store .link) else ret 0) >>= k) _ _ _ _
    rw [Prog.bind_assoc]
    refine h1.bind (all_withInode hne fun d => all_emptyFrom _ _ d) fun off S2 h2 => ?_
    rw [Prog.bind_assoc]
    refine h2.bind (all_withInode hne fun d => all_writei hne d _ off) fun n S3 h3 => ?_
    split
    · exact Ends.fail (a := Incore.Act.panic _) rfl trivial
    · exact hk S3 h3

/-- A new file has an inode that was free. -/
theorem ends_createNew {name : List UInt8} (hdp : (S.store.inode dp).type ≠ none)
    (hfree : ∀ i, (S.store.inode i).type = none → S.store.ref i = 0) :
    Ends (Incore.exec sb) p (Incore.createNew sb dev dp name .file 0 0) S
      (fun r S' => ∃ i, r = some i ∧ (S.store.inode i).type = none ∧ Made S' i) (fun _ => True) True := by
  refine Ends.bind (Ends.of_ok fun i S1 hrun => ?_)
  obtain ⟨st, hst, rfl⟩ := run_disk_inv hrun
  obtain ⟨hi, ht, hv⟩ := run_iallocFrom hst
  have hne : dp ≠ i := fun e => hdp (e ▸ hi)
  have hone : (1 : Int) ≠ 0 := one_ne_zero
  refine ends_ilock_new (hv (hfree i hi)) (by rw [ht]; simp) fun S2 h2 => ends_get (ends_firstLink h2 hone fun S3 h3 => ?_)
  show Ends _ _ (Incore.dirlink sb dev dp name i >>= _) _ _ _ _
  refine h3.dirlink hne (fun S4 => ?_) fun S4 h4 => ?_
  · exact Ends.fail (a := Incore.Act.panic _) rfl trivial
  · rw [if_neg (show ¬ (0 : Int) < 0 by decide)]
    exact h4.bind (all_iunlockput hne) fun _ S5 h5 => Ends.ret ⟨i, rfl, hi, h5⟩

/-- An old file is returned locked, and nothing is changed; a new one has an inode that was free. -/
theorem ends_create {cwd : Nat} {path : List UInt8} (hc : Path.Consistent S cwd) (hfree : ∀ i, (S.store.inode i).type = none → S.store.ref i = 0)
    (h0 : 0 ∉ path) :
    Ends (Incore.exec sb) p (Incore.create sb dev cwd path .file 0 0) S
      (fun r S' => ¬ New S cwd path ∧ (r = none ∧ Idle S S' 0 ∨ ∃ ip, r = some ip ∧ Alive S ip ∧ Locked p S S' ip (one ip)) ∨
        New S cwd path ∧ ∃ ip, r = some ip ∧ (S.store.inode ip).type = none ∧ Made S' ip) (fun _ => True) True := by
  refine Ends.bind ((ends_namex_incore hc true h0).mono (fun r S1 _ hr1 => ?_) (fun _ _ => trivial) fun _ => trivial)
  obtain ⟨hr, ⟨x, hx⟩, h1⟩ := hr1
  cases hw : walk S true (comps path) (start cwd path) with
  | none =>
    obtain rfl : r = none := hr.trans hw
    refine Ends.ret (Or.inl ⟨fun hnew => ?_, Or.inl ⟨rfl, h1⟩⟩)
    obtain ⟨dp, n, h, _⟩ := hnew
    rw [hw] at h
    cases h
  | some y =>
    obtain ⟨dp, n⟩ := y
    obtain rfl : r = some (dp, n) := hr.trans hw
    have ha : Alive S dp := alive_walk hc (alive_start hc) hw
    have hd := (walk_parent_some hw).1
    have hkey : key n = n := by
      cases x with
      | none => cases hx
      | some x =>
        cases hx
        exact key_key x.2
    have hone : one dp = (0 : Nat → Nat) + one dp := (zero_add _).symm
    have hdisk : (S.store.inode dp).type ≠ none := fun e => ha.1 (by rw [node_of_unused (hfree dp e)]; exact e)
    refine ends_ilock h1 (by simp [refsOf, one]) ha fun S2 h2 => ends_dirlookup h2 (hc.sits dp hd) (fun hl S3 h3 => ?_)
      fun i j hl S3 h3 => ?_
    · rw [hkey] at hl
      have hfree3 : ∀ i, (S3.store.inode i).type = none → S3.store.ref i = 0 := by
        intro i hi
        rw [h3.inode] at hi
        have hne : i ≠ dp := fun e => hdisk (e ▸ hi)
        rw [h3.ref, hfree i hi]
        simp [refsOf, one, hne]
      have hdisk3 : (S3.store.inode dp).type ≠ none := by
        rw [h3.inode]
        exact hdisk
      refine (ends_createNew hdisk3 hfree3).mono (fun r S4 _ hr4 => ?_) (fun _ => id) id
      obtain ⟨i, hr, hi, hm⟩ := hr4
      rw [h3.inode] at hi
      exact Or.inr ⟨⟨dp, n, hw, hl⟩, i, hr, hi, hm⟩
    · rw [hkey] at hl
      have hold : ¬ New S cwd path := fun hnew => by
        obtain ⟨dp', n', hw', hl'⟩ := hnew
        rw [hw] at hw'
        cases hw'
        rw [hl] at hl'
        cases hl'
      obtain ⟨hj, hi⟩ := Links.lookup_some hl
      have hai : Alive S i := hc.named dp hd _ (List.mem_of_getElem? hj) hi
      have h3' : Locked p S S3 dp (one i + one dp) := by
        rw [add_comm]
        exact h3
      refine ends_iunlockput h3' ha fun S4 h4 => ends_ilock h4 (by simp [one]) hai fun S5 h5 => ends_get ?_
      split
      · exact Ends.ret (Or.inl ⟨hold, Or.inr ⟨i, rfl, hai, h5⟩⟩)
      · have h5' : Locked p S S5 i (0 + one i) := by rwa [zero_add]
        exact ends_iunlockput h5' hai fun S6 h6 => Ends.ret (Or.inl ⟨hold, Or.inl ⟨rfl, h6⟩⟩)

end Spares

/-! ## Runs -/

section Runs

variable [DecidableEq P] [DecidableEq G] {sb dev} {p : P} {s : St P G} {cwd ip : Nat} {path : List UInt8} {omode : BitVec 32}
  {Q : β → St P G → Prop} {B : Panic → Prop} {W : Prop}

theorem ends_onFs {c : Incore.M α} {k : α → M P G β} (h : Ends (Incore.exec sb) p c s.fs
      (fun x S => Ends (exec sb) p (k x) { s with fs := S } Q B W) (fun m => B (.fs m)) W) :
    Ends (exec sb) p (onFs c >>= k) s Q B W := by
  induction c generalizing s with
  | ret x => exact h
  | act a f ih =>
    show Ends (exec sb) p (act (.fs a) fun r => onFs (f r) >>= k) s Q B W
    unfold Ends at h
    simp only [run] at h
    cases hx : Incore.exec sb p a s.fs with
    | ok y =>
      rw [hx] at h
      exact Ends.act (r := y.1) (by simp only [exec, hx]) (ih y.1 (s := { s with fs := y.2 }) h)
    | wait =>
      rw [hx] at h
      exact Ends.wait (by simp only [exec, hx]) h
    | fail e =>
      rw [hx] at h
      exact Ends.fail (e := .fs e) (by simp only [exec, hx]) h

theorem ends_openBad {R : Incore.St P → Prop}
    (h : Ends (Incore.exec sb) p (Incore.iunlockput ip >>= fun _ => Incore.endOp) s.fs (fun _ S' => R S') (fun _ => True) True) :
    Ends (exec sb) p (openBad ip) s (fun r s' => r = -1 → R s'.fs) (fun _ => True) True :=
  ends_onFs (h.mono (fun _ _ _ hR => Ends.ret fun _ => hR) (fun _ => id) id)

/-- The file that `filealloc` gave has no type yet: `fileclose` gives it back. -/
theorem ends_fileclose_new {f : Fin nfile} {k : Unit → M P G β} (hr : (s.table.file f).ref = 1)
    (ht : (s.table.file f).type = .none) (hk : ∀ T, Ends (exec sb) p (k ()) { s with table := T } Q B W) :
    Ends (exec sb) p (fileclose f >>= k) s Q B W := by
  unfold fileclose
  rw [Prog.bind_assoc]
  have hx : exec sb p (.table (.fileclose f)) s = .ok (some (s.table.file f),
      { s with table := Ftable.setFile s.table f { s.table.file f with ref := 0, type := .none } }) := by
    simp only [exec, Ftable.exec, hr]
    rfl
  refine Ends.act hx ?_
  show Ends (exec sb) p ((match (s.table.file f).type with
    | .pipe g => onTable (Ftable.pipeclose g (s.table.file f).writable)
    | .inode ip => onFs (closeInode ip)
    | .none => return ()) >>= k) _ Q B W
  rw [ht]
  exact hk _

/-- With the inode locked, only the two tables can fail. -/
theorem ends_openInode {R : Incore.St P → Prop} (hT : ∀ f, (s.table.file f).ref = 0 → (s.table.file f).type = .none)
    (h : Ends (Incore.exec sb) p (Incore.iunlockput ip >>= fun _ => Incore.endOp) s.fs (fun _ S' => R S') (fun _ => True) True) :
    Ends (exec sb) p (openInode omode ip) s (fun r s' => r = -1 → R s'.fs) (fun _ => True) True := by
  unfold openInode
  cases hf : (List.finRange nfile).find? fun f => (s.table.file f).ref = 0 with
  | none =>
    have hx : exec sb p (.table .filealloc) s = .ok (none, s) := by simp only [exec, Ftable.exec, hf]
    exact Ends.act hx (ends_openBad h)
  | some f =>
    have hfree : (s.table.file f).ref = 0 := by simpa using List.find?_some hf
    generalize hs1 : ({ s with table := Ftable.setFile s.table f { s.table.file f with ref := 1 } } : St P G) = s1
    have hx : exec sb p (.table .filealloc) s = .ok (some f, s1) := by simp only [exec, Ftable.exec, hf, hs1]
    have hfs : s1.fs = s.fs := by rw [← hs1]
    have hnew : s1.table.file f = { s.table.file f with ref := 1 } := by
      rw [← hs1]
      exact update_self ..
    refine Ends.act hx ?_
    cases hd : (List.finRange nofile).find? fun fd => (s1.table.ofile p fd).isNone with
    | none =>
      have hx' : exec sb p (.table (.fdalloc f)) s1 = .ok (none, s1) := by simp only [exec, Ftable.exec, hd]
      refine Ends.act hx' (ends_fileclose_new (by rw [hnew]) (by rw [hnew]; exact hT f hfree) fun T => ends_openBad ?_)
      rw [show ({ s1 with table := T } : St P G).fs = s.fs from hfs]
      exact h
    | some fd =>
      have hx' : exec sb p (.table (.fdalloc f)) s1 = .ok (some fd, { s1 with table := Ftable.setFd s1.table p fd (some f) }) := by
        simp only [exec, Ftable.exec, hd]
      refine Ends.act hx' ?_
      show Ends (exec sb) p (openDone omode ip f fd) _ _ _ _
      refine Ends.bind (Ends.of_ok fun _ s2 _ => Ends.bind (Ends.of_ok fun _ s3 _ => Ends.bind (Ends.of_ok fun _ s4 _ => ?_)))
      exact Ends.ret fun e => absurd e (by omega)

end Runs

/-! ## Failed calls -/

end Xv6.Fs.Open
