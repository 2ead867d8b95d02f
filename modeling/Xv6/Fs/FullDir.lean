/-
  Xv6.Fs.FullDir — sequences of `open(O_CREATE)`, `mkdir`, `link` and `unlink` calls.

  A directory holds `MAXFILE * BSIZE` bytes of entries. When it is full, `writei` writes
  nothing and `dirlink` panics (`full_directory_panics`): the calls do not return an error.
  From a linked current directory, and while inodes and blocks last, every call of a
  sequence returns exactly if none enters a new name into a full directory and no `link`
  is given the directory's own name, `.` (or `..` in the root), which deadlocks
  (`calls_return_iff`).
-/

import Xv6.Fs.Calls

namespace Xv6.Fs.FullDir

open Lib Prog Namespace Links Alone Calls

variable {P : Type} [DecidableEq P] {p : P} {s : St P} {N : Nat}

inductive Op where
  | open_ (path : List UInt8) (omode : { m : Nat // m &&& oCreate ≠ 0 })
  | mkdir (path : List UInt8)
  | link (old new : List UInt8)
  | unlink (path : List UInt8)

namespace Op

def prog (N : Nat) : Op → M P Int
  | open_ path omode => sysOpen N path omode
  | mkdir path => sysMkdir N path
  | link old new => sysLink old new
  | unlink path => sysUnlink path

def IsLink : Op → Prop
  | link _ _ => True
  | _ => False

/-- The directory that gets a new entry has room; the name of a new link is not one by which
    the directory refers to itself. -/
def Roomy (p : P) (s : St P) : Op → Prop
  | open_ path _ | mkdir path =>
    ∀ dp name, NewName s.inode (start p s path) path dp name → fits (s.inode dp).ents = true
  | link old new => ∀ ip dp name, Leads s.inode (elems old) (start p s old) ip → (s.inode ip).type ≠ some .dir →
    Parent s.inode (start p s new) new dp name →
      (lookup name (s.inode dp).ents = none → fits (s.inode dp).ents = true) ∧
        ∀ k, lookup name (s.inode dp).ents ≠ some (dp, k)
  | unlink _ => True

end Op

/-- The current directory is linked, an inode is free and the disk has room. -/
structure Supplied (N : Nat) (p : P) (s : St P) : Prop where
  disk : OnDisk N s.inode
  cwd : Linked (s.inode (s.cwd p))
  free : ∃ i, 0 < i ∧ i < N ∧ (s.inode i).type = none

/-- No call in progress on a consistent disk. -/
structure Quiet (N : Nat) (s : St P) : Prop where
  consistent : Consistent N s.inode
  lock : s.lock = unlocked
  files : FilesClean s

/-- What a call that returned has done. -/
structure Done (N : Nat) (s : St P) (c : Op) (r : Int) (s' : St P) : Prop where
  quiet : Quiet N s'
  value : r = -1 ∨ 0 ≤ r
  link : c.IsLink → r = -1 → dirs s'.inode = dirs s.inode ∧ ∀ i, (s'.inode i).nlink = (s.inode i).nlink

section One

variable (hq : Quiet N s) (hs : Supplied N p s)

include hq hs

omit [DecidableEq P] in
theorem safe_from (path : List UInt8) : Safe (s.inode (start p s path)) :=
  (safe_start hq.consistent path).resolve_right fun h => h hs.cwd

omit [DecidableEq P] in
theorem linked_parent {path : List UInt8} {dp : Nat} {name : Name} (h : Parent s.inode (start p s path) path dp name) :
    Linked (s.inode dp) := by
  obtain ⟨pre, _, hl, hd⟩ := h
  exact ⟨hd, ((closed hq.consistent).leads hl (safe_from hq hs path)).2⟩

omit [DecidableEq P] in
theorem after_begin {s0 : St P} (h0 : After s s.lock s0) (hi0 : s0.inode = s.inode) : Quiet N s0 ∧ Supplied N p s0 := by
  have hc0 : s0.cwd = s.cwd := congrArg Prod.fst h0.rest
  exact ⟨⟨hi0 ▸ hq.consistent, h0.lock.trans hq.lock, hq.files.rest h0.rest⟩,
    ⟨hi0 ▸ hs.disk, by rw [hi0, hc0]; exact hs.cwd, by rw [hi0]; exact hs.free⟩⟩

/-- `create`, in a call that then ends with `k`. -/
theorem create_returns {path : List UInt8} {t : FileType} {major minor : Int} {k : Option Nat → M P Int}
    {Q : Int → St P → Prop}
    (hroom : ∀ dp name, NewName s.inode (start p s path) path dp name → fits (s.inode dp).ents = true)
    (hnone : ∀ s', Quiet N s' → Ends exec p (k none) s' Q (fun _ => False) False)
    (hsome : ∀ ip s', Consistent N s'.inode → s'.lock = only p ip → FilesClean s' →
      Ends exec p (k (some ip)) s' Q (fun _ => False) False) :
    Ends exec p (create N path t major minor >>= k) s Q (fun _ => False) False := by
  have h16 := hs.disk.lt
  refine ends_create (by omega) hq.lock (.inl ⟨closed hq.consistent, safe_from hq hs path⟩) ?_ ?_ (.inl hs.free) ?_ ?_ ?_
  · intro dp name ip slot hp hlk
    exact .inl (closed hq.consistent dp (linked_parent hq hs hp) _ _ _ hlk)
  · intro dp name hnew
    exact .inl (hroom dp name hnew)
  · intro s' h' _
    exact hnone s' ⟨After.consistent h' hq.consistent, h'.lock, hq.files.rest h'.rest⟩
  · intro ip s' h' _ _
    exact hsome ip s' (After.consistent h' hq.consistent) h'.lock (hq.files.rest h'.rest)
  · intro dp name ip m m' s' ⟨hp, hlk⟩ _ h0 hN hf hdp hcr hl' hr' hf'
    refine hsome ip s' ?_ hl' (hq.files.rest hr')
    refine (created (hq.consistent.frees hf) (hs.disk.frees hf) ?_ ?_ h0 hN hcr).frees hf'
    · rw [hdp]; exact linked_parent hq hs hp
    · rw [hdp]; exact hlk

theorem returns {c : Op} (hr : c.Roomy p s) :
    Ends exec p (c.prog N) s (fun r s' => Done N s c r s') (fun _ => False) False := by
  have hfail : ∀ {c : Op} {s0 : St P}, ¬ c.IsLink → Quiet N s0 →
      Ends exec p (do endOp; return -1) s0 (fun r s' => Done N s c r s') (fun _ => False) False := by
    intro c s0 hc h0
    refine ends_fail fun s' h' => ⟨⟨After.consistent h' h0.consistent, h'.lock.trans h0.lock, h0.files.rest h'.rest⟩, .inl rfl, ?_⟩
    exact fun h => absurd h hc
  cases c with
  | open_ path omode =>
    show Ends exec p (sysOpen N path omode) s _ _ _
    unfold sysOpen
    refine ends_beginOp fun s0 h0 hi0 => ?_
    obtain ⟨hq0, hs0⟩ := after_begin hq hs h0 hi0
    rw [if_pos omode.2]
    refine create_returns hq0 hs0 ?_ (fun s' hq' => hfail (c := .open_ path omode) id hq') fun ip s' hc' hl' hf' => ?_
    · rw [hi0, start_rest h0.rest]; exact hr
    · refine ends_openInode hl' hf' fun r s'' hv ho => ⟨⟨hc'.frees ho.inode, ho.lock, ho.files hf'⟩, hv, fun h => h.elim⟩
  | mkdir path =>
    show Ends exec p (sysMkdir N path) s _ _ _
    unfold sysMkdir sysMake
    refine ends_beginOp fun s0 h0 hi0 => ?_
    obtain ⟨hq0, hs0⟩ := after_begin hq hs h0 hi0
    refine create_returns hq0 hs0 ?_ (fun s' hq' => hfail (c := .mkdir path) id hq') fun ip s' hc' hl' hf' => ?_
    · rw [hi0, start_rest h0.rest]; exact hr
    · refine ends_iunlockput fun s1 h1 => ends_endOp fun s2 h2 _ => ⟨⟨?_, ?_, ?_⟩, .inr le_rfl, fun h => h.elim⟩
      · exact After.consistent h2 (After.consistent h1 hc')
      · rw [h2.lock, h1.lock, hl', only_release]
      · exact (hf'.rest h1.rest).rest h2.rest
  | link old new =>
    refine ends_sysLink hq.lock (.inl ⟨closed hq.consistent, safe_from hq hs old, safe_from hq hs new⟩)
      (counts hq.consistent hs.disk) ?_ ?_ ?_ ?_
    · intro ip dp name k hl ht hp hlk
      exact (hr ip dp name hl ht hp).2 k hlk
    · intro ip dp name hl ht ⟨hp, hlk⟩
      exact .inl ((hr ip dp name hl ht hp).1 hlk)
    · intro s' h' _
      refine ⟨⟨After.consistent h' hq.consistent, h'.lock, hq.files.rest h'.rest⟩, .inl rfl, fun _ _ => ⟨h'.inode.dirs, fun i => ?_⟩⟩
      rcases h'.inode i with e | ⟨_, e⟩
      · rw [e]
      · rw [e]
    · intro ip dp name m m' s' hf ht htd ⟨hp, hlk⟩ _ hdp he hl' hr' hf'
      refine ⟨⟨?_, hl', hq.files.rest hr'⟩, .inr le_rfl, fun _ h => absurd h (by decide)⟩
      refine (entered (hq.consistent.frees hf) (hs.disk.frees hf) ?_ ?_ ht htd he).frees hf'
      · rw [hdp]; exact linked_parent hq hs hp
      · rw [hdp]; exact hlk
  | unlink path =>
    refine ends_sysUnlink hq.lock (.inl ⟨closed hq.consistent, safe_from hq hs path⟩) ?_ ?_ ?_
    · intro dp name ip k hp hdot hdd hlk
      have hlinked := linked_parent hq hs hp
      exact ⟨entry_ne hq.consistent hlinked hlk ⟨hdot, hdd⟩, .inl (closed hq.consistent dp hlinked _ _ _ hlk)⟩
    · intro s' h'
      exact ⟨⟨After.consistent h' hq.consistent, h'.lock, hq.files.rest h'.rest⟩, .inl rfl, fun h => h.elim⟩
    · intro dp name ip k m m' s' hf hp hdot hdd hlk hdp hsf hempty hrm hl' hr' hf'
      refine ⟨⟨?_, hl', hq.files.rest hr'⟩, .inr le_rfl, fun h => h.elim⟩
      refine (removed (hq.consistent.frees hf) (hs.disk.frees hf) ?_ ?_ ⟨hdot, hdd⟩ hsf hempty hrm).frees hf'
      · rw [hdp]; exact linked_parent hq hs hp
      · rw [hdp]; exact hlk

/-- `create` of a new name in a full directory. -/
theorem create_stuck {path : List UInt8} {t : FileType} {major minor : Int} {k : Option Nat → M P Int} {dp : Nat}
    {name : Name} (hnew : NewName s.inode (start p s path) path dp name) (hfull : fits (s.inode dp).ents = false) :
    Ends exec p (create N path t major minor >>= k) s (fun _ _ => False) (fun e => e = .dirlink) True := by
  have h16 := hs.disk.lt
  refine ends_create (by omega) hq.lock (.inl ⟨closed hq.consistent, safe_from hq hs path⟩) ?_ (fun _ _ _ => .inr rfl)
    (.inl hs.free) ?_ ?_ ?_
  · intro dp name ip slot hp hlk
    exact .inl (closed hq.consistent dp (linked_parent hq hs hp) _ _ _ hlk)
  · intro s' _ hno
    exact absurd hnew (hno (closed hq.consistent) (safe_from hq hs path) dp name)
  · intro ip s' _ _ hno
    exact absurd hnew (hno dp name)
  · intro dp' name' ip m m' s' hnew' hfit
    obtain ⟨rfl, rfl⟩ := hnew.1.det hnew'.1
    rw [hfull] at hfit
    cases hfit

theorem stuck {c : Op} (hr : ¬ c.Roomy p s) :
    Ends exec p (c.prog N) s (fun _ _ => False) (fun e => e = .dirlink) True := by
  cases c with
  | open_ path omode =>
    simp only [Op.Roomy, not_forall, Bool.not_eq_true] at hr
    obtain ⟨dp, name, hnew, hfull⟩ := hr
    show Ends exec p (sysOpen N path omode) s _ _ _
    unfold sysOpen
    refine ends_beginOp fun s0 h0 hi0 => ?_
    obtain ⟨hq0, hs0⟩ := after_begin hq hs h0 hi0
    rw [if_pos omode.2]
    exact create_stuck hq0 hs0 (by rw [hi0, start_rest h0.rest]; exact hnew) (by rw [hi0]; exact hfull)
  | mkdir path =>
    simp only [Op.Roomy, not_forall, Bool.not_eq_true] at hr
    obtain ⟨dp, name, hnew, hfull⟩ := hr
    show Ends exec p (sysMkdir N path) s _ _ _
    unfold sysMkdir sysMake
    refine ends_beginOp fun s0 h0 hi0 => ?_
    obtain ⟨hq0, hs0⟩ := after_begin hq hs h0 hi0
    exact create_stuck hq0 hs0 (by rw [hi0, start_rest h0.rest]; exact hnew) (by rw [hi0]; exact hfull)
  | link old new =>
    simp only [Op.Roomy, not_forall] at hr
    obtain ⟨ip, dp, name, hl, ht, hp, hbad⟩ := hr
    -- either the name is new and there is no room for it, or it is the directory's own
    have hcase : lookup name (s.inode dp).ents = none ∧ fits (s.inode dp).ents = false ∨
        ∃ k, lookup name (s.inode dp).ents = some (dp, k) := by
      by_contra hcon
      rw [not_or, not_exists] at hcon
      exact hbad ⟨fun h => by by_contra hf; exact hcon.1 ⟨h, by simpa using hf⟩, hcon.2⟩
    refine ends_sysLink hq.lock (.inl ⟨closed hq.consistent, safe_from hq hs old, safe_from hq hs new⟩)
      (counts hq.consistent hs.disk) (fun _ _ _ _ _ _ _ _ => trivial) (fun _ _ _ _ _ _ => .inr rfl) ?_ ?_
    · intro s' _ hno
      refine hno (closed hq.consistent) (safe_from hq hs old) (safe_from hq hs new) ⟨ip, dp, name, hl, ht, hp, fun l k hlk => ?_⟩
      rcases hcase with ⟨h, _⟩ | ⟨k', h⟩
      · rw [h] at hlk; cases hlk
      · rw [h] at hlk; cases hlk; rfl
    · intro ip' dp' name' m m' s' _ _ _ ⟨hp', hlk'⟩ hfit
      obtain ⟨rfl, rfl⟩ := hp.det hp'
      rcases hcase with ⟨_, h⟩ | ⟨k', h⟩
      · rw [h] at hfit; cases hfit
      · rw [h] at hlk'; cases hlk'
  | unlink path => exact absurd trivial hr

end One

/-! ## Sequences -/

/-- Every call of the sequence returns a value, and a `link` that returns -1 has changed
    neither the linked directories nor a link count. -/
def Serves (N : Nat) : St P → List (P × Op) → Prop
  | _, [] => True
  | s, (p, c) :: cs => ∃ r s', run exec p (c.prog N) s = .ok (r, s') ∧ (r = -1 ∨ 0 ≤ r) ∧
      (c.IsLink → r = -1 → dirs s'.inode = dirs s.inode ∧ ∀ i, (s'.inode i).nlink = (s.inode i).nlink) ∧ Serves N s' cs

/-- The condition holds whenever a call of the sequence is made. -/
def Along (N : Nat) (ok : P → St P → Op → Prop) : St P → List (P × Op) → Prop
  | _, [] => True
  | s, (p, c) :: cs => ok p s c ∧ ∀ r s', run exec p (c.prog N) s = .ok (r, s') → Along N ok s' cs

/-- As long as the callers' directories are linked and inodes and blocks last, all calls of
    a sequence return exactly if no call enters a new name into a full directory and no new
    link has a name of the directory itself. -/
theorem calls_return_iff (cs : List (P × Op)) (hq : Quiet N s) (hs : Along N (fun p s _ => Supplied N p s) s cs) :
    Serves N s cs ↔ Along N (fun p s c => c.Roomy p s) s cs := by
  induction cs generalizing s with
  | nil => exact Iff.rfl
  | cons x cs ih =>
    obtain ⟨p, c⟩ := x
    obtain ⟨hs1, hs2⟩ := hs
    have hdone : ∀ r s', c.Roomy p s → run exec p (c.prog N) s = .ok (r, s') → Done N s c r s' := by
      intro r s' hr hrun
      have := returns hq hs1 hr
      unfold Ends at this
      rw [hrun] at this
      exact this
    constructor
    · intro ⟨r, s', hrun, _, _, hrest⟩
      have hr : c.Roomy p s := by
        by_contra hr
        have := stuck hq hs1 hr
        unfold Ends at this
        rw [hrun] at this
        exact this
      refine ⟨hr, fun r' s'' hrun' => ?_⟩
      rw [hrun] at hrun'
      cases hrun'
      exact (ih (hdone _ _ hr hrun).quiet (hs2 _ _ hrun)).mp hrest
    · intro ⟨hr, hrest⟩
      have hends := returns hq hs1 hr
      unfold Ends at hends
      cases hrun : run exec p (c.prog N) s with
      | ok x =>
        obtain ⟨r, s'⟩ := x
        have hd := hdone r s' hr hrun
        exact ⟨r, s', hrun, hd.value, hd.link, (ih hd.quiet (hs2 r s' hrun)).mpr (hrest r s' hrun)⟩
      | wait => rw [hrun] at hends; exact hends.elim
      | fail e => rw [hrun] at hends; exact hends.elim

/-! ## A full directory -/

theorem put_append {e : Dirent} {es : List Dirent} (h : ∀ x ∈ es, x.inum ≠ 0) : put e es = es ++ [e] := by
  induction es with
  | nil => rfl
  | cons x xs ih =>
    rw [put, if_neg (h x List.mem_cons_self), ih fun y hy => h y (List.mem_cons_of_mem _ hy)]
    rfl

/-- Three letters. -/
def nameOf (k : Nat) : Name := [UInt8.ofNat (97 + k / 676), UInt8.ofNat (97 + k / 26 % 26), UInt8.ofNat (97 + k % 26)]

theorem nameOf_inj {j k : Nat} (hj : j < 10000) (hk : k < 10000) (h : nameOf j = nameOf k) : j = k := by
  have hn : ∀ {a b : Nat}, a < 256 → b < 256 → UInt8.ofNat a = UInt8.ofNat b → a = b := by
    intro a b ha hb h
    have := congrArg UInt8.toNat h
    simpa [Nat.mod_eq_of_lt ha, Nat.mod_eq_of_lt hb] using this
  simp only [nameOf, List.cons.injEq, and_true] at h
  have h1 := hn (by omega) (by omega) h.1
  have h2 := hn (by omega) (by omega) h.2.1
  have h3 := hn (by omega) (by omega) h.2.2
  omega

def filledEnts (n : Nat) : List Dirent :=
  [⟨rootIno, dot⟩, ⟨rootIno, dotdot⟩] ++ (List.range n).map fun k => ⟨2, nameOf k⟩

/-- A root directory with `n` names, all links to one file. -/
def filled (n : Nat) : Nat → Node :=
  Function.update (Function.update (fun _ => Node.blank none) rootIno ⟨some .dir, 0, 0, 1, filledEnts n⟩) 2
    (if n = 0 then Node.blank none else ⟨some .file, 0, 0, n, []⟩)

variable {n : Nat}

theorem filledEnts_inum : ∀ x ∈ filledEnts n, x.inum ≠ 0 := by
  intro x hx
  simp only [filledEnts, List.mem_append, List.mem_cons, List.not_mem_nil, or_false, List.mem_map] at hx
  rcases hx with (rfl | rfl) | ⟨k, _, rfl⟩ <;> simp [rootIno]

theorem filledEnts_lookup {name : Name} (h1 : name ≠ dot) (h2 : name ≠ dotdot)
    (h3 : ∀ k < n, nameOf k ≠ name) : lookup name (filledEnts n) = none := by
  refine lookup_none.mpr fun x hx _ => ?_
  simp only [filledEnts, List.mem_append, List.mem_cons, List.not_mem_nil, or_false, List.mem_map, List.mem_range] at hx
  rcases hx with (rfl | rfl) | ⟨k, hk, rfl⟩
  · exact h1.symm
  · exact h2.symm
  · exact h3 k hk

theorem filled_root (n : Nat) : filled n rootIno = ⟨some .dir, 0, 0, 1, filledEnts n⟩ := by
  simp [filled, rootIno]

theorem filled_file (n : Nat) : filled n 2 = if n = 0 then Node.blank none else ⟨some .file, 0, 0, n, []⟩ := by
  simp [filled]

theorem filled_other {i : Nat} (h1 : i ≠ rootIno) (h2 : i ≠ 2) : filled n i = Node.blank none := by
  simp [filled, h1, h2]

theorem filled_zero : filled 0 = emptyDisk := by
  funext i
  by_cases e : i = 2
  · subst e; simp [filled, emptyDisk, rootIno]
  · simp [filled, emptyDisk, e, filledEnts]

theorem filled_consistent (n : Nat) (hn : n < 10000) : Consistent 8 (filled n) := by
  induction n with
  | zero => rw [filled_zero]; exact emptyDisk_consistent (by decide)
  | succ n ih =>
    have h := ih (by omega)
    have hroot : dirs (filled n) rootIno = some (filledEnts n) :=
      dirs_some.mpr ⟨by rw [filled_root]; exact ⟨rfl, Int.one_pos⟩, by rw [filled_root]⟩
    have hfile : ∀ k, dirs (filled k) 2 = none := by
      intro k
      refine dirs_of_not_dir ?_
      rw [filled_file]
      split <;> simp [Node.blank]
    have hlk : lookup (nameOf n) (filledEnts n) = none := by
      refine filledEnts_lookup ?_ ?_ fun k hk e => absurd (nameOf_inj (by omega) (by omega) e) (by omega)
      · intro e; have := congrArg List.length e; simp [nameOf, dot] at this
      · intro e; have := congrArg List.length e; simp [nameOf, dotdot] at this
    refine h.add_entry hroot hlk (by decide) (by decide) (hfile n) (hfile (n + 1)) ?_ ?_ ?_ ?_
    · rw [filled_file]; simp
    · rw [filled_file]
      by_cases e : n = 0
      · subst e
        rw [h.links_free (by decide) (by rw [filled_file]; rfl)]
        rfl
      · have := h.count 2 (by rw [filled_file, if_neg e]; exact Option.some_ne_none _)
        rw [filled_file, if_neg e] at this
        rw [← this]
        simp
    · rw [filled_root, filled_root, put_append filledEnts_inum]
      simp [filledEnts, List.range_succ]
    · intro j h2 h1
      rw [filled_other h1 h2, filled_other h1 h2]

theorem filled_onDisk (hn : n ≤ 4478) : OnDisk 8 (filled n) := by
  refine ⟨by decide, ?_⟩
  have h1 : ∀ d, dirBlocks (filled n d) ≤ if d = rootIno then 140 else 0 := by
    intro d
    by_cases e : d = rootIno
    · subst e
      rw [filled_root]
      simp [dirBlocks, filledEnts, direntSize, bsize]
      omega
    · rw [if_neg e]
      by_cases e2 : d = 2
      · subst e2; rw [filled_file]; split <;> simp [dirBlocks, Node.blank, bsize]
      · rw [filled_other e e2]; simp [dirBlocks, Node.blank, bsize]
  calc ∑ d ∈ Finset.range 8, dirBlocks (filled n d) ≤ ∑ d ∈ Finset.range 8, if d = rootIno then 140 else 0 :=
      Finset.sum_le_sum fun d _ => h1 d
    _ ≤ fsSize := by decide

theorem filled_quiet (hn : n ≤ 4478) : Quiet 8 (booted (filled n)) :=
  ⟨filled_consistent n (by omega), rfl, fun _ _ => rfl⟩

theorem filled_supplied (hn : n ≤ 4478) : Supplied 8 () (booted (filled n)) := by
  refine ⟨filled_onDisk hn, ?_, 3, by decide, by decide, ?_⟩
  · show Linked (filled n rootIno)
    rw [filled_root]
    exact ⟨rfl, Int.one_pos⟩
  · show (filled n 3).type = none
    rw [filled_other (by decide) (by decide)]
    rfl

/-- The path of a name in the root directory. -/
def inRoot (name : Name) : List UInt8 := slash :: name

theorem filled_parent {dp : Nat} {name : Name} (h : Parent (filled n) rootIno (inRoot [122, 122]) dp name) :
    dp = rootIno ∧ name = [122, 122] := by
  have hroot : Parent (filled n) rootIno (inRoot [122, 122]) rootIno [122, 122] :=
    ⟨[], rfl, .nil _, by rw [filled_root]⟩
  exact h.det hroot

theorem filledEnts_new (n : Nat) : lookup [122, 122] (filledEnts n) = none :=
  filledEnts_lookup (by decide) (by decide) fun k _ e => by
    have := congrArg List.length e
    simp [nameOf] at this

theorem filledEnts_old (n : Nat) : lookup (nameOf 0) (filledEnts (n + 1)) = some (2, 2) := by
  simp [filledEnts, List.range_succ_eq_map, lookup, lookupFrom, nameOf, dot, dotdot, rootIno]

theorem filledEnts_full : fits (filledEnts 4478) = false := by
  have h0 : (filledEnts 4478).any (·.inum = 0) = false := by
    rw [List.any_eq_false]
    intro x hx
    simp [filledEnts_inum x hx]
  have hlen : (filledEnts 4478).length = maxEnts := by simp [filledEnts, maxEnts, maxFile, ndirect, nindirect, bsize, direntSize]
  rw [fits, h0, hlen]
  simp

/-- One more link in a root directory without room: the kernel panics. -/
theorem link_full (hn : n + 1 ≤ 4478) (hfull : fits (filledEnts (n + 1)) = false) :
    run exec () (sysLink (inRoot (nameOf 0)) (inRoot [122, 122])) (booted (filled (n + 1))) = .fail .dirlink := by
  have hq := filled_quiet hn
  have hs := filled_supplied hn
  have hroot : (booted (filled (n + 1))).inode rootIno = ⟨some .dir, 0, 0, 1, filledEnts (n + 1)⟩ := filled_root (n + 1)
  have hfile : ((booted (filled (n + 1))).inode 2).type = some .file := by
    show (filled (n + 1) 2).type = _
    rw [filled_file]
    rfl
  have hends : Ends exec () (sysLink (inRoot (nameOf 0)) (inRoot [122, 122])) (booted (filled (n + 1))) (fun _ _ => False)
      (fun e => e = .dirlink) False := by
    refine ends_sysLink hq.lock (.inl ⟨closed hq.consistent, safe_from hq hs _, safe_from hq hs _⟩)
      (counts hq.consistent hs.disk) ?_ (fun _ _ _ _ _ _ => .inr rfl) ?_ ?_
    · intro ip dp name k _ _ hp hlk
      obtain ⟨rfl, rfl⟩ := filled_parent hp
      rw [hroot, filledEnts_new] at hlk
      cases hlk
    · intro s' _ hno
      have hlead : Leads (booted (filled (n + 1))).inode [nameOf 0] rootIno 2 :=
        .cons (by rw [hroot]) (by rw [hroot]; exact filledEnts_old n) (.nil 2)
      refine hno (closed hq.consistent) (safe_from hq hs _) (safe_from hq hs _)
        ⟨2, rootIno, [122, 122], hlead, ?_, ⟨[], rfl, .nil _, by rw [hroot]⟩, fun l k hlk => ?_⟩
      · rw [hfile]; decide
      · rw [hroot, filledEnts_new] at hlk
        cases hlk
    · intro ip dp name m m' s' _ _ _ ⟨hp, _⟩ hfit
      obtain ⟨rfl, rfl⟩ := filled_parent hp
      rw [hroot, hfull] at hfit
      cases hfit
  unfold Ends at hends
  cases hrun : run exec () (sysLink (inRoot (nameOf 0)) (inRoot [122, 122])) (booted (filled (n + 1))) with
  | ok x => rw [hrun] at hends; exact hends.elim
  | wait => rw [hrun] at hends; exact hends.elim
  | fail e => rw [hrun] at hends; rw [hends]

theorem full_directory_panics : Consistent 8 (filled 4478) ∧
    run exec () (sysLink (inRoot (nameOf 0)) (inRoot [122, 122])) (booted (filled 4478)) = .fail .dirlink :=
  ⟨filled_consistent 4478 (by decide), link_full le_rfl filledEnts_full⟩

/-- A link made in a root directory with one name, and nothing more. -/
theorem calls_return_iff_one_name :
    let cs : List (Unit × Op) := [((), .link (inRoot (nameOf 0)) (inRoot [122, 122]))]
    Serves 8 (booted (filled 1)) cs ↔ Along 8 (fun p s c => c.Roomy p s) (booted (filled 1)) cs :=
  calls_return_iff _ (filled_quiet (by decide)) ⟨filled_supplied (by decide), fun _ _ _ => trivial⟩

end Xv6.Fs.FullDir
