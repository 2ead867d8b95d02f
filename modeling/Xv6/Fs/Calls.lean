/-
  Xv6.Fs.Calls — what `create`, `sys_link` and `sys_unlink` do to a consistent file system.

  Run alone on a consistent disk they leave it consistent (`change_consistent`).
-/

import Xv6.Fs.Alone

namespace Xv6.Fs.Calls

open Lib Prog Namespace Links Alone Function

variable {P : Type} [DecidableEq P] {p : P} {s : St P} {N : Nat} {m m' : Nat → Node}

/-! ## Consistent disks -/

/-- The blocks a directory's entries take. -/
def dirBlocks (n : Node) : Nat := (n.ents.length * direntSize + (bsize - 1)) / bsize

/-- Inodes per block. -/
def ipb : Nat := 8

/-- The inodes and the directories fit on a disk of `FSSIZE` blocks. -/
structure OnDisk (N : Nat) (m : Nat → Node) : Prop where
  inodes : N ≤ ipb * fsSize
  blocks : ∑ d ∈ Finset.range N, dirBlocks (m d) ≤ fsSize

theorem OnDisk.lt (h : OnDisk N m) : N ≤ 8000 := h.inodes

theorem OnDisk.frees (h : OnDisk N m) (hf : Frees m m') : OnDisk N m' := by
  refine ⟨h.inodes, le_trans (Finset.sum_le_sum fun d _ => ?_) h.blocks⟩
  rcases hf d with e | ⟨_, e⟩
  · rw [e]
  · rw [e]; simp [dirBlocks, bsize]

/-- All entries fit into a `short`. -/
theorem OnDisk.links_le (h : OnDisk N m) (i : Nat) : links N (dirs m) i ≤ 32000 := by
  have h1 : ∀ d, refs (dirs m d) i ≤ 32 * dirBlocks (m d) := by
    intro d
    unfold dirs
    split
    · have : refs (some (m d).ents) i ≤ (m d).ents.length := List.countP_le_length
      have : (m d).ents.length ≤ 32 * dirBlocks (m d) := by
        unfold dirBlocks direntSize bsize
        omega
      omega
    · exact Nat.zero_le _
  calc links N (dirs m) i ≤ ∑ d ∈ Finset.range N, 32 * dirBlocks (m d) := Finset.sum_le_sum fun d _ => h1 d
    _ = 32 * ∑ d ∈ Finset.range N, dirBlocks (m d) := (Finset.mul_sum ..).symm
    _ ≤ 32 * fsSize := Nat.mul_le_mul_left _ h.blocks
    _ = 32000 := rfl

theorem counts (h : Consistent N m) (hd : OnDisk N m) : Counts m := by
  intro i hi
  have := h.count i hi
  have := hd.links_le i
  omega

theorem closed (h : Consistent N m) : Closed m := by
  intro d hd name i k hl
  obtain ⟨hk, h0⟩ := lookup_some hl
  exact h.entry_safe (dirs_some.mpr ⟨hd, rfl⟩) hk h0

theorem safe_root (h : Consistent N m) : Safe (m rootIno) := by
  obtain ⟨es, hes⟩ := Option.ne_none_iff_exists'.mp h.tree.root
  have := (dirs_some.mp hes).1
  exact ⟨by rw [this.1]; exact Option.some_ne_none _, this.2⟩

theorem safe_linked {n : Node} (h : Linked n) : Safe n := ⟨by rw [h.1]; exact Option.some_ne_none _, h.2⟩

/-- An entry of a linked directory with a name of its own does not refer to the directory. -/
theorem entry_ne {dp ip k : Nat} {name : Name} (h : Consistent N m) (hdp : Linked (m dp))
    (hl : lookup name (m dp).ents = some (ip, k)) (hn : name ≠ dot ∧ name ≠ dotdot) : ip ≠ dp := by
  intro e
  subst e
  obtain ⟨hk, h0⟩ := lookup_some hl
  have hG : dirs m ip = some (m ip).ents := dirs_some.mpr ⟨hdp, rfl⟩
  exact h.tree.not_own (k := k) ⟨_, name, hG, hk, h0, hn⟩

section Ops

variable {dp ip k : Nat} {name : Name}

theorem created {t : FileType} {major minor : Int} (h : Consistent N m) (hd : OnDisk N m) (hdp : Linked (m dp))
    (hlk : lookup name (m dp).ents = none) (h0 : 0 < ip) (hN : ip < N) (hc : Created m m' dp ip name t major minor) :
    Consistent N m' := by
  have hG : dirs m dp = some (m dp).ents := dirs_some.mpr ⟨hdp, rfl⟩
  have h16 := hd.lt
  have hip : ip % 65536 = ip := Nat.mod_eq_of_lt (by omega)
  have hdpN := h.lt (ne_none hG)
  have hdpm : dp % 65536 = dp := Nat.mod_eq_of_lt (by omega)
  have hdip : dirs m ip = none := dirs_of_not_dir (by rw [hc.free]; exact (Option.some_ne_none _).symm)
  have hnode := hc.node
  have hparent := hc.parent
  unfold newNode at hnode
  unfold withEntry at hparent
  rw [hip] at hnode hparent
  rw [hdpm] at hnode
  by_cases ht : t = .dir
  · subst ht
    have hcnt := counts h hd dp (by rw [hdp.1]; exact Option.some_ne_none _)
    rw [if_pos rfl, short_eq (by omega) (by omega)] at hparent
    rw [if_pos rfl] at hnode
    exact h.add_dir hG hlk (by omega) hN hc.free (by rw [hnode]; exact ⟨rfl, Int.one_pos⟩) (by rw [hnode]) (by rw [hnode])
      hparent hc.other
  · rw [if_neg ht] at hparent hnode
    have hne : (m' ip).type ≠ some .dir := by rw [hnode]; simpa using ht
    refine h.add_entry hG hlk (by omega) hN hdip (dirs_of_not_dir hne) (by rw [hnode]; exact Option.some_ne_none _) ?_
      hparent hc.other
    rw [hnode, h.links_free (by omega) hc.free]
    rfl

theorem entered (h : Consistent N m) (hd : OnDisk N m) (hdp : Linked (m dp)) (hlk : lookup name (m dp).ents = none)
    (ht : (m ip).type ≠ none) (htd : (m ip).type ≠ some .dir) (he : Entered m m' dp ip name) : Consistent N m' := by
  have hN := h.bound ip ht
  have h16 := hd.lt
  have hip0 : ip ≠ 0 := by intro e; subst e; exact h.tree.zero ht
  have hparent := he.parent
  rw [Nat.mod_eq_of_lt (by omega : ip < 65536)] at hparent
  have hcnt := counts h hd ip ht
  refine h.add_entry (dirs_some.mpr ⟨hdp, rfl⟩) hlk hip0 hN (dirs_of_not_dir htd)
    (dirs_of_not_dir (by rw [he.node]; exact htd)) (by rw [he.node]; exact ht) ?_ hparent he.other
  rw [he.node, nlink_incr hcnt, h.count ip ht]

theorem removed (h : Consistent N m) (hd : OnDisk N m) (hdp : Linked (m dp)) (hlk : lookup name (m dp).ents = some (ip, k))
    (hn : name ≠ dot ∧ name ≠ dotdot) (hs : Safe (m ip))
    (hempty : (m ip).type = some .dir → ((m ip).ents.drop 2).all (·.inum = 0) = true) (hr : Removed m m' dp ip k) :
    Consistent N m' := by
  obtain ⟨hk, h0⟩ := lookup_some hlk
  have hG : dirs m dp = some (m dp).ents := dirs_some.mpr ⟨hdp, rfl⟩
  have hcip := counts h hd ip hs.1
  have hcdp := counts h hd dp (safe_linked hdp).1
  have hnode : m' ip = { m ip with nlink := (m ip).nlink - 1 } := by
    rw [hr.node, decrNode, short_eq (by have := hs.2; omega) (by omega)]
  have hparent := hr.parent
  by_cases ht : (m ip).type = some .dir
  · rw [if_pos ht, short_eq (by have := hdp.2; omega) (by omega)] at hparent
    exact h.remove_dir hG hk h0 hn (dirs_some.mpr ⟨⟨ht, hs.2⟩, rfl⟩) (hempty ht) hnode hparent hr.other
  · rw [if_neg ht] at hparent
    exact h.remove_entry hG hk h0 hn ht hnode hparent hr.other

end Ops

/-! ## One call -/

inductive Change where
  | create (path : List UInt8) (t : FileType) (major minor : Int)
  | link (old new : List UInt8)
  | unlink (path : List UInt8)

namespace Change

def prog (N : Nat) : Change → M P Unit
  | create path t major minor => do let _ ← Namespace.create N path t major minor; return ()
  | link old new => do let _ ← sysLink old new; return ()
  | unlink path => do let _ ← sysUnlink path; return ()

/-- The path whose parent directory is changed. -/
def path : Change → List UInt8
  | create path _ _ _ => path
  | link _ new => new
  | unlink path => path

/-- `sys_link`'s new name is not `.` or `..`. -/
def Named : Change → Prop
  | link _ new => (elems new).getLast? ≠ some dot ∧ (elems new).getLast? ≠ some dotdot
  | _ => True

end Change

omit [DecidableEq P] in
theorem After.consistent {s' : St P} {L : Nat → Option P} (h : After s L s') (hc : Consistent N s.inode) :
    Consistent N s'.inode := hc.frees h.inode

omit [DecidableEq P] in
theorem safe_start (hc : Consistent N s.inode) (path : List UInt8) :
    Safe (s.inode (start p s path)) ∨ ¬ Linked (s.inode (s.cwd p)) := by
  by_cases h : Linked (s.inode (s.cwd p))
  · left
    unfold start
    split
    · exact safe_root hc
    · exact safe_linked h
  · exact .inr h

/-- The last element of a path. -/
theorem Found.last {names : List Name} {i dp : Nat} {name : Name} (h : Found m true names i dp name) :
    names.getLast? = some name := by
  obtain ⟨pre, rfl, _⟩ := h
  exact List.getLast?_concat ..

/-- On a consistent disk with a free inode, `create`, `sys_link` and `sys_unlink` in a linked
    directory with room return and leave the disk consistent, whatever they return; they can
    panic only on a `..` left in a removed current directory. -/
theorem change_consistent (c : Change) (hc : Consistent N s.inode) (hd : OnDisk N s.inode) (hl : s.lock = unlocked)
    (hfree : ∃ i, 0 < i ∧ i < N ∧ (s.inode i).type = none)
    (hpar : ∀ dp name, Parent s.inode (start p s c.path) c.path dp name →
      Linked (s.inode dp) ∧ fits (s.inode dp).ents = true)
    (hn : c.Named) :
    Ends exec p (c.prog N) s (fun _ s' => Consistent N s'.inode)
      (fun e => e = .noType ∧ ¬ Linked (s.inode (s.cwd p))) False := by
  have h16 := hd.lt
  have hs : ∀ path, Closed s.inode ∧ Safe (s.inode (start p s path)) ∨
      Panic.noType = Panic.noType ∧ ¬ Linked (s.inode (s.cwd p)) := by
    intro path
    exact (safe_start hc path).imp (fun h => ⟨closed hc, h⟩) fun h => ⟨rfl, h⟩
  cases c with
  | create path t major minor =>
    refine ends_create (by omega) hl (hs path) ?_ ?_ (.inl hfree) ?_ ?_ ?_
    · intro dp name ip slot hp hlk
      exact .inl (closed hc dp (hpar dp name hp).1 _ _ _ hlk)
    · intro dp name ⟨hp, _⟩
      exact .inl (hpar dp name hp).2
    · intro s' h' _
      exact After.consistent h' hc
    · intro ip s' h' _ _
      exact After.consistent h' hc
    · intro dp name ip m m' s' ⟨hp, hlk⟩ _ h0 hN hf hdp hcr _ _ hf'
      refine (created (hc.frees hf) (hd.frees hf) ?_ ?_ h0 hN hcr).frees hf'
      · rw [hdp]; exact (hpar dp name hp).1
      · rw [hdp]; exact hlk
  | link old new =>
    refine Ends.bind (ends_sysLink hl ?_ (counts hc hd) ?_ ?_ ?_ ?_)
    · rcases safe_start (p := p) hc old with h1 | h1
      · exact (safe_start hc new).imp (fun h2 => ⟨closed hc, h1, h2⟩) fun h => ⟨rfl, h⟩
      · exact .inr ⟨rfl, h1⟩
    · intro ip dp name k _ _ hp hlk
      have hlast := Found.last hp
      have hdot : name ≠ dot := by intro e; subst e; exact hn.1 hlast
      have hdd : name ≠ dotdot := by intro e; subst e; exact hn.2 hlast
      exact entry_ne hc (hpar dp name hp).1 hlk ⟨hdot, hdd⟩ rfl
    · intro ip dp name _ _ ⟨hp, _⟩
      exact .inl (hpar dp name hp).2
    · intro s' h' _
      exact After.consistent h' hc
    · intro ip dp name m m' s' hf ht htd ⟨hp, hlk⟩ _ hdp he _ _ hf'
      refine (entered (hc.frees hf) (hd.frees hf) ?_ ?_ ht htd he).frees hf'
      · rw [hdp]; exact (hpar dp name hp).1
      · rw [hdp]; exact hlk
  | unlink path =>
    refine Ends.bind (ends_sysUnlink hl (hs path) ?_ ?_ ?_)
    · intro dp name ip k hp hdot hdd hlk
      have hlinked := (hpar dp name hp).1
      exact ⟨entry_ne hc hlinked hlk ⟨hdot, hdd⟩, .inl (closed hc dp hlinked _ _ _ hlk)⟩
    · intro s' h'
      exact After.consistent h' hc
    · intro dp name ip k m m' s' hf hp hdot hdd hlk hdp hsf hempty hr _ _ hf'
      refine (removed (hc.frees hf) (hd.frees hf) ?_ ?_ ⟨hdot, hdd⟩ hsf hempty hr).frees hf'
      · rw [hdp]; exact (hpar dp name hp).1
      · rw [hdp]; exact hlk

/-- A disk with a root directory only. -/
def emptyDisk : Nat → Node :=
  Function.update (fun _ => Node.blank none) rootIno ⟨some .dir, 0, 0, 1, [⟨rootIno, dot⟩, ⟨rootIno, dotdot⟩]⟩

theorem emptyDisk_dirs : dirs emptyDisk = update (fun _ => none) rootIno
    (some [⟨rootIno, dot⟩, ⟨rootIno, dotdot⟩]) := by
  funext d
  by_cases e : d = rootIno
  · subst e
    rw [update_self]
    exact dirs_some.mpr ⟨by simp [emptyDisk, Linked], by simp [emptyDisk]⟩
  · rw [update_of_ne e]
    exact dirs_of_not_dir (by simp [emptyDisk, e, Node.blank])

theorem emptyDisk_alloc {i : Nat} : (emptyDisk i).type ≠ none ↔ i = rootIno := by
  by_cases e : i = rootIno
  · subst e; simp [emptyDisk]
  · simp [emptyDisk, e, Node.blank]

theorem emptyDisk_consistent (hN : 2 ≤ N) : Consistent N emptyDisk := by
  have hG : ∀ {d es}, dirs emptyDisk d = some es → d = rootIno ∧ es = [⟨rootIno, dot⟩, ⟨rootIno, dotdot⟩] := by
    intro d es h
    rw [emptyDisk_dirs] at h
    by_cases e : d = rootIno
    · subst e; rw [update_self] at h; cases h; exact ⟨rfl, rfl⟩
    · rw [update_of_ne e] at h; cases h
  have hroot : dirs emptyDisk rootIno ≠ none := by rw [emptyDisk_dirs, update_self]; exact Option.some_ne_none _
  have hchild : ∀ e k d, ¬ Child (dirs emptyDisk) e k d := by
    intro e k d ⟨es, n, he, hk, _, hn⟩
    obtain ⟨_, rfl⟩ := hG he
    rcases k with _ | _ | k
    · cases hk; exact hn.1 rfl
    · cases hk; exact hn.2 rfl
    · cases hk
  have hd : ∀ d, dirs emptyDisk d ≠ none → d = rootIno := by
    intro d hd
    obtain ⟨es, hes⟩ := Option.ne_none_iff_exists'.mp hd
    exact (hG hes).1
  refine ⟨⟨?_, fun d h => ?_, hroot, ?_, ?_, fun e k => hchild e k _, ?_, ?_, ?_, ?_⟩, fun i hi => ?_, fun i hi => ?_⟩
  · rw [emptyDisk_alloc]; decide
  · rw [emptyDisk_alloc]; exact hd d h
  · intro d es h
    obtain ⟨rfl, rfl⟩ := hG h
    rfl
  · intro es h
    rw [(hG h).2]
    rfl
  · intro d es hr h
    exact absurd (hG h).1 hr
  · intro d es h x hx _
    obtain ⟨rfl, rfl⟩ := hG h
    rw [emptyDisk_alloc]
    simp only [List.mem_cons, List.not_mem_nil, or_false] at hx
    rcases hx with rfl | rfl <;> rfl
  · intro d es h j k x y hj hk _ _ hn
    obtain ⟨rfl, rfl⟩ := hG h
    exact dots_distinct hj hk hn
  · intro d h
    rw [hd d h]
    exact .root
  · rw [emptyDisk_alloc] at hi
    rw [hi]
    exact hN
  · rw [emptyDisk_alloc] at hi
    subst hi
    have hl := links_update (show rootIno < N from hN) (fun _ => none) (some [⟨rootIno, dot⟩, ⟨rootIno, dotdot⟩]) rootIno
    have h0 : links N (fun _ => none) rootIno = 0 := Finset.sum_eq_zero fun _ _ => rfl
    rw [refs_none, refs_dots, if_pos rfl, h0, ← emptyDisk_dirs] at hl
    have : (emptyDisk rootIno).nlink = 1 := by simp [emptyDisk]
    rw [this]
    omega

theorem emptyDisk_onDisk (h : N ≤ ipb * fsSize) : OnDisk N emptyDisk := by
  refine ⟨h, ?_⟩
  have h1 : ∀ d, dirBlocks (emptyDisk d) ≤ if d = rootIno then 1 else 0 := by
    intro d
    by_cases e : d = rootIno
    · subst e; simp [emptyDisk, dirBlocks, direntSize, bsize]
    · simp [emptyDisk, e, Node.blank, dirBlocks, bsize]
  calc ∑ d ∈ Finset.range N, dirBlocks (emptyDisk d) ≤ ∑ d ∈ Finset.range N, if d = rootIno then 1 else 0 :=
      Finset.sum_le_sum fun d _ => h1 d
    _ ≤ 1 := by rw [Finset.sum_ite_eq']; split <;> omega
    _ ≤ fsSize := by decide

/-- One process in the root directory. -/
def booted (m : Nat → Node) : St Unit :=
  { inode := m, ref := fun i => if i = rootIno then 1 else 0, valid := fun _ => false, lock := unlocked,
    cwd := fun _ => rootIno, file := fun _ => ⟨0, none, false, false⟩, ofile := fun _ _ => none, proc := fun _ => .running,
    outstanding := 0 }

/-- The path `/a`. -/
def slashA : List UInt8 := [47, 97]

/-- A file is created in the root directory of an empty disk. -/
theorem change_consistent_create :
    Ends exec () ((Change.create slashA .file 0 0).prog 8) (booted emptyDisk) (fun _ s' => Consistent 8 s'.inode)
      (fun e => e = .noType ∧ ¬ Linked (emptyDisk rootIno)) False := by
  refine change_consistent (.create slashA .file 0 0) (emptyDisk_consistent (by decide)) (emptyDisk_onDisk (by decide)) rfl
    ⟨2, by decide, by decide, rfl⟩ ?_ trivial
  intro dp name ⟨pre, he, hl, _⟩
  have he' : ([[97]] : List Name) = pre ++ [name] := he
  rw [show ([[97]] : List Name) = [] ++ [[97]] from rfl] at he'
  obtain ⟨rfl, _⟩ := List.append_inj' he' rfl
  cases hl
  show Linked (emptyDisk rootIno) ∧ fits (emptyDisk rootIno).ents = true
  decide

end Xv6.Fs.Calls
