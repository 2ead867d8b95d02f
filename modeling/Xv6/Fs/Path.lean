/-
  Xv6.Fs.Path — path names (`fs.c`: `skipelem`, `namex`, `namei`, `nameiparent`).

  Here `namex` is as the source has it: `skipelem` moves a pointer into the path and writes
  the element into the caller's array of `DIRSIZ` bytes, where what an earlier, longer element
  left stands after the terminator, and the test for the last element is one of the rest. The
  elements are the nonempty parts of the path between slashes (`skips_comps`); with them
  `namexLoop` is the loop of `Fs.Incore` over a list of names (`namexLoop_incore`).

  In a consistent state in which no lock is held, `namei` is the fold of `look` over the
  components, and `nameiparent` gives the directory in which `namei` looks the last one up
  (`path_resolution`).
-/

import Xv6.Fs.Directory

namespace Xv6.Fs.Path

open Xv6.Lib Prog Contents Namespace Directory Function

/-! ## Elements -/

/-- What `skipelem` makes of the array `name`. -/
def copyName (elem name : List UInt8) : List UInt8 :=
  if dirSiz ≤ elem.length then elem.take dirSiz else elem ++ 0 :: name.drop (elem.length + 1)

/-- The rest of the path and the array. -/
def skipelem (path name : List UInt8) : Option (List UInt8 × List UInt8) :=
  match path.dropWhile (· == slash) with
  | [] => none
  | s => some ((s.dropWhile (· != slash)).dropWhile (· == slash), copyName (s.takeWhile (· != slash)) name)

/-- The nonempty parts between slashes. -/
def parts (path : List UInt8) : List (List UInt8) := (path.splitOn slash).filter (· ≠ [])

/-- The components of a path, cut to `DIRSIZ`. -/
def comps (path : List UInt8) : List Name := (parts path).map (·.take dirSiz)

/-- `skipelem` called until it returns 0: each time the name it leaves in the array, and the rest. -/
inductive Skips : List UInt8 → List UInt8 → List (Name × List UInt8) → Prop
  | stop {path name : List UInt8} : skipelem path name = none → Skips path name []
  | next {path name rest name' : List UInt8} {xs : List (Name × List UInt8)} : skipelem path name = some (rest, name') →
      Skips rest name' xs → Skips path name ((key name', rest) :: xs)

section Elements

variable {path rest name name' : List UInt8}

theorem parts_slash (path : List UInt8) : parts (slash :: path) = parts path := by
  unfold parts List.splitOn
  rw [List.splitOnP_cons_eq_if_modifyHead, if_pos (beq_self_eq_true _)]
  exact List.filter_cons_of_neg (by simp)

theorem parts_dropWhile (path : List UInt8) : parts (path.dropWhile (· == slash)) = parts path := by
  induction path with
  | nil => rfl
  | cons c cs ih =>
    rw [List.dropWhile_cons]
    split
    · rename_i hc
      rw [beq_iff_eq.mp hc, parts_slash]
      exact ih
    · rfl

theorem parts_elem {elem l : List UInt8} (hne : elem ≠ []) (hs : slash ∉ elem) (hl : l = [] ∨ l.head? = some slash) :
    parts (elem ++ l) = elem :: parts l := by
  have hno : ∀ c ∈ elem, (c == slash) = false := fun c hc => by
    simpa using fun e : c = slash => hs (e ▸ hc)
  have hkeep : ∀ ls : List (List UInt8), (elem :: ls).filter (· ≠ []) = elem :: ls.filter (· ≠ []) := fun ls =>
    List.filter_cons_of_pos (by simpa using hne)
  cases l with
  | nil =>
    unfold parts List.splitOn
    rw [List.append_nil, List.splitOnP_eq_singleton hno, hkeep]
    rfl
  | cons c cs =>
    obtain rfl : c = slash := by simpa using hl
    rw [parts_slash]
    unfold parts List.splitOn
    rw [List.splitOnP_append_cons_of_forall_mem hno _ (beq_self_eq_true _), hkeep]

theorem head_dropWhile {f : UInt8 → Bool} {c : UInt8} {l cs : List UInt8} (h : l.dropWhile f = c :: cs) : f c = false := by
  have := List.head_dropWhile_not f (l := l) (by rw [h]; simp)
  simpa [h] using this

theorem parts_cons {c : UInt8} {cs : List UInt8} (hc : c ≠ slash) :
    parts (c :: cs) = (c :: cs).takeWhile (· != slash) :: parts ((c :: cs).dropWhile (· != slash)) := by
  have hsplit := List.takeWhile_append_dropWhile (p := (· != slash)) (l := c :: cs)
  rw [← hsplit, parts_elem (l := (c :: cs).dropWhile (· != slash)), hsplit]
  · rw [List.takeWhile_cons, if_pos (by simpa using hc)]
    exact List.cons_ne_nil _ _
  · exact fun hm => by simpa using List.mem_takeWhile_imp hm
  · cases hd : (c :: cs).dropWhile (· != slash) with
    | nil => exact .inl rfl
    | cons x xs =>
      have hx : x = slash := by simpa using head_dropWhile hd
      exact .inr (by rw [hx]; rfl)

/-- `elem` is the first part of the path, and `rest` what `skipelem` leaves. -/
structure First (path elem rest : List UInt8) : Prop where
  parts : parts path = elem :: Path.parts rest
  last : rest = [] ↔ Path.parts rest = []
  lt : rest.length < path.length
  elemSub : elem ⊆ path
  restSub : rest ⊆ path
  name : Namespace.skipelem path = some (elem.take dirSiz, rest)

/-- What `skipelem` does: it finds no part, or the first. -/
theorem skipelem_spec (path name : List UInt8) :
    (skipelem path name = none ∧ parts path = [] ∧ Namespace.skipelem path = none) ∨
    ∃ elem rest, skipelem path name = some (rest, copyName elem name) ∧ First path elem rest := by
  have hname : Namespace.skipelem path = match path.dropWhile (· == slash) with
    | [] => none
    | s => some ((s.takeWhile (· != slash)).take dirSiz, (s.dropWhile (· != slash)).dropWhile (· == slash)) := rfl
  unfold skipelem
  have hsuf : path.dropWhile (· == slash) <:+ path := List.dropWhile_suffix _
  rw [← parts_dropWhile path]
  cases hs : path.dropWhile (· == slash) with
  | nil =>
    rw [hs] at hname
    exact .inl ⟨rfl, rfl, hname⟩
  | cons c cs =>
    have hc : c ≠ slash := by simpa using head_dropWhile hs
    rw [hs] at hsuf hname
    refine .inr ⟨_, _, rfl, ?_, ?_, ?_, ?_, ?_, hname⟩
    · rw [← parts_dropWhile path, hs, parts_dropWhile]
      exact parts_cons hc
    · -- the rest does not begin with a slash
      cases hr : ((c :: cs).dropWhile (· != slash)).dropWhile (· == slash) with
      | nil => exact iff_of_true rfl rfl
      | cons x xs =>
        have hx : x ≠ slash := by simpa using head_dropWhile hr
        rw [parts_cons hx]
        exact iff_of_false (List.cons_ne_nil _ _) (List.cons_ne_nil _ _)
    · have hlen := hsuf.length_le
      have hrest : ((cs.dropWhile (· != slash)).dropWhile (· == slash)).length ≤ cs.length :=
        ((List.dropWhile_suffix _).length_le).trans (List.dropWhile_suffix _).length_le
      rw [List.length_cons] at hlen
      rw [List.dropWhile_cons, if_pos (by simpa using hc)]
      omega
    · exact fun x hx => hsuf.subset ((List.takeWhile_prefix _).subset hx)
    · exact fun x hx => hsuf.subset ((List.dropWhile_suffix _).subset ((List.dropWhile_suffix _).subset hx))

/-- What stands after the terminator does not count. -/
theorem key_copyName {elem : List UInt8} (h0 : 0 ∉ elem) : key (copyName elem name) = elem.take dirSiz := by
  have hall : ∀ (n : Nat) (c : UInt8), c ∈ elem.take n → decide (c ≠ 0) = true := fun n c hc =>
    decide_eq_true fun e : c = 0 => h0 (e ▸ List.mem_of_mem_take hc)
  unfold key keyUpTo copyName
  split
  · rw [List.take_take, Nat.min_self]
    exact List.takeWhile_eq_self_iff.mpr (hall _)
  · rename_i hlt
    obtain ⟨k, hk⟩ : ∃ k, dirSiz - elem.length = k + 1 := ⟨dirSiz - elem.length - 1, by omega⟩
    rw [List.take_append, hk, List.take_succ_cons, List.takeWhile_append_of_pos (hall _),
      List.takeWhile_cons_of_neg (by simp), List.append_nil]

theorem skips_total (path name : List UInt8) : ∃ xs, Skips path name xs := by
  induction hn : path.length using Nat.strong_induction_on generalizing path name with
  | _ n ih =>
    rcases skipelem_spec path name with ⟨hs, _⟩ | ⟨elem, rest, hs, hf⟩
    · exact ⟨[], .stop hs⟩
    · obtain ⟨xs, hx⟩ := ih _ (hn ▸ hf.lt) rest (copyName elem name) rfl
      exact ⟨_, .next hs hx⟩

/-- The rest is empty after the last element only. -/
def EndsEmpty (xs : List (Name × List UInt8)) : Prop := ∀ k x, xs[k]? = some x → (x.2 = [] ↔ k + 1 = xs.length)

theorem skips_comps {xs : List (Name × List UInt8)} (h0 : 0 ∉ path) (h : Skips path name xs) :
    xs.map Prod.fst = comps path ∧ EndsEmpty xs := by
  induction h with
  | @stop path name hs =>
    rcases skipelem_spec path name with ⟨_, hp, _⟩ | ⟨elem, rest, hs', _⟩
    · refine ⟨?_, fun k x hk => by simp at hk⟩
      unfold comps
      rw [hp]
      rfl
    · rw [hs] at hs'
      cases hs'
  | @next path name rest name' xs hs hx ih =>
    rcases skipelem_spec path name with ⟨hs', _⟩ | ⟨elem, rest', hs', hf⟩
    · rw [hs] at hs'
      cases hs'
    · rw [hs] at hs'
      cases hs'
      obtain ⟨hmap, hend⟩ := ih fun hm => h0 (hf.restSub hm)
      refine ⟨?_, fun k x hk => ?_⟩
      · rw [List.map_cons, hmap, key_copyName fun hm => h0 (hf.elemSub hm)]
        unfold comps
        rw [hf.parts, List.map_cons]
      · cases k with
        | zero =>
          cases hk
          have hnil : parts rest = [] ↔ xs = [] := by
            rw [← List.map_eq_nil_iff (f := Prod.fst), hmap, comps, List.map_eq_nil_iff]
          rw [hf.last, hnil, List.length_cons, ← List.length_eq_zero_iff]
          omega
        | succ k =>
          rw [hend k x hk, List.length_cons]
          omega

/-- The elements of `Fs.Namespace` are the components. -/
theorem elems_comps (path : List UInt8) : elems path = comps path := by
  induction hn : path.length using Nat.strong_induction_on generalizing path with
  | _ n ih =>
    rw [elems_eq]
    unfold comps
    rcases skipelem_spec path [] with ⟨_, hp, hs⟩ | ⟨elem, rest, _, hf⟩
    · rw [hp, hs]
      rfl
    · rw [hf.parts, hf.name, List.map_cons]
      exact congrArg _ (ih _ (hn ▸ hf.lt) rest rfl)

end Elements

/-! ## The loop -/

variable (sb : Superblock) (dev : Devsw)

theorem skipelem_lt {path name rest name' : List UInt8} (h : skipelem path name = some (rest, name')) :
    rest.length < path.length := by
  rcases skipelem_spec path name with ⟨hs, _⟩ | ⟨elem, r, hs, hf⟩
  · rw [hs] at h
    cases h
  · rw [hs] at h
    cases h
    exact hf.lt

/-- The loop of `namex`: the inode and the array. -/
def namexLoop (parent : Bool) (path name : List UInt8) (ip : Nat) : Incore.M (Option (Nat × List UInt8)) :=
  match _h : skipelem path name with
  | none =>
    if parent then do
      Incore.iput ip
      return none
    else return some (ip, name)
  | some (rest, name) => do
    Incore.ilock ip
    let d ← Incore.get ip
    if d.type ≠ some .dir then
      Incore.iunlockput ip
      return none
    else if parent && rest.isEmpty then
      Incore.iunlock ip
      return some (ip, name)
    else
      match ← Incore.dirlookup sb dev ip name with
      | none =>
        Incore.iunlockput ip
        return none
      | some (next, _) =>
        Incore.iunlockput ip
        namexLoop parent rest name next
termination_by path.length
decreasing_by exact skipelem_lt _h

/-- The inode at which a path starts. -/
def start (cwd : Nat) (path : List UInt8) : Nat := if path.head? = some slash then rootIno else cwd

def namex (cwd : Nat) (path : List UInt8) (parent : Bool) (name : List UInt8) : Incore.M (Option (Nat × List UInt8)) := do
  Incore.iget (start cwd path)
  namexLoop sb dev parent path name (start cwd path)

/-- The array is `namei`'s own. -/
def namei (cwd : Nat) (path name : List UInt8) : Incore.M (Option Nat) := do
  let r ← namex sb dev cwd path false name
  return r.map Prod.fst

def nameiparent (cwd : Nat) (path name : List UInt8) : Incore.M (Option (Nat × List UInt8)) := namex sb dev cwd path true name

/-! ## States -/

section State

variable {P : Type}

/-- What `ilock` of inode `i` gives: the cached copy, if there is one, or what is on disk. -/
def node (S : Incore.St P) (i : Nat) : Dinode :=
  if S.store.valid i = true ∧ 0 < S.store.ref i then S.mem i else S.store.inode i

/-- An inode that is allocated, and that `iput` of one more reference does not free. -/
def Alive (S : Incore.St P) (i : Nat) : Prop := (node S i).type ≠ none ∧ ((node S i).nlink = 0 → 0 < S.store.ref i)

/-- The entries of directory `i`. -/
def dirents (S : Incore.St P) (i : Nat) : List Dirent := ents (node S i) S.store.data

/-- No call is under way, directories have their blocks, entries name inodes that are there,
    and so are the root and the current directory, which its process holds. -/
structure Consistent (S : Incore.St P) (cwd : Nat) : Prop where
  quiet : ∀ i, S.store.lock i = none
  sits : ∀ i, (node S i).type = some .dir → Sits S.store (node S i)
  named : ∀ i, (node S i).type = some .dir → ∀ e ∈ dirents S i, e.inum ≠ 0 → Alive S e.inum
  root : Alive S rootIno
  alive : Alive S cwd
  held : 0 < S.store.ref cwd

/-- `S` is `S₀` but for references taken and copies cached. -/
structure Holds (S₀ S : Incore.St P) (taken : Nat → Nat) : Prop where
  data : S.store.data = S₀.store.data
  inode : S.store.inode = S₀.store.inode
  bitmap : S.store.bitmap = S₀.store.bitmap
  node : ∀ i, node S i = Path.node S₀ i
  ref : ∀ i, S.store.ref i = S₀.store.ref i + taken i

/-- One reference to `i`. -/
def one (i : Nat) : Nat → Nat := Pi.single i 1

/-- `S` is `S₀` with references taken, and no lock is held. -/
structure Idle (S₀ S : Incore.St P) (taken : Nat → Nat) : Prop extends Holds S₀ S taken where
  lock : ∀ i, S.store.lock i = none

/-- The same, with inode `ip` locked and its copy read. -/
structure Locked (p : P) (S₀ S : Incore.St P) (ip : Nat) (taken : Nat → Nat) : Prop extends Holds S₀ S taken where
  lock : ∀ i, S.store.lock i = if i = ip then some p else none
  mem : S.mem ip = Path.node S₀ ip

section Ends

variable {sb dev} {p : P} {S₀ S : Incore.St P} {taken : Nat → Nat} {ip : Nat} {Q : β → Incore.St P → Prop}
  {B : Incore.Panic → Prop} {W : Prop}

theorem node_of_valid (hv : S.store.valid ip = true) (hr : 0 < S.store.ref ip) : node S ip = S.mem ip := if_pos ⟨hv, hr⟩

theorem node_of_unused (hr : S.store.ref ip = 0) : node S ip = S.store.inode ip := if_neg fun h => by omega

/-- `node` reads these fields only. -/
theorem node_congr {S' : Incore.St P} {i : Nat} (hi : S'.store.inode i = S.store.inode i) (hm : S'.mem i = S.mem i)
    (hv : S'.store.valid i = S.store.valid i) (hr : 0 < S'.store.ref i ↔ 0 < S.store.ref i) : node S' i = node S i := by
  unfold node
  rw [hi, hm, hv]
  simp only [hr]

theorem node_got (S : Incore.St P) (i j : Nat) : node { S with store := got S.store i } j = node S j := by
  by_cases e : j = i
  · subst e
    by_cases h0 : S.store.ref j = 0
    · rw [node_of_unused h0]
      exact if_neg fun h => by simp [got, h0] at h
    · refine node_congr rfl rfl ?_ ?_
      · simp only [got, if_neg h0]
      · simp only [got, update_self]
        omega
  · refine node_congr rfl rfl ?_ ?_
    · simp only [got]
      split
      · rw [update_of_ne e]
      · rfl
    · simp only [got, update_of_ne e]

theorem Holds.got (h : Holds S₀ S taken) (i : Nat) : Holds S₀ { S with store := got S.store i } (taken + one i) := by
  refine ⟨h.data, h.inode, h.bitmap, fun j => (node_got S i j).trans (h.node j), fun j => ?_⟩
  show update S.store.ref i (S.store.ref i + 1) j = S₀.store.ref j + (taken j + one i j)
  by_cases e : j = i
  · subst e
    rw [update_self, h.ref]
    simp only [one, Pi.single_eq_same]
    omega
  · rw [update_of_ne e, h.ref]
    simp only [one, Pi.single_eq_of_ne e]
    omega

/-- A reference is given back: the copy of an inode that nobody else holds is what is on disk. -/
theorem Holds.unref {i : Nat} (h : Holds S₀ S (taken + one i)) :
    Holds S₀ (withRef S (update S.store.ref i (S.store.ref i - 1))) taken := by
  have hone : one i i = 1 := Pi.single_eq_same ..
  have href : ∀ j, (withRef S (update S.store.ref i (S.store.ref i - 1))).store.ref j = S₀.store.ref j + taken j := by
    intro j
    have hj := h.ref j
    simp only [Pi.add_apply] at hj
    show update S.store.ref i (S.store.ref i - 1) j = _
    by_cases e : j = i
    · subst e
      rw [update_self]
      omega
    · rw [update_of_ne e]
      have : one i j = 0 := Pi.single_eq_of_ne e ..
      omega
  refine ⟨h.data, h.inode, h.bitmap, fun j => ?_, href⟩
  by_cases h0 : S₀.store.ref j + taken j = 0
  · rw [node_of_unused (by rw [href]; exact h0), node_of_unused (show S₀.store.ref j = 0 by omega)]
    exact congrFun h.inode j
  · rw [← h.node j]
    refine node_congr rfl rfl rfl ?_
    rw [href, h.ref j]
    simp only [Pi.add_apply]
    omega

variable {k : Unit → Incore.M β}

theorem ends_ilock (h : Idle S₀ S taken) (ht : 0 < taken ip) (ha : Alive S₀ ip)
    (hk : ∀ S', Locked p S₀ S' ip taken → Ends (Incore.exec sb) p (k ()) S' Q B W) :
    Ends (Incore.exec sb) p (Incore.ilock ip >>= k) S Q B W := by
  have hr : 0 < S.store.ref ip := by
    rw [h.ref]
    omega
  have hlock : ∀ i, update S.store.lock ip (some p) i = if i = ip then some p else none := fun i => by
    rw [update_apply, h.lock]
  by_cases hv : S.store.valid ip = true
  · refine ends_ilock_valid (h.lock ip) hv (hk _ ⟨⟨h.data, h.inode, h.bitmap, h.node, h.ref⟩, hlock, ?_⟩)
    rw [← h.node, node_of_valid hv hr]
    rfl
  · have hnode : node S ip = S.store.inode ip := if_neg fun e => hv e.1
    have htype : (S.store.inode ip).type ≠ none := by
      rw [← hnode, h.node]
      exact ha.1
    refine ends_ilock_fresh (h.lock ip) (by simpa using hv) htype (hk _ ⟨⟨h.data, h.inode, h.bitmap, ?_, h.ref⟩, hlock, ?_⟩)
    · intro i
      rw [← h.node i]
      by_cases e : i = ip
      · subst e
        have hvalid : (filled p i S).store.valid i = true := update_self ..
        rw [hnode, node_of_valid hvalid hr, filled_mem]
      · exact node_congr rfl (update_of_ne e ..) (update_of_ne e ..) Iff.rfl
    · rw [← h.node, hnode, filled_mem]

theorem Locked.iunlock (h : Locked p S₀ S ip taken) : Idle S₀ (withLock S (update S.store.lock ip none)) taken := by
  refine ⟨⟨h.data, h.inode, h.bitmap, h.node, h.ref⟩, fun i => ?_⟩
  show update S.store.lock ip none i = none
  rw [update_apply, h.lock]
  split <;> rfl

theorem ends_iput (h : Idle S₀ S (taken + one ip)) (ha : Alive S₀ ip)
    (hk : ∀ S', Idle S₀ S' taken → Ends (Incore.exec sb) p (k ()) S' Q B W) :
    Ends (Incore.exec sb) p (Incore.iput ip >>= k) S Q B W := by
  have hr := h.ref ip
  have hone : one ip ip = 1 := Pi.single_eq_same ..
  simp only [Pi.add_apply] at hr
  refine ends_iput_kept (h.lock ip) (fun hv hn => ?_) (hk _ ⟨h.toHolds.unref, h.lock⟩)
  rw [← node_of_valid hv (by omega), h.node] at hn
  have := ha.2 hn
  omega

theorem ends_iunlockput (h : Locked p S₀ S ip (taken + one ip)) (ha : Alive S₀ ip)
    (hk : ∀ S', Idle S₀ S' taken → Ends (Incore.exec sb) p (k ()) S' Q B W) :
    Ends (Incore.exec sb) p (Incore.iunlockput ip >>= k) S Q B W := by
  unfold Incore.iunlockput
  rw [Prog.bind_assoc]
  exact ends_iunlock (ends_iput h.iunlock ha hk)

/-- `dirlookup` takes a reference to what it finds. -/
theorem ends_dirlookup {name : List UInt8} {k : Option (Nat × Nat) → Incore.M β} (h : Locked p S₀ S ip taken)
    (hs : Sits S₀.store (node S₀ ip))
    (hnone : lookup (key name) (dirents S₀ ip) = none → ∀ S', Locked p S₀ S' ip taken → Ends (Incore.exec sb) p (k none) S' Q B W)
    (hsome : ∀ i j, lookup (key name) (dirents S₀ ip) = some (i, j) → ∀ S', Locked p S₀ S' ip (taken + one i) →
      Ends (Incore.exec sb) p (k (some (i, direntSize * j))) S' Q B W) :
    Ends (Incore.exec sb) p (Incore.dirlookup sb dev ip name >>= k) S Q B W := by
  have hsits : Sits S.store (S.mem ip) := by
    rw [h.mem]
    exact ⟨hs.type, hs.whole, hs.le, by rw [h.data]; exact hs.dense⟩
  have hents : ents (S.mem ip) S.store.data = dirents S₀ ip := by
    rw [h.mem, h.data]
    rfl
  have hmem : update S.mem ip (S.mem ip) = S.mem := update_eq_self ..
  refine ends_withInode (looks_dirlookup hsits name) ?_
  rw [hents, hmem]
  cases hl : lookup (key name) (dirents S₀ ip) with
  | none => exact hnone hl _ h
  | some x =>
    obtain ⟨i, j⟩ := x
    exact hsome i j hl _ ⟨h.toHolds.got i, h.lock, h.mem⟩

end Ends

/-! ## Resolution -/

/-- Looking a name up in an inode. -/
def look (S : Incore.St P) (i : Nat) (name : Name) : Option Nat :=
  if (node S i).type = some .dir then (lookup name (dirents S i)).map Prod.fst else none

/-- The fold of lookup over names. -/
def resolve (S : Incore.St P) (i : Nat) (names : List Name) : Option Nat := names.foldlM (look S) i

/-- What `namexLoop` computes. -/
def walk (S : Incore.St P) (parent : Bool) : List Name → Nat → Option (Nat × Name)
  | [], i => if parent then none else some (i, [])
  | name :: names, i =>
    if (node S i).type = some .dir then
      if parent && names.isEmpty then some (i, name) else (look S i name).bind (walk S parent names)
    else none

theorem walk_resolve (S : Incore.St P) (names : List Name) (i : Nat) :
    walk S false names i = (resolve S i names).map (·, []) := by
  induction names generalizing i with
  | nil => rfl
  | cons name names ih =>
    unfold walk resolve
    rw [List.foldlM_cons]
    by_cases hd : (node S i).type = some .dir
    · rw [if_pos hd, if_neg (by simp)]
      cases look S i name with
      | none => rfl
      | some j => exact ih j
    · rw [if_neg hd, look, if_neg hd]
      rfl

theorem walk_parent (S : Incore.St P) (names : List Name) (i : Nat) :
    walk S true names i = names.getLast?.bind fun name => (resolve S i names.dropLast).bind fun dp =>
      if (node S dp).type = some .dir then some (dp, name) else none := by
  induction names generalizing i with
  | nil => rfl
  | cons name names ih =>
    unfold walk
    cases names with
    | nil => rfl
    | cons name' names =>
      rw [List.dropLast_cons_cons, resolve, List.foldlM_cons, List.getLast?_cons_cons]
      by_cases hd : (node S i).type = some .dir
      · rw [if_pos hd, if_neg (by simp)]
        cases look S i name with
        | none => simp
        | some j => exact ih j
      · rw [if_neg hd, look, if_neg hd]
        simp

variable {S : Incore.St P} {cwd i ip : Nat} {path name : List UInt8}

theorem alive_start (hc : Consistent S cwd) : Alive S (start cwd path) := by
  unfold start
  split
  · exact hc.root
  · exact hc.alive

variable {names : List Name}

/-- What a walk comes to is allocated. -/
theorem alive_walk (hc : Consistent S cwd) {parent : Bool} {j : Nat} {n : Name}
    (ha : Alive S i) (h : walk S parent names i = some (j, n)) : Alive S j := by
  induction names generalizing i with
  | nil =>
    simp only [walk] at h
    split at h
    · cases h
    · cases h
      exact ha
  | cons name names ih =>
    unfold walk at h
    split at h
    · rename_i hd
      split at h
      · cases h
        exact ha
      · rw [look, if_pos hd, Option.bind_eq_some_iff] at h
        obtain ⟨i', hl, hw⟩ := h
        obtain ⟨x, hx, rfl⟩ := Option.map_eq_some_iff.mp hl
        obtain ⟨hj, hi⟩ := Links.lookup_some hx
        exact ih (hc.named i hd _ (List.mem_of_getElem? hj) hi) hw
    · cases h

theorem walk_parent_none : walk S true names i = none ↔ names = [] ∨ resolve S i names.dropLast = none ∨
      ∃ j, resolve S i names.dropLast = some j ∧ (node S j).type ≠ some .dir := by
  rw [walk_parent, ← List.getLast?_eq_none_iff]
  cases names.getLast? with
  | none => simp
  | some n =>
    cases resolve S i names.dropLast with
    | none => simp
    | some j => simp

/-- The last name is looked up in the directory found. -/
theorem walk_parent_some {dp : Nat} {n : Name} (h : walk S true names i = some (dp, n)) :
    (node S dp).type = some .dir ∧ names.getLast? = some n ∧
      resolve S i names = (lookup n (dirents S dp)).map Prod.fst := by
  rw [walk_parent, Option.bind_eq_some_iff] at h
  obtain ⟨n', hlast, h⟩ := h
  obtain ⟨dp', hres, h⟩ := Option.bind_eq_some_iff.mp h
  split at h
  · rename_i hd
    cases h
    refine ⟨hd, hlast, ?_⟩
    have hsplit : names.dropLast ++ [n] = names := by
      rw [List.dropLast_append_getLast? n hlast]
    unfold resolve at hres ⊢
    rw [← hsplit, List.foldlM_append, hres, Option.bind_eq_bind, Option.bind_some, List.foldlM_cons, look, if_pos hd]
    cases (lookup n (dirents S dp)).map Prod.fst with
    | none => rfl
    | some j => rfl
  · cases h

/-- Resolution fails at the first name that is looked up in vain. -/
theorem resolve_none : resolve S i names = none ↔
    ∃ pre name post j, names = pre ++ name :: post ∧ resolve S i pre = some j ∧
      ((node S j).type ≠ some .dir ∨ lookup name (dirents S j) = none) := by
  have hlook : ∀ j name, look S j name = none ↔ (node S j).type ≠ some .dir ∨ lookup name (dirents S j) = none := by
    intro j name
    unfold look
    split
    · rename_i hd
      simp [hd]
    · rename_i hd
      simp [hd]
  simp only [← hlook]
  constructor
  · intro h
    induction names generalizing i with
    | nil => cases h
    | cons name names ih =>
      cases hl : look S i name with
      | none => exact ⟨[], name, names, i, rfl, rfl, hl⟩
      | some j =>
        rw [resolve, List.foldlM_cons, hl] at h
        obtain ⟨pre, name', post, j', rfl, hpre, hj'⟩ := ih h
        refine ⟨name :: pre, name', post, j', rfl, ?_, hj'⟩
        rw [resolve, List.foldlM_cons, hl]
        exact hpre
  · intro ⟨pre, name, post, j, e, hpre, hj⟩
    unfold resolve at hpre ⊢
    rw [e, List.foldlM_append, hpre, Option.bind_eq_bind, Option.bind_some, List.foldlM_cons, hj]
    rfl

/-- The names of `namexLoop`'s result. -/
def named (parent : Bool) (r : Option (Nat × List UInt8)) : Option (Nat × Name) :=
  r.map fun x => (x.1, if parent then key x.2 else [])

theorem of_named_false {r : Option (Nat × List UInt8)} {o : Option Nat} (h : named false r = o.map (·, [])) :
    r.map Prod.fst = o := by
  cases r <;> cases o <;> simp_all [named]

/-- The references a result comes with. -/
def refsOf : Option Nat → Nat → Nat
  | none => 0
  | some i => one i

variable {sb dev}

theorem ends_namexLoop {p : P} {S₀ : Incore.St P} (hc : Consistent S₀ cwd) (parent : Bool)
    (h0 : 0 ∉ path) (h : Idle S₀ S (one ip)) (ha : Alive S₀ ip) :
    Ends (Incore.exec sb) p (namexLoop sb dev parent path name ip) S
      (fun r S' => named parent r = walk S₀ parent (comps path) ip ∧ Idle S₀ S' (refsOf (r.map Prod.fst))) (fun _ => False) False := by
  -- by the length of what is left of the path
  induction hn : path.length using Nat.strong_induction_on generalizing path name ip S with
  | _ n ih =>
    unfold namexLoop comps
    rcases skipelem_spec path name with ⟨hs, hp, _⟩ | ⟨elem, rest, hs, hf⟩
    · rw [hp]
      split
      · cases parent with
        | true =>
          have h' : Idle S₀ S (0 + one ip) := by rwa [zero_add]
          exact ends_iput h' ha fun S' h' => Ends.ret ⟨rfl, h'⟩
        | false => exact Ends.ret ⟨rfl, h⟩
      · rename_i he
        rw [hs] at he
        cases he
    · have hkey : key (copyName elem name) = elem.take dirSiz := key_copyName fun hm => h0 (hf.elemSub hm)
      have hlast : rest.isEmpty = ((parts rest).map (·.take dirSiz)).isEmpty := by
        rw [List.isEmpty_map, Bool.eq_iff_iff, List.isEmpty_iff, List.isEmpty_iff]
        exact hf.last
      rw [hf.parts, List.map_cons, ← hkey]
      split
      · rename_i he
        rw [hs] at he
        cases he
      · rename_i rest' name' he
        rw [hs] at he
        cases he
        have hone : one ip = (0 : Nat → Nat) + one ip := (zero_add _).symm
        refine ends_ilock h (by simp [one]) ha fun S1 h1 => ends_get ?_
        rw [h1.mem]
        unfold walk
        rw [← hlast]
        by_cases hd : (node S₀ ip).type = some .dir
        · rw [if_neg (fun e => e hd), if_pos hd]
          by_cases hpar : (parent && rest.isEmpty) = true
          · rw [if_pos hpar, if_pos hpar]
            rw [Bool.and_eq_true] at hpar
            refine ends_iunlock (Ends.ret ⟨?_, h1.iunlock⟩)
            rw [hpar.1]
            rfl
          · rw [if_neg hpar, if_neg hpar]
            unfold look
            rw [if_pos hd]
            refine ends_dirlookup h1 (hc.sits ip hd) (fun hl S2 h2 => ?_) fun i j hl S2 h2 => ?_
            · rw [hl]
              rw [hone] at h2
              exact ends_iunlockput h2 ha fun S3 h3 => Ends.ret ⟨rfl, h3⟩
            · rw [hl]
              rw [add_comm] at h2
              obtain ⟨hj, hi⟩ := Links.lookup_some hl
              refine ends_iunlockput h2 ha fun S3 h3 => ?_
              exact ih rest.length (hn ▸ hf.lt) (fun hm => h0 (hf.restSub hm)) h3
                (hc.named ip hd _ (List.mem_of_getElem? hj) hi) rfl
        · rw [if_pos hd, if_neg hd]
          rw [hone] at h1
          exact ends_iunlockput h1 ha fun S3 h3 => Ends.ret ⟨rfl, h3⟩

theorem ends_namex {p : P} (hc : Consistent S cwd) (parent : Bool) (h0 : 0 ∉ path) :
    Ends (Incore.exec sb) p (namex sb dev cwd path parent name) S
      (fun r S' => named parent r = walk S parent (comps path) (start cwd path) ∧ Idle S S' (refsOf (r.map Prod.fst)))
      (fun _ => False) False := by
  have hrefl : Holds S S 0 := ⟨rfl, rfl, rfl, fun _ => rfl, fun _ => rfl⟩
  have hgot := hrefl.got (start cwd path)
  rw [zero_add] at hgot
  exact ends_iget (ends_namexLoop hc parent h0 ⟨hgot, hc.quiet⟩ (alive_start hc))

/-! ## The loop over a list of names -/

/-- Of a name, only its key counts. -/
theorem lookupFrom_key {name' : List UInt8} (h : key name = key name') (offs : List Nat) (d : Dinode) :
    Fs.lookupFrom sb dev ip name offs d = Fs.lookupFrom sb dev ip name' offs d := by
  induction offs generalizing d with
  | nil => rfl
  | cons off offs ih =>
    unfold Fs.lookupFrom
    simp only [namecmp_eq_zero, h, ih]

theorem dirlookup_key {name' : List UInt8} (h : key name = key name') :
    Incore.dirlookup sb dev ip name = Incore.dirlookup sb dev ip name' := by
  unfold Incore.dirlookup Fs.dirlookup
  simp only [lookupFrom_key h]

theorem key_take {elem : List UInt8} (h0 : 0 ∉ elem) : key (elem.take dirSiz) = elem.take dirSiz := by
  unfold key keyUpTo
  rw [List.take_take, Nat.min_self]
  exact List.takeWhile_eq_self_iff.mpr fun c hc => decide_eq_true fun e : c = 0 => h0 (e ▸ List.mem_of_mem_take hc)

theorem namexLoop_incore (parent : Bool) (h0 : 0 ∉ path) :
    (namexLoop sb dev parent path name ip >>= fun r => ret (named parent r)) = Incore.walk sb dev parent (elems path) ip := by
  rw [elems_comps]
  induction hn : path.length using Nat.strong_induction_on generalizing path name ip with
  | _ n ih =>
    unfold namexLoop comps
    rcases skipelem_spec path name with ⟨hs, hp, _⟩ | ⟨elem, rest, hs, hf⟩
    · rw [hp]
      split
      · cases parent with
        | true =>
          show ((Incore.iput ip >>= fun _ => ret none) >>= _) = Incore.walk sb dev true [] ip
          rw [Prog.bind_assoc]
          rfl
        | false => rfl
      · rename_i he
        rw [hs] at he
        cases he
    · have h0' : 0 ∉ elem := fun hm => h0 (hf.elemSub hm)
      have hkey : key (copyName elem name) = elem.take dirSiz := key_copyName h0'
      have hlast : rest.isEmpty = ((parts rest).map (·.take dirSiz)).isEmpty := by
        rw [List.isEmpty_map, Bool.eq_iff_iff, List.isEmpty_iff, List.isEmpty_iff]
        exact hf.last
      rw [hf.parts, List.map_cons]
      split
      · rename_i he
        rw [hs] at he
        cases he
      · rename_i rest' name' he
        rw [hs] at he
        cases he
        unfold Incore.walk
        rw [← hlast, Prog.bind_assoc]
        refine congrArg _ (funext fun _ => ?_)
        rw [Prog.bind_assoc]
        refine congrArg _ (funext fun d => ?_)
        by_cases hd : d.type = some .dir
        · have hnd : ¬ d.type ≠ some .dir := fun e => e hd
          rw [if_neg hnd, if_neg hnd]
          by_cases hpar : (parent && rest.isEmpty) = true
          · rw [if_pos hpar, if_pos hpar, ← hkey]
            rw [Bool.and_eq_true] at hpar
            rw [hpar.1]
            rfl
          · rw [if_neg hpar, if_neg hpar, Prog.bind_assoc, dirlookup_key (hkey.trans (key_take h0').symm)]
            refine congrArg _ (funext fun r => ?_)
            cases r with
            | none =>
              show (Incore.iunlockput ip >>= fun _ => ret none) >>= _ = _
              rw [Prog.bind_assoc]
              rfl
            | some x =>
              show (Incore.iunlockput ip >>= fun _ => namexLoop sb dev parent rest _ x.1) >>= _ = _
              rw [Prog.bind_assoc]
              exact congrArg _ (funext fun _ => ih rest.length (hn ▸ hf.lt) (fun hm => h0 (hf.restSub hm)) rfl)
        · rw [if_pos hd, if_pos hd, Prog.bind_assoc]
          rfl

/-- `namex` of `Fs.Incore` is this one. -/
theorem namex_incore (parent : Bool) (h0 : 0 ∉ path) :
    (namex sb dev cwd path parent name >>= fun r => ret (named parent r)) = Incore.namex sb dev cwd path parent := by
  unfold namex Incore.namex
  rw [Prog.bind_assoc]
  exact congrArg _ (funext fun _ => namexLoop_incore parent h0)

theorem ends_namex_incore {p : P} (hc : Consistent S cwd) (parent : Bool) (h0 : 0 ∉ path) :
    Ends (Incore.exec sb) p (Incore.namex sb dev cwd path parent) S
      (fun r S' => r = walk S parent (comps path) (start cwd path) ∧ (∃ x, r = named parent x) ∧
        Idle S S' (refsOf (r.map Prod.fst))) (fun _ => False) False := by
  have heq : (namex sb dev cwd path parent [] >>= fun r => ret (named parent r)) = Incore.namex sb dev cwd path parent :=
    namex_incore parent h0
  rw [← heq]
  refine Ends.bind ((ends_namex hc parent h0).mono (fun r S' _ h => Ends.ret ⟨h.1, ⟨r, rfl⟩, ?_⟩) (fun _ => id) id)
  have hfst : (named parent r).map Prod.fst = r.map Prod.fst := by cases r <;> rfl
  rw [hfst]
  exact h.2

/-! ## The two calls -/

/-- Path names: what `skipelem` yields; that `namei` is the fold of lookup over it, and when it
    fails; when `nameiparent` fails, and that `namei` looks the name it returns up in the directory
    it returns. -/
theorem path_resolution (P : Type) (sb : Superblock) (dev : Devsw) (p : P) (S : Incore.St P) (cwd : Nat)
    (hc : Consistent S cwd) (path name : List UInt8) (h0 : 0 ∉ path) :
    ((∃ xs, Skips path name xs) ∧ ∀ xs, Skips path name xs → xs.map Prod.fst = comps path ∧ EndsEmpty xs) ∧
    (∃ r S', run (Incore.exec sb) p (namei sb dev cwd path name) S = .ok (r, S') ∧
      r = resolve S (start cwd path) (comps path) ∧ Idle S S' (refsOf r) ∧
      (r = none ↔ ∃ pre n post i, comps path = pre ++ n :: post ∧ resolve S (start cwd path) pre = some i ∧
        ((node S i).type ≠ some .dir ∨ lookup n (dirents S i) = none))) ∧
    (∃ r S', run (Incore.exec sb) p (nameiparent sb dev cwd path name) S = .ok (r, S') ∧ Idle S S' (refsOf (r.map Prod.fst)) ∧
      (r = none ↔ comps path = [] ∨ resolve S (start cwd path) (comps path).dropLast = none ∨
        ∃ i, resolve S (start cwd path) (comps path).dropLast = some i ∧ (node S i).type ≠ some .dir) ∧
      ∀ dp n, r = some (dp, n) → (node S dp).type = some .dir ∧ (comps path).getLast? = some (key n) ∧
        resolve S (start cwd path) (comps path) = (lookup (key n) (dirents S dp)).map Prod.fst) := by
  refine ⟨⟨skips_total path name, fun xs hx => skips_comps h0 hx⟩, ?_, ?_⟩
  · have hends : Ends (Incore.exec sb) p (namei sb dev cwd path name) S
        (fun r S' => r = resolve S (start cwd path) (comps path) ∧ Idle S S' (refsOf r)) (fun _ => False) False := by
      refine Ends.bind ((ends_namex hc false h0).mono (fun r S' _ hr => Ends.ret ⟨?_, hr.2⟩) (fun _ h => h) id)
      exact of_named_false (hr.1.trans (walk_resolve S _ _))
    obtain ⟨r, S', hrun, hr, hidle⟩ := hends.result
    exact ⟨r, S', hrun, hr, hidle, by rw [hr]; exact resolve_none⟩
  · have hends : Ends (Incore.exec sb) p (nameiparent sb dev cwd path name) S _ _ _ := ends_namex hc true h0
    obtain ⟨r, S', hrun, hr, hidle⟩ := hends.result
    refine ⟨r, S', hrun, hidle, ?_, fun dp n e => ?_⟩
    · rw [← walk_parent_none, ← hr, named, Option.map_eq_none_iff]
    · rw [e] at hr
      exact walk_parent_some hr.symm

end State

/-- The root holds `a`, a file. -/
def rootWithA : Incore.St Unit where
  store :=
    { bitmap := fun _ => true
      inode := fun i => if i = 1 then ⟨some .dir, 0, 0, 1, 16, fun j => if j.val = 0 then 5 else 0⟩
        else if i = 2 then ⟨some .file, 0, 0, 1, 0, fun _ => 0⟩ else Dinode.blank none
      data := fun _ k => if k.val = 0 then 2 else if k.val = 2 then 97 else 0
      ref := fun i => if i = 1 then 1 else 0
      valid := fun _ => false
      lock := fun _ => none
      freed := fun _ => 0 }
  mem := fun _ => Dinode.blank none
  outstanding := 1

theorem rootWithA_dir {i : Nat} (h : (node rootWithA i).type = some .dir) : i = 1 := by
  by_cases e : i = 1
  · exact e
  · by_cases e2 : i = 2
    · subst e2
      cases h
    · simp [node, rootWithA, e, e2, Dinode.blank] at h

theorem rootWithA_consistent : Consistent rootWithA 1 := by
  refine ⟨fun _ => rfl, fun i hd => ?_, fun i hd e he hi => ?_, ?_, ?_, ?_⟩
  · rw [rootWithA_dir hd]
    refine ⟨rfl, by decide, by decide, fun bn _ hlt => ?_⟩
    obtain rfl : bn = 0 := by
      change bn * 512 < 0 + 16 at hlt
      omega
    decide
  · rw [rootWithA_dir hd] at he
    have hents : dirents rootWithA 1 = [⟨2, [97]⟩] := by decide
    rw [hents, List.mem_singleton] at he
    subst he
    exact ⟨by decide, by decide⟩
  · exact ⟨by decide, by decide⟩
  · exact ⟨by decide, by decide⟩
  · decide

/-- `namei("//a/")` there. -/
theorem path_resolution_rootWithA : ∃ S', run (Incore.exec ⟨10, 5, 2, by decide, by decide⟩) ()
    (namei ⟨10, 5, 2, by decide, by decide⟩ ⟨fun _ => none, fun _ => none⟩ 1 [47, 47, 97, 47] []) rootWithA = .ok (some 2, S') := by
  obtain ⟨_, ⟨r, S', hrun, hr, _⟩, _⟩ := path_resolution Unit ⟨10, 5, 2, by decide, by decide⟩ ⟨fun _ => none, fun _ => none⟩ ()
    rootWithA 1 rootWithA_consistent [47, 47, 97, 47] [] (by decide)
  have : resolve rootWithA (start 1 [47, 47, 97, 47]) (comps [47, 47, 97, 47]) = some 2 := by decide
  rw [this] at hr
  exact ⟨S', hr ▸ hrun⟩

end Xv6.Fs.Path
