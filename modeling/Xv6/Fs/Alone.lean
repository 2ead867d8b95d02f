/-
  Xv6.Fs.Alone — the file system calls, run by one process while no other is in a call.

  One lemma per function says what the function leaves when it is run alone (`Ends`): which
  locks are held, which inodes have changed, and which panics it can come to. `iput` frees
  inodes without links only (`Frees`), so that walks along paths keep the tree.
-/

import Xv6.Fs.Links

namespace Xv6.Fs.Alone

open Lib Prog Namespace Links Function

variable {P : Type} [DecidableEq P] {p : P} {s : St P} {B : Panic → Prop} {W : Prop} {α : Type} {Q : α → St P → Prop}

/-- The current directories and the open files. -/
def rest (s : St P) : (P → Nat) × (Fin nfile → File) := (s.cwd, s.file)

/-- What a call leaves of the state `s`: the locks `L`, the directories and files in use, and
    all inodes but for freed ones. -/
structure After (s : St P) (L : Nat → Option P) (s' : St P) : Prop where
  lock : s'.lock = L
  rest : rest s' = rest s
  inode : Frees s.inode s'.inode

variable {s' : St P}

omit [DecidableEq P] in
theorem After.trans {s s'' : St P} {L L' : Nat → Option P} (h : After s L s') (h' : After s' L' s'') : After s L' s'' :=
  ⟨h'.lock, h'.rest.trans h.rest, h.inode.trans h'.inode⟩

/-- No lock held; lock `i` alone held. -/
abbrev unlocked : Nat → Option P := fun _ => none

abbrev only (p : P) (i : Nat) : Nat → Option P := Function.update unlocked i (some p)

omit [DecidableEq P] in
theorem only_release (p : P) (i : Nat) : update (only p i) i none = unlocked := by
  rw [only, update_idem]
  exact update_eq_self i unlocked

variable {i j dp inum ip : Nat}

omit [DecidableEq P] in
theorem only_ne {p : P} (h : j ≠ i) : only p i j = none := by rw [only, update_of_ne h]

omit [DecidableEq P] in
/-- Of two locks one is released. -/
theorem two_release {p : P} (h : i ≠ j) :
    update (update (only p i) j (some p)) i none = only p j := by
  funext x
  grind [update_apply]

/-! ## Actions -/

theorem ends_perform {a : Act P} {r : a.Res} {k : a.Res → M P α} (hx : exec p a s = .ok (r, s'))
    (h : Ends exec p (k r) s' Q B W) : Ends exec p (perform a >>= k) s Q B W := Ends.act hx h

variable {k : Unit → M P α}

theorem ends_acquiresleep (hl : s.lock i = none)
    (h : Ends exec p (k ()) { s with lock := update s.lock i (some p) } Q B W) :
    Ends exec p (acquiresleep i >>= k) s Q B W :=
  ends_perform (show exec p (Act.acquiresleep i) s = .ok ((), _) by simp only [exec, hl]) h

theorem ends_ilock {k : Node → M P α} (hl : s.lock i = none) (ht : (s.inode i).type ≠ none ∨ B .noType)
    (h : ∀ s', s'.lock = update s.lock i (some p) → rest s' = rest s → s'.inode = s.inode →
      (s.inode i).type ≠ none → Ends exec p (k (s.inode i)) s' Q B W) : Ends exec p (ilock i >>= k) s Q B W := by
  unfold ilock
  rw [Prog.bind_assoc]
  refine ends_acquiresleep hl ?_
  by_cases e : (s.inode i).type = none
  · refine Ends.fail (show exec p (Act.load i) _ = .fail .noType by simp [exec, e]) (ht.resolve_left (fun h' => h' e))
  · refine ends_perform (show exec p (Act.load i) _ = .ok (s.inode i, _) by simp only [exec, e]; rfl) ?_
    exact h _ rfl rfl rfl e

variable {m m' : Nat → Node}

theorem frees_free (h : (m i).nlink = 0) : Frees m (update m i { m i with type := none, ents := [] }) := by
  intro j
  grind [update_apply]

/-- `iput` frees an inode without links, or no inode. -/
theorem ends_iput (hl : s.lock i = none)
    (h : ∀ s', After s s.lock s' → Ends exec p (k ()) s' Q B W) : Ends exec p (iput i >>= k) s Q B W := by
  have hup : update (update s.lock i (some p)) i none = s.lock := by
    rw [update_idem, ← hl, update_eq_self]
  unfold iput
  simp only [Prog.bind_assoc]
  refine ends_acquiresleep hl ?_
  unfold iputLocked
  rw [Prog.bind_assoc]
  refine ends_perform rfl ?_
  by_cases hlast : (s.valid i && (s.inode i).nlink = 0 && s.ref i = 1) = true
  · have h0 : (s.inode i).nlink = 0 := by simp at hlast; exact hlast.1.2
    rw [if_pos hlast]
    refine ends_perform rfl ?_
    refine ends_perform rfl ?_
    refine ends_perform rfl ?_
    exact h _ ⟨hup, rfl, frees_free h0⟩
  · rw [if_neg hlast]
    refine ends_perform rfl ?_
    refine ends_perform rfl ?_
    exact h _ ⟨hup, rfl, Frees.refl _⟩

theorem ends_iunlock (h : Ends exec p (k ()) { s with lock := update s.lock i none } Q B W) :
    Ends exec p (iunlock i >>= k) s Q B W :=
  ends_perform rfl h

theorem ends_iunlockput (h : ∀ s', After s (update s.lock i none) s' → Ends exec p (k ()) s' Q B W) :
    Ends exec p (iunlockput i >>= k) s Q B W := by
  unfold iunlockput
  rw [Prog.bind_assoc]
  refine ends_iunlock (ends_iput (update_self ..) fun s' h' => h s' ⟨h'.lock, h'.rest, h'.inode⟩)

variable {name : Name}

theorem ends_dirlookup {k : Option (Nat × Nat) → M P α} (ht : (s.inode dp).type = some .dir)
    (h : ∀ s', s'.lock = s.lock → rest s' = rest s → s'.inode = s.inode →
      Ends exec p (k (lookup name (s.inode dp).ents)) s' Q B W) : Ends exec p (dirlookup dp name >>= k) s Q B W := by
  cases hl : lookup name (s.inode dp).ents with
  | none =>
    rw [hl] at h
    exact ends_perform (show exec p (Act.dirlookup dp name) s = .ok (none, _) by simp [exec, ht, hl]) (h _ rfl rfl rfl)
  | some x =>
    rw [hl] at h
    exact ends_perform (show exec p (Act.dirlookup dp name) s = .ok (some x, addRef s x.1) by simp [exec, ht, hl])
      (h _ rfl rfl rfl)

/-! ## Paths -/

/-- The names lead from directory to directory, from `i` to `j`. -/
inductive Leads (m : Nat → Node) : List Name → Nat → Nat → Prop where
  | nil (i : Nat) : Leads m [] i i
  | cons {name : Name} {names : List Name} {i j l k : Nat} (hi : (m i).type = some .dir)
      (hl : lookup name (m i).ents = some (l, k)) (hj : Leads m names l j) : Leads m (name :: names) i j

/-- The entries of linked directories are safe. -/
def Closed (m : Nat → Node) : Prop := ∀ d, Linked (m d) → ∀ name i k, lookup name (m d).ents = some (i, k) → Safe (m i)

theorem Frees.dir (h : Frees m m') (hi : (m' i).type = some .dir) : m' i = m i := by
  have := h i
  grind

theorem Frees.closed (h : Frees m m') (hc : Closed m) : Closed m' := by
  intro d hd name i k hl
  have e := Frees.dir h hd.1
  rw [e] at hd hl
  have hs := hc d hd name i k hl
  rw [Frees.safe h hs]
  exact hs

/-- The directories of `m'` have the same entries in `m`. -/
def Within (m' m : Nat → Node) : Prop :=
  ∀ i, (m' i).type = some .dir → (m i).type = some .dir ∧ (m i).ents = (m' i).ents

theorem Frees.within (h : Frees m m') : Within m' m := by
  intro i hi
  rw [← Frees.dir h hi]
  exact ⟨hi, rfl⟩

variable {names : List Name}

theorem Within.leads (h : Within m' m) (hl : Leads m' names i j) : Leads m names i j := by
  induction hl with
  | nil i => exact .nil i
  | cons hi hl _ ih =>
    obtain ⟨h1, h2⟩ := h _ hi
    rw [← h2] at hl
    exact .cons h1 hl ih

theorem Closed.leads (hc : Closed m) (hl : Leads m names i j) (hi : Safe (m i)) : Safe (m j) := by
  induction hl with
  | nil i => exact hi
  | cons ht hl _ ih => exact ih (hc _ ⟨ht, hi.2⟩ _ _ _ hl)

/-- What `walk` finds. -/
def Found (m : Nat → Node) (parent : Bool) (names : List Name) (i j : Nat) (name : Name) : Prop :=
  if parent then ∃ pre, names = pre ++ [name] ∧ Leads m pre i j ∧ (m j).type = some .dir else Leads m names i j

variable {parent : Bool}

theorem Within.found (h : Within m' m) (hf : Found m' parent names i j name) : Found m parent names i j name := by
  cases parent with
  | true =>
    obtain ⟨pre, hn, hl, hd⟩ := hf
    exact ⟨pre, hn, h.leads hl, (h _ hd).1⟩
  | false => exact h.leads hf

theorem Found.cons {l k : Nat} {n : Name}
    (hi : (m i).type = some .dir) (hl : lookup n (m i).ents = some (l, k)) (hf : Found m parent names l j name) :
    Found m parent (n :: names) i j name := by
  cases parent with
  | true =>
    obtain ⟨pre, rfl, hlead, hd⟩ := hf
    exact ⟨n :: pre, rfl, .cons hi hl hlead, hd⟩
  | false => exact Leads.cons hi hl hf

theorem Found.dir (hf : Found m parent names i j name) (hn : names ≠ []) : (m i).type = some .dir := by
  cases parent with
  | true =>
    obtain ⟨pre, rfl, hl, hd⟩ := hf
    cases hl with
    | nil => exact hd
    | cons hi _ _ => exact hi
  | false =>
    cases (show Leads m names i j from hf) with
    | nil => exact absurd rfl hn
    | cons hi _ _ => exact hi

theorem Found.next {n : Name} {rest : List Name}
    (hf : Found m parent (n :: rest) i j name) (hn : parent = true → rest ≠ []) :
    ∃ l k, lookup n (m i).ents = some (l, k) ∧ Found m parent rest l j name := by
  cases parent with
  | true =>
    obtain ⟨pre, he, hl, hd⟩ := hf
    cases pre with
    | nil => cases he; exact absurd rfl (hn rfl)
    | cons x pre =>
      cases he
      cases hl with
      | cons _ hl hj => exact ⟨_, _, hl, pre, rfl, hj, hd⟩
  | false =>
    cases (show Leads m (n :: rest) i j from hf) with
    | cons _ hl hj => exact ⟨_, _, hl, hj⟩

theorem Leads.det {j' : Nat} (h : Leads m names i j) (h' : Leads m names i j') : j = j' := by
  induction h with
  | nil i => cases h'; rfl
  | cons _ hl _ ih =>
    cases h' with
    | cons _ hl' hj' =>
      rw [hl] at hl'
      cases hl'
      exact ih hj'

theorem Found.det {j' : Nat} {name' : Name}
    (h : Found m true names i j name) (h' : Found m true names i j' name') : j = j' ∧ name = name' := by
  obtain ⟨pre, rfl, hl, _⟩ := h
  obtain ⟨pre', e, hl', _⟩ := h'
  obtain ⟨rfl, e'⟩ := List.append_inj' e rfl
  cases e'
  exact ⟨hl.det hl', rfl⟩

/-- Walks among linked directories are the same after inodes were freed. -/
theorem Leads.frees (h : Frees m m') (hc : Closed m)
    (hl : Leads m names i j) (hi : Safe (m i)) : Leads m' names i j := by
  induction hl with
  | nil i => exact .nil i
  | cons ht hl _ ih =>
    have e := Frees.safe h hi
    rw [← e] at ht
    refine .cons ht (by rw [e]; exact hl) (ih (hc _ ⟨by rw [← e]; exact ht, hi.2⟩ _ _ _ hl))

theorem Found.frees (h : Frees m m') (hc : Closed m)
    (hf : Found m parent names i j name) (hi : Safe (m i)) : Found m' parent names i j name := by
  cases parent with
  | true =>
    obtain ⟨pre, hn, hl, hd⟩ := hf
    exact ⟨pre, hn, hl.frees h hc hi, by rw [Frees.safe h (hc.leads hl hi)]; exact hd⟩
  | false => exact Leads.frees h hc hf hi

/-- What a walk along `names` from `i` leaves, and the result it gives. From a safe inode it
    finds what there is. -/
structure Walked (s : St P) (parent : Bool) (names : List Name) (i : Nat) (r : Option (Nat × Name)) (s' : St P) : Prop where
  after : After s unlocked s'
  found : ∀ j name, r = some (j, name) → Found s.inode parent names i j name
  same : parent = true → ∀ j name, r = some (j, name) → s'.inode j = s.inode j
  missing : Closed s.inode → Safe (s.inode i) → r = none → ∀ j name, ¬ Found s.inode parent names i j name

omit [DecidableEq P] in
theorem Walked.none {s : St P} (h : After s unlocked s')
    (hn : ∀ j name, ¬ Found s.inode parent names i j name) : Walked s parent names i none s' :=
  ⟨h, fun _ _ e => (by cases e), fun _ _ _ e => (by cases e), fun _ _ _ => hn⟩

theorem ends_walk {k : Option (Nat × Name) → M P α}
    (hl : s.lock = unlocked) (hs : Closed s.inode ∧ Safe (s.inode i) ∨ B .noType)
    (h : ∀ r s', Walked s parent names i r s' → Ends exec p (k r) s' Q B W) :
    Ends exec p (walk parent names i >>= k) s Q B W := by
  induction names generalizing i s with
  | nil =>
    unfold Namespace.walk
    cases parent with
    | true =>
      rw [if_pos rfl, Prog.bind_assoc]
      refine ends_iput (by rw [hl]) fun s' h' => h none s' (.none (hl ▸ h') fun j name ⟨pre, hn, _⟩ => ?_)
      exact List.append_ne_nil_of_right_ne_nil pre (List.cons_ne_nil name []) hn.symm
    | false =>
      refine h (some (i, [])) s ⟨⟨hl, rfl, Frees.refl _⟩, fun j name e => ?_, fun e => (by cases e), fun _ _ e => (by cases e)⟩
      cases e
      exact Leads.nil i
  | cons name rest ih =>
    unfold Namespace.walk
    rw [Prog.bind_assoc]
    refine ends_ilock (by rw [hl]) (hs.imp_left fun hs => hs.2.1) fun s1 hl1 hc1 hi1 ht => ?_
    have hback : ∀ {s'}, After s1 (update s1.lock i none) s' → After s unlocked s' := by
      intro s' h'
      exact ⟨by rw [h'.lock, hl1, hl, only_release], h'.rest.trans hc1, hi1 ▸ h'.inode⟩
    split
    · rename_i htd
      rw [Prog.bind_assoc]
      refine ends_iunlockput fun s' h' => h none s' (.none (hback h') fun j n hf => htd (hf.dir (List.cons_ne_nil _ _)))
    · rename_i htd
      rw [not_not] at htd
      split
      · rename_i hp
        simp only [Bool.and_eq_true, List.isEmpty_iff] at hp
        obtain ⟨rfl, rfl⟩ := hp
        rw [Prog.bind_assoc]
        refine ends_iunlock (h (some (i, name)) _ ⟨⟨by simp only [hl1, hl, only_release], hc1, ?_⟩, ?_, ?_, fun _ _ e => by cases e⟩)
        · simp only [hi1]; exact Frees.refl _
        · intro j n e
          cases e
          exact ⟨[], rfl, .nil i, htd⟩
        · intro _ j n e
          cases e
          simp only [hi1]
      · rename_i hp
        rw [Prog.bind_assoc]
        refine ends_dirlookup (by rw [hi1]; exact htd) fun s2 hl2 hc2 hi2 => ?_
        rw [hi1]
        have hback2 : ∀ {s'}, After s2 (update s2.lock i none) s' → After s unlocked s' := by
          intro s' h'
          exact hback ⟨by rw [h'.lock, hl2], h'.rest.trans hc2, hi2 ▸ h'.inode⟩
        cases hlk : lookup name (s.inode i).ents with
        | none =>
          simp only [Prog.bind_assoc]
          refine ends_iunlockput fun s' h' => h none s' (.none (hback2 h') fun j n hf => ?_)
          obtain ⟨l, k, hl', _⟩ := hf.next (by simpa using hp)
          rw [hlk] at hl'
          cases hl'
        | some x =>
          obtain ⟨next, slot⟩ := x
          simp only [Prog.bind_assoc]
          refine ends_iunlockput fun s' h' => ?_
          have h1 := hback2 h'
          have hnext : Closed s.inode → Safe (s.inode i) → Safe (s.inode next) :=
            fun hc hi => hc i ⟨htd, hi.2⟩ name next slot hlk
          refine ih h1.lock ?_ fun r s'' h'' => h r s'' ⟨h1.trans h''.after, fun j n e => ?_, fun hpar j n e => ?_, ?_⟩
          · refine hs.imp_left fun hs => ⟨Frees.closed h1.inode hs.1, ?_⟩
            rw [Frees.safe h1.inode (hnext hs.1 hs.2)]
            exact hnext hs.1 hs.2
          · exact .cons htd hlk ((Frees.within h1.inode).found (h''.found j n e))
          · subst hpar
            obtain ⟨_, _, _, hdir⟩ := h''.found j n e
            rw [h''.same rfl j n e]
            exact Frees.dir h1.inode hdir
          · intro hc hi e j n hf
            obtain ⟨l, k, hl', hf'⟩ := hf.next (by simpa using hp)
            rw [hlk] at hl'
            cases hl'
            have hsn := hnext hc hi
            refine h''.missing (Frees.closed h1.inode hc) ?_ e j n (hf'.frees h1.inode hc hsn)
            rw [Frees.safe h1.inode hsn]
            exact hsn

/-- Where the walk along a path begins. -/
def start (p : P) (s : St P) (path : List UInt8) : Nat := if path.head? = some slash then rootIno else s.cwd p

omit [DecidableEq P] in
theorem start_rest {p : P} {s : St P} (h : rest s' = rest s) (path : List UInt8) : start p s' path = start p s path := by
  have hc : s'.cwd = s.cwd := congrArg Prod.fst h
  simp only [start, hc]

theorem ends_namex {path : List UInt8} {k : Option (Nat × Name) → M P α} (hl : s.lock = unlocked)
    (hs : Closed s.inode ∧ Safe (s.inode (start p s path)) ∨ B .noType)
    (h : ∀ r s', Walked s parent (elems path) (start p s path) r s' → Ends exec p (k r) s' Q B W) :
    Ends exec p (namex path parent >>= k) s Q B W := by
  have hfrom : ∀ {i r s'}, Walked (addRef s i) parent (elems path) i r s' → Walked s parent (elems path) i r s' :=
    fun h' => ⟨⟨h'.after.lock, h'.after.rest, h'.after.inode⟩, h'.found, h'.same, h'.missing⟩
  unfold namex
  unfold start at hs h
  split
  · rename_i hp
    rw [if_pos hp] at hs h
    rw [Prog.bind_assoc]
    refine ends_perform rfl ?_
    exact ends_walk hl hs fun r s' h' => h r s' (hfrom h')
  · rename_i hp
    rw [if_neg hp] at hs h
    rw [Prog.bind_assoc]
    refine ends_perform rfl ?_
    exact ends_walk hl hs fun r s' h' => h r s' (hfrom h')

/-- The parent directory of a path, and its last element. -/
abbrev Parent (m : Nat → Node) (i : Nat) (path : List UInt8) (dp : Nat) (name : Name) : Prop :=
  Found m true (elems path) i dp name

theorem Found.parent_dir (h : Found m true names i dp name) : (m dp).type = some .dir := by
  obtain ⟨_, _, _, hd⟩ := h
  exact hd

/-! ## `create` -/

variable {t : FileType}

theorem ends_iallocFrom {is : List Nat} {k : Nat → M P α} (hfree : (∃ i ∈ is, (s.inode i).type = none) ∨ B .noInodes)
    (h : ∀ i s', i ∈ is → (s.inode i).type = none → s'.lock = s.lock → rest s' = rest s →
      s'.inode = update s.inode i (Node.blank (some t)) → Ends exec p (k i) s' Q B W) :
    Ends exec p (iallocFrom t is >>= k) s Q B W := by
  induction is with
  | nil =>
    refine Ends.fail rfl (hfree.resolve_left ?_)
    intro ⟨i, hi, _⟩
    cases hi
  | cons i is ih =>
    unfold iallocFrom
    rw [Prog.bind_assoc]
    by_cases e : (s.inode i).type = none
    · refine ends_perform (show exec p (Act.claim i t) s = .ok (true, setInode s i (Node.blank (some t))) by
        simp [exec, e]) ?_
      rw [if_pos rfl, Prog.bind_assoc]
      refine ends_perform rfl ?_
      exact h i _ List.mem_cons_self e rfl rfl rfl
    · refine ends_perform (show exec p (Act.claim i t) s = .ok (false, s) by simp [exec, e]) ?_
      rw [if_neg Bool.false_ne_true]
      refine ih (hfree.imp_left ?_) fun j s' hj => h j s' (List.mem_cons_of_mem _ hj)
      intro ⟨j, hj, ht⟩
      rcases List.mem_cons.mp hj with rfl | hj
      · exact absurd ht e
      · exact ⟨j, hj, ht⟩

theorem ends_dirlink_new {k : Int → M P α} (ht : (s.inode dp).type = some .dir)
    (hl : lookup name (s.inode dp).ents = none) (hf : fits (s.inode dp).ents = true ∨ B .dirlink)
    (h : ∀ s', fits (s.inode dp).ents = true → s'.lock = s.lock → rest s' = rest s → s'.inode = update s.inode dp
      { s.inode dp with ents := put ⟨inum % 65536, name⟩ (s.inode dp).ents } → Ends exec p (k 0) s' Q B W) :
    Ends exec p (dirlink dp name inum >>= k) s Q B W := by
  unfold dirlink
  rw [Prog.bind_assoc]
  refine ends_dirlookup ht fun s1 hl1 hc1 hi1 => ?_
  rw [hl]
  simp only [Prog.bind_assoc]
  by_cases e : fits (s.inode dp).ents = true
  · refine ends_perform (show exec p (Act.enter dp name inum) s1 = .ok ((), setInode s1 dp
      { s1.inode dp with ents := put ⟨inum % 65536, name⟩ (s1.inode dp).ents }) by simp [exec, hi1, e]) ?_
    exact h _ e hl1 hc1 (by simp only [setInode, hi1])
  · exact Ends.fail (show exec p (Act.enter dp name inum) s1 = .fail .dirlink by simp [exec, hi1, e]) (hf.resolve_left e)

theorem ends_dirlink_old {slot : Nat} {k : Int → M P α} (ht : (s.inode dp).type = some .dir)
    (hl : lookup name (s.inode dp).ents = some (ip, slot)) (hip : s.lock ip = none)
    (h : ∀ s', After s s.lock s' → Ends exec p (k (-1)) s' Q B W) : Ends exec p (dirlink dp name inum >>= k) s Q B W := by
  unfold dirlink
  rw [Prog.bind_assoc]
  refine ends_dirlookup ht fun s1 hl1 hc1 hi1 => ?_
  rw [hl]
  simp only [Prog.bind_assoc]
  refine ends_iput (by rw [hl1]; exact hip) fun s' h' => ?_
  exact h s' ⟨h'.lock.trans hl1, h'.rest.trans hc1, hi1 ▸ h'.inode⟩

/-- The name is the directory's own: `iput` waits for the lock its caller holds. -/
theorem ends_dirlink_self {slot : Nat} {k : Int → M P α} (ht : (s.inode dp).type = some .dir)
    (hl : lookup name (s.inode dp).ents = some (dp, slot)) (hdp : s.lock dp = some p) (hw : W) :
    Ends exec p (dirlink dp name inum >>= k) s Q B W := by
  unfold dirlink
  rw [Prog.bind_assoc]
  refine ends_dirlookup ht fun s1 hl1 _ _ => ?_
  rw [hl]
  simp only [Prog.bind_assoc]
  unfold iput
  rw [Prog.bind_assoc]
  exact Ends.wait (show exec p (Act.acquiresleep dp) s1 = .wait by simp only [exec, hl1, hdp]) hw

/-- A new inode and its parent after `create`. -/
def newNode (t : FileType) (major minor : Int) (dp ip : Nat) : Node :=
  ⟨some t, major, minor, 1, if t = .dir then [⟨ip % 65536, dot⟩, ⟨dp % 65536, dotdot⟩] else []⟩

def withEntry (n : Node) (t : FileType) (name : Name) (ip : Nat) : Node :=
  { n with nlink := if t = .dir then short (n.nlink + 1) else n.nlink, ents := put ⟨ip % 65536, name⟩ n.ents }

structure Created (m m' : Nat → Node) (dp ip : Nat) (name : Name) (t : FileType) (major minor : Int) : Prop where
  free : (m ip).type = none
  node : m' ip = newNode t major minor dp ip
  parent : m' dp = withEntry (m dp) t name ip
  other : ∀ j, j ≠ ip → j ≠ dp → m' j = m j

theorem fits_nil : fits [] = true := by decide

theorem ends_createBody {major minor : Int} (hne : dp ≠ ip) (h16 : ip % 65536 ≠ 0)
    (hip : s.inode ip = ⟨some t, major, minor, 1, []⟩)
    (h : ∀ s', s'.lock = s.lock → rest s' = rest s → s'.inode ip = newNode t major minor dp ip →
      s'.inode dp = { s.inode dp with nlink := if t = .dir then short ((s.inode dp).nlink + 1) else (s.inode dp).nlink } →
      (∀ j, j ≠ ip → j ≠ dp → s'.inode j = s.inode j) → Ends exec p (k ()) s' Q B W) :
    Ends exec p (createBody dp ip t >>= k) s Q B W := by
  unfold createBody
  by_cases ht : t = .dir
  · subst ht
    rw [if_pos rfl]
    unfold createDots
    rw [Prog.bind_assoc]
    refine ends_perform rfl ?_
    rw [Prog.bind_assoc]
    have h1 : (setInode s dp { s.inode dp with nlink := short ((s.inode dp).nlink + 1) }).inode ip =
        ⟨some .dir, major, minor, 1, []⟩ := by
      simp only [setInode, update_of_ne hne.symm, hip]
    refine ends_dirlink_new (by rw [h1]) (by rw [h1]; rfl) (.inl (by rw [h1]; exact fits_nil)) fun s2 _ hl2 hc2 hi2 => ?_
    rw [if_neg (by decide), Prog.bind_assoc]
    have h2 : s2.inode ip = ⟨some .dir, major, minor, 1, [⟨ip % 65536, dot⟩]⟩ := by
      rw [hi2, update_self, h1]
      rfl
    have hl : lookup dotdot (s2.inode ip).ents = none := by
      rw [h2]
      refine lookup_none.mpr fun x hx _ => ?_
      rw [List.mem_singleton.mp hx]
      exact show dot ≠ dotdot by decide
    have hfit : fits (s2.inode ip).ents = true := by
      rw [h2]
      simp [fits, show 1 < maxEnts by decide]
    refine ends_dirlink_new (by rw [h2]) hl (.inl hfit) fun s3 _ hl3 hc3 hi3 => ?_
    rw [if_neg (by decide)]
    refine h s3 (hl3.trans hl2) (hc3.trans hc2) ?_ ?_ ?_
    · have hput : put ⟨dp % 65536, dotdot⟩ [⟨ip % 65536, dot⟩] = [⟨ip % 65536, dot⟩, ⟨dp % 65536, dotdot⟩] := by
        simp [put, h16]
      rw [hi3, update_self, h2]
      simp [newNode, hput]
    · rw [hi3, update_of_ne hne, hi2, update_of_ne hne]
      simp [setInode]
    · intro j hj hj'
      rw [hi3, update_of_ne hj, hi2, update_of_ne hj]
      simp [setInode, hj']
  · rw [if_neg ht]
    refine h s rfl rfl ?_ ?_ fun _ _ _ => rfl
    · simp [hip, newNode, ht]
    · simp [ht]

theorem ends_createNew {N : Nat} {major minor : Int} {k : Option Nat → M P α}
    (hN : N ≤ 65536) (hl : s.lock = only p dp) (hdir : (s.inode dp).type = some .dir)
    (hlk : lookup name (s.inode dp).ents = none) (hroom : fits (s.inode dp).ents = true ∨ B .dirlink)
    (hfree : (∃ i, 0 < i ∧ i < N ∧ (s.inode i).type = none) ∨ B .noInodes)
    (h : ∀ ip m' s', fits (s.inode dp).ents = true → 0 < ip → ip < N → Created s.inode m' dp ip name t major minor →
      s'.lock = only p ip → rest s' = rest s → Frees m' s'.inode → Ends exec p (k (some ip)) s' Q B W) :
    Ends exec p (createNew N dp name t major minor >>= k) s Q B W := by
  unfold createNew ialloc
  simp only [Prog.bind_assoc]
  refine ends_iallocFrom (hfree.imp_left ?_) fun ip s1 hip hnone hl1 hc1 hi1 => ?_
  · intro ⟨i, h0, hi, ht⟩
    exact ⟨i, by rw [List.mem_range'_1]; omega, ht⟩
  rw [List.mem_range'_1] at hip
  have hne : dp ≠ ip := by intro e; rw [e, hnone] at hdir; cases hdir
  have hlock1 : s1.lock ip = none := by rw [hl1, hl, only_ne hne.symm]
  have hip1 : s1.inode ip = Node.blank (some t) := by rw [hi1, update_self]
  refine ends_ilock hlock1 (.inl (by rw [hip1]; exact Option.some_ne_none _)) fun s2 hl2 hc2 hi2 _ => ?_
  refine ends_perform rfl ?_
  have hip3 : (setInode s2 ip { s2.inode ip with major := major, minor := minor, nlink := 1 }).inode ip =
      ⟨some t, major, minor, 1, []⟩ := by
    simp only [setInode, update_self, hi2, hip1, Node.blank]
  refine ends_createBody hne (by omega) hip3 fun s4 hl4 hc4 hip4 hdp4 ho4 => ?_
  have hdp3 : (setInode s2 ip { s2.inode ip with major := major, minor := minor, nlink := 1 }).inode dp = s.inode dp := by
    simp only [setInode, update_of_ne hne, hi2, hi1]
  rw [hdp3] at hdp4
  refine ends_dirlink_new (by rw [hdp4]; exact hdir) (by rw [hdp4]; exact hlk) (hroom.imp_left (by rw [hdp4]; exact id))
    fun s5 hfit hl5 hc5 hi5 => ?_
  rw [if_neg (by decide), Prog.bind_assoc]
  refine ends_iunlockput fun s6 h6 => ?_
  have hlock5 : s5.lock = update (only p dp) ip (some p) := by
    rw [hl5, hl4]
    show s2.lock = _
    rw [hl2, hl1, hl]
  refine h ip s5.inode s6 (by rw [hdp4] at hfit; exact hfit) (by omega) (by omega) ⟨hnone, ?_, ?_, ?_⟩ ?_ ?_ h6.inode
  · rw [hi5, update_of_ne hne.symm, hip4]
  · rw [hi5, update_self, hdp4]
    rfl
  · intro j hj hj'
    rw [hi5, update_of_ne hj', ho4 j hj hj']
    simp only [setInode, update_of_ne hj, hi2, hi1]
  · rw [h6.lock, hlock5, two_release hne]
  · rw [h6.rest, hc5, hc4]
    show rest s2 = _
    rw [hc2, hc1]

/-- The path's last element is new in the directory before it. -/
def NewName (m : Nat → Node) (i : Nat) (path : List UInt8) (dp : Nat) (name : Name) : Prop :=
  Parent m i path dp name ∧ lookup name (m dp).ents = none

theorem ends_create {N : Nat} {path : List UInt8} {major minor : Int} {k : Option Nat → M P α}
    (hN : N ≤ 65536) (hl : s.lock = unlocked) (hs : Closed s.inode ∧ Safe (s.inode (start p s path)) ∨ B .noType)
    (hent : ∀ dp name ip slot, Parent s.inode (start p s path) path dp name →
      lookup name (s.inode dp).ents = some (ip, slot) → Safe (s.inode ip) ∨ B .noType)
    (hroom : ∀ dp name, NewName s.inode (start p s path) path dp name → fits (s.inode dp).ents = true ∨ B .dirlink)
    (hfree : (∃ i, 0 < i ∧ i < N ∧ (s.inode i).type = none) ∨ B .noInodes)
    (hnone : ∀ s', After s unlocked s' → (Closed s.inode → Safe (s.inode (start p s path)) →
      ∀ dp name, ¬ NewName s.inode (start p s path) path dp name) → Ends exec p (k none) s' Q B W)
    (hold : ∀ ip s', After s (only p ip) s' → (s'.inode ip).type = some .file →
      (∀ dp name, ¬ NewName s.inode (start p s path) path dp name) → Ends exec p (k (some ip)) s' Q B W)
    (hnew : ∀ dp name ip m m' s', NewName s.inode (start p s path) path dp name → fits (s.inode dp).ents = true →
      0 < ip → ip < N → Frees s.inode m → m dp = s.inode dp → Created m m' dp ip name t major minor →
      s'.lock = only p ip → rest s' = rest s → Frees m' s'.inode → Ends exec p (k (some ip)) s' Q B W) :
    Ends exec p (create N path t major minor >>= k) s Q B W := by
  unfold create nameiparent
  rw [Prog.bind_assoc]
  refine ends_namex hl hs fun r s1 h1 => ?_
  cases r with
  | none => exact hnone s1 h1.after fun hc hi dp name hp => h1.missing hc hi rfl dp name hp.1
  | some x =>
    obtain ⟨dp, name⟩ := x
    have hpar := h1.found dp name rfl
    have hdp := h1.same rfl dp name rfl
    have hdir := hpar.parent_dir
    simp only [Prog.bind_assoc]
    refine ends_ilock (by rw [h1.after.lock]) (.inl (by rw [hdp, hdir]; exact Option.some_ne_none _))
      fun s2 hl2 hc2 hi2 _ => ?_
    have h2 : After s (only p dp) s2 := ⟨by rw [hl2, h1.after.lock], hc2.trans h1.after.rest, hi2 ▸ h1.after.inode⟩
    refine ends_dirlookup (by rw [hi2, hdp]; exact hdir) fun s3 hl3 hc3 hi3 => ?_
    have h3 : After s (only p dp) s3 := ⟨hl3.trans h2.lock, hc3.trans h2.rest, hi3 ▸ h2.inode⟩
    have hdp3 : s3.inode dp = s.inode dp := by rw [hi3, hi2, hdp]
    rw [show s2.inode dp = s.inode dp by rw [hi2, hdp]]
    cases hlk : lookup name (s.inode dp).ents with
    | none =>
      refine ends_createNew hN h3.lock (by rw [hdp3]; exact hdir) (by rw [hdp3]; exact hlk)
        (by rw [hdp3]; exact hroom dp name ⟨hpar, hlk⟩) (hfree.imp_left ?_) ?_
      · intro ⟨i, h0, hi, ht⟩
        refine ⟨i, h0, hi, ?_⟩
        have := h3.inode i
        grind
      · intro ip m' s' hfit h0 hi hc hl' hc' hf
        exact hnew dp name ip s3.inode m' s' ⟨hpar, hlk⟩ (hdp3 ▸ hfit) h0 hi h3.inode hdp3 hc hl' (hc'.trans h3.rest) hf
    | some x =>
      obtain ⟨ip, slot⟩ := x
      have hold' : ∀ dp' name', ¬ NewName s.inode (start p s path) path dp' name' := by
        intro dp' name' ⟨hp', hl'⟩
        obtain ⟨rfl, rfl⟩ := hpar.det hp'
        rw [hlk] at hl'
        cases hl'
      simp only
      unfold createOld
      rw [Prog.bind_assoc]
      refine ends_iunlockput fun s4 h4 => ?_
      have h4' : After s unlocked s4 := by
        refine (h3.trans h4).trans ⟨?_, rfl, Frees.refl _⟩
        rw [h4.lock, h3.lock, only_release]
      rw [Prog.bind_assoc]
      have hsafe := hent dp name ip slot hpar hlk
      refine ends_ilock (by rw [h4'.lock]) (hsafe.imp_left fun h' => by rw [Frees.safe h4'.inode h']; exact h'.1)
        fun s5 hl5 hc5 hi5 _ => ?_
      have h5 : After s (only p ip) s5 := ⟨by rw [hl5, h4'.lock], hc5.trans h4'.rest, hi5 ▸ h4'.inode⟩
      split
      · rename_i hfile
        exact hold ip s5 h5 (by rw [hi5]; exact hfile.2) hold'
      · rw [Prog.bind_assoc]
        refine ends_iunlockput fun s6 h6 => ?_
        refine hnone s6 ((h5.trans h6).trans ⟨?_, rfl, Frees.refl _⟩) fun _ _ => hold'
        rw [h6.lock, h5.lock, only_release]

/-! ## `sys_link` -/

theorem ends_beginOp (h : ∀ s', After s s.lock s' → s'.inode = s.inode → Ends exec p (k ()) s' Q B W) :
    Ends exec p (beginOp >>= k) s Q B W :=
  ends_perform rfl (h _ ⟨rfl, rfl, Frees.refl _⟩ rfl)

theorem ends_endOp (h : ∀ s', After s s.lock s' → s'.inode = s.inode → Ends exec p (k ()) s' Q B W) :
    Ends exec p (endOp >>= k) s Q B W :=
  ends_perform rfl (h _ ⟨rfl, rfl, Frees.refl _⟩ rfl)

/-- `return -1` after `end_op`. -/
theorem ends_fail {Q : Int → St P → Prop} (h : ∀ s', After s s.lock s' → Q (-1) s') :
    Ends exec p (do endOp; return -1) s Q B W := ends_endOp fun s' h' _ => h s' h'

/-- The links of an inode stay in the range of a `short`. -/
def Counts (m : Nat → Node) : Prop := ∀ i, (m i).type ≠ none → 0 ≤ (m i).nlink ∧ (m i).nlink < 32767

theorem short_eq {n : Int} (h0 : 0 ≤ n) (h1 : n ≤ 32767) : short n = n := by
  unfold short
  rw [Int.bmod_eq_of_le_mul_two] <;> omega

def incrNode (n : Node) : Node := { n with nlink := short (n.nlink + 1) }

def decrNode (n : Node) : Node := { n with nlink := short (n.nlink - 1) }

variable {n : Node}

theorem decr_incr (h : 0 ≤ n.nlink ∧ n.nlink < 32767) : decrNode (incrNode n) = n := by
  unfold decrNode incrNode
  simp only
  rw [short_eq (n := n.nlink + 1) (by omega) (by omega), Int.add_sub_cancel, short_eq h.1 (by omega)]

theorem nlink_incr (h : 0 ≤ n.nlink ∧ n.nlink < 32767) : (incrNode n).nlink = n.nlink + 1 :=
  short_eq (by omega) (by omega)

theorem safe_incr (ht : n.type ≠ none) (h : 0 ≤ n.nlink ∧ n.nlink < 32767) : Safe (incrNode n) :=
  ⟨ht, by rw [nlink_incr h]; omega⟩

theorem Closed.incr (hc : Closed m) (ht : (m ip).type ≠ some .dir)
    (hn : 0 ≤ (m ip).nlink ∧ (m ip).nlink < 32767) : Closed (update m ip (incrNode (m ip))) := by
  intro d hd name i k hl
  have hs := hc d
  have := fun hs => safe_incr hs hn
  grind [update_apply, Linked, Safe, incrNode]

theorem within_update (ht : n.type ≠ some .dir) : Within (update m ip n) m := by
  intro i hi
  grind [update_apply]

/-- An inode that was changed, and is set back, is as if it had not been. -/
theorem frees_restore (h : Frees (update m ip n) m') : Frees m (update m' ip (m ip)) := by
  intro i
  have := h i
  grind [update_apply]

theorem ends_linkBad {Q : Int → St P → Prop} (hl : s.lock = unlocked) (ht : (m ip).type ≠ none)
    (hn : 0 ≤ (m ip).nlink ∧ (m ip).nlink < 32767) (hm : Frees (update m ip (incrNode (m ip))) s.inode)
    (h : ∀ s', s'.lock = unlocked → rest s' = rest s → Frees m s'.inode → Q (-1) s') :
    Ends exec p (linkBad ip) s Q B W := by
  have hip : s.inode ip = incrNode (m ip) := by
    have := Frees.safe hm (i := ip) (by rw [update_self]; exact safe_incr ht hn)
    rw [this, update_self]
  unfold linkBad
  refine ends_ilock (by rw [hl]) (.inl (by rw [hip]; exact ht)) fun s1 hl1 hc1 hi1 _ => ?_
  refine ends_perform rfl ?_
  refine ends_iunlockput fun s2 h2 => ?_
  refine ends_fail fun s3 h3 => ?_
  have hl2 : s2.lock = unlocked := by
    rw [h2.lock]
    show update s1.lock ip none = _
    rw [hl1, hl, only_release]
  refine h s3 (h3.lock.trans hl2) (h3.rest.trans (h2.rest.trans hc1)) ?_
  refine Frees.trans ?_ (h2.inode.trans h3.inode)
  show Frees m (update s1.inode ip (decrNode (s1.inode ip)))
  rw [hi1, hip, decr_incr hn]
  exact frees_restore hm

/-- A new entry to `ip`, and the link it is. -/
structure Entered (m m' : Nat → Node) (dp ip : Nat) (name : Name) : Prop where
  node : m' ip = incrNode (m ip)
  parent : m' dp = { m dp with ents := put ⟨ip % 65536, name⟩ (m dp).ents }
  other : ∀ j, j ≠ ip → j ≠ dp → m' j = m j

/-- `sys_link` once the count is incremented: `m` are the inodes before that. -/
theorem ends_linkIn {Q : Int → St P → Prop} (hl : s.lock = unlocked)
    (ht : (m ip).type ≠ none) (htd : (m ip).type ≠ some .dir) (hn : 0 ≤ (m ip).nlink ∧ (m ip).nlink < 32767)
    (hm : Frees (update m ip (incrNode (m ip))) s.inode) (hdp : s.inode dp = m dp)
    (hdir : (m dp).type = some .dir) (hself : ∀ k, lookup name (m dp).ents = some (dp, k) → W)
    (hroom : lookup name (m dp).ents = none → fits (m dp).ents = true ∨ B .dirlink)
    (hbad : ∀ j k s', lookup name (m dp).ents = some (j, k) → j ≠ dp → s'.lock = unlocked → rest s' = rest s →
      Frees m s'.inode → Q (-1) s')
    (h : ∀ m' m1 s', Frees m m1 → m1 ip = m ip → m1 dp = m dp → lookup name (m dp).ents = none → fits (m dp).ents = true →
      Entered m1 m' dp ip name → s'.lock = unlocked → rest s' = rest s → Frees m' s'.inode → Q 0 s') :
    Ends exec p (linkIn dp name ip) s Q B W := by
  have hne : ip ≠ dp := by intro e; rw [e] at htd; exact htd hdir
  unfold linkIn
  refine ends_ilock (by rw [hl]) (.inl (by rw [hdp, hdir]; exact Option.some_ne_none _)) fun s1 hl1 hc1 hi1 _ => ?_
  have hdp1 : s1.inode dp = m dp := by rw [hi1, hdp]
  have hlock1 : s1.lock = only p dp := by rw [hl1, hl]
  cases hlk : lookup name (m dp).ents with
  | some x =>
    obtain ⟨j, slot⟩ := x
    by_cases hj : j = dp
    · subst hj
      exact ends_dirlink_self (by rw [hdp1]; exact hdir) (by rw [hdp1]; exact hlk)
        (by rw [hlock1]; exact update_self ..) (hself slot hlk)
    refine ends_dirlink_old (by rw [hdp1]; exact hdir) (by rw [hdp1]; exact hlk) (by rw [hlock1, only_ne hj])
      fun s2 h2 => ?_
    rw [if_pos (by decide)]
    refine ends_iunlockput fun s3 h3 => ?_
    refine ends_linkBad (m := m) ?_ ht hn ?_ fun s4 hl4 hc4 hi4 => ?_
    · rw [h3.lock, h2.lock, hlock1, only_release]
    · exact (hi1 ▸ hm).trans (h2.inode.trans h3.inode)
    · exact hbad j slot s4 hlk hj hl4 (hc4.trans (h3.rest.trans (h2.rest.trans hc1))) hi4
  | none =>
    refine ends_dirlink_new (by rw [hdp1]; exact hdir) (by rw [hdp1]; exact hlk) (by rw [hdp1]; exact hroom hlk)
      fun s2 hfit hl2 hc2 hi2 => ?_
    rw [if_neg (by decide)]
    refine ends_iunlockput fun s3 h3 => ?_
    have hl3 : s3.lock = unlocked := by rw [h3.lock, hl2, hlock1, only_release]
    refine ends_iput (by rw [hl3]) fun s4 h4 => ?_
    refine ends_endOp fun s5 h5 _ => ?_
    have hm1 : Frees m (update s.inode ip (m ip)) := frees_restore hm
    have hip : s.inode ip = incrNode (m ip) := by
      have := Frees.safe hm (i := ip) (by rw [update_self]; exact safe_incr ht hn)
      rw [this, update_self]
    refine h s2.inode _ s5 hm1 (update_self ..) (by rw [update_of_ne hne.symm, hdp]) hlk (hdp1 ▸ hfit)
      ⟨?_, ?_, ?_⟩ (h5.lock.trans (h4.lock.trans hl3))
      (h5.rest.trans (h4.rest.trans (h3.rest.trans (hc2.trans hc1)))) (h3.inode.trans (h4.inode.trans h5.inode))
    · rw [hi2, update_of_ne hne, hi1, hip, update_self]
    · rw [hi2, update_self, hdp1, update_of_ne hne.symm, hdp]
    · intro j hj hj'
      rw [hi2, update_of_ne hj', hi1, update_of_ne hj]

theorem safe_update (hn : Safe n) (hi : Safe (m i)) : Safe (update m ip n i) := by
  grind [update_apply]

theorem ends_linkTo {new : List UInt8} {Q : Int → St P → Prop} (hl : s.lock = unlocked)
    (hst : start p s new = i) (hi : s.inode = update m ip (incrNode (m ip)))
    (ht : (m ip).type ≠ none) (htd : (m ip).type ≠ some .dir) (hn : 0 ≤ (m ip).nlink ∧ (m ip).nlink < 32767)
    (hs : Closed m ∧ Safe (m i) ∨ B .noType)
    (hself : ∀ dp name k, Parent m i new dp name → lookup name (m dp).ents = some (dp, k) → W)
    (hroom : ∀ dp name, NewName m i new dp name → fits (m dp).ents = true ∨ B .dirlink)
    (hbad : ∀ s', s'.lock = unlocked → rest s' = rest s → Frees m s'.inode → (Closed m → Safe (m i) →
      ∀ dp name, Parent m i new dp name → ∃ j k, lookup name (m dp).ents = some (j, k) ∧ j ≠ dp) → Q (-1) s')
    (h : ∀ dp name m' m1 s', NewName m i new dp name → fits (m dp).ents = true → Frees m m1 → m1 ip = m ip →
      m1 dp = m dp → Entered m1 m' dp ip name → s'.lock = unlocked → rest s' = rest s → Frees m' s'.inode → Q 0 s') :
    Ends exec p (linkTo new ip) s Q B W := by
  subst hst
  have hsafe := safe_incr ht hn
  -- the incremented inode is not a directory: paths lead where they did
  have hw : Within s.inode m := hi ▸ within_update (n := incrNode (m ip)) htd
  have hw' : Within m s.inode := by
    intro j hj
    have e : j ≠ ip := by intro e; subst e; exact htd hj
    rw [hi, update_of_ne e]
    exact ⟨hj, rfl⟩
  have hs' : Closed m → Safe (m (start p s new)) → Closed s.inode ∧ Safe (s.inode (start p s new)) := by
    intro hc hsf
    rw [hi]
    exact ⟨hc.incr htd hn, safe_update hsafe hsf⟩
  unfold linkTo nameiparent
  refine ends_namex hl (hs.imp_left fun hs => hs' hs.1 hs.2) fun r s1 h1 => ?_
  cases r with
  | none =>
    refine ends_linkBad h1.after.lock ht hn (hi ▸ h1.after.inode) fun s2 hl2 hc2 hi2 => ?_
    refine hbad s2 hl2 (hc2.trans h1.after.rest) hi2 fun hc hsf dp name hp => ?_
    obtain ⟨hc', hsf'⟩ := hs' hc hsf
    exact absurd (hw'.found hp) (h1.missing hc' hsf' rfl dp name)
  | some x =>
    obtain ⟨dp, name⟩ := x
    have hpar' := h1.found dp name rfl
    have hpar : Parent m (start p s new) new dp name := hw.found hpar'
    have hdir' := hpar'.parent_dir
    have hne : dp ≠ ip := by
      intro e; subst e
      rw [hi, update_self] at hdir'
      exact htd hdir'
    have hdp : s1.inode dp = m dp := by rw [h1.same rfl dp name rfl, hi, update_of_ne hne]
    refine ends_linkIn h1.after.lock ht htd hn (hi ▸ h1.after.inode) hdp (hw dp hdir').1 (fun k => hself dp name k hpar)
      (fun hlk => hroom dp name ⟨hpar, hlk⟩) ?_ ?_
    · intro j k s2 hlk hj hl2 hc2 hi2
      refine hbad s2 hl2 (hc2.trans h1.after.rest) hi2 fun _ _ dp' name' hp' => ?_
      obtain ⟨rfl, rfl⟩ := hpar.det hp'
      exact ⟨j, k, hlk, hj⟩
    · intro m' m1 s2 hf hip hdp1 hlk hfit he hl2 hc2 hi2
      exact h dp name m' m1 s2 ⟨hpar, hlk⟩ hfit hf hip hdp1 he hl2 (hc2.trans h1.after.rest) hi2

theorem ends_linkOld {old : List UInt8} {k : Option Nat → M P α} (hl : s.lock = unlocked)
    (hs : Closed s.inode ∧ Safe (s.inode (start p s old)) ∨ B .noType)
    (hnone : ∀ s', After s unlocked s' → (Closed s.inode → Safe (s.inode (start p s old)) →
      ∀ ip, Leads s.inode (elems old) (start p s old) ip → (s.inode ip).type = some .dir) → Ends exec p (k none) s' Q B W)
    (hsome : ∀ ip m s', Frees s.inode m → m ip = s.inode ip → Leads s.inode (elems old) (start p s old) ip →
      (m ip).type ≠ none → (m ip).type ≠ some .dir → s'.lock = unlocked → rest s' = rest s →
      s'.inode = update m ip (incrNode (m ip)) → Ends exec p (k (some ip)) s' Q B W) :
    Ends exec p (linkOld old >>= k) s Q B W := by
  unfold linkOld namei
  simp only [Prog.bind_assoc]
  refine ends_beginOp fun s0 h0 hi0 => ?_
  have h0' : After s unlocked s0 := ⟨h0.lock.trans hl, h0.rest, h0.inode⟩
  have hst := start_rest (p := p) h0.rest old
  refine ends_namex h0'.lock (by rw [hi0, hst]; exact hs) fun r s1 h1 => ?_
  have h1' : After s unlocked s1 := h0'.trans h1.after
  have hmiss := h1.missing
  have hfound := h1.found
  rw [hi0, hst] at hmiss hfound
  cases r with
  | none =>
    refine ends_endOp fun s2 h2 _ => hnone s2 (h1'.trans (h1.after.lock ▸ h2)) fun hc hsf ip hlead => ?_
    exact absurd hlead (hmiss hc hsf rfl ip [])
  | some x =>
    obtain ⟨ip, name⟩ := x
    have hlead : Leads s.inode (elems old) (start p s old) ip := hfound ip name rfl
    have hsafe : Safe (s.inode ip) ∨ B .noType := hs.imp_left fun hs => hs.1.leads hlead hs.2
    simp only [Prog.bind_assoc]
    refine ends_ilock (by rw [h1.after.lock]) (hsafe.imp_left fun h' => by rw [Frees.safe h1'.inode h']; exact h'.1)
      fun s2 hl2 hc2 hi2 ht => ?_
    have h2' : After s (only p ip) s2 := ⟨by rw [hl2, h1.after.lock], hc2.trans h1'.rest, hi2 ▸ h1'.inode⟩
    have hip : s1.inode ip = s.inode ip := by
      have := h1'.inode ip
      grind
    split
    · rename_i htd
      simp only [Prog.bind_assoc]
      refine ends_iunlockput fun s3 h3 => ends_endOp fun s4 h4 _ => hnone s4 ?_ fun _ _ ip' hlead' => ?_
      · refine (h2'.trans h3).trans ⟨?_, h4.rest, h4.inode⟩
        rw [h4.lock, h3.lock, h2'.lock, only_release]
      · rw [← hlead.det hlead', ← hip]
        exact htd
    · rename_i htd
      simp only [Prog.bind_assoc]
      refine ends_perform rfl ?_
      refine ends_iunlock (hsome ip s1.inode _ h1'.inode hip hlead ht htd ?_ h2'.rest ?_)
      · show update s2.lock ip none = _
        rw [h2'.lock, only_release]
      · show update s2.inode ip _ = _
        rw [hi2]
        rfl

/-- `sys_link` finds the file and the directory, and does not find the name there, but for
    the directory itself. -/
def LinkGoes (m : Nat → Node) (i : Nat) (old : List UInt8) (j : Nat) (new : List UInt8) : Prop :=
  ∃ ip dp name, Leads m (elems old) i ip ∧ (m ip).type ≠ some .dir ∧ Parent m j new dp name ∧
    ∀ l k, lookup name (m dp).ents = some (l, k) → l = dp

theorem ends_sysLink {old new : List UInt8} {Q : Int → St P → Prop} (hl : s.lock = unlocked)
    (hs : Closed s.inode ∧ Safe (s.inode (start p s old)) ∧ Safe (s.inode (start p s new)) ∨ B .noType)
    (hn : Counts s.inode)
    (hself : ∀ ip dp name k, Leads s.inode (elems old) (start p s old) ip → (s.inode ip).type ≠ some .dir →
      Parent s.inode (start p s new) new dp name → lookup name (s.inode dp).ents = some (dp, k) → W)
    (hroom : ∀ ip dp name, Leads s.inode (elems old) (start p s old) ip → (s.inode ip).type ≠ some .dir →
      NewName s.inode (start p s new) new dp name → fits (s.inode dp).ents = true ∨ B .dirlink)
    (hbad : ∀ s', After s unlocked s' →
      (Closed s.inode → Safe (s.inode (start p s old)) → Safe (s.inode (start p s new)) →
        ¬ LinkGoes s.inode (start p s old) old (start p s new) new) → Q (-1) s')
    (h : ∀ ip dp name m m' s', Frees s.inode m → (m ip).type ≠ none → (m ip).type ≠ some .dir →
      NewName s.inode (start p s new) new dp name → fits (s.inode dp).ents = true → m dp = s.inode dp →
      Entered m m' dp ip name → s'.lock = unlocked → rest s' = rest s → Frees m' s'.inode → Q 0 s') :
    Ends exec p (sysLink old new) s Q B W := by
  unfold sysLink
  refine ends_linkOld hl (hs.imp_left fun hs => ⟨hs.1, hs.2.1⟩) ?_ ?_
  · intro s' h' hdir
    exact hbad s' h' fun hc hsf _ ⟨ip, _, _, hlead, ht, _⟩ => ht (hdir hc hsf ip hlead)
  · intro ip m s1 hm hip hlead ht htd hl1 hr1 hi1
    have htd' : (s.inode ip).type ≠ some .dir := hip ▸ htd
    have hnip : 0 ≤ (m ip).nlink ∧ (m ip).nlink < 32767 := by
      rw [hip]; exact hn ip (hip ▸ ht)
    have hpar : ∀ {dp name}, Parent m (start p s new) new dp name →
        Parent s.inode (start p s new) new dp name ∧ m dp = s.inode dp :=
      fun hp => ⟨(Frees.within hm).found hp, Frees.dir hm hp.parent_dir⟩
    refine ends_linkTo hl1 (start_rest hr1 new) hi1 ht htd hnip ?_ ?_ ?_ ?_ ?_
    · exact hs.imp_left fun hs => ⟨Frees.closed hm hs.1, by rw [Frees.safe hm hs.2.2]; exact hs.2.2⟩
    · intro dp name k hp hlk
      obtain ⟨hp', e⟩ := hpar hp
      rw [e] at hlk
      exact hself ip dp name k hlead htd' hp' hlk
    · intro dp name ⟨hp, hlk⟩
      obtain ⟨hp', e⟩ := hpar hp
      rw [e] at hlk ⊢
      exact hroom ip dp name hlead htd' ⟨hp', hlk⟩
    · intro s' hl' hr' hf hno
      refine hbad s' ⟨hl', hr'.trans hr1, hm.trans hf⟩ fun hc _ hsf ⟨_, dp, name, _, _, hp, hlk⟩ => ?_
      have hp1 := hp.frees hm hc hsf
      obtain ⟨j, k, hlk', hj⟩ := hno (Frees.closed hm hc) (by rw [Frees.safe hm hsf]; exact hsf) dp name hp1
      rw [(hpar hp1).2] at hlk'
      exact hj (hlk j k hlk')
    · intro dp name m' m1 s' ⟨hp, hlk⟩ hfit hf hip1 hdp1 he hl' hr' hf'
      obtain ⟨hp', e⟩ := hpar hp
      rw [e] at hlk hdp1 hfit
      exact h ip dp name m1 m' s' (hm.trans hf) (by rw [hip1]; exact ht) (by rw [hip1]; exact htd) ⟨hp', hlk⟩ hfit hdp1 he hl'
        (hr'.trans hr1) hf'

/-! ## `sys_unlink` -/

theorem ends_unlinkBad {Q : Int → St P → Prop} (hl : s.lock = only p dp) (h : ∀ s', After s unlocked s' → Q (-1) s') :
    Ends exec p (unlinkBad dp) s Q B W := by
  unfold unlinkBad
  refine ends_iunlockput fun s1 h1 => ends_fail fun s2 h2 => h s2 ((h1.trans h2).trans ⟨?_, rfl, Frees.refl _⟩)
  rw [h2.lock, h1.lock, hl, only_release]

/-- The entry in slot `k` is gone, and the links. -/
structure Removed (m m' : Nat → Node) (dp ip k : Nat) : Prop where
  node : m' ip = decrNode (m ip)
  parent : m' dp = { m dp with
    nlink := if (m ip).type = some .dir then short ((m dp).nlink - 1) else (m dp).nlink, ents := (m dp).ents.set k .empty }
  other : ∀ j, j ≠ ip → j ≠ dp → m' j = m j

theorem Frees.update (h : Frees m m') (i : Nat) (n : Node) :
    Frees (update m i n) (update m' i n) := by
  intro j
  have := h j
  grind [update_apply]

theorem ends_dropDots {t : Option FileType}
    (h : ∀ s', s'.lock = s.lock → rest s' = rest s → s'.inode = update s.inode dp
      { s.inode dp with nlink := if t = some .dir then short ((s.inode dp).nlink - 1) else (s.inode dp).nlink } →
      Ends exec p (k ()) s' Q B W) : Ends exec p (dropDots dp t >>= k) s Q B W := by
  unfold dropDots
  split
  · rename_i ht
    exact ends_perform rfl
      (h _ rfl rfl (by simp [setInode, decrNode, ht]))
  · rename_i ht
    refine h s rfl rfl ?_
    simp [ht]

theorem ends_unlinkEntry {k : Nat} {Q : Int → St P → Prop} (hne : ip ≠ dp)
    (hl : s.lock = update (only p dp) ip (some p)) (hip : Safe (s.inode ip))
    (h : ∀ m' s', Removed s.inode m' dp ip k → s'.lock = unlocked → rest s' = rest s → Frees m' s'.inode → Q 0 s') :
    Ends exec p (unlinkEntry dp k ip (s.inode ip).type) s Q B W := by
  unfold unlinkEntry
  refine ends_perform (show exec p (Act.erase dp k) s = .ok ((), setInode s dp
    { s.inode dp with ents := (s.inode dp).ents.set k .empty }) from rfl) ?_
  refine ends_dropDots fun s1 hl1 hc1 hi1 => ?_
  refine ends_iunlockput fun s2 h2 => ?_
  have hip1 : s1.inode ip = s.inode ip := by
    rw [hi1, update_of_ne hne]
    simp [setInode, hne]
  have hip2 : s2.inode ip = s.inode ip := by rw [Frees.safe h2.inode (by rw [hip1]; exact hip), hip1]
  refine ends_perform rfl ?_
  refine ends_iunlockput fun s3 h3 => ?_
  refine ends_endOp fun s4 h4 _ => ?_
  refine h (update s1.inode ip (decrNode (s.inode ip))) s4 ⟨?_, ?_, ?_⟩ ?_ ?_ ?_
  · exact update_self ..
  · rw [update_of_ne hne.symm, hi1, update_self]
    simp [setInode]
  · intro j hj hj'
    rw [update_of_ne hj, hi1, update_of_ne hj']
    simp [setInode, hj']
  · rw [h4.lock, h3.lock]
    show update s2.lock ip none = _
    rw [h2.lock, hl1]
    show update (update s.lock dp none) ip none = _
    rw [hl, two_release hne.symm, only_release]
  · exact h4.rest.trans (h3.rest.trans (h2.rest.trans hc1))
  · refine Frees.trans ?_ (h3.inode.trans h4.inode)
    show Frees _ (update s2.inode ip (decrNode (s2.inode ip)))
    rw [hip2]
    exact Frees.update h2.inode ip _

theorem ends_sysUnlink {path : List UInt8} {Q : Int → St P → Prop} (hl : s.lock = unlocked)
    (hs : Closed s.inode ∧ Safe (s.inode (start p s path)) ∨ B .noType)
    (hent : ∀ dp name ip k, Parent s.inode (start p s path) path dp name → name ≠ dot → name ≠ dotdot →
      lookup name (s.inode dp).ents = some (ip, k) → ip ≠ dp ∧ (Safe (s.inode ip) ∨ B .noType ∧ B .nlink))
    (hbad : ∀ s', After s unlocked s' → Q (-1) s')
    (h : ∀ dp name ip k m m' s', Frees s.inode m → Parent s.inode (start p s path) path dp name → name ≠ dot →
      name ≠ dotdot → lookup name (s.inode dp).ents = some (ip, k) → m dp = s.inode dp → Safe (m ip) →
      ((m ip).type = some .dir → ((m ip).ents.drop 2).all (·.inum = 0) = true) → Removed m m' dp ip k →
      s'.lock = unlocked → rest s' = rest s → Frees m' s'.inode → Q 0 s') :
    Ends exec p (sysUnlink path) s Q B W := by
  unfold sysUnlink nameiparent
  refine ends_beginOp fun s0 h0 hi0 => ?_
  have hst := start_rest (p := p) h0.rest path
  have h0' : After s unlocked s0 := ⟨h0.lock.trans hl, h0.rest, h0.inode⟩
  refine ends_namex h0'.lock (by rw [hi0, hst]; exact hs) fun r s1 h1 => ?_
  have h1' : After s unlocked s1 := h0'.trans h1.after
  have hfound := h1.found
  rw [hi0, hst] at hfound
  cases r with
  | none => exact ends_fail fun s2 h2 => hbad s2 (h1'.trans (h1.after.lock ▸ h2))
  | some x =>
    obtain ⟨dp, name⟩ := x
    have hpar := hfound dp name rfl
    have hdir := hpar.parent_dir
    have hdp1 : s1.inode dp = s.inode dp := by rw [h1.same rfl dp name rfl, hi0]
    refine ends_ilock (by rw [h1.after.lock]) (.inl (by rw [hdp1, hdir]; exact Option.some_ne_none _)) fun s2 hl2 hc2 hi2 _ => ?_
    have h2' : After s (only p dp) s2 := ⟨by rw [hl2, h1.after.lock], hc2.trans h1'.rest, hi2 ▸ h1'.inode⟩
    split
    · exact ends_unlinkBad h2'.lock fun s3 h3 => hbad s3 (h2'.trans h3)
    · rename_i hname
      rw [not_or] at hname
      refine ends_dirlookup (by rw [hi2, hdp1]; exact hdir) fun s3 hl3 hc3 hi3 => ?_
      have h3' : After s (only p dp) s3 := ⟨hl3.trans h2'.lock, hc3.trans h2'.rest, hi3 ▸ h2'.inode⟩
      rw [hi2, hdp1]
      cases hlk : lookup name (s.inode dp).ents with
      | none => exact ends_unlinkBad h3'.lock fun s4 h4 => hbad s4 (h3'.trans h4)
      | some x =>
        obtain ⟨ip, k⟩ := x
        obtain ⟨hne, hsafe⟩ := hent dp name ip k hpar hname.1 hname.2 hlk
        simp only
        unfold unlinkAt
        refine ends_ilock (by rw [h3'.lock, only_ne hne])
          (hsafe.imp (fun h' => by rw [Frees.safe h3'.inode h']; exact h'.1) fun h' => h'.1) fun s4 hl4 hc4 hi4 ht => ?_
        have h4' : After s (update (only p dp) ip (some p)) s4 :=
          ⟨by rw [hl4, h3'.lock], hc4.trans h3'.rest, hi4 ▸ h3'.inode⟩
        by_cases hn : (s3.inode ip).nlink < 1
        · rw [if_pos hn]
          refine Ends.fail rfl (hsafe.resolve_left ?_).2
          intro h'
          have := h'.2
          rw [Frees.safe h3'.inode h'] at hn
          omega
        · have hs4 : Safe (s4.inode ip) := by rw [hi4]; exact ⟨ht, by omega⟩
          have hdp4 : s4.inode dp = s.inode dp := by rw [hi4, hi3, hi2, hdp1]
          rw [if_neg hn, ← hi4]
          split
          · rename_i htd
            refine ends_perform (show exec p (Act.isdirempty ip) s4 =
              .ok (((s4.inode ip).ents.drop 2).all (·.inum = 0), s4) from rfl) ?_
            split
            · rename_i hempty
              exact ends_unlinkEntry hne h4'.lock hs4 fun m' s' hrm hl' hc' hf =>
                h dp name ip k s4.inode m' s' h4'.inode hpar hname.1 hname.2 hlk hdp4 hs4 (fun _ => hempty) hrm hl'
                  (hc'.trans h4'.rest) hf
            · refine ends_iunlockput fun s5 h5 => ?_
              refine ends_unlinkBad ?_ fun s6 h6 => hbad s6 ((h4'.trans h5).trans h6)
              rw [h5.lock, h4'.lock, update_idem]
              exact update_eq_self_iff.mpr (only_ne hne).symm
          · rename_i htd
            exact ends_unlinkEntry hne h4'.lock hs4 fun m' s' hrm hl' hc' hf =>
              h dp name ip k s4.inode m' s' h4'.inode hpar hname.1 hname.2 hlk hdp4 hs4 (fun h' => absurd h' htd) hrm hl'
                (hc'.trans h4'.rest) hf

/-! ## `sys_open` -/

/-- A file structure that is not in use refers to no inode. -/
def FilesClean (s : St P) : Prop := ∀ f, (s.file f).ref = 0 → (s.file f).ip = none

/-- What a call leaves, when it may have opened a file. -/
structure Opened (s s' : St P) : Prop where
  lock : s'.lock = unlocked
  cwd : s'.cwd = s.cwd
  inode : Frees s.inode s'.inode
  files : FilesClean s → FilesClean s'

omit [DecidableEq P] in
theorem FilesClean.rest {s : St P} (h : FilesClean s) (hr : rest s' = rest s) : FilesClean s' := by
  have hf : s'.file = s.file := congrArg Prod.snd hr
  intro f hf0
  rw [hf] at hf0 ⊢
  exact h f hf0

omit [DecidableEq P] in
theorem After.opened {s : St P} (h : After s unlocked s') : Opened s s' :=
  ⟨h.lock, congrArg Prod.fst h.rest, h.inode, fun hf => hf.rest h.rest⟩

theorem ends_openInode {omode : Nat} {Q : Int → St P → Prop} (hl : s.lock = only p ip) (hf : FilesClean s)
    (h : ∀ r s', r = -1 ∨ 0 ≤ r → Opened s s' → Q r s') : Ends exec p (openInode omode ip) s Q B W := by
  have hbad : ∀ {s1 : St P}, s1.lock = only p ip → rest s1 = rest s → s1.inode = s.inode →
      Ends exec p (do iunlockput ip; endOp; return -1) s1 Q B W := by
    intro s1 hl1 hr1 hi1
    refine ends_iunlockput fun s2 h2 => ends_fail fun s3 h3 => h _ s3 (.inl rfl) (After.opened ⟨?_, ?_, ?_⟩)
    · rw [h3.lock, h2.lock, hl1, only_release]
    · exact h3.rest.trans (h2.rest.trans hr1)
    · exact hi1 ▸ h2.inode.trans h3.inode
  unfold openInode
  cases hfind : (List.finRange nfile).find? fun f => (s.file f).ref = 0 with
  | none =>
    refine ends_perform (show exec p Act.filealloc s = .ok (none, s) by simp only [exec, hfind]) ?_
    exact hbad hl rfl rfl
  | some f =>
    have href : (s.file f).ref = 0 := by simpa using List.find?_some hfind
    have hip := hf f href
    refine ends_perform (show exec p Act.filealloc s = .ok (some f, { s with
      file := update s.file f { s.file f with ref := 1 } }) by simp only [exec, hfind]) ?_
    simp only
    cases hfd : (List.finRange nofile).find? fun fd => (s.ofile p fd).isNone with
    | none =>
      refine ends_perform (show exec p (Act.fdalloc f) _ = .ok (none, _) by simp only [exec, hfd]; rfl) ?_
      simp only
      unfold fileclose
      rw [Prog.bind_assoc]
      refine ends_perform (show exec p (Act.fileclose f) _ = .ok (none, { s with file := s.file }) by
        simp only [exec, update_self, update_idem, hip]
        rw [if_neg (by decide), if_neg (by decide)]
        have : ({ s.file f with ref := 0, ip := none } : File) = s.file f := by
          rw [← href, ← hip]
        rw [this, update_eq_self]) ?_
      exact hbad hl rfl rfl
    | some fd =>
      refine ends_perform (show exec p (Act.fdalloc f) _ = .ok (some fd, _) by simp only [exec, hfd]; rfl) ?_
      simp only
      refine ends_iunlock (ends_endOp fun s2 h2 hi2 => ?_)
      refine ends_perform rfl ?_
      have hfile : s2.file = update s.file f { s.file f with ref := 1 } := congrArg Prod.snd h2.rest
      refine h _ _ (.inr (Int.natCast_nonneg _)) ⟨?_, ?_, ?_, fun _ => ?_⟩
      · show s2.lock = _
        rw [h2.lock]
        show update s.lock ip none = _
        rw [hl, only_release]
      · show s2.cwd = _
        exact congrArg Prod.fst h2.rest
      · show Frees s.inode s2.inode
        rw [hi2]
        exact Frees.refl _
      · intro g hg
        have := hf g
        by_cases e : g = f <;> simp_all [File.opened]

end Xv6.Fs.Alone
