/-
  Xv6.Fs.Links — the directories as a tree, and the link counts that go with it.

  `Dirs` gives the entries of each linked directory. `Tree` says that they hang together
  from the root by their entries, each with `.` and `..` in its first two slots; `links`
  counts the entries that refer to an inode. A new entry, a new directory behind its entry,
  and the removal of either keep the tree and change the counts by one. `Consistent` is
  both for the inodes of a disk, and what `create`, `sys_link` and `sys_unlink` do to the
  inodes keeps it.
-/

import Xv6.Fs.Namespace

namespace Xv6.Fs.Links

open Namespace Function

/-! ## Slots -/

/-- The slot `dirlink` writes. -/
def freeSlot : List Dirent → Nat
  | [] => 0
  | x :: xs => if x.inum = 0 then 0 else freeSlot xs + 1

variable {es : List Dirent}

theorem freeSlot_empty {x : Dirent} (h : es[freeSlot es]? = some x) : x.inum = 0 := by
  induction es with
  | nil => cases h
  | cons y ys ih =>
    unfold freeSlot at h
    split at h
    · cases h; assumption
    · exact ih h

theorem getElem?_put (e : Dirent) (es : List Dirent) (j : Nat) :
    (put e es)[j]? = if j = freeSlot es then some e else es[j]? := by
  induction es generalizing j with
  | nil => cases j <;> simp [put, freeSlot]
  | cons x xs ih =>
    unfold put freeSlot
    by_cases hx : x.inum = 0
    · simp only [hx, if_true]
      cases j <;> simp
    · simp only [hx, if_false]
      cases j with
      | zero => simp
      | succ j => simp [ih]

/-- Slot `k` holds `e` now, the others what they did. -/
def Slot (es es' : List Dirent) (k : Nat) (e : Dirent) : Prop := ∀ j, es'[j]? = if j = k then some e else es[j]?

theorem slot_put (e : Dirent) (es : List Dirent) : Slot es (put e es) (freeSlot es) e := getElem?_put e es

variable {k i d : Nat}

theorem slot_set {x : Dirent} (e : Dirent) (h : es[k]? = some x) : Slot es (es.set k e) k e := by
  intro j
  have hk : k < es.length := (List.getElem?_eq_some_iff.mp h).1
  grind

/-- The two entries of a new directory have different names. -/
theorem dots_distinct {a b j : Nat} {x y : Dirent} (hi : [(⟨a, dot⟩ : Dirent), ⟨b, dotdot⟩][i]? = some x)
    (hj : [(⟨a, dot⟩ : Dirent), ⟨b, dotdot⟩][j]? = some y) (h : x.name = y.name) : i = j := by
  rcases i with _ | _ | i <;> rcases j with _ | _ | j <;> simp at hi hj <;> subst hi hj
  · rfl
  · exact absurd h (show dot ≠ dotdot by decide)
  · exact absurd h (show dotdot ≠ dot by decide)
  · rfl

theorem countP_put (p : Dirent → Bool) (hp : ∀ x, x.inum = 0 → p x = false) (e : Dirent) (es : List Dirent) :
    (put e es).countP p = es.countP p + if p e = true then 1 else 0 := by
  induction es with
  | nil => simp [put, List.countP_cons]
  | cons x xs ih =>
    unfold put
    by_cases hx : x.inum = 0
    · simp [hx, List.countP_cons, hp x hx]
    · simp only [hx, if_false, List.countP_cons, ih]
      omega

theorem countP_erase (p : Dirent → Bool) (hp : ∀ x, x.inum = 0 → p x = false) {x : Dirent}
    (h : es[k]? = some x) : (es.set k .empty).countP p + (if p x = true then 1 else 0) = es.countP p := by
  induction es generalizing k with
  | nil => cases h
  | cons y ys ih =>
    cases k with
    | zero =>
      cases h
      simp [List.countP_cons, hp .empty rfl]
    | succ k =>
      have := ih (k := k) h
      simp only [List.set_cons_succ, List.countP_cons]
      omega

/-! ## Lookup -/

variable {name : Name}

theorem lookupFrom_none : lookupFrom name k es = none ↔ ∀ x ∈ es, x.inum ≠ 0 → x.name ≠ name := by
  induction es generalizing k with
  | nil => simp [lookupFrom]
  | cons x xs ih =>
    unfold lookupFrom
    split
    · rename_i h; simp [h.1, h.2]
    · rename_i h
      rw [ih, List.forall_mem_cons]
      exact ⟨fun h' => ⟨fun h0 hn => h ⟨h0, hn⟩, h'⟩, fun h' => h'.2⟩

theorem lookup_none : lookup name es = none ↔ ∀ x ∈ es, x.inum ≠ 0 → x.name ≠ name := lookupFrom_none

theorem lookupFrom_some {j : Nat} (h : lookupFrom name k es = some (i, j)) :
    k ≤ j ∧ es[j - k]? = some ⟨i, name⟩ ∧ i ≠ 0 := by
  induction es generalizing k with
  | nil => cases h
  | cons x xs ih =>
    unfold lookupFrom at h
    split at h
    · rename_i hx
      cases h
      refine ⟨le_rfl, ?_, hx.1⟩
      rw [Nat.sub_self, ← hx.2]
      rfl
    · obtain ⟨hk, hj, h0⟩ := ih h
      refine ⟨by omega, ?_, h0⟩
      rw [show j - k = (j - (k + 1)) + 1 by omega, List.getElem?_cons_succ]
      exact hj

theorem lookup_some (h : lookup name es = some (i, k)) : es[k]? = some ⟨i, name⟩ ∧ i ≠ 0 := (lookupFrom_some h).2

/-! ## The tree -/

/-- The entries of each linked directory. -/
abbrev Dirs := Nat → Option (List Dirent)

/-- Slot `k` of `e` refers to `d` by a name other than `.` and `..`. -/
def Child (G : Dirs) (e k d : Nat) : Prop :=
  ∃ es n, G e = some es ∧ es[k]? = some ⟨d, n⟩ ∧ d ≠ 0 ∧ n ≠ dot ∧ n ≠ dotdot

/-- The linked directories below the root. -/
inductive Reach (G : Dirs) : Nat → Prop where
  | root : Reach G rootIno
  | step {e k d : Nat} (he : Reach G e) (hc : Child G e k d) (hd : G d ≠ none) : Reach G d

structure Tree (A : Nat → Prop) (G : Dirs) : Prop where
  zero : ¬ A 0
  dirs : ∀ d, G d ≠ none → A d
  root : G rootIno ≠ none
  self : ∀ d es, G d = some es → es[0]? = some ⟨d, dot⟩
  rootUp : ∀ es, G rootIno = some es → es[1]? = some ⟨rootIno, dotdot⟩
  rootTop : ∀ e k, ¬ Child G e k rootIno
  up : ∀ d es, d ≠ rootIno → G d = some es →
    ∃ e k, es[1]? = some ⟨e, dotdot⟩ ∧ Child G e k d ∧ ∀ e' k', Child G e' k' d → e' = e ∧ k' = k
  alloc : ∀ d es, G d = some es → ∀ x ∈ es, x.inum ≠ 0 → A x.inum
  distinct : ∀ d es, G d = some es → ∀ (j k : Nat) (x y : Dirent), es[j]? = some x → es[k]? = some y →
    x.inum ≠ 0 → y.inum ≠ 0 → x.name = y.name → j = k
  reach : ∀ d, G d ≠ none → Reach G d

variable {A : Nat → Prop} {G : Dirs}

theorem ne_none (h : G d = some es) : G d ≠ none := by simp [h]

theorem Child.ne_none {e : Nat} (h : Child G e k d) : G e ≠ none := by
  obtain ⟨es, n, he, _⟩ := h
  exact Links.ne_none he

namespace Tree

variable {d k : Nat}

theorem ne_zero (h : Tree A G) (hd : G d ≠ none) : d ≠ 0 := by
  intro e; subst e; exact h.zero (h.dirs 0 hd)

/-- The second slot holds `..`. -/
theorem dots (h : Tree A G) {es : List Dirent} (hd : G d = some es) :
    ∃ e, es[1]? = some ⟨e, dotdot⟩ ∧ e ≠ 0 ∧ G e ≠ none := by
  by_cases hr : d = rootIno
  · subst hr
    exact ⟨_, h.rootUp es hd, by decide, h.root⟩
  · obtain ⟨e, k, h1, hc, _⟩ := h.up d es hr hd
    exact ⟨e, h1, h.ne_zero hc.ne_none, hc.ne_none⟩

theorem child_alloc (h : Tree A G) {e : Nat} (hc : Child G e k d) : A d := by
  obtain ⟨es, n, he, hk, h0, _⟩ := hc
  exact h.alloc e es he _ (List.mem_of_getElem? hk) h0

/-- No directory is its own child. -/
theorem not_own (h : Tree A G) : ¬ Child G d k d := by
  intro hc
  -- the way down to such a directory would lead through it
  have hne : ∀ e, Reach G e → e ≠ d := by
    intro e hr
    induction hr with
    | root => intro e; subst e; exact h.rootTop _ _ hc
    | @step e k' d' _ hc' hd' ih =>
      intro e'
      subst e'
      obtain ⟨es, hes⟩ := Option.ne_none_iff_exists'.mp hd'
      have hr : d' ≠ rootIno := by intro x; subst x; exact h.rootTop _ _ hc'
      obtain ⟨u, j, _, _, hu⟩ := h.up d' es hr hes
      have h1 := (hu _ _ hc).1
      have h2 := (hu _ _ hc').1
      exact ih (h2.trans h1.symm)
  exact hne d (h.reach d hc.ne_none) rfl

/-- A slot that is empty, or holds another name, is not one of the first two. -/
theorem two_le (h : Tree A G) {es : List Dirent} (hd : G d = some es)
    (hk : ∀ x, es[k]? = some x → x.inum ≠ 0 → x.name ≠ dot ∧ x.name ≠ dotdot) : 2 ≤ k := by
  have h0 := h.self d es hd
  obtain ⟨u, hu, hu0, _⟩ := h.dots hd
  have hd0 : d ≠ 0 := h.ne_zero (ne_none hd)
  by_contra hlt
  have : k = 0 ∨ k = 1 := by omega
  rcases this with rfl | rfl
  · exact (hk _ h0 hd0).1 rfl
  · exact (hk _ hu hu0).2 rfl

/-- A slot beyond the first two is filled or emptied; no linked directory is referred to by
    its old or its new entry. -/
theorem set_slot (h : Tree A G) {A' : Nat → Prop} {dp : Nat} {es es' : List Dirent} {x : Dirent} (hA : ∀ i, A i → A' i)
    (hz : ¬ A' 0) (hdp : G dp = some es) (hs : Slot es es' k x) (hk : 2 ≤ k)
    (hold : ∀ y, es[k]? = some y → G y.inum = none) (hnew : x.inum ≠ 0 → G x.inum = none ∧ A' x.inum)
    (hname : x.inum ≠ 0 → ∀ j y, es[j]? = some y → j ≠ k → y.inum ≠ 0 → y.name ≠ x.name) :
    Tree A' (update G dp (some es')) := by
  have hsame : ∀ j, j ≠ k → es'[j]? = es[j]? := fun j hj => by rw [hs j, if_neg hj]
  have hnone : ∀ d, update G dp (some es') d ≠ none ↔ G d ≠ none := by grind [update_apply]
  -- the entries that refer to linked directories are the same
  have hchild : ∀ e j d, G d ≠ none → (Child (update G dp (some es')) e j d ↔ Child G e j d) := by
    intro e j d hd
    by_cases e1 : e = dp
    · subst e1
      simp only [Child, update_self, hdp, Option.some.injEq, exists_eq_left', exists_and_left]
      have := hs j
      grind
    · simp only [Child, update_of_ne e1]
  -- a field of the old tree about a directory's first two slots
  have hget : ∀ d fs, update G dp (some es') d = some fs → ∃ fs0, G d = some fs0 ∧ ∀ j < 2, fs[j]? = fs0[j]? := by
    intro d fs hf
    by_cases e : d = dp
    · subst e
      simp only [update_self, Option.some.injEq] at hf
      subst hf
      exact ⟨es, hdp, fun j hj => hsame j (by omega)⟩
    · exact ⟨fs, by simpa only [update_of_ne e] using hf, fun _ _ => rfl⟩
  refine ⟨hz, fun d hd => hA d (h.dirs d ((hnone d).mp hd)), (hnone _).mpr h.root, ?_, ?_, ?_, ?_, ?_, ?_, ?_⟩
  · intro d fs hf
    obtain ⟨fs0, h0, he⟩ := hget d fs hf
    rw [he 0 (by omega)]
    exact h.self d fs0 h0
  · intro fs hf
    obtain ⟨fs0, h0, he⟩ := hget _ fs hf
    rw [he 1 (by omega)]
    exact h.rootUp fs0 h0
  · intro e j hc
    exact h.rootTop e j ((hchild e j _ h.root).mp hc)
  · intro d fs hr hf
    obtain ⟨fs0, h0, he⟩ := hget d fs hf
    have hd := ne_none h0
    obtain ⟨e, j, h1, hc, hu⟩ := h.up d fs0 hr h0
    exact ⟨e, j, by rw [he 1 (by omega)]; exact h1, (hchild e j d hd).mpr hc,
      fun e' j' hc' => hu e' j' ((hchild e' j' d hd).mp hc')⟩
  · intro d fs hf y hy hy0
    obtain ⟨j, hj⟩ := List.mem_iff_getElem?.mp hy
    have hold := fun gs (hg : G d = some gs) (hj : gs[j]? = some y) => hA _ (h.alloc d gs hg y (List.mem_of_getElem? hj) hy0)
    have := hs j
    grind [update_apply]
  · intro d fs hf j l y z hj hl hy hz' hn
    have := fun gs hg => h.distinct d gs hg j l y z
    have := hs j
    have := hs l
    grind [update_apply]
  · intro d hd
    have hr := h.reach d ((hnone d).mp hd)
    clear hd
    induction hr with
    | root => exact .root
    | step _ hc hd ih => exact .step ih ((hchild _ _ _ hd).mpr hc) ((hnone _).mpr hd)

/-- An allocated inode with one entry becomes a directory. -/
theorem promote (h : Tree A G) {dp ip : Nat} (hip : G ip = none) (hc : Child G dp k ip)
    (hu : ∀ e' k', Child G e' k' ip → e' = dp ∧ k' = k) :
    Tree A (update G ip (some [⟨ip, dot⟩, ⟨dp, dotdot⟩])) := by
  have hroot : ip ≠ rootIno := fun e => h.root (e ▸ hip)
  have hdp := hc.ne_none
  have hdots : ∀ fs, update G ip (some [⟨ip, dot⟩, ⟨dp, dotdot⟩]) ip = some fs → fs = [⟨ip, dot⟩, ⟨dp, dotdot⟩] := by
    grind
  have hother : ∀ d, d ≠ ip → update G ip (some [⟨ip, dot⟩, ⟨dp, dotdot⟩]) d = G d := fun d e => update_of_ne e _ _
  have hchild : ∀ e j d, Child (update G ip (some [⟨ip, dot⟩, ⟨dp, dotdot⟩])) e j d ↔ Child G e j d := by
    intro e j d
    by_cases e1 : e = ip
    · subst e1
      refine iff_of_false ?_ fun hc' => hc'.ne_none hip
      intro ⟨fs, n, hf, hj, _, hn⟩
      rw [hdots fs hf] at hj
      rcases j with _ | _ | j <;> grind
    · simp only [Child, hother e e1]
  refine ⟨h.zero, ?_, ?_, ?_, ?_, ?_, ?_, ?_, ?_, ?_⟩
  · intro d hd
    have := h.child_alloc hc
    have := h.dirs d
    grind
  · rw [hother _ hroot.symm]; exact h.root
  · intro d fs hf
    have := h.self d fs
    grind
  · intro fs hf
    exact h.rootUp fs (by rwa [hother _ hroot.symm] at hf)
  · intro e j hc'
    exact h.rootTop e j ((hchild e j _).mp hc')
  · intro d fs hr hf
    by_cases e : d = ip
    · subst e
      rw [hdots fs hf]
      exact ⟨dp, k, rfl, (hchild ..).mpr hc, fun e' k' hc' => hu e' k' ((hchild ..).mp hc')⟩
    · obtain ⟨u, j, h1, hc', hu'⟩ := h.up d fs hr (by rwa [hother d e] at hf)
      exact ⟨u, j, h1, (hchild ..).mpr hc', fun e' k' h' => hu' e' k' ((hchild ..).mp h')⟩
  · intro d fs hf x hx h0
    have := h.child_alloc hc
    have := h.dirs dp hdp
    have := h.alloc d fs
    grind
  · intro d fs hf i j x y hi hj hx hy hn
    by_cases e : d = ip
    · subst e
      rw [hdots fs hf] at hi hj
      exact dots_distinct hi hj hn
    · exact h.distinct d fs (by rwa [hother d e] at hf) i j x y hi hj hx hy hn
  · have hmono : ∀ d, Reach G d → Reach (update G ip (some [⟨ip, dot⟩, ⟨dp, dotdot⟩])) d := by
      intro d hr
      induction hr with
      | root => exact .root
      | @step _ _ d _ hc' hd ih => exact .step ih ((hchild ..).mpr hc') (by rwa [hother d fun e => hd (e ▸ hip)])
    intro d hd
    by_cases e : d = ip
    · subst e
      exact .step (hmono dp (h.reach dp hdp)) ((hchild ..).mpr hc) hd
    · exact hmono d (h.reach d (by rwa [hother d e] at hd))

/-- A directory without entries of its own is no longer one. -/
theorem demote (h : Tree A G) {ip : Nat} (hr : ip ≠ rootIno) (hc : ∀ k d, ¬ Child G ip k d) :
    Tree A (update G ip none) := by
  have hchild : ∀ e j d, Child (update G ip none) e j d ↔ Child G e j d := by
    intro e j d
    by_cases e1 : e = ip
    · subst e1
      exact iff_of_false (fun h' => h'.ne_none (update_self ..)) (hc j d)
    · simp only [Child, update_of_ne e1]
  have hne : ∀ {d fs}, update G ip none d = some fs → G d = some fs := by grind [update_apply]
  have hin : ∀ d, update G ip none d ≠ none → d ≠ ip ∧ G d ≠ none := by grind [update_apply]
  refine ⟨h.zero, fun d hd => h.dirs d (hin d hd).2, ?_, fun d fs hf => h.self d fs (hne hf), fun fs hf => h.rootUp fs (hne hf),
    fun e j h' => h.rootTop e j ((hchild ..).mp h'), ?_, fun d fs hf => h.alloc d fs (hne hf),
    fun d fs hf => h.distinct d fs (hne hf), ?_⟩
  · rw [update_of_ne hr.symm]; exact h.root
  · intro d fs hd hf
    obtain ⟨u, j, h1, hc', hu'⟩ := h.up d fs hd (hne hf)
    exact ⟨u, j, h1, (hchild ..).mpr hc', fun e' k' h' => hu' e' k' ((hchild ..).mp h')⟩
  · intro d hd
    obtain ⟨hd1, hd2⟩ := hin d hd
    clear hd
    -- the way down to a directory does not lead through `ip`
    induction h.reach d hd2 with
    | root => exact .root
    | @step e k d _ hc' hd' ih =>
      have he : e ≠ ip := by intro x; subst x; exact hc k d hc'
      refine .step (ih he hc'.ne_none) ((hchild ..).mpr hc') ?_
      rw [update_of_ne hd1]
      exact hd2

end Tree

/-! ## Link counts -/

/-- The entries of a directory that refer to `i`, but for `.`. -/
def refs (es : Option (List Dirent)) (i : Nat) : Nat := es.elim 0 fun es => es.countP fun x => x.inum = i ∧ x.name ≠ dot

/-- The entries of all linked directories that refer to `i`, but for `.`. -/
def links (N : Nat) (G : Dirs) (i : Nat) : Nat := ∑ d ∈ Finset.range N, refs (G d) i

theorem links_update {N : Nat} (hd : d < N) (G : Dirs) (x : Option (List Dirent)) (i : Nat) :
    links N (update G d x) i + refs (G d) i = links N G i + refs x i := by
  have hm : d ∈ Finset.range N := Finset.mem_range.mpr hd
  have hrest : ∑ j ∈ (Finset.range N).erase d, refs (update G d x j) i =
      ∑ j ∈ (Finset.range N).erase d, refs (G j) i := by
    refine Finset.sum_congr rfl fun j hj => ?_
    rw [update_of_ne (Finset.ne_of_mem_erase hj)]
  unfold links
  rw [← Finset.add_sum_erase _ _ hm, ← Finset.add_sum_erase (Finset.range N) (fun j => refs (G j) i) hm, hrest,
    update_self]
  ring

theorem refs_none (i : Nat) : refs none i = 0 := rfl

theorem refs_dots {ip dp : Nat} : refs (some [⟨ip, dot⟩, ⟨dp, dotdot⟩]) i = if i = dp then 1 else 0 := by
  have : dotdot ≠ dot := by decide
  by_cases e : i = dp
  · subst e; simp [refs, this]
  · simp [refs, e, Ne.symm e]

theorem refs_put (hi : i ≠ 0) (hn : name ≠ dot) (ip : Nat) (es : List Dirent) :
    refs (some (put ⟨ip, name⟩ es)) i = refs (some es) i + if i = ip then 1 else 0 := by
  simp only [refs, Option.elim_some]
  rw [countP_put _ (fun x hx => by simp [hx, hi.symm])]
  simp [hn, eq_comm]

theorem refs_erase (hi : i ≠ 0) {ip : Nat} (hn : name ≠ dot) (hk : es[k]? = some ⟨ip, name⟩) :
    refs (some (es.set k .empty)) i + (if i = ip then 1 else 0) = refs (some es) i := by
  simp only [refs, Option.elim_some]
  rw [← countP_erase _ (fun x hx => by simp [hx, hi.symm]) hk]
  simp [hn, eq_comm]

theorem one_le_links {N : Nat} {G : Dirs} (hd : d < N) (hG : G d = some es)
    (hk : es[k]? = some ⟨i, name⟩) (hn : name ≠ dot) : 1 ≤ links N G i := by
  have h1 : 1 ≤ refs (G d) i := by
    rw [hG]
    exact List.countP_pos_iff.mpr ⟨_, List.mem_of_getElem? hk, by simp [hn]⟩
  exact h1.trans (Finset.single_le_sum (f := fun j => refs (G j) i) (fun _ _ => Nat.zero_le _) (Finset.mem_range.mpr hd))

theorem links_eq_zero {N : Nat} {G : Dirs}
    (h : ∀ d es (k : Nat) name, G d = some es → es[k]? = some ⟨i, name⟩ → name = dot) : links N G i = 0 := by
  refine Finset.sum_eq_zero fun d _ => ?_
  cases hG : G d with
  | none => rfl
  | some es =>
    refine List.countP_eq_zero.mpr fun x hx => ?_
    obtain ⟨k, hk⟩ := List.mem_iff_getElem?.mp hx
    by_cases e : x.inum = i
    · have := h d es k x.name hG (by rw [hk, ← e])
      simp [this]
    · simp [e]

/-! ## The inodes of a disk -/

def Linked (n : Node) : Prop := n.type = some .dir ∧ 0 < n.nlink

instance (n : Node) : Decidable (Linked n) := inferInstanceAs (Decidable (_ ∧ _))

/-- Allocated, with a link. -/
def Safe (n : Node) : Prop := n.type ≠ none ∧ 0 < n.nlink

def dirs (m : Nat → Node) : Dirs := fun d => if Linked (m d) then some (m d).ents else none

structure Consistent (N : Nat) (m : Nat → Node) : Prop where
  tree : Tree (fun i => (m i).type ≠ none) (dirs m)
  bound : ∀ i, (m i).type ≠ none → i < N
  count : ∀ i, (m i).type ≠ none → (m i).nlink = links N (dirs m) i

theorem dirs_some {m : Nat → Node} : dirs m d = some es ↔ Linked (m d) ∧ (m d).ents = es := by
  unfold dirs; split <;> simp_all

theorem dirs_none {m : Nat → Node} : dirs m d = none ↔ ¬ Linked (m d) := by
  unfold dirs; split <;> simp_all

theorem dirs_of_not_dir {m : Nat → Node} (h : (m d).type ≠ some .dir) : dirs m d = none :=
  dirs_none.mpr fun hl => h hl.1

/-- Inodes without links may be freed. -/
def Frees (m m' : Nat → Node) : Prop :=
  ∀ i, m' i = m i ∨ (m i).nlink = 0 ∧ m' i = { m i with type := none, ents := [] }

variable {N : Nat} {m m' : Nat → Node}

theorem Frees.refl (m : Nat → Node) : Frees m m := fun _ => .inl rfl

theorem Frees.trans {m m' m'' : Nat → Node} (h : Frees m m') (h' : Frees m' m'') : Frees m m'' := by
  intro i
  have := h i
  have := h' i
  grind

theorem Frees.safe (h : Frees m m') (hi : Safe (m i)) : m' i = m i := by
  rcases h i with e | ⟨e, _⟩
  · exact e
  · have := hi.2; omega

theorem Frees.dirs (h : Frees m m') : dirs m' = dirs m := by
  funext d
  rcases h d with e | ⟨h0, e⟩
  · simp only [Links.dirs, e]
  · have h1 : ¬ Linked (m d) := fun hl => by have := hl.2; omega
    have h2 : ¬ Linked (m' d) := fun hl => by have := hl.1; rw [e] at this; cases this
    rw [dirs_none.mpr h1, dirs_none.mpr h2]

namespace Consistent

theorem lt (h : Consistent N m) {d : Nat} (hd : dirs m d ≠ none) : d < N := h.bound d (h.tree.dirs d hd)

/-- What an entry of a linked directory refers to is allocated and has a link. -/
theorem entry_safe (h : Consistent N m) {d k : Nat} {es : List Dirent} {x : Dirent} (hd : dirs m d = some es)
    (hk : es[k]? = some x) (h0 : x.inum ≠ 0) : Safe (m x.inum) := by
  have ha := h.tree.alloc d es hd x (List.mem_of_getElem? hk) h0
  refine ⟨ha, ?_⟩
  by_cases hdot : x.name = dot
  · have hself := h.tree.self d es hd
    have := h.tree.distinct d es hd _ _ _ _ hk hself h0 (h.tree.ne_zero (ne_none hd)) hdot
    subst this
    rw [hself] at hk
    cases hk
    exact (dirs_some.mp hd).1.2
  · have := one_le_links (h.lt (ne_none hd)) hd (show es[k]? = some ⟨x.inum, x.name⟩ from hk) hdot
    have hc := h.count x.inum ha
    omega

theorem frees (h : Consistent N m) (hf : Frees m m') : Consistent N m' := by
  have hA : ∀ i, (m' i).type ≠ none → m' i = m i := by
    intro i hi
    rcases hf i with e | ⟨_, e⟩
    · exact e
    · rw [e] at hi; exact absurd rfl hi
  -- what an entry of a linked directory refers to has a link, and is not freed
  have hkeep : ∀ d es, dirs m d = some es → ∀ x ∈ es, x.inum ≠ 0 → (m' x.inum).type ≠ none := by
    intro d es hd x hx h0
    obtain ⟨k, hk⟩ := List.mem_iff_getElem?.mp hx
    have hs := h.entry_safe hd hk h0
    rw [hf.safe hs]
    exact hs.1
  refine ⟨?_, fun i hi => h.bound i (by rw [← hA i hi]; exact hi), fun i hi => ?_⟩
  · rw [hf.dirs]
    refine { h.tree with zero := fun hi => ?_, dirs := fun d hd => ?_, alloc := hkeep }
    · exact h.tree.zero (by rw [← hA 0 hi]; exact hi)
    · obtain ⟨es, hes⟩ := Option.ne_none_iff_exists'.mp hd
      have hself := h.tree.self d es hes
      exact hkeep d es hes _ (List.mem_of_getElem? hself) (h.tree.ne_zero hd)
  · rw [hf.dirs, hA i hi]
    exact h.count i (by rw [← hA i hi]; exact hi)

/-- Nothing refers to an inode that is not allocated. -/
theorem links_free (h : Consistent N m) {i : Nat} (h0 : i ≠ 0) (hi : (m i).type = none) : links N (dirs m) i = 0 :=
  links_eq_zero fun d es _ _ hd hk =>
    absurd hi (h.tree.alloc d es hd _ (List.mem_of_getElem? hk) h0)

section Ops

variable {dp ip k : Nat} {name : Name} {es : List Dirent}

/-- A name that a linked directory lacks is neither `.` nor `..`. -/
theorem fresh_name (h : Consistent N m) (hdp : dirs m dp = some es) (hl : lookup name es = none) :
    name ≠ dot ∧ name ≠ dotdot := by
  have hl := lookup_none.mp hl
  refine ⟨fun e => ?_, fun e => ?_⟩
  · exact hl _ (List.mem_of_getElem? (h.tree.self dp es hdp))
      (h.tree.ne_zero (ne_none hdp)) e.symm
  · obtain ⟨u, hu, hu0, _⟩ := h.tree.dots hdp
    exact hl _ (List.mem_of_getElem? hu) hu0 e.symm

theorem two_le_freeSlot (h : Consistent N m) (hdp : dirs m dp = some es) : 2 ≤ freeSlot es :=
  h.tree.two_le hdp fun _ hx h0 => absurd (freeSlot_empty hx) h0

theorem dirs_zero (h : Consistent N m) : dirs m 0 = none := by
  by_contra hd
  exact h.tree.zero (h.tree.dirs 0 hd)

/-- The tree with a new entry, to an inode that is not a linked directory. -/
theorem tree_put (h : Consistent N m) {A : Nat → Prop} (hA : ∀ i, (m i).type ≠ none → A i) (hz : ¬ A 0)
    (hdp : dirs m dp = some es) (hl : lookup name es = none) (hip : dirs m ip = none) (hA' : A ip) :
    Tree A (update (dirs m) dp (some (put ⟨ip, name⟩ es))) := by
  refine h.tree.set_slot hA hz hdp (slot_put _ es) (h.two_le_freeSlot hdp) (fun y hy => ?_) (fun _ => ⟨hip, hA'⟩) ?_
  · rw [freeSlot_empty hy]; exact h.dirs_zero
  · intro _ j y hj _ h0
    exact lookup_none.mp hl y (List.mem_of_getElem? hj) h0

/-- A new entry to an inode that is not a directory, with the link it is. -/
theorem add_entry (h : Consistent N m) (hdp : dirs m dp = some es) (hl : lookup name es = none) (h0 : ip ≠ 0) (hN : ip < N)
    (hip : dirs m ip = none) (hip' : dirs m' ip = none) (ht : (m' ip).type ≠ none)
    (hn : (m' ip).nlink = links N (dirs m) ip + 1) (hdp' : m' dp = { m dp with ents := put ⟨ip, name⟩ es })
    (ho : ∀ j, j ≠ ip → j ≠ dp → m' j = m j) : Consistent N m' := by
  have hne : ip ≠ dp := by intro e; rw [e, hdp] at hip; cases hip
  have hlinked := (dirs_some.mp hdp).1
  have hdirs : dirs m' = update (dirs m) dp (some (put ⟨ip, name⟩ es)) := by
    funext d
    have := ho d
    grind [dirs, Linked, update_apply]
  have hA : ∀ i, (m i).type ≠ none → (m' i).type ≠ none := by
    intro i hi
    have := ho i
    grind
  have hA' : ∀ i, i ≠ ip → (m' i).type ≠ none → (m i).type ≠ none ∧ (m' i).nlink = (m i).nlink := by
    intro i e2 hi
    have := ho i
    grind
  refine ⟨?_, fun i hi => ?_, fun i hi => ?_⟩
  · rw [hdirs]
    exact h.tree_put hA (fun hi => h.tree.zero (hA' 0 h0.symm hi).1) hdp hl hip ht
  · by_cases e : i = ip
    · subst e; exact hN
    · exact h.bound i (hA' i e hi).1
  · have hi0 : i ≠ 0 := by
      intro e; subst e
      exact h.tree.zero (hA' 0 h0.symm hi).1
    have hu := links_update (h.lt (d := dp) (ne_none hdp)) (dirs m) (some (put ⟨ip, name⟩ es)) i
    rw [hdp, refs_put hi0 (h.fresh_name hdp hl).1] at hu
    rw [hdirs]
    have := h.count i
    grind

/-- A new directory: its two entries, its entry in the parent, and the two links these are. -/
theorem add_dir (h : Consistent N m) (hdp : dirs m dp = some es) (hl : lookup name es = none) (h0 : ip ≠ 0) (hN : ip < N)
    (hip : (m ip).type = none) (hip' : Linked (m' ip)) (hn : (m' ip).nlink = 1)
    (hents : (m' ip).ents = [⟨ip, dot⟩, ⟨dp, dotdot⟩])
    (hdp' : m' dp = { m dp with nlink := (m dp).nlink + 1, ents := put ⟨ip, name⟩ es })
    (ho : ∀ j, j ≠ ip → j ≠ dp → m' j = m j) : Consistent N m' := by
  have hdip : dirs m ip = none := dirs_of_not_dir (by rw [hip]; exact (Option.some_ne_none _).symm)
  have hne : ip ≠ dp := by intro e; rw [e, hdp] at hdip; cases hdip
  have hlinked := (dirs_some.mp hdp).1
  have hdpN : dp < N := h.lt (ne_none hdp)
  set G1 := update (dirs m) dp (some (put ⟨ip, name⟩ es)) with hG1
  have hG1ip : G1 ip = none := by rw [hG1, update_of_ne hne]; exact hdip
  have hdirs : dirs m' = update G1 ip (some [⟨ip, dot⟩, ⟨dp, dotdot⟩]) := by
    funext d
    have := ho d
    grind [dirs, Linked, update_apply]
  have hA' : ∀ i, i ≠ ip → ((m' i).type ≠ none ↔ (m i).type ≠ none) := by
    intro i e2
    have := ho i
    grind
  have hA : ∀ i, (m i).type ≠ none → (m' i).type ≠ none := by
    intro i hi
    exact (hA' i fun e => hi (e ▸ hip)).mpr hi
  have hz : ¬ (m' 0).type ≠ none := fun hi => h.tree.zero ((hA' 0 h0.symm).mp hi)
  have ht1 : Tree (fun i => (m' i).type ≠ none) G1 :=
    h.tree_put hA hz hdp hl hdip (by rw [hip'.1]; exact Option.some_ne_none _)
  -- the entry just made is the only one that refers to the new inode
  have hc : Child G1 dp (freeSlot es) ip := by
    refine ⟨_, name, by rw [hG1, update_self], ?_, h0, h.fresh_name hdp hl⟩
    rw [getElem?_put, if_pos rfl]
  have hu : ∀ e' k', Child G1 e' k' ip → e' = dp ∧ k' = freeSlot es := by
    intro e' k' ⟨fs, n, hf, hk, _⟩
    have hno : ∀ gs, dirs m e' = some gs → gs[k']? ≠ some ⟨ip, n⟩ := fun gs hg hk =>
      absurd hip (h.tree.alloc e' gs hg _ (List.mem_of_getElem? hk) h0)
    grind [getElem?_put, update_apply]
  refine ⟨?_, fun i hi => ?_, fun i hi => ?_⟩
  · rw [hdirs]; exact ht1.promote hG1ip hc hu
  · by_cases e : i = ip
    · subst e; exact hN
    · exact h.bound i ((hA' i e).mp hi)
  · have hi0 : i ≠ 0 := by intro e; subst e; exact hz hi
    have h1 := links_update hdpN (dirs m) (some (put ⟨ip, name⟩ es)) i
    rw [hdp, refs_put hi0 (h.fresh_name hdp hl).1, ← hG1] at h1
    have h2 := links_update hN G1 (some [⟨ip, dot⟩, ⟨dp, dotdot⟩]) i
    rw [hG1ip, refs_none, refs_dots, ← hdirs] at h2
    have := h.links_free h0 hip
    have := h.count i
    have := ho i
    grind

/-- The entry in slot `k` goes, and the link it was; the inode is not a directory. -/
theorem remove_entry (h : Consistent N m) (hdp : dirs m dp = some es) (hk : es[k]? = some ⟨ip, name⟩) (h0 : ip ≠ 0)
    (hname : name ≠ dot ∧ name ≠ dotdot) (hip : (m ip).type ≠ some .dir)
    (hip' : m' ip = { m ip with nlink := (m ip).nlink - 1 }) (hdp' : m' dp = { m dp with ents := es.set k .empty })
    (ho : ∀ j, j ≠ ip → j ≠ dp → m' j = m j) : Consistent N m' := by
  have hdip : dirs m ip = none := dirs_of_not_dir hip
  have hne : ip ≠ dp := by intro e; rw [e, hdp] at hdip; cases hdip
  have hlinked := (dirs_some.mp hdp).1
  have hdirs : dirs m' = update (dirs m) dp (some (es.set k .empty)) := by
    funext d
    have := ho d
    grind [dirs, Linked, update_apply]
  have hA : ∀ i, (m' i).type = (m i).type := by
    intro i
    have := ho i
    grind
  refine ⟨?_, fun i hi => h.bound i (by rwa [hA] at hi), fun i hi => ?_⟩
  · rw [hdirs]
    simp only [hA]
    refine h.tree.set_slot (fun _ hi => hi) h.tree.zero hdp (slot_set _ hk) ?_ (fun y hy => ?_)
      (fun h' => absurd rfl h') (fun h' => absurd rfl h')
    · refine h.tree.two_le hdp fun x hx _ => ?_
      rw [hk] at hx
      cases hx
      exact hname
    · rw [hk] at hy; cases hy; exact hdip
  · rw [hA] at hi
    have hi0 : i ≠ 0 := by intro e; subst e; exact h.tree.zero hi
    have hu := links_update (h.lt (d := dp) (ne_none hdp)) (dirs m) (some (es.set k .empty)) i
    rw [hdp, ← refs_erase hi0 hname.1 hk, ← hdirs] at hu
    have hc := h.count i hi
    have := ho i
    grind

/-- A directory that `isdirempty` finds empty has no entries of its own. -/
theorem no_child (h : Consistent N m) {fs : List Dirent} (hip : dirs m ip = some fs)
    (hempty : (fs.drop 2).all (·.inum = 0) = true) (j d : Nat) : ¬ Child (dirs m) ip j d := by
  intro ⟨gs, n, hg, hj, hd0, hn⟩
  rw [hip] at hg
  cases hg
  have h2 : 2 ≤ j := h.tree.two_le hip fun x hx _ => by rw [hj] at hx; cases hx; exact hn
  have hmem : (⟨d, n⟩ : Dirent) ∈ fs.drop 2 := by
    refine List.mem_iff_getElem?.mpr ⟨j - 2, ?_⟩
    rw [List.getElem?_drop, show 2 + (j - 2) = j by omega, hj]
  have := List.all_eq_true.mp hempty _ hmem
  simp only [decide_eq_true_eq] at this
  exact hd0 this

theorem refs_empty (h : Consistent N m) {fs : List Dirent} {e i : Nat} (hip : dirs m ip = some fs)
    (hempty : (fs.drop 2).all (·.inum = 0) = true) (h1 : fs[1]? = some ⟨e, dotdot⟩) (hi : i ≠ 0) :
    refs (some fs) i = if i = e then 1 else 0 := by
  have h0 := h.tree.self ip fs hip
  rcases fs with _ | ⟨x, _ | ⟨y, rest⟩⟩
  · cases h0
  · cases h1
  · cases h0
    cases h1
    have hrest : rest.countP (fun x => x.inum = i ∧ x.name ≠ dot) = 0 := by
      refine List.countP_eq_zero.mpr fun x hx => ?_
      have := List.all_eq_true.mp hempty x hx
      simp only [decide_eq_true_eq] at this
      simp [this, hi.symm]
    have hdd : dotdot ≠ dot := by decide
    simp only [refs, Option.elim_some, List.countP_cons, hrest]
    simp [hdd, eq_comm]

/-- An empty directory goes: its entry in the parent and the two links. -/
theorem remove_dir (h : Consistent N m) {fs : List Dirent} (hdp : dirs m dp = some es) (hk : es[k]? = some ⟨ip, name⟩)
    (h0 : ip ≠ 0) (hname : name ≠ dot ∧ name ≠ dotdot) (hip : dirs m ip = some fs)
    (hempty : (fs.drop 2).all (·.inum = 0) = true) (hip' : m' ip = { m ip with nlink := (m ip).nlink - 1 })
    (hdp' : m' dp = { m dp with nlink := (m dp).nlink - 1, ents := es.set k .empty })
    (ho : ∀ j, j ≠ ip → j ≠ dp → m' j = m j) : Consistent N m' := by
  have hnc := h.no_child hip hempty
  have hc : Child (dirs m) dp k ip := ⟨es, name, hdp, hk, h0, hname⟩
  have hne : ip ≠ dp := by intro e; subst e; exact hnc k ip hc
  have hroot : ip ≠ rootIno := by intro e; subst e; exact h.tree.rootTop dp k hc
  obtain ⟨e, j, h1, _, hu⟩ := h.tree.up ip fs hroot hip
  obtain ⟨rfl, rfl⟩ := hu dp k hc
  have hdpN := h.lt (ne_none hdp)
  have hipN := h.lt (ne_none hip)
  have hdp0 : dp ≠ 0 := h.tree.ne_zero (ne_none hdp)
  have hk2 : 2 ≤ k := h.tree.two_le hdp fun x hx _ => by rw [hk] at hx; cases hx; exact hname
  set G1 := update (dirs m) ip none with hG1
  set G2 := update G1 dp (some (es.set k .empty)) with hG2
  have hG1dp : G1 dp = some es := by rw [hG1, update_of_ne hne.symm]; exact hdp
  have ht1 : Tree (fun i => (m i).type ≠ none) G1 := h.tree.demote hroot hnc
  have ht2 : Tree (fun i => (m i).type ≠ none) G2 := by
    refine ht1.set_slot (fun _ hi => hi) h.tree.zero hG1dp (slot_set _ hk) hk2 (fun y hy => ?_)
      (fun h' => absurd rfl h') (fun h' => absurd rfl h')
    rw [hk] at hy; cases hy; rw [hG1, update_self]
  -- the counts, one step at a time
  have hl : ∀ i, i ≠ 0 → links N G2 i + (if i = ip then 1 else 0) + (if i = dp then 1 else 0) = links N (dirs m) i := by
    intro i hi
    have hu1 := links_update hipN (dirs m) none i
    rw [hip, h.refs_empty hip hempty h1 hi, refs_none, ← hG1] at hu1
    have hu2 := links_update hdpN G1 (some (es.set k .empty)) i
    rw [hG1dp, ← refs_erase hi hname.1 hk, ← hG2] at hu2
    omega
  -- nothing refers to the directory any more
  have hlip : links N G2 ip = 0 := by
    refine links_eq_zero fun d gs j n hd hj => ?_
    by_contra hn
    have hdip : d ≠ ip := by
      intro e; subst e
      rw [hG2, update_of_ne hne, hG1, update_self] at hd
      cases hd
    by_cases hdd : n = dotdot
    · subst hdd
      -- a `..` that refers to `ip` would be that of a child
      have hd2 := ne_none hd
      obtain ⟨u, hu1, hu0, _⟩ := ht2.dots hd
      have hj1 := ht2.distinct d gs hd _ _ _ _ hj hu1 h0 hu0 rfl
      subst hj1
      by_cases hdr : d = rootIno
      · subst hdr
        rw [ht2.rootUp gs hd] at hj
        cases hj
        exact hroot rfl
      · obtain ⟨e', k', h1', hc', _⟩ := ht2.up d gs hdr hd
        rw [hj] at h1'
        cases h1'
        refine hc'.ne_none ?_
        rw [hG2, update_of_ne hne, hG1, update_self]
    · have hno := fun gs hg hj => hu d j ⟨gs, n, hg, hj, h0, hn, hdd⟩
      have := slot_set .empty hk j
      grind [update_apply, Dirent.empty]
  -- the parent is still referred to
  have hldp : 1 ≤ links N G2 dp := by
    have hG2dp : G2 dp = some (es.set k .empty) := by rw [hG2, update_self]
    by_cases hr : dp = rootIno
    · have h1 : (es.set k .empty)[1]? = some ⟨dp, dotdot⟩ := by
        rw [slot_set _ hk, if_neg (by omega), h.tree.rootUp es (hr ▸ hdp), hr]
      exact one_le_links hdpN hG2dp h1 (by decide)
    · obtain ⟨e', k', _, hc', _⟩ := ht2.up dp _ hr hG2dp
      obtain ⟨gs, n, hg, hj, _, hn⟩ := hc'
      have : e' < N := h.bound e' (ht2.dirs e' (ne_none hg))
      exact one_le_links this hg hj hn.1
  have hcip := h.count ip (h.tree.dirs ip (ne_none hip))
  have hcdp := h.count dp (h.tree.dirs dp (ne_none hdp))
  have hlip' := hl ip h0
  rw [if_pos rfl, if_neg hne, hlip] at hlip'
  have hldp' := hl dp hdp0
  rw [if_neg hne.symm, if_pos rfl] at hldp'
  have hlinked := (dirs_some.mp hdp).1
  have hdirs : dirs m' = G2 := by
    funext d
    have := ho d
    grind [dirs, Linked, update_apply]
  have hA : ∀ i, (m' i).type = (m i).type := by
    intro i
    have := ho i
    grind
  refine ⟨?_, fun i hi => h.bound i (by rwa [hA] at hi), fun i hi => ?_⟩
  · rw [hdirs]; simp only [hA]; exact ht2
  · rw [hA] at hi
    have hi0 : i ≠ 0 := by intro e; subst e; exact h.tree.zero hi
    have hc := h.count i hi
    have hli := hl i hi0
    have := ho i
    rw [hdirs]
    grind

end Ops

end Consistent

end Xv6.Fs.Links
