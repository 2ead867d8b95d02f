/-
  Xv6.Vm.Tree — a page directory with its page tables.

  `tab`, `ent` and `pres` read a directory: the table of the 4 MB region `i`, the entry of
  the virtual page `v` if its table exists, and the entry if it is present. `Tree` says that
  a process has the directory and its tables, all different, beside other pages `R`. Each
  thing the code does to a directory keeps `Tree` and changes these three functions in a
  place that is named; `walkpgdir` and `mappages` are described in these terms.
-/

import Xv6.Vm.Paging

namespace Xv6.Vm

open Lib Prog Function

/-! ## Reading a directory -/

/-- The page table of the region `i`. -/
def tab (m : Nat → Page) (d i : Nat) : Option Nat := if Present ((m d).word i) then some (pageOf ((m d).word i)) else none

/-- The entry of the page `v`. -/
def ent (m : Nat → Page) (d v : Nat) : Option (BitVec 32) := (tab m d (v / 1024)).map fun t => (m t).word (v % 1024)

/-- The entry of the page `v`, if it is present. -/
def pres (m : Nat → Page) (d v : Nat) : Option (BitVec 32) := (ent m d v).filter fun e => Present e

variable {m m' : Nat → Page}

theorem pres_eq_some {d v : Nat} {e : BitVec 32} : pres m d v = some e ↔ ent m d v = some e ∧ Present e := by
  simp [pres, Option.filter_eq_some_iff]

theorem pres_eq_none {d v : Nat} : pres m d v = none ↔ ∀ e, ent m d v = some e → ¬ Present e := by
  simp [pres, Option.filter_eq_none_iff]

theorem pres_congr {d v : Nat} (h : ent m' d v = ent m d v) : pres m' d v = pres m d v := by rw [pres, pres, h]

theorem ent_of_tab {d v t : Nat} (h : tab m d (v / 1024) = some t) : ent m d v = some ((m t).word (v % 1024)) := by
  rw [ent, h]
  rfl

theorem pres_of_no_tab {d v : Nat} (h : tab m d (v / 1024) = none) : pres m d v = none := by
  rw [pres, ent, h]
  rfl

theorem tab_of_pres {d v : Nat} {e : BitVec 32} (h : pres m d v = some e) :
    ∃ t, tab m d (v / 1024) = some t ∧ (m t).word (v % 1024) = e ∧ Present e := by
  obtain ⟨he, hp⟩ := pres_eq_some.1 h
  obtain ⟨t, ht, hw⟩ := Option.map_eq_some_iff.1 he
  exact ⟨t, ht, hw, hp⟩

theorem tab_congr {d : Nat} (h : m' d = m d) (i : Nat) : tab m' d i = tab m d i := by rw [tab, tab, h]

theorem ent_congr {d v : Nat} (hd : m' d = m d) (ht : ∀ t, tab m d (v / 1024) = some t → m' t = m t) :
    ent m' d v = ent m d v := by
  rw [ent, ent, tab_congr hd]
  cases h : tab m d (v / 1024) with
  | none => rfl
  | some t =>
    show some ((m' t).word _) = some ((m t).word _)
    rw [ht t h]

/-! ## Having a directory -/

variable {P : Type} {k : Image} {r r' : Res P} {d f t : Nat} {R R' : Set Nat}

structure Tree (k : Image) (r : Res P) (d : Nat) (R : Set Nat) : Prop where
  own : ∀ f, f ∈ r.own ↔ f ∈ R ∨ f = d ∨ ∃ i < 1024, tab r.mem d i = some f
  pool : ∀ f ∈ r.own, k.InPool f
  dir : d ∉ R
  table : ∀ i t, i < 1024 → tab r.mem d i = some t → t ∉ R ∧ t ≠ d
  inj : ∀ i j t, i < 1024 → j < 1024 → tab r.mem d i = some t → tab r.mem d j = some t → i = j

theorem Tree.dir_mem (h : Tree k r d R) : d ∈ r.own := (h.own d).2 (.inr (.inl rfl))

theorem Tree.table_mem (h : Tree k r d R) {i : Nat} (hi : i < 1024) (ht : tab r.mem d i = some t) : t ∈ r.own :=
  (h.own t).2 (.inr (.inr ⟨i, hi, ht⟩))

theorem Tree.rest_mem (h : Tree k r d R) (hf : f ∈ R) : f ∈ r.own := (h.own f).2 (.inl hf)

/-- The same directory, as it is seen in another state. -/
structure SameDir (m m' : Nat → Page) (d : Nat) : Prop where
  tab : ∀ i, i < 1024 → tab m' d i = tab m d i
  ent : ∀ v, v < 2 ^ 20 → ent m' d v = ent m d v

theorem SameDir.pres (h : SameDir m m' d) {v : Nat} (hv : v < 2 ^ 20) : Vm.pres m' d v = Vm.pres m d v :=
  pres_congr (h.ent v hv)

/-- What is beside the tree changes. -/
theorem Tree.change (h : Tree k r d R) (hown : ∀ f, f ∈ r'.own ↔ f ∈ R' ∨ f ∈ r.own ∧ f ∉ R)
    (hmem : ∀ f ∈ r.own, f ∉ R → r'.mem f = r.mem f) (hR : ∀ f ∈ R', f ∈ r.own → f ∈ R) (hpool : ∀ f ∈ R', k.InPool f) :
    Tree k r' d R' ∧ SameDir r.mem r'.mem d := by
  have hd : r'.mem d = r.mem d := hmem d h.dir_mem h.dir
  have htab : ∀ i, tab r'.mem d i = tab r.mem d i := tab_congr hd
  have hent : ∀ v, v < 2 ^ 20 → ent r'.mem d v = ent r.mem d v := fun v hv =>
    ent_congr hd fun t ht => hmem t (h.table_mem (by omega) ht) (h.table _ t (by omega) ht).1
  refine ⟨⟨fun f => ?_, fun f hf => ?_, fun hf => h.dir (hR d hf h.dir_mem), fun i t hi ht => ?_, fun i j t hi hj h1 h2 => ?_⟩, fun i _ => htab i, hent⟩
  · simp only [htab]
    rw [hown f]
    constructor
    · intro hf
      rcases hf with hf | ⟨hf, hnR⟩
      · exact .inl hf
      · exact .inr (((h.own f).1 hf).resolve_left hnR)
    · intro hf
      rcases hf with hf | rfl | ⟨i, hi, ht⟩
      · exact .inl hf
      · exact .inr ⟨h.dir_mem, h.dir⟩
      · exact .inr ⟨h.table_mem hi ht, (h.table i f hi ht).1⟩
  · rcases (hown f).1 hf with hf | ⟨hf, _⟩
    · exact hpool f hf
    · exact h.pool f hf
  · rw [htab] at ht
    exact ⟨fun hf => (h.table i t hi ht).1 (hR t hf (h.table_mem hi ht)), (h.table i t hi ht).2⟩
  · rw [htab] at h1 h2
    exact h.inj i j t hi hj h1 h2

theorem Tree.alloc (h : Tree k r d R) (hf : f ∉ r.own) (hp : k.InPool f) (x : Page) :
    Tree k (r.alloc f x) d (insert f R) ∧ SameDir r.mem (r.alloc f x).mem d := by
  refine h.change (fun g => ?_) (fun g hg _ => ?_) (fun g hg ho => ?_) fun g hg => ?_
  · show g ∈ insert f r.own ↔ g ∈ insert f R ∨ g ∈ r.own ∧ g ∉ R
    rw [Set.mem_insert_iff, Set.mem_insert_iff]
    constructor
    · intro hg
      by_cases hR : g ∈ R
      · exact .inl (.inr hR)
      · exact hg.elim (fun e => .inl (.inl e)) fun hg => .inr ⟨hg, hR⟩
    · intro hg
      rcases hg with (hg | hg) | hg
      · exact .inl hg
      · exact .inr (h.rest_mem hg)
      · exact .inr hg.1
  · exact update_of_ne (show g ≠ f from fun e => hf (e ▸ hg)) _ _
  · exact (Set.mem_insert_iff.1 hg).resolve_left fun e => hf (e ▸ ho)
  · rcases Set.mem_insert_iff.1 hg with rfl | hg
    · exact hp
    · exact h.pool g (h.rest_mem hg)

theorem Tree.release (h : Tree k r d R) (hf : f ∈ R) : Tree k (r.release f) d (R \ {f}) ∧ SameDir r.mem (r.release f).mem d := by
  refine h.change (fun g => ?_) (fun _ _ _ => rfl) (fun g hg _ => hg.1) fun g hg => h.pool g (h.rest_mem hg.1)
  show g ∈ r.own \ {f} ↔ g ∈ R \ {f} ∨ g ∈ r.own ∧ g ∉ R
  constructor
  · intro ⟨h1, h2⟩
    by_cases hR : g ∈ R
    · exact .inl ⟨hR, h2⟩
    · exact .inr ⟨h1, hR⟩
  · intro hg
    rcases hg with hg | hg
    · exact ⟨h.rest_mem hg.1, hg.2⟩
    · exact ⟨hg.1, fun e => hg.2 (Set.mem_singleton_iff.1 e ▸ hf)⟩

/-- A page beside the tree gets other contents. -/
theorem Tree.store (h : Tree k r d R) (hf : f ∈ R) (x : Page) : Tree k (r.store f x) d R ∧ SameDir r.mem (r.store f x).mem d := by
  refine h.change (fun g => ?_) (fun g _ hg => ?_) (fun g hg _ => hg) fun g hg => h.pool g (h.rest_mem hg)
  · show g ∈ r.own ↔ g ∈ R ∨ g ∈ r.own ∧ g ∉ R
    by_cases hR : g ∈ R
    · simp [hR, h.rest_mem hR]
    · simp [hR]
  · exact update_of_ne (show g ≠ f from fun e => hg (e ▸ hf)) _ _

theorem Tree.deny (h : Tree k r d R) : Tree k r.deny d R := ⟨h.own, h.pool, h.dir, h.table, h.inj⟩

/-- An entry is written. -/
theorem Tree.write (h : Tree k r d R) {v : Nat} (hv : v < 2 ^ 20) (ht : tab r.mem d (v / 1024) = some t) (w : BitVec 32) :
    Tree k (r.store t ((r.mem t).setWord (v % 1024) w)) d R ∧
    (∀ i, tab (r.store t ((r.mem t).setWord (v % 1024) w)).mem d i = tab r.mem d i) ∧
    ∀ u, u < 2 ^ 20 → ent (r.store t ((r.mem t).setWord (v % 1024) w)).mem d u = if u = v then some w else ent r.mem d u := by
  have htd : t ≠ d := (h.table _ t (by omega) ht).2
  generalize hr : r.store t ((r.mem t).setWord (v % 1024) w) = r'
  have hm : r'.mem = update r.mem t ((r.mem t).setWord (v % 1024) w) := by rw [← hr]; rfl
  have ho : r'.own = r.own := by rw [← hr]; rfl
  have htab : ∀ i, tab r'.mem d i = tab r.mem d i := tab_congr (by rw [hm, update_of_ne htd.symm])
  refine ⟨⟨fun f => ?_, ?_, h.dir, fun i u hi hu => ?_, fun i j u hi hj h1 h2 => ?_⟩, htab, fun u hu => ?_⟩
  · simp only [htab]
    rw [ho]
    exact h.own f
  · rw [ho]
    exact h.pool
  · rw [htab] at hu
    exact h.table i u hi hu
  · rw [htab] at h1 h2
    exact h.inj i j u hi hj h1 h2
  · rw [ent, ent, htab]
    cases hu' : tab r.mem d (u / 1024) with
    | none =>
      have : u ≠ v := fun e => by rw [e, ht] at hu'; cases hu'
      rw [if_neg this]
      rfl
    | some t' =>
      show some ((r'.mem t').word (u % 1024)) = if u = v then some w else some ((r.mem t').word (u % 1024))
      by_cases e : t' = t
      · -- the same table, so the same region
        have hreg : u / 1024 = v / 1024 := h.inj _ _ t (by omega) (by omega) (e ▸ hu') ht
        rw [e, hm, update_self, word_setWord]
        by_cases e' : u = v
        · rw [if_pos e', if_pos (by rw [e'])]
        · rw [if_neg e', if_neg (by omega)]
      · have : u ≠ v := fun e' => e (Option.some.inj (by rw [← hu', e', ht]))
        rw [if_neg this, hm, update_of_ne e]

/-- A page of zeros is a directory without tables. -/
theorem Tree.of_zero (hd : d ∈ r.own) (hz : r.mem d = fun _ => 0) (hp : ∀ f ∈ r.own, k.InPool f) :
    Tree k r d (r.own \ {d}) ∧ (∀ i, tab r.mem d i = none) ∧ ∀ v, pres r.mem d v = none := by
  have ht : ∀ i, tab r.mem d i = none := fun i => by rw [tab, hz, word_zero, if_neg not_present_zero]
  refine ⟨⟨fun f => ?_, hp, fun h => h.2 rfl, fun i t _ h => ?_, fun i j t _ _ h => ?_⟩, ht, fun v => pres_of_no_tab (ht _)⟩
  · constructor
    · intro hf
      by_cases e : f = d
      · exact .inr (.inl e)
      · exact .inl ⟨hf, e⟩
    · intro hf
      rcases hf with hf | rfl | ⟨i, _, h⟩
      · exact hf.1
      · exact hd
      · rw [ht] at h
        cases h
  · rw [ht] at h
    cases h
  · rw [ht] at h
    cases h

theorem Tree.lt (h : Tree k r d R) (hf : f ∈ r.own) : f < 2 ^ 20 := (h.pool f hf).lt.2

/-- A page of zeros becomes the table of a region. -/
theorem Tree.link (h : Tree k r d R) {i : Nat} (hi : i < 1024) (hn : tab r.mem d i = none) (hf : f ∈ R) (hz : r.mem f = fun _ => 0) :
    Tree k (r.store d ((r.mem d).setWord i (pte (4096 * f) (PTE_W ||| PTE_U)))) d (R \ {f}) ∧
    (∀ j, tab (r.store d ((r.mem d).setWord i (pte (4096 * f) (PTE_W ||| PTE_U)))).mem d j = if j = i then some f else tab r.mem d j) ∧
    ∀ v, v < 2 ^ 20 → pres (r.store d ((r.mem d).setWord i (pte (4096 * f) (PTE_W ||| PTE_U)))).mem d v = pres r.mem d v := by
  have hfd : f ≠ d := fun e => h.dir (e ▸ hf)
  generalize hr : r.store d ((r.mem d).setWord i (pte (4096 * f) (PTE_W ||| PTE_U))) = r'
  have hm : r'.mem = update r.mem d ((r.mem d).setWord i (pte (4096 * f) (PTE_W ||| PTE_U))) := by rw [← hr]; rfl
  have ho : r'.own = r.own := by rw [← hr]; rfl
  have htab : ∀ j, tab r'.mem d j = if j = i then some f else tab r.mem d j := fun j => by
    rw [tab, hm, update_self, word_setWord]
    by_cases e : j = i
    · rw [if_pos e, if_pos e, if_pos (present_pte _ _), pageOf_pte (h.lt (h.rest_mem hf)) (by decide)]
    · rw [if_neg e, if_neg e]
      rfl
  have hold : ∀ j, j ≠ i → tab r'.mem d j = tab r.mem d j := fun j e => by rw [htab, if_neg e]
  refine ⟨⟨fun g => ?_, by rw [ho]; exact h.pool, fun hd => h.dir hd.1, fun j u hj hu => ?_, fun j j' u hj hj' h1 h2 => ?_⟩, htab, fun v hv => ?_⟩
  · rw [ho, h.own g]
    constructor
    · intro hg
      by_cases e : g = f
      · exact .inr (.inr ⟨i, hi, by rw [htab, if_pos rfl, e]⟩)
      · rcases hg with hg | hg | ⟨j, hj, ht⟩
        · exact .inl ⟨hg, e⟩
        · exact .inr (.inl hg)
        · have : j ≠ i := fun e' => by rw [e', hn] at ht; cases ht
          exact .inr (.inr ⟨j, hj, by rw [hold j this, ht]⟩)
    · intro hg
      rcases hg with hg | hg | ⟨j, hj, ht⟩
      · exact .inl hg.1
      · exact .inr (.inl hg)
      · rw [htab] at ht
        split at ht
        · cases ht
          exact .inl hf
        · exact .inr (.inr ⟨j, hj, ht⟩)
  · rw [htab] at hu
    split at hu
    · cases hu
      exact ⟨fun hg => hg.2 rfl, hfd⟩
    · exact ⟨fun hg => (h.table j u hj hu).1 hg.1, (h.table j u hj hu).2⟩
  · rw [htab] at h1 h2
    -- the new table was beside the tree
    split at h1
    · split at h2
      · omega
      · cases h1
        exact absurd hf (h.table j' f hj' h2).1
    · split at h2
      · cases h2
        exact absurd hf (h.table j f hj h1).1
      · exact h.inj j j' u hj hj' h1 h2
  · by_cases e : v / 1024 = i
    · rw [pres_of_no_tab (m := r.mem) (by rw [e, hn]), pres_eq_none]
      intro w hw
      have ht : tab r'.mem d (v / 1024) = some f := by rw [htab, if_pos e]
      rw [ent_of_tab ht, hm, update_of_ne hfd, hz, word_zero] at hw
      cases hw
      exact not_present_zero
    · refine pres_congr ?_
      rw [ent, ent, hold _ e]
      cases hv' : tab r.mem d (v / 1024) with
      | none => rfl
      | some t =>
        show some ((r'.mem t).word _) = some ((r.mem t).word _)
        rw [hm, update_of_ne (h.table _ t (by omega) hv').2]

/-! ## `walkpgdir` and `mappages` -/

/-- The code goes from `r` to `r'` and leaves alone what is beside the tree. -/
structure Moved (k : Image) (d : Nat) (R : Set Nat) (r r' : Res P) : Prop where
  tree : Tree k r' d R
  own : r.own ⊆ r'.own
  mem : ∀ f ∈ R, r'.mem f = r.mem f
  proc : r'.proc = r.proc

/-- On the way `kalloc` has returned 0, with only the tree and `R` allocated. -/
def Short (k : Image) (d : Nat) (R : Set Nat) (r r' : Res P) : Prop := ∃ r₁ : Res P, Tree k r₁ d R ∧ r'.denied = r₁.own :: r.denied

theorem Moved.trans {r'' : Res P} (h : Moved k d R r r') (h' : Moved k d R r' r'') : Moved k d R r r'' :=
  ⟨h'.tree, h.own.trans h'.own, fun f hf => (h'.mem f hf).trans (h.mem f hf), h'.proc.trans h.proc⟩

variable [DecidableEq P] {B : Err → Prop} {p : P} {v : Nat} {α β : Type}

abbrev W (k : Image) (B : Err → Prop) (p : P) (c : M P α) (Q : α → Res P → Prop) (r : Res P) : Prop := wp (spec k B) p c Q r

theorem w_bind {c : M P α} {g : α → M P β} {Q : β → Res P → Prop} (h : W k B p c (fun x r' => W k B p (g x) Q r') r) :
    W k B p (c >>= g) Q r := wp_bind spec_mono h

section Actions

variable {Q : α → Res P → Prop}

theorem w_if {c : Prop} [Decidable c] {x y : M P α} (h1 : c → W k B p x Q r) (h2 : ¬ c → W k B p y Q r) : W k B p (if c then x else y) Q r := by
  by_cases h : c
  · rw [if_pos h]
    exact h1 h
  · rw [if_neg h]
    exact h2 h

theorem w_ret {x : α} (h : Q x r) : W k B p (pure x) Q r := h

theorem w_panic {e : Err} (h : B e) : W k B p (panic e : M P α) Q r := h

theorem w_read {g : BitVec 32 → M P α} {i : Nat} (hf : f ∈ r.own) (h : W k B p (g ((r.mem f).word i)) Q r) : W k B p (read f i >>= g) Q r := ⟨hf, h⟩

variable {g : Unit → M P α}

theorem w_write {i : Nat} {w : BitVec 32} (hf : f ∈ r.own) (h : W k B p (g ()) Q (r.store f ((r.mem f).setWord i w))) :
    W k B p (write f i w >>= g) Q r := ⟨hf, h⟩

theorem w_memset {c : UInt8} (hf : f ∈ r.own) (h : W k B p (g ()) Q (r.store f fun _ => c)) :
    W k B p (memset f c >>= g) Q r := ⟨hf, h⟩

theorem w_memmove {off : Nat} {bs : List UInt8} (hf : f ∈ r.own) (h : W k B p (g ()) Q (r.store f ((r.mem f).setBytes off bs))) :
    W k B p (memmove f off bs >>= g) Q r := ⟨hf, h⟩

theorem w_copy (hf : f ∈ r.own) (ht : t ∈ r.own) (h : W k B p (g ()) Q (r.store f (r.mem t))) :
    W k B p (copy f t >>= g) Q r := ⟨hf, ht, h⟩

theorem w_kfree (hf : f ∈ r.own) (h : W k B p (g ()) Q (r.release f)) : W k B p (kfree f >>= g) Q r := ⟨hf, h⟩

theorem w_kalloc {g : Option Nat → M P α} (hn : W k B p (g none) Q r.deny)
    (hs : ∀ f x, f ∉ r.own → k.InPool f → W k B p (g (some f)) Q (r.alloc f x)) : W k B p (kalloc >>= g) Q r := ⟨hn, hs⟩

end Actions

omit [DecidableEq P] in
theorem PDX_page (hv : v < 2 ^ 20) : PDX (4096 * v) = v / 1024 := by
  unfold PDX
  omega

omit [DecidableEq P] in
theorem PTX_page : PTX (4096 * v) = v % 1024 := by
  unfold PTX
  omega

theorem w_walk (hd : d ∈ r.own) (hv : v < 2 ^ 20) {Q : Option (Nat × Nat) → Res P → Prop} (hn : tab r.mem d (v / 1024) = none → Q none r)
    (hs : ∀ t, tab r.mem d (v / 1024) = some t → Q (some (t, v % 1024)) r) : W k B p (walkpgdir d (4096 * v) false) Q r := by
  unfold walkpgdir tab at *
  rw [PDX_page hv, PTX_page]
  refine w_read hd (w_if (fun e => ?_) fun e => w_if (fun e => nomatch e) fun _ => ?_)
  · rw [if_pos e] at hs
    exact hs _ rfl
  · rw [if_neg e] at hn
    exact hn rfl

/-- With `alloc` there is a table afterwards, unless there is no memory. -/
theorem w_walkAlloc (h : Tree k r d R) (hv : v < 2 ^ 20) {Q : Option (Nat × Nat) → Res P → Prop} (hn : Q none r.deny)
    (hs : ∀ r' t, Moved k d R r r' → r'.denied = r.denied → tab r'.mem d (v / 1024) = some t →
      (∀ i, i < 1024 → i ≠ v / 1024 → tab r'.mem d i = tab r.mem d i) → (∀ w, w < 2 ^ 20 → pres r'.mem d w = pres r.mem d w) → Q (some (t, v % 1024)) r') : W k B p (walkpgdir d (4096 * v) true) Q r := by
  unfold walkpgdir
  rw [PDX_page hv, PTX_page]
  refine w_read h.dir_mem (w_if (fun e => ?_) fun e => w_if (fun _ => ?_) fun e => absurd rfl e)
  · exact hs r _ ⟨h, subset_rfl, fun _ _ => rfl, rfl⟩ rfl (by rw [tab, if_pos e]) (fun _ _ _ => rfl) fun _ _ => rfl
  refine w_kalloc hn fun f x hf hp => ?_
  obtain ⟨h1, s1⟩ := h.alloc hf hp x
  obtain ⟨h2, s2⟩ := h1.store (Set.mem_insert f R) fun _ => 0
  refine w_memset (Set.mem_insert f _) (w_write h2.dir_mem ?_)
  have hnone : tab ((r.alloc f x).store f fun _ => 0).mem d (v / 1024) = none := by
    rw [s2.tab _ (by omega), s1.tab _ (by omega), tab, if_neg e]
  obtain ⟨h3, htab, hpres⟩ := h2.link (by omega) hnone (Set.mem_insert f R) (update_self f _ _)
  have hR : insert f R \ {f} = R := Set.insert_sdiff_self_of_notMem fun hR => hf (h.rest_mem hR)
  rw [hR] at h3
  refine hs _ f ⟨h3, Set.subset_insert f _, fun g hg => ?_, rfl⟩ rfl (by rw [htab, if_pos rfl]) (fun i hi e => ?_) fun w hw => ?_
  · have hgf : g ≠ f := fun e => hf (h.rest_mem (e ▸ hg))
    have hgd : g ≠ d := fun e => h.dir (e ▸ hg)
    exact (update_of_ne hgd _ _).trans ((update_of_ne hgf _ _).trans (update_of_ne hgf _ _))
  · rw [htab, if_neg e, s2.tab i hi, s1.tab i hi]
  · rw [hpres w hw, s2.pres hw, s1.pres hw]

/-- The pages from `v` on, `n` of them, are mapped from `pa` on. -/
def Mapped (m m' : Nat → Page) (d v n pa : Nat) (perm : BitVec 32) : Prop :=
  ∀ w, w < 2 ^ 20 → pres m' d w = if v ≤ w ∧ w < v + n then some (pte (pa + 4096 * (w - v)) perm) else pres m d w

/-- Only regions of these pages have got a table. -/
def Tabled (m m' : Nat → Page) (d v n : Nat) : Prop := ∀ i, i < 1024 → tab m' d i = tab m d i ∨ ∃ w, v ≤ w ∧ w < v + n ∧ w / 1024 = i

omit [DecidableEq P] in
theorem Tabled.cons {m₁ : Nat → Page} {n : Nat} (h1 : Tabled m m₁ d v 1) (h2 : Tabled m₁ m' d (v + 1) n) : Tabled m m' d v (n + 1) := by
  intro i hi
  rcases h2 i hi with h | ⟨w, ha, hb, hw⟩
  · rcases h1 i hi with h' | ⟨w, ha, hb, hw⟩
    · exact .inl (h.trans h')
    · exact .inr ⟨w, ha, by omega, hw⟩
  · exact .inr ⟨w, by omega, by omega, hw⟩

omit [DecidableEq P] in
theorem pte_congr {a b : Nat} (h : a % 2 ^ 32 = b % 2 ^ 32) (perm : BitVec 32) : pte a perm = pte b perm := by
  have : BitVec.ofNat 32 a = BitVec.ofNat 32 b := BitVec.eq_of_toNat_eq (by rw [BitVec.toNat_ofNat, BitVec.toNat_ofNat, h])
  rw [pte, pte, this]

variable {perm : BitVec 32}

omit [DecidableEq P] in
theorem Mapped.cons {m₁ : Nat → Page} {n pa : Nat} (h1 : Mapped m m₁ d v 1 pa perm)
    (h2 : Mapped m₁ m' d (v + 1) n (uint (pa + 4096)) perm) : Mapped m m' d v (n + 1) pa perm := by
  intro w hw
  rw [h2 w hw, h1 w hw]
  by_cases e : v + 1 ≤ w ∧ w < v + 1 + n
  · rw [if_pos e, if_pos (by omega), pte_congr (b := pa + 4096 * (w - v)) (by unfold uint; omega)]
  · rw [if_neg e]
    by_cases e' : v ≤ w ∧ w < v + 1
    · rw [if_pos e', if_pos (by omega)]
    · rw [if_neg e', if_neg (by omega)]

/-- What `mappages` comes to for `n` pages: they are mapped, or some of them are and it returns -1. -/
structure MapEnds (k : Image) (d : Nat) (R : Set Nat) (v n pa : Nat) (perm : BitVec 32) (r : Res P) (Q : Int → Res P → Prop) : Prop where
  done : ∀ r', Moved k d R r r' → r'.denied = r.denied → Mapped r.mem r'.mem d v n pa perm → Tabled r.mem r'.mem d v n → Q 0 r'
  short : ∀ r' j, j < n → Moved k d R r r' → Short k d R r r' → Mapped r.mem r'.mem d v j pa perm → Q (-1) r'

variable {Q : Int → Res P → Prop}

/-- One round of the loop of `mappages`: the page `v` is mapped, or there is no memory for its table. -/
theorem w_mapOne {pa : Nat} (h : Tree k r d R) (hv : v < 2 ^ 20) (hfree : pres r.mem d v = none)
    {g : M P Int} (hn : Q (-1) r.deny)
    (hs : ∀ r', Moved k d R r r' → r'.denied = r.denied → Mapped r.mem r'.mem d v 1 pa perm → Tabled r.mem r'.mem d v 1 → W k B p g Q r') :
    W k B p (do
      let some (pgtab, i) ← walkpgdir d (4096 * v) true | return -1
      let e ← read pgtab i
      if Present e then panic .remap
      else
        write pgtab i (pte pa perm)
        g) Q r := by
  refine w_bind (w_walkAlloc h hv hn fun r₁ t hm hd ht hother hp => ?_)
  have hmem : t ∈ r₁.own := hm.tree.table_mem (by omega) ht
  have hnp : ¬ Present ((r₁.mem t).word (v % 1024)) := pres_eq_none.1 ((hp v hv).trans hfree) _ (ent_of_tab ht)
  refine w_read hmem (w_if (fun e => absurd e hnp) fun _ => w_write hmem ?_)
  obtain ⟨h2, htab, hent⟩ := hm.tree.write hv ht (pte pa perm)
  refine hs _ ⟨h2, hm.own, fun f hf => ?_, hm.proc⟩ hd (fun w hw => ?_) fun i hi => ?_
  · exact (update_of_ne (show f ≠ t from fun e => (hm.tree.table _ t (by omega) ht).1 (e ▸ hf)) _ _).trans (hm.mem f hf)
  · rw [← hp w hw]
    by_cases e : w = v
    · rw [if_pos (by omega), pres_eq_some]
      rw [hent w hw, if_pos e, e, Nat.sub_self]
      exact ⟨rfl, present_pte _ _⟩
    · rw [if_neg (by omega)]
      refine pres_congr ?_
      rw [hent w hw, if_neg e]
  · by_cases e : i = v / 1024
    · exact .inr ⟨v, Nat.le_refl v, by omega, e.symm⟩
    · exact .inl ((htab i).trans (hother i hi e))

theorem w_mapLoop {n pa fuel : Nat} (h : Tree k r d R) (hv : v + n < 2 ^ 20) (hfuel : n < fuel)
    (hfree : ∀ w, v ≤ w → w ≤ v + n → pres r.mem d w = none) (hQ : MapEnds k d R v (n + 1) pa perm r Q) :
    W k B p (mapLoop d (4096 * (v + n)) perm fuel (4096 * v) pa) Q r := by
  induction n generalizing v pa fuel r with
  | zero =>
    obtain ⟨fuel, rfl⟩ : ∃ j, fuel = j + 1 := ⟨fuel - 1, by omega⟩
    refine w_mapOne h (by omega) (hfree v (Nat.le_refl v) (by omega)) ?_ fun r' hm hd hmap htab => w_if (fun _ => ?_) fun e => absurd rfl e
    · exact hQ.short _ 0 (by omega) ⟨h.deny, subset_rfl, fun _ _ => rfl, rfl⟩ ⟨r, h, rfl⟩ fun w _ => by rw [if_neg (by omega)]; rfl
    · exact hQ.done r' hm hd hmap htab
  | succ n ih =>
    obtain ⟨fuel, rfl⟩ : ∃ j, fuel = j + 1 := ⟨fuel - 1, by omega⟩
    refine w_mapOne h (by omega) (hfree v (Nat.le_refl v) (by omega)) ?_ fun r' hm hd hmap htab => w_if (fun e => by omega) fun _ => ?_
    · exact hQ.short _ 0 (by omega) ⟨h.deny, subset_rfl, fun _ _ => rfl, rfl⟩ ⟨r, h, rfl⟩ fun w _ => by rw [if_neg (by omega)]; rfl
    · have ha : uint (4096 * v + 4096) = 4096 * (v + 1) := by unfold uint; omega
      rw [ha, show v + (n + 1) = v + 1 + n by omega]
      refine ih hm.tree (by omega) (by omega) (fun w h1 h2 => ?_) ⟨fun r₂ hm₂ hd₂ hmap₂ htab₂ => ?_, fun r₂ j hj hm₂ ⟨r₁, ht, hs⟩ hmap₂ => ?_⟩
      · rw [hmap w (by omega), if_neg (by omega)]
        exact hfree w (by omega) (by omega)
      · exact hQ.done r₂ (hm.trans hm₂) (hd₂.trans hd) (hmap.cons hmap₂) (htab.cons htab₂)
      · exact hQ.short r₂ (j + 1) (by omega) (hm.trans hm₂) ⟨r₁, ht, by rw [hs, hd]⟩ (hmap.cons hmap₂)

theorem w_mappages {n pa : Nat} (h : Tree k r d R) (hn : 0 < n) (hv : v + n ≤ 2 ^ 20)
    (hfree : ∀ w, v ≤ w → w < v + n → pres r.mem d w = none) (hQ : MapEnds k d R v n pa perm r Q) :
    W k B p (mappages d (4096 * v) (4096 * n) pa perm) Q r := by
  obtain ⟨n, rfl⟩ : ∃ j, n = j + 1 := ⟨n - 1, by omega⟩
  have hlast : PGROUNDDOWN (uint (4096 * v + 4096 * (n + 1) + (2 ^ 32 - 1))) = 4096 * (v + n) := by
    unfold PGROUNDDOWN uint
    omega
  have hfirst : PGROUNDDOWN (4096 * v) = 4096 * v := by
    unfold PGROUNDDOWN
    omega
  rw [mappages, hlast, hfirst]
  exact w_mapLoop h (by omega) (by unfold steps; omega) (fun w h1 h2 => hfree w h1 (by omega)) hQ

end Xv6.Vm
