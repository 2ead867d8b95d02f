/-
  Xv6.Vm.Uvm — the user pages of a page directory: `allocuvm` and `deallocuvm`.

  `Space` is a directory with the pages it maps below `KERNBASE`, each at one address.
  `deallocuvm` unmaps and frees the pages of a range and no others, whatever tables are
  missing (`w_deallocuvm`); `allocuvm` maps zeroed new pages in a range, or has changed no
  mapping when it returns 0 (`w_allocuvm`).

    • `uvm_exact`: the same of runs, with the free list.
-/

import Xv6.Vm.Tree

namespace Xv6.Vm

open Lib Prog Function

/-! ## User pages -/

/-- The page mapped at the virtual page `v`. -/
def page (m : Nat → Page) (d v : Nat) : Option Nat := (pres m d v).map pageOf

/-- The pages mapped below `KERNBASE`. -/
def Data (m : Nat → Page) (d : Nat) : Set Nat := {f | ∃ v < 2 ^ 19, page m d v = some f}

variable {m : Nat → Page}

theorem page_congr {m' : Nat → Page} {d v : Nat} (h : pres m' d v = pres m d v) : page m' d v = page m d v := by rw [page, page, h]

theorem data_congr {m' : Nat → Page} {d : Nat} (h : ∀ v, v < 2 ^ 19 → pres m' d v = pres m d v) : Data m' d = Data m d := by
  ext f
  constructor <;> intro ⟨v, hv, hf⟩
  · exact ⟨v, hv, (page_congr (h v hv)).symm.trans hf⟩
  · exact ⟨v, hv, (page_congr (h v hv)).trans hf⟩

theorem page_of_pres {d v : Nat} {e : BitVec 32} (h : pres m d v = some e) : page m d v = some (pageOf e) := by
  rw [page, h]
  rfl

variable {P : Type} {k : Image} {r r' : Res P} {d f t v : Nat} {R R' : Set Nat}

/-- The process has the directory, its tables and its user pages, each mapped once, and `R`. -/
structure Space (k : Image) (r : Res P) (d : Nat) (R : Set Nat) : Prop where
  tree : Tree k r d (R ∪ Data r.mem d)
  apart : ∀ f ∈ Data r.mem d, f ∉ R
  inj : ∀ v w f, v < 2 ^ 19 → w < 2 ^ 19 → page r.mem d v = some f → page r.mem d w = some f → v = w

/-- The mappings stay and what is beside the directory changes. -/
theorem Space.of_tree (h : Space k r d R) (ht : Tree k r' d (R' ∪ Data r.mem d)) (hp : ∀ v, v < 2 ^ 20 → pres r'.mem d v = pres r.mem d v)
    (hR : ∀ f ∈ Data r.mem d, f ∉ R') : Space k r' d R' := by
  have hd : Data r'.mem d = Data r.mem d := data_congr fun v hv => hp v (by omega)
  refine ⟨by rw [hd]; exact ht, by rw [hd]; exact hR, fun v w f hv hw h1 h2 => ?_⟩
  rw [page_congr (hp v (by omega))] at h1
  rw [page_congr (hp w (by omega))] at h2
  exact h.inj v w f hv hw h1 h2

theorem data_eq_empty (h : ∀ v, v < 2 ^ 19 → pres m d v = none) : Data m d = ∅ :=
  Set.eq_empty_of_forall_notMem fun f ⟨v, hv, hf⟩ => by
    rw [page, h v hv] at hf
    cases hf

/-- A directory that maps no user page. -/
theorem Space.of_empty (h : Tree k r d R) (he : ∀ v, v < 2 ^ 19 → pres r.mem d v = none) : Space k r d R := by
  have hd := data_eq_empty he
  refine ⟨by rw [hd, Set.union_empty]; exact h, fun f hf => ?_, fun v w f hv _ h1 => ?_⟩
  · rw [hd] at hf
    cases hf
  · rw [page, he v hv] at h1
    cases h1

theorem Space.data_mem (h : Space k r d R) (hf : f ∈ Data r.mem d) : f ∈ r.own := h.tree.rest_mem (.inr hf)

theorem Space.alloc (h : Space k r d R) (hf : f ∉ r.own) (hp : k.InPool f) (x : Page) :
    Space k (r.alloc f x) d (insert f R) ∧ ∀ v, v < 2 ^ 20 → pres (r.alloc f x).mem d v = pres r.mem d v := by
  obtain ⟨ht, hs⟩ := h.tree.alloc hf hp x
  rw [← Set.insert_union] at ht
  refine ⟨h.of_tree ht (fun v hv => hs.pres hv) fun g hg hR => ?_, fun v hv => hs.pres hv⟩
  rcases Set.mem_insert_iff.1 hR with rfl | hR
  · exact hf (h.data_mem hg)
  · exact h.apart g hg hR

theorem Space.store (h : Space k r d R) (hf : f ∈ R) (x : Page) :
    Space k (r.store f x) d R ∧ ∀ v, v < 2 ^ 20 → pres (r.store f x).mem d v = pres r.mem d v := by
  obtain ⟨ht, hs⟩ := h.tree.store (.inl hf) x
  exact ⟨h.of_tree ht (fun v hv => hs.pres hv) h.apart, fun v hv => hs.pres hv⟩

theorem Space.release (h : Space k r d R) (hf : f ∈ R) : Space k (r.release f) d (R \ {f}) := by
  obtain ⟨ht, hs⟩ := h.tree.release (.inl hf)
  have hnot : f ∉ Data r.mem d := fun hd => h.apart f hd hf
  have hset : (R ∪ Data r.mem d) \ {f} = R \ {f} ∪ Data r.mem d := by
    rw [Set.union_sdiff_distrib, Set.sdiff_singleton_eq_self hnot]
  rw [hset] at ht
  exact h.of_tree ht (fun v hv => hs.pres hv) fun g hg hR => h.apart g hg hR.1

theorem Space.deny (h : Space k r d R) : Space k r.deny d R := h.of_tree h.tree.deny (fun _ _ => rfl) h.apart

/-- A page is mapped that was beside the directory. -/
theorem Space.map (h : Space k r d (insert f R)) (hf : f ∉ R) (hv : v < 2 ^ 19) (hfree : pres r.mem d v = none) {perm : BitVec 32}
    (hperm : perm.toNat < 4096) (ht : Tree k r' d (insert f R ∪ Data r.mem d)) (hm : Mapped r.mem r'.mem d v 1 (4096 * f) perm) :
    Space k r' d R := by
  have hlt : f < 2 ^ 20 := h.tree.lt (h.tree.rest_mem (.inl (Set.mem_insert f R)))
  have hnot : f ∉ Data r.mem d := fun hd => h.apart f hd (Set.mem_insert f R)
  have hself : page r'.mem d v = some f := by
    have := hm v (by omega)
    rw [if_pos (by omega), Nat.sub_self, Nat.mul_zero, Nat.add_zero] at this
    rw [page_of_pres this, pageOf_pte hlt hperm]
  have hother : ∀ w, w < 2 ^ 19 → w ≠ v → page r'.mem d w = page r.mem d w := fun w hw e => by
    refine page_congr ?_
    rw [hm w (by omega), if_neg (by omega)]
  have hdata : Data r'.mem d = insert f (Data r.mem d) := by
    ext g
    rw [Set.mem_insert_iff]
    constructor
    · intro ⟨w, hw, hg⟩
      by_cases e : w = v
      · rw [e, hself] at hg
        exact .inl (Option.some.inj hg).symm
      · exact .inr ⟨w, hw, (hother w hw e).symm.trans hg⟩
    · intro hg
      rcases hg with rfl | ⟨w, hw, hg⟩
      · exact ⟨v, hv, hself⟩
      · have e : w ≠ v := fun e => by rw [e, page, hfree] at hg; cases hg
        exact ⟨w, hw, (hother w hw e).trans hg⟩
  refine ⟨?_, fun g hg hR => ?_, fun w u g hw hu h1 h2 => ?_⟩
  · rw [hdata, Set.union_insert, ← Set.insert_union]
    exact ht
  · rw [hdata] at hg
    rcases Set.mem_insert_iff.1 hg with rfl | hg
    · exact hf hR
    · exact h.apart g hg (Set.mem_insert_of_mem f hR)
  · -- the new page is not among the old ones
    by_cases e1 : w = v
    · by_cases e2 : u = v
      · omega
      · rw [e1, hself] at h1
        rw [hother u hu e2] at h2
        cases h1
        exact absurd ⟨u, hu, h2⟩ hnot
    · by_cases e2 : u = v
      · rw [e2, hself] at h2
        rw [hother w hw e1] at h1
        cases h2
        exact absurd ⟨w, hw, h1⟩ hnot
      · rw [hother w hw e1] at h1
        rw [hother u hu e2] at h2
        exact h.inj w u g hw hu h1 h2

/-- A mapped page is freed and its entry cleared. -/
theorem Space.unmap (h : Space k r d R) (hv : v < 2 ^ 19) {e : BitVec 32} (he : pres r.mem d v = some e) (ht : tab r.mem d (v / 1024) = some t) :
    Space k ((r.release (pageOf e)).store t ((r.mem t).setWord (v % 1024) 0)) d R ∧
    (∀ i, i < 1024 → tab ((r.release (pageOf e)).store t ((r.mem t).setWord (v % 1024) 0)).mem d i = tab r.mem d i) ∧
    (∀ w, w < 2 ^ 20 → pres ((r.release (pageOf e)).store t ((r.mem t).setWord (v % 1024) 0)).mem d w = if w = v then none else pres r.mem d w) ∧
    ∀ f ∈ R ∪ Data ((r.release (pageOf e)).store t ((r.mem t).setWord (v % 1024) 0)).mem d,
      ((r.release (pageOf e)).store t ((r.mem t).setWord (v % 1024) 0)).mem f = r.mem f := by
  have hpage : page r.mem d v = some (pageOf e) := page_of_pres he
  have hmem : pageOf e ∈ Data r.mem d := ⟨v, hv, hpage⟩
  obtain ⟨h1, s1⟩ := h.tree.release (.inr hmem)
  obtain ⟨h2, htab, hent⟩ := h1.write (v := v) (t := t) (by omega) (by rw [s1.tab _ (by omega), ht]) 0
  have htR : t ∉ R ∪ Data r.mem d := (h.tree.table _ t (by omega) ht).1
  generalize hr : (r.release (pageOf e)).store t ((r.mem t).setWord (v % 1024) 0) = r'
  have hr' : (r.release (pageOf e)).store t (((r.release (pageOf e)).mem t).setWord (v % 1024) 0) = r' := hr
  rw [hr'] at h2 htab hent
  have hpres : ∀ w, w < 2 ^ 20 → pres r'.mem d w = if w = v then none else pres r.mem d w := fun w hw => by
    by_cases e' : w = v
    · rw [if_pos e', pres_eq_none]
      intro x hx
      rw [hent w hw, if_pos e'] at hx
      cases hx
      exact not_present_zero
    · rw [if_neg e']
      refine pres_congr ?_
      rw [hent w hw, if_neg e', s1.ent w hw]
  have hother : ∀ w, w < 2 ^ 19 → w ≠ v → page r'.mem d w = page r.mem d w := fun w hw e' => page_congr (by rw [hpres w (by omega), if_neg e'])
  have hself : page r'.mem d v = none := by
    rw [page, hpres v (by omega), if_pos rfl]
    rfl
  have hdata : Data r'.mem d = Data r.mem d \ {pageOf e} := by
    ext g
    constructor
    · intro ⟨w, hw, hg⟩
      have e' : w ≠ v := fun e' => by rw [e', hself] at hg; cases hg
      rw [hother w hw e'] at hg
      refine ⟨⟨w, hw, hg⟩, fun eg => e' (h.inj w v _ hw hv hg ?_)⟩
      rw [hpage, Set.mem_singleton_iff.1 eg]
    · intro ⟨⟨w, hw, hg⟩, hne⟩
      have e' : w ≠ v := fun e' => by
        rw [e', hpage] at hg
        exact hne (Option.some.inj hg).symm
      exact ⟨w, hw, (hother w hw e').trans hg⟩
  have hset : (R ∪ Data r.mem d) \ {pageOf e} = R ∪ Data r'.mem d := by
    rw [hdata, Set.union_sdiff_distrib, Set.sdiff_singleton_eq_self (h.apart _ hmem)]
  refine ⟨⟨by rw [← hset]; exact h2, fun g hg => h.apart g (by rw [hdata] at hg; exact hg.1), fun w u g hw hu e1 e2 => ?_⟩,
    fun i hi => (htab i).trans (s1.tab i hi), hpres, fun g hg => ?_⟩
  · have w1 : w ≠ v := fun e' => by rw [e', hself] at e1; cases e1
    have u1 : u ≠ v := fun e' => by rw [e', hself] at e2; cases e2
    rw [hother w hw w1] at e1
    rw [hother u hu u1] at e2
    exact h.inj w u g hw hu e1 e2
  · rw [← hset] at hg
    rw [← hr]
    exact update_of_ne (show g ≠ t from fun e' => htR (e' ▸ hg.1)) _ _

/-! ## Shrinking -/

/-- The pages at addresses from `lo` to below `hi` have been unmapped and freed. -/
structure Freed (k : Image) (d : Nat) (R : Set Nat) (lo hi : Nat) (r r' : Res P) : Prop where
  space : Space k r' d R
  tab : ∀ i, i < 1024 → tab r'.mem d i = tab r.mem d i
  pres : ∀ w, w < 2 ^ 20 → pres r'.mem d w = if lo ≤ 4096 * w ∧ 4096 * w < hi then none else pres r.mem d w
  mem : ∀ f ∈ R ∪ Data r'.mem d, r'.mem f = r.mem f
  proc : r'.proc = r.proc
  denied : r'.denied = r.denied

variable {hi lo v₀ newsz oldsz : Nat}

theorem Freed.refl (h : Space k r d R) (hle : hi ≤ lo) : Freed k d R lo hi r r :=
  ⟨h, fun _ _ => rfl, fun w _ => by rw [if_neg (by omega)], fun _ _ => rfl, rfl, rfl⟩

/-- Nothing is mapped in the part of the range that is left out. -/
theorem Freed.skip {lo' : Nat} (h : Freed k d R lo' hi r r') (hle : lo ≤ lo')
    (hn : ∀ w, w < 2 ^ 20 → lo ≤ 4096 * w → 4096 * w < lo' → Vm.pres r.mem d w = none) : Freed k d R lo hi r r' := by
  refine ⟨h.space, h.tab, fun w hw => ?_, h.mem, h.proc, h.denied⟩
  rw [h.pres w hw]
  by_cases e : lo' ≤ 4096 * w
  · by_cases e' : 4096 * w < hi
    · rw [if_pos ⟨e, e'⟩, if_pos ⟨by omega, e'⟩]
    · rw [if_neg fun h => e' h.2, if_neg fun h => e' h.2]
  · rw [if_neg fun h => e h.1]
    by_cases e' : lo ≤ 4096 * w ∧ 4096 * w < hi
    · rw [if_pos e', hn w hw e'.1 (by omega)]
    · rw [if_neg e']

theorem Freed.data (h : Freed k d R f t r r') : Data r'.mem d ⊆ Data r.mem d := by
  intro g ⟨w, hw, hg⟩
  refine ⟨w, hw, ?_⟩
  rw [page, h.pres w (by omega)] at hg
  split at hg
  · cases hg
  · exact hg

theorem Freed.trans {mid : Nat} {r'' : Res P} (h1 : Freed k d R lo mid r r') (h2 : Freed k d R mid hi r' r'') (hle : lo ≤ mid)
    (hle' : ∀ w, lo ≤ 4096 * w → 4096 * w < mid → 4096 * w < hi) : Freed k d R lo hi r r'' := by
  refine ⟨h2.space, fun i hi => (h2.tab i hi).trans (h1.tab i hi), fun w hw => ?_, fun f hf => ?_, h2.proc.trans h1.proc, h2.denied.trans h1.denied⟩
  · rw [h2.pres w hw, h1.pres w hw]
    by_cases e : mid ≤ 4096 * w ∧ 4096 * w < hi
    · rw [if_pos e, if_pos (by omega)]
    · rw [if_neg e]
      by_cases e' : lo ≤ 4096 * w ∧ 4096 * w < mid
      · rw [if_pos e', if_pos ⟨e'.1, hle' w e'.1 e'.2⟩]
      · rw [if_neg e', if_neg (by omega)]
  · rw [h2.mem f hf]
    exact h1.mem f (hf.imp_right fun hd => h2.data hd)

/-! ## Growing -/

/-- New pages of zeros are mapped from the page `v₀` to below `v`. -/
structure Grown (k : Image) (d : Nat) (R : Set Nat) (v₀ v : Nat) (r r' : Res P) : Prop where
  space : Space k r' d R
  old : ∀ w, w < 2 ^ 20 → ¬ (v₀ ≤ w ∧ w < v) → pres r'.mem d w = pres r.mem d w
  new : ∀ w, v₀ ≤ w → w < v → ∃ f, k.InPool f ∧ f ∉ r.own ∧ pres r'.mem d w = some (pte (4096 * f) (PTE_W ||| PTE_U)) ∧ r'.mem f = fun _ => 0
  own : r.own ⊆ r'.own
  mem : ∀ f ∈ R ∪ Data r.mem d, r'.mem f = r.mem f
  proc : r'.proc = r.proc
  denied : r'.denied = r.denied

theorem Grown.refl (h : Space k r d R) (v : Nat) : Grown k d R v v r r :=
  ⟨h, fun _ _ _ => rfl, fun w h1 h2 => by omega, subset_rfl, fun _ _ => rfl, rfl, rfl⟩

/-- There was no memory, and the mappings are what they were. -/
structure Refused (k : Image) (d : Nat) (R : Set Nat) (r r' : Res P) : Prop where
  space : Space k r' d R
  pres : ∀ w, w < 2 ^ 20 → pres r'.mem d w = pres r.mem d w
  mem : ∀ f ∈ R ∪ Data r.mem d, r'.mem f = r.mem f
  proc : r'.proc = r.proc
  denied : ∃ o, r'.denied = o :: r.denied

/-- A new page with the contents `y` is mapped at `v`. -/
structure Added (k : Image) (d : Nat) (R : Set Nat) (v f : Nat) (perm : BitVec 32) (y : Page) (r r' : Res P) : Prop where
  new : f ∉ r.own
  pool : k.InPool f
  space : Space k r' d R
  pres : ∀ w, w < 2 ^ 20 → pres r'.mem d w = if w = v then some (pte (4096 * f) perm) else pres r.mem d w
  page : r'.mem f = y
  own : r.own ⊆ r'.own
  mem : ∀ g ∈ R ∪ Data r.mem d, r'.mem g = r.mem g
  proc : r'.proc = r.proc
  denied : r'.denied = r.denied

/-- The new page is still beside the directory. -/
structure NotAdded (k : Image) (d : Nat) (R : Set Nat) (f : Nat) (r r' : Res P) : Prop where
  new : f ∉ r.own
  space : Space k r' d (insert f R)
  pres : ∀ w, w < 2 ^ 20 → pres r'.mem d w = pres r.mem d w
  mem : ∀ g ∈ R ∪ Data r.mem d, r'.mem g = r.mem g
  proc : r'.proc = r.proc
  denied : ∃ o, r'.denied = o :: r.denied

/-- Once the new page is given back, only tables may have been added. -/
theorem NotAdded.release (h : NotAdded k d R f r r') (hsp : Space k r d R) : Refused k d R r (r'.release f) := by
  have := h.space.release (Set.mem_insert f R)
  rw [Set.insert_sdiff_self_of_notMem fun hR => h.new (hsp.tree.rest_mem (.inl hR))] at this
  exact ⟨this, h.pres, h.mem, h.proc, h.denied⟩

/-- What was beside the directory or mapped is still there. -/
theorem Grown.rest_mem (h : Grown k d R v₀ v r r') (hfree : ∀ w, v₀ ≤ w → w < v → pres r.mem d w = none)
    (hf : f ∈ R ∪ Data r.mem d) : f ∈ R ∪ Data r'.mem d := by
  refine hf.imp_right fun ⟨w, hw, hw'⟩ => ⟨w, hw, ?_⟩
  rw [page_congr (h.old w (by omega) fun hin => ?_)]
  · exact hw'
  · rw [page, hfree w hin.1 hin.2] at hw'
    cases hw'

/-- One more page of zeros. -/
theorem Grown.snoc {r₀ : Res P} (h : Grown k d R v₀ v r₀ r) (hv₀ : v₀ ≤ v) (hv : v < 2 ^ 19)
    (hfree : ∀ w, v₀ ≤ w → w ≤ v → pres r₀.mem d w = none) (ha : Added k d R v f (PTE_W ||| PTE_U) (fun _ => 0) r r') :
    Grown k d R v₀ (v + 1) r₀ r' := by
  refine ⟨ha.space, fun w hw hnot => ?_, fun w hw1 hw2 => ?_, h.own.trans ha.own, fun g hg => ?_, ha.proc.trans h.proc, ha.denied.trans h.denied⟩
  · rw [ha.pres w hw, if_neg (by omega)]
    exact h.old w hw (by omega)
  · by_cases e : w = v
    · exact ⟨f, ha.pool, fun ho => ha.new (h.own ho), by rw [ha.pres w (by omega), if_pos e], ha.page⟩
    · obtain ⟨g, hgp, hg, hg', hgz⟩ := h.new w hw1 (by omega)
      have hgd : g ∈ Data r.mem d := ⟨w, by omega, by rw [page_of_pres hg', pageOf_pte hgp.lt.2 (by decide)]⟩
      exact ⟨g, hgp, hg, by rw [ha.pres w (by omega), if_neg e]; exact hg', by rw [ha.mem g (.inr hgd), hgz]⟩
  · rw [ha.mem g (h.rest_mem (fun w h1 h2 => hfree w h1 (by omega)) hg), h.mem g hg]

/-- Rolling back: what was mapped from `v₀` on is unmapped again. -/
theorem Grown.undo {r₀ r₁ : Res P} (h : Grown k d R v₀ v r₀ r) (hold : (oldsz + 4095) / 4096 = v₀)
    (hnew : v ≤ max v₀ ((newsz + 4095) / 4096)) (hfree : ∀ w, v₀ ≤ w → 4096 * w < newsz → pres r₀.mem d w = none)
    (hf : Freed k d R' oldsz newsz r₁ r') (hR : R ⊆ R')
    (hp : ∀ w, w < 2 ^ 20 → pres r₁.mem d w = pres r.mem d w) (hk : ∀ f ∈ R ∪ Data r₀.mem d, r₁.mem f = r.mem f) :
    (∀ w, w < 2 ^ 20 → pres r'.mem d w = pres r₀.mem d w) ∧ ∀ f ∈ R ∪ Data r₀.mem d, r'.mem f = r₀.mem f := by
  have hpres : ∀ w, w < 2 ^ 20 → pres r'.mem d w = pres r₀.mem d w := fun w hw => by
    rw [hf.pres w hw]
    by_cases e : oldsz ≤ 4096 * w ∧ 4096 * w < newsz
    · rw [if_pos e, hfree w (by omega) e.2]
    · rw [if_neg e, hp w hw]
      exact h.old w hw (by omega)
  refine ⟨hpres, fun f hfm => ?_⟩
  rw [hf.mem f, hk f hfm, h.mem f hfm]
  rw [data_congr fun w hw => hpres w (by omega)]
  exact hfm.imp_left fun hf => hR hf

/-! ## The code -/

theorem PGADDR_zero (i : Nat) : PGADDR i 0 0 = uint (i * 2 ^ 22) := by
  rw [PGADDR, Nat.zero_shiftLeft, Nat.or_zero, Nat.or_zero, Nat.shiftLeft_eq]

theorem PGROUNDUP_eq {n : Nat} (h : n ≤ 2 ^ 31) : PGROUNDUP n = 4096 * ((n + 4095) / 4096) := by
  unfold PGROUNDUP uint
  omega

variable [DecidableEq P] {B : Err → Prop} {p : P}

theorem w_deallocLoop {fuel : Nat} (h : Space k r d R) (ho : oldsz ≤ KERNBASE) (hv : v ≤ 2 ^ 19) (hfuel : 2 ^ 19 - v < fuel)
    {Q : Unit → Res P → Prop} (hQ : ∀ r', Freed k d R (4096 * v) oldsz r r' → Q () r') : W k B p (deallocLoop d oldsz fuel (4096 * v)) Q r := by
  have ho : oldsz ≤ 0x80000000 := ho
  induction fuel generalizing v r with
  | zero => omega
  | succ fuel ih =>
    refine w_if (fun hlt => ?_) fun hge => hQ r (.refl h (by omega))
    refine w_bind (w_walk h.tree.dir_mem (by omega) (fun hn => ?_) fun t ht => ?_)
    · -- no table: on to the next region
      have ha : uint (uint (PGADDR (PDX (4096 * v) + 1) 0 0 + (2 ^ 32 - 4096)) + 4096) = 4096 * ((v / 1024 + 1) * 1024) := by
        rw [PGADDR_zero, PDX_page (by omega)]
        unfold uint
        omega
      show W k B p (deallocLoop d oldsz fuel _) Q r
      rw [ha]
      refine ih h (by omega) (by omega) fun r' hf => hQ r' (hf.skip (by omega) fun w hw h1 h2 => ?_)
      exact pres_of_no_tab (by rw [show w / 1024 = v / 1024 by omega]; exact hn)
    · have hmem : t ∈ r.own := h.tree.table_mem (by omega) ht
      have ha : uint (4096 * v + 4096) = 4096 * (v + 1) := by unfold uint; omega
      refine w_read hmem (w_if (fun hp => ?_) fun hp => ?_)
      · have he : pres r.mem d v = some ((r.mem t).word (v % 1024)) := pres_eq_some.2 ⟨ent_of_tab ht, hp⟩
        have hdata : pageOf ((r.mem t).word (v % 1024)) ∈ r.own := h.data_mem ⟨v, by omega, page_of_pres he⟩
        refine w_if (fun h0 => ?_) fun _ => ?_
        · have := (h.tree.pool _ hdata).lt.1
          omega
        obtain ⟨h1, htab, hpres, hkeep⟩ := h.unmap (by omega) he ht
        have htmem : t ∈ (r.release (pageOf ((r.mem t).word (v % 1024)))).own := by
          refine ⟨hmem, fun e => (h.tree.table _ t (by omega) ht).1 (.inr ?_)⟩
          rw [Set.mem_singleton_iff.1 e]
          exact ⟨v, by omega, page_of_pres he⟩
        refine w_kfree hdata (w_write htmem ?_)
        rw [ha]
        refine ih h1 (by omega) (by omega) fun r' hf => hQ r' (Freed.trans ⟨h1, htab, fun w hw => ?_, hkeep, rfl, rfl⟩ hf (by omega) fun w _ _ => by omega)
        rw [hpres w hw]
        by_cases e : w = v
        · rw [if_pos e, if_pos (by omega)]
        · rw [if_neg e, if_neg (by omega)]
      · rw [ha]
        refine ih h (by omega) (by omega) fun r' hf => hQ r' (hf.skip (by omega) fun w hw h1 h2 => ?_)
        rw [show w = v by omega, pres_eq_none]
        intro x hx
        rw [ent_of_tab ht] at hx
        cases hx
        exact hp

theorem w_deallocuvm (h : Space k r d R) (ho : oldsz ≤ KERNBASE) {Q : Nat → Res P → Prop}
    (hQ : ∀ r', Freed k d R newsz oldsz r r' → Q (min oldsz newsz) r') : W k B p (deallocuvm d oldsz newsz) Q r := by
  have ho' : oldsz ≤ 0x80000000 := ho
  refine w_if (fun hle => ?_) fun hlt => w_bind ?_
  · have := hQ r (.refl h hle)
    rw [Nat.min_eq_left hle] at this
    exact this
  · rw [PGROUNDUP_eq (by omega)]
    refine w_deallocLoop h ho (by omega) (by unfold steps; omega) fun r' hf => ?_
    have := hQ r' (hf.skip (by omega) fun w _ _ _ => by omega)
    rw [Nat.min_eq_right (by omega)] at this
    exact this

/-- `mappages` for one user page, just allocated and filled. -/
theorem w_mapNew (h : Space k r d R) (hf : f ∉ r.own) (hpool : k.InPool f) {x y : Page} (hv : v < 2 ^ 19) (hfree : pres r.mem d v = none)
    {perm : BitVec 32} (hperm : perm.toNat < 4096) {Q : Int → Res P → Prop} (hok : ∀ r', Added k d R v f perm y r r' → Q 0 r')
    (hno : ∀ r', NotAdded k d R f r r' → Q (-1) r') : W k B p (mappages d (4096 * v) 4096 (4096 * f) perm) Q ((r.alloc f x).store f y) := by
  obtain ⟨h1, p1⟩ := h.alloc hf hpool x
  obtain ⟨h2, p2⟩ := h1.store (Set.mem_insert f R) y
  have hfR : f ∉ R := fun hR => hf (h.tree.rest_mem (.inl hR))
  have hp : ∀ w, w < 2 ^ 20 → pres ((r.alloc f x).store f y).mem d w = pres r.mem d w := fun w hw => (p2 w hw).trans (p1 w hw)
  have hdata : Data ((r.alloc f x).store f y).mem d = Data r.mem d := data_congr fun w hw => hp w (by omega)
  have hkeep : ∀ {r' : Res P}, Moved k d (insert f R ∪ Data ((r.alloc f x).store f y).mem d) ((r.alloc f x).store f y) r' →
      ∀ g ∈ R ∪ Data r.mem d, r'.mem g = r.mem g := fun hm g hg => by
    have hgf : g ≠ f := fun e => hf (e ▸ h.tree.rest_mem hg)
    rw [← hdata] at hg
    rw [hm.mem g (hg.imp_left (Set.mem_insert_of_mem f))]
    exact (update_of_ne hgf _ _).trans (update_of_ne hgf _ _)
  refine w_mappages (n := 1) h2.tree (by omega) (by omega) (fun w hw1 hw2 => ?_) ⟨fun r' hm hd hmap _ => ?_, fun r' j hj hm ⟨r₁, _, hs⟩ hmap => ?_⟩
  · rw [show w = v by omega, hp v (by omega), hfree]
  · refine hok r' ⟨hf, hpool, h2.map hfR hv (by rw [hp v (by omega), hfree]) hperm hm.tree hmap, fun w hw => ?_, ?_, ?_, hkeep hm, hm.proc, hd⟩
    · by_cases e : w = v
      · rw [hmap w hw, if_pos (by omega), if_pos e, e, Nat.sub_self, Nat.mul_zero, Nat.add_zero]
      · rw [hmap w hw, if_neg (by omega), if_neg e, hp w hw]
    · rw [hm.mem f (.inl (Set.mem_insert f R))]
      exact update_self f _ _
    · exact (Set.subset_insert f _).trans hm.own
  · have hpr : ∀ w, w < 2 ^ 20 → pres r'.mem d w = pres ((r.alloc f x).store f y).mem d w := fun w hw => by rw [hmap w hw, if_neg (by omega)]
    exact hno r' ⟨hf, h2.of_tree hm.tree hpr h2.apart, fun w hw => (hpr w hw).trans (hp w hw), hkeep hm, hm.proc, _, hs⟩

theorem w_allocLoop {r₀ : Res P} {fuel : Nat} (h : Grown k d R v₀ v r₀ r) (hold : (oldsz + 4095) / 4096 = v₀) (hsz : newsz < KERNBASE)
    (hv₀ : v₀ ≤ v) (hv : v ≤ max v₀ ((newsz + 4095) / 4096)) (hfuel : 2 ^ 19 - v < fuel)
    (hfree : ∀ w, v₀ ≤ w → 4096 * w < newsz → pres r₀.mem d w = none) {Q : Bool → Res P → Prop}
    (hok : ∀ r', Grown k d R v₀ (max v₀ ((newsz + 4095) / 4096)) r₀ r' → Q true r') (hno : ∀ r', Refused k d R r₀ r' → Q false r') :
    W k B p (allocLoop d oldsz newsz fuel (4096 * v)) Q r := by
  have hsz' : newsz < 0x80000000 := hsz
  induction fuel generalizing v r with
  | zero => omega
  | succ fuel ih =>
    refine w_if (fun hlt => ?_) fun hge => ?_
    · refine w_kalloc ?_ fun f x hf hp => ?_
      · refine w_bind (w_deallocuvm h.space.deny (Nat.le_of_lt hsz) fun r' hfr => ?_)
        obtain ⟨h1, h2⟩ := h.undo hold hv hfree hfr subset_rfl (fun _ _ => rfl) fun _ _ => rfl
        exact hno r' ⟨hfr.space, h1, h2, hfr.proc.trans h.proc, _, hfr.denied.trans (by rw [← h.denied]; rfl)⟩
      · have hfreev : pres r.mem d v = none := (h.old v (by omega) (by omega)).trans (hfree v hv₀ hlt)
        refine w_memset (Set.mem_insert f _) (w_bind ?_)
        refine w_mapNew h.space hf hp (by omega) hfreev (by decide) (fun r₁ ha => ?_) fun r₁ hn => ?_
        · refine w_if (fun e => nomatch e) fun _ => ?_
          rw [show uint (4096 * v + 4096) = 4096 * (v + 1) by unfold uint; omega]
          exact ih (h.snoc hv₀ (by omega) (fun w hw1 hw2 => hfree w hw1 (by omega)) ha) (by omega) (by omega) (by omega)
        · -- no table for the page: it goes back with the others
          refine w_if (fun _ => ?_) fun e => absurd (by decide) e
          have hkeep : ∀ g ∈ R ∪ Data r₀.mem d, r₁.mem g = r.mem g := fun g hg =>
            hn.mem g (h.rest_mem (fun w h1 h2 => hfree w h1 (by omega)) hg)
          refine w_bind (w_deallocuvm hn.space (Nat.le_of_lt hsz) fun r' hfr => ?_)
          obtain ⟨h2, h3⟩ := h.undo hold hv hfree hfr (Set.subset_insert f R) hn.pres hkeep
          refine w_kfree (hfr.space.tree.rest_mem (.inl (Set.mem_insert f R))) (hno _ ⟨?_, h2, h3, ?_, ?_⟩)
          · have := hfr.space.release (Set.mem_insert f R)
            rwa [Set.insert_sdiff_self_of_notMem fun hR => hf (h.space.tree.rest_mem (.inl hR))] at this
          · exact hfr.proc.trans (hn.proc.trans h.proc)
          · obtain ⟨o, hd⟩ := hn.denied
            exact ⟨o, hfr.denied.trans (hd.trans (by rw [← h.denied]))⟩
    · have : v = max v₀ ((newsz + 4095) / 4096) := by omega
      exact hok r (this ▸ h)

theorem w_allocuvm (h : Space k r d R) (hfree : ∀ w, w < 2 ^ 19 → oldsz ≤ 4096 * w → 4096 * w < newsz → pres r.mem d w = none)
    {Q : Nat → Res P → Prop} (hbig : KERNBASE ≤ newsz → Q 0 r) (hless : newsz < oldsz → Q oldsz r)
    (hok : oldsz ≤ newsz → newsz < KERNBASE → ∀ r', Grown k d R ((oldsz + 4095) / 4096) ((newsz + 4095) / 4096) r r' → Q newsz r')
    (hno : ∀ r', Refused k d R r r' → Q 0 r') : W k B p (allocuvm d oldsz newsz) Q r := by
  refine w_if hbig fun hsz => w_if hless fun hle => w_bind ?_
  have hsz' : newsz < 0x80000000 := Nat.lt_of_not_le hsz
  have hmax : max ((oldsz + 4095) / 4096) ((newsz + 4095) / 4096) = (newsz + 4095) / 4096 := by omega
  rw [PGROUNDUP_eq (by omega)]
  refine w_allocLoop (Grown.refl h _) rfl (Nat.lt_of_not_le hsz) (Nat.le_refl _) (by omega)
    (by unfold steps; omega) (fun w h1 h2 => hfree w (by omega) (by omega) h2) (fun r' hg => w_if (fun _ => ?_) fun e => absurd rfl e)
    fun r' hr => w_if (fun e => nomatch e) fun _ => hno r' hr
  rw [hmax] at hg
  exact hok (by omega) (Nat.lt_of_not_le hsz) r' hg

/-! ## Runs -/

/-- The directory, its tables and the user pages it maps are allocated, and all different. -/
def Dir (k : Image) (s : St P) (d : Nat) : Prop := ∃ R, Space k (s.res k) d R

/-- What belongs neither to the directory `d` nor to its tables. -/
def Beside (k : Image) (s : St P) (d f : Nat) : Prop := f ∈ s.used k ∧ f ≠ d ∧ ∀ i < 1024, tab s.mem d i ≠ some f

omit [DecidableEq P] in
theorem Beside.mem {s : St P} (h : Beside k s d f) (hsp : Space k (s.res k) d R) : f ∈ R ∪ Data s.mem d := by
  obtain ⟨h1, h2, h3⟩ := h
  rcases (hsp.tree.own f).1 h1 with hf | hf | ⟨i, hi, ht⟩
  · exact hf
  · exact absurd hf h2
  · exact absurd ht (h3 i hi)

omit [DecidableEq P] in
/-- The state after a run has the directory that the process has. -/
theorem Space.agrees {s : St P} (h : Space k r d R) (ha : Agree k r s) : Space k (s.res k) d R ∧ SameDir r.mem s.mem d := by
  have hown : ∀ f, f ∈ (s.res k).own ↔ f ∈ R ∪ Data r.mem d ∨ f ∈ r.own ∧ f ∉ R ∪ Data r.mem d := fun f => by
    show f ∈ s.used k ↔ _
    rw [ha.used]
    by_cases hf : f ∈ R ∪ Data r.mem d
    · simp only [hf, not_true, and_false, or_false, iff_true]
      exact h.tree.rest_mem hf
    · simp only [hf, not_false_iff, and_true, false_or]
  obtain ⟨ht, hs⟩ := h.tree.change hown (fun f hf _ => ha.mem f hf) (fun _ hf _ => hf) fun f hf => h.tree.pool f (h.tree.rest_mem hf)
  exact ⟨h.of_tree ht (fun v hv => hs.pres hv) h.apart, hs⟩

/-- The pages mapped below `KERNBASE` are those below `sz`. -/
def MapsBelow (m : Nat → Page) (d sz : Nat) : Prop := ∀ v, v < 2 ^ 19 → (pres m d v ≠ none ↔ 4096 * v < PGROUNDUP sz)

/-- New pages of zeros are mapped from `oldsz` up to `newsz`, and nothing else has changed. -/
structure Extended (s : St P) (d oldsz newsz : Nat) (s' : St P) : Prop where
  maps : MapsBelow s'.mem d newsz
  old : ∀ v, v < 2 ^ 20 → 4096 * v < PGROUNDUP oldsz ∨ PGROUNDUP newsz ≤ 4096 * v → pres s'.mem d v = pres s.mem d v
  new : ∀ v, PGROUNDUP oldsz ≤ 4096 * v → 4096 * v < PGROUNDUP newsz →
    ∃ f ∈ s.free, pres s'.mem d v = some (pte (4096 * f) (PTE_W ||| PTE_U)) ∧ s'.mem f = (fun _ => 0)

/-- What `allocuvm` comes to: it maps new pages, it has nothing to do, or there is no memory. -/
def Allocated (s : St P) (d oldsz newsz x : Nat) (s' : St P) : Prop :=
  (x = newsz ∧ oldsz ≤ newsz ∧ Extended s d oldsz newsz s') ∨
  (x = oldsz ∧ newsz < oldsz ∧ ∀ v, v < 2 ^ 20 → pres s'.mem d v = pres s.mem d v) ∨
  (x = 0 ∧ s.denied < s'.denied ∧ ∀ v, v < 2 ^ 20 → pres s'.mem d v = pres s.mem d v)

section Exact

variable {s s' s₀ : St P} {oldsz newsz : Nat}

omit [DecidableEq P] in
theorem Grown.extended (h : Grown k d R ((oldsz + 4095) / 4096) ((newsz + 4095) / 4096) (s.res k) r)
    (ho : oldsz < KERNBASE) (hn : newsz < KERNBASE) (hle : oldsz ≤ newsz) (hmap : MapsBelow s.mem d oldsz) (ha : Agree k r s') :
    Extended s d oldsz newsz s' := by
  have ho : oldsz < 0x80000000 := ho
  have hn : newsz < 0x80000000 := hn
  obtain ⟨_, hsame⟩ := h.space.agrees ha
  have hpres : ∀ v, v < 2 ^ 20 → pres s'.mem d v = pres r.mem d v := fun v hv => hsame.pres hv
  have hnew : ∀ v, (oldsz + 4095) / 4096 ≤ v → v < (newsz + 4095) / 4096 →
      ∃ f ∈ s.free, pres s'.mem d v = some (pte (4096 * f) (PTE_W ||| PTE_U)) ∧ s'.mem f = (fun _ => 0) := fun v h1 h2 => by
    obtain ⟨f, hp, hf, hpr, hz⟩ := h.new v h1 h2
    have hfree : f ∈ s.free := by
      by_contra hnot
      exact hf ⟨hp, hnot⟩
    have hown : f ∈ r.own := h.space.data_mem ⟨v, by omega, by rw [page_of_pres hpr, pageOf_pte hp.lt.2 (by decide)]⟩
    exact ⟨f, hfree, by rw [hpres v (by omega), hpr], by rw [ha.mem f hown, hz]⟩
  rw [MapsBelow, PGROUNDUP_eq (by omega)] at hmap
  refine ⟨?_, ?_, ?_⟩
  · rw [MapsBelow, PGROUNDUP_eq (by omega)]
    intro v hv
    by_cases hin : (oldsz + 4095) / 4096 ≤ v ∧ v < (newsz + 4095) / 4096
    · obtain ⟨f, _, hpr, _⟩ := hnew v hin.1 hin.2
      rw [hpr]
      exact ⟨fun _ => by omega, fun _ e => nomatch e⟩
    · rw [hpres v (by omega), h.old v (by omega) hin]
      exact (hmap v hv).trans (by omega)
  · rw [PGROUNDUP_eq (by omega), PGROUNDUP_eq (by omega)]
    intro v hv hout
    rw [hpres v hv]
    exact h.old v hv (by omega)
  · rw [PGROUNDUP_eq (by omega), PGROUNDUP_eq (by omega)]
    intro v h1 h2
    exact hnew v (by omega) (by omega)

omit [DecidableEq P] in
/-- What `deallocuvm` has freed is on the free list. -/
theorem Freed.free_iff (hs : Sane k s) (hsp : Space k (s.res k) d R) (h : Freed k d R newsz oldsz (s.res k) r) (ho : oldsz ≤ KERNBASE) (ha : Alone k s₀ r s') (f : Nat) :
    f ∈ s'.free ↔ f ∈ s.free ∨ ∃ v, newsz ≤ 4096 * v ∧ 4096 * v < oldsz ∧ page s.mem d v = some f := by
  have ho : oldsz ≤ 0x80000000 := ho
  have hpage : ∀ v, v < 2 ^ 20 → page r.mem d v = if newsz ≤ 4096 * v ∧ 4096 * v < oldsz then none else page s.mem d v := fun v hv => by
    rw [page, h.pres v hv]
    split <;> rfl
  constructor
  · intro hf
    by_contra hnot
    rw [not_or] at hnot
    have hpool := ha.free f hf
    have hown : f ∉ r.own := fun ho => ((ha.own f).1 ho).2 hf
    -- it was allocated and is not any more, so it was one of the pages in the range
    rcases (hsp.tree.own f).1 ⟨hpool, hnot.1⟩ with (hR | ⟨v, hv, hpv⟩) | hd | ⟨i, hi, ht⟩
    · exact hown (h.space.tree.rest_mem (.inl hR))
    · by_cases hin : newsz ≤ 4096 * v ∧ 4096 * v < oldsz
      · exact hnot.2 ⟨v, hin.1, hin.2, hpv⟩
      · exact hown (h.space.data_mem ⟨v, hv, by rw [hpage v (by omega), if_neg hin]; exact hpv⟩)
    · rw [hd] at hown
      exact hown h.space.tree.dir_mem
    · exact hown (h.space.tree.table_mem hi ((h.tab i hi).trans ht))
  · intro hf
    by_contra hnot
    rcases hf with hf | ⟨v, h1, h2, hpv⟩
    · have hown : f ∈ r.own := (ha.own f).2 ⟨hs.free f hf, hnot⟩
      have hused : f ∉ (s.res k).own := fun hu => hu.2 hf
      refine hused ((hsp.tree.own f).2 ?_)
      rcases (h.space.tree.own f).1 hown with (hR | hdt) | hd | ⟨i, hi, ht⟩
      · exact .inl (.inl hR)
      · exact .inl (.inr (h.data hdt))
      · exact .inr (.inl hd)
      · exact .inr (.inr ⟨i, hi, (h.tab i hi).symm.trans ht⟩)
    · have hdata : f ∈ Data s.mem d := ⟨v, by omega, hpv⟩
      have hown : f ∈ r.own := (ha.own f).2 ⟨(hsp.data_mem hdata).1, hnot⟩
      rcases (h.space.tree.own f).1 hown with (hR | ⟨w, hw, hpw⟩) | hd | ⟨i, hi, ht⟩
      · exact hsp.apart f hdata hR
      · rw [hpage w (by omega)] at hpw
        split at hpw
        · cases hpw
        · have := hsp.inj v w f (by omega) hw hpv hpw
          omega
      · rw [hd] at hdata
        exact hsp.tree.dir (.inr hdata)
      · exact (hsp.tree.table i f hi ((h.tab i hi).symm.trans ht)).1 (.inr hdata)

end Exact

/-- `allocuvm` and `deallocuvm` change the mappings they are to change. -/
theorem uvm_exact (p : P) {s : St P} (hs : Sane k s) (hd : Dir k s d) (oldsz newsz : Nat) :
    (oldsz < KERNBASE → newsz < KERNBASE → MapsBelow s.mem d oldsz →
      Ends (effect k) p (allocuvm d oldsz newsz) s (fun x s' => Sane k s' ∧ Dir k s' d ∧ Allocated s d oldsz newsz x s' ∧
        ∀ f, Beside k s d f → f ∈ s'.used k ∧ s'.mem f = s.mem f) (fun _ => False) False) ∧
    (oldsz ≤ KERNBASE →
      Ends (effect k) p (deallocuvm d oldsz newsz) s (fun x s' => Sane k s' ∧ Dir k s' d ∧ x = min oldsz newsz ∧
        (∀ v, v < 2 ^ 20 → pres s'.mem d v = if newsz ≤ 4096 * v ∧ 4096 * v < oldsz then none else pres s.mem d v) ∧
        (∀ f, f ∈ s'.free ↔ f ∈ s.free ∨ ∃ v, newsz ≤ 4096 * v ∧ 4096 * v < oldsz ∧ page s.mem d v = some f) ∧
        ∀ f, Beside k s d f → f ∈ s'.used k → s'.mem f = s.mem f) (fun _ => False) False) := by
  obtain ⟨R, hsp⟩ := hd
  refine ⟨fun ho hn hmap => ?_, fun ho => ?_⟩
  · have hround : PGROUNDUP oldsz = 4096 * ((oldsz + 4095) / 4096) := PGROUNDUP_eq (Nat.le_of_lt ho)
    have hfree : ∀ w, w < 2 ^ 19 → oldsz ≤ 4096 * w → 4096 * w < newsz → pres (s.res k).mem d w = none := fun w hw h1 h2 => by
      by_contra hne
      have := (hmap w hw).1 hne
      omega
    -- whichever way it ends, the directory and what is beside it are kept
    have hfin : ∀ {x r s'}, Space k r d R → (∀ f ∈ R ∪ Data s.mem d, f ∈ r.own ∧ r.mem f = s.mem f) → Alone k s r s' →
        Allocated s d oldsz newsz x s' → Sane k s' ∧ Dir k s' d ∧ Allocated s d oldsz newsz x s' ∧
          ∀ f, Beside k s d f → f ∈ s'.used k ∧ s'.mem f = s.mem f := fun hr hk ha hx =>
      ⟨ha.sane, ⟨R, (hr.agrees ha.agree).1⟩, hx, fun f hb => by
        obtain ⟨h1, h2⟩ := hk f (hb.mem hsp)
        exact ⟨by rw [ha.agree.used]; exact h1, by rw [ha.mem f h1, h2]⟩⟩
    refine (alone (Q := fun x r => ∀ s', Alone k s r s' → Sane k s' ∧ Dir k s' d ∧ Allocated s d oldsz newsz x s' ∧
      ∀ f, Beside k s d f → f ∈ s'.used k ∧ s'.mem f = s.mem f) hs (w_allocuvm hsp hfree (fun hbig => absurd hn (Nat.not_lt.2 hbig)) (fun hlt s' ha => ?_)
      (fun hle _ r hg s' ha => ?_) fun r hr s' ha => ?_)).mono (fun x s' _ ⟨r, h, ha⟩ => h s' ha) (fun _ h => h) id
    · exact hfin hsp (fun f hf => ⟨hsp.tree.rest_mem hf, rfl⟩) ha (.inr (.inl ⟨rfl, hlt, fun v hv => (hsp.agrees ha.agree).2.pres hv⟩))
    · exact hfin hg.space (fun f hf => ⟨hg.own (hsp.tree.rest_mem hf), hg.mem f hf⟩) ha (.inl ⟨rfl, hle, hg.extended ho hn hle hmap ha.agree⟩)
    · have hdata : Data r.mem d = Data s.mem d := data_congr fun v hv => hr.pres v (by omega)
      refine hfin hr.space (fun f hf => ⟨hr.space.tree.rest_mem (by rw [hdata]; exact hf), hr.mem f hf⟩) ha (.inr (.inr ⟨rfl, ?_, fun v hv => ?_⟩))
      · obtain ⟨o, ho⟩ := hr.denied
        have := ha.denied
        rw [ho, List.length_cons] at this
        omega
      · rw [(hr.space.agrees ha.agree).2.pres hv, hr.pres v hv]
        rfl
  · refine (alone (Q := fun x r => x = min oldsz newsz ∧ Freed k d R newsz oldsz (s.res k) r) hs (w_deallocuvm hsp ho fun r hf => ⟨rfl, hf⟩)).mono
      ?_ (fun _ h => h) id
    intro x s' _ ⟨r, ⟨hx, hf⟩, ha⟩
    obtain ⟨hsp', hsame⟩ := hf.space.agrees ha.agree
    refine ⟨ha.sane, ⟨R, hsp'⟩, hx, fun v hv => (hsame.pres hv).trans (hf.pres v hv), hf.free_iff hs hsp ho ha, fun f ⟨_, hbd, hbt⟩ hu => ?_⟩
    rw [ha.agree.used] at hu
    rw [ha.mem f hu]
    rcases (hf.space.tree.own f).1 hu with hR | hd | ⟨i, hi, ht⟩
    · exact hf.mem f hR
    · exact absurd hd hbd
    · exact absurd ((hf.tab i hi).symm.trans ht) (hbt i hi)

theorem sane_zeroed (x : Proc) : Sane smallKernel (zeroed [400, 401, 402, 403] x) :=
  ⟨show [400, 401, 402, 403].Nodup by decide, show ∀ f ∈ [400, 401, 402, 403], 300 ≤ f ∧ f < 0xE000 by decide⟩

theorem dir_zeroed (x : Proc) : Dir smallKernel (zeroed [400, 401, 402, 403] x) 300 := by
  have hd : 300 ∈ (zeroed [400, 401, 402, 403] x).used smallKernel := ⟨show 300 ≤ 300 ∧ 300 < 0xE000 by decide, show 300 ∉ [400, 401, 402, 403] by decide⟩
  obtain ⟨ht, _, hp⟩ := Tree.of_zero (k := smallKernel) (r := (zeroed [400, 401, 402, 403] x).res smallKernel) hd rfl fun f hf => hf.1
  exact ⟨_, .of_empty ht fun v _ => hp v⟩

theorem mapsBelow_zeroed (x : Proc) : MapsBelow (zeroed [400, 401, 402, 403] x).mem 300 0 := by
  intro v hv
  have : pres (zeroed [400, 401, 402, 403] x).mem 300 v = none := by
    rw [pres, ent, tab, show (zeroed [400, 401, 402, 403] x).mem 300 = fun _ => 0 from rfl, word_zero, if_neg not_present_zero]
    rfl
  rw [this]
  exact ⟨fun h => absurd rfl h, fun h => absurd h (Nat.not_lt_zero _)⟩

/-- Two pages for an empty directory, and both back again. -/
theorem uvm_exact_zeroed :
    Ends (effect smallKernel) () (allocuvm 300 0 4097) (zeroed [400, 401, 402, 403] ⟨0, 300, 301, ⟨0, 0, 0⟩, []⟩)
      (fun x s' => Allocated (zeroed [400, 401, 402, 403] ⟨0, 300, 301, ⟨0, 0, 0⟩, []⟩) 300 0 4097 x s') (fun _ => False) False ∧
    Ends (effect smallKernel) () (deallocuvm 300 4097 0) (zeroed [400, 401, 402, 403] ⟨0, 300, 301, ⟨0, 0, 0⟩, []⟩) (fun x _ => x = 0) (fun _ => False) False := by
  refine ⟨((uvm_exact () (sane_zeroed _) (dir_zeroed _) 0 4097).1 (by decide) (by decide) (mapsBelow_zeroed _)).mono (fun _ _ _ h => h.2.2.1) (fun _ h => h) id, ?_⟩
  exact ((uvm_exact () (sane_zeroed _) (dir_zeroed _) 4097 0).2 (by decide)).mono (fun _ _ _ h => h.2.2.1) (fun _ h => h) id

/-- A process of one page: its directory is page 300, its table 301 and the page 302. -/
def onePage : St Unit :=
  { zeroed [400, 401, 402, 403] ⟨4096, 300, 303, ⟨0, 0, 0⟩, []⟩ with
    mem := Function.update (Function.update (fun _ _ => 0) 300 (Page.setWord (fun _ => 0) 0 (pte (4096 * 301) (PTE_W ||| PTE_U))))
      301 (Page.setWord (fun _ => 0) 0 (pte (4096 * 302) (PTE_W ||| PTE_U))) }

theorem onePage_sane : Sane smallKernel onePage :=
  ⟨(sane_zeroed ⟨4096, 300, 303, ⟨0, 0, 0⟩, []⟩).nodup, (sane_zeroed ⟨4096, 300, 303, ⟨0, 0, 0⟩, []⟩).free⟩

theorem onePage_dir : Dir smallKernel onePage 300 ∧ MapsBelow onePage.mem 300 4096 := by
  have hused : ∀ f, f ∈ [300, 301, 302] → f ∈ (zeroed [400, 401, 402, 403] ⟨4096, 300, 303, ⟨0, 0, 0⟩, []⟩).used smallKernel := by
    intro f hf
    simp only [List.mem_cons, List.not_mem_nil, or_false] at hf
    rcases hf with rfl | rfl | rfl
    all_goals exact ⟨show 300 ≤ _ ∧ _ < 0xE000 by decide, show _ ∉ [400, 401, 402, 403] by decide⟩
  obtain ⟨h0, t0, p0⟩ := Tree.of_zero (k := smallKernel) (r := (zeroed [400, 401, 402, 403] ⟨4096, 300, 303, ⟨0, 0, 0⟩, []⟩).res smallKernel)
    (hused 300 (by decide)) rfl fun f hf => hf.1
  obtain ⟨h1, t1, p1⟩ := h0.link (i := 0) (f := 301) (by decide) (t0 0) ⟨hused 301 (by decide), by decide⟩ rfl
  have htab := t1 0
  rw [if_pos rfl] at htab
  obtain ⟨h2, t2, e2⟩ := h1.write (v := 0) (by decide) htab (pte (4096 * 302) (PTE_W ||| PTE_U))
  have hpres : ∀ v, v < 2 ^ 20 → pres onePage.mem 300 v = if v = 0 then some (pte (4096 * 302) (PTE_W ||| PTE_U)) else none := fun v hv => by
    have he : ent onePage.mem 300 v = _ := e2 v hv
    by_cases e : v = 0
    · rw [if_pos e] at he ⊢
      exact pres_eq_some.2 ⟨he, present_pte _ _⟩
    · rw [if_neg e] at he ⊢
      rw [pres_congr he, p1 v hv, p0 v]
  have hpage : ∀ v f, v < 2 ^ 19 → page onePage.mem 300 v = some f → v = 0 ∧ f = 302 := fun v f hv hf => by
    rw [page, hpres v (by omega)] at hf
    split at hf
    · rename_i e
      rw [Option.map_some, pageOf_pte (by decide) (by decide)] at hf
      exact ⟨e, (Option.some.inj hf).symm⟩
    · cases hf
  have hdata : Data onePage.mem 300 = {302} := by
    ext f
    refine ⟨fun ⟨v, hv, hf⟩ => (hpage v f hv hf).2, fun hf => ⟨0, by decide, ?_⟩⟩
    rw [Set.mem_singleton_iff.1 hf, page, hpres 0 (by decide), if_pos rfl, Option.map_some, pageOf_pte (by decide) (by decide)]
  have htree : Tree smallKernel (onePage.res smallKernel) 300 ((onePage.used smallKernel \ {300}) \ {301}) := h2
  refine ⟨⟨((onePage.used smallKernel \ {300}) \ {301}) \ {302}, ?_, fun f ⟨v, hv, hf⟩ hR => ?_, fun v w f hv hw hf hf' => ?_⟩, fun v hv => ?_⟩
  · rw [show (onePage.res smallKernel).mem = onePage.mem from rfl, hdata, Set.sdiff_union_of_subset]
    · exact htree
    · exact Set.singleton_subset_iff.2 ⟨⟨hused 302 (by decide), by decide⟩, by decide⟩
  · exact hR.2 (hpage v f hv hf).2
  · rw [(hpage v f hv hf).1, (hpage w f hw hf').1]
  · rw [hpres v (by omega), show PGROUNDUP 4096 = 4096 by decide]
    by_cases e : v = 0
    · rw [if_pos e]
      exact ⟨fun _ => by omega, fun _ => nofun⟩
    · rw [if_neg e]
      exact ⟨fun h => absurd rfl h, fun h => by omega⟩

end Xv6.Vm
