/-
  Xv6.Vm.Copy — `setupkvm`, `freevm` and `copyuvm`.

  `freevm` gives back all that a directory has (`w_freevm`), so that whatever was built when
  memory ran out, `setupkvm` and `copyuvm` that return 0 leave the pages of the caller as
  they were and have no others (`Restored`). When `copyuvm` succeeds, the new directory maps
  a copy of each page with the same flags.

    • `copyuvm_exact`: the same of runs, with the free list.
-/

import Xv6.Vm.Uvm

namespace Xv6.Vm

open Lib Prog Function List

variable {P : Type} {k : Image} {r r' : Res P} {d f v : Nat} {R : Set Nat}

/-! ## Kernel mappings -/

def Kmap.size (x : Kmap) : Nat := uint (x.phys_end + 2 ^ 32 - x.phys_start)

def Kmap.Holds (x : Kmap) (w : Nat) : Prop := x.virt ≤ 4096 * w ∧ 4096 * w < x.virt + x.size

instance (x : Kmap) (w : Nat) : Decidable (x.Holds w) := by unfold Kmap.Holds; infer_instance

/-- The entries that the table asks for. -/
def mapsTo (xs : List Kmap) (w : Nat) : Option (BitVec 32) :=
  (xs.find? fun x => x.Holds w).map fun x => pte (x.phys_start + (4096 * w - x.virt)) x.perm

/-- Whole pages above `KERNBASE`. -/
def Kmap.Ok (x : Kmap) : Prop := ∃ v n, x.virt = 4096 * v ∧ x.size = 4096 * n ∧ 0 < n ∧ 2 ^ 19 ≤ v ∧ v + n ≤ 2 ^ 20

theorem kmap_ok (k : Image) : ∀ x ∈ kmap k, x.Ok := by
  have h1 := k.text
  have h2 := k.bss
  have h3 := k.fits
  intro x hx
  simp only [kmap, mem_cons, not_mem_nil, or_false] at hx
  rcases hx with rfl | rfl | rfl | rfl
  · exact ⟨2 ^ 19, 256, by decide, by decide, by decide, by decide, by decide⟩
  · exact ⟨2 ^ 19 + 256, k.data - 256, rfl, by simp only [Kmap.size, uint, EXTMEM]; omega, by omega, by omega, by omega⟩
  · exact ⟨2 ^ 19 + k.data, 0xE000 - k.data, by simp only [KERNBASE]; omega, by simp only [Kmap.size, uint, PHYSTOP]; omega, by omega, by omega, by omega⟩
  · exact ⟨0xFE000, 0x2000, by decide, by decide, by decide, by decide, by decide⟩

theorem kmap_disjoint (k : Image) : (kmap k).Pairwise fun x y => ∀ w, x.Holds w → ¬ y.Holds w := by
  have h1 := k.text
  have h2 := k.bss
  have h3 := k.fits
  simp only [kmap, pairwise_cons, mem_cons, not_mem_nil, or_false, forall_eq_or_imp, forall_eq, Kmap.Holds, Kmap.size, uint,
    KERNBASE, EXTMEM, PHYSTOP, DEVSPACE, KERNLINK]
  refine ⟨⟨fun w => ?_, fun w => ?_, fun w => ?_⟩, ⟨fun w => ?_, fun w => ?_⟩, fun w => ?_, ?_⟩
  all_goals first | omega | simp

/-- The kernel's half of a directory, as the table says. -/
def kernelPte (k : Image) (w : Nat) : Option (BitVec 32) := mapsTo (kmap k) w

theorem mapsTo_cons (x : Kmap) (xs : List Kmap) (w : Nat) :
    mapsTo (x :: xs) w = if x.Holds w then some (pte (x.phys_start + (4096 * w - x.virt)) x.perm) else mapsTo xs w := by
  rw [mapsTo, find?_cons]
  by_cases h : x.Holds w <;> simp [h, mapsTo]

theorem mapsTo_eq_none {xs : List Kmap} {w : Nat} (h : ∀ x ∈ xs, ¬ x.Holds w) : mapsTo xs w = none := by
  rw [mapsTo, find?_eq_none.2 fun x hx => by simpa using h x hx]
  rfl

/-! ## `setupkvm` and `freevm` -/

variable [DecidableEq P] {B : Err → Prop} {p : P}

theorem w_mapKernel {xs : List Kmap} (h : Tree k r d R) (hok : ∀ x ∈ xs, x.Ok) (hdis : xs.Pairwise fun x y => ∀ w, x.Holds w → ¬ y.Holds w)
    (hfree : ∀ x ∈ xs, ∀ w, x.Holds w → pres r.mem d w = none) {Q : Bool → Res P → Prop}
    (hdone : ∀ r', Moved k d R r r' → r'.denied = r.denied → (∀ w, w < 2 ^ 20 → pres r'.mem d w = (mapsTo xs w).or (pres r.mem d w)) →
      (∀ i, i < 1024 → tab r'.mem d i = tab r.mem d i ∨ ∃ x ∈ xs, ∃ w, x.Holds w ∧ w / 1024 = i) → Q true r')
    (hshort : ∀ r', Moved k d R r r' → Short k d R r r' → (∀ w, w < 2 ^ 19 → pres r'.mem d w = pres r.mem d w) → Q false r') :
    W k B p (mapKernel d xs) Q r := by
  induction xs generalizing r with
  | nil => exact hdone r ⟨h, subset_rfl, fun _ _ => rfl, rfl⟩ rfl (fun _ _ => rfl) fun _ _ => .inl rfl
  | cons x xs ih =>
    obtain ⟨v, n, hv, hn, hpos, hlow, hhigh⟩ := hok x mem_cons_self
    obtain ⟨hx, hxs⟩ := pairwise_cons.1 hdis
    have hholds : ∀ w, x.Holds w ↔ v ≤ w ∧ w < v + n := fun w => by
      rw [Kmap.Holds, hv, hn]
      omega
    refine w_bind ?_
    show W k B p (mappages d x.virt x.size x.phys_start x.perm) _ r
    rw [hv, hn]
    refine w_mappages h hpos hhigh (fun w h1 h2 => hfree x mem_cons_self w ((hholds w).2 ⟨h1, h2⟩))
      ⟨fun r₁ hm hd hmap htab => w_if (fun e => nomatch e) fun _ => ?_, fun r₁ j hj hm hs hmap => w_if (fun _ => ?_) fun e => absurd (by decide) e⟩
    · have hpres : ∀ w, w < 2 ^ 20 → pres r₁.mem d w = if x.Holds w then some (pte (x.phys_start + (4096 * w - x.virt)) x.perm) else pres r.mem d w :=
        fun w hw => by
          rw [hmap w hw]
          by_cases e : v ≤ w ∧ w < v + n
          · rw [if_pos e, if_pos ((hholds w).2 e), hv, Nat.mul_sub]
          · rw [if_neg e, if_neg fun h => e ((hholds w).1 h)]
      refine ih hm.tree (fun y hy => hok y (mem_cons_of_mem x hy)) hxs (fun y hy w hw => ?_) (fun r₂ hm₂ hd₂ hp₂ htab₂ => ?_) fun r₂ hm₂ ⟨r₃, ht, hs⟩ hp₂ => ?_
      · obtain ⟨v', n', hv', hn', _, _, hhigh'⟩ := hok y (mem_cons_of_mem x hy)
        have hw' : w < 2 ^ 20 := by
          unfold Kmap.Holds at hw
          omega
        rw [hpres w hw', if_neg fun h => hx y hy w h hw]
        exact hfree y (mem_cons_of_mem x hy) w hw
      · refine hdone r₂ (hm.trans hm₂) (hd₂.trans hd) (fun w hw => ?_) fun i hi => ?_
        · rw [hp₂ w hw, hpres w hw, mapsTo_cons]
          by_cases e : x.Holds w
          · rw [if_pos e, if_pos e, mapsTo_eq_none fun y hy => hx y hy w e]
            rfl
          · rw [if_neg e, if_neg e]
        · rcases htab₂ i hi with e | ⟨y, hy, w, hw⟩
          · rcases htab i hi with e' | ⟨w, h1, h2, hw⟩
            · exact .inl (e.trans e')
            · exact .inr ⟨x, mem_cons_self, w, (hholds w).2 ⟨h1, h2⟩, hw⟩
          · exact .inr ⟨y, mem_cons_of_mem x hy, w, hw⟩
      · refine hshort r₂ (hm.trans hm₂) ⟨r₃, ht, by rw [hs, hd]⟩ fun w hw => ?_
        rw [hp₂ w hw, hpres w (by omega), if_neg fun h => by have := (hholds w).1 h; omega]
    · refine hshort r₁ hm hs fun w hw => ?_
      rw [hmap w (by omega), if_neg (by omega)]

/-- The tables with index in `is` are freed. -/
theorem w_freeTables {is : List Nat} (hnd : is.Nodup) (hown : ∀ f, f ∈ r.own ↔ f ∈ R ∨ f = d ∨ ∃ i ∈ is, tab r.mem d i = some f)
    (hR : ∀ i ∈ is, ∀ t, tab r.mem d i = some t → t ∉ R ∧ t ≠ d) (hinj : ∀ i ∈ is, ∀ j ∈ is, ∀ t, tab r.mem d i = some t → tab r.mem d j = some t → i = j)
    {Q : Unit → Res P → Prop} (hQ : ∀ r', (∀ f, f ∈ r'.own ↔ f ∈ R ∨ f = d) → r'.mem = r.mem → r'.proc = r.proc → r'.denied = r.denied → Q () r') :
    W k B p (freeTables d is) Q r := by
  induction is generalizing r with
  | nil => exact hQ r (fun f => (hown f).trans (by simp)) rfl rfl rfl
  | cons i is ih =>
    obtain ⟨hi, hnd⟩ := nodup_cons.1 hnd
    have hd : d ∈ r.own := (hown d).2 (.inr (.inl rfl))
    refine w_read hd (w_if (fun hp => ?_) fun hp => ?_)
    · have ht : tab r.mem d i = some (pageOf ((r.mem d).word i)) := by rw [tab, if_pos hp]
      generalize pageOf ((r.mem d).word i) = t at ht
      obtain ⟨htR, htd⟩ := hR i mem_cons_self t ht
      refine w_kfree ((hown t).2 (.inr (.inr ⟨i, mem_cons_self, ht⟩))) ?_
      refine ih (r := r.release t) hnd (fun f => ?_) (fun j hj => hR j (mem_cons_of_mem i hj))
        (fun j hj j' hj' => hinj j (mem_cons_of_mem i hj) j' (mem_cons_of_mem i hj')) fun r' h1 h2 h3 h4 => hQ r' h1 h2 h3 h4
      constructor
      · intro hf
        obtain ⟨hf, hne⟩ := hf
        rcases (hown f).1 hf with hf | hf | ⟨j, hj, hf⟩
        · exact .inl hf
        · exact .inr (.inl hf)
        · rcases mem_cons.1 hj with rfl | hj
          · exact absurd (Option.some.inj (hf.symm.trans ht)) hne
          · exact .inr (.inr ⟨j, hj, hf⟩)
      · intro hf
        rcases hf with hf | rfl | ⟨j, hj, hf⟩
        · exact ⟨(hown f).2 (.inl hf), fun e => htR (Set.mem_singleton_iff.1 e ▸ hf)⟩
        · exact ⟨hd, fun e => htd (Set.mem_singleton_iff.1 e).symm⟩
        · refine ⟨(hown f).2 (.inr (.inr ⟨j, mem_cons_of_mem i hj, hf⟩)), fun e => hi ?_⟩
          have : i = j := hinj i mem_cons_self j (mem_cons_of_mem i hj) t ht (Set.mem_singleton_iff.1 e ▸ hf)
          exact this ▸ hj
    · refine ih hnd (fun f => (hown f).trans ?_) (fun j hj => hR j (mem_cons_of_mem i hj))
        (fun j hj j' hj' => hinj j (mem_cons_of_mem i hj) j' (mem_cons_of_mem i hj')) hQ
      have hnone : tab r.mem d i = none := by rw [tab, if_neg hp]
      simp [hnone]

/-- `freevm` gives back the directory, its tables and its user pages. -/
theorem w_freevm (h : Space k r d R) {Q : Unit → Res P → Prop}
    (hQ : ∀ r', r'.own = R → (∀ f ∈ R, r'.mem f = r.mem f) → r'.proc = r.proc → r'.denied = r.denied → Q () r') : W k B p (freevm d) Q r := by
  refine w_if (fun e => ?_) fun _ => w_bind (w_deallocuvm h (Nat.le_refl _) fun r₁ hf => ?_)
  · have := (h.tree.pool d h.tree.dir_mem).lt.1
    omega
  have hempty : Data r₁.mem d = ∅ := data_eq_empty fun v hv => by
    rw [hf.pres v (by omega), if_pos ⟨Nat.zero_le _, show 4096 * v < 0x80000000 by omega⟩]
  have ht : Tree k r₁ d R := by
    have := hf.space.tree
    rwa [hempty, Set.union_empty] at this
  have hrange : ∀ i, i ∈ range 1024 ↔ i < 1024 := fun i => mem_range
  have hnd : (range 1024).Nodup := nodup_range
  generalize range 1024 = is at hrange hnd ⊢
  refine w_bind (w_freeTables hnd (fun f => (ht.own f).trans (by simp only [hrange])) (fun i hi t => ht.table i t ((hrange i).1 hi))
    (fun i hi j hj t => ht.inj i j t ((hrange i).1 hi) ((hrange j).1 hj)) fun r₂ ho hm hp hd => ?_)
  refine ⟨(ho d).2 (.inr rfl), hQ _ ?_ (fun f hfR => ?_) (hp.trans hf.proc) (hd.trans hf.denied)⟩
  · ext f
    refine ⟨fun ⟨hf, hne⟩ => ((ho f).1 hf).resolve_right hne, fun hf => ⟨(ho f).2 (.inl hf), fun e => ht.dir (Set.mem_singleton_iff.1 e ▸ hf)⟩⟩
  · show r₂.mem f = r.mem f
    rw [hm]
    exact hf.mem f (.inl hfR)

/-- Nothing is left of what was built. -/
structure Restored (r r' : Res P) : Prop where
  own : r'.own = r.own
  mem : ∀ f ∈ r.own, r'.mem f = r.mem f
  proc : r'.proc = r.proc
  denied : ∃ o, r'.denied = o :: r.denied

/-- A new directory with the kernel's mappings only. -/
structure KernelDir (k : Image) (d : Nat) (r r' : Res P) : Prop where
  new : d ∉ r.own
  tree : Tree k r' d r.own
  pres : ∀ w, w < 2 ^ 20 → pres r'.mem d w = kernelPte k w
  tab : ∀ i t, i < 1024 → tab r'.mem d i = some t → ∃ x ∈ kmap k, ∃ w, x.Holds w ∧ w / 1024 = i
  mem : ∀ f ∈ r.own, r'.mem f = r.mem f
  proc : r'.proc = r.proc
  denied : r'.denied = r.denied

omit [DecidableEq P] in
theorem kernelPte_user (k : Image) {w : Nat} (hw : w < 2 ^ 19) : kernelPte k w = none := by
  refine mapsTo_eq_none fun x hx h => ?_
  obtain ⟨v, n, hv, hn, _, hlow, _⟩ := kmap_ok k x hx
  unfold Kmap.Holds at h
  omega

omit [DecidableEq P] in
theorem KernelDir.space (h : KernelDir k d r r') : Space k r' d r.own :=
  .of_empty h.tree fun v hv => by rw [h.pres v (by omega), kernelPte_user k hv]

theorem w_setupkvm (hpool : ∀ f ∈ r.own, k.InPool f) {Q : Option Nat → Res P → Prop}
    (hno : ∀ r' o, Restored r r' → r'.denied = o :: r.denied → (o = r.own ∨ ∃ d r₁, Tree k (r₁ : Res P) d r.own ∧ o = r₁.own) → Q none r')
    (hok : ∀ d r', KernelDir k d r r' → Q (some d) r') : W k B p (setupkvm k) Q r := by
  refine w_kalloc (hno r.deny _ ⟨rfl, fun _ _ => rfl, rfl, _, rfl⟩ rfl (.inl rfl)) fun d x hd hp => w_memset (Set.mem_insert d _) ?_
  generalize hr : (r.alloc d x).store d (fun _ => 0) = r₁
  have hown : r₁.own = insert d r.own := by rw [← hr]; rfl
  have hmem : ∀ f ∈ r.own, r₁.mem f = r.mem f := fun f hf => by
    have hne : f ≠ d := fun e => hd (e ▸ hf)
    rw [← hr]
    exact (update_of_ne hne _ _).trans (update_of_ne hne _ _)
  have hproc : r₁.proc = r.proc := by rw [← hr]; rfl
  have hden : r₁.denied = r.denied := by rw [← hr]; rfl
  obtain ⟨ht, hempty, hnone⟩ := Tree.of_zero (k := k) (r := r₁) (d := d) (by rw [hown]; exact Set.mem_insert d _) (by rw [← hr]; exact update_self d _ _)
    fun f hf => by
      rw [hown] at hf
      rcases Set.mem_insert_iff.1 hf with rfl | hf
      · exact hp
      · exact hpool f hf
  rw [hown, Set.insert_sdiff_self_of_notMem hd] at ht
  refine w_if (fun e => absurd e (by decide)) fun _ => w_bind ?_
  refine w_mapKernel ht (kmap_ok k) (kmap_disjoint k) (fun _ _ w _ => hnone w) (fun r₂ hm hd₂ hpres htab => w_if (fun _ => ?_) fun e => absurd rfl e)
    fun r₂ hm hs hpres => w_if (fun e => nomatch e) fun _ => ?_
  · refine hok d r₂ ⟨hd, hm.tree, fun w hw => ?_, fun i t hi ht => ?_, fun f hf => (hm.mem f hf).trans (hmem f hf), hm.proc.trans hproc, hd₂.trans hden⟩
    · rw [hpres w hw, hnone w, Option.or_none]
      rfl
    · rcases htab i hi with e | h
      · rw [e, hempty] at ht
        cases ht
      · exact h
  · have hsp : Space k r₂ d r.own := .of_empty hm.tree fun v hv => (hpres v hv).trans (hnone v)
    obtain ⟨r₃, ht₃, hs⟩ := hs
    refine w_bind (w_freevm hsp fun r₄ ho hm₄ hp₄ hd₄ => ?_)
    have hden₄ : r₄.denied = r₃.own :: r.denied := by rw [hd₄, hs, hden]
    refine hno r₄ r₃.own ⟨ho, fun f hf => ?_, ?_, _, hden₄⟩ hden₄ (.inr ⟨d, r₃, ht₃, rfl⟩)
    · rw [hm₄ f hf, hm.mem f hf, hmem f hf]
    · rw [hp₄, hm.proc, hproc]

/-! ## `copyuvm` -/

omit [DecidableEq P] in
theorem or_PTE_P {e : BitVec 32} (h : Present e) : PTE_FLAGS e ||| PTE_P = PTE_FLAGS e := by
  have h0 : e.getLsbD 0 = true := by
    by_contra hn
    refine h (BitVec.eq_of_getLsbD_eq fun i hi => ?_)
    by_cases e0 : i = 0
    · rw [e0]
      simpa [PTE_P] using hn
    · simp [PTE_P, e0]
  refine BitVec.eq_of_getLsbD_eq fun i hi => ?_
  by_cases e0 : i = 0
  · simp [PTE_FLAGS, PTE_P, e0, h0]
  · simp [PTE_P, e0]

/-- The pages below `v` of the directory `d₀` have been copied to the directory `d`. -/
structure Copied (k : Image) (d₀ d v : Nat) (r r' : Res P) : Prop where
  space : Space k r' d r.own
  copy : ∀ w e, w < v → pres r.mem d₀ w = some e →
    ∃ f, k.InPool f ∧ f ∉ r.own ∧ pres r'.mem d w = some (pte (4096 * f) (PTE_FLAGS e)) ∧ r'.mem f = r.mem (pageOf e)
  rest : ∀ w, v ≤ w → w < 2 ^ 19 → pres r'.mem d w = none
  kernel : ∀ w, 2 ^ 19 ≤ w → w < 2 ^ 20 → pres r'.mem d w = kernelPte k w
  mem : ∀ f ∈ r.own, r'.mem f = r.mem f
  proc : r'.proc = r.proc
  denied : r'.denied = r.denied

omit [DecidableEq P] in
theorem Copied.snoc {r₀ : Res P} {d₀ : Nat} {e : BitVec 32} (h : Copied k d₀ d v r₀ r) (hv : v < 2 ^ 19) (he : pres r₀.mem d₀ v = some e)
    (ha : Added k d r₀.own v f (PTE_FLAGS e) (r₀.mem (pageOf e)) r r') : Copied k d₀ d (v + 1) r₀ r' := by
  have hown : r₀.own ⊆ r.own := fun g hg => h.space.tree.rest_mem (.inl hg)
  refine ⟨ha.space, fun w x hw hx => ?_, fun w h1 h2 => ?_, fun w h1 h2 => ?_, fun g hg => ?_, ha.proc.trans h.proc, ha.denied.trans h.denied⟩
  · by_cases ew : w = v
    · rw [ew, he] at hx
      cases hx
      exact ⟨f, ha.pool, fun ho => ha.new (hown ho), by rw [ha.pres w (by omega), if_pos ew], ha.page⟩
    · obtain ⟨g, hgp, hgn, hg, hgm⟩ := h.copy w x (by omega) hx
      have hgd : g ∈ Data r.mem d := ⟨w, by omega, by rw [page_of_pres hg, pageOf_pte hgp.lt.2 (flags_lt x)]⟩
      exact ⟨g, hgp, hgn, by rw [ha.pres w (by omega), if_neg ew, hg], by rw [ha.mem g (.inr hgd), hgm]⟩
  · rw [ha.pres w (by omega), if_neg (by omega)]
    exact h.rest w (by omega) h2
  · rw [ha.pres w h2, if_neg (by omega)]
    exact h.kernel w h1 h2
  · rw [ha.mem g (.inl hg), h.mem g hg]

/-- What is left of the copy when there is no more memory. -/
structure Abandoned (k : Image) (d : Nat) (r r' : Res P) : Prop where
  space : Space k r' d r.own
  mem : ∀ f ∈ r.own, r'.mem f = r.mem f
  proc : r'.proc = r.proc
  denied : ∃ o, r'.denied = o :: r.denied

theorem w_copyLoop {r₀ : Res P} {d₀ sz fuel : Nat} (h₀ : Space k r₀ d₀ R) (h : Copied k d₀ d v r₀ r) (hsz : sz ≤ KERNBASE)
    (hp : ∀ w, 4096 * w < sz → pres r₀.mem d₀ w ≠ none) (hv : v ≤ (sz + 4095) / 4096) (hfuel : 2 ^ 19 - v < fuel) {Q : Bool → Res P → Prop}
    (hok : ∀ r', Copied k d₀ d ((sz + 4095) / 4096) r₀ r' → Q true r') (hno : ∀ r', Abandoned k d r₀ r' → Q false r') :
    W k B p (copyLoop d₀ d sz fuel (4096 * v)) Q r := by
  have hsz' : sz ≤ 0x80000000 := hsz
  induction fuel generalizing v r with
  | zero => omega
  | succ fuel ih =>
    refine w_if (fun hlt => ?_) fun hge => ?_
    · obtain ⟨e, he⟩ := Option.ne_none_iff_exists'.1 (hp v hlt)
      obtain ⟨t, ht, hw, hpe⟩ := tab_of_pres he
      -- the old directory and its tables are beside the new one
      have hown : ∀ g, g ∈ r₀.own → g ∈ r.own := fun g hg => h.space.tree.rest_mem (.inl hg)
      have hd₀ : d₀ ∈ r₀.own := h₀.tree.dir_mem
      have htm : t ∈ r₀.own := h₀.tree.table_mem (by omega) ht
      have hpm : pageOf e ∈ r₀.own := h₀.data_mem ⟨v, by omega, page_of_pres he⟩
      have htab : tab r.mem d₀ (v / 1024) = some t := (tab_congr (h.mem d₀ hd₀) _).trans ht
      refine w_bind (w_walk (hown d₀ hd₀) (by omega) (fun hn => by rw [htab] at hn; cases hn) fun t' ht' => ?_)
      obtain rfl : t = t' := Option.some.inj (htab.symm.trans ht')
      refine w_read (hown t htm) ?_
      rw [h.mem t htm, hw]
      refine w_if (fun _ => ?_) fun hn => absurd hpe hn
      refine w_kalloc (hno _ ⟨h.space.deny, h.mem, h.proc, _, by rw [← h.denied]; rfl⟩) fun f x hf hpool => ?_
      have hne : pageOf e ≠ f := fun eq => hf (eq ▸ hown _ hpm)
      have hcont : (r.alloc f x).mem (pageOf e) = r₀.mem (pageOf e) := (update_of_ne hne _ _).trans (h.mem _ hpm)
      refine w_copy (Set.mem_insert f _) (Set.mem_insert_of_mem f (hown _ hpm)) (w_bind ?_)
      rw [hcont]
      refine w_mapNew h.space hf hpool (by omega) (h.rest v (Nat.le_refl v) (by omega)) (flags_lt e)
        (fun r' ha => w_if (fun e => nomatch e) fun _ => ?_) fun r' hn => w_if (fun _ => ?_) fun e => absurd (by decide) e
      · rw [show uint (4096 * v + 4096) = 4096 * (v + 1) by unfold uint; omega]
        exact ih (h.snoc (by omega) he ha) (by omega) (by omega)
      · have hr := hn.release h.space
        obtain ⟨o, ho⟩ := hr.denied
        exact w_kfree (hn.space.tree.rest_mem (.inl (Set.mem_insert f _)))
          (hno _ ⟨hr.space, fun g hg => (hr.mem g (.inl hg)).trans (h.mem g hg), hr.proc.trans h.proc, o, by rw [ho, h.denied]⟩)
    · exact hok r ((show v = (sz + 4095) / 4096 by omega) ▸ h)

theorem w_copyuvm {d₀ sz : Nat} (h₀ : Space k r d₀ R) (hsz : sz ≤ KERNBASE) (hp : ∀ w, 4096 * w < sz → pres r.mem d₀ w ≠ none)
    {Q : Option Nat → Res P → Prop} (hok : ∀ d r', d ∉ r.own → Copied k d₀ d ((sz + 4095) / 4096) r r' → Q (some d) r')
    (hno : ∀ r', Restored r r' → Q none r') : W k B p (copyuvm k d₀ sz) Q r := by
  refine w_bind (w_setupkvm h₀.tree.pool (fun r' o hr _ _ => hno r' hr) fun d r₁ hk => w_bind ?_)
  have hstart : Copied k d₀ d 0 r r₁ := by
    refine ⟨hk.space, fun w e hw => by omega, fun w _ hw => ?_, fun w _ hw => hk.pres w hw, hk.mem, hk.proc, hk.denied⟩
    rw [hk.pres w (by omega), kernelPte_user k hw]
  have hsz' : sz ≤ 0x80000000 := hsz
  refine w_copyLoop h₀ hstart hsz hp (by omega) (by unfold steps; omega) (fun r' hc => w_if (fun _ => hok d r' hk.new hc) fun e => absurd rfl e)
    fun r' ha => w_if (fun e => nomatch e) fun _ => w_bind (w_freevm ha.space fun r₂ ho hm hpr hd => ?_)
  obtain ⟨o, hden⟩ := ha.denied
  exact hno r₂ ⟨ho, fun f hf => (hm f hf).trans (ha.mem f hf), hpr.trans ha.proc, o, hd.trans hden⟩

/-! ## Runs -/

section Runs

variable {s s' : St P} {d₀ sz : Nat}

omit [DecidableEq P] in
/-- The directory and its tables are at most 1025 pages. -/
theorem Tree.few (h : Tree k r d R) {l : List Nat} (hnd : l.Nodup) (hl : ∀ f ∈ l, f ∈ r.own ∧ f ∉ R) : l.length ≤ 1025 := by
  obtain ⟨I, hI, hcardI⟩ : ∃ I : Finset Nat, (∀ i, i ∈ I ↔ i < 1024) ∧ I.card = 1024 := ⟨Finset.range 1024, fun i => Finset.mem_range, Finset.card_range 1024⟩
  have hsub : l.toFinset ⊆ insert d (I.biUnion fun i => (tab r.mem d i).toFinset) := fun f hf => by
    obtain ⟨ho, hR⟩ := hl f (mem_toFinset.1 hf)
    rw [Finset.mem_insert, Finset.mem_biUnion]
    rcases (h.own f).1 ho with hf | hf | ⟨i, hi, ht⟩
    · exact absurd hf hR
    · exact .inl hf
    · exact .inr ⟨i, (hI i).2 hi, by rw [ht]; simp⟩
  have hcard : (I.biUnion fun i => (tab r.mem d i).toFinset).card ≤ I.card * 1 :=
    Finset.card_biUnion_le_card_mul _ _ 1 fun i _ => by cases tab r.mem d i <;> simp
  have hins := Finset.card_insert_le d (I.biUnion fun i => (tab r.mem d i).toFinset)
  have hle := Finset.card_le_card hsub
  rw [toFinset_card_of_nodup hnd] at hle
  omega

/-- What `setupkvm` makes: a directory of new pages, with the mappings of the table. -/
structure KernelMap (k : Image) (s : St P) (d : Nat) (s' : St P) : Prop where
  sane : Sane k s'
  tree : Tree k (s'.res k) d (s.used k)
  new : d ∉ s.used k
  pres : ∀ v, v < 2 ^ 20 → pres s'.mem d v = kernelPte k v
  tab : ∀ i t, i < 1024 → tab s'.mem d i = some t → ∃ x ∈ kmap k, ∃ w, x.Holds w ∧ w / 1024 = i
  mem : ∀ f ∈ s.used k, s'.mem f = s.mem f
  proc : s'.proc = s.proc

omit [DecidableEq P] in
theorem KernelDir.kernelMap (h : KernelDir k d (s.res k) r) (ha : Alone k s r s') : KernelMap k s d s' := by
  have hd : d ∈ r.own := h.tree.dir_mem
  obtain ⟨hsp, hsame⟩ := h.space.agrees ha.agree
  have hown : ∀ f ∈ s.used k, f ∈ r.own := fun f hf => h.tree.rest_mem hf
  have hempty : Data s'.mem d = ∅ := data_eq_empty fun v hv => by rw [hsame.pres (by omega), h.pres v (by omega), kernelPte_user k hv]
  refine ⟨ha.sane, ?_, h.new, fun v hv => (hsame.pres hv).trans (h.pres v hv),
    fun i t hi ht => h.tab i t hi ((hsame.tab i hi).symm.trans ht), fun f hf => (ha.mem f (hown f hf)).trans (h.mem f hf), ?_⟩
  · have := hsp.tree
    rwa [show (s'.res k).mem = s'.mem from rfl, hempty, Set.union_empty] at this
  · funext q
    exact ha.proc q _ (by rw [h.proc]; rfl)

/-- With enough free pages, `setupkvm` makes a directory. -/
theorem setupkvm_makes (p : P) (hs : Sane k s) (hf : ∀ i, s.fails i = false) (hlen : 1025 < s.free.length) :
    ∃ d s', run (effect k) p (setupkvm k) s = .ok (some d, s') ∧ KernelMap k s d s' := by
  have hends : Ends (effect k) p (setupkvm k) s (fun x s' => ∃ d, x = some d ∧ KernelMap k s d s') (fun _ => False) False := by
    refine (alone (Q := fun x r => ∀ s', Alone k s r s' → ∃ d, x = some d ∧ KernelMap k s d s') hs
      (w_setupkvm (fun f (hf : f ∈ s.used k) => hf.1) (fun r o hr hd ho s' ha => ?_) fun d r hk s' ha => ⟨d, rfl, hk.kernelMap ha⟩)).mono
      (fun x s' _ ⟨r, h, ha⟩ => h s' ha) (fun _ h => h) id
    · -- what it had when `kalloc` returned 0 was not everything
      exfalso
      rcases ha.full o (by rw [hd]; exact mem_cons_self) with ⟨i, hi⟩ | hall
      · rw [hf i] at hi
        cases hi
      · have hfree : ∀ f ∈ s.free, f ∈ o ∧ f ∉ s.used k := fun f hf => ⟨hall f (hs.free f hf), fun hu => hu.2 hf⟩
        rcases ho with rfl | ⟨d, r₁, ht, rfl⟩
        · obtain ⟨f, hf⟩ := exists_mem_of_length_pos (l := s.free) (by omega)
          exact (hfree f hf).2 (hfree f hf).1
        · have := ht.few hs.nodup hfree
          omega
  obtain ⟨x, s', hrun, d, rfl, hk⟩ := hends.result
  exact ⟨d, s', hrun, hk⟩

/-- The directory `d` has a copy of every page of `d₀` below `sz`, and the kernel's mappings. -/
structure CopyOf (k : Image) (s : St P) (d₀ sz d : Nat) (s' : St P) : Prop where
  new : d ∉ s.used k
  dir : Dir k s' d
  user : ∀ v, 4096 * v < PGROUNDUP sz → ∃ e e', pres s.mem d₀ v = some e ∧ pres s'.mem d v = some e' ∧
    PTE_FLAGS e' = PTE_FLAGS e ∧ pageOf e' ∈ s.free ∧ s'.mem (pageOf e') = s.mem (pageOf e)
  above : ∀ v, PGROUNDUP sz ≤ 4096 * v → v < 2 ^ 19 → pres s'.mem d v = none
  kernel : ∀ v, 2 ^ 19 ≤ v → v < 2 ^ 20 → pres s'.mem d v = kernelPte k v

omit [DecidableEq P] in
theorem Copied.copyOf (h : Copied k d₀ d ((sz + 4095) / 4096) (s.res k) r) (hsz : sz < KERNBASE) (hp : ∀ v, 4096 * v < sz → pres s.mem d₀ v ≠ none)
    (hd : d ∉ s.used k) (ha : Agree k r s') : CopyOf k s d₀ sz d s' := by
  have hsz' : sz < 0x80000000 := hsz
  obtain ⟨hsp, hsame⟩ := h.space.agrees ha
  refine ⟨hd, ⟨_, hsp⟩, ?_, ?_, fun v h1 h2 => (hsame.pres h2).trans (h.kernel v h1 h2)⟩
  · rw [PGROUNDUP_eq (by omega)]
    intro v hv
    obtain ⟨e, he⟩ := Option.ne_none_iff_exists'.1 (hp v (by omega))
    obtain ⟨f, hpool, hf, hpr, hm⟩ := h.copy v e (by omega) he
    have hpage : pageOf (pte (4096 * f) (PTE_FLAGS e)) = f := pageOf_pte hpool.lt.2 (flags_lt e)
    have hown : f ∈ r.own := h.space.data_mem ⟨v, by omega, by rw [page_of_pres hpr, hpage]⟩
    have hpe : Present e := (pres_eq_some.1 he).2
    refine ⟨e, _, he, (hsame.pres (by omega)).trans hpr, by rw [flags_pte hpool.lt.2 (flags_lt e), or_PTE_P hpe], ?_, ?_⟩
    · rw [hpage]
      by_contra hnot
      exact hf ⟨hpool, hnot⟩
    · rw [hpage, ha.mem f hown, hm]
      rfl
  · rw [PGROUNDUP_eq (by omega)]
    intro v h1 h2
    rw [hsame.pres (by omega)]
    exact h.rest v (by omega) h2

theorem copyuvm_exact (p : P) (hs : Sane k s) (hd : Dir k s d₀) (hsz : sz < KERNBASE) (hp : ∀ v, 4096 * v < sz → pres s.mem d₀ v ≠ none) :
    Ends (effect k) p (copyuvm k d₀ sz) s (fun x s' => Sane k s' ∧ (∀ f ∈ s.used k, f ∈ s'.used k ∧ s'.mem f = s.mem f) ∧
      (x = none → s.denied < s'.denied ∧ ∀ f, f ∈ s'.free ↔ f ∈ s.free) ∧ ∀ d, x = some d → CopyOf k s d₀ sz d s') (fun _ => False) False := by
  obtain ⟨R, hsp⟩ := hd
  refine (alone (Q := fun x r => ∀ s', Alone k s r s' → Sane k s' ∧ (∀ f ∈ s.used k, f ∈ s'.used k ∧ s'.mem f = s.mem f) ∧
      (x = none → s.denied < s'.denied ∧ ∀ f, f ∈ s'.free ↔ f ∈ s.free) ∧ ∀ d, x = some d → CopyOf k s d₀ sz d s') hs
    (w_copyuvm hsp (Nat.le_of_lt hsz) hp (fun d r hd hc s' ha => ?_) fun r hr s' ha => ?_)).mono (fun x s' _ ⟨r, h, ha⟩ => h s' ha) (fun _ h => h) id
  · refine ⟨ha.sane, fun f hf => ?_, nofun, fun d' e => Option.some.inj e ▸ hc.copyOf hsz hp hd ha.agree⟩
    have hown : f ∈ r.own := hc.space.tree.rest_mem (.inl hf)
    exact ⟨by rw [ha.agree.used]; exact hown, (ha.mem f hown).trans (hc.mem f hf)⟩
  · have hused : s'.used k = s.used k := ha.agree.used.trans hr.own
    refine ⟨ha.sane, fun f hf => ?_, fun _ => ⟨?_, fun f => ?_⟩, nofun⟩
    · have hown : f ∈ r.own := hr.own ▸ hf
      exact ⟨hused ▸ hf, (ha.mem f hown).trans (hr.mem f hf)⟩
    · obtain ⟨o, ho⟩ := hr.denied
      have := ha.denied
      rw [ho, List.length_cons] at this
      omega
    · constructor
      · intro hf
        by_contra hnot
        have : f ∈ s'.used k := hused ▸ ⟨ha.free f hf, hnot⟩
        exact this.2 hf
      · intro hf
        by_contra hnot
        have : f ∈ s.used k := hused ▸ ⟨hs.free f hf, hnot⟩
        exact this.2 hf

end Runs

/-- A process of one page is copied. -/
theorem copyuvm_exact_onePage :
    ∃ s : St Unit, MapsBelow s.mem 300 4096 ∧
      Ends (effect smallKernel) () (copyuvm smallKernel 300 4096) s (fun x s' => (∀ f ∈ s.used smallKernel, f ∈ s'.used smallKernel ∧ s'.mem f = s.mem f) ∧
        ∀ d, x = some d → CopyOf smallKernel s 300 4096 d s') (fun _ => False) False := by
  obtain ⟨s, hs, hd, hm⟩ : ∃ s : St Unit, Sane smallKernel s ∧ Dir smallKernel s 300 ∧ MapsBelow s.mem 300 4096 :=
    ⟨onePage, onePage_sane, onePage_dir.1, onePage_dir.2⟩
  have hp : ∀ v, 4096 * v < 4096 → pres s.mem 300 v ≠ none := fun v hv => (hm v (by omega)).2 hv
  exact ⟨s, hm, (copyuvm_exact () hs hd (by decide) hp).mono (fun _ _ _ h => ⟨h.2.1, h.2.2.2⟩) (fun _ h => h) id⟩

end Xv6.Vm
