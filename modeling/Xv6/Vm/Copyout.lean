/-
  Xv6.Vm.Copyout — `copyout` and `clearpteu`.

  `copyout` asks `uva2ka` for every page it comes to, and `uva2ka` looks at the entry that
  `walkpgdir` returns without asking whether there is one. Between `KERNBASE+PHYSTOP` and
  `DEVSPACE`, and above the page tables of the user's part, there is none.

    • `copyout_safe_iff`: in a directory made by `setupkvm`, `allocuvm` and `clearpteu`,
      `copyout` writes the bytes or returns -1 as it should, if and only if the first page
      of the range that it cannot write to has a page table.
-/

import Xv6.Vm.Copy

namespace Xv6.Vm

open Lib Prog Function List

variable {P : Type} {k : Image} {r r' : Res P} {d f t v : Nat} {R : Set Nat}

/-! ## `clearpteu` -/

theorem pageOf_clear (e : BitVec 32) : pageOf (e &&& ~~~PTE_U) = pageOf e := by
  have h : (e &&& ~~~PTE_U) >>> 12 = e >>> 12 := by
    rw [BitVec.ushiftRight_and_distrib, show ~~~PTE_U >>> 12 = BitVec.allOnes 32 >>> 12 by decide, ← BitVec.ushiftRight_and_distrib, BitVec.and_allOnes]
  have := congrArg BitVec.toNat h
  rwa [BitVec.toNat_ushiftRight, BitVec.toNat_ushiftRight, Nat.shiftRight_eq_div_pow, Nat.shiftRight_eq_div_pow] at this

theorem present_clear {e : BitVec 32} : Present (e &&& ~~~PTE_U) ↔ Present e := by
  have : e &&& ~~~PTE_U &&& PTE_P = e &&& PTE_P := by
    rw [BitVec.and_assoc, show ~~~PTE_U &&& PTE_P = PTE_P by decide]
  rw [Present, this]

/-- The entry of a page has lost `PTE_U`. -/
structure Cleared (k : Image) (d : Nat) (R : Set Nat) (v : Nat) (r r' : Res P) : Prop where
  space : Space k r' d R
  pres : ∀ w, w < 2 ^ 20 → pres r'.mem d w = if w = v then (pres r.mem d w).map (· &&& ~~~PTE_U) else pres r.mem d w
  own : r'.own = r.own
  mem : ∀ f ∈ R ∪ Data r.mem d, r'.mem f = r.mem f
  proc : r'.proc = r.proc
  denied : r'.denied = r.denied

theorem Space.clear (h : Space k r d R) (hv : v < 2 ^ 20) (ht : tab r.mem d (v / 1024) = some t) :
    Cleared k d R v r (r.store t ((r.mem t).setWord (v % 1024) ((r.mem t).word (v % 1024) &&& ~~~PTE_U))) := by
  obtain ⟨h1, _, hent⟩ := h.tree.write hv ht ((r.mem t).word (v % 1024) &&& ~~~PTE_U)
  have htR : t ∉ R ∪ Data r.mem d := (h.tree.table _ t (by omega) ht).1
  generalize hr : r.store t ((r.mem t).setWord (v % 1024) ((r.mem t).word (v % 1024) &&& ~~~PTE_U)) = r' at h1 hent
  have hpres : ∀ w, w < 2 ^ 20 → pres r'.mem d w = if w = v then (pres r.mem d w).map (· &&& ~~~PTE_U) else pres r.mem d w := fun w hw => by
    by_cases e : w = v
    · rw [if_pos e, e, pres, hent v hv, if_pos rfl, pres, ent_of_tab ht]
      by_cases hp : Present ((r.mem t).word (v % 1024))
      · rw [Option.filter_some_pos (by simpa using present_clear.2 hp), Option.filter_some_pos (by simpa using hp)]
        rfl
      · rw [Option.filter_some_neg (by simpa using fun h => hp (present_clear.1 h)), Option.filter_some_neg (by simpa using hp)]
        rfl
    · rw [if_neg e]
      exact pres_congr (by rw [hent w hw, if_neg e])
  have hpage : ∀ w, w < 2 ^ 20 → page r'.mem d w = page r.mem d w := fun w hw => by
    rw [page, hpres w hw]
    by_cases e : w = v
    · rw [if_pos e, Option.map_map, page]
      congr 1
      funext x
      exact pageOf_clear x
    · rw [if_neg e, page]
  have hdata : Data r'.mem d = Data r.mem d := Set.ext fun f => exists_congr fun w => and_congr_right fun hw => by rw [hpage w (by omega)]
  refine ⟨⟨by rw [hdata]; exact h1, by rw [hdata]; exact h.apart, fun w u f hw hu e1 e2 => ?_⟩, hpres, by rw [← hr]; rfl, fun f hf => ?_, by rw [← hr]; rfl, by rw [← hr]; rfl⟩
  · rw [hpage w (by omega)] at e1
    rw [hpage u (by omega)] at e2
    exact h.inj w u f hw hu e1 e2
  · rw [← hr]
    exact update_of_ne (show f ≠ t from fun e => htR (e ▸ hf)) _ _

/-! ## `copyout` -/

/-- The user may reach the page. -/
def UserPage (m : Nat → Page) (d v : Nat) : Prop := ∃ e, pres m d v = some e ∧ e &&& PTE_U ≠ 0

/-- The page of the byte `va + i`. -/
def pageAt (va i : Nat) : Nat := uint (va + i) / 4096

/-- Nothing above `KERNBASE` is for the user. -/
def UserOnly (m : Nat → Page) (d : Nat) : Prop := ∀ v, v < 2 ^ 20 → UserPage m d v → v < 2 ^ 19

/-- The bytes `buf` stand at `va` in the user pages, and the other bytes are as they were. -/
def Written (m m' : Nat → Page) (d va : Nat) (buf : List UInt8) : Prop :=
  ∀ v f j, v < 2 ^ 19 → page m d v = some f → j < 4096 → m' f j = if va ≤ 4096 * v + j then (buf[4096 * v + j - va]?).getD (m f j) else m f j

theorem userPage_congr {m m' : Nat → Page} (h : pres m' d v = pres m d v) : UserPage m' d v ↔ UserPage m d v := by rw [UserPage, UserPage, h]

theorem UserPage.tab {m : Nat → Page} (h : UserPage m d v) : Vm.tab m d (v / 1024) ≠ none := by
  obtain ⟨e, he, _⟩ := h
  obtain ⟨t, ht, _⟩ := tab_of_pres he
  rw [ht]
  nofun

theorem pageAt_lt (va i : Nat) : pageAt va i < 2 ^ 20 := by
  unfold pageAt uint
  omega

/-- Only contents of user pages have changed. -/
structure Filled (k : Image) (d : Nat) (R : Set Nat) (r r' : Res P) : Prop where
  space : Space k r' d R
  same : SameDir r.mem r'.mem d
  own : r'.own = r.own
  mem : ∀ f, f ∉ Data r.mem d → r'.mem f = r.mem f
  proc : r'.proc = r.proc
  denied : r'.denied = r.denied

theorem Filled.refl (h : Space k r d R) : Filled k d R r r := ⟨h, ⟨fun _ _ => rfl, fun _ _ => rfl⟩, rfl, fun _ _ => rfl, rfl, rfl⟩

theorem Filled.data (h : Filled k d R r r') : Data r'.mem d = Data r.mem d := data_congr fun v hv => h.same.pres (by omega)

theorem Filled.trans {r'' : Res P} (h : Filled k d R r r') (h' : Filled k d R r' r'') : Filled k d R r r'' :=
  ⟨h'.space, ⟨fun i hi => (h'.same.tab i hi).trans (h.same.tab i hi), fun v hv => (h'.same.ent v hv).trans (h.same.ent v hv)⟩, h'.own.trans h.own,
    fun f hf => (h'.mem f (by rw [h.data]; exact hf)).trans (h.mem f hf), h'.proc.trans h.proc, h'.denied.trans h.denied⟩

theorem Space.fill (h : Space k r d R) (hf : f ∈ Data r.mem d) (x : Page) : Filled k d R r (r.store f x) := by
  obtain ⟨ht, hs⟩ := h.tree.store (.inr hf) x
  refine ⟨h.of_tree ht (fun v hv => hs.pres hv) h.apart, hs, rfl, fun g hg => ?_, rfl, rfl⟩
  exact update_of_ne (show g ≠ f from fun e => hg (e ▸ hf)) _ _

theorem Filled.userPage (h : Filled k d R r r') (hv : v < 2 ^ 20) : UserPage r'.mem d v ↔ UserPage r.mem d v := userPage_congr (h.same.pres hv)

/-- The part of the buffer that goes to the first page, then the rest. -/
theorem Written.chunk {va n : Nat} {buf : List UInt8} (m' : Nat → Page) (h : Space k r d R) (hva : va / 4096 < 2 ^ 19) (hf : page r.mem d (va / 4096) = some f)
    (hn : n = min (4096 - va % 4096) buf.length)
    (hw : Written (r.store f ((r.mem f).setBytes (va % 4096) (buf.take n))).mem m' d (4096 * (va / 4096 + 1)) (buf.drop n)) :
    Written r.mem m' d va buf := by
  intro v g j hv hg hj
  have hfd : f ∈ Data r.mem d := ⟨_, hva, hf⟩
  have hpage : page (r.store f ((r.mem f).setBytes (va % 4096) (buf.take n))).mem d v = some g :=
    (page_congr ((h.fill hfd _).same.pres (by omega))).trans hg
  rw [hw v g j hv hpage hj]
  by_cases e : v = va / 4096
  · obtain rfl : f = g := Option.some.inj (by rw [← hf, ← e, hg])
    rw [if_neg (by omega), show (r.store f _).mem f = _ from update_self f _ _, Page.setBytes]
    by_cases hlow : va % 4096 ≤ j
    · rw [if_pos hlow, if_pos (by omega), getElem?_take, show 4096 * v + j - va = j - va % 4096 by omega]
      split
      · rfl
      · rw [getElem?_eq_none (by omega)]
    · rw [if_neg hlow, if_neg (by omega)]
  · have hne : g ≠ f := fun eq => e (h.inj v _ f hv hva (eq ▸ hg) hf)
    rw [show (r.store f _).mem g = r.mem g from update_of_ne hne _ _]
    by_cases hlow : v < va / 4096
    · rw [if_neg (by omega), if_neg (by omega)]
    · rw [if_pos (by omega), if_pos (by omega), getElem?_drop]
      by_cases hall : n = buf.length
      · rw [getElem?_eq_none (by omega), getElem?_eq_none (by omega)]
      · rw [show n + (4096 * v + j - 4096 * (va / 4096 + 1)) = 4096 * v + j - va by omega]

variable [DecidableEq P] {B : Err → Prop} {p : P}

omit [DecidableEq P] in
theorem walkpgdir_round (d va : Nat) (alloc : Bool) : (walkpgdir d va alloc : M P _) = walkpgdir d (4096 * (va / 4096)) alloc := by
  have h1 : PDX (4096 * (va / 4096)) = PDX va := by unfold PDX; omega
  have h2 : PTX (4096 * (va / 4096)) = PTX va := by unfold PTX; omega
  rw [walkpgdir, walkpgdir, h1, h2]

theorem w_clearpteu {uva : Nat} (h : Space k r d R) (hv : uva < 2 ^ 32) {Q : Unit → Res P → Prop} (hn : tab r.mem d (uva / 4096 / 1024) = none → B .clearpteu)
    (hQ : ∀ r', Cleared k d R (uva / 4096) r r' → Q () r') : W k B p (clearpteu d uva) Q r := by
  rw [clearpteu, walkpgdir_round]
  refine w_bind (w_walk h.tree.dir_mem (by omega) (fun ht => w_panic (hn ht)) fun t ht => ?_)
  have hm : t ∈ r.own := h.tree.table_mem (by omega) ht
  exact w_read hm ⟨hm, hQ _ (h.clear (by omega) ht)⟩

theorem w_uva2ka (h : Space k r d R) (hv : v < 2 ^ 20) {Q : Option Nat → Res P → Prop} (hnull : tab r.mem d (v / 1024) = none → B .nullPte)
    (hno : tab r.mem d (v / 1024) ≠ none → ¬ UserPage r.mem d v → Q none r) (hok : ∀ e, pres r.mem d v = some e → e &&& PTE_U ≠ 0 → Q (some (pageOf e)) r) :
    W k B p (uva2ka d (4096 * v)) Q r := by
  refine w_bind (w_walk h.tree.dir_mem hv (fun ht => w_panic (hnull ht)) fun t ht => ?_)
  have htab : tab r.mem d (v / 1024) ≠ none := by rw [ht]; nofun
  refine w_read (h.tree.table_mem (by omega) ht) (w_if (fun hp => ?_) fun hp => w_if (fun hu => ?_) fun hu => ?_)
  · refine hno htab fun ⟨e, he, _⟩ => ?_
    obtain ⟨h1, h2⟩ := pres_eq_some.1 he
    rw [ent_of_tab ht] at h1
    exact hp (Option.some.inj h1 ▸ h2)
  · refine hno htab fun ⟨e, he, hne⟩ => ?_
    obtain ⟨h1, _⟩ := pres_eq_some.1 he
    rw [ent_of_tab ht] at h1
    exact hne (Option.some.inj h1 ▸ hu)
  · exact hok _ (pres_eq_some.2 ⟨ent_of_tab ht, not_not.1 hp⟩) hu

/-- The loop stops at the first page that is not for the user, with a fault if it has no table. -/
theorem w_copyoutLoop {fuel va : Nat} {buf : List UInt8} (h : Space k r d R) (huser : UserOnly r.mem d) (hva : va < 2 ^ 32) (hfuel : 2 ^ 19 + 1 - va / 4096 < fuel)
    {Q : Int → Res P → Prop} (hall : (∀ i < buf.length, UserPage r.mem d (pageAt va i)) → ∀ r', Filled k d R r r' → Written r.mem r'.mem d va buf → Q 0 r')
    (hno : ∀ i < buf.length, (∀ j < i, UserPage r.mem d (pageAt va j)) → ¬ UserPage r.mem d (pageAt va i) → tab r.mem d (pageAt va i / 1024) ≠ none →
      ∀ r', Filled k d R r r' → Q (-1) r')
    (hnull : ∀ i < buf.length, (∀ j < i, UserPage r.mem d (pageAt va j)) → tab r.mem d (pageAt va i / 1024) = none → B .nullPte) :
    W k B p (copyoutLoop d fuel va buf) Q r := by
  induction fuel generalizing va buf r with
  | zero => omega
  | succ fuel ih =>
    refine w_if (fun hlen => ?_) fun hlen => ?_
    · have hfirst : pageAt va 0 = va / 4096 := by unfold pageAt uint; omega
      have hnone : ∀ j < 0, UserPage r.mem d (pageAt va j) := fun j hj => absurd hj (Nat.not_lt_zero j)
      rw [show PGROUNDDOWN va = 4096 * (va / 4096) by unfold PGROUNDDOWN; omega]
      refine w_bind (w_uva2ka h (by omega) (fun ht => hnull 0 hlen hnone (by rw [hfirst]; exact ht))
        (fun ht hu => hno 0 hlen hnone (by rw [hfirst]; exact hu) (by rw [hfirst]; exact ht) r (.refl h)) fun e he hu => ?_)
      have hup : UserPage r.mem d (va / 4096) := ⟨e, he, hu⟩
      have hlow : va / 4096 < 2 ^ 19 := huser _ (by omega) hup
      have hpg : page r.mem d (va / 4096) = some (pageOf e) := page_of_pres he
      generalize pageOf e = f at hpg
      have hfd : f ∈ Data r.mem d := ⟨_, hlow, hpg⟩
      generalize hn : min (4096 - (va - 4096 * (va / 4096))) buf.length = n
      rw [show va - 4096 * (va / 4096) = va % 4096 by omega] at hn ⊢
      refine w_memmove (h.data_mem hfd) ?_
      rw [show uint (4096 * (va / 4096) + 4096) = 4096 * (va / 4096 + 1) by unfold uint; omega]
      have hfill := h.fill hfd ((r.mem f).setBytes (va % 4096) (buf.take n))
      have hchunk := fun m' => Written.chunk m' h hlow hpg hn.symm
      generalize hr : r.store f ((r.mem f).setBytes (va % 4096) (buf.take n)) = r₁ at hfill hchunk
      -- the bytes on the first page, and those after it
      have hin : ∀ i < n, pageAt va i = va / 4096 := fun i hi => by unfold pageAt uint; omega
      have hout : ∀ i, n < buf.length → pageAt (4096 * (va / 4096 + 1)) i = pageAt va (n + i) := fun i hi => by
        unfold pageAt
        rw [show 4096 * (va / 4096 + 1) + i = va + (n + i) by omega]
      have hprev : ∀ i, i < (buf.drop n).length → (∀ j < i, UserPage r₁.mem d (pageAt (4096 * (va / 4096 + 1)) j)) →
          ∀ j < n + i, UserPage r.mem d (pageAt va j) := fun i hi hj j hlt => by
        rw [length_drop] at hi
        by_cases e : j < n
        · rw [hin j e]
          exact hup
        · have := hj (j - n) (by omega)
          rw [hout _ (by omega), show n + (j - n) = j by omega] at this
          exact (hfill.userPage (pageAt_lt _ _)).1 this
      refine ih hfill.space (fun v hv hu => huser v hv ((hfill.userPage hv).1 hu)) (by omega) (by omega) (fun hu r' hf hw => ?_)
        (fun i hi hj hu ht r' hf => ?_) fun i hi hj ht => ?_
      · refine hall (fun i hi => ?_) r' (hfill.trans hf) (hchunk r'.mem hw)
        by_cases e : i < n
        · rw [hin i e]
          exact hup
        · have := hu (i - n) (by rw [length_drop]; omega)
          rw [hout _ (by omega), show n + (i - n) = i by omega] at this
          exact (hfill.userPage (pageAt_lt _ _)).1 this
      · have hi' := hi
        rw [length_drop] at hi'
        rw [hout i (by omega)] at hu ht
        rw [hfill.same.tab _ (by have := pageAt_lt va (n + i); omega)] at ht
        exact hno (n + i) (by omega) (hprev i hi hj) (fun h => hu ((hfill.userPage (pageAt_lt _ _)).2 h)) ht r' (hfill.trans hf)
      · have hi' := hi
        rw [length_drop] at hi'
        rw [hout i (by omega), hfill.same.tab _ (by have := pageAt_lt va (n + i); omega)] at ht
        exact hnull (n + i) (by omega) (hprev i hi hj) ht
    · refine hall (fun i hi => absurd hi (by omega)) r (.refl h) fun v f j _ _ _ => ?_
      rw [getElem?_eq_none (by omega)]
      split <;> rfl

/-! ## Directories that the kernel makes -/

/-- A directory that `setupkvm` has made, with user pages below `sz` from `allocuvm`. What
    else happens leaves its pages alone. -/
inductive Made (k : Image) (d : Nat) : St P → Nat → Prop where
  | setupkvm {p : P} {s s' : St P} : Sane k s → run (effect k) p (setupkvm k) s = .ok (some d, s') → Made k d s' 0
  | allocuvm {p : P} {s s' : St P} {sz newsz x : Nat} : Made k d s sz → run (effect k) p (allocuvm d sz newsz) s = .ok (x, s') →
      Made k d s' (if x = 0 then sz else x)
  | clearpteu {p : P} {s s' : St P} {sz uva : Nat} : Made k d s sz → uva < 2 ^ 32 → run (effect k) p (clearpteu d uva) s = .ok ((), s') → Made k d s' sz
  | other {s s' : St P} {sz : Nat} : Made k d s sz → Sane k s' → s.used k ⊆ s'.used k →
      (∀ f, (f = d ∨ ∃ i < 1024, tab s.mem d i = some f) → s'.mem f = s.mem f) → Made k d s' sz

/-- What they have in common. -/
structure Ready (k : Image) (d : Nat) (s : St P) (sz : Nat) : Prop where
  sane : Sane k s
  dir : Dir k s d
  user : UserOnly s.mem d
  above : ∀ v, v < 2 ^ 19 → sz ≤ 4096 * v → pres s.mem d v = none

omit [DecidableEq P] in
theorem pte_user {perm : BitVec 32} (hf : f < 2 ^ 20) (hp : perm.toNat < 4096) : pte (4096 * f) perm &&& PTE_U = (perm ||| PTE_P) &&& PTE_U := by
  rw [← flags_pte hf hp, PTE_FLAGS, BitVec.and_assoc, show 0xFFF &&& PTE_U = PTE_U by decide]

omit [DecidableEq P] in
theorem kernelPte_not_user {w : Nat} {e : BitVec 32} (h : kernelPte k w = some e) : e &&& PTE_U = 0 := by
  obtain ⟨x, hx, rfl⟩ := Option.map_eq_some_iff.1 h
  have hmem := mem_of_find?_eq_some hx
  have hholds : x.Holds w := by simpa using find?_some hx
  have h1 := k.fits
  have h2 := k.bss
  have h3 := k.text
  -- all its addresses are those of pages, and no line of the table has `PTE_U`
  obtain ⟨f, hf, hpa, hperm⟩ : ∃ f, f < 2 ^ 20 ∧ x.phys_start + (4096 * w - x.virt) = 4096 * f ∧ (x.perm = PTE_W ∨ x.perm = 0) := by
    simp only [kmap, mem_cons, not_mem_nil, or_false] at hmem
    rcases hmem with rfl | rfl | rfl | rfl
    · refine ⟨w - 2 ^ 19, ?_, ?_, .inl rfl⟩ <;> simp only [Kmap.Holds, Kmap.size, uint, KERNBASE, EXTMEM] at hholds ⊢ <;> omega
    · refine ⟨w - 2 ^ 19, ?_, ?_, .inr rfl⟩ <;> simp only [Kmap.Holds, Kmap.size, uint, KERNLINK, KERNBASE, EXTMEM] at hholds ⊢ <;> omega
    · refine ⟨w - 2 ^ 19, ?_, ?_, .inl rfl⟩ <;> simp only [Kmap.Holds, Kmap.size, uint, KERNBASE, PHYSTOP] at hholds ⊢ <;> omega
    · refine ⟨w, ?_, ?_, .inl rfl⟩ <;> simp only [Kmap.Holds, Kmap.size, uint, DEVSPACE] at hholds ⊢ <;> omega
  have hlt : x.perm.toNat < 4096 := by rcases hperm with e | e <;> rw [e] <;> decide
  rw [hpa, pte_user hf hlt]
  rcases hperm with e | e <;> rw [e] <;> decide

omit [DecidableEq P] in
theorem KernelMap.userOnly {s s' : St P} (h : KernelMap k s d s') : UserOnly s'.mem d := fun v hv ⟨_, he, hu⟩ =>
  absurd (kernelPte_not_user ((h.pres v hv).symm.trans he)) hu

omit [DecidableEq P] in
/-- A directory is not changed by what leaves its pages alone. -/
theorem Space.beside (h : Space k r d R) (hsub : r.own ⊆ r'.own) (hpool : ∀ f ∈ r'.own, k.InPool f)
    (hmem : ∀ f, (f = d ∨ ∃ i < 1024, tab r.mem d i = some f) → r'.mem f = r.mem f) :
    Space k r' d (R ∪ (r'.own \ r.own)) ∧ SameDir r.mem r'.mem d := by
  have hown : ∀ f, f ∈ r'.own ↔ f ∈ R ∪ (r'.own \ r.own) ∪ Data r.mem d ∨ f ∈ r.own ∧ f ∉ R ∪ Data r.mem d := fun f => by
    constructor
    · intro hf
      by_cases hs : f ∈ r.own
      · by_cases hR : f ∈ R ∪ Data r.mem d
        · exact .inl (hR.elim (fun h => .inl (.inl h)) .inr)
        · exact .inr ⟨hs, hR⟩
      · exact .inl (.inl (.inr ⟨hf, hs⟩))
    · intro hf
      rcases hf with ((hf | hf) | hf) | hf
      · exact hsub (h.tree.rest_mem (.inl hf))
      · exact hf.1
      · exact hsub (h.data_mem hf)
      · exact hsub hf.1
  obtain ⟨ht, hs⟩ := h.tree.change hown (fun f hf hR => hmem f (((h.tree.own f).1 hf).resolve_left hR))
    (fun f hf ho => hf.elim (fun hf => hf.elim .inl fun hf => absurd ho hf.2) .inr) fun f hf => hpool f ((hown f).2 (.inl hf))
  exact ⟨h.of_tree ht (fun v hv => hs.pres hv) fun f hf hR => hR.elim (h.apart f hf) fun hR => hR.2 (h.data_mem hf), hs⟩

theorem Made.ready {s : St P} {sz : Nat} (h : Made k d s sz) : Ready k d s sz := by
  induction h with
  | setupkvm hs hrun =>
    rename_i p s s'
    have hk := (alone (Q := fun x r => ∀ d s', x = some d → Alone k s r s' → KernelMap k s d s') (B := fun _ => False) hs
      (w_setupkvm (p := p) (fun f (hf : f ∈ s.used k) => hf.1) (fun _ _ _ _ _ _ _ e => nomatch e) fun d r hk d' s' e ha => Option.some.inj e ▸ hk.kernelMap ha)).of_run hrun
    obtain ⟨r, hk, ha⟩ := hk
    have hk := hk d s' rfl ha
    have hnone : ∀ v, v < 2 ^ 19 → pres s'.mem d v = none := fun v hv => by rw [hk.pres v (by omega), kernelPte_user k hv]
    exact ⟨hk.sane, ⟨_, .of_empty hk.tree hnone⟩, hk.userOnly, fun v hv _ => hnone v hv⟩
  | allocuvm _ hrun ih =>
    rename_i p s s' sz newsz x _
    obtain ⟨R, hsp⟩ := ih.dir
    have hsame : ∀ r s', Space k r d R → (∀ v, v < 2 ^ 20 → pres r.mem d v = pres s.mem d v) → Alone k s r s' → Ready k d s' sz := fun r s' hr hp ha => by
      obtain ⟨hsp', hsame⟩ := hr.agrees ha.agree
      have hpres : ∀ v, v < 2 ^ 20 → pres s'.mem d v = pres s.mem d v := fun v hv => (hsame.pres hv).trans (hp v hv)
      exact ⟨ha.sane, ⟨R, hsp'⟩, fun v hv hu => ih.user v hv ((userPage_congr (hpres v hv)).1 hu), fun v hv hle => (hpres v (by omega)).trans (ih.above v hv hle)⟩
    have hends : Ends (effect k) p (Vm.allocuvm d sz newsz) s (fun x s' => Ready k d s' (if x = 0 then sz else x)) (fun _ => False) False := by
      refine (alone (Q := fun x r => ∀ s', Alone k s r s' → Ready k d s' (if x = 0 then sz else x)) ih.sane
        (w_allocuvm hsp (fun w hw hle _ => ih.above w hw hle) (fun _ s' ha => ?_) (fun _ s' ha => ?_) (fun hle hk r hg s' ha => ?_)
          fun r hr s' ha => ?_)).mono (fun x s' _ ⟨r, h, ha⟩ => h s' ha) (fun _ h => h) id
      · exact hsame _ s' hsp (fun _ _ => rfl) ha
      · rw [ite_self]
        exact hsame _ s' hsp (fun _ _ => rfl) ha
      · have hk : newsz < 0x80000000 := hk
        obtain ⟨hsp', hsame⟩ := hg.space.agrees ha.agree
        rw [show (if newsz = 0 then sz else newsz) = newsz by split <;> omega]
        have hold : ∀ v, v < 2 ^ 20 → newsz ≤ 4096 * v → pres s'.mem d v = pres s.mem d v := fun v hv hle =>
          (hsame.pres hv).trans (hg.old v hv (by omega))
        refine ⟨ha.sane, ⟨R, hsp'⟩, fun v hv hu => ?_, fun v hv hle' => (hold v (by omega) hle').trans (ih.above v hv (by omega))⟩
        by_contra hge
        exact hge (ih.user v hv ((userPage_congr (hold v hv (by omega))).1 hu))
      · exact hsame r s' hr.space hr.pres ha
    exact hends.of_run hrun
  | clearpteu _ hu hrun ih =>
    rename_i p s s' sz uva _
    obtain ⟨R, hsp⟩ := ih.dir
    obtain ⟨r, hc, ha⟩ := (alone (Q := fun _ r => Cleared k d R (uva / 4096) (s.res k) r) (B := fun _ => True) ih.sane
      (w_clearpteu (p := p) hsp hu (fun _ => trivial) fun r' h => h)).of_run hrun
    obtain ⟨hsp', hsame⟩ := hc.space.agrees ha.agree
    have hpres : ∀ v, v < 2 ^ 20 → pres s'.mem d v = if v = uva / 4096 then (pres s.mem d v).map (· &&& ~~~PTE_U) else pres s.mem d v :=
      fun v hv => (hsame.pres hv).trans (hc.pres v hv)
    refine ⟨ha.sane, ⟨R, hsp'⟩, fun v hv ⟨e, he, hue⟩ => ?_, fun v hv hle => ?_⟩
    · rw [hpres v hv] at he
      by_cases hv' : v = uva / 4096
      · rw [if_pos hv'] at he
        obtain ⟨e', _, rfl⟩ := Option.map_eq_some_iff.1 he
        exact absurd (by rw [BitVec.and_assoc, show ~~~PTE_U &&& PTE_U = 0#32 by decide, BitVec.and_zero]; rfl) hue
      · rw [if_neg hv'] at he
        exact ih.user v hv ⟨e, he, hue⟩
    · rw [hpres v (by omega), ih.above v hv hle]
      split <;> rfl
  | other _ hs hsub hmem ih =>
    obtain ⟨R, hsp⟩ := ih.dir
    rename_i s s' _ _
    obtain ⟨hsp', hsame⟩ := hsp.beside (show (s.res k).own ⊆ (s'.res k).own from hsub) (fun _ hf => hf.1) hmem
    exact ⟨hs, ⟨_, hsp'⟩, fun v hv hu => ih.user v hv ((userPage_congr (hsame.pres hv)).1 hu), fun v hv hle => (hsame.pres (by omega)).trans (ih.above v hv hle)⟩

/-! ## Runs of `copyout` -/

/-- What `copyout` is to do: it writes to user pages only, all bytes or it returns -1. -/
structure CopiedOut (k : Image) (s : St P) (d va : Nat) (buf : List UInt8) (x : Int) (s' : St P) : Prop where
  result : x = 0 ∨ x = -1
  zero : x = 0 ↔ ∀ i < buf.length, UserPage s.mem d (pageAt va i)
  written : x = 0 → Written s.mem s'.mem d va buf
  used : s'.used k = s.used k
  mem : ∀ f ∈ s.used k, f ∉ Data s.mem d → s'.mem f = s.mem f

section Runs

variable {s s' : St P} {sz va : Nat} {buf : List UInt8}

omit [DecidableEq P] in
theorem Filled.agrees (h : Filled k d R (s.res k) r) (ha : Alone k s r s') :
    s'.used k = s.used k ∧ ∀ f ∈ s.used k, s'.mem f = r.mem f ∧ (f ∉ Data s.mem d → s'.mem f = s.mem f) := by
  have hown : r.own = s.used k := h.own
  refine ⟨ha.agree.used.trans hown, fun f hf => ?_⟩
  have he : s'.mem f = r.mem f := ha.mem f (by rw [hown]; exact hf)
  exact ⟨he, fun hd => he.trans (h.mem f hd)⟩

theorem copyout_fault (p : P) (hm : Made k d s sz) (hva : va < 2 ^ 32) {i : Nat} (hi : i < buf.length)
    (hprev : ∀ j < i, UserPage s.mem d (pageAt va j)) (hnone : tab s.mem d (pageAt va i / 1024) = none) :
    run (effect k) p (copyout d va buf) s = .fail .nullPte := by
  have hr := hm.ready
  obtain ⟨R, hsp⟩ := hr.dir
  -- before the page `i` it does not stop, and there it does not go on
  have hnot : ¬ UserPage s.mem d (pageAt va i) := fun hu => hu.tab hnone
  have hwp : W k (fun e => e = .nullPte) p (copyout d va buf) (fun _ _ => False) (s.res k) := by
    refine w_copyoutLoop hsp hr.user hva (by unfold steps; omega) (fun hall _ _ _ => hnot (hall i hi)) (fun i' hi' hprev' hu ht _ _ => ?_)
      fun _ _ _ _ => rfl
    rcases Nat.lt_trichotomy i' i with hlt | rfl | hlt
    · exact hu (hprev i' hlt)
    · exact ht hnone
    · exact hnot (hprev' i hlt)
  obtain ⟨e, hrun, rfl⟩ := ((alone hr.sane hwp).mono (fun _ _ _ ⟨_, h, _⟩ => h) (fun _ h => h) id).failure
  exact hrun

/-- `copyout` is safe exactly when the first page it cannot write to has a page table. -/
theorem copyout_safe_iff (p : P) (hm : Made k d s sz) (hva : va < 2 ^ 32) (buf : List UInt8) :
    Ends (effect k) p (copyout d va buf) s (fun x s' => CopiedOut k s d va buf x s') (fun _ => False) False ↔
      ∀ i < buf.length, (∀ j < i, UserPage s.mem d (pageAt va j)) → tab s.mem d (pageAt va i / 1024) ≠ none := by
  have hr := hm.ready
  obtain ⟨R, hsp⟩ := hr.dir
  constructor
  · intro h i hi hprev hnone
    obtain ⟨x, s', hrun, _⟩ := h.result
    rw [copyout_fault p hm hva hi hprev hnone] at hrun
    cases hrun
  · intro hok
    refine (alone (Q := fun x r => ∀ s', Alone k s r s' → CopiedOut k s d va buf x s') (B := fun _ => False) hr.sane
      (w_copyoutLoop hsp hr.user hva (by unfold steps; omega) (fun hall r hf hw s' ha => ?_) (fun i hi _ hu _ r hf s' ha => ?_)
        fun i hi hprev ht => hok i hi hprev ht)).mono (fun x s' _ ⟨r, h, ha⟩ => h s' ha) (fun _ h => h) id
    · obtain ⟨hused, hmem⟩ := hf.agrees ha
      refine ⟨.inl rfl, iff_of_true rfl hall, fun _ v f j hv hpg hj => ?_, hused, fun f hfu => (hmem f hfu).2⟩
      rw [(hmem f (hsp.data_mem ⟨v, hv, hpg⟩)).1]
      exact hw v f j hv hpg hj
    · obtain ⟨hused, hmem⟩ := hf.agrees ha
      exact ⟨.inr rfl, iff_of_false (by decide) fun hall => hu (hall i hi), nofun, hused, fun f hfu => (hmem f hfu).2⟩

end Runs

/-- With 2000 free pages `setupkvm` succeeds. -/
theorem made_zeroed : ∃ d, ∃ s₀ s : St Unit, Made smallKernel d s 0 ∧ KernelMap smallKernel s₀ d s := by
  obtain ⟨s, hs, hf, hl⟩ : ∃ s : St Unit, Sane smallKernel s ∧ (∀ i, s.fails i = false) ∧ 1025 < s.free.length := by
    refine ⟨zeroed (range' 400 2000) ⟨0, 0, 0, ⟨0, 0, 0⟩, []⟩, ⟨nodup_range', fun f hf => ?_⟩, fun _ => rfl, ?_⟩
    · obtain ⟨i, hi, rfl⟩ := mem_range'.1 hf
      exact ⟨show 300 ≤ _ by omega, by omega⟩
    · show 1025 < (range' 400 2000).length
      rw [length_range']
      decide
  obtain ⟨d, s', hrun, hk⟩ := setupkvm_makes () hs hf hl
  exact ⟨d, s, s', .setupkvm hs hrun, hk⟩

theorem copyout_safe_iff_kernel : ∃ d, ∃ s : St Unit, Made smallKernel d s 0 ∧
    Ends (effect smallKernel) () (copyout d KERNBASE [1]) s (fun x s' => CopiedOut smallKernel s d KERNBASE [1] x s') (fun _ => False) False := by
  obtain ⟨d, s₀, s, hm, hk⟩ := made_zeroed
  refine ⟨d, s, hm, (copyout_safe_iff () hm (by decide) [1]).2 fun i hi _ ht => ?_⟩
  have hat : pageAt KERNBASE i = 2 ^ 19 := by
    rw [List.length_singleton] at hi
    unfold pageAt uint
    simp only [KERNBASE]
    omega
  rw [hat] at ht
  have hnone := hk.pres (2 ^ 19) (by decide)
  rw [pres_of_no_tab ht] at hnone
  exact absurd hnone.symm (by decide)

/-- Between the kernel's memory and the devices there is no page table. -/
theorem copyout_faults_in_hole : ∃ d, ∃ s : St Unit, Made smallKernel d s 0 ∧ run (effect smallKernel) () (copyout d 0x8E000000 [1]) s = .fail .nullPte := by
  obtain ⟨d, s₀, s, hm, hk⟩ := made_zeroed
  refine ⟨d, s, hm, copyout_fault () hm (by decide) (i := 0) (by decide) (fun j hj => absurd hj (Nat.not_lt_zero j)) ?_⟩
  cases ht : tab s.mem d (pageAt 0x8E000000 0 / 1024) with
  | none => rfl
  | some t =>
    obtain ⟨x, hx, w, hw, hreg⟩ := hk.tab _ t (by decide) ht
    rw [show pageAt 0x8E000000 0 / 1024 = 568 by decide] at hreg
    simp only [kmap, smallKernel, List.mem_cons, List.not_mem_nil, or_false] at hx
    rcases hx with rfl | rfl | rfl | rfl <;> simp only [Kmap.Holds, Kmap.size, uint, KERNBASE, EXTMEM, KERNLINK, PHYSTOP, DEVSPACE] at hw <;> omega

end Xv6.Vm
