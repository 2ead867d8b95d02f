/-
  Xv6.Umalloc.Malloc — `malloc`, and the heap over whole runs.

  `malloc` takes the first block, from `freep`, that is large enough (`Tiled.found`): all of
  it (`Tiled.unlink`) or its end (`Tiled.cut`). When it is back at `freep` it has more memory
  freed into the list, and then finds a block on the next round (`Tiled.malloc`).

  `heap_partitioned`: after any calls the list is the free blocks in address order, no two of
  them adjacent, and these and the blocks in use are a partition of the memory from `sbrk`;
  every call returns, and `malloc` a block that is large enough.
-/

import Xv6.Umalloc.Free

namespace Xv6.Umalloc

open Lib Function List

section Malloc

variable {base : Nat} {h : Heap} {live L : List Nat} {a : Nat}

/-! ## The search of `malloc` -/

variable {q nu prevp : Nat}

/-- Blocks that are too small are passed over. -/
theorem search_skip {fuel p : Nat} {pre : List Nat} {sbrk : List (Option Nat)} (hs : Seg (link h.ptr) (some p) pre (some q))
    (hsmall : ∀ a ∈ pre, h.size a < nu ∧ a ≠ h.freep) :
    search nu (pre.length + fuel) h prevp p sbrk = search nu fuel h ((prevp :: pre).getLast (cons_ne_nil _ _)) q sbrk := by
  induction pre generalizing p prevp with
  | nil =>
    obtain rfl : p = q := Option.some.inj hs
    rw [length_nil, Nat.zero_add]
    rfl
  | cons x pre ih =>
    obtain rfl : p = x := Option.some.inj hs.1
    obtain ⟨h1, h2⟩ := hsmall p mem_cons_self
    rw [length_cons, Nat.add_right_comm, search, if_neg (by omega), if_neg h2, ih hs.2 fun a ha => hsmall a (mem_cons_of_mem p ha)]
    rfl

/-- The order in which the list is gone through from `freep`, which comes last. -/
theorem Tiled.visits (ht : Tiled base h live L) : ∃ M, (base :: L).Perm (M ++ [h.freep]) ∧
    Seg (link h.ptr) (some h.freep) (h.freep :: M) (some h.freep) := by
  obtain ⟨l₁, l₂, he⟩ := append_of_mem ht.freep
  have hring := ht.ring
  rw [he] at hring
  refine ⟨l₂ ++ l₁, ?_, hring.rotate⟩
  rw [he]
  exact perm_middle.trans ((perm_append_comm.cons _).trans (perm_append_singleton _ _).symm)

theorem Tiled.ring_nodup (ht : Tiled base h live L) : (base :: L).Nodup := ht.sorted.imp fun hab => by omega

/-- If a block is large enough, `malloc` takes one. -/
theorem Tiled.found (ht : Tiled base h live L) (hnu : 0 < nu) (hq : ∃ q ∈ base :: L, nu ≤ h.size q) :
    ∃ prevp q, prevp ∈ base :: L ∧ q ∈ L ∧ h.ptr prevp = q ∧ nu ≤ h.size q ∧ ∀ fuel sbrk, L.length + 1 < fuel →
      search nu fuel h h.freep (h.ptr h.freep) sbrk = some ((take h prevp q nu).1, some (take h prevp q nu).2) := by
  obtain ⟨M, hperm, hseg⟩ := ht.visits
  have hnd : (M ++ [h.freep]).Nodup := hperm.nodup_iff.1 ht.ring_nodup
  obtain ⟨q, hfind⟩ : ∃ q, (M ++ [h.freep]).find? (fun a => nu ≤ h.size a) = some q := by
    obtain ⟨q, hq, hle⟩ := hq
    cases hf : (M ++ [h.freep]).find? (fun a => nu ≤ h.size a) with
    | some q => exact ⟨q, rfl⟩
    | none => exact absurd (by simpa using hle) (find?_eq_none.1 hf q (hperm.subset hq))
  obtain ⟨hle, pre, post, hsplit, hpre⟩ := find?_eq_some_iff_append.1 hfind
  have hle : nu ≤ h.size q := by simpa using hle
  have hmem : ∀ x ∈ M ++ [h.freep], x ∈ base :: L := fun x hx => hperm.symm.subset hx
  have hqR : q ∈ base :: L := hmem q (by rw [hsplit]; simp)
  have hqL : q ∈ L := (mem_cons.1 hqR).resolve_left fun e => by rw [e, ht.zero] at hle; omega
  -- `freep` comes last, so it has not been passed over
  have hlast : h.freep ∈ q :: post := by
    have hg : (M ++ [h.freep]).getLast? = some h.freep := by simp
    rw [hsplit, getLast?_append_of_ne_nil _ (cons_ne_nil _ _)] at hg
    exact mem_of_getLast? hg
  have hsmall : ∀ a ∈ pre, h.size a < nu ∧ a ≠ h.freep := fun a ha => by
    refine ⟨by simpa using hpre a ha, fun e => ?_⟩
    rw [hsplit, nodup_append] at hnd
    exact hnd.2.2 a ha h.freep hlast e
  have hvisit : Seg (link h.ptr) (some h.freep) (h.freep :: (pre ++ q :: post)) (some (h.ptr h.freep)) := by
    rw [← hsplit]
    exact Seg.append_iff (l := h.freep :: M).2 ⟨some h.freep, hseg, rfl, rfl⟩
  obtain ⟨o, hpreseg, rfl, _⟩ := Seg.append_iff.1 hvisit.2
  refine ⟨(h.freep :: pre).getLast (cons_ne_nil _ _), q, ?_, hqL, ?_, hle, fun fuel sbrk hf => ?_⟩
  · rcases mem_cons.1 (getLast_mem (cons_ne_nil h.freep pre)) with e | e
    · rw [e]; exact ht.freep
    · exact hmem _ (by rw [hsplit]; exact mem_append_left _ e)
  · have hdl := dropLast_append_getLast (cons_ne_nil h.freep pre)
    have hv : Seg (link h.ptr) (some h.freep) (((h.freep :: pre).dropLast ++ [(h.freep :: pre).getLast (cons_ne_nil _ _)]) ++ q :: post)
        (some (h.ptr h.freep)) := by
      rw [hdl]; exact hvisit
    rw [append_assoc] at hv
    exact Option.some.inj hv.next_eq
  · have hlen : pre.length ≤ L.length := by
      have := hperm.length_eq
      rw [hsplit] at this
      simp at this
      omega
    obtain ⟨k, rfl⟩ : ∃ k, fuel = pre.length + (k + 1) := ⟨fuel - pre.length - 1, by omega⟩
    rw [search_skip hpreseg hsmall, search, if_pos hle]

/-! ## Taking a block -/

/-- A free block in the list and what leads to it. -/
theorem Tiled.split (ht : Tiled base h live L) (hp : prevp ∈ base :: L) (hq : q ∈ L) (hpq : h.ptr prevp = q) :
    ∃ w B, base :: L = w ++ prevp :: q :: B := by
  obtain ⟨A, B, rfl⟩ := append_of_mem hq
  have hdl := dropLast_append_getLast (cons_ne_nil base A)
  have he : base :: (A ++ q :: B) = (base :: A).dropLast ++ (base :: A).getLast (cons_ne_nil _ _) :: q :: B := by
    rw [← cons_append, ← singleton_append (l := q :: B), ← append_assoc, hdl]
  have hring := ht.ring
  rw [he] at hring
  have hlast : h.ptr ((base :: A).getLast (cons_ne_nil _ _)) = q := Option.some.inj hring.next_eq
  have hmem : (base :: A).getLast (cons_ne_nil _ _) ∈ base :: (A ++ q :: B) := by rw [he]; simp
  have := ht.ring.next_inj ht.ring_nodup hmem hp (hlast.trans hpq.symm)
  rw [this] at he
  exact ⟨_, B, he⟩

/-- A block of the size that is asked for leaves the list. -/
theorem Tiled.unlink (ht : Tiled base h live L) (hp : prevp ∈ base :: L) (hq : q ∈ L) (hpq : h.ptr prevp = q) :
    ∃ L', Tiled base { h with ptr := update h.ptr prevp (h.ptr q), freep := prevp } (q :: live) L' := by
  obtain ⟨w, B, he⟩ := ht.split hp hq hpq
  obtain ⟨A, hA, hL⟩ : ∃ A, base :: A = w ++ [prevp] ∧ L = A ++ q :: B := by
    cases w with
    | nil =>
      obtain ⟨rfl, rfl⟩ := cons.inj he
      exact ⟨[], rfl, rfl⟩
    | cons c w =>
      obtain ⟨rfl, rfl⟩ := cons.inj he
      exact ⟨w ++ [prevp], rfl, by simp⟩
  have hR : base :: (A ++ B) = w ++ prevp :: B := by rw [← cons_append, hA]; simp
  have hsub : (base :: (A ++ B)).Sublist (base :: L) := by
    rw [hL]
    exact ((sublist_cons_self q B).append_left A).cons_cons base
  have hperm : (A ++ B ++ q :: live).Perm (L ++ live) := by
    rw [hL, append_assoc, append_assoc]
    exact List.Perm.append_left A perm_middle
  have hnd := ht.ring_nodup
  have hring := ht.ring
  rw [he] at hring hnd
  refine ⟨A ++ B, ht.mem, ?_, ht.gaps.sublist hsub, ht.zero, fun b hb => ht.pos b (hperm.subset hb),
    fun x => (cover_perm hperm x).trans (ht.tiles x), ?_⟩
  · obtain ⟨_, hw, rfl, _, hB⟩ := Seg.append_iff.1 hring
    obtain ⟨_, hndp, hdis⟩ := nodup_append.1 hnd
    rw [hR, link_update]
    refine Seg.append_iff.2 ⟨some prevp, (Seg.update fun hm => hdis prevp hm prevp mem_cons_self rfl).2 hw, rfl, ?_⟩
    rw [update_self]
    exact (Seg.update fun hm => (nodup_cons.1 hndp).1 (mem_cons_of_mem q hm)).2 hB
  · rw [hR]; simp

/-- The end of a larger one becomes a block of its own. -/
theorem Tiled.cut (ht : Tiled base h live L) (hp : prevp ∈ base :: L) (hq : q ∈ L) (hnu : 0 < nu) (hlt : nu < h.size q) :
    Tiled base { h with size := update (update h.size q (h.size q - nu)) (q + 8 * (h.size q - nu)) nu, freep := prevp }
      ((q + 8 * (h.size q - nu)) :: live) L := by
  have hqm := mem_append_left live hq
  have hb := ht.bounds hqm
  -- the new block starts within `q`, so no other block does
  have hnew : q + 8 * (h.size q - nu) ∉ L ++ live := fun hm => by
    have := ht.apart hqm hm (by omega)
    omega
  generalize hn : q + 8 * (h.size q - nu) = n at *
  have hsize : ∀ x, x ≠ n → x ≠ q → update (update h.size q (h.size q - nu)) n nu x = h.size x := fun x h1 h2 => by
    rw [update_of_ne h1, update_of_ne h2]
  have hqn : q ≠ n := by omega
  have hsq : update (update h.size q (h.size q - nu)) n nu q = h.size q - nu := by
    rw [update_of_ne hqn, update_self]
  have hsn : update (update h.size q (h.size q - nu)) n nu n = nu := update_self ..
  generalize update (update h.size q (h.size q - nu)) n nu = size at *
  have hold : ∀ x ∈ L ++ live, x ≠ q → size x = h.size x := fun x hx e => hsize x (fun e' => hnew (e' ▸ hx)) e
  have hzero : size base = 0 := (hsize base (by omega) (by omega)).trans ht.zero
  obtain ⟨A, B, hL⟩ := append_of_mem hqm
  refine ⟨ht.mem, ht.ring, ht.gaps.imp_of_mem fun {x y} hx _ hxy => ?_, hzero, fun b hb' => ?_, fun x => ?_, hp⟩
  · rcases mem_cons.1 hx with rfl | hx
    · simp only [hzero]; omega
    · by_cases e : x = q
      · subst e; simp only [hsq]; omega
      · simp only [hold x (mem_append_left live hx) e]; exact hxy
  · rcases mem_cons.1 (perm_middle.subset hb') with rfl | hb'
    · simp only [hsn]; exact hnu
    · by_cases e : b = q
      · subst e; simp only [hsq]; omega
      · simp only [hold b hb' e]; exact ht.pos b hb'
  · have hc : ∀ l, (∀ y ∈ l, y ∈ L ++ live ∧ y ≠ q) → cover size l x = cover h.size l x := fun l hl =>
      cover_congr (fun y hy => hold y (hl y hy).1 (hl y hy).2) x
    have hnd := ht.nodup
    have htx := ht.tiles x
    rw [hL] at hnd htx
    obtain ⟨hn1, hn2, hn3⟩ := nodup_append.1 hnd
    have h1 := hc A fun y hy => ⟨by rw [hL]; simp [hy], hn3 y hy q mem_cons_self⟩
    have h2 := hc B fun y hy => ⟨by rw [hL]; simp [hy], fun e => (nodup_cons.1 hn2).1 (e ▸ hy)⟩
    rw [cover_perm perm_middle, hL, ← htx]
    simp only [cover_cons, cover_append, h1, h2, hsq, hsn]
    split <;> split <;> split <;> omega

/-- What `malloc` does when it has found a block. -/
theorem Tiled.take (ht : Tiled base h live L) (hp : prevp ∈ base :: L) (hq : q ∈ L) (hpq : h.ptr prevp = q) (hnu : 0 < nu)
    (hle : nu ≤ h.size q) : ∃ b L', Tiled base (Umalloc.take h prevp q nu).1 (b :: live) L' ∧ (Umalloc.take h prevp q nu).2 = b + 8 ∧
      (Umalloc.take h prevp q nu).1.size b = nu ∧ ∀ x ∈ live, (Umalloc.take h prevp q nu).1.size x = h.size x := by
  have hqm := mem_append_left live hq
  have hb := ht.bounds hqm
  by_cases e : h.size q = nu
  · obtain ⟨L', ht'⟩ := ht.unlink hp hq hpq
    refine ⟨q, L', ?_⟩
    simp only [Umalloc.take, if_pos e]
    exact ⟨ht', Nat.mod_eq_of_lt (by omega), e, fun _ _ => trivial⟩
  · have hplus : plus q (h.size q - nu) = q + 8 * (h.size q - nu) := Nat.mod_eq_of_lt (by omega)
    refine ⟨q + 8 * (h.size q - nu), L, ?_⟩
    simp only [Umalloc.take, if_neg e, hplus]
    refine ⟨ht.cut hp hq hnu (by omega), Nat.mod_eq_of_lt (by omega), update_self .., fun x hx => ?_⟩
    have hxq : x ≠ q := fun e => (nodup_append.1 ht.nodup).2.2 q hq x hx e.symm
    have hxn : x ≠ q + 8 * (h.size q - nu) := fun e => by
      have := ht.apart hqm (mem_append_right L hx) (by omega)
      omega
    rw [update_of_ne hxn, update_of_ne hxq]

/-! ## More memory -/

theorem given_cons (r : Nat × Nat) (mem : List (Nat × Nat)) (x : Nat) :
    given (r :: mem) x = given mem x + if r.1 ≤ x ∧ x < r.1 + 8 * r.2 then 1 else 0 := by
  rw [given, countP_cons]
  simp [given]

/-- A piece of memory from `sbrk` is a block in use until `morecore` frees it. -/
theorem Tiled.grow (ht : Tiled base h live L) (hnu : 0 < nu) (hf : Fresh base h.mem a nu) :
    Tiled base { h with size := update h.size a nu, mem := (a, nu) :: h.mem } (a :: live) L := by
  have hnone : ∀ x, a ≤ x → x < a + 8 * nu → given h.mem x = 0 := fun x h1 h2 => by
    refine countP_eq_zero.2 fun r hr hx => ?_
    have := hf.new r hr
    simp only [Bool.and_eq_true, decide_eq_true_eq] at hx
    omega
  have hnew : a ∉ L ++ live := fun hm => by
    have hpos := ht.pos a hm
    have h1 : 0 < cover h.size (L ++ live) a := countP_pos_iff.2 ⟨a, hm, by simp; omega⟩
    rw [ht.tiles, hnone a (Nat.le_refl a) (by omega)] at h1
    omega
  have hbase : base ≠ a := by have := hf.above; omega
  have hold : ∀ x ∈ L ++ live, update h.size a nu x = h.size x := fun x hx =>
    update_of_ne (show x ≠ a from fun e => hnew (e ▸ hx)) _ _
  have hself : update h.size a nu a = nu := update_self ..
  have hzero : update h.size a nu base = 0 := (update_of_ne hbase _ _).trans ht.zero
  generalize update h.size a nu = size at *
  refine ⟨⟨fun r hr => ?_, fun r hr => ?_, fun x => ?_⟩, ht.ring, ht.gaps.imp_of_mem fun {x y} hx _ hxy => ?_, hzero, fun b hb => ?_, fun x => ?_,
    ht.freep⟩
  · rcases mem_cons.1 hr with rfl | hr
    · exact hf.above
    · exact ht.mem.above r hr
  · rcases mem_cons.1 hr with rfl | hr
    · exact hf.below
    · exact ht.mem.below r hr
  · have h1 := ht.mem.once x
    rw [given_cons]
    split
    · rename_i hx
      rw [hnone x hx.1 hx.2]
    · omega
  · rcases mem_cons.1 hx with rfl | hx
    · simp only [hzero]; omega
    · simp only [hold x (mem_append_left live hx)]; exact hxy
  · rcases mem_cons.1 (perm_middle.subset hb) with rfl | hb
    · simp only [hself]; exact hnu
    · simp only [hold b hb]; exact ht.pos b hb
  · rw [cover_perm perm_middle, cover_cons, given_cons, ← ht.tiles, cover_congr hold]
    simp only [hself]

/-- What the search of `malloc` gives: the null pointer, or a block. -/
structure Got (base : Nat) (h : Heap) (live : List Nat) (nu : Nat) (h' : Heap) (r : Option Nat) : Prop where
  kept : ∀ x ∈ live, h'.size x = h.size x
  null : r = none → ∃ L', Tiled base h' live L'
  block : ∀ p, r = some p → ∃ b L', p = b + 8 ∧ Tiled base h' (b :: live) L' ∧ h'.size b = nu

theorem Tiled.got (ht : Tiled base h live L) (hnu : 0 < nu) (hq : ∃ q ∈ base :: L, nu ≤ h.size q) :
    ∃ h' r, Got base h live nu h' r ∧ r ≠ none ∧ ∀ fuel sbrk, L.length + 1 < fuel →
      search nu fuel h h.freep (h.ptr h.freep) sbrk = some (h', r) := by
  obtain ⟨prevp, q, hp, hq, hpq, hle, hs⟩ := ht.found hnu hq
  obtain ⟨b, L', ht', hr, hsize, hkept⟩ := ht.take hp hq hpq hnu hle
  refine ⟨(Umalloc.take h prevp q nu).1, some (Umalloc.take h prevp q nu).2, ⟨hkept, (fun e => nomatch e), fun p e => ?_⟩, nofun, hs⟩
  obtain rfl := Option.some.inj e
  exact ⟨b, L', hr, ht', hsize⟩

/-- When no block is large enough `malloc` gets to `freep` and calls `morecore`. -/
theorem Tiled.around (ht : Tiled base h live L) (hq : ∀ q ∈ base :: L, h.size q < nu) {fuel : Nat} (sbrk : List (Option Nat))
    (hf : L.length < fuel) : ∃ k, fuel = L.length + (k + 1) ∧
    (morecore k h nu (sbrk.headD none) = some none → search nu fuel h h.freep (h.ptr h.freep) sbrk = some (h, none)) ∧
    ∀ h', morecore k h nu (sbrk.headD none) = some (some h') →
      search nu fuel h h.freep (h.ptr h.freep) sbrk = search nu k h' h'.freep (h'.ptr h'.freep) sbrk.tail := by
  obtain ⟨M, hperm, hseg⟩ := ht.visits
  have hnd : (M ++ [h.freep]).Nodup := hperm.nodup_iff.1 ht.ring_nodup
  have hsmall : ∀ a ∈ M ++ [h.freep], h.size a < nu := fun a ha => hq a (hperm.symm.subset ha)
  have hlen : M.length = L.length := by
    have := hperm.length_eq
    simpa using this.symm
  obtain ⟨k, rfl⟩ : ∃ k, fuel = L.length + (k + 1) := ⟨fuel - L.length - 1, by omega⟩
  have hne : ∀ a ∈ M, a ≠ h.freep := fun a ha => (nodup_append.1 hnd).2.2 a ha h.freep (by simp)
  rw [← hlen, search_skip hseg.2 fun a ha => ⟨hsmall a (mem_append_left _ ha), hne a ha⟩, search,
    if_neg (by have := hsmall h.freep (by simp); omega), if_pos rfl]
  exact ⟨k, by rw [hlen], fun hm => by rw [hm], fun h' hm => by rw [hm]⟩

/-- `malloc` returns, with the null pointer if no block is large enough and there is no more memory. -/
theorem Tiled.malloc (ht : Tiled base h live L) (sbrk : List (Option Nat)) (hnu : 0 < nu)
    (hf : ∀ a, sbrk.headD none = some a → Fresh base h.mem a (if nu < 4096 then 4096 else nu)) :
    ∃ h' r, Got base h live nu h' r ∧ (r = none ↔ (∀ q ∈ base :: L, h.size q < nu) ∧ sbrk.headD none = none) ∧
      ∃ F, ∀ fuel, F ≤ fuel → search nu fuel h h.freep (h.ptr h.freep) sbrk = some (h', r) := by
  by_cases hq : ∃ q ∈ base :: L, nu ≤ h.size q
  · obtain ⟨h', r, hgot, hr, hs⟩ := ht.got hnu hq
    obtain ⟨q, hqm, hle⟩ := hq
    exact ⟨h', r, hgot, iff_of_false hr fun h => absurd (h.1 q hqm) (by omega), L.length + 2, fun fuel hle => hs fuel sbrk (by omega)⟩
  have hq : ∀ q ∈ base :: L, h.size q < nu := fun q hm => by
    by_contra hn
    exact hq ⟨q, hm, by omega⟩
  cases hsb : sbrk.headD none with
  | none =>
    refine ⟨h, none, ⟨fun _ _ => rfl, fun _ => ⟨L, ht⟩, (fun _ e => nomatch e)⟩, iff_of_true rfl ⟨hq, rfl⟩, L.length + 1, fun fuel hle => ?_⟩
    obtain ⟨k, _, hs, _⟩ := ht.around hq sbrk (show L.length < fuel by omega)
    exact hs (by rw [hsb]; rfl)
  | some a =>
    have hfresh := hf a hsb
    have hnu' : nu ≤ if nu < 4096 then 4096 else nu := by split <;> omega
    have hplus : plus a 1 = a + 8 := Nat.mod_eq_of_lt (by have := hfresh.below; omega)
    have hmore : ∀ k, morecore k h nu (some a) = (Umalloc.free k _ (a + 8)).map some := fun k => by rw [← hplus]; rfl
    generalize (if nu < 4096 then 4096 else nu) = n at *
    have hg := ht.grow (by omega) hfresh
    obtain ⟨h₁, L₁, hfree, ht₁, ⟨b, hb, hsize⟩, hkept⟩ := hg.free mem_cons_self
    rw [erase_cons_head] at ht₁ hkept
    have hold : ∀ x ∈ live, h₁.size x = h.size x := fun x hx => by
      refine (hkept x hx).trans (update_of_ne (fun e => ?_) _ _)
      exact (nodup_cons.1 (nodup_append.1 hg.nodup).2.1).1 (e ▸ hx)
    simp only [update_self] at hsize
    obtain ⟨h', r, hgot, hr, hs₁⟩ := ht₁.got hnu ⟨b, mem_cons_of_mem base hb, by omega⟩
    refine ⟨h', r, ⟨fun x hx => (hgot.kept x hx).trans (hold x hx), hgot.null, hgot.block⟩, iff_of_false hr (fun h => nomatch h.2), L.length + L.length + L₁.length + 4, fun fuel hle => ?_⟩
    obtain ⟨k, hk, _, hs⟩ := ht.around hq sbrk (show L.length < fuel by omega)
    rw [hs h₁ (by rw [hsb, hmore, hfree k (by omega)]; rfl)]
    exact hs₁ k sbrk.tail (by omega)

end Malloc

/-! ## Enough fuel -/

variable {fuel fuel' base : Nat}

theorem free_mono {h h' : Heap} {ap : Nat} (hle : fuel ≤ fuel') (hf : free fuel h ap = some h') : free fuel' h ap = some h' := by
  obtain ⟨p, hp, rfl⟩ := Option.map_eq_some_iff.1 hf
  rw [free, walk_mono hle hp]
  rfl

theorem morecore_mono {h : Heap} {nu : Nat} {sbrk : Option Nat} {o : Option Heap} (hle : fuel ≤ fuel')
    (hm : morecore fuel h nu sbrk = some o) : morecore fuel' h nu sbrk = some o := by
  cases sbrk with
  | none => exact hm
  | some a =>
    obtain ⟨h', hf, rfl⟩ := Option.map_eq_some_iff.1 hm
    exact Option.map_eq_some_iff.2 ⟨h', free_mono hle hf, rfl⟩

theorem search_mono {nu : Nat} {x : Heap × Option Nat} (hle : fuel ≤ fuel') {h : Heap} {prevp p : Nat} {sbrk : List (Option Nat)}
    (hs : search nu fuel h prevp p sbrk = some x) : search nu fuel' h prevp p sbrk = some x := by
  induction fuel generalizing fuel' h prevp p sbrk with
  | zero => cases hs
  | succ fuel ih =>
    obtain ⟨fuel', rfl⟩ : ∃ k, fuel' = k + 1 := ⟨fuel' - 1, by omega⟩
    have hle : fuel ≤ fuel' := by omega
    rw [search] at hs ⊢
    split
    · rw [if_pos ‹_›] at hs
      exact hs
    rw [if_neg ‹_›] at hs
    split
    · rw [if_pos ‹_›] at hs
      cases hm : morecore fuel h nu (sbrk.headD none) with
      | none => rw [hm] at hs; cases hs
      | some o =>
        rw [hm] at hs
        rw [morecore_mono hle hm]
        cases o with
        | none => exact hs
        | some h' => exact ih hle hs
    · rw [if_neg ‹_›] at hs
      exact ih hle hs

variable {s : State}

theorem call_mono {op : Op} {x : State × Option Nat} (hle : fuel ≤ fuel')
    (hc : call base fuel s op = some x) : call base fuel' s op = some x := by
  cases op with
  | malloc nbytes sbrk =>
    obtain ⟨y, hy, rfl⟩ := Option.map_eq_some_iff.1 hc
    exact Option.map_eq_some_iff.2 ⟨y, search_mono hle hy, rfl⟩
  | free ap =>
    obtain ⟨y, hy, rfl⟩ := Option.map_eq_some_iff.1 hc
    exact Option.map_eq_some_iff.2 ⟨y, free_mono hle hy, rfl⟩

/-! ## Runs -/

/-- Before the first `malloc` there is no list. -/
def Inv (base : Nat) (s : State) : Prop :=
  (s.heap.freep = 0 ∧ s.heap.mem = [] ∧ s.live = []) ∨ ∃ L, Tiled base s.heap s.live L

theorem Inv.initBase (hb : 0 < base) (hi : Inv base s) :
    (initBase base s.heap).mem = s.heap.mem ∧ (∀ x ∈ s.live, (initBase base s.heap).size x = s.heap.size x) ∧
      ∃ L, Tiled base (initBase base s.heap) s.live L := by
  rcases hi with ⟨h1, h2, h3⟩ | ⟨L, ht⟩
  · rw [Umalloc.initBase, if_pos h1, h3]
    refine ⟨rfl, (fun _ hx => nomatch hx), [], ⟨?_, ?_, ?_⟩, ⟨rfl, ?_⟩, pairwise_singleton _ _, update_self .., (fun _ hb => nomatch hb),
      fun x => ?_, mem_cons_self⟩
    · simp [h2]
    · simp [h2]
    · simp [h2, given]
    · exact congrArg some (update_self ..)
    · rw [show ({ s.heap with ptr := _, freep := base, size := _ } : Heap).mem = [] from h2]
      rfl
  · have hf : s.heap.freep ≠ 0 := by
      rcases mem_cons.1 ht.freep with e | hm
      · omega
      · have := ht.bounds (mem_append_left s.live hm)
        omega
    rw [Umalloc.initBase, if_neg hf]
    exact ⟨rfl, fun _ _ => rfl, L, ht⟩

/-- What the caller of `malloc(nbytes)` and `free` gets. -/
def Answer (s s' : State) (r : Option Nat) : Op → Prop
  | .malloc nbytes _ => match r with
    | some p => ∃ b, p = b + 8 ∧ s'.live = b :: s.live ∧ nbytes + 8 ≤ 8 * s'.heap.size b
    | none => s'.live = s.live
  | .free ap => s'.live = s.live.erase (ap - 8)

/-- Every call returns, and the partition is kept. -/
theorem Inv.call {op : Op} (hb : 0 < base) (hi : Inv base s) (ha : Allowed base s op) :
    ∃ s' r F, (∀ fuel, F ≤ fuel → call base fuel s op = some (s', r)) ∧ Inv base s' ∧ Answer s s' r op ∧
      ∀ b ∈ s.live, b ∈ s'.live → s'.heap.size b = s.heap.size b := by
  cases op with
  | malloc nbytes sbrk =>
    obtain ⟨hmem, hsame, L, ht⟩ := hi.initBase hb
    obtain ⟨hle, hfresh⟩ := ha
    have hnu : 0 < nunits nbytes := Nat.succ_pos _
    obtain ⟨h', r, hgot, -, F, hs⟩ := ht.malloc sbrk hnu (by rw [hmem]; exact hfresh)
    have hcall : ∀ fuel, F ≤ fuel → Umalloc.call base fuel s (.malloc nbytes sbrk) = (some (h', r)).map _ := fun fuel hF => by
      rw [← hs fuel hF]
      rfl
    have hkept := fun b hb => (hgot.kept b hb).trans (hsame b hb)
    cases r with
    | none => exact ⟨⟨h', s.live⟩, none, F, hcall, .inr (hgot.null rfl), rfl, fun b hb _ => hkept b hb⟩
    | some p =>
      obtain ⟨b, L', rfl, ht', hsize⟩ := hgot.block p rfl
      refine ⟨⟨h', b :: s.live⟩, some (b + 8), F, hcall, .inr ⟨L', ht'⟩, ⟨b, rfl, rfl, ?_⟩, fun b hb _ => hkept b hb⟩
      show nbytes + 8 ≤ 8 * h'.size b
      rw [hsize, nunits, Nat.mod_eq_of_lt (by omega)]
      omega
  | free ap =>
    obtain ⟨b, hlive, rfl⟩ := ha
    rcases hi with ⟨_, _, h3⟩ | ⟨L, ht⟩
    · rw [h3] at hlive
      cases hlive
    obtain ⟨h', L', hfree, ht', _, hkept⟩ := ht.free hlive
    refine ⟨⟨h', s.live.erase b⟩, none, L.length + 1, fun fuel hF => ?_, .inr ⟨L', ht'⟩, rfl, fun x _ hx => hkept x hx⟩
    rw [Umalloc.call, hfree fuel (by omega)]
    rfl

theorem Reach.inv (hb : 0 < base) (hr : Reach base s) : Inv base s := by
  induction hr with
  | boot => exact .inl ⟨rfl, rfl, rfl⟩
  | @call s s' op fuel r _ ha hc ih =>
    obtain ⟨s₁, r₁, F, hF, hi, _⟩ := ih.call hb ha
    have h1 := call_mono (Nat.le_max_left fuel F) hc
    have h2 := hF _ (Nat.le_max_right fuel F)
    rw [h1] at h2
    obtain ⟨rfl, rfl⟩ := Prod.mk.inj (Option.some.inj h2)
    exact hi

/-- The list from `freep` is `base` and the blocks of `free` in address order, with one wrap;
    with the blocks in use these are all of the memory from `sbrk`. -/
structure Partition (base : Nat) (s : State) (free : List Nat) : Prop where
  ring : ∃ l₁ l₂, base :: free = l₁ ++ s.heap.freep :: l₂ ∧
    Seg (link s.heap.ptr) (some s.heap.freep) (s.heap.freep :: (l₂ ++ l₁)) (some s.heap.freep)
  merged : (base :: free).Pairwise fun a b => a + 8 * s.heap.size a < b
  disjoint : (free ++ s.live).Pairwise fun a b => a + 8 * s.heap.size a ≤ b ∨ b + 8 * s.heap.size b ≤ a
  nonempty : ∀ b ∈ free ++ s.live, 0 < s.heap.size b
  all : ∀ x, (∃ b ∈ free ++ s.live, b ≤ x ∧ x < b + 8 * s.heap.size b) ↔ ∃ r ∈ s.heap.mem, r.1 ≤ x ∧ x < r.1 + 8 * r.2

theorem Tiled.partition {L : List Nat} (ht : Tiled base s.heap s.live L) : Partition base s L := by
  obtain ⟨l₁, l₂, he⟩ := append_of_mem ht.freep
  have hring := ht.ring
  rw [he] at hring
  refine ⟨⟨l₁, l₂, he, hring.rotate⟩, ht.gaps, ht.nodup.imp_of_mem fun {a b} ha hb hne => ?_, ht.pos, fun x => ?_⟩
  · rcases Nat.lt_or_gt_of_ne hne with hlt | hlt
    · exact .inl (ht.apart ha hb hlt)
    · exact .inr (ht.apart hb ha hlt)
  · have h1 : 0 < cover s.heap.size (L ++ s.live) x ↔ 0 < given s.heap.mem x := by rw [ht.tiles]
    rw [cover, given, countP_pos_iff, countP_pos_iff] at h1
    simpa using h1

/-- After any calls the heap is partitioned, and every further call returns: `malloc` the null
    pointer or a new block with room for what was asked for. -/
theorem heap_partitioned {base : Nat} (hb : 0 < base) {s : State} (hr : Reach base s) :
    ((s.heap.freep = 0 ∧ s.heap.mem = [] ∧ s.live = []) ∨ ∃ free, Partition base s free) ∧
      ∀ op, Allowed base s op → ∃ s' r F, (∀ fuel, F ≤ fuel → call base fuel s op = some (s', r)) ∧ Answer s s' r op ∧
        ∀ b ∈ s.live, b ∈ s'.live → s'.heap.size b = s.heap.size b := by
  have hi := hr.inv hb
  refine ⟨hi.imp id fun ⟨L, ht⟩ => ⟨L, ht.partition⟩, fun op ha => ?_⟩
  obtain ⟨s', r, F, hF, _, hans, hkept⟩ := hi.call hb ha
  exact ⟨s', r, F, hF, hans, hkept⟩

/-- `malloc(10)` from a fresh heap at 8192, with `base` at 4096, then `malloc(20)` and the `free` of the first block. -/
def mallocTwiceFree : Option State := do
  let (s, p) ← call 4096 8 ⟨⟨fun _ => 0, fun _ => 0, 0, []⟩, []⟩ (.malloc 10 [some 8192])
  let (s, _) ← call 4096 8 s (.malloc 20 [])
  let (s, _) ← call 4096 8 s (.free (p.getD 0))
  return s

theorem heap_partitioned_mallocTwiceFree : ∃ s, mallocTwiceFree = some s ∧ s.live = [40904] ∧ s.heap.size 40904 = 4 ∧
    ((s.heap.freep = 0 ∧ s.heap.mem = [] ∧ s.live = []) ∨ ∃ free, Partition 4096 s free) := by
  have h0 : Reach 4096 ⟨⟨fun _ => 0, fun _ => 0, 0, []⟩, []⟩ := .boot _ _
  have a1 : Allowed 4096 ⟨⟨fun _ => 0, fun _ => 0, 0, []⟩, []⟩ (.malloc 10 [some 8192]) :=
    ⟨by decide, fun a e => by cases e; exact ⟨by decide, by decide, fun _ hr => nomatch hr⟩⟩
  have h1 := h0.call a1 (show call 4096 8 _ _ = _ from rfl)
  have h2 := h1.call (show Allowed 4096 _ (.malloc 20 []) from ⟨by decide, fun a e => nomatch e⟩) (show call 4096 8 _ _ = _ from rfl)
  have h3 := h2.call (show Allowed 4096 _ (.free 40944) from ⟨40936, by decide, rfl⟩) (show call 4096 8 _ _ = _ from rfl)
  exact ⟨_, rfl, by decide, by decide, (heap_partitioned (by decide) h3).1⟩

end Xv6.Umalloc
