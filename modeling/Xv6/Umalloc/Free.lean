/-
  Xv6.Umalloc.Free — `free` keeps the heap partitioned.

  The loop of `free` stops only at the block after which the freed one belongs, and finds it
  from wherever `freep` is (`free_eq`). The merge with the block above (`Upper`) leaves the
  freed block between two parts of the list (`Between`); it then stays by itself or is taken
  over by the block below.
-/

import Xv6.Umalloc.Heap

namespace Xv6.Umalloc

open Lib Function List

variable {base : Nat} {h : Heap} {live L : List Nat}

/-! ## The search of `free` -/

variable {bp p : Nat} {l m : List Nat}

/-- The place of an address in an increasing list. -/
theorem place {c : Nat} (hs : (c :: l).Pairwise (· < ·)) (hc : c < bp) (hn : bp ∉ l) :
    ∃ l₁ p l₂, c :: l = l₁ ++ p :: l₂ ∧ p < bp ∧ (∀ x ∈ l₁, x < p) ∧ ∀ y ∈ l₂, bp < y := by
  induction l generalizing c with
  | nil => exact ⟨[], c, [], rfl, hc, (fun _ hx => nomatch hx), fun _ hy => nomatch hy⟩
  | cons d l ih =>
    obtain ⟨hcd, hs'⟩ := pairwise_cons.1 hs
    by_cases hd : d < bp
    · obtain ⟨l₁, p, l₂, he, hp, h1, h2⟩ := ih hs' hd fun hm => hn (mem_cons_of_mem d hm)
      refine ⟨c :: l₁, p, l₂, by rw [he]; rfl, hp, fun x hx => ?_, h2⟩
      rcases mem_cons.1 hx with rfl | hx
      · exact hcd p (by rw [he]; simp)
      · exact h1 x hx
    · have hlt : bp < d := by
        have : d ≠ bp := fun e => hn (by rw [e]; exact mem_cons_self)
        omega
      refine ⟨[], c, d :: l, rfl, hc, (fun _ hx => nomatch hx), fun y hy => ?_⟩
      rcases mem_cons.1 hy with rfl | hy
      · exact hlt
      · have := (pairwise_cons.1 hs').1 y hy
        omega

theorem Tiled.sorted (ht : Tiled base h live L) : (base :: L).Pairwise (· < ·) := ht.gaps.imp fun hab => by omega

/-- Where the block `bp` belongs: after `p`. -/
structure Place (base : Nat) (L : List Nat) (bp : Nat) (l : List Nat) (p : Nat) (m : List Nat) : Prop where
  split : base :: L = l ++ p :: m
  lt : p < bp
  before : ∀ x ∈ l, x < p
  after : ∀ y ∈ m, bp < y

theorem Tiled.place (ht : Tiled base h live L) (hbp : bp ∈ live) : ∃ l p m, Place base L bp l p m := by
  have hb := ht.bounds (mem_append_right L hbp)
  have hn : bp ∉ L := fun hL => (nodup_append.1 ht.nodup).2.2 bp hL bp hbp rfl
  obtain ⟨l, p, m, he, hp, h1, h2⟩ := Umalloc.place ht.sorted (show base < bp by omega) hn
  exact ⟨l, p, m, he, hp, h1, h2⟩

/-- The loop of `free` stops only there. -/
theorem Place.stops_iff (ht : Tiled base h live L) (hp : Place base L bp l p m) (x : Nat) (hx : x ∈ base :: L) :
    stops h bp x = true ↔ x = p := by
  have hring := ht.ring
  have hsort := ht.sorted
  have hbase : ∀ y ∈ base :: L, base ≤ y := fun y hy => by
    rcases mem_cons.1 hy with rfl | hy
    · exact Nat.le_refl _
    · exact Nat.le_of_lt ((pairwise_cons.1 hsort).1 y hy)
  rw [hp.split] at hring hsort hx hbase
  -- what follows `x` in the list
  have hnext : ∀ l₁ l₂, l ++ p :: m = l₁ ++ x :: l₂ → h.ptr x = (l₂.head?).getD base := fun l₁ l₂ e => by
    rw [e] at hring
    have := hring.next_eq
    cases l₂ with
    | nil => exact Option.some.inj this
    | cons z l₂ => exact Option.some.inj this
  have hlt := hp.lt
  rcases mem_append.1 hx with hx | hx
  · -- before `p`
    obtain ⟨l₁, l₂, rfl⟩ := append_of_mem hx
    have hxp := hp.before x (by simp)
    have hn := hnext l₁ (l₂ ++ p :: m) (by simp)
    have hz : x < h.ptr x ∧ h.ptr x < bp := by
      cases l₂ with
      | nil => rw [hn]; exact ⟨hxp, hlt⟩
      | cons z l₂ =>
        have hzp := hp.before z (by simp)
        have hxz : x < z := by
          rw [append_assoc, pairwise_append] at hsort
          exact (pairwise_cons.1 hsort.2.1).1 z (by simp)
        rw [hn]
        exact ⟨hxz, Nat.lt_trans hzp hlt⟩
    simp only [stops, Bool.or_eq_true, Bool.and_eq_true, decide_eq_true_eq]
    omega
  · rcases mem_cons.1 hx with rfl | hx
    · -- `p` itself
      have hn := hnext l m rfl
      simp only [stops, Bool.or_eq_true, Bool.and_eq_true, decide_eq_true_eq, iff_true]
      cases m with
      | nil =>
        have := hbase x (by simp)
        rw [hn]
        exact .inr ⟨this, .inl hlt⟩
      | cons z m =>
        rw [hn]
        exact .inl ⟨hlt, hp.after z (by simp)⟩
    · -- after it
      have hxb := hp.after x hx
      obtain ⟨m₁, m₂, rfl⟩ := append_of_mem hx
      have hn := hnext (l ++ p :: m₁) m₂ (by simp)
      have hb := hbase x (by simp)
      have hb' := hbase p (by simp)
      simp only [stops, Bool.or_eq_true, Bool.and_eq_true, decide_eq_true_eq]
      cases m₂ with
      | nil =>
        have : h.ptr x = base := hn
        omega
      | cons z m₂ =>
        have hz : h.ptr x = z := hn
        have hxz : x < z := by
          rw [pairwise_append] at hsort
          have := (pairwise_cons.1 hsort.2.1).2
          rw [pairwise_append] at this
          exact (pairwise_cons.1 this.2.1).1 z (by simp)
        omega

/-- `free` finds the place from wherever `freep` is. -/
theorem free_eq (ht : Tiled base h live L) (hp : Place base L bp l p m) {fuel : Nat}
    (hf : L.length < fuel) : free fuel h (bp + 8) = some { joinLower (joinUpper h bp p) bp p with freep := p } := by
  obtain ⟨l₁, l₂, he⟩ := append_of_mem ht.freep
  have hring := ht.ring
  rw [he] at hring
  have hperm : (base :: L).Perm (h.freep :: (l₂ ++ l₁)) := by
    rw [he]
    exact perm_middle.trans (perm_append_comm.cons _)
  have hw : walk h.ptr (stops h bp) fuel h.freep = some p := by
    refine walk_of_seg hring.rotate (hperm.subset ?_) (fun x hx => hp.stops_iff ht x (hperm.symm.subset hx)) ?_
    · rw [hp.split]; simp
    · rw [← hperm.length_eq]; exact hf
  simp only [free, Nat.add_sub_cancel, hw, Option.map_some]

/-! ## Merging -/

/-- After the merge with the block above: `bp` has the size `size`, and `m₁` follows it. -/
structure Upper (base : Nat) (h h₁ : Heap) (bp : Nat) (m m₁ : List Nat) : Prop where
  ptr : ∃ n, h₁.ptr = Function.update h.ptr bp n ∧ Seg (link h.ptr) (some n) m₁ (some base)
  size : ∀ x, x ≠ bp → h₁.size x = h.size x
  grow : h.size bp ≤ h₁.size bp
  bound : bp + 8 * h₁.size bp < 2 ^ 32
  gap : ∀ y ∈ m₁, bp + 8 * h₁.size bp < y
  sub : m₁.Sublist m
  tiles : ∀ x, cover h.size (bp :: m) x = cover h₁.size (bp :: m₁) x
  mem : h₁.mem = h.mem

theorem Tiled.upper (ht : Tiled base h live L) (hbp : bp ∈ live) (hp : Place base L bp l p m) :
    ∃ m₁, Upper base h (joinUpper h bp p) bp m m₁ := by
  have hb := ht.bounds (mem_append_right L hbp)
  have hring := ht.ring
  have hgaps := ht.gaps
  rw [hp.split] at hring hgaps
  obtain ⟨_, _, _, hm⟩ := Seg.append_iff.1 hring
  have hmL : ∀ y ∈ m, y ∈ L := fun y hy => by
    have : y ∈ base :: L := by rw [hp.split]; simp [hy]
    refine (mem_cons.1 this).resolve_left fun e => ?_
    have := hp.after y hy
    omega
  have hnot : ∀ y ∈ m, y ≠ bp := fun y hy e => by have := hp.after y hy; omega
  have happ : ∀ y ∈ m, bp + 8 * h.size bp ≤ y := fun y hy =>
    ht.apart (mem_append_right L hbp) (mem_append_left live (hmL y hy)) (hp.after y hy)
  have hplus : plus bp (h.size bp) = bp + 8 * h.size bp := Nat.mod_eq_of_lt hb.2
  unfold joinUpper
  rw [hplus]
  split
  · rename_i he
    -- the block above is the next in the list
    cases m with
    | nil =>
      have : h.ptr p = base := Option.some.inj hm
      omega
    | cons c m =>
      obtain ⟨hpc, hm⟩ := hm
      have hpc : h.ptr p = c := Option.some.inj hpc
      have hc := ht.bounds (mem_append_left live (hmL c (by simp)))
      have hcpos := ht.pos c (mem_append_left live (hmL c (by simp)))
      have hsum : (h.size bp + h.size (h.ptr p)) % 2 ^ 32 = h.size bp + h.size c := by
        rw [hpc]
        exact Nat.mod_eq_of_lt (by omega)
      have hself : update h.size bp (h.size bp + h.size c) bp = h.size bp + h.size c := update_self ..
      rw [hsum]
      refine ⟨m, ⟨_, rfl, by rw [hpc]; exact hm⟩, fun x hx => update_of_ne hx _ _, ?_, ?_, fun y hy => ?_, sublist_cons_self c m,
        fun x => ?_, rfl⟩
      · simp only [hself]; omega
      · simp only [hself]; omega
      · have := (pairwise_cons.1 (pairwise_cons.1 (pairwise_append.1 hgaps).2.1).2).1 y hy
        simp only [hself]
        omega
      · have hcong : cover (update h.size bp (h.size bp + h.size c)) m x = cover h.size m x :=
          cover_congr (fun y hy => update_of_ne (hnot y (mem_cons_of_mem c hy)) _ _) x
        rw [cover_cons, cover_cons, cover_cons]
        simp only [hself, hcong]
        split <;> split <;> split <;> omega
  · rename_i he
    refine ⟨m, ⟨_, rfl, ?_⟩, fun _ _ => rfl, Nat.le_refl _, hb.2, fun y hy => ?_, List.Sublist.refl m, fun _ => rfl, rfl⟩
    · exact hm
    · -- only the next block could be adjacent
      cases m with
      | nil => cases hy
      | cons c m =>
        have hpc : h.ptr p = c := Option.some.inj hm.1
        have hbc := happ c (by simp)
        rcases mem_cons.1 hy with rfl | hy
        · exact Nat.lt_of_le_of_ne hbc fun e => he (e.trans hpc.symm)
        · have := (pairwise_cons.1 (pairwise_cons.1 (pairwise_append.1 hgaps).2.1).2).1 y hy
          show bp + 8 * h.size bp < y
          omega

/-- The list up to `p`, without `base`. -/
theorem Place.init (hp : Place base L bp l p m) : ∃ A, L = A ++ m ∧ base :: A = l ++ [p] := by
  have he := hp.split
  cases l with
  | nil =>
    obtain ⟨rfl, rfl⟩ := cons.inj he
    exact ⟨[], rfl, rfl⟩
  | cons c l =>
    obtain ⟨rfl, rfl⟩ := cons.inj he
    exact ⟨l ++ [p], by simp, rfl⟩

/-- The block `bp` between `l`, `p` and `m₁`, after the merge with the block above. -/
structure Between (base : Nat) (h h₁ : Heap) (live : List Nat) (bp : Nat) (l : List Nat) (p : Nat) (m₁ A : List Nat) (n : Nat) : Prop where
  init : base :: A = l ++ [p]
  lt : p < bp
  above : base < bp
  before : ∀ x ∈ l, x < p
  after : ∀ y ∈ m₁, bp < y
  next : h₁.ptr bp = n
  links : ∀ v, Seg (link (Function.update h₁.ptr p v)) (some n) m₁ (some base)
  others : ∀ x, x ≠ bp → h₁.ptr x = h.ptr x
  size : ∀ x, x ≠ bp → h₁.size x = h.size x
  gapsLow : (l ++ [p]).Pairwise fun a b => a + 8 * h.size a < b
  gapsHigh : m₁.Pairwise fun a b => a + 8 * h.size a < b
  gaps : ∀ x ∈ l ++ [p], ∀ y ∈ m₁, x + 8 * h.size x < y
  gap : ∀ y ∈ m₁, bp + 8 * h₁.size bp < y
  le : p + 8 * h.size p ≤ bp
  bound : bp + 8 * h₁.size bp < 2 ^ 32
  pos : ∀ b ∈ A ++ bp :: m₁ ++ live.erase bp, 0 < h₁.size b
  apart : ∀ x ∈ live.erase bp, x ≠ bp ∧ x ∉ A ++ m₁
  tiles : ∀ x, cover h₁.size (A ++ bp :: m₁ ++ live.erase bp) x = given h₁.mem x
  mem : Memory base h₁.mem

theorem Tiled.between (ht : Tiled base h live L) (hbp : bp ∈ live) (hp : Place base L bp l p m) :
    ∃ m₁ A n, Between base h (joinUpper h bp p) live bp l p m₁ A n ∧ h.size bp ≤ (joinUpper h bp p).size bp := by
  obtain ⟨m₁, hu⟩ := ht.upper hbp hp
  obtain ⟨A, hL, hA⟩ := hp.init
  generalize joinUpper h bp p = h₁ at hu
  obtain ⟨n, hptr, hseg⟩ := hu.ptr
  have hlt := hp.lt
  have hb := ht.bounds (mem_append_right L hbp)
  obtain ⟨hnL, hnlive, hdis⟩ := nodup_append.1 ht.nodup
  have hm₁ : ∀ y ∈ m₁, y ∈ m ∧ bp < y := fun y hy => ⟨hu.sub.subset hy, hp.after y (hu.sub.subset hy)⟩
  have hAm : ∀ x ∈ A ++ m₁, x ∈ L := fun x hx => by
    rw [hL]
    rcases mem_append.1 hx with hx | hx
    · exact mem_append_left _ hx
    · exact mem_append_right _ (hm₁ x hx).1
  have hlive : ∀ x ∈ live.erase bp, x ≠ bp ∧ x ∈ live := fun x hx => ⟨fun e => hnlive.not_mem_erase (e ▸ hx), mem_of_mem_erase hx⟩
  have hgaps := ht.gaps
  rw [hp.split] at hgaps
  obtain ⟨hgl, hgm, hglm⟩ := pairwise_append.1 hgaps
  have hpR : p ∈ base :: L := by rw [hp.split]; simp
  refine ⟨m₁, A, n, ⟨hA, hlt, by omega, hp.before, fun y hy => (hm₁ y hy).2, by rw [hptr, update_self], fun v => ?_,
    fun x hx => by rw [hptr, update_of_ne hx], hu.size, ?_, (pairwise_cons.1 hgm).2.sublist hu.sub, fun x hx y hy => ?_, hu.gap,
    ?_, hu.bound, fun b hb => ?_, fun x hx => ⟨(hlive x hx).1, fun hm => hdis x (hAm x hm) x (hlive x hx).2 rfl⟩, fun x => ?_,
    by rw [hu.mem]; exact ht.mem⟩, hu.grow⟩
  · refine (Seg.congr fun y hy => ?_).2 hseg
    have := (hm₁ y hy).2
    simp only [link, update_of_ne (show y ≠ p by omega), hptr, update_of_ne (show y ≠ bp by omega)]
  · refine pairwise_append.2 ⟨hgl, pairwise_singleton _ _, fun x hx y hy => ?_⟩
    rw [mem_singleton.1 hy]
    exact hglm x hx p mem_cons_self
  · rcases mem_append.1 hx with hx | hx
    · exact hglm x hx y (mem_cons_of_mem p (hm₁ y hy).1)
    · rw [mem_singleton.1 hx]
      exact (pairwise_cons.1 hgm).1 y (hm₁ y hy).1
  · rcases mem_cons.1 hpR with rfl | hpL
    · rw [ht.zero]; omega
    · exact ht.apart (mem_append_left live hpL) (mem_append_right L hbp) hlt
  · by_cases e : b = bp
    · subst e
      have := ht.pos b (mem_append_right L hbp)
      have := hu.grow
      omega
    · rw [hu.size b e]
      refine ht.pos b ?_
      simp only [mem_append, mem_cons, e, false_or] at hb ⊢
      rcases hb with hb | hb
      · exact .inl (hAm b (mem_append.2 hb))
      · exact .inr (hlive b hb).2
  · have hcA : cover h₁.size A x = cover h.size A x := cover_congr (fun y hy => hu.size y fun e => hdis y (hAm y (mem_append_left _ hy)) bp hbp e) x
    have hcl : cover h₁.size (live.erase bp) x = cover h.size (live.erase bp) x := cover_congr (fun y hy => hu.size y (hlive y hy).1) x
    have hperm := perm_cons_erase hbp
    rw [hu.mem, ← ht.tiles, hL, cover_append, cover_append, cover_append, cover_append, cover_perm hperm, hcA, hcl, ← hu.tiles, cover_cons, cover_cons]
    omega

section Lower

variable {h₁ h' : Heap} {bp p n : Nat} {l m₁ A : List Nat}

theorem Between.ring (hb : Between base h h₁ live bp l p m₁ A n) (ht : Seg (link h.ptr) (some base) l (some p)) {v : Nat} {tail : List Nat}
    (hv : Seg (link (update h₁.ptr p v)) (some v) tail (some base)) :
    Seg (link (update h₁.ptr p v)) (some base) (l ++ p :: tail) (some base) := by
  refine Seg.append_iff.2 ⟨some p, (Seg.congr fun x hx => ?_).2 ht, rfl, ?_⟩
  · have h1 := hb.before x hx
    have h2 := hb.lt
    simp only [link, update_of_ne (show x ≠ p by omega), hb.others x (by omega)]
  · simp only [link, update_self]
    exact hv

/-- The block stays by itself. -/
theorem Between.insert (hb : Between base h h₁ live bp l p m₁ A n) (ht : Seg (link h.ptr) (some base) l (some p)) (hz : h.size base = 0)
    (hne : p + 8 * h.size p ≠ bp) (hp : h'.ptr = update h₁.ptr p bp) (hs : h'.size = h₁.size) (hm : h'.mem = h₁.mem) (hf : h'.freep = p) :
    Tiled base h' (live.erase bp) (A ++ bp :: m₁) := by
  have hlt := hb.lt
  have hR : base :: (A ++ bp :: m₁) = (l ++ [p]) ++ bp :: m₁ := by rw [← cons_append, hb.init]
  have hsize : ∀ x, x ≠ bp → h'.size x = h.size x := fun x hx => by rw [hs, hb.size x hx]
  have hlow : ∀ x ∈ l ++ [p], x < bp := fun x hx => by
    rcases mem_append.1 hx with hx | hx
    · have := hb.before x hx; omega
    · rw [mem_singleton.1 hx]; exact hlt
  refine ⟨by rw [hm]; exact hb.mem, ?_, ?_, (hsize base (by have := hb.above; omega)).trans hz, by rw [hs]; exact hb.pos,
    by rw [hs, hm]; exact hb.tiles, ?_⟩
  · rw [hR, hp, append_assoc]
    refine hb.ring ht ⟨rfl, ?_⟩
    simp only [link, update_of_ne (show bp ≠ p by omega), hb.next]
    exact hb.links bp
  · rw [hR]
    refine pairwise_append.2 ⟨hb.gapsLow.imp_of_mem fun {x y} hx _ hxy => ?_, pairwise_cons.2 ⟨?_, hb.gapsHigh.imp_of_mem fun {x y} hx _ hxy => ?_⟩,
      fun x hx y hy => ?_⟩
    · rw [hsize x (by have := hlow x hx; omega)]; exact hxy
    · rw [hs]; exact hb.gap
    · rw [hsize x (by have := hb.after x hx; omega)]; exact hxy
    · rw [hsize x (by have := hlow x hx; omega)]
      rcases mem_cons.1 hy with rfl | hy
      · rcases mem_append.1 hx with hx | hx
        · have := (pairwise_append.1 hb.gapsLow).2.2 x hx p mem_cons_self
          omega
        · have := hb.le
          rw [mem_singleton.1 hx]
          omega
      · exact hb.gaps x hx y hy
  · rw [hR, hf]; simp

/-- The block below takes it over. -/
theorem Between.merge (hb : Between base h h₁ live bp l p m₁ A n) (ht : Seg (link h.ptr) (some base) l (some p)) (hz : h.size base = 0)
    (he : p + 8 * h.size p = bp) (hp : h'.ptr = update h₁.ptr p n) (hs : h'.size = update h₁.size p (h.size p + h₁.size bp))
    (hm : h'.mem = h₁.mem) (hf : h'.freep = p) : Tiled base h' (live.erase bp) (A ++ m₁) ∧ p ∈ A := by
  have hlt := hb.lt
  obtain ⟨A₀, rfl, rfl⟩ : ∃ A₀, l = base :: A₀ ∧ A = A₀ ++ [p] := by
    have hi := hb.init
    cases l with
    | nil =>
      obtain ⟨rfl, _⟩ := cons.inj hi
      rw [hz] at he
      omega
    | cons c l =>
      obtain ⟨rfl, rfl⟩ := cons.inj hi
      exact ⟨l, rfl, rfl⟩
  have hbase := hb.before base mem_cons_self
  have hself : h'.size p = h.size p + h₁.size bp := by rw [hs, update_self]
  have hsize : ∀ x, x ≠ p → h'.size x = h₁.size x := fun x hx => by rw [hs, update_of_ne hx]
  have hold : ∀ x ∈ base :: A₀, h'.size x = h.size x := fun x hx => by
    have := hb.before x hx
    rw [hsize x (by omega), hb.size x (by omega)]
  have hm₁ : ∀ y ∈ m₁, h'.size y = h.size y := fun y hy => by
    have := hb.after y hy
    rw [hsize y (by omega), hb.size y (by omega)]
  have hR : base :: (A₀ ++ [p] ++ m₁) = (base :: A₀) ++ p :: m₁ := by simp
  obtain ⟨hgl, _, hglp⟩ := pairwise_append.1 hb.gapsLow
  refine ⟨⟨by rw [hm]; exact hb.mem, ?_, ?_, (hold base mem_cons_self).trans hz, fun b hb' => ?_, fun x => ?_, ?_⟩, by simp⟩
  · rw [hR, hp]
    exact hb.ring ht (hb.links n)
  · rw [hR]
    refine pairwise_append.2 ⟨hgl.imp_of_mem fun {x y} hx _ hxy => by rw [hold x hx]; exact hxy,
      pairwise_cons.2 ⟨fun y hy => ?_, hb.gapsHigh.imp_of_mem fun {x y} hx _ hxy => by rw [hm₁ x hx]; exact hxy⟩, fun x hx y hy => ?_⟩
    · have := hb.gap y hy
      rw [hself]
      omega
    · rw [hold x hx]
      rcases mem_cons.1 hy with rfl | hy
      · exact hglp x hx y mem_cons_self
      · exact hb.gaps x (mem_append_left _ hx) y hy
  · by_cases e : b = p
    · subst e
      have := hb.pos bp (by simp)
      rw [hself]
      omega
    · rw [hsize b e]
      refine hb.pos b ?_
      simp only [mem_append, mem_cons] at hb' ⊢
      rcases hb' with (h1 | h1) | h1
      · exact .inl (.inl h1)
      · exact .inl (.inr (.inr h1))
      · exact .inr h1
  · have hc : ∀ l, (∀ y ∈ l, y ≠ p) → cover h'.size l x = cover h₁.size l x := fun l hl => cover_congr (fun y hy => hsize y (hl y hy)) x
    have h1 := hc A₀ fun y hy => by have := hb.before y (mem_cons_of_mem base hy); omega
    have h2 := hc m₁ fun y hy => by have := hb.after y hy; omega
    have h3 := hc (live.erase bp) fun y hy e => (hb.apart y hy).2 (by simp [e])
    have h4 := hb.tiles x
    have h5 := hb.size p (by omega)
    rw [hm, ← h4]
    simp only [cover_append, cover_cons, cover_nil, h1, h2, h3, hself, h5]
    split <;> split <;> split <;> omega
  · rw [hf]; simp

end Lower

/-- `free` returns, with the block among the free ones. -/
theorem Tiled.free (ht : Tiled base h live L) (hbp : bp ∈ live) :
    ∃ h' L', (∀ fuel, L.length < fuel → Umalloc.free fuel h (bp + 8) = some h') ∧ Tiled base h' (live.erase bp) L' ∧
      (∃ b ∈ L', h.size bp ≤ h'.size b) ∧ ∀ x ∈ live.erase bp, h'.size x = h.size x := by
  obtain ⟨l, p, m, hp⟩ := ht.place hbp
  obtain ⟨m₁, A, n, hb, hgrow⟩ := ht.between hbp hp
  have hring := ht.ring
  rw [hp.split] at hring
  obtain ⟨o, hl, rfl, _⟩ := Seg.append_iff.1 hring
  have hlt := hb.lt
  have hsp := hb.size p (by omega)
  have hb2 := ht.bounds (mem_append_right L hbp)
  have hplus : plus p ((joinUpper h bp p).size p) = p + 8 * h.size p := by
    have := hb.le
    rw [hsp]
    exact Nat.mod_eq_of_lt (by omega)
  have hfree : ∀ fuel, L.length < fuel → _ := fun fuel hf => free_eq ht hp hf
  generalize joinUpper h bp p = h₁ at *
  by_cases he : p + 8 * h.size p = bp
  · have hsum : (h₁.size p + h₁.size bp) % 2 ^ 32 = h.size p + h₁.size bp := by
      have := hb.bound
      rw [hsp]
      exact Nat.mod_eq_of_lt (by omega)
    have hj : joinLower h₁ bp p = { h₁ with size := update h₁.size p (h.size p + h₁.size bp), ptr := update h₁.ptr p n } := by
      rw [joinLower, if_pos (hplus.trans he), hsum, hb.next]
    rw [hj] at hfree
    have ht' : Tiled base ⟨update h₁.ptr p n, update h₁.size p (h.size p + h₁.size bp), p, h₁.mem⟩ (live.erase bp) (A ++ m₁) ∧ p ∈ A :=
      hb.merge hl ht.zero he rfl rfl rfl rfl
    refine ⟨_, _, hfree, ht'.1, ⟨p, mem_append_left _ ht'.2, ?_⟩, fun x hx => ?_⟩
    · simp only [update_self]
      omega
    · obtain ⟨h1, h2⟩ := hb.apart x hx
      exact (update_of_ne (show x ≠ p from fun e => h2 (e ▸ mem_append_left _ ht'.2)) _ _).trans (hb.size x h1)
  · have hj : joinLower h₁ bp p = { h₁ with ptr := update h₁.ptr p bp } := if_neg fun e => he (hplus.symm.trans e)
    rw [hj] at hfree
    have ht' : Tiled base ⟨update h₁.ptr p bp, h₁.size, p, h₁.mem⟩ (live.erase bp) (A ++ bp :: m₁) :=
      hb.insert hl ht.zero he rfl rfl rfl rfl
    exact ⟨_, _, hfree, ht', ⟨bp, by simp, hgrow⟩, fun x hx => hb.size x (hb.apart x hx).1⟩

end Xv6.Umalloc
