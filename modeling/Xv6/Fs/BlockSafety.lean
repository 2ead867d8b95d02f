/-
  Xv6.Fs.BlockSafety — no block is lost or shared, and "freeing free block" is
  unreachable, however the operations on inodes interleave.

  `World` ties the inodes that the threads hold (`Fs.Blocks`) to the store: every marked
  block of the data area has one inode, a locked inode's blocks are as its holder believes,
  and the others are in order on disk. Every action keeps it (`sound`), so every run of any
  threads does.

  An inode's pointers have to stay out of the metadata for this. `BlockConsistent` does not
  ask that, and is not kept: `metadata_block_freed`.
-/

import Xv6.Fs.Blocks

namespace Xv6.Fs.Blocks

open Xv6.Lib Prog Function

variable {P : Type} (sb : Superblock)

/-! ## The threads' inodes and the store -/

/-- Which block is whose: `B i b` is the content of `b` if inode `i` has it. -/
structure Ledger (bitmap : Nat → Bool) (data : Nat → Block) (B : Nat → Nat → Option Block) : Prop where
  data : ∀ i b v, B i b = some v → data b = v
  once : ∀ i j b, (B i b).isSome → (B j b).isSome → i = j
  area : ∀ i b, (B i b).isSome → Area sb b
  reserved : ∀ b, b < sb.nmeta → bitmap b = true
  marked : ∀ b, Area sb b → (bitmap b = true ↔ ∃ i, (B i b).isSome)

/-- One inode: the threads' holds on it, the copy on disk, its blocks, its lock and cache entry. -/
structure Node (h : P → Hold) (d : Dinode) (f : Nat → Option Block) (l : Option P) (v : Bool) : Prop where
  lock : ∀ p, l = some p ↔ h p ≠ .out
  free : d.type = none → ∀ b, f b = none
  held : ∀ p c, h p = .cell c → c = ⟨d, f⟩ ∧ d.type ≠ none
  tidy : d.type ≠ none → (∀ p c, h p ≠ .cell c) → Tidy ⟨d, f⟩
  valid : v = true → d.type = none → ∃ p, h p = .zeroed

structure Owns (ρ : P → Held) (s : Store P) (B : Nat → Nat → Option Block) : Prop where
  ledger : Ledger sb s.bitmap s.data B
  node : ∀ i, Node (fun p => ρ p i) (s.inode i) (B i) (s.lock i) (s.valid i)

def World (ρ : P → Held) (s : Store P) : Prop := ∃ B, Owns sb ρ s B

section Ledger

variable {sb}

variable {bitmap : Nat → Bool} {data : Nat → Block} {B : Nat → Nat → Option Block}

variable {b i : Nat}

theorem Ledger.unowned (h : Ledger sb bitmap data B) (hb : bitmap b = false) (i : Nat) : B i b = none := by
  rw [← Option.not_isSome_iff_eq_none]
  intro hs
  have := (h.marked b (h.area i b hs)).mpr ⟨i, hs⟩
  simp_all

theorem own_put {j x : Nat} {o : Option Block} :
    update B i (update (B i) b o) j x = if j = i ∧ x = b then o else B j x := by
  by_cases ej : j = i <;> by_cases ex : x = b <;> simp_all

/-- `balloc` takes a free block. -/
theorem Ledger.take (h : Ledger sb bitmap data B) (hb : bitmap b = false) (ha : Area sb b) :
    Ledger sb (update bitmap b true) data (update B i (update (B i) b (some (data b)))) := by
  have hn := h.unowned hb
  refine ⟨fun j x v hj => ?_, fun j k x hj hk => ?_, fun j x hj => ?_, fun x hx => ?_, fun x hx => ?_⟩
  · rw [own_put] at hj
    have := h.data j x v
    grind
  · rw [own_put] at hj hk
    have := h.once j k x
    grind
  · rw [own_put] at hj
    have := h.area j x
    grind
  · have := h.reserved x hx
    grind
  · have := h.marked x hx
    by_cases e : x = b
    · simp only [e, update_self, true_iff]
      exact ⟨i, by simp⟩
    · simp_all [own_put]

/-- A block is written by its owner. -/
theorem Ledger.write {v : Block} (h : Ledger sb bitmap data B) (hb : (B i b).isSome) :
    Ledger sb bitmap (update data b v) (update B i (update (B i) b (some v))) := by
  have hsome : ∀ j x, (update B i (update (B i) b (some v)) j x).isSome = (B j x).isSome := by
    intro j x
    rw [own_put]
    grind
  refine ⟨fun j x w hj => ?_, fun j k x => ?_, fun j x => ?_, h.reserved, fun x hx => ?_⟩
  · rw [own_put] at hj
    have := h.once j i x
    have := h.data j x w
    grind
  · rw [hsome, hsome]; exact h.once j k x
  · rw [hsome]; exact h.area j x
  · simp only [hsome]; exact h.marked x hx

/-- `bfree` of a block by its owner. -/
theorem Ledger.free (h : Ledger sb bitmap data B) (hb : (B i b).isSome) :
    Ledger sb (update bitmap b false) data (update B i (update (B i) b none)) := by
  have hsome : ∀ j x, (update B i (update (B i) b none) j x).isSome ↔ x ≠ b ∧ (B j x).isSome := by
    intro j x
    have := h.once j i x
    rw [own_put]
    grind
  refine ⟨fun j x w hj => ?_, fun j k x => ?_, fun j x => ?_, fun x hx => ?_, fun x hx => ?_⟩
  · rw [own_put] at hj
    have := h.data j x w
    grind
  · rw [hsome, hsome]; exact fun hj hk => h.once j k x hj.2 hk.2
  · rw [hsome]; exact fun hj => h.area j x hj.2
  · have e : x ≠ b := fun e => absurd (h.area i b hb).1 (by omega)
    rw [update_of_ne e]; exact h.reserved x hx
  · have := h.marked x hx
    by_cases e : x = b <;> simp_all

end Ledger

section Node

variable {h : P → Hold} {d d' : Dinode} {f f' : Nat → Option Block} {l : Option P} {v v' : Bool} {p : P} {x : Hold}

/-- The inode's lock has one holder. -/
theorem Node.alone (hn : Node h d f l v) (hp : h p ≠ .out) {q : P} (hq : q ≠ p) : h q = .out := by
  by_contra e
  have hl := ((hn.lock p).mpr hp).symm.trans ((hn.lock q).mpr e)
  exact hq (Option.some.inj hl).symm

variable [DecidableEq P]

theorem Node.out_of_unlocked (hn : Node h d f none v) (q : P) : h q = .out := by
  have := hn.lock q
  grind

/-- The holder of the lock changes the inode. -/
theorem Node.move (hn : Node h d f l v) (hp : h p ≠ .out) (hx : x ≠ .out) (hfree : d'.type = none → ∀ b, f' b = none)
    (hheld : ∀ c, x = .cell c → c = ⟨d', f'⟩ ∧ d'.type ≠ none)
    (htidy : d'.type ≠ none → (∀ c, x ≠ .cell c) → Tidy ⟨d', f'⟩)
    (hvalid : v' = true → d'.type = none → x = .zeroed) : Node (update h p x) d' f' l v' := by
  have hq : ∀ q, q ≠ p → h q = .out := fun q => hn.alone hp
  refine ⟨fun q => ?_, hfree, fun q c hq => by grind, fun ht hc => htidy ht fun c => ?_, fun hv ht => ⟨p, ?_⟩⟩
  · rw [hn.lock]
    grind
  · have := hc p c
    rwa [update_self] at this
  · rw [update_self]; exact hvalid hv ht

theorem Node.acquire (hn : Node h d f none v) : Node (update h p .bare) d f (some p) v := by
  have hout := hn.out_of_unlocked
  refine ⟨fun q => by grind, hn.free, fun q c hq => by grind, fun ht hc => hn.tidy ht fun q c => by simp [hout], fun hv ht => ?_⟩
  obtain ⟨q, hq⟩ := hn.valid hv ht
  simp [hout] at hq

theorem Node.release (hn : Node h d f l v) (hp : h p = .bare ∨ ∃ c, h p = .cell c ∧ Tidy c) :
    Node (update h p .out) d f none v := by
  have hne : h p ≠ .out := by grind
  have hq : ∀ q, q ≠ p → h q = .out := fun q => hn.alone hne
  refine ⟨fun q => by grind, hn.free, fun q c hq => by grind, fun ht hc => ?_, fun hv ht => ?_⟩
  · rcases hp with e | ⟨c, e, hc⟩
    · exact hn.tidy ht fun q c => by grind
    · exact (hn.held p c e).1 ▸ hc
  · obtain ⟨q, hq⟩ := hn.valid hv ht
    grind

end Node

section Step

variable {sb}

variable [DecidableEq P] {ρ : P → Held} {s : Store P} {B : Nat → Nat → Option Block} {p : P} {i : Nat}

theorem column (x : Hold) (j : Nat) : (fun q => update ρ p (update (ρ p) i x) q j) =
    if j = i then update (fun q => ρ q i) p x else fun q => ρ q j := by
  funext q
  by_cases eq : q = p <;> by_cases ej : j = i <;> simp_all

variable {s' : Store P}

/-- A step of one thread on one inode. -/
theorem Owns.set {x : Hold} {d : Dinode} {f : Nat → Option Block} {l : Option P} {v : Bool}
    (h : Owns sb ρ s B) (hb : Ledger sb s'.bitmap s'.data (update B i f))
    (hi : s'.inode = update s.inode i d) (hl : s'.lock = update s.lock i l)
    (hv : s'.valid = update s.valid i v) (hn : Node (update (fun q => ρ q i) p x) d f l v) :
    Owns sb (update ρ p (update (ρ p) i x)) s' (update B i f) := by
  refine ⟨hb, fun j => ?_⟩
  rw [column, hi, hl, hv]
  by_cases e : j = i
  · subst e; simpa using hn
  · simp only [e, if_false, update_of_ne e]
    exact h.node j


omit [DecidableEq P] in
/-- Nothing but the references changes. -/
theorem Owns.same (h : Owns sb ρ s B) (hb : s'.bitmap = s.bitmap) (hd : s'.data = s.data)
    (hi : s'.inode = s.inode) (hl : s'.lock = s.lock) (hv : ∀ i, s'.valid i = true → s.valid i = true) :
    Owns sb ρ s' B := by
  refine ⟨hb ▸ hd ▸ h.ledger, fun j => ?_⟩
  have hn := h.node j
  rw [hi, hl]
  exact ⟨hn.lock, hn.free, hn.held, hn.tidy, fun hj => hn.valid (hv j hj)⟩

variable {c : Cell}

/-- The holder of an inode changes its blocks. -/
theorem Owns.blocks {f : Nat → Option Block} (h : Owns sb ρ s B) (hr : ρ p i = .cell c)
    (hb : Ledger sb s'.bitmap s'.data (update B i f)) (hi : s'.inode = s.inode) (hl : s'.lock = s.lock)
    (hv : s'.valid = s.valid) :
    World sb (update ρ p (update (ρ p) i (.cell { c with blk := f }))) s' := by
  obtain ⟨rfl, ht⟩ := (h.node i).held p c hr
  refine ⟨_, h.set (d := s.inode i) (l := s.lock i) (v := s.valid i) hb (by rw [hi, update_eq_self])
    (by rw [hl, update_eq_self]) (by rw [hv, update_eq_self]) ?_⟩
  exact (h.node i).move (p := p) (by rw [hr]; simp) (by simp) (fun e => absurd e ht)
    (fun c' hc' => ⟨by cases hc'; rfl, ht⟩) (fun _ hc => absurd rfl (hc _)) fun _ e => absurd e ht

theorem mem_bits {sb : Superblock} {j b : Nat} (h : b ∈ bits sb j) : b < sb.size := by
  unfold bits at h
  rw [List.mem_range'_1] at h
  omega

theorem step_mark {ip j : Nat} (h : Owns sb ρ s B) (hr : ρ p ip = .cell c) {x : Option Nat}
    (hx : exec sb p (.mark ip j) s = .ok (x, s')) :
    (x = none ∧ World sb ρ s') ∨ ∃ b v, x = some b ∧ Area sb b ∧ c.blk b = none ∧
      World sb (update ρ p (update (ρ p) ip (.cell (c.put b v)))) s' := by
  simp only [exec] at hx
  split at hx
  · rename_i b hb
    cases hx
    have hfree : s.bitmap b = false := by simpa using List.find?_some hb
    have hlt := mem_bits (List.mem_of_find?_eq_some hb)
    have harea : Area sb b := by
      refine ⟨?_, hlt⟩
      by_contra e
      rw [h.ledger.reserved b (by omega)] at hfree
      cases hfree
    have hc := ((h.node ip).held p c hr).1
    refine Or.inr ⟨b, s.data b, rfl, harea, ?_, ?_⟩
    · rw [hc]; exact h.ledger.unowned hfree ip
    · have hled : Ledger sb (update s.bitmap b true) s.data _ := h.ledger.take (i := ip) hfree harea
      rw [hc] at hr ⊢
      exact h.blocks hr hled rfl rfl rfl
  · cases hx
    exact Or.inl ⟨rfl, B, h⟩

theorem step_write {ip b : Nat} {v : Block} (h : Owns sb ρ s B) (hr : ρ p ip = .cell c) (hb : (c.blk b).isSome) :
    World sb (update ρ p (update (ρ p) ip (.cell (c.put b v))))
      { s with data := update s.data b v } := by
  have hc := ((h.node ip).held p c hr).1
  rw [hc] at hb
  rw [hc] at hr ⊢
  exact h.blocks hr (h.ledger.write (i := ip) hb) rfl rfl rfl

theorem step_free {ip b : Nat} (h : Owns sb ρ s B) (hr : ρ p ip = .cell c) (hb : (c.blk b).isSome) :
    s.bitmap b = true ∧ World sb (update ρ p (update (ρ p) ip (.cell (c.del b))))
      { s with bitmap := update s.bitmap b false } := by
  have hc := ((h.node ip).held p c hr).1
  rw [hc] at hb
  refine ⟨(h.ledger.marked b (h.ledger.area ip b hb)).mpr ⟨ip, hb⟩, ?_⟩
  rw [hc] at hr ⊢
  exact h.blocks hr (h.ledger.free (i := ip) hb) rfl rfl rfl

/-- The lock's holder finds an inode in order. -/
theorem Owns.get (h : Owns sb ρ s B) (hr : ρ p i = .bare) (ht : (s.inode i).type ≠ none) (v : Bool) :
    Tidy ⟨s.inode i, B i⟩ ∧ World sb (update ρ p (update (ρ p) i (.cell ⟨s.inode i, B i⟩)))
      { s with valid := update s.valid i v } := by
  have hn := h.node i
  have hne : ρ p i ≠ .out := by rw [hr]; simp
  refine ⟨hn.tidy ht fun q c hq => ?_, B, ?_⟩
  · have := hn.alone hne (q := q)
    grind
  · have hnode : Node (update (fun q => ρ q i) p (.cell ⟨s.inode i, B i⟩)) (s.inode i) (B i) (s.lock i) v :=
      hn.move hne (by simp) (fun e => absurd e ht) (fun c hc => ⟨by cases hc; rfl, ht⟩)
        (fun _ hc => absurd rfl (hc _)) fun _ e => absurd e ht
    rw [← update_eq_self i B]
    refine h.set ?_ (update_eq_self ..).symm (update_eq_self ..).symm rfl ?_
    · rw [update_eq_self]; exact h.ledger
    · rw [update_eq_self]; exact hnode

theorem step_iupdate {d : Dinode} (h : Owns sb ρ s B) (hr : ρ p i = .cell c) (f : Nat → Nat) :
    (d.type ≠ none → World sb (update ρ p (update (ρ p) i (.cell { c with disk := d })))
      { s with inode := update s.inode i d, freed := f }) ∧
    (d.type = none → (∀ b, c.blk b = none) → World sb (update ρ p (update (ρ p) i .zeroed))
      { s with inode := update s.inode i d, freed := f }) := by
  obtain ⟨rfl, _⟩ := (h.node i).held p c hr
  have hne : ρ p i ≠ .out := by rw [hr]; simp
  have set : ∀ x : Hold, Node (update (fun q => ρ q i) p x) d (B i) (s.lock i) (s.valid i) →
      World sb (update ρ p (update (ρ p) i x))
        { s with inode := update s.inode i d, freed := f } := fun x hx =>
    ⟨_, h.set (p := p) (i := i) (by rw [update_eq_self]; exact h.ledger) rfl
      (update_eq_self ..).symm (update_eq_self ..).symm hx⟩
  refine ⟨fun ht => set _ ?_, fun ht hc => set _ ?_⟩
  · exact (h.node i).move hne (by simp) (fun e => absurd e ht) (fun c' hc' => ⟨by cases hc'; rfl, ht⟩)
      (fun _ hc' => absurd rfl (hc' _)) fun _ e => absurd e ht
  · exact (h.node i).move hne (by simp) (fun _ => hc) (fun c' hc' => by cases hc') (fun e => absurd ht e)
      fun _ _ => rfl

end Step

/-! ## Every action keeps the world -/

section Sound

variable [DecidableEq P]

theorem keep {ρ : P → Held} {p : P} {s : Store P} (h : World sb ρ s) : World sb (update ρ p (ρ p)) s := by
  rwa [update_eq_self]

theorem Owns.column {ρ : P → Held} {s s' : Store P} {B : Nat → Nat → Option Block} {p : P} {i : Nat} {x : Hold} {l : Option P} {v : Bool}
    (h : Owns sb ρ s B) (hb : s'.bitmap = s.bitmap) (hd : s'.data = s.data) (hi : s'.inode = s.inode)
    (hl : s'.lock = update s.lock i l) (hv : s'.valid = update s.valid i v)
    (hn : Node (update (fun q => ρ q i) p x) (s.inode i) (B i) l v) :
    World sb (update ρ p (update (ρ p) i x)) s' :=
  ⟨_, h.set (by rw [update_eq_self, hb, hd]; exact h.ledger) (by rw [hi, update_eq_self]) hl hv hn⟩

theorem sound : Sound (exec sb) (spec (P := P) sb) (World sb) (fun _ _ _ => True) (· = Panic.freeingFree) := by
  refine ⟨spec_mono sb, fun ρ s p a Q hw _ hs => ?_⟩
  obtain ⟨B, h⟩ := hw
  cases a <;> simp only [spec] at hs
  case mark ip j =>
    obtain ⟨c, hc, hnone, hsome⟩ := hs
    refine ⟨fun x s' hx => ?_, fun e he => by simp only [exec] at he; split at he <;> cases he⟩
    rcases step_mark h hc hx with ⟨rfl, hw⟩ | ⟨b, v, rfl, ha, hb, hw⟩
    · exact ⟨_, hnone, keep sb hw⟩
    · exact ⟨_, hsome b v ha hb, hw⟩
  case bzero | bwrite =>
    obtain ⟨c, hc, hb, hQ⟩ := hs
    refine ⟨fun x s' hx => ?_, fun _ he => by cases he⟩
    cases hx
    exact ⟨_, hQ, step_write h hc hb⟩
  case bfree ip b =>
    obtain ⟨c, hc, hb, hQ⟩ := hs
    obtain ⟨hset, hw⟩ := step_free h hc hb
    refine ⟨fun x s' hx => ?_, fun e he => by simp [exec, hset] at he⟩
    simp only [exec, hset, if_true] at hx
    cases hx
    exact ⟨_, hQ, hw⟩
  case bread ip b =>
    obtain ⟨c, v, hc, hb, hQ⟩ := hs
    refine ⟨fun x s' hx => ?_, fun _ he => by cases he⟩
    cases hx
    have hv : s.data b = v := by
      rw [((h.node ip).held p c hc).1] at hb
      exact h.ledger.data ip b v hb
    exact ⟨_, hv ▸ hQ, keep sb ⟨B, h⟩⟩
  case acquiresleep i =>
    cases hl : s.lock i with
    | some q => exact ⟨fun x s' hx => by simp [exec, hl] at hx, fun e he => by simp [exec, hl] at he⟩
    | none =>
      have hn := h.node i
      rw [hl] at hn
      refine ⟨fun x s' hx => ?_, fun e he => by simp [exec, hl] at he⟩
      simp only [exec, hl] at hx
      cases hx
      exact ⟨_, hs (hn.out_of_unlocked p), h.column sb rfl rfl rfl rfl (update_eq_self ..).symm hn.acquire⟩
  case releasesleep i =>
    refine ⟨fun x s' hx => ?_, fun _ he => by cases he⟩
    cases hx
    exact ⟨_, hs.2, h.column sb rfl rfl rfl rfl (update_eq_self ..).symm ((h.node i).release hs.1)⟩
  case load i =>
    by_cases ht : (s.inode i).type = none
    · exact ⟨fun x s' hx => by simp [exec, ht] at hx, fun e he => by simp_all [exec]; grind⟩
    · refine ⟨fun x s' hx => ?_, fun e he => by simp [exec, ht] at he⟩
      simp only [exec, ht, if_false] at hx
      cases hx
      obtain ⟨htidy, hw⟩ := h.get hs.1 ht true
      exact ⟨_, hs.2 ⟨s.inode i, B i⟩ ht htidy, hw⟩
  case cached i =>
    obtain ⟨hb, hnone, hsome⟩ := hs
    refine ⟨fun x s' hx => ?_, fun _ he => by cases he⟩
    cases hx
    cases hv : s.valid i with
    | false => exact ⟨_, hnone, keep sb ⟨B, h⟩⟩
    | true =>
      have ht : (s.inode i).type ≠ none := by
        intro ht
        obtain ⟨q, hq⟩ := (h.node i).valid hv ht
        have := (h.node i).alone (p := p) (by simp [hb]) (q := q)
        grind
      obtain ⟨htidy, hw⟩ := h.get hb ht (s.valid i)
      rw [update_eq_self] at hw
      exact ⟨_, hsome ⟨s.inode i, B i⟩ ht htidy, hw⟩
  case iupdate i d =>
    obtain ⟨c, hc, hsome, hnone⟩ := hs
    refine ⟨fun x s' hx => ?_, fun _ he => by cases he⟩
    cases hx
    by_cases ht : d.type = none
    · exact ⟨_, (hnone ht).2, (step_iupdate h hc _).2 ht (hnone ht).1⟩
    · exact ⟨_, hsome ht, (step_iupdate h hc _).1 ht⟩
  case invalidate i =>
    obtain ⟨hz, hQ⟩ := hs
    refine ⟨fun x s' hx => ?_, fun _ he => by cases he⟩
    cases hx
    have hn := h.node i
    have hne : ρ p i ≠ .out := by simp [hz]
    refine ⟨_, hQ, h.column sb rfl rfl rfl (update_eq_self ..).symm rfl ?_⟩
    refine hn.move hne (by simp) hn.free (by simp) (fun ht _ => hn.tidy ht fun q c hq => ?_) (by simp)
    have := hn.alone hne (q := q)
    grind
  case claim i t =>
    by_cases ht : (s.inode i).type = none
    · refine ⟨fun x s' hx => ?_, fun e he => by simp [exec, ht] at he⟩
      simp only [exec, ht, if_true] at hx
      cases hx
      refine ⟨_, hs.1, keep sb ⟨B, h.ledger, fun j => ?_⟩⟩
      have hn := h.node j
      by_cases e : j = i
      · subst e
        have hb := hn.free ht
        refine ⟨hn.lock, fun _ => hb, fun q c hq => absurd ht (hn.held q c hq).2, fun _ _ => ?_, fun _ e => ?_⟩
        · simp only [update_self]
          exact tidy_nil hb (fun _ => rfl) rfl
        · simp [Dinode.blank] at e
      · simp only [update_of_ne e]; exact hn
    · refine ⟨fun x s' hx => ?_, fun e he => by simp [exec, ht] at he⟩
      simp only [exec, ht, if_false] at hx
      cases hx
      exact ⟨_, hs.2, keep sb ⟨B, h⟩⟩
  case iget i =>
    refine ⟨fun x s' hx => ?_, fun _ he => by cases he⟩
    cases hx
    exact ⟨_, hs, keep sb ⟨B, h.same rfl rfl rfl rfl fun j hj => by grind⟩⟩
  case sample i =>
    refine ⟨fun x s' hx => ?_, fun _ he => by cases he⟩
    cases hx
    exact ⟨_, hs _, keep sb ⟨B, h⟩⟩
  case unref i =>
    refine ⟨fun x s' hx => ?_, fun _ he => by cases he⟩
    cases hx
    exact ⟨_, hs, keep sb ⟨B, h.same rfl rfl rfl rfl fun j hj => hj⟩⟩
  case panic m =>
    refine ⟨fun _ _ hx => (by cases hx), fun e he => ?_⟩
    cases he
    exact hs

end Sound

/-! ## Consistency and the world -/

section Quiet

variable {sb} {s : Store P}

open Classical in
/-- The blocks an unlocked inode has. -/
noncomputable def own (s : Store P) (i b : Nat) : Option Block :=
  if (s.inode i).type ≠ none ∧ Refs (s.inode i) s.data b then some (s.data b) else none

theorem own_some {i b : Nat} : (own s i b).isSome ↔ (s.inode i).type ≠ none ∧ Refs (s.inode i) s.data b := by
  unfold own
  split <;> simp_all

theorem Consistent.set (h : Consistent sb s) {i b : Nat} (ht : (s.inode i).type ≠ none) (hr : Refs (s.inode i) s.data b) :
    s.bitmap b = true ∧ Area sb b ∧ ∃! x, Refers s b x := by
  obtain ⟨hb, x, hx⟩ := hr
  have href : Refers s b (i, x) := ⟨ht, hx⟩
  have ha := h.area b (i, x) href hb
  have hbit : s.bitmap b = true := by
    by_contra e
    exact h.unmarked b (by simpa using e) (i, x) href
  exact ⟨hbit, ha, (h.marked b ha).mp hbit⟩

theorem Consistent.ledger (h : Consistent sb s) : Ledger sb s.bitmap s.data (own s) := by
  refine ⟨fun i b v hv => ?_, fun i j b hi hj => ?_, fun i b hi => ?_, h.reserved, fun b ha => ⟨fun hb => ?_, fun hb => ?_⟩⟩
  · unfold own at hv
    split at hv
    · exact Option.some.inj hv
    · cases hv
  · obtain ⟨ht, hr⟩ := own_some.mp hi
    obtain ⟨ht', hr'⟩ := own_some.mp hj
    obtain ⟨_, _, z, _, hz⟩ := h.set ht hr
    obtain ⟨_, x, hx⟩ := hr
    obtain ⟨_, y, hy⟩ := hr'
    have := (hz (i, x) ⟨ht, hx⟩).trans (hz (j, y) ⟨ht', hy⟩).symm
    exact congrArg Prod.fst this
  · obtain ⟨ht, hr⟩ := own_some.mp hi
    exact (h.set ht hr).2.1
  · obtain ⟨x, hx, _⟩ := (h.marked b ha).mp hb
    exact ⟨x.1, own_some.mpr ⟨hx.1, ha.ne_zero, x.2, hx.2⟩⟩
  · obtain ⟨i, hi⟩ := hb
    obtain ⟨ht, hr⟩ := own_some.mp hi
    exact (h.set ht hr).1

theorem ptr_own (s : Store P) {i : Nat} (ht : (s.inode i).type ≠ none) :
    ptr (s.inode i) (Cell.view ⟨s.inode i, own s i⟩) = ptr (s.inode i) s.data :=
  ptr_congr fun hi => by
    have hs : own s i ((s.inode i).addrs indirect) = some (s.data _) := if_pos ⟨ht, hi, .ind, rfl⟩
    show (own s i _).getD zeroBlock = _
    rw [hs]
    rfl

theorem Consistent.tidy (h : Consistent sb s) {i : Nat} (ht : (s.inode i).type ≠ none) : Tidy ⟨s.inode i, own s i⟩ := by
  refine ⟨⟨fun x y hx hxy => ?_, fun b => ?_⟩, fun bn => ?_⟩
  · rw [ptr_own s ht] at hx hxy
    obtain ⟨_, _, z, _, hz⟩ := h.set ht ⟨hx, x, rfl⟩
    have := (hz (i, x) ⟨ht, rfl⟩).trans (hz (i, y) ⟨ht, hxy.symm⟩).symm
    exact congrArg Prod.snd this
  · rw [Refs, ptr_own s ht, own_some]
    simp only [ne_eq, ht, not_false_eq_true, true_and, Refs]
  · rw [blockAt, ptr_own s ht]
    exact h.full i ht bn

variable (sb) in
/-- A consistent state in which no lock is held, and what is cached is allocated. -/
structure Quiet (s : Store P) : Prop where
  consistent : Consistent sb s
  unlocked : ∀ i, s.lock i = none
  cached : ∀ i, s.valid i = true → (s.inode i).type ≠ none

theorem Quiet.world (h : Quiet sb s) : World sb (fun _ _ => .out) s := by
  refine ⟨own s, h.consistent.ledger, fun i => ⟨fun p => ?_, fun ht b => ?_, fun p c hc => ?_, fun ht _ => ?_, fun hv ht => ?_⟩⟩
  · simp [h.unlocked]
  · simp [own, ht]
  · cases hc
  · exact h.consistent.tidy ht
  · exact absurd ht (h.cached i hv)

theorem World.consistent (h : World sb (fun (_ : P) _ => .out) s) : Consistent sb s := by
  obtain ⟨B, hl, hn⟩ := h
  have htidy : ∀ i, (s.inode i).type ≠ none → Tidy ⟨s.inode i, B i⟩ := fun i ht => (hn i).tidy ht fun _ _ h => by cases h
  -- the inode's blocks are read as they are on disk
  have hptr : ∀ i, (s.inode i).type ≠ none → ptr (s.inode i) (Cell.view ⟨s.inode i, B i⟩) = ptr (s.inode i) s.data := by
    intro i ht
    refine ptr_congr fun hi => ?_
    have hs : (B i ((s.inode i).addrs indirect)).isSome := (htidy i ht).mem.ptr_own (x := .ind) hi
    obtain ⟨v, hv⟩ := Option.isSome_iff_exists.mp hs
    simp [Cell.view, hv, hl.data i _ v hv]
  have hown : ∀ i b, (B i b).isSome ↔ (s.inode i).type ≠ none ∧ Refs (s.inode i) s.data b := by
    intro i b
    by_cases ht : (s.inode i).type = none
    · simp [(hn i).free ht b, ht]
    · have := (htidy i ht).mem.own b
      rw [Refs, hptr i ht] at this
      simp only [ne_eq, ht, not_false_eq_true, true_and]
      exact this
  have hbit : ∀ b, Area sb b → (s.bitmap b = true ↔ ∃ x, Refers s b x) := by
    intro b ha
    have hb0 : b ≠ 0 := ha.ne_zero
    rw [hl.marked b ha]
    constructor
    · intro hi
      obtain ⟨i, hi⟩ := hi
      obtain ⟨ht, _, x, hx⟩ := (hown i b).mp hi
      exact ⟨(i, x), ht, hx⟩
    · intro hx
      obtain ⟨x, ht, hx⟩ := hx
      exact ⟨x.1, (hown x.1 b).mpr ⟨ht, hb0, x.2, hx⟩⟩
  have huniq : ∀ b, b ≠ 0 → ∀ x y, Refers s b x → Refers s b y → x = y := by
    intro b hb x y hx hy
    have e : x.1 = y.1 := hl.once _ _ b ((hown x.1 b).mpr ⟨hx.1, hb, x.2, hx.2⟩) ((hown y.1 b).mpr ⟨hy.1, hb, y.2, hy.2⟩)
    obtain ⟨i, x⟩ := x
    obtain ⟨j, y⟩ := y
    dsimp only at e
    subst e
    have hinj := (htidy i hx.1).mem.inj x y
    rw [hptr i hx.1] at hinj
    rw [hinj (by rw [hx.2]; exact hb) (hx.2.trans hy.2.symm)]
  have harea : ∀ b x, Refers s b x → b ≠ 0 → Area sb b := fun b x hx hb =>
    hl.area x.1 b ((hown x.1 b).mpr ⟨hx.1, hb, x.2, hx.2⟩)
  refine ⟨hl.reserved, fun b ha => ?_, fun b hb x hx => ?_, fun i ht bn => ?_, harea⟩
  · have hb0 : b ≠ 0 := ha.ne_zero
    rw [hbit b ha]
    refine ⟨fun hx => ?_, ExistsUnique.exists⟩
    obtain ⟨x, hx⟩ := hx
    exact ⟨x, hx, fun y hy => huniq b hb0 y x hy hx⟩
  · by_cases hb0 : b = 0
    · rw [hb0, hl.reserved 0 (Nat.sub_pos_of_lt sb.hmeta)] at hb; cases hb
    · rw [(hbit b (harea b x hx hb0)).mpr ⟨x, hx⟩] at hb; cases hb
  · have := (htidy i ht).full bn
    rw [blockAt, hptr i ht] at this
    exact this

end Quiet

/-! ## Operations -/

inductive Op where
  | ialloc (t : FileType)
  | writei (i : Nat) (src : List UInt8) (off : Nat)
  | itrunc (i : Nat)
  | iput (i : Nat)
  | dirlink (dp : Nat) (name : List UInt8) (inum : Nat)

/-- An operation on a locked inode, between `ilock` and `iunlock`. -/
def locked (i : Nat) (f : Dinode → M α) : M Unit := do
  let d ← ilock i
  let _ ← f d
  releasesleep i

def Op.body (dev : Devsw) : Op → M Unit
  | .ialloc t => do let _ ← Fs.ialloc sb t; return ()
  | .writei i src off => locked i fun d => Fs.writei sb dev i d src off
  | .itrunc i => locked i fun d => Fs.itrunc i d
  | .iput i => Fs.iput i
  | .dirlink dp name inum => locked dp fun d => Fs.dirlink sb dev dp d name inum

theorem wp_body {dev : Devsw} {p : P} {r : Held} (o : Op) (hr : r = fun _ => .out) :
    wp (spec sb) p (o.body sb dev) (fun _ r => r = fun _ => .out) r := by
  have hout : ∀ i, r i = .out := fun i => by rw [hr]
  cases o with
  | ialloc t => exact wp_bind (spec_mono sb) (wp_ialloc fun _ => hr)
  | writei i src off =>
    refine wp_locked (hout i) hr fun c hc ht => wp_writei (c := c) (by simp) hc ht fun x c' hc' => ⟨c', hc', ?_⟩
    rw [update_idem]
  | itrunc i =>
    refine wp_locked (hout i) hr fun c hc ht => wp_itrunc (c := c) (by simp) hc.mem ht fun d' c' _ hc' => ⟨c', hc', ?_⟩
    rw [update_idem]
  | iput i => exact wp_iput hr
  | dirlink dp name inum =>
    refine wp_locked (hout dp) hr fun c hc ht => wp_dirlink (c := c) (by simp) hc ht fun x c' hc' => ⟨c', hc', ?_⟩
    rw [update_idem]

/-- The blocks stay consistent over every run of the operations. -/
theorem blocks_consistent [DecidableEq P] (dev : Devsw) (s : Store P) (h : Quiet sb s) (es : List (Ev P Op)) :
    let π := Pool.runs (exec sb) (Op.body sb dev) ⟨s, fun _ => ret (), none⟩ es
    π.failed ≠ some .freeingFree ∧ (π.Idle → Consistent sb π.state) := by
  intro π
  have hgood : Good (spec sb) (World sb) (· = Panic.freeingFree) (fun _ r => r = fun _ => .out) π := by
    refine Good.runs (sound sb) (fun p o r hr => wp_body sb o hr) ⟨⟨fun _ _ => .out, h.world, ?_⟩, ?_⟩ es ?_
    · exact fun p => rfl
    · intro e he
      cases he
    · exact Pool.along_acts _ _ (fun _ _ _ => trivial) _ es
  refine ⟨fun e => hgood.failed _ e rfl, fun hi => ?_⟩
  obtain ⟨ρ, hw, hd⟩ := hgood.idle hi
  rw [show ρ = fun _ _ => .out from funext hd] at hw
  exact hw.consistent

/-! ## A pointer into the metadata -/

/-- Ten blocks, the last five of them for data. -/
def tiny : Superblock := ⟨10, 5, 2, by decide, by decide⟩

/-- Inode 1 is an open file without a name, with `n` references and the one block `b`. -/
def oneFile (n b : Nat) : Store P where
  bitmap c := decide (c < 5 ∨ c = b)
  inode i := if i = 1 then { Dinode.blank (some .file) with size := 512, addrs := fun j => if j = 0 then b else 0 }
    else Dinode.blank none
  data _ := zeroBlock
  ref i := if i = 1 then n else 0
  valid i := decide (i = 1)
  lock _ := none
  freed _ := 0

def first : Slot := .direct ⟨0, by decide⟩

theorem ptr_oneFile (n b : Nat) (x : Slot) :
    ptr ((oneFile (P := P) n b).inode 1) (oneFile (P := P) n b).data x = if x = first then b else 0 := by
  cases x with
  | direct j =>
    show (if direct j = 0 then b else 0) = _
    by_cases e : j = ⟨0, by decide⟩
    · subst e; rfl
    · have h₁ : direct j ≠ 0 := fun h => e (Fin.ext (show j.val = 0 from congrArg Fin.val h))
      have h₂ : Slot.direct j ≠ first := fun h => e (Slot.direct.inj h)
      rw [if_neg h₁, if_neg h₂]
  | ind => rfl
  | entry j => rfl

theorem refers_oneFile {n b c : Nat} {x : Nat × Slot} :
    Refers (oneFile (P := P) n b) c x ↔ x.1 = 1 ∧ c = if x.2 = first then b else 0 := by
  by_cases e : x.1 = 1
  · rw [Refers, e, ptr_oneFile]
    simp [oneFile, Dinode.blank, eq_comm]
  · simp [Refers, oneFile, e, Dinode.blank]

theorem full_oneFile {n b : Nat} (hb : b ≠ 0) (i : Nat) :
    Full ((oneFile (P := P) n b).inode i) (oneFile (P := P) n b).data (nblk ((oneFile (P := P) n b).inode i)) := by
  have hblank : Full (Dinode.blank none) (oneFile (P := P) n b).data 0 :=
    (tidy_nil (c := ⟨Dinode.blank none, fun _ => none⟩) (fun _ => rfl) (fun _ => rfl) rfl).full
  by_cases e : i = 1
  · subst e
    rw [show nblk ((oneFile (P := P) n b).inode 1) = 0 + 1 by simp [oneFile, nblk, bsize]]
    refine hblank.alloc (x := first) (b := b) rfl hb (funext fun x => ?_)
    rw [ptr_oneFile, update_apply]
    cases x <;> rfl
  · rw [show (oneFile (P := P) n b).inode i = Dinode.blank none from if_neg e]
    exact hblank

theorem marked_oneFile (n b c : Nat) : (oneFile (P := P) n b).bitmap c = true ↔ c < 5 ∨ c = b := by simp [oneFile]

theorem cached_oneFile (n b i : Nat) (h : (oneFile (P := P) n b).valid i = true) :
    ((oneFile (P := P) n b).inode i).type ≠ none := by
  have hi : i = 1 := by simpa [oneFile] using h
  subst hi
  simp [oneFile, Dinode.blank]

theorem consistent_oneFile (n : Nat) : BlockConsistent tiny (oneFile (P := P) n 2) := by
  have hlow : ∀ c x, Refers (oneFile (P := P) n 2) c x → c < 5 := by
    intro c x hx
    obtain ⟨_, hc⟩ := refers_oneFile.mp hx
    split at hc <;> omega
  refine ⟨fun b hb => (marked_oneFile n 2 b).mpr (Or.inl hb), fun b hb => ?_, fun b hb x hx => ?_, full_oneFile (by decide)⟩
  · have hb5 : 5 ≤ b := hb.1
    rw [marked_oneFile]
    constructor
    · intro h; omega
    · intro ⟨x, hx, _⟩
      have := hlow b x hx
      omega
  · rw [(marked_oneFile n 2 b).mpr (Or.inl (hlow b x hx))] at hb
    cases hb

/-- A metadata block in an inode's `addrs` is freed with the inode. -/
theorem metadata_block_freed : ∃ (sb : Superblock) (dev : Devsw) (s : Store Unit) (es : List (Ev Unit Op)),
    BlockConsistent sb s ∧ (∀ i, s.lock i = none) ∧ (∀ i, s.valid i = true → (s.inode i).type ≠ none) ∧
    let π := Pool.runs (exec sb) (Op.body sb dev) ⟨s, fun _ => ret (), none⟩ es
    π.Idle ∧ π.failed = none ∧ ¬ BlockConsistent sb π.state := by
  refine ⟨tiny, ⟨fun _ => none, fun _ => none⟩, oneFile 1 2, .start () (.iput 1) :: List.replicate 9 (.step ()),
    consistent_oneFile 1, fun _ => rfl, cached_oneFile 1 2, fun _ => rfl, rfl, fun h => ?_⟩
  have := h.reserved 2 (by decide)
  revert this
  decide

theorem quiet_oneFile (n : Nat) : Quiet tiny (oneFile (P := P) n 7) := by
  refine ⟨⟨fun b hb => (marked_oneFile n 7 b).mpr (Or.inl hb), fun b hb => ?_, fun b hb x hx => ?_,
    fun i _ => full_oneFile (by decide) i, fun b x hx hb => ?_⟩, fun _ => rfl, cached_oneFile n 7⟩
  · have hb5 : 5 ≤ b := hb.1
    rw [marked_oneFile]
    constructor
    · intro h
      have hb7 : b = 7 := by omega
      refine ⟨(1, first), refers_oneFile.mpr ⟨rfl, by rw [if_pos rfl]; exact hb7⟩, fun x hx => ?_⟩
      obtain ⟨h1, h2⟩ := refers_oneFile.mp hx
      split at h2
      · rename_i e; exact Prod.ext h1 e
      · omega
    · intro ⟨x, hx, _⟩
      obtain ⟨_, h2⟩ := refers_oneFile.mp hx
      split at h2 <;> omega
  · obtain ⟨_, h2⟩ := refers_oneFile.mp hx
    rw [(marked_oneFile n 7 b).mpr (by split at h2 <;> omega)] at hb
    cases hb
  · obtain ⟨_, h2⟩ := refers_oneFile.mp hx
    split at h2
    · subst h2; exact ⟨by decide, by decide⟩
    · exact absurd h2 hb

theorem blocks_consistent_one_file : Quiet tiny (oneFile (P := Unit) 1 7) ∧
    let π := Pool.runs (exec tiny) (Op.body tiny ⟨fun _ => none, fun _ => none⟩) ⟨oneFile 1 7, fun _ => ret (), none⟩
      (.start () (.iput 1) :: List.replicate 9 (.step ()))
    π.failed ≠ some .freeingFree ∧ Consistent tiny π.state :=
  have h := blocks_consistent tiny ⟨fun _ => none, fun _ => none⟩ (oneFile 1 7) (quiet_oneFile 1)
    (.start () (.iput 1) :: List.replicate 9 (.step ()))
  ⟨quiet_oneFile 1, h.1, h.2 fun _ => rfl⟩

end Xv6.Fs.Blocks
