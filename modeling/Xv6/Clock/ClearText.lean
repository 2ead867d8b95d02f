/-
  Xv6.Clock.ClearText — which pages of `clock-example.c` are in clear text.

  The fault handler rests on the queued pages being exactly those with `PTE_P` set and the
  others being encrypted. `clk_remove` takes a page out of the queue without encrypting it:
  the page keeps `PTE_P`, and since `do_ref_page` inserts nothing for a page that has it, the
  page is never queued or encrypted again.

    • `clear_text_iff`: after a run of `do_ref_page` and `do_remove_page` exactly the queued
      pages are in clear text if and only if no call has removed a page that was queued.
-/

import Xv6.Clock.Ring

namespace Xv6.Clock

open Function List

/-- A page has `PTE_P` exactly if it is queued and `PTE_E` exactly if not, and at most
    `CLOCKSIZE` pages are decrypted. -/
structure ClearText (c : Clk) : Prop where
  queued : ∀ page : Nat, c.pte page &&& PTE_P ≠ 0 ↔ (page : Int) ∈ c.ring
  encrypted : ∀ page, c.pte page &&& PTE_E ≠ 0 ↔ c.pte page &&& PTE_P = 0
  few : Set.encard {page | c.pte page &&& PTE_E = 0} ≤ 8

/-- `do_ref_page` and `do_remove_page` are what a process does; `clk_insert` is called by the first only. -/
def Op.User : Op → Prop
  | .insert _ => False
  | _ => True

/-- Whenever a page is removed in the run, it is not queued. -/
def RemovesNone (fuel : Nat) (c₀ : Clk) (ops : List Op) : Prop :=
  ∀ (pre : List Op) (page : Nat) (c : Clk), pre ++ [.remove page] <+: ops → Runs fuel c₀ pre c → (page : Int) ∉ c.ring

/-! ## Stray pages -/

/-- Present and not queued. -/
def Fifo.stray (s : Fifo) : Set Nat := {v | (s.bits v).present = true ∧ v ∉ s.queue}

variable {s s' : Fifo}

theorem Fifo.Evict.stray (h : s.Evict s') : s'.stray = s.stray := by
  induction h with
  | @evict h q b ha =>
    ext v
    show (update b h _ v).present = true ∧ v ∉ q ↔ (b v).present = true ∧ v ∉ h :: q
    by_cases e : v = h
    · rw [e, update_self]
      simp
    · rw [update_of_ne e, mem_cons, not_or]
      simp [e]
  | @chance h q b s ha hs ih =>
    rw [ih]
    ext v
    show (update b h _ v).present = true ∧ v ∉ q ++ [h] ↔ (b v).present = true ∧ v ∉ h :: q
    rw [(perm_append_singleton h q).mem_iff]
    by_cases e : v = h
    · rw [e, update_self]
    · rw [update_of_ne e]

theorem Fifo.add_stray (s : Fifo) (page : Nat) : (s.add page).stray = s.stray \ {page} := by
  ext v
  show (update s.bits page _ v).present = true ∧ v ∉ s.queue ++ [page] ↔ ((s.bits v).present = true ∧ v ∉ s.queue) ∧ v ≠ page
  rw [mem_append, mem_singleton, not_or]
  by_cases e : v = page
  · simp [e]
  · rw [update_of_ne e]
    exact ⟨fun h => ⟨⟨h.1, h.2.1⟩, h.2.2⟩, fun h => ⟨h.1.1, h.1.2, h.2⟩⟩

variable {page fuel : Nat}

theorem Fifo.Insert.stray (h : s.Insert page s') : s'.stray = s.stray \ {page} := by
  cases h with
  | room _ => exact s.add_stray page
  | @full s₁ _ he => rw [s₁.add_stray page, he.stray]

theorem Fifo.reference_stray (s : Fifo) (page : Nat) : (s.reference page).stray = s.stray := by
  ext v
  show (update s.bits page _ v).present = true ∧ v ∉ s.queue ↔ (s.bits v).present = true ∧ v ∉ s.queue
  by_cases e : v = page
  · rw [e, update_self]
  · rw [update_of_ne e]

/-- A reference neither makes a stray page nor takes one back. -/
theorem Fifo.Step.stray_ref (h : Step (.ref page) s s') : s'.stray = s.stray := by
  cases h with
  | hit _ => exact s.reference_stray page
  | fault hp hi =>
    rw [Fifo.reference_stray, hi.stray]
    refine Set.sdiff_singleton_eq_self fun hs => ?_
    rw [hs.1] at hp
    cases hp

variable {c c₀ : Clk}

/-- The page removed is stray from then on. -/
theorem Rel.stray_remove (hr : Rel c s) (h : Fifo.Step (.remove page) s s') :
    s'.stray = ∅ ↔ s.stray = ∅ ∧ page ∉ s.queue := by
  cases h with
  | remove =>
    constructor
    · intro h0
      have hpage : page ∉ s.queue := fun hm => by
        have : page ∈ ({ s with queue := s.queue.erase page } : Fifo).stray := ⟨hr.pages.queued page hm, hr.nodup.not_mem_erase⟩
        rw [h0] at this
        exact this
      rw [erase_of_not_mem hpage] at h0
      exact ⟨h0, hpage⟩
    · intro ⟨h0, hpage⟩
      rw [erase_of_not_mem hpage]
      exact h0

/-- The page table and the ring in the words of the list machine. -/
theorem Rel.clearText (hr : Rel c s) : ClearText c ↔ s.stray = ∅ := by
  have hP : ∀ page, c.pte page &&& PTE_P = 0 ↔ (s.bits page).present = false := fun page => by rw [and_PTE_P, hr.pages.bits]
  have hE : ∀ page, c.pte page &&& PTE_E = 0 ↔ (s.bits page).present = true := fun page => by
    rw [and_PTE_E, hr.pages.bits, hr.pages.apart, Bool.not_eq_false']
  constructor
  · intro h
    refine Set.eq_empty_of_forall_notMem fun v hv => hv.2 (hr.mem_ring.1 ((h.queued v).1 fun h0 => ?_))
    have := hv.1
    rw [(hP v).1 h0] at this
    cases this
  · intro h
    have hq : ∀ page, (s.bits page).present = true ↔ page ∈ s.queue := fun page => by
      refine ⟨fun hp => ?_, hr.pages.queued page⟩
      by_contra hm
      have : page ∈ s.stray := ⟨hp, hm⟩
      rw [h] at this
      exact this
    refine ⟨fun page => ?_, fun page => ?_, ?_⟩
    · rw [ne_eq, hP, Bool.not_eq_false, hq, hr.mem_ring]
    · rw [ne_eq, hP, hE, Bool.not_eq_true]
    · have hset : {page | c.pte page &&& PTE_E = 0} = (s.queue.toFinset : Set Nat) := by
        ext page
        simp only [Set.mem_ofPred_eq, coe_toFinset, hE, hq]
      rw [hset, Set.encard_coe_eq_coe_finsetCard]
      exact_mod_cast (toFinset_card_le s.queue).trans hr.layout.len

/-! ## Whole runs -/

variable {ops : List Op}

theorem Runs.last {c' : Clk} {op : Op} (h : Runs fuel c₀ (ops ++ [op]) c') :
    ∃ c, Runs fuel c₀ ops c ∧ Clock.call fuel op c = some c' := by
  generalize hl : ops ++ [op] = l at h
  cases h with
  | nil => simp at hl
  | call hc _ hs =>
    obtain ⟨rfl, e⟩ := append_inj' hl rfl
    cases e
    exact ⟨_, hc, hs⟩

theorem Runs.unique {c' : Clk} (h : Runs fuel c₀ ops c) (h' : Runs fuel c₀ ops c') : c = c' := by
  induction h generalizing c' with
  | nil =>
    generalize hl : ([] : List Op) = l at h'
    cases h' with
    | nil => rfl
    | call => simp at hl
  | call _ _ hs ih =>
    obtain ⟨c₁, h1, h2⟩ := h'.last
    cases ih h1
    exact Option.some.inj (hs.symm.trans h2)

/-- The condition on a run, call by call. -/
theorem removesNone_concat {op : Op} (h : Runs fuel c₀ ops c) :
    RemovesNone fuel c₀ (ops ++ [op]) ↔ RemovesNone fuel c₀ ops ∧ ∀ page, op = .remove page → (page : Int) ∉ c.ring := by
  constructor
  · intro hn
    refine ⟨fun pre page c' hp => hn pre page c' (hp.trans (prefix_append ops [op])), fun page e => ?_⟩
    exact hn ops page c (e ▸ prefix_refl _) h
  · intro ⟨hn, hlast⟩ pre page c' hp hr
    rcases prefix_concat_iff.1 hp with e | hp
    · obtain ⟨rfl, hop⟩ := append_inj' e rfl
      cases hop
      rw [← h.unique hr]
      exact hlast page rfl
    · exact hn pre page c' hp hr

theorem Runs.stray {s₀ : Fifo} (h : Runs fuel c₀ ops c) (h₀ : Rel c₀ s₀) (hs₀ : s₀.stray = ∅)
    (hu : ∀ op ∈ ops, op.User) : ∃ s, Rel c s ∧ (s.stray = ∅ ↔ RemovesNone fuel c₀ ops) := by
  induction h with
  | nil => exact ⟨s₀, h₀, fun _ pre page c' hp _ => by simp at hp, fun _ => hs₀⟩
  | @call ops op c c' hrun ha hc ih =>
    obtain ⟨s, hr, hs⟩ := ih fun op ho => hu op (mem_append_left _ ho)
    obtain ⟨c₁, s', hf, hst, hr'⟩ := hr.call ha
    have : some c₁ = some c' := (hf (fuel + 9) (by omega)).symm.trans (call_enough hc 9)
    cases this
    refine ⟨s', hr', ?_⟩
    rw [removesNone_concat hrun, ← hs]
    cases op with
    | ref page =>
      rw [hst.stray_ref]
      exact ⟨fun h0 => ⟨h0, fun page e => by cases e⟩, And.left⟩
    | insert page => exact absurd (hu (.insert page) (by simp)) id
    | remove page =>
      rw [hr.stray_remove hst, ← hr.mem_ring]
      exact and_congr_right fun _ => ⟨fun hm _ e => by cases e; exact hm, fun hm => hm page rfl⟩

theorem clear_text_iff {c₀ : Clk} (h₀ : Encrypted c₀) {fuel : Nat} {ops : List Op} (hu : ∀ op ∈ ops, op.User) {c : Clk}
    (h : Runs fuel (clkClear c₀) ops c) : ClearText c ↔ RemovesNone fuel (clkClear c₀) ops := by
  have hs₀ : (Fifo.start c₀).stray = ∅ := Set.eq_empty_of_forall_notMem fun v hv => by
    have hp : (bits (c₀.pte v)).present = true := hv.1
    rw [(h₀ v).2] at hp
    cases hp
  obtain ⟨s, hr, hs⟩ := h.stray (Rel.start h₀) hs₀ hu
  rw [hr.clearText, hs]

theorem clear_text_iff_removed :
    ∃ c, Runs 9 (clkClear ⟨fun _ => ⟨-1, 0⟩, 0, fun _ => PTE_E⟩) [.ref 0, .remove 1] c ∧
      (ClearText c ↔ RemovesNone 9 (clkClear ⟨fun _ => ⟨-1, 0⟩, 0, fun _ => PTE_E⟩) [.ref 0, .remove 1]) := by
  have hrun : (calls 9 (clkClear ⟨fun _ => ⟨-1, 0⟩, 0, fun _ => PTE_E⟩) [.ref 0, .remove 1]).isSome = true := by decide +kernel
  obtain ⟨c, hc⟩ := Option.isSome_iff_exists.1 hrun
  have h₀ : Encrypted ⟨fun _ => ⟨-1, 0⟩, 0, fun _ => PTE_E⟩ := fun _ => show (bits PTE_E).encrypted = true ∧ (bits PTE_E).present = false by decide
  refine ⟨c, runs_of_calls hc, clear_text_iff h₀ (fun op ho => ?_) (runs_of_calls hc)⟩
  rcases List.mem_cons.1 ho with rfl | ho
  · trivial
  · cases List.mem_singleton.1 ho
    trivial

/-- A page is referenced and removed: it has `PTE_P` and is not queued. -/
theorem removed_page_in_clear :
    ∃ c, Runs 9 (clkClear ⟨fun _ => ⟨-1, 0⟩, 0, fun _ => PTE_E⟩) [.ref 0, .remove 0] c ∧ ¬ ClearText c := by
  have hrun : (calls 9 (clkClear ⟨fun _ => ⟨-1, 0⟩, 0, fun _ => PTE_E⟩) [.ref 0, .remove 0]).map (fun c => (c.ring, c.pte 0 &&& PTE_P)) =
      some ([], PTE_P) := by decide +kernel
  obtain ⟨c, hc, h⟩ := Option.map_eq_some_iff.1 hrun
  obtain ⟨hring, hp⟩ := Prod.mk.inj h
  refine ⟨c, runs_of_calls hc, fun ht => ?_⟩
  have := (ht.queued 0).1 (by rw [hp]; decide)
  rw [hring] at this
  cases this

end Xv6.Clock
