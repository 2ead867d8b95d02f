/-
  Xv6.Clock.Indices — the indices with which `clock-example.c` accesses `clk_queue`.

  The functions of `Xv6.Clock.Ring` compute them from the hand with C's `%`; here each is
  given with the list of the indices it uses, for as many rounds of its loops as are run.
  The hand is -1 on the cleared queue. `clk_insert` and `clk_print` add 1 to it first;
  `clk_remove` does not, and its first index is then -1.

  So in a run of calls all indices are in range exactly if every `do_remove_page` comes after
  a `do_ref_page` that has put a page in since the queue was cleared last (`in_range_iff`).
-/

import Xv6.Clock.Ring

namespace Xv6.Clock

open List

/-! ## Indices -/

/-- In `clk_insert`'s loop. -/
def sweepUses (vpn : Int) (pte : Nat) : Nat → Clk → List Int
  | 0, _ => []
  | fuel + 1, c =>
    let hand := (c.hand + 1).tmod CLOCKSIZE
    let slot := c.queue hand
    hand ::
      if slot.vpn = -1 then []
      else if c.pte slot.pte &&& PTE_A = 0 then []
      else sweepUses vpn pte fuel { c with hand, pte := Function.update c.pte slot.pte (c.pte slot.pte &&& ~~~PTE_A) }

/-- In the search of `clk_remove`, up to the match. -/
def searchUses (vpn : Int) (queue : Int → Node) : List Int → List Int
  | [] => []
  | idx :: rest => idx :: if (queue idx).vpn = vpn then [] else searchUses vpn queue rest

/-- In the shifting of `clk_remove`. -/
def shiftUses (tail : Int) : Nat → Int → List Int
  | 0, _ => []
  | fuel + 1, idx =>
    if idx = tail then []
    else
      let next := (idx + 1).tmod CLOCKSIZE
      idx :: next :: shiftUses tail fuel next

def removeUses (fuel : Nat) (vpn : Int) (c : Clk) : List Int :=
  searchUses vpn c.queue ((List.range 8).map fun i : Nat => (c.hand + i).tmod CLOCKSIZE) ++
    if matchIdx vpn c = -1 then []
    else shiftUses c.hand fuel (matchIdx vpn c) ++
      match shift c.hand fuel (matchIdx vpn c) c.queue with
      | some _ => [c.hand]
      | none => []

/-- In `clk_print`, from `print_idx` on. -/
def printUses : Nat → Int → List Int
  | 0, _ => []
  | n + 1, idx => (idx + 1).tmod CLOCKSIZE :: printUses n ((idx + 1).tmod CLOCKSIZE)

/-! ## Runs -/

inductive Call where
  | clear
  | ref (vpn : Int) (pte : Nat)
  | remove (vpn : Int)
  | print

def Call.run (fuel : Nat) : Call → Clk → Option Clk
  | .clear, c => some (clkClear c)
  | .ref vpn pte, c => doRefPage fuel vpn pte c
  | .remove vpn, c => doRemovePage fuel vpn c
  | .print, c => some c

def Call.uses (fuel : Nat) : Call → Clk → List Int
  | .clear, _ => (List.range 8).map fun i : Nat => (i : Int)
  | .ref vpn pte, c => if c.pte pte &&& PTE_P ≠ 0 then [] else sweepUses vpn pte fuel c
  | .remove vpn, c => removeUses fuel vpn c
  | .print, c => printUses 8 c.hand

/-- The indices of the calls one after the other, up to the first that does not return. -/
def uses (fuel : Nat) : List Call → Clk → List Int
  | [], _ => []
  | call :: calls, c => call.uses fuel c ++
    match call.run fuel c with
    | some c' => uses fuel calls c'
    | none => []

/-- Whether a page has been put in since the queue was cleared last. -/
def Call.filled (c : Clk) (filled : Bool) : Call → Bool
  | .clear => false
  | .ref _ pte => filled || c.pte pte &&& PTE_P == 0
  | .remove _ => filled
  | .print => filled

/-- Pages are removed only after one has been put in since the queue was cleared last. -/
def Guarded (fuel : Nat) : Bool → List Call → Clk → Prop
  | _, [], _ => True
  | filled, call :: calls, c => (∀ vpn, call = .remove vpn → filled = true) ∧
    match call.run fuel c with
    | some c' => Guarded fuel (call.filled c filled) calls c'
    | none => True

/-! ## Ranges -/

def InRange (i : Int) : Prop := 0 ≤ i ∧ i < CLOCKSIZE

theorem inRange_tmod {i : Int} (h : 0 ≤ i) : InRange (i.tmod CLOCKSIZE) :=
  ⟨Int.tmod_nonneg _ h, Int.tmod_lt_of_pos _ (by decide)⟩

variable {vpn : Int} {pte fuel : Nat} {c c' : Clk}

theorem sweepUses_inRange (fuel : Nat) (h : -1 ≤ c.hand) : ∀ i ∈ sweepUses vpn pte fuel c, InRange i := by
  induction fuel generalizing c with
  | zero => simp [sweepUses]
  | succ fuel ih =>
    have hr : InRange ((c.hand + 1).tmod CLOCKSIZE) := inRange_tmod (by omega)
    unfold sweepUses
    refine forall_mem_cons.mpr ⟨hr, ?_⟩
    split
    · simp
    · split
      · simp
      · exact ih (by have := hr.1; simp only; omega)

theorem sweep_hand (h : -1 ≤ c.hand) (hs : sweep vpn pte fuel c = some c') : InRange c'.hand := by
  induction fuel generalizing c with
  | zero => cases hs
  | succ fuel ih =>
    have hr : InRange ((c.hand + 1).tmod CLOCKSIZE) := inRange_tmod (by omega)
    unfold sweep at hs
    simp only at hs
    split at hs
    · cases hs
      exact hr
    · split at hs
      · cases hs
        exact hr
      · exact ih (by have := hr.1; simp only; omega) hs

theorem searchUses_subset {queue : Int → Node} {l : List Int} : ∀ i ∈ searchUses vpn queue l, i ∈ l := by
  induction l with
  | nil => simp [searchUses]
  | cons idx l ih =>
    unfold searchUses
    refine forall_mem_cons.mpr ⟨mem_cons_self, ?_⟩
    split
    · simp
    · exact fun i hi => mem_cons_of_mem idx (ih i hi)

theorem shiftUses_inRange {tail : Int} (fuel : Nat) {idx : Int} (h : InRange idx) : ∀ i ∈ shiftUses tail fuel idx, InRange i := by
  induction fuel generalizing idx with
  | zero => simp [shiftUses]
  | succ fuel ih =>
    have hnext : InRange ((idx + 1).tmod CLOCKSIZE) := inRange_tmod (by have := h.1; omega)
    unfold shiftUses
    split
    · simp
    · exact forall_mem_cons.mpr ⟨h, forall_mem_cons.mpr ⟨hnext, ih hnext⟩⟩

theorem printUses_inRange (n : Nat) {idx : Int} (h : -1 ≤ idx) : ∀ i ∈ printUses n idx, InRange i := by
  induction n generalizing idx with
  | zero => simp [printUses]
  | succ n ih =>
    have hnext : InRange ((idx + 1).tmod CLOCKSIZE) := inRange_tmod (by omega)
    exact forall_mem_cons.mpr ⟨hnext, ih (by have := hnext.1; omega)⟩

/-- `clk_remove` with a page in the queue. -/
theorem removeUses_inRange (h : InRange c.hand) : ∀ i ∈ removeUses fuel vpn c, InRange i := by
  have hall : ∀ i ∈ (range 8).map fun i : Nat => (c.hand + i).tmod CLOCKSIZE, InRange i := by
    intro i hi
    obtain ⟨k, _, rfl⟩ := mem_map.mp hi
    exact inRange_tmod (by have := h.1; omega)
  unfold removeUses
  refine forall_mem_append.mpr ⟨fun i hi => hall i (searchUses_subset i hi), ?_⟩
  split
  · simp
  · rename_i hm
    have hmatch : InRange (matchIdx vpn c) := by
      unfold matchIdx at hm ⊢
      cases hf : ((range 8).map fun i : Nat => (c.hand + i).tmod CLOCKSIZE).find? fun idx => (c.queue idx).vpn = vpn with
      | none =>
        rw [hf] at hm
        exact absurd rfl hm
      | some idx => exact hall idx (mem_of_find?_eq_some hf)
    refine forall_mem_append.mpr ⟨shiftUses_inRange fuel hmatch, ?_⟩
    split
    · simpa using h
    · simp

/-- With no page put in, the first index is -1. -/
theorem removeUses_cleared (h : c.hand = -1) : -1 ∈ removeUses fuel vpn c := by
  refine mem_append_left _ ?_
  rw [h]
  exact mem_cons_self

theorem remove_hand (h : InRange c.hand) (hr : clkRemove fuel vpn c = some c') : InRange c'.hand := by
  unfold clkRemove at hr
  split at hr
  · cases hr
    exact h
  · obtain ⟨q, _, rfl⟩ := Option.map_eq_some_iff.mp hr
    show InRange (if c.hand = 0 then CLOCKSIZE - 1 else c.hand - 1)
    obtain ⟨h0, h8⟩ := h
    split
    · exact ⟨by decide, by decide⟩
    · exact ⟨by omega, by omega⟩

/-! ## Guarded runs -/

/-- The hand is in the queue if a page has been put in, and -1 otherwise. -/
def Hand (filled : Bool) (c : Clk) : Prop := if filled then InRange c.hand else c.hand = -1

variable {filled : Bool}

theorem Hand.low (h : Hand filled c) : -1 ≤ c.hand := by
  cases filled with
  | false => exact le_of_eq (Eq.symm h)
  | true =>
    have h0 : 0 ≤ c.hand := h.1
    omega

theorem Hand.insert (h : Hand filled c) (hi : clkInsert fuel vpn pte c = some c') : InRange c'.hand := by
  obtain ⟨d, hd, rfl⟩ := Option.map_eq_some_iff.mp hi
  have hr := sweep_hand h.low hd
  exact hr

theorem Hand.step {call : Call} (h : Hand filled c)
    (hg : ∀ vpn, call = .remove vpn → filled = true) (hr : call.run fuel c = some c') : Hand (call.filled c filled) c' := by
  cases call with
  | clear =>
    cases hr
    rfl
  | print =>
    cases hr
    exact h
  | remove vpn =>
    obtain rfl := hg vpn rfl
    exact remove_hand h hr
  | ref vpn pte =>
    change doRefPage fuel vpn pte c = some c' at hr
    unfold doRefPage at hr
    split at hr
    · rename_i hp
      cases hr
      have hf : (Call.ref vpn pte).filled c filled = filled := by
        show (filled || c.pte pte &&& PTE_P == 0) = filled
        rw [beq_eq_false_iff_ne.mpr hp, Bool.or_false]
      rw [hf]
      exact h
    · rename_i hp
      obtain ⟨d, hd, rfl⟩ := Option.map_eq_some_iff.mp hr
      have hf : (Call.ref vpn pte).filled c filled = true := by simp [Call.filled, not_not.mp hp]
      rw [hf]
      have hr := h.insert hd
      exact hr

theorem Hand.uses (call : Call) (h : Hand filled c) :
    (∀ i ∈ call.uses fuel c, InRange i) ↔ ∀ vpn, call = .remove vpn → filled = true := by
  cases call with
  | clear =>
    refine iff_of_true (fun i hi => ?_) nofun
    obtain ⟨k, hk, rfl⟩ := mem_map.mp hi
    have hk8 : k < 8 := mem_range.mp hk
    exact ⟨by omega, show (k : Int) < 8 by omega⟩
  | print => exact iff_of_true (printUses_inRange 8 h.low) nofun
  | ref vpn pte =>
    refine iff_of_true ?_ nofun
    show ∀ i ∈ (if c.pte pte &&& PTE_P ≠ 0 then [] else sweepUses vpn pte fuel c), InRange i
    split
    · simp
    · exact sweepUses_inRange fuel h.low
  | remove vpn =>
    cases filled with
    | false =>
      refine iff_of_false (fun hall => ?_) fun hg => Bool.false_ne_true (hg vpn rfl)
      have hlow : (0 : Int) ≤ -1 := (hall (-1) (removeUses_cleared h)).1
      omega
    | true => exact iff_of_true (removeUses_inRange h) fun _ _ => rfl

theorem uses_iff (fuel : Nat) (calls : List Call) (h : Hand filled c) :
    (∀ i ∈ uses fuel calls c, InRange i) ↔ Guarded fuel filled calls c := by
  induction calls generalizing filled c with
  | nil => exact iff_of_true (by simp [uses]) trivial
  | cons call calls ih =>
    unfold uses Guarded
    rw [forall_mem_append, h.uses call]
    refine and_congr_right fun hg => ?_
    cases hr : call.run fuel c with
    | none => exact iff_of_true (by simp) trivial
    | some c' => exact ih (h.step hg hr)

/-- Whatever the queue and the page table at the start, with the hand at -1, and however far the
    calls' loops run: all indices used on `clk_queue` are in range exactly if every `do_remove_page`
    comes after a `do_ref_page` that has put a page in since the queue was cleared last. -/
theorem in_range_iff (fuel : Nat) (c : Clk) (h : c.hand = -1) (calls : List Call) :
    (∀ i ∈ uses fuel calls c, 0 ≤ i ∧ i < CLOCKSIZE) ↔ Guarded fuel false calls c := uses_iff fuel calls h

/-- The variables at the start of the program. -/
def boot : Clk := ⟨fun _ => ⟨0, 0⟩, -1, fun _ => PTE_E⟩

/-- A page is put in and removed. -/
theorem in_range_iff_refRemove :
    boot.hand = -1 ∧ ∀ i ∈ uses 8 [.clear, .ref 3 3, .remove 3, .print] boot, 0 ≤ i ∧ i < CLOCKSIZE :=
  ⟨rfl, (in_range_iff 8 boot rfl _).mpr ⟨nofun, nofun, fun _ _ => rfl, nofun, trivial⟩⟩

/-- A page is removed from the cleared queue: `clk_queue[-1]` is read. -/
theorem remove_from_cleared : -1 ∈ uses 8 [.clear, .remove 3] boot := by decide

end Xv6.Clock
