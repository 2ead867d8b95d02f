/-
  Xv6.Clock.Ring — `clock-example.c` of week 11: the CLOCK queue as a ring buffer.

  `clk_queue` has a page number and a page-table entry in each slot, -1 for an empty one, and
  `clk_hand` is the slot of the tail. Indices are C `int`s and `%` is C's: on the cleared
  queue the hand is -1, and `clk_remove` then reads the slot before the array, so the array
  is modelled with whatever is around it. A page-table entry is named by its page.

  The list machine `Fifo` is second-chance FIFO: a queue of pages and, for each page, whether
  it is present, encrypted and referenced. `clock_refines`: the ring, read from the slot
  after the hand and without the empty slots, is the queue of the list machine after the same
  calls; the occupied slots are one run that ends at the hand, no page is in two of them, and
  every call returns.
-/

import Mathlib

namespace Xv6.Clock

open Function

/-! ## `clock-example.c` -/

def CLOCKSIZE : Int := 8

def PTE_P : BitVec 32 := 0x001
def PTE_A : BitVec 32 := 0x020
def PTE_E : BitVec 32 := 0x200

structure Node where
  vpn : Int
  pte : Nat

/-- The queue with the memory around it, the hand, and the page table. -/
structure Clk where
  queue : Int → Node
  hand : Int
  pte : Nat → BitVec 32

def mencrypt (pte : BitVec 32) : BitVec 32 := if pte &&& PTE_E ≠ 0 then pte else (pte ||| PTE_E) &&& ~~~PTE_P

def mdecrypt (pte : BitVec 32) : BitVec 32 := if pte &&& PTE_E = 0 then pte else (pte &&& ~~~PTE_E) ||| PTE_P

/-- The loop of `clk_insert`. -/
def sweep (vpn : Int) (pte : Nat) : Nat → Clk → Option Clk
  | 0, _ => none
  | fuel + 1, c =>
    let hand := (c.hand + 1).tmod CLOCKSIZE
    let slot := c.queue hand
    if slot.vpn = -1 then some { c with hand, queue := Function.update c.queue hand ⟨vpn, pte⟩ }
    else if c.pte slot.pte &&& PTE_A = 0 then
      some { c with hand, queue := Function.update c.queue hand ⟨vpn, pte⟩
                    pte := Function.update c.pte slot.pte (mencrypt (c.pte slot.pte)) }
    else sweep vpn pte fuel { c with hand, pte := Function.update c.pte slot.pte (c.pte slot.pte &&& ~~~PTE_A) }

def clkInsert (fuel : Nat) (vpn : Int) (pte : Nat) (c : Clk) : Option Clk :=
  (sweep vpn pte fuel c).map fun c => { c with pte := Function.update c.pte pte (mdecrypt (c.pte pte)) }

/-- `for(i = 0; i < CLOCKSIZE; ++i)`: the first slot from the hand on with the page. -/
def matchIdx (vpn : Int) (c : Clk) : Int :=
  (((List.range 8).map fun i : Nat => (c.hand + i).tmod CLOCKSIZE).find? fun idx => (c.queue idx).vpn = vpn).getD (-1)

/-- `for(idx = match_idx; idx != prev_tail; idx = next_idx)`. -/
def shift (tail : Int) : Nat → Int → (Int → Node) → Option (Int → Node)
  | 0, _, _ => none
  | fuel + 1, idx, queue =>
    if idx = tail then some queue
    else
      let next := (idx + 1).tmod CLOCKSIZE
      shift tail fuel next (Function.update queue idx (queue next))

def clkRemove (fuel : Nat) (vpn : Int) (c : Clk) : Option Clk :=
  if matchIdx vpn c = -1 then some c
  else (shift c.hand fuel (matchIdx vpn c) c.queue).map fun queue =>
    { c with queue := Function.update queue c.hand { queue c.hand with vpn := -1 }
             hand := if c.hand = 0 then CLOCKSIZE - 1 else c.hand - 1 }

def clkClear (c : Clk) : Clk :=
  { c with queue := fun i => if 0 ≤ i ∧ i < CLOCKSIZE then { c.queue i with vpn := -1 } else c.queue i, hand := -1 }

def doRefPage (fuel : Nat) (vpn : Int) (pte : Nat) (c : Clk) : Option Clk :=
  if c.pte pte &&& PTE_P ≠ 0 then some { c with pte := Function.update c.pte pte (c.pte pte ||| PTE_A) }
  else (clkInsert fuel vpn pte c).map fun c => { c with pte := Function.update c.pte pte (c.pte pte ||| PTE_A) }

def doRemovePage (fuel : Nat) (vpn : Int) (c : Clk) : Option Clk := clkRemove fuel vpn c

/-! ## Runs -/

/-- Calls, each with a page. -/
inductive Op where
  | ref (page : Nat)
  | insert (page : Nat)
  | remove (page : Nat)

def call (fuel : Nat) : Op → Clk → Option Clk
  | .ref page, c => doRefPage fuel page page c
  | .insert page, c => clkInsert fuel page page c
  | .remove page, c => doRemovePage fuel page c

/-- The ring from the slot after the hand on, as `clk_print` reads it. -/
def Clk.ring (c : Clk) : List Int :=
  ((List.range 8).map fun i : Nat => (c.queue ((c.hand + 1 + i).tmod CLOCKSIZE)).vpn).filter (· ≠ -1)

/-- `clk_insert` is only called for a page that is not in the queue. -/
def Allowed (c : Clk) : Op → Prop
  | .insert page => (page : Int) ∉ c.ring
  | _ => True

inductive Runs (fuel : Nat) (c₀ : Clk) : List Op → Clk → Prop where
  | nil : Runs fuel c₀ [] c₀
  | call {ops : List Op} {op : Op} {c c' : Clk} : Runs fuel c₀ ops c → Allowed c op → call fuel op c = some c' → Runs fuel c₀ (ops ++ [op]) c'

/-! ## Second-chance FIFO -/

structure Bits where
  present : Bool
  encrypted : Bool
  referenced : Bool

structure Fifo where
  queue : List Nat
  bits : Nat → Bits

/-- A place is made: a referenced head goes to the tail, and the first that is not is evicted. -/
inductive Fifo.Evict : Fifo → Fifo → Prop where
  | evict {h : Nat} {q : List Nat} {b : Nat → Bits} (ha : (b h).referenced = false) :
      Evict ⟨h :: q, b⟩ ⟨q, Function.update b h { b h with encrypted := true, present := false }⟩
  | chance {h : Nat} {q : List Nat} {b : Nat → Bits} {s : Fifo} (ha : (b h).referenced = true)
      (hs : Evict ⟨q ++ [h], Function.update b h { b h with referenced := false }⟩ s) : Evict ⟨h :: q, b⟩ s

/-- The page becomes the tail and is decrypted. -/
def Fifo.add (s : Fifo) (page : Nat) : Fifo :=
  ⟨s.queue ++ [page], Function.update s.bits page { s.bits page with present := true, encrypted := false }⟩

inductive Fifo.Insert (page : Nat) : Fifo → Fifo → Prop where
  | room {s : Fifo} (h : s.queue.length < 8) : Insert page s (s.add page)
  | full {s s' : Fifo} (h : s.queue.length = 8) (he : s.Evict s') : Insert page s (s'.add page)

def Fifo.reference (s : Fifo) (page : Nat) : Fifo := { s with bits := Function.update s.bits page { s.bits page with referenced := true } }

inductive Fifo.Step : Op → Fifo → Fifo → Prop where
  | hit {s : Fifo} {page : Nat} (h : (s.bits page).present = true) : Step (.ref page) s (s.reference page)
  | fault {s s' : Fifo} {page : Nat} (h : (s.bits page).present = false) (hi : Insert page s s') : Step (.ref page) s (s'.reference page)
  | insert {s s' : Fifo} {page : Nat} (hi : Insert page s s') : Step (.insert page) s s'
  | remove {s : Fifo} {page : Nat} : Step (.remove page) s { s with queue := s.queue.erase page }

inductive Fifo.Runs (s₀ : Fifo) : List Op → Fifo → Prop where
  | nil : Runs s₀ [] s₀
  | step {ops : List Op} {op : Op} {s s' : Fifo} : Runs s₀ ops s → Step op s s' → Runs s₀ (ops ++ [op]) s'

def bits (x : BitVec 32) : Bits := ⟨x.getLsbD 0, x.getLsbD 9, x.getLsbD 5⟩

/-! ## Flag bits -/

variable {x : BitVec 32}

/-- `x & (1 << i)`. -/
theorem and_twoPow_eq_zero {i : Nat} (hi : i < 32) : x &&& BitVec.twoPow 32 i = 0 ↔ x.getLsbD i = false := by
  rw [BitVec.and_twoPow]
  cases h : x.getLsbD i with
  | false => simp
  | true =>
    simp only [if_true, Bool.true_eq_false, iff_false]
    intro h0
    have := congrArg (BitVec.getLsbD · i) h0
    simp [hi] at this

theorem and_PTE_P : x &&& PTE_P = 0 ↔ (bits x).present = false := and_twoPow_eq_zero (i := 0) (by decide)

theorem and_PTE_A : x &&& PTE_A = 0 ↔ (bits x).referenced = false := and_twoPow_eq_zero (i := 5) (by decide)

theorem and_PTE_E : x &&& PTE_E = 0 ↔ (bits x).encrypted = false := and_twoPow_eq_zero (i := 9) (by decide)

theorem bits_reference (x : BitVec 32) : bits (x ||| PTE_A) = { bits x with referenced := true } := by
  simp [bits, PTE_A]

theorem bits_unreference (x : BitVec 32) : bits (x &&& ~~~PTE_A) = { bits x with referenced := false } := by
  simp [bits, PTE_A]

theorem bits_mencrypt (h : (bits x).encrypted = false) : bits (mencrypt x) = { bits x with encrypted := true, present := false } := by
  rw [mencrypt, if_neg (not_not.2 (and_PTE_E.2 h))]
  simp [bits, PTE_E, PTE_P]

theorem bits_mdecrypt (h : (bits x).encrypted = !(bits x).present) :
    bits (mdecrypt x) = { bits x with present := true, encrypted := false } := by
  cases he : (bits x).encrypted with
  | true =>
    rw [mdecrypt, if_neg fun h0 => by rw [and_PTE_E.1 h0] at he; cases he]
    simp [bits, PTE_E, PTE_P]
  | false =>
    have hp : (bits x).present = true := by rw [he] at h; simpa using h.symm
    rw [mdecrypt, if_pos (and_PTE_E.2 he)]
    generalize bits x = b at *
    cases b
    simp only at he hp
    rw [he, hp]

/-! ## Slots -/

/-- The slots from the one after the hand on hold `q` at their end. -/
structure Layout (f : Int → Node) (q : List Nat) : Prop where
  len : q.length ≤ 8
  empty : ∀ d : Int, 0 ≤ d → d + q.length < 8 → (f d).vpn = -1
  full : ∀ i v : Nat, q[i]? = some v → f (8 - q.length + i) = ⟨v, v⟩

def Clk.slot (c : Clk) (d : Int) : Node := c.queue ((c.hand + 1 + d) % 8)

variable {f f' : Int → Node} {q : List Nat} {v m page fuel : Nat}

theorem Layout.push (h : Layout f q) (hlen : q.length < 8) (hf : ∀ d : Int, 0 ≤ d → d < 7 → f' d = f (d + 1))
    (hv : f' 7 = ⟨v, v⟩) : Layout f' (q ++ [v]) := by
  have hl : (q ++ [v]).length = q.length + 1 := by simp
  refine ⟨by omega, fun d h0 hd => ?_, fun i w hw => ?_⟩
  · rw [hf d h0 (by omega)]
    exact h.empty (d + 1) (by omega) (by omega)
  · rw [hl]
    rcases Nat.lt_or_ge i q.length with hi | hi
    · rw [List.getElem?_append_left hi] at hw
      rw [hf _ (by omega) (by omega), ← h.full i w hw]
      congr 1
      omega
    · have hi' : i = q.length := by
        have := (List.getElem?_eq_some_iff.1 hw).1
        omega
      rw [hi', List.getElem?_concat_length] at hw
      cases hw
      rw [← hv]
      congr 1
      omega

theorem Layout.rotate {h : Nat} (hl : Layout f (h :: q)) (hlen : q.length = 7)
    (hf : ∀ d : Int, 0 ≤ d → d < 7 → f' d = f (d + 1)) (hv : f' 7 = ⟨v, v⟩) : Layout f' (q ++ [v]) := by
  have hl' : (q ++ [v]).length = 8 := by simp [hlen]
  have hl₀ : (h :: q).length = 8 := by simp [hlen]
  refine ⟨by omega, fun d h0 hd => by omega, fun i w hw => ?_⟩
  rw [hl']
  rcases Nat.lt_or_ge i q.length with hi | hi
  · rw [List.getElem?_append_left hi] at hw
    rw [hf _ (by omega) (by omega), ← hl.full (i + 1) w (by simpa using hw), hl₀]
    congr 1
  · have hi' : i = q.length := by
      have := (List.getElem?_eq_some_iff.1 hw).1
      omega
    rw [hi', List.getElem?_concat_length] at hw
    cases hw
    rw [← hv]
    congr 1
    omega

/-- The slots after the one of `q[m]` move down by one, and all are counted from one further. -/
theorem Layout.erase (h : Layout f q) (hm : m < q.length) (h0 : (f' 0).vpn = -1)
    (hlow : ∀ d : Int, 1 ≤ d → d + q.length ≤ 8 + m → f' d = f (d - 1)) (hhigh : ∀ d : Int, 8 + m < d + q.length → d < 8 → f' d = f d) :
    Layout f' (q.eraseIdx m) := by
  have hlen := h.len
  have hl : (q.eraseIdx m).length = q.length - 1 := List.length_eraseIdx_of_lt hm
  refine ⟨by omega, fun d hd1 hd2 => ?_, fun i w hw => ?_⟩
  · by_cases hd : 0 < d
    · rw [hlow d (by omega) (by omega)]
      exact h.empty (d - 1) (by omega) (by omega)
    · rw [show d = 0 by omega]
      exact h0
  · have hi : i < q.length - 1 := by
      have := (List.getElem?_eq_some_iff.1 hw).1
      omega
    rw [hl, List.getElem?_eraseIdx] at *
    split at hw
    · rw [hlow _ (by omega) (by omega), ← h.full i w hw]
      congr 1
      omega
    · rw [hhigh _ (by omega) (by omega), ← h.full (i + 1) w hw]
      congr 1
      omega

/-- Read in order, without the empty slots. -/
theorem Layout.ring (h : Layout f q) :
    ((List.range 8).map fun i : Nat => (f i).vpn).filter (· ≠ -1) = q.map (fun v : Nat => (v : Int)) := by
  have hlen := h.len
  have hr : List.range 8 = List.range (8 - q.length) ++ (List.range q.length).map (8 - q.length + ·) := by
    rw [← List.range_add]
    congr 1
    omega
  have hlow : ((List.range (8 - q.length)).map fun i : Nat => (f i).vpn).filter (· ≠ -1) = [] := by
    rw [List.filter_eq_nil_iff]
    intro x hx
    obtain ⟨i, hi, rfl⟩ := List.mem_map.1 hx
    rw [h.empty i (by omega) (by have := List.mem_range.1 hi; omega)]
    decide
  have hhigh : ((List.range q.length).map (8 - q.length + ·)).map (fun i : Nat => (f i).vpn) = q.map (fun v : Nat => (v : Int)) := by
    refine List.ext_getElem (by simp) fun i h1 h2 => ?_
    have hi : i < q.length := by simpa using h2
    have := h.full i q[i] (List.getElem?_eq_getElem hi)
    simp only [List.getElem_map, List.getElem_range]
    rw [show ((8 - q.length + i : Nat) : Int) = 8 - q.length + i by omega, this]
  rw [hr, List.map_append, List.filter_append, hlow, hhigh, List.nil_append, List.filter_eq_self]
  intro x hx
  obtain ⟨v, _, rfl⟩ := List.mem_map.1 hx
  simp

/-! ## Refinement -/

/-- The page table has the bits of the list machine: a page is encrypted or present, and the
    queued ones are present. -/
structure Pages (pte : Nat → BitVec 32) (s : Fifo) : Prop where
  bits : ∀ v, bits (pte v) = s.bits v
  apart : ∀ v, (s.bits v).encrypted = !(s.bits v).present
  queued : ∀ v ∈ s.queue, (s.bits v).present = true

theorem Pages.set {pte : Nat → BitVec 32} {b : Nat → Bits} {q' : List Nat} {y : Bits} (h : Pages pte ⟨q, b⟩)
    (hx : Clock.bits x = y) (ha : y.encrypted = !y.present) (hq : ∀ u ∈ q', u ≠ v → u ∈ q) (hv : v ∈ q' → y.present = true) :
    Pages (update pte v x) ⟨q', update b v y⟩ := by
  refine ⟨fun u => ?_, fun u => ?_, fun u hu => ?_⟩
  · by_cases e : u = v
    · rw [e, update_self, hx]
      exact (update_self v y b).symm
    · rw [update_of_ne e, h.bits u]
      exact (update_of_ne e y b).symm
  · show (update b v y u).encrypted = !(update b v y u).present
    by_cases e : u = v
    · rw [e, update_self, ha]
    · rw [update_of_ne e]
      exact h.apart u
  · show (update b v y u).present = true
    by_cases e : u = v
    · rw [e, update_self]
      exact hv (e ▸ hu)
    · rw [update_of_ne e]
      exact h.queued u (hq u hu e)

/-- The ring `c` is the queue of `s`, with the bits of its pages. -/
structure Rel (c : Clk) (s : Fifo) : Prop where
  low : -1 ≤ c.hand
  high : c.hand < 8
  cleared : c.hand = -1 → s.queue = []
  layout : Layout c.slot s.queue
  nodup : s.queue.Nodup
  pages : Pages c.pte s

theorem tmod_eq {a : Int} (h : 0 ≤ a) : a.tmod CLOCKSIZE = a % 8 := Int.tmod_eq_emod_of_nonneg h

variable {c c' : Clk}

/-- The hand moves on by one, and the slot it comes to gets `n`. -/
theorem slot_advance {n : Node} (hhand : c'.hand = (c.hand + 1) % 8)
    (hq : c'.queue = update c.queue ((c.hand + 1) % 8) n) : (∀ d, 0 ≤ d → d < 7 → c'.slot d = c.slot (d + 1)) ∧ c'.slot 7 = n := by
  refine ⟨fun d h0 h7 => ?_, ?_⟩
  · have h1 : (c'.hand + 1 + d) % 8 = (c.hand + 1 + (d + 1)) % 8 := by rw [hhand]; omega
    rw [Clk.slot, hq, h1, update_of_ne (by omega)]
    rfl
  · have h1 : (c'.hand + 1 + 7) % 8 = (c.hand + 1) % 8 := by rw [hhand]; omega
    rw [Clk.slot, hq, h1, update_self]

variable {s : Fifo}

theorem Rel.ring (h : Rel c s) : c.ring = s.queue.map fun v : Nat => (v : Int) := by
  rw [← h.layout.ring, Clk.ring]
  congr 2
  funext i
  have := h.low
  rw [tmod_eq (by omega)]
  rfl

theorem Rel.mem_ring (h : Rel c s) : (v : Int) ∈ c.ring ↔ v ∈ s.queue := by
  rw [h.ring]
  simp

/-- What is known after the loop of `clk_insert` for `page`: it is in the tail slot. -/
structure Swept (c : Clk) (s : Fifo) (page : Nat) : Prop where
  low : 0 ≤ c.hand
  high : c.hand < 8
  layout : Layout c.slot (s.queue ++ [page])
  nodup : s.queue.Nodup
  new : page ∉ s.queue
  pages : Pages c.pte s

theorem sweep_room (h : Rel c s) (hnew : page ∉ s.queue) (hlen : s.queue.length < 8) :
    ∃ c', (∀ fuel, 0 < fuel → sweep page page fuel c = some c') ∧ Swept c' s page := by
  have hlow := h.low
  have hidx : (c.hand + 1).tmod CLOCKSIZE = (c.hand + 1) % 8 := tmod_eq (by omega)
  have hslot : (c.queue ((c.hand + 1) % 8)).vpn = -1 := by
    have := h.layout.empty 0 (Int.le_refl 0) (by omega)
    rwa [Clk.slot, Int.add_zero] at this
  refine ⟨{ c with hand := (c.hand + 1) % 8, queue := update c.queue ((c.hand + 1) % 8) ⟨page, page⟩ }, fun fuel hf => ?_, ?_⟩
  · obtain ⟨fuel, rfl⟩ : ∃ k, fuel = k + 1 := ⟨fuel - 1, by omega⟩
    simp only [sweep, hidx, hslot, if_true]
  · generalize hc : ({ c with hand := (c.hand + 1) % 8, queue := update c.queue ((c.hand + 1) % 8) ⟨page, page⟩ } : Clk) = c'
    have hhand : c'.hand = (c.hand + 1) % 8 := by rw [← hc]
    obtain ⟨h1, h2⟩ := slot_advance hhand (show c'.queue = _ by rw [← hc])
    have hpte : c'.pte = c.pte := by rw [← hc]
    exact ⟨by omega, by omega, h.layout.push hlen h1 h2, h.nodup, hnew, by rw [hpte]; exact h.pages⟩

/-- How many pages of the queue are referenced. -/
def Fifo.chances (s : Fifo) : Nat := s.queue.countP fun v => (s.bits v).referenced

section Full

variable {c c' : Clk} {h : Nat} {q : List Nat} {b : Nat → Bits}

theorem Rel.head (hr : Rel c ⟨h :: q, b⟩) (hlen : q.length = 7) : c.queue ((c.hand + 1) % 8) = ⟨h, h⟩ := by
  have := hr.layout.full 0 h rfl
  rw [List.length_cons, hlen] at this
  rw [← this, Clk.slot]
  congr 2
  simp

/-- A referenced head goes to the tail. -/
theorem Rel.chance (hr : Rel c ⟨h :: q, b⟩) (hlen : q.length = 7) (hhand : c'.hand = (c.hand + 1) % 8) (hq : c'.queue = c.queue)
    (hp : c'.pte = update c.pte h (c.pte h &&& ~~~PTE_A)) : Rel c' ⟨q ++ [h], update b h { b h with referenced := false }⟩ := by
  have hq' : c'.queue = update c.queue ((c.hand + 1) % 8) ⟨h, h⟩ := by rw [hq, ← hr.head hlen, update_eq_self]
  obtain ⟨h1, h2⟩ := slot_advance hhand hq'
  have hperm : (q ++ [h]).Perm (h :: q) := List.perm_append_singleton h q
  refine ⟨by omega, by omega, by omega, hr.layout.rotate hlen h1 h2, hperm.symm.nodup hr.nodup, ?_⟩
  rw [hp]
  refine hr.pages.set ?_ (hr.pages.apart h) (fun u hu _ => hperm.subset hu) fun _ => hr.pages.queued h List.mem_cons_self
  rw [bits_unreference, hr.pages.bits h]

/-- A head that is not referenced is evicted, and the page takes its slot. -/
theorem Rel.evict (hr : Rel c ⟨h :: q, b⟩) (hlen : q.length = 7) {page : Nat} (hnew : page ∉ h :: q) (hhand : c'.hand = (c.hand + 1) % 8)
    (hq : c'.queue = update c.queue ((c.hand + 1) % 8) ⟨page, page⟩) (hp : c'.pte = update c.pte h (mencrypt (c.pte h))) :
    Swept c' ⟨q, update b h { b h with encrypted := true, present := false }⟩ page := by
  obtain ⟨h1, h2⟩ := slot_advance hhand hq
  obtain ⟨hh, hnd⟩ := List.nodup_cons.1 hr.nodup
  have henc : (bits (c.pte h)).encrypted = false := by
    rw [hr.pages.bits h, hr.pages.apart h, hr.pages.queued h List.mem_cons_self]
    rfl
  refine ⟨by omega, by omega, hr.layout.rotate hlen h1 h2, hnd, fun hm => hnew (List.mem_cons_of_mem h hm), ?_⟩
  rw [hp]
  refine hr.pages.set ?_ rfl (fun u hu _ => List.mem_cons_of_mem h hu) fun hm => absurd hm hh
  rw [bits_mencrypt henc, hr.pages.bits h]

end Full

theorem chances_chance {h : Nat} {b : Nat → Bits} (hh : h ∉ q) (ha : (b h).referenced = true) :
    (Fifo.mk (h :: q) b).chances = (Fifo.mk (q ++ [h]) (update b h { b h with referenced := false })).chances + 1 := by
  have hq : q.countP (fun v => (update b h { b h with referenced := false } v).referenced) = q.countP fun v => (b v).referenced :=
    List.countP_congr fun v hv => by rw [update_of_ne (show v ≠ h from fun e => hh (e ▸ hv))]
  simp only [Fifo.chances, List.countP_cons, List.countP_append, List.countP_nil, hq, ha, update_self, if_true, Bool.false_eq_true, if_false]

theorem sweep_full (hr : Rel c s) (hnew : page ∉ s.queue) (hlen : s.queue.length = 8) :
    ∃ c' s', (∀ fuel, s.chances < fuel → sweep page page fuel c = some c') ∧ s.Evict s' ∧ Swept c' s' page := by
  -- every page that is passed over has its reference bit cleared
  induction hn : s.chances using Nat.strongRecOn generalizing c s with
  | ind n ih =>
  obtain ⟨q, b⟩ := s
  cases q with
  | nil => cases hlen
  | cons h q =>
    have hlen : q.length = 7 := Nat.succ.inj hlen
    have hidx : (c.hand + 1).tmod CLOCKSIZE = (c.hand + 1) % 8 := tmod_eq (by have := hr.low; omega)
    have hhead := hr.head hlen
    have hne : (h : Int) ≠ -1 := by omega
    have hbit : c.pte h &&& PTE_A = 0 ↔ (b h).referenced = false := by rw [and_PTE_A, hr.pages.bits h]
    cases ha : (b h).referenced with
    | false =>
      refine ⟨⟨update c.queue ((c.hand + 1) % 8) ⟨page, page⟩, (c.hand + 1) % 8, update c.pte h (mencrypt (c.pte h))⟩, _,
        fun fuel hf => ?_, .evict ha, hr.evict hlen hnew rfl rfl rfl⟩
      obtain ⟨fuel, rfl⟩ : ∃ k, fuel = k + 1 := ⟨fuel - 1, by omega⟩
      simp only [sweep, hidx, hhead, if_neg hne, if_pos (hbit.2 ha)]
    | true =>
      have hc := chances_chance (List.nodup_cons.1 hr.nodup).1 ha
      have hr' : Rel ⟨c.queue, (c.hand + 1) % 8, update c.pte h (c.pte h &&& ~~~PTE_A)⟩ _ := hr.chance hlen rfl rfl rfl
      obtain ⟨c', s', hs, he, hsw⟩ := ih _ (by omega) hr' (fun hm => hnew ((List.perm_append_singleton h q).subset hm)) (by simp [hlen]) rfl
      refine ⟨c', s', fun fuel hf => ?_, .chance ha he, hsw⟩
      obtain ⟨fuel, rfl⟩ : ∃ k, fuel = k + 1 := ⟨fuel - 1, by omega⟩
      have hnz : ¬ c.pte h &&& PTE_A = 0 := fun h0 => by
        rw [hbit.1 h0] at ha
        cases ha
      simp only [sweep, hidx, hhead, if_neg hne, if_neg hnz]
      exact hs fuel (by omega)

theorem Fifo.chances_le (s : Fifo) : s.chances ≤ s.queue.length := List.countP_le_length

/-! ## The calls -/

theorem Rel.insert (hr : Rel c s) (hnew : page ∉ s.queue) :
    ∃ c' s', (∀ fuel, 8 < fuel → clkInsert fuel page page c = some c') ∧ s.Insert page s' ∧ Rel c' s' := by
  obtain ⟨c₁, s₁, hs, hi, hsw⟩ : ∃ c₁ s₁, (∀ fuel, 8 < fuel → sweep page page fuel c = some c₁) ∧ s.Insert page (s₁.add page) ∧ Swept c₁ s₁ page := by
    rcases Nat.lt_or_ge s.queue.length 8 with hlt | hge
    · obtain ⟨c₁, hs, hsw⟩ := sweep_room hr hnew hlt
      exact ⟨c₁, s, fun fuel hf => hs fuel (by omega), .room hlt, hsw⟩
    · have hlen : s.queue.length = 8 := Nat.le_antisymm hr.layout.len hge
      obtain ⟨c₁, s₁, hs, he, hsw⟩ := sweep_full hr hnew hlen
      exact ⟨c₁, s₁, fun fuel hf => hs fuel (by have := s.chances_le; omega), .full hlen he, hsw⟩
  refine ⟨⟨c₁.queue, c₁.hand, update c₁.pte page (mdecrypt (c₁.pte page))⟩, s₁.add page, fun fuel hf => ?_, hi, ?_⟩
  · rw [clkInsert, hs fuel hf]
    rfl
  · have hlow := hsw.low
    refine ⟨show -1 ≤ c₁.hand by omega, hsw.high, fun e => ?_, hsw.layout, ?_, ?_⟩
    · have : c₁.hand = -1 := e
      omega
    · exact List.Nodup.append hsw.nodup (List.nodup_singleton page) fun v h1 h2 => hsw.new (List.mem_singleton.1 h2 ▸ h1)
    · refine Pages.set (b := s₁.bits) (q := s₁.queue) hsw.pages ?_ rfl (fun u hu e => ?_) fun _ => rfl
      · rw [bits_mdecrypt (by rw [hsw.pages.bits]; exact hsw.pages.apart page), hsw.pages.bits]
      · exact (List.mem_append.1 hu).resolve_right fun h => e (List.mem_singleton.1 h)

theorem Rel.reference (hr : Rel c s) (page : Nat) :
    Rel ⟨c.queue, c.hand, update c.pte page (c.pte page ||| PTE_A)⟩ (s.reference page) := by
  refine ⟨hr.low, hr.high, hr.cleared, hr.layout, hr.nodup, Pages.set (b := s.bits) (q := s.queue) hr.pages ?_ (hr.pages.apart page)
    (fun u hu _ => hu) (hr.pages.queued page)⟩
  rw [bits_reference, hr.pages.bits]

theorem Rel.ref (hr : Rel c s) (page : Nat) :
    ∃ c' s', (∀ fuel, 8 < fuel → doRefPage fuel page page c = some c') ∧ Fifo.Step (.ref page) s s' ∧ Rel c' s' := by
  have hbit : c.pte page &&& PTE_P = 0 ↔ (s.bits page).present = false := by rw [and_PTE_P, hr.pages.bits]
  cases hp : (s.bits page).present with
  | true =>
    refine ⟨_, _, fun fuel _ => ?_, .hit hp, hr.reference page⟩
    rw [doRefPage, if_pos fun h0 => by rw [hbit.1 h0] at hp; cases hp]
  | false =>
    have hnew : page ∉ s.queue := fun hm => by
      rw [hr.pages.queued page hm] at hp
      cases hp
    obtain ⟨c₁, s₁, hs, hi, hr₁⟩ := hr.insert hnew
    refine ⟨_, _, fun fuel hf => ?_, .fault hp hi, hr₁.reference page⟩
    rw [doRefPage, if_neg (not_not.2 (hbit.2 hp)), hs fuel hf]
    rfl

/-- A slot with a page is that of its place in the queue. -/
theorem Layout.place (h : Layout f q) {d : Int} (h0 : 0 ≤ d) (h8 : d < 8) (hv : (f d).vpn = v) :
    ∃ i : Nat, q[i]? = some v ∧ d = 8 - q.length + i := by
  have hlen := h.len
  by_cases hd : d + q.length < 8
  · rw [h.empty d h0 hd] at hv
    omega
  · obtain ⟨i, hi⟩ : ∃ i : Nat, d = 8 - q.length + i := ⟨(d + q.length - 8).toNat, by omega⟩
    have hlt : i < q.length := by omega
    have := h.full i q[i] (List.getElem?_eq_getElem hlt)
    rw [← hi] at this
    rw [this] at hv
    refine ⟨i, ?_, hi⟩
    rw [List.getElem?_eq_getElem hlt, Int.ofNat_inj.1 hv]

/-- A found index is the slot of the page. -/
theorem Rel.found (hr : Rel c s) {idx : Int} (h0 : 0 ≤ idx) (h8 : idx < 8) (hv : (c.queue idx).vpn = v) :
    ∃ i : Nat, s.queue[i]? = some v ∧ idx = (c.hand + 1 + (8 - s.queue.length + i)) % 8 := by
  have hslot : c.slot ((idx - c.hand - 1) % 8) = c.queue idx := by
    rw [Clk.slot]
    congr 1
    omega
  obtain ⟨i, hi, hd⟩ := hr.layout.place (d := (idx - c.hand - 1) % 8) (by omega) (by omega) (by rw [hslot]; exact hv)
  exact ⟨i, hi, by omega⟩

theorem Rel.matchIdx_of_not_mem (hr : Rel c s) (hv : v ∉ s.queue) : matchIdx v c = -1 := by
  have hlow := hr.low
  rw [matchIdx]
  cases hf : ((List.range 8).map fun i : Nat => (c.hand + i).tmod CLOCKSIZE).find? fun idx => (c.queue idx).vpn = v with
  | none => rfl
  | some idx =>
    show idx = -1
    have hvpn : (c.queue idx).vpn = v := by simpa using List.find?_some hf
    obtain ⟨i, _, hi⟩ := List.mem_map.1 (List.mem_of_find?_eq_some hf)
    -- the only index out of range is the one before the array
    by_cases hneg : c.hand + i < 0
    · have h1 : c.hand + i = -1 := by omega
      rw [← hi, h1]
      decide
    · rw [tmod_eq (by omega)] at hi
      obtain ⟨k, hk, _⟩ := hr.found (by omega) (by omega) hvpn
      exact absurd (List.mem_of_getElem? hk) hv

theorem Rel.matchIdx_of_mem (hr : Rel c s) (hv : s.queue[m]? = some v) (hhand : 0 ≤ c.hand) :
    matchIdx v c = (c.hand + 1 + (8 - s.queue.length + m)) % 8 := by
  have hlen := hr.layout.len
  have hm := (List.getElem?_eq_some_iff.1 hv).1
  have hslot := hr.layout.full m v hv
  rw [Clk.slot] at hslot
  rw [matchIdx]
  cases hf : ((List.range 8).map fun i : Nat => (c.hand + i).tmod CLOCKSIZE).find? fun idx => (c.queue idx).vpn = v with
  | none =>
    -- the slot of the page is among those looked at
    have hmem : (c.hand + 1 + (8 - s.queue.length + m)) % 8 ∈ (List.range 8).map fun i : Nat => (c.hand + i).tmod CLOCKSIZE := by
      refine List.mem_map.2 ⟨((9 - s.queue.length + m) % 8 : Int).toNat, List.mem_range.2 (by omega), ?_⟩
      rw [tmod_eq (by omega)]
      omega
    have := List.find?_eq_none.1 hf _ hmem
    rw [hslot] at this
    simp at this
  | some idx =>
    have hvpn : (c.queue idx).vpn = v := by simpa using List.find?_some hf
    obtain ⟨i, _, hi⟩ := List.mem_map.1 (List.mem_of_find?_eq_some hf)
    rw [tmod_eq (by omega)] at hi
    obtain ⟨k, hk, hidx⟩ := hr.found (by omega) (by omega) hvpn
    have hkm : k = m := by
      obtain ⟨h1, h2⟩ := List.getElem?_eq_some_iff.1 hk
      obtain ⟨h3, h4⟩ := List.getElem?_eq_some_iff.1 hv
      exact (List.Nodup.getElem_inj_iff hr.nodup).1 (h2.trans h4.symm)
    rw [← hkm]
    exact hidx

/-- The loop moves the `k` slots after `idx`, up to `tail`, down by one. -/
theorem shift_spec {tail idx : Int} {k : Nat} (hk : k < 8) (h0 : 0 ≤ idx) (h8 : idx < 8) (ht : (idx + k) % 8 = tail) (queue : Int → Node) :
    ∃ queue', (∀ fuel, k < fuel → shift tail fuel idx queue = some queue') ∧
      (∀ j : Int, 0 ≤ j → j < k → queue' ((idx + j) % 8) = queue ((idx + j + 1) % 8)) ∧
      ∀ j : Int, k ≤ j → j < 8 → queue' ((idx + j) % 8) = queue ((idx + j) % 8) := by
  induction k generalizing idx queue with
  | zero =>
    refine ⟨queue, fun fuel hf => ?_, fun j h1 h2 => by omega, fun _ _ _ => rfl⟩
    obtain ⟨fuel, rfl⟩ : ∃ k, fuel = k + 1 := ⟨fuel - 1, by omega⟩
    rw [shift, if_pos (by omega)]
  | succ k ih =>
    have hnext : (idx + 1).tmod CLOCKSIZE = (idx + 1) % 8 := tmod_eq (by omega)
    obtain ⟨queue', hs, hlow, hhigh⟩ := ih (by omega) (show 0 ≤ (idx + 1) % 8 by omega) (by omega) (by omega)
      (update queue idx (queue ((idx + 1) % 8)))
    refine ⟨queue', fun fuel hf => ?_, fun j h1 h2 => ?_, fun j h1 h2 => ?_⟩
    · obtain ⟨fuel, rfl⟩ : ∃ k, fuel = k + 1 := ⟨fuel - 1, by omega⟩
      rw [shift, if_neg (by omega)]
      simp only [hnext]
      exact hs fuel (by omega)
    · by_cases hj : j = 0
      · subst hj
        -- `idx` itself is the last slot the rest of the loop comes to
        have := hhigh 7 (by omega) (by omega)
        rw [show ((idx + 1) % 8 + 7) % 8 = idx by omega, update_self] at this
        rw [show (idx + 0) % 8 = idx by omega, this]
        congr 1
        omega
      · have := hlow (j - 1) (by omega) (by omega)
        rw [show ((idx + 1) % 8 + (j - 1)) % 8 = (idx + j) % 8 by omega, update_of_ne (by omega)] at this
        rw [this]
        congr 1
        omega
    · have := hhigh (j - 1) (by omega) (by omega)
      rw [show ((idx + 1) % 8 + (j - 1)) % 8 = (idx + j) % 8 by omega, update_of_ne (by omega)] at this
      exact this

/-- The hand steps back over the slot it clears, and the slots from the page's on have moved down. -/
theorem Layout.remove (h : Layout c.slot q) (hm : m < q.length) (hlow : 0 ≤ c.hand) (hhigh : c.hand < 8)
    (hhand : (c'.hand + 1) % 8 = c.hand) (hclear : (c'.queue c.hand).vpn = -1)
    (hmoved : ∀ d : Int, 8 - q.length + m ≤ d → d < 7 → c'.queue ((c.hand + 1 + d) % 8) = c.slot (d + 1))
    (hkept : ∀ d : Int, 0 ≤ d → d < 8 - q.length + m → c'.queue ((c.hand + 1 + d) % 8) = c.slot d) : Layout c'.slot (q.eraseIdx m) := by
  -- a slot counted from the new hand is the one before when counted from the old
  have hslot : ∀ d : Int, c'.slot d = c'.queue ((c.hand + 1 + (d - 1)) % 8) := fun d => by
    rw [Clk.slot]
    congr 1
    omega
  refine h.erase hm ?_ (fun d h1 h2 => ?_) (fun d h1 h2 => ?_)
  · rw [hslot, show (c.hand + 1 + (0 - 1)) % 8 = c.hand by omega]
    exact hclear
  · rw [hslot, hkept _ (by omega) (by omega)]
  · have := h.len
    rw [hslot, hmoved _ (by omega) (by omega), show d - 1 + 1 = d by omega]

theorem Rel.remove (hr : Rel c s) (page : Nat) :
    ∃ c', (∀ fuel, 8 < fuel → clkRemove fuel page c = some c') ∧ Rel c' { s with queue := s.queue.erase page } := by
  by_cases hmem : page ∈ s.queue
  · have hhand : 0 ≤ c.hand := by
      have := hr.low
      by_contra h
      rw [hr.cleared (by omega)] at hmem
      cases hmem
    obtain ⟨m, hm, rfl⟩ := List.mem_iff_getElem.1 hmem
    have hlen := hr.layout.len
    have hhigh := hr.high
    have hidx := hr.matchIdx_of_mem (List.getElem?_eq_getElem hm) hhand
    rw [hr.nodup.erase_getElem m hm]
    obtain ⟨queue', hs, h1, h2⟩ := shift_spec (show s.queue.length - 1 - m < 8 by omega)
      (show 0 ≤ (c.hand + 1 + (8 - s.queue.length + m)) % 8 by omega) (by omega) (show _ = c.hand by omega) c.queue
    generalize hd₀ : (8 - s.queue.length + m : Int) = d₀ at *
    refine ⟨⟨update queue' c.hand { queue' c.hand with vpn := -1 }, if c.hand = 0 then CLOCKSIZE - 1 else c.hand - 1, c.pte⟩, fun fuel hf => ?_, ?_⟩
    · rw [clkRemove, hidx, if_neg (by omega), hs fuel (by omega)]
      rfl
    · have hback : (if c.hand = 0 then CLOCKSIZE - 1 else c.hand - 1) = (c.hand + 7) % 8 := by
        rw [CLOCKSIZE]
        split <;> omega
      rw [hback]
      refine ⟨show -1 ≤ (c.hand + 7) % 8 by omega, show (c.hand + 7) % 8 < 8 by omega, fun e => ?_, ?_, hr.nodup.eraseIdx m, ?_⟩
      · have : (c.hand + 7) % 8 = -1 := e
        omega
      · refine hr.layout.remove hm hhand hhigh (show ((c.hand + 7) % 8 + 1) % 8 = c.hand by omega) ?_ (fun d hd1 hd2 => ?_) fun d hd1 hd2 => ?_
        · show (update queue' c.hand _ c.hand).vpn = -1
          rw [update_self]
        · show update queue' c.hand _ ((c.hand + 1 + d) % 8) = _
          rw [update_of_ne (by omega)]
          have := h1 (d - d₀) (by omega) (by omega)
          rw [show ((c.hand + 1 + d₀) % 8 + (d - d₀)) % 8 = (c.hand + 1 + d) % 8 by omega] at this
          rw [this, Clk.slot]
          congr 1
          omega
        · show update queue' c.hand _ ((c.hand + 1 + d) % 8) = _
          rw [update_of_ne (by omega)]
          have := h2 (d - d₀ + 8) (by omega) (by omega)
          rw [show ((c.hand + 1 + d₀) % 8 + (d - d₀ + 8)) % 8 = (c.hand + 1 + d) % 8 by omega] at this
          rw [this, Clk.slot]
      · exact ⟨hr.pages.bits, hr.pages.apart, fun v hv => hr.pages.queued v (List.mem_of_mem_eraseIdx hv)⟩
  · refine ⟨c, fun fuel _ => ?_, ?_⟩
    · rw [clkRemove, if_pos (hr.matchIdx_of_not_mem hmem)]
    · rw [List.erase_of_not_mem hmem]
      exact hr

/-! ## Whole runs -/

/-- One call: the ring and the list machine make the same step. -/
theorem Rel.call (hr : Rel c s) {op : Op} (ha : Allowed c op) :
    ∃ c' s', (∀ fuel, 8 < fuel → call fuel op c = some c') ∧ Fifo.Step op s s' ∧ Rel c' s' := by
  cases op with
  | ref page => exact hr.ref page
  | insert page =>
    obtain ⟨c', s', hs, hi, hr'⟩ := hr.insert fun hm => ha (hr.mem_ring.2 hm)
    exact ⟨c', s', hs, .insert hi, hr'⟩
  | remove page =>
    obtain ⟨c', hs, hr'⟩ := hr.remove page
    exact ⟨c', _, hs, .remove, hr'⟩

theorem sweep_mono {vpn : Int} {pte : Nat} (h : sweep vpn pte fuel c = some c') : sweep vpn pte (fuel + 1) c = some c' := by
  induction fuel generalizing c with
  | zero => cases h
  | succ fuel ih =>
    rw [sweep] at h ⊢
    split at h
    · rename_i hv
      rw [if_pos hv]
      exact h
    · rename_i hv
      rw [if_neg hv]
      split at h
      · rename_i ha
        rw [if_pos ha]
        exact h
      · rename_i ha
        rw [if_neg ha]
        exact ih h

theorem shift_mono {tail idx : Int} {queue queue' : Int → Node} (h : shift tail fuel idx queue = some queue') :
    shift tail (fuel + 1) idx queue = some queue' := by
  induction fuel generalizing idx queue with
  | zero => cases h
  | succ fuel ih =>
    rw [shift] at h ⊢
    by_cases e : idx = tail
    · rw [if_pos e] at h ⊢
      exact h
    · rw [if_neg e] at h ⊢
      exact ih h

theorem map_mono {α β : Type} {x y : Option α} {f : α → β} {b : β} (hxy : ∀ a, x = some a → y = some a) (h : x.map f = some b) : y.map f = some b := by
  obtain ⟨a, h1, h2⟩ := Option.map_eq_some_iff.1 h
  exact Option.map_eq_some_iff.2 ⟨a, hxy a h1, h2⟩

theorem clkInsert_mono {vpn : Int} {pte : Nat} (h : clkInsert fuel vpn pte c = some c') :
    clkInsert (fuel + 1) vpn pte c = some c' := map_mono (fun _ => sweep_mono) h

theorem call_mono {op : Op} (h : Clock.call fuel op c = some c') : Clock.call (fuel + 1) op c = some c' := by
  cases op with
  | insert page => exact clkInsert_mono h
  | ref page =>
    simp only [Clock.call, doRefPage] at h ⊢
    by_cases hp : c.pte page &&& PTE_P ≠ 0
    · rw [if_pos hp] at h ⊢
      exact h
    · rw [if_neg hp] at h ⊢
      exact map_mono (fun _ => clkInsert_mono) h
  | remove page =>
    simp only [Clock.call, doRemovePage, clkRemove] at h ⊢
    by_cases hm : matchIdx page c = -1
    · rw [if_pos hm] at h ⊢
      exact h
    · rw [if_neg hm] at h ⊢
      exact map_mono (fun _ => shift_mono) h

theorem call_enough {op : Op} (h : Clock.call fuel op c = some c') (k : Nat) : Clock.call (fuel + k) op c = some c' := by
  induction k with
  | zero => exact h
  | succ k ih => exact call_mono ih

/-- Every page has its entry, encrypted and not present. -/
def Encrypted (c : Clk) : Prop := ∀ page, (bits (c.pte page)).encrypted = true ∧ (bits (c.pte page)).present = false

/-- The list machine with nothing queued and the bits of `c`. -/
def Fifo.start (c : Clk) : Fifo := ⟨[], fun page => Clock.bits (c.pte page)⟩

theorem Rel.start (h : Encrypted c) : Rel (clkClear c) (Fifo.start c) := by
  refine ⟨Int.le_refl _, show (-1 : Int) < 8 by decide, fun _ => rfl, ⟨Nat.zero_le 8, fun d h0 h8 => ?_, fun i v hv => by cases hv⟩, List.nodup_nil,
    ⟨fun _ => rfl, fun v => ?_, fun v hv => by cases hv⟩⟩
  · show (if 0 ≤ (-1 + 1 + d) % 8 ∧ (-1 + 1 + d) % 8 < CLOCKSIZE then _ else _ : Node).vpn = -1
    rw [if_pos ⟨by omega, by rw [CLOCKSIZE]; omega⟩]
  · show (bits (c.pte v)).encrypted = !(bits (c.pte v)).present
    rw [(h v).1, (h v).2]
    rfl

theorem Runs.rel {c₀ : Clk} {s₀ : Fifo} {ops : List Op} (h : Runs fuel c₀ ops c) (h₀ : Rel c₀ s₀) : ∃ s, Fifo.Runs s₀ ops s ∧ Rel c s := by
  induction h with
  | nil => exact ⟨s₀, .nil, h₀⟩
  | call _ ha hc ih =>
    obtain ⟨s, hs, hr⟩ := ih
    obtain ⟨c', s', hf, hst, hr'⟩ := hr.call ha
    have : some c' = some _ := (hf (fuel + 9) (by omega)).symm.trans (call_enough hc 9)
    cases this
    exact ⟨s', .step hs hst, hr'⟩

/-- The slots from the one after the hand on: the empty ones come first. -/
def Clk.OneRun (c : Clk) : Prop :=
  ∃ n : Nat, n ≤ 8 ∧ ∀ d : Nat, d < 8 → ((c.queue ((c.hand + 1 + d).tmod CLOCKSIZE)).vpn = -1 ↔ d < n)

theorem Rel.oneRun (hr : Rel c s) : c.OneRun := by
  have hlen := hr.layout.len
  refine ⟨8 - s.queue.length, by omega, fun d hd => ?_⟩
  rw [tmod_eq (by have := hr.low; omega)]
  show (c.slot d).vpn = -1 ↔ _
  constructor
  · intro hv
    by_contra hge
    have hi : d - (8 - s.queue.length) < s.queue.length := by omega
    have := hr.layout.full _ _ (List.getElem?_eq_getElem hi)
    rw [show (8 - s.queue.length + (d - (8 - s.queue.length) : Nat) : Int) = d by omega] at this
    have hpos : 0 ≤ (c.slot d).vpn := by
      rw [this]
      exact Int.natCast_nonneg _
    omega
  · intro hlt
    exact hr.layout.empty d (by omega) (by omega)

theorem clock_refines {c₀ : Clk} (h₀ : Encrypted c₀) {fuel : Nat} {ops : List Op} {c : Clk} (h : Runs fuel (clkClear c₀) ops c) :
    (∃ s, Fifo.Runs (Fifo.start c₀) ops s ∧ c.ring = s.queue.map (fun v : Nat => (v : Int)) ∧ ∀ page, bits (c.pte page) = s.bits page) ∧
    c.OneRun ∧ c.ring.Nodup ∧ ∀ op, Allowed c op → ∃ c', ∀ fuel, 8 < fuel → call fuel op c = some c' := by
  obtain ⟨s, hs, hr⟩ := h.rel (Rel.start h₀)
  refine ⟨⟨s, hs, hr.ring, hr.pages.bits⟩, hr.oneRun, ?_, fun op ha => ?_⟩
  · rw [hr.ring]
    exact hr.nodup.map Nat.cast_injective
  · obtain ⟨c', _, hc, _, _⟩ := hr.call ha
    exact ⟨c', hc⟩

instance (c : Clk) (op : Op) : Decidable (Allowed c op) := by
  cases op <;> (unfold Allowed; infer_instance)

/-- A run, computed. -/
def calls (fuel : Nat) (c : Clk) (ops : List Op) : Option Clk := ops.foldlM (fun c op => if Allowed c op then call fuel op c else none) c

theorem runs_of_calls {c₀ : Clk} {ops : List Op} (h : calls fuel c₀ ops = some c) : Runs fuel c₀ ops c := by
  induction ops using List.reverseRecOn generalizing c with
  | nil =>
    cases h
    exact .nil
  | append_singleton ops op ih =>
    rw [calls, List.foldlM_append] at h
    obtain ⟨c₁, h1, h2⟩ := Option.bind_eq_some_iff.1 h
    rw [List.foldlM_cons] at h2
    obtain ⟨c₂, h3, h4⟩ := Option.bind_eq_some_iff.1 h2
    cases h4
    split at h3
    · rename_i ha
      exact .call (ih h1) ha h3
    · cases h3

theorem clock_refines_evict :
    ∃ c, Runs 9 (clkClear ⟨fun _ => ⟨-1, 0⟩, 0, fun _ => PTE_E⟩) (((List.range 9).map .ref) ++ [.remove 4, .insert 0]) c ∧
      c.ring = [1, 2, 3, 5, 6, 7, 8, 0] ∧ ∃ s, Fifo.Runs (Fifo.start ⟨fun _ => ⟨-1, 0⟩, 0, fun _ => PTE_E⟩) (((List.range 9).map .ref) ++ [.remove 4, .insert 0]) s ∧
      c.ring = s.queue.map (fun v : Nat => (v : Int)) := by
  have hrun : (calls 9 (clkClear ⟨fun _ => ⟨-1, 0⟩, 0, fun _ => PTE_E⟩) (((List.range 9).map .ref) ++ [.remove 4, .insert 0])).map Clk.ring =
      some [1, 2, 3, 5, 6, 7, 8, 0] := by decide +kernel
  obtain ⟨c, hc, hring⟩ := Option.map_eq_some_iff.1 hrun
  have h₀ : Encrypted ⟨fun _ => ⟨-1, 0⟩, 0, fun _ => PTE_E⟩ := fun _ => show (bits PTE_E).encrypted = true ∧ (bits PTE_E).present = false by decide
  have h := clock_refines h₀ (runs_of_calls hc)
  obtain ⟨s, hs, hq, _⟩ := h.1
  exact ⟨c, runs_of_calls hc, hring, s, hs, hq⟩

end Xv6.Clock
