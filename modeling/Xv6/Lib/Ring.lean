/-
  Xv6.Lib.Ring — a ring of `cap` cells under two free-running `w`-bit counters.

  The cell of an index is the index mod `cap`. When `cap` divides `2 ^ w` the counters may
  wrap: the ring still is the queue `items`, `put` appends to it and `pop` takes its head.
-/

import Mathlib

namespace Xv6.Lib

open Function List

structure Ring (α : Type) (cap w : Nat) where
  data : Nat → α
  nread : BitVec w
  nwrite : BitVec w

namespace Ring

variable {α : Type} {cap w : Nat} (r : Ring α cap w)

def full : Bool := r.nwrite == r.nread + BitVec.ofNat w cap

def empty : Bool := r.nread == r.nwrite

def put (a : α) : Ring α cap w :=
  { r with data := Function.update r.data (r.nwrite.toNat % cap) a, nwrite := r.nwrite + 1 }

def front : α := r.data (r.nread.toNat % cap)

def pop : Ring α cap w := { r with nread := r.nread + 1 }

/-- The number of cells between the counters. -/
def length : Nat := (r.nwrite - r.nread).toNat

def cell (k : Nat) : α := r.data ((r.nread.toNat + k) % cap)

/-- The cells from the read counter to the write counter. -/
def items : List α := (List.range r.length).map r.cell

@[simp] theorem length_items : r.items.length = r.length := by simp [items]

theorem empty_iff : r.empty = true ↔ r.length = 0 := by
  simp only [empty, length, beq_iff_eq]
  constructor
  · intro h; simp [h]
  · intro h
    have h1 := r.nread.isLt
    have h2 := r.nwrite.isLt
    rw [BitVec.toNat_sub] at h
    apply BitVec.eq_of_toNat_eq
    have : 2 ^ w ∣ 2 ^ w - r.nread.toNat + r.nwrite.toNat := Nat.dvd_of_mod_eq_zero h
    obtain ⟨c, hc⟩ := this
    rcases c with _ | _ | c
    · omega
    · omega
    · have : 2 ^ w * (c + 1 + 1) = 2 ^ w * c + 2 ^ w + 2 ^ w := by ring
      omega

theorem length_pop (h : 0 < r.length) : r.pop.length + 1 = r.length := by
  have h1 : (1 : BitVec w).toNat = 1 % 2 ^ w := BitVec.toNat_ofNat 1 w
  have e : r.nwrite - (r.nread + 1) = (r.nwrite - r.nread) - 1 := by
    rw [BitVec.sub_eq_add_neg, BitVec.sub_eq_add_neg, BitVec.sub_eq_add_neg, BitVec.neg_add, BitVec.sub_eq_add_neg,
      BitVec.add_assoc]
  have hlt := (r.nwrite - r.nread).isLt
  simp only [length, pop, e] at h ⊢
  have h1' : (1 : BitVec w).toNat = 1 := by rw [h1, Nat.mod_eq_of_lt (by omega)]
  rw [BitVec.toNat_sub, h1']
  have : 2 ^ w - 1 + (r.nwrite - r.nread).toNat = ((r.nwrite - r.nread).toNat - 1) + 2 ^ w := by omega
  rw [this, Nat.add_mod_right, Nat.mod_eq_of_lt (by omega)]
  omega

theorem full_iff (hc : cap < 2 ^ w) : r.full = true ↔ r.length = cap := by
  simp only [full, length, beq_iff_eq]
  constructor
  · intro h
    rw [h, BitVec.add_comm, BitVec.add_sub_cancel, BitVec.toNat_ofNat, Nat.mod_eq_of_lt hc]
  · intro h
    have : r.nwrite - r.nread = BitVec.ofNat w cap := by
      apply BitVec.eq_of_toNat_eq
      rw [h, BitVec.toNat_ofNat, Nat.mod_eq_of_lt hc]
    rw [← this, BitVec.add_comm, BitVec.sub_add_cancel]

theorem length_put (hc : cap < 2 ^ w) (a : α) (h : r.length < cap) : (r.put a).length = r.length + 1 := by
  have e : r.nwrite + 1 - r.nread = (r.nwrite - r.nread) + 1 := by
    rw [BitVec.sub_eq_add_neg, BitVec.sub_eq_add_neg, BitVec.add_assoc, BitVec.add_comm 1, ← BitVec.add_assoc]
  simp only [length, put, e] at h ⊢
  have h1 : (1 : BitVec w).toNat = 1 := by
    show (BitVec.ofNat w 1).toNat = 1
    rw [BitVec.toNat_ofNat, Nat.mod_eq_of_lt (by omega)]
  rw [BitVec.toNat_add, h1, Nat.mod_eq_of_lt (by omega)]

/-- The write counter is the read counter plus the length, mod `2 ^ w` and so mod `cap`. -/
theorem nwrite_mod (hd : cap ∣ 2 ^ w) : r.nwrite.toNat % cap = (r.nread.toNat + r.length) % cap := by
  have h : r.nwrite = r.nread + (r.nwrite - r.nread) := by
    rw [BitVec.add_comm, BitVec.sub_add_cancel]
  have h := congrArg BitVec.toNat h
  rw [BitVec.toNat_add] at h
  rw [h, Nat.mod_mod_of_dvd _ hd]
  rfl

/-- Storing in a cell past the items, less than a whole turn from the first, leaves them. -/
theorem items_update {k : Nat} (hk : r.length ≤ k) (hc : k < cap) (a : α) :
    (⟨update r.data ((r.nread.toNat + k) % cap) a, r.nread, r.nwrite⟩ : Ring α cap w).items = r.items := by
  refine map_congr_left fun j hj => update_of_ne (fun he => ?_) _ _
  have hj : j < r.length := mem_range.mp hj
  have he : r.nread.toNat + j ≡ r.nread.toNat + k [MOD cap] := he
  have he := Nat.ModEq.add_left_cancel' _ he
  exact absurd (Nat.ModEq.eq_of_lt_of_lt he (by omega) hc) (by omega)

theorem items_put (hc : cap < 2 ^ w) (hd : cap ∣ 2 ^ w) (a : α) (h : r.length < cap) : (r.put a).items = r.items ++ [a] := by
  have hl := r.length_put hc a h
  have hitems := r.items_update le_rfl h a
  have hlast : (r.put a).cell r.length = a := by
    simp only [cell, put, r.nwrite_mod hd, update_self]
  rw [← r.nwrite_mod hd] at hitems
  rw [items, hl, range_succ, map_append, map_singleton, hlast]
  exact congrArg (· ++ [a]) hitems

theorem items_pop (hd : cap ∣ 2 ^ w) (h : 0 < r.length) : r.items = r.front :: r.pop.items := by
  have hl := r.length_pop h
  have hcell : ∀ k, r.pop.cell k = r.cell (k + 1) := by
    intro k
    have h1 : (r.nread + 1).toNat ≡ r.nread.toNat + 1 [MOD cap] := by
      have : (1 : BitVec w).toNat ≡ 1 [MOD cap] := by
        show (BitVec.ofNat w 1).toNat % cap = 1 % cap
        rw [BitVec.toNat_ofNat, Nat.mod_mod_of_dvd _ hd]
      show (r.nread + 1).toNat % cap = _
      rw [BitVec.toNat_add, Nat.mod_mod_of_dvd _ hd]
      exact this.add_left _
    have h2 := h1.add_right k
    rw [Nat.add_assoc, Nat.add_comm 1] at h2
    exact congrArg r.data h2
  unfold items
  rw [← hl, range_succ_eq_map, map_cons, map_map]
  congr 1
  exact map_congr_left fun k _ => (hcell k).symm

/-- Taking back the last `put`. -/
def unput : Ring α cap w := { r with nwrite := r.nwrite - 1 }

def back : α := r.data ((r.nwrite - 1).toNat % cap)

theorem put_unput : r.unput.put r.back = r := by
  simp only [put, unput, back, update_eq_self, BitVec.sub_add_cancel]

theorem length_unput (h : 0 < r.length) : r.unput.length + 1 = r.length := by
  have e : r.nwrite - 1 - r.nread = r.nwrite - (r.nread + 1) := by
    rw [BitVec.sub_sub, BitVec.add_comm]
  have hp := r.length_pop h
  simp only [length, pop, unput, e] at hp ⊢
  exact hp

theorem items_unput (hc : cap < 2 ^ w) (hd : cap ∣ 2 ^ w) (h : 0 < r.length) (hle : r.length ≤ cap) :
    r.items = r.unput.items ++ [r.back] := by
  have hl := r.length_unput h
  have hp := r.unput.items_put hc hd r.back (by omega)
  rwa [put_unput] at hp

section Join

variable (data : Nat → α) (a b c : BitVec w)

theorem length_join (h : (b - a).toNat + (c - b).toNat < 2 ^ w) : (c - a).toNat = (b - a).toNat + (c - b).toNat := by
  have e : c - a = (b - a) + (c - b) := by ring
  rw [e, BitVec.toNat_add, Nat.mod_eq_of_lt h]

/-- The items up to `b` and those from `b` on. -/
theorem items_join (hd : cap ∣ 2 ^ w) (h : (b - a).toNat + (c - b).toNat < 2 ^ w) :
    (⟨data, a, c⟩ : Ring α cap w).items = (⟨data, a, b⟩ : Ring α cap w).items ++ (⟨data, b, c⟩ : Ring α cap w).items := by
  have hb : b.toNat % cap = (a.toNat + (b - a).toNat) % cap := nwrite_mod (⟨data, a, b⟩ : Ring α cap w) hd
  unfold items
  show (range (c - a).toNat).map _ = (range (b - a).toNat).map _ ++ (range (c - b).toNat).map _
  rw [length_join a b c h, range_add, map_append, map_map]
  congr 1
  refine map_congr_left fun k _ => congrArg data ?_
  show (a.toNat + ((b - a).toNat + k)) % cap = (b.toNat + k) % cap
  rw [← Nat.add_assoc, Nat.add_mod, ← hb, ← Nat.add_mod]

end Join

end Ring

end Xv6.Lib
