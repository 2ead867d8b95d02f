/-
  Xv6.Lib.Sums — sums over the threads when one or two of them change.
-/

import Mathlib

namespace Xv6.Lib

variable {P : Type} [Fintype P] [DecidableEq P] {F G : P → Nat} {p q : P}

/-- Sums that differ in one place. -/
theorem sum_change (h : ∀ q, q ≠ p → F q = G q) : ∑ q, F q + G p = ∑ q, G q + F p := by
  have hF := Finset.add_sum_erase _ F (Finset.mem_univ p)
  have hG := Finset.add_sum_erase _ G (Finset.mem_univ p)
  have hrest : ∑ q ∈ Finset.univ.erase p, F q = ∑ q ∈ Finset.univ.erase p, G q :=
    Finset.sum_congr rfl fun q hq => h q (Finset.ne_of_mem_erase hq)
  omega

/-- Sums that differ in two places. -/
theorem sum_change₂ (hpq : p ≠ q) (h : ∀ x, x ≠ p → x ≠ q → F x = G x) :
    ∑ x, F x + G p + G q = ∑ x, G x + F p + F q := by
  have h1 := sum_change (p := p) (F := F) (G := fun x => if x = p then G x else F x) fun x hx => by rw [if_neg hx]
  have h2 := sum_change (p := q) (F := fun x => if x = p then G x else F x) (G := G) fun x hx => by
    split
    · rfl
    · rename_i hp; exact h x hp hx
  rw [if_pos rfl] at h1
  rw [if_neg hpq.symm] at h2
  omega

end Xv6.Lib
