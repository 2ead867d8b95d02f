/-
  Xv6.Lib.Shared — objects that are locked and counted.

  `Held owner holds`: the owner each lock records is the one that holds it, and nobody
  holds two. `Counted ref target`: each object's count is the number of references to it;
  the references may be any in number, finitely many to one object.
-/

import Mathlib

namespace Xv6.Lib.Shared

open Function

variable {I O H : Type}

/-! ## Locks -/

def Held (owner : I → Option O) (holds : O → Option I) : Prop := ∀ i o, owner i = some o ↔ holds o = some i

variable {owner : I → Option O} {holds : O → Option I}

theorem Held.excl (h : Held owner holds) {i : I} {o : O}
    (ho : holds o = some i) (x : O) (hx : holds x = some i) : x = o := by
  rw [← h] at ho hx
  exact Option.some.inj (hx.symm.trans ho)

theorem Held.take [DecidableEq I] [DecidableEq O] (h : Held owner holds) {i : I} {o : O}
    (hi : owner i = none) (ho : holds o = none) :
    Held (update owner i (some o)) (update holds o (some i)) := by
  intro j q
  by_cases ej : j = i
  · subst ej
    by_cases eq : q = o
    · subst eq; simp
    · have : holds q ≠ some j := fun hq => by rw [← h, hi] at hq; cases hq
      simp [eq, Ne.symm eq, this]
  · by_cases eq : q = o
    · subst eq
      have : owner j ≠ some q := fun hq => by rw [h, ho] at hq; cases hq
      simp [ej, Ne.symm ej, this]
    · simpa [ej, eq] using h j q

theorem Held.drop [DecidableEq I] [DecidableEq O] (h : Held owner holds) {i : I} {o : O}
    (ho : holds o = some i) : Held (update owner i none) (update holds o none) := by
  have hi := (h i o).mpr ho
  intro j q
  by_cases ej : j = i
  · subst ej
    by_cases eq : q = o
    · subst eq; simp
    · have : holds q ≠ some j := fun hq => by rw [← h, hi] at hq; exact eq (Option.some.inj hq).symm
      simp [eq, this]
  · by_cases eq : q = o
    · subst eq
      have : owner j ≠ some q := fun hq => by rw [h, ho] at hq; exact ej (Option.some.inj hq).symm
      simp [ej, this]
    · simpa [ej, eq] using h j q

/-! ## References -/

def users (target : H → Option I) (i : I) : Set H := {h | target h = some i}

structure Counted (ref : I → Nat) (target : H → Option I) : Prop where
  finite : ∀ i, (users target i).Finite
  count : ∀ i, ref i = (users target i).ncard

variable {ref : I → Nat} {target : H → Option I}

theorem Counted.pos (c : Counted ref target) {h : H} {i : I} (hi : target h = some i) : 0 < ref i := by
  rw [c.count]
  exact (Set.ncard_pos (c.finite i)).mpr ⟨h, hi⟩

/-- A count of one leaves no second reference. -/
theorem Counted.sole (c : Counted ref target) {i : I} (h1 : ref i = 1) {h h' : H} (hi : target h = some i)
    (hi' : target h' = some i) : h' = h := by
  rw [c.count, Set.ncard_eq_one] at h1
  obtain ⟨x, hx⟩ := h1
  have e : h ∈ users target i := hi
  have e' : h' ∈ users target i := hi'
  rw [hx] at e e'
  rw [Set.mem_singleton_iff.mp e, Set.mem_singleton_iff.mp e']

theorem Counted.enter [DecidableEq I] [DecidableEq H] (c : Counted ref target) {h : H} (hn : target h = none) (i : I) :
    Counted (update ref i (ref i + 1)) (update target h (some i)) := by
  have hu : ∀ j, users (update target h (some i)) j =
      if j = i then insert h (users target i) else users target j := by
    intro j
    ext x
    by_cases ex : x = h
    · subst ex
      by_cases ej : j = i
      · simp [users, ej]
      · simp [users, ej, hn, Ne.symm ej]
    · by_cases ej : j = i
      · subst ej; simp [users, ex]
      · simp [users, ex, ej]
  have hh : h ∉ users target i := fun e => by cases hn.symm.trans (show target h = some i from e)
  refine ⟨fun j => ?_, fun j => ?_⟩
  · rw [hu]
    split
    · exact (c.finite i).insert h
    · exact c.finite j
  · rw [hu]
    by_cases ej : j = i
    · subst ej
      rw [update_self, if_pos rfl, Set.ncard_insert_of_notMem hh (c.finite j), c.count]
    · rw [update_of_ne ej, if_neg ej, c.count]

theorem Counted.leave [DecidableEq I] [DecidableEq H] (c : Counted ref target) {h : H} {i : I} (hi : target h = some i) :
    Counted (update ref i (ref i - 1)) (update target h none) := by
  have hu : ∀ j, users (update target h none) j = if j = i then users target i \ {h} else users target j := by
    intro j
    ext x
    by_cases ex : x = h
    · subst ex
      by_cases ej : j = i
      · simp [users, ej]
      · simp [users, ej, hi, Ne.symm ej]
    · by_cases ej : j = i
      · subst ej; simp [users, ex]
      · simp [users, ex, ej]
  refine ⟨fun j => ?_, fun j => ?_⟩
  · rw [hu]
    split
    · exact (c.finite i).subset Set.sdiff_subset
    · exact c.finite j
  · rw [hu]
    by_cases ej : j = i
    · subst ej
      rw [update_self, if_pos rfl, Set.ncard_sdiff_singleton_of_mem (show h ∈ users target j from hi), c.count]
    · rw [update_of_ne ej, if_neg ej, c.count]

end Xv6.Lib.Shared
