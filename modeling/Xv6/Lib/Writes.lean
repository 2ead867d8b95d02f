/-
  Xv6.Lib.Writes — sequences of single-cell writes to a store, cut off by crashes.

  A store maps addresses to values; a write sequence is applied in order. A crash
  leaves the store some prefix of the sequence has produced. `Recovers prog` is a
  program run any number of times, each run cut off after any prefix of its writes,
  then once to its end; `recovers_inv` is the rule for it: an invariant that every
  prefix of a run keeps, and that a complete run turns into the postcondition.
-/

import Mathlib

namespace Xv6.Lib.Writes

open Function

variable {A V : Type} [DecidableEq A]

def after (d : A → V) (ws : List (A × V)) : A → V := ws.foldl (fun d w => Function.update d w.1 w.2) d

@[simp] theorem after_nil (d : A → V) : after d [] = d := rfl

@[simp] theorem after_cons (d : A → V) (w : A × V) (ws : List (A × V)) :
    after d (w :: ws) = after (update d w.1 w.2) ws := rfl

theorem after_append (d : A → V) (ws vs : List (A × V)) : after d (ws ++ vs) = after (after d ws) vs :=
  List.foldl_append

/-- A cell no write touches keeps its value. -/
theorem after_other {ws : List (A × V)} {a : A} (d : A → V) (h : ∀ w ∈ ws, w.1 ≠ a) : after d ws a = d a := by
  induction ws generalizing d with
  | nil => rfl
  | cons w ws ih =>
    rw [after_cons, ih _ (fun v hv => h v (List.mem_cons_of_mem _ hv))]
    exact update_of_ne (h w List.mem_cons_self).symm _ _

/-- Writes indexed by `ts`, agreeing where they hit the same cell, leave each cell they
    hit with its value. -/
theorem after_index {T : Type} {ts : List T} (addr : T → A) (val : T → V) {t : T} (d : A → V)
    (agree : ∀ u ∈ ts, ∀ v ∈ ts, addr u = addr v → val u = val v) (ht : t ∈ ts) :
    after d (ts.map fun u => (addr u, val u)) (addr t) = val t := by
  induction ts using List.reverseRecOn with
  | nil => cases ht
  | append_singleton ts u ih =>
    rw [List.map_append, after_append, List.map_singleton, after_cons, after_nil]
    by_cases e : addr t = addr u
    · rw [e, update_self]
      exact agree u (by simp) t ht e.symm
    · rw [update_of_ne e]
      refine ih (fun v hv w hw => agree v (by simp [hv]) w (by simp [hw])) ?_
      rcases List.mem_append.mp ht with ht | ht
      · exact ht
      · exact absurd (congrArg addr (List.mem_singleton.mp ht)) e

/-! ## Runs cut off by crashes -/

/-- `prog d` is the writes a run started on `d` issues. -/
inductive Recovers (prog : (A → V) → List (A × V)) : (A → V) → (A → V) → Prop
  | done (d : A → V) : Recovers prog d (after d (prog d))
  | cut {d d' : A → V} (k : Nat) : Recovers prog (after d ((prog d).take k)) d' → Recovers prog d d'

theorem recovers_inv {prog : (A → V) → List (A × V)} {P Q : (A → V) → Prop}
    (keep : ∀ d, P d → ∀ k, P (after d ((prog d).take k))) (last : ∀ d, P d → Q (after d (prog d)))
    {d d' : A → V} (h : Recovers prog d d') (hP : P d) : Q d' := by
  induction h with
  | done d => exact last d hP
  | cut k _ ih => exact ih (keep _ hP k)

end Xv6.Lib.Writes
