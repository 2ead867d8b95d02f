/-
  Xv6.Lib.Monitor — processes that run code under one lock.

  A call takes the lock and then executes one statement at a time; a statement goes on to
  another, gives the lock up to take it again later, or releases it and returns. Events
  from outside change the data at any time. What holds of the data and the statement the
  lock's holder is at (`none` when the lock is free) is proved per statement (`Keeps`) and
  then holds in every run (`Inv.runs`).
-/

import Mathlib

namespace Xv6.Lib

open Function

inductive Next (K C : Type) where
  | goto (k : K)
  | wait (c : C)
  | leave

/-- The statement to go on at with the lock still held. -/
def Next.code {K C : Type} : Next K C → Option K
  | .goto k => some k
  | .wait _ => none
  | .leave => none

/-- Outside a call; about to take the lock; at a statement under the lock. -/
inductive Pc (K C : Type) where
  | idle
  | acquire (c : C)
  | locked (k : K)
  deriving DecidableEq

structure Monitor (P D K C X : Type) where
  entry : C → K
  /-- whether a process may take the free lock -/
  ready : P → D → Bool
  exec : P → D → K → D × Next K C
  outside : X → D → D

namespace Monitor

variable {P D K C X : Type} [DecidableEq P]

structure St (P D K C : Type) where
  data : D
  lock : Option P
  pc : P → Pc K C

def St.start (d : D) : St P D K C := ⟨d, none, fun _ => .idle⟩

inductive Ev (P C X : Type) where
  | call (p : P) (c : C)
  | step (p : P)
  | outside (x : X)

variable (M : Monitor P D K C X)

/-- What `p` does at the statement `k`, under the lock. -/
def stmt (s : St P D K C) (p : P) (k : K) : St P D K C := match M.exec p s.data k with
  | (d, .goto k') => { s with data := d, pc := Function.update s.pc p (.locked k') }
  | (d, .wait c) => { data := d, lock := none, pc := Function.update s.pc p (.acquire c) }
  | (d, .leave) => { data := d, lock := none, pc := Function.update s.pc p .idle }

/-- One event. A step of a process that may not take the lock now does nothing. -/
def step (s : St P D K C) : Ev P C X → St P D K C
  | .call p c => match s.pc p with
    | .idle => { s with pc := Function.update s.pc p (.acquire c) }
    | _ => s
  | .step p => match s.pc p with
    | .idle => s
    | .acquire c =>
      if s.lock = none ∧ M.ready p s.data = true then
        { s with lock := some p, pc := Function.update s.pc p (.locked (M.entry c)) }
      else s
    | .locked k => M.stmt s p k
  | .outside x => { s with data := M.outside x s.data }

def runs (s : St P D K C) (es : List (Ev P C X)) : St P D K C := es.foldl M.step s

/-- Every step of the run meets the condition in the state it is taken in. -/
def Along (ok : St P D K C → Ev P C X → Prop) : St P D K C → List (Ev P C X) → Prop
  | _, [] => True
  | s, e :: es => ok s e ∧ Along ok (M.step s e) es

/-- The condition `ok` on the statement a process is about to execute. -/
def Stmts (ok : P → D → K → Prop) (s : St P D K C) : Ev P C X → Prop
  | .step p => ∀ k, s.pc p = .locked k → ok p s.data k
  | _ => True

theorem along_of_forall {ok : St P D K C → Ev P C X → Prop} (h : ∀ s e, ok s e) (s : St P D K C)
    (es : List (Ev P C X)) : M.Along ok s es := by
  induction es generalizing s with
  | nil => trivial
  | cons e es ih => exact ⟨h s e, ih _⟩

/-! ## Invariants -/

/-- The lock is free, no process is under it and `J` holds without a statement; or one
    process holds it, only that one is under it, and `J` holds at its statement. -/
inductive Inv (J : D → Option K → Prop) (s : St P D K C) : Prop where
  | free (hl : s.lock = none) (hp : ∀ p k, s.pc p ≠ .locked k) (hj : J s.data none)
  | held (p : P) (k : K) (hl : s.lock = some p) (hk : s.pc p = .locked k) (hp : ∀ q k', s.pc q = .locked k' → q = p)
      (hj : J s.data (some k))

structure Keeps (ok : P → D → K → Prop) (J : D → Option K → Prop) : Prop where
  enter : ∀ d c, J d none → J d (some (M.entry c))
  exec : ∀ p d k, ok p d k → J d (some k) → J (M.exec p d k).1 (M.exec p d k).2.code
  outside : ∀ x d o, J d o → J (M.outside x d) o

variable {M} {J : D → Option K → Prop} {ok : P → D → K → Prop} {s : St P D K C}

omit [DecidableEq P] in
theorem Inv.start {d : D} (h : J d none) : Inv J (St.start d : St P D K C) :=
  .free rfl (fun _ _ => by simp [St.start]) h

omit [DecidableEq P] in
theorem Inv.lock_free (h : Inv J s) (hl : s.lock = none) : J s.data none := by
  cases h with
  | free _ _ hj => exact hj
  | held p k hl' _ _ _ => rw [hl] at hl'; cases hl'

omit [DecidableEq P] in
theorem Inv.at_stmt (h : Inv J s) {p : P} {k : K} (hk : s.pc p = .locked k) : s.lock = some p ∧ J s.data (some k) := by
  cases h with
  | free _ hp _ => exact absurd hk (hp p k)
  | held q k' hl hk' hp hj =>
    obtain rfl := hp p k hk
    rw [hk'] at hk
    cases hk
    exact ⟨hl, hj⟩

theorem Inv.stmt (hM : M.Keeps ok J) (h : Inv J s) {p : P} {k : K} (hk : s.pc p = .locked k) (he : ok p s.data k) :
    Inv J (M.stmt s p k) := by
  have hj := hM.exec p s.data k he (h.at_stmt hk).2
  have hother : ∀ q ≠ p, ∀ k', s.pc q ≠ .locked k' := by
    intro q hq k' hk'
    have := (h.at_stmt hk).1
    rw [(h.at_stmt hk').1] at this
    exact hq (Option.some.inj this)
  unfold Monitor.stmt
  split
  · rename_i d k' hx
    rw [hx] at hj
    refine .held p k' (h.at_stmt hk).1 (update_self ..) (fun q k'' hq => ?_) hj
    by_contra e
    simp only [update_of_ne e] at hq
    exact hother q e k'' hq
  all_goals
    rename_i hx
    rw [hx] at hj
    refine .free rfl (fun q k'' hq => ?_) hj
    by_cases e : q = p
    · subst e; simp only [update_self] at hq; cases hq
    · simp only [update_of_ne e] at hq; exact hother q e k'' hq

/-- A process outside the lock that stays outside it changes nothing. -/
theorem Inv.move (h : Inv J s) {p : P} {x : Pc K C} (hp : ∀ k, s.pc p ≠ .locked k) (hx : ∀ k, x ≠ .locked k) :
    Inv J { s with pc := update s.pc p x } := by
  have hne : ∀ q k, update s.pc p x q = .locked k → s.pc q = .locked k := by
    intro q k hq
    by_cases e : q = p
    · subst e; rw [update_self] at hq; exact absurd hq (hx k)
    · rwa [update_of_ne e] at hq
  cases h with
  | free hl hp' hj => exact .free hl (fun q k hq => hp' q k (hne q k hq)) hj
  | held q k hl hk hp' hj =>
    have e : q ≠ p := by intro e; subst e; exact hp k hk
    exact .held q k hl (by simp only [update_of_ne e]; exact hk) (fun q' k' hq => hp' q' k' (hne q' k' hq)) hj

theorem Inv.step (hM : M.Keeps ok J) (h : Inv J s) (e : Ev P C X) (he : Stmts ok s e) : Inv J (M.step s e) := by
  cases e with
  | call p c =>
    simp only [Monitor.step]
    split
    · rename_i hp
      exact h.move (fun k hk => by rw [hp] at hk; cases hk) (fun k hk => by cases hk)
    · exact h
  | step p =>
    simp only [Monitor.step]
    split
    · exact h
    · rename_i c hp
      split
      · rename_i hr
        cases h with
        | held q k hl _ _ _ => rw [hr.1] at hl; cases hl
        | free _ hn hj =>
          refine .held p (M.entry c) rfl (update_self ..) (fun q k' hq => ?_) (hM.enter _ c hj)
          by_contra e
          simp only [update_of_ne e] at hq
          exact hn q k' hq
      · exact h
    · rename_i k hk
      exact h.stmt hM hk (he k hk)
  | outside x =>
    cases h with
    | free hl hp hj => exact .free hl hp (hM.outside x _ _ hj)
    | held p k hl hk hp hj => exact .held p k hl hk hp (hM.outside x _ _ hj)

theorem Inv.runs (hM : M.Keeps ok J) (h : Inv J s) (es : List (Ev P C X)) (he : M.Along (Stmts ok) s es) :
    Inv J (M.runs s es) := by
  induction es generalizing s with
  | nil => exact h
  | cons e es ih => exact ih (h.step hM e he.1) he.2

end Monitor

end Xv6.Lib
