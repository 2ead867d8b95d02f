/-
  Xv6.Lib.Prog — programs of atomic actions, run alone or interleaved, and local
  reasoning about them.

  A program performs actions from `A` and goes on with their results. `exec` says what an
  action does to the state: it gives a result, it waits (and is tried again), or it fails,
  which stops the machine. `Ends` says what a program run alone comes to. A pool runs one
  program per thread, an action at a time, in any order.

  Local reasoning: every thread has a resource, `spec` says what an action needs of it and
  makes of it, and `wp` what a whole program does. `World` ties the threads' resources to
  the state. If every action keeps `World` under its `spec` (`Sound`), then a pool whose
  programs are all good for their resources stays so (`Good.runs`), whatever the order.
-/

import Mathlib

namespace Xv6.Lib

open Function

inductive Prog (A : Type) (Res : A → Type) (α : Type) where
  | ret (x : α)
  | act (a : A) (k : Res a → Prog A Res α)

inductive Out (E X : Type) where
  | ok (x : X)
  | wait
  | fail (e : E)

namespace Prog

variable {A : Type} {Res : A → Type} {α β γ : Type}

def bind : Prog A Res α → (α → Prog A Res β) → Prog A Res β
  | ret x, f => f x
  | act a k, f => act a fun r => (k r).bind f

instance : Monad (Prog A Res) where
  pure := ret
  bind := bind

def perform (a : A) : Prog A Res (Res a) := act a ret

@[simp] theorem pure_eq (x : α) : (pure x : Prog A Res α) = ret x := rfl

@[simp] theorem ret_bind (x : α) (f : α → Prog A Res β) : (ret x >>= f) = f x := rfl

@[simp] theorem act_bind (a : A) (k : Res a → Prog A Res α) (f : α → Prog A Res β) :
    (act a k >>= f) = act a fun r => k r >>= f := rfl

@[simp] theorem perform_bind (a : A) (f : Res a → Prog A Res β) : (perform a >>= f) = act a f := rfl

theorem bind_assoc (c : Prog A Res α) (f : α → Prog A Res β) (g : β → Prog A Res γ) :
    (c >>= f >>= g) = (c >>= fun x => f x >>= g) := by
  induction c with
  | ret x => rfl
  | act a k ih => exact congrArg (act a) (funext fun r => ih r)

theorem bind_ret (c : Prog A Res α) : (c >>= ret) = c := by
  induction c with
  | ret x => rfl
  | act a k ih => exact congrArg (act a) (funext fun r => ih r)

/-- Every action the program can come to satisfies `ok`. -/
def All (ok : A → Prop) : Prog A Res α → Prop
  | ret _ => True
  | act a k => ok a ∧ ∀ r, (k r).All ok

theorem All.step {ok : A → Prop} {a : A} {f : Res a → Prog A Res β} (ha : ok a) (hf : ∀ r, (f r).All ok) :
    (perform a >>= f).All ok := ⟨ha, hf⟩

variable {c : Prog A Res α} {f : α → Prog A Res β}

theorem All.bind {ok : A → Prop} (hc : c.All ok) (hf : ∀ x, (f x).All ok) : (c >>= f).All ok := by
  induction c with
  | ret x => exact hf x
  | act a k ih => exact ⟨hc.1, fun r => ih r (hc.2 r)⟩

/-! ## Running alone -/

variable {P S E : Type} (exec : P → (a : A) → S → Out E (Res a × S))

def run (p : P) : Prog A Res α → S → Out E (α × S)
  | ret x, s => .ok (x, s)
  | act a k, s => match exec p a s with
    | .ok (r, s') => (k r).run p s'
    | .wait => .wait
    | .fail e => .fail e

@[simp] theorem run_ret (p : P) (x : α) (s : S) : run exec p (ret x) s = .ok (x, s) := rfl

theorem run_act (p : P) (a : A) (k : Res a → Prog A Res α) {s s' : S} {r : Res a} (h : exec p a s = .ok (r, s')) :
    run exec p (act a k) s = run exec p (k r) s' := by simp only [run, h]

theorem run_bind (p : P) (c : Prog A Res α) (f : α → Prog A Res β) (s : S) :
    run exec p (c >>= f) s = match run exec p c s with
      | .ok (x, s') => run exec p (f x) s'
      | .wait => .wait
      | .fail e => .fail e := by
  induction c generalizing s with
  | ret x => rfl
  | act a k ih =>
    simp only [act_bind, run]
    cases h : exec p a s with
    | ok x => exact ih x.1 x.2
    | wait => rfl
    | fail e => rfl

theorem run_bind_ok {p : P} {s s' : S} {x : α}
    (h : run exec p c s = .ok (x, s')) : run exec p (c >>= f) s = run exec p (f x) s' := by
  rw [run_bind, h]

theorem run_act_inv {p : P} {a : A} {k : Res a → Prog A Res α} {s s'' : S} {x : α}
    (h : run exec p (act a k) s = .ok (x, s'')) : ∃ r s', exec p a s = .ok (r, s') ∧ run exec p (k r) s' = .ok (x, s'') := by
  simp only [run] at h
  cases ha : exec p a s with
  | ok y => rw [ha] at h; exact ⟨y.1, y.2, rfl, h⟩
  | wait => rw [ha] at h; cases h
  | fail e => rw [ha] at h; cases h

/-- A run of `c >>= f` that gives a result is one of `c` and one of `f`. -/
theorem run_bind_inv {p : P} {s s'' : S} {y : β} (h : run exec p (c >>= f) s = .ok (y, s'')) :
    ∃ x s', run exec p c s = .ok (x, s') ∧ run exec p (f x) s' = .ok (y, s'') := by
  rw [run_bind] at h
  cases hc : run exec p c s with
  | ok x => rw [hc] at h; exact ⟨x.1, x.2, rfl, h⟩
  | wait => rw [hc] at h; cases h
  | fail e => rw [hc] at h; cases h

/-- Run alone from `s`, the program ends in `Q`, or fails in `B`, or comes to wait and `W` holds. -/
def Ends (p : P) (c : Prog A Res α) (s : S) (Q : α → S → Prop) (B : E → Prop) (W : Prop) : Prop :=
  match run exec p c s with
  | .ok (x, s') => Q x s'
  | .wait => W
  | .fail e => B e

variable {exec} {p : P} {s : S} {B : E → Prop} {W : Prop}

instance Ends.decidable {c : Prog A Res α} {Q : α → S → Prop} [∀ x s, Decidable (Q x s)] [DecidablePred B] [Decidable W] :
    Decidable (Ends exec p c s Q B W) :=
  match h : run exec p c s with
  | .ok (x, s') => decidable_of_iff (Q x s') (by rw [Ends, h])
  | .wait => decidable_of_iff W (by rw [Ends, h])
  | .fail e => decidable_of_iff (B e) (by rw [Ends, h])

variable {Q : α → S → Prop}

theorem Ends.ret {x : α} (h : Q x s) : Ends exec p (ret x) s Q B W := h

theorem Ends.act {a : A} {k : Res a → Prog A Res α} {r : Res a} {s' : S}
    (hx : exec p a s = .ok (r, s')) (h : Ends exec p (k r) s' Q B W) : Ends exec p (act a k) s Q B W := by
  unfold Ends
  rw [run_act exec p a k hx]
  exact h

theorem Ends.fail {a : A} {k : Res a → Prog A Res α} {e : E} (hx : exec p a s = .fail e) (h : B e) :
    Ends exec p (Prog.act a k) s Q B W := by
  simp only [Ends, run, hx]
  exact h

theorem Ends.wait {a : A} {k : Res a → Prog A Res α} (hx : exec p a s = .wait) (h : W) :
    Ends exec p (Prog.act a k) s Q B W := by
  simp only [Ends, run, hx]
  exact h

theorem Ends.bind {Q : β → S → Prop}
    (h : Ends exec p c s (fun x s' => Ends exec p (f x) s' Q B W) B W) : Ends exec p (c >>= f) s Q B W := by
  unfold Ends at h ⊢
  rw [run_bind]
  cases hc : run exec p c s with
  | ok x => rw [hc] at h; exact h
  | wait => rw [hc] at h; exact h
  | fail e => rw [hc] at h; exact h

theorem Ends.mono {Q' : α → S → Prop} {B' : E → Prop} {W' : Prop} (h : Ends exec p c s Q B W)
    (hQ : ∀ x s', run exec p c s = .ok (x, s') → Q x s' → Q' x s') (hB : ∀ e, B e → B' e) (hW : W → W') :
    Ends exec p c s Q' B' W' := by
  unfold Ends at h ⊢
  cases hc : run exec p c s with
  | ok x => rw [hc] at h; exact hQ _ _ hc h
  | wait => rw [hc] at h; exact hW h
  | fail e => rw [hc] at h; exact hB _ h

theorem Ends.of_run {x : α} {s' : S} (h : Ends exec p c s Q B W) (hr : run exec p c s = .ok (x, s')) : Q x s' := by
  unfold Ends at h
  rw [hr] at h
  exact h

/-- Of a program that may fail or wait: what holds of its results. -/
theorem Ends.of_ok (h : ∀ x s', run exec p c s = .ok (x, s') → Q x s') : Ends exec p c s Q (fun _ => True) True := by
  unfold Ends
  cases hc : run exec p c s with
  | ok x => exact h x.1 x.2 hc
  | wait => trivial
  | fail e => trivial

/-- What every action the program can come to keeps, the program keeps. -/
theorem All.keeps {ok : A → Prop} {J : S → Prop} (hc : c.All ok)
    (hstep : ∀ a s r s', ok a → J s → exec p a s = .ok (r, s') → J s') (hs : J s) :
    Ends exec p c s (fun _ s' => J s') (fun _ => True) True := by
  refine Ends.of_ok fun x s' hrun => ?_
  induction c generalizing s with
  | ret y =>
    cases hrun
    exact hs
  | act a k ih =>
    obtain ⟨r, s1, hx, hrest⟩ := run_act_inv exec hrun
    exact ih r (hc.2 r) (hstep a s r s1 hc.1 hs hx) hrest

/-- A program that neither ends nor waits fails. -/
theorem Ends.failure (h : Ends exec p c s (fun _ _ => False) B False) : ∃ e, run exec p c s = .fail e ∧ B e := by
  unfold Ends at h
  cases hc : run exec p c s with
  | ok x =>
    rw [hc] at h
    exact h.elim
  | wait =>
    rw [hc] at h
    exact h.elim
  | fail e =>
    rw [hc] at h
    exact ⟨e, rfl, h⟩

/-- A program that neither fails nor waits gives a result. -/
theorem Ends.result (h : Ends exec p c s Q (fun _ => False) False) :
    ∃ x s', run exec p c s = .ok (x, s') ∧ Q x s' := by
  unfold Ends at h
  cases hc : run exec p c s with
  | ok x =>
    rw [hc] at h
    exact ⟨x.1, x.2, rfl, h⟩
  | wait =>
    rw [hc] at h
    exact h.elim
  | fail e =>
    rw [hc] at h
    exact h.elim

/-- Run alone from `s`, the program performs only actions that meet `ok` in the state they
    are performed in. -/
def Upholds (exec : P → (a : A) → S → Out E (Res a × S)) (p : P) (ok : A → S → Prop) : Prog A Res α → S → Prop
  | Prog.ret _, _ => True
  | Prog.act a k, s => ok a s ∧ match exec p a s with
    | .ok (r, s') => Upholds exec p ok (k r) s'
    | _ => True

theorem Upholds.mono {ok ok' : A → S → Prop} (hc : Upholds exec p ok c s) (h : ∀ a s, ok a s → ok' a s) :
    Upholds exec p ok' c s := by
  induction c generalizing s with
  | ret x => trivial
  | act a k ih =>
    simp only [Upholds] at hc ⊢
    refine ⟨h a s hc.1, ?_⟩
    cases hx : exec p a s with
    | ok y =>
      have := hc.2
      rw [hx] at this
      exact ih y.1 this
    | wait => trivial
    | fail e => trivial

theorem Upholds.bind {ok : A → S → Prop} (hc : Upholds exec p ok c s)
    (hf : ∀ x s', run exec p c s = .ok (x, s') → Upholds exec p ok (f x) s') : Upholds exec p ok (c >>= f) s := by
  induction c generalizing s with
  | ret x => exact hf x s rfl
  | act a k ih =>
    simp only [act_bind, Upholds] at hc ⊢
    obtain ⟨ha, hk⟩ := hc
    refine ⟨ha, ?_⟩
    cases hx : exec p a s with
    | ok y =>
      rw [hx] at hk
      exact ih y.1 hk fun x s' h => hf x s' (by rw [run_act exec p a k hx]; exact h)
    | wait => trivial
    | fail e => trivial

/-! ## What a run puts out -/

section Emitted

variable {O : Type}

/-- What the actions of a run alone put out, in order, up to its end or to where it stops. -/
def emitted (exec : P → (a : A) → S → Out E (Res a × S)) (out : (a : A) → Res a → List O) (p : P) : Prog A Res α → S → List O
  | Prog.ret _, _ => []
  | Prog.act a k, s => match exec p a s with
    | .ok (r, s') => out a r ++ emitted exec out p (k r) s'
    | _ => []

/-- Run alone from `s`, the program ends in `Q` with what it has put out, or stops with that in `F`. -/
def Emits (exec : P → (a : A) → S → Out E (Res a × S)) (out : (a : A) → Res a → List O) (p : P) (c : Prog A Res α) (s : S)
    (Q : α → S → List O → Prop) (F : List O → Prop) : Prop :=
  match run exec p c s with
  | .ok (x, s') => Q x s' (emitted exec out p c s)
  | _ => F (emitted exec out p c s)

variable {out : (a : A) → Res a → List O} {F F' : List O → Prop}

variable {Q : α → S → List O → Prop}

theorem emits_act {a : A} {k : Res a → Prog A Res α} {r : Res a} {s' : S} (hx : exec p a s = .ok (r, s')) :
    Emits exec out p (Prog.act a k) s Q F ↔
      Emits exec out p (k r) s' (fun x s'' l => Q x s'' (out a r ++ l)) fun l => F (out a r ++ l) := by
  unfold Emits
  simp only [run, emitted, hx]

theorem Emits.fail {a : A} {k : Res a → Prog A Res α} {e : E} (hx : exec p a s = .fail e) (h : F []) :
    Emits exec out p (Prog.act a k) s Q F := by
  unfold Emits
  simp only [run, emitted, hx]
  exact h

variable {c : Prog A Res α}

theorem Emits.mono {Q' : α → S → List O → Prop} (h : Emits exec out p c s Q F)
    (hQ : ∀ x s' l, Q x s' l → Q' x s' l) (hF : ∀ l, F l → F' l) : Emits exec out p c s Q' F' := by
  unfold Emits at h ⊢
  cases hc : run exec p c s with
  | ok x => rw [hc] at h; exact hQ _ _ _ h
  | wait => rw [hc] at h; exact hF _ h
  | fail e => rw [hc] at h; exact hF _ h

theorem Emits.bind {f : α → Prog A Res β} {Q : β → S → List O → Prop}
    (h : Emits exec out p c s (fun x s' l => Emits exec out p (f x) s' (fun y s'' l' => Q y s'' (l ++ l')) fun l' => F (l ++ l')) F) :
    Emits exec out p (c >>= f) s Q F := by
  induction c generalizing s Q F with
  | ret x => exact h
  | act a k ih =>
    rw [act_bind]
    cases hx : exec p a s with
    | ok y =>
      refine (emits_act hx).2 (ih y.1 (((emits_act hx).1 h).mono (fun x s' l hl => ?_) fun l hl => hl))
      simpa only [List.append_assoc] using hl
    | wait =>
      unfold Emits at h ⊢
      simp only [run, emitted, hx] at h ⊢
      exact h
    | fail e => exact Emits.fail hx (by unfold Emits at h; simpa only [run, emitted, hx] using h)

theorem Emits.always (h : Emits exec out p c s (fun _ _ l => F l) F) : F (emitted exec out p c s) := by
  unfold Emits at h
  cases hc : run exec p c s with
  | ok x => rw [hc] at h; exact h
  | wait => rw [hc] at h; exact h
  | fail e => rw [hc] at h; exact h

/-- A program whose actions put nothing out. -/
theorem Emits.silent {ok : A → S → Prop} {x : α} {s' : S} (hrun : run exec p c s = .ok (x, s'))
    (hup : Upholds exec p ok c s) (hok : ∀ a s r, ok a s → out a r = []) (h : Q x s' []) : Emits exec out p c s Q F := by
  induction c generalizing s with
  | ret y => cases hrun; exact h
  | act a k ih =>
    obtain ⟨r, s₁, hx, hrest⟩ := run_act_inv exec hrun
    simp only [Upholds, hx] at hup
    refine (emits_act hx).2 ?_
    rw [hok a s r hup.1]
    exact ih r hrest hup.2

end Emitted

end Prog

/-! ## Interleaving -/

section Pool

variable {A : Type} {Res : A → Type} {P S E C : Type} [DecidableEq P]

structure Pool (A : Type) (Res : A → Type) (P S E : Type) where
  state : S
  threads : P → Prog A Res Unit
  failed : Option E

/-- Thread `p` begins the program of `c`, or performs its next action. -/
inductive Ev (P C : Type) where
  | start (p : P) (c : C)
  | step (p : P)

variable (exec : P → (a : A) → S → Out E (Res a × S)) (body : C → Prog A Res Unit)

def Pool.step (π : Pool A Res P S E) : Ev P C → Pool A Res P S E
  | .start p c => match π.failed, π.threads p with
    | none, .ret _ => { π with threads := Function.update π.threads p (body c) }
    | _, _ => π
  | .step p => match π.failed, π.threads p with
    | none, .act a k => match exec p a π.state with
      | .ok (r, s) => { π with state := s, threads := Function.update π.threads p (k r) }
      | .wait => π
      | .fail e => { π with failed := some e }
    | _, _ => π

section Step

variable {exec body} {π : Pool A Res P S E} {p : P} {a : A} {k : Res a → Prog A Res Unit}

theorem Pool.step_ok {r : Res a} {s : S} (hf : π.failed = none) (hp : π.threads p = .act a k)
    (hx : exec p a π.state = .ok (r, s)) : Pool.step exec body π (.step p) =
      { π with state := s, threads := update π.threads p (k r) } := by
  simp only [Pool.step, hf, hp, hx]

theorem Pool.step_wait (hf : π.failed = none) (hp : π.threads p = .act a k) (hx : exec p a π.state = .wait) :
    Pool.step exec body π (.step p) = π := by
  simp only [Pool.step, hf, hp, hx]

theorem Pool.step_ret {x : Unit} (hp : π.threads p = .ret x) : Pool.step exec body π (.step p) = π := by
  simp only [Pool.step, hp]
  cases π.failed <;> rfl

end Step

def Pool.runs (π : Pool A Res P S E) (es : List (Ev P C)) : Pool A Res P S E := es.foldl (Pool.step exec body) π

def Pool.Idle (π : Pool A Res P S E) : Prop := ∀ p, π.threads p = .ret ()

/-- Every step of the run meets the condition in the state it is taken in. -/
def Pool.Along (ok : Pool A Res P S E → Ev P C → Prop) : Pool A Res P S E → List (Ev P C) → Prop
  | _, [] => True
  | π, e :: es => ok π e ∧ Along ok (Pool.step exec body π e) es

theorem Pool.along_of_forall {ok : Pool A Res P S E → Ev P C → Prop} (h : ∀ π e, ok π e) (π : Pool A Res P S E)
    (es : List (Ev P C)) : Pool.Along exec body ok π es := by
  induction es generalizing π with
  | nil => trivial
  | cons e es ih => exact ⟨h π e, ih _⟩

/-- Some step of the run meets the condition in the state it is taken in. -/
def Pool.Sometime (ok : Pool A Res P S E → Ev P C → Prop) : Pool A Res P S E → List (Ev P C) → Prop
  | _, [] => False
  | π, e :: es => ok π e ∨ Sometime ok (Pool.step exec body π e) es

/-- The condition `ok` on the action a thread is about to perform. -/
def Pool.Acts (ok : P → A → S → Prop) (π : Pool A Res P S E) : Ev P C → Prop
  | .start _ _ => True
  | .step p => match π.threads p with
    | .act a _ => ok p a π.state
    | .ret _ => True

theorem Pool.along_acts {ok : P → A → S → Prop} (h : ∀ p a s, ok p a s) (π : Pool A Res P S E) (es : List (Ev P C)) :
    Pool.Along exec body (Pool.Acts ok) π es := by
  refine Pool.along_of_forall exec body (fun π e => ?_) π es
  cases e with
  | start p c => trivial
  | step p =>
    simp only [Pool.Acts]
    split
    · exact h _ _ _
    · trivial

end Pool

/-! ## History variables -/

section History

variable {A : Type} {Res : A → Type} {P S E H : Type}

/-- `exec`, with a note of every action that gives a result. -/
def recorded (exec : P → (a : A) → S → Out E (Res a × S)) (note : P → (a : A) → Res a → S → H → H) (p : P) (a : A)
    (x : S × H) : Out E (Res a × (S × H)) :=
  match exec p a x.1 with
  | .ok (r, s) => .ok (r, (s, note p a r x.1 x.2))
  | .wait => .wait
  | .fail e => .fail e

end History

/-! ## Local reasoning -/

section Local

variable {A : Type} {Res : A → Type} {P S E C R α β : Type} [DecidableEq P]

def wp (spec : P → (a : A) → R → (Res a → R → Prop) → Prop) (p : P) : Prog A Res α → (α → R → Prop) → R → Prop
  | .ret x, Q, r => Q x r
  | .act a k, Q, r => spec p a r fun y r' => wp spec p (k y) Q r'

variable {spec : P → (a : A) → R → (Res a → R → Prop) → Prop}

def Monotone (spec : P → (a : A) → R → (Res a → R → Prop) → Prop) : Prop :=
  ∀ p a r Q Q', (∀ x r', Q x r' → Q' x r') → spec p a r Q → spec p a r Q'

omit [DecidableEq P] in
theorem wp_mono (hm : Monotone spec) {p : P} {c : Prog A Res α} {Q Q' : α → R → Prop} {r : R}
    (h : wp spec p c Q r) (hQ : ∀ x r', Q x r' → Q' x r') : wp spec p c Q' r := by
  induction c generalizing r with
  | ret x => exact hQ x r h
  | act a k ih => exact hm p a r _ _ (fun y r' => ih y) h

omit [DecidableEq P] in
theorem wp_bind (hm : Monotone spec) {p : P} {c : Prog A Res α} {f : α → Prog A Res β} {Q : β → R → Prop} {r : R}
    (h : wp spec p c (fun x r' => wp spec p (f x) Q r') r) : wp spec p (c >>= f) Q r := by
  induction c generalizing r with
  | ret x => exact h
  | act a k ih => exact hm p a r _ _ (fun y r' => ih y) h

omit [DecidableEq P] in
/-- What `wp` says of a program holds of its run alone, if it does of every action. -/
theorem wp_ends {exec : P → (a : A) → S → Out E (Res a × S)} {World : R → S → Prop} {p : P} {B : E → Prop} {W : Prop}
    (hs : ∀ a r s Q, World r s → spec p a r Q → Prog.Ends exec p (Prog.perform a) s (fun x s' => ∃ r', Q x r' ∧ World r' s') B W)
    {c : Prog A Res α} {Q : α → R → Prop} {r : R} {s : S} (hw : World r s) (h : wp spec p c Q r) :
    Prog.Ends exec p c s (fun x s' => ∃ r', Q x r' ∧ World r' s') B W := by
  induction c generalizing r s with
  | ret x => exact ⟨r, h, hw⟩
  | act a k ih =>
    have ha := hs a r s _ hw h
    unfold Prog.Ends at ha ⊢
    simp only [Prog.perform, Prog.run] at ha ⊢
    cases hx : exec p a s with
    | ok y =>
      rw [hx] at ha
      obtain ⟨r', hk, hw'⟩ := ha
      exact ih y.1 hw' hk
    | wait =>
      rw [hx] at ha
      exact ha
    | fail e =>
      rw [hx] at ha
      exact ha

/-- Every action keeps `World` under its `spec`, and fails in no bad way. -/
structure Sound (exec : P → (a : A) → S → Out E (Res a × S)) (spec : P → (a : A) → R → (Res a → R → Prop) → Prop)
    (World : (P → R) → S → Prop) (ok : P → A → S → Prop) (Bad : E → Prop) : Prop where
  mono : Monotone spec
  step : ∀ ρ s p a Q, World ρ s → ok p a s → spec p a (ρ p) Q →
    (∀ x s', exec p a s = .ok (x, s') → ∃ r, Q x r ∧ World (Function.update ρ p r) s') ∧
    ∀ e, exec p a s = .fail e → ¬ Bad e

/-- Every thread's program is good for its resource and ends in `Done`. -/
structure Good (spec : P → (a : A) → R → (Res a → R → Prop) → Prop) (World : (P → R) → S → Prop) (Bad : E → Prop)
    (Done : P → R → Prop) (π : Pool A Res P S E) : Prop where
  threads : ∃ ρ, World ρ π.state ∧ ∀ p, wp spec p (π.threads p) (fun _ => Done p) (ρ p)
  failed : ∀ e, π.failed = some e → ¬ Bad e

variable {exec : P → (a : A) → S → Out E (Res a × S)} {body : C → Prog A Res Unit} {World : (P → R) → S → Prop}
  {ok : P → A → S → Prop} {Bad : E → Prop} {Done : P → R → Prop}

variable {π : Pool A Res P S E}

theorem Good.step (hs : Sound exec spec World ok Bad)
    (hb : ∀ p c r, Done p r → wp spec p (body c) (fun _ => Done p) r)
    (h : Good spec World Bad Done π) (e : Ev P C) (he : Pool.Acts ok π e) :
    Good spec World Bad Done (Pool.step exec body π e) := by
  obtain ⟨ρ, hw, ht⟩ := h.threads
  cases e with
  | start p c =>
    simp only [Pool.step]
    split
    · rename_i u _ hp
      refine ⟨⟨ρ, hw, fun q => ?_⟩, h.failed⟩
      by_cases e : q = p
      · subst e
        have hd := ht q
        rw [hp] at hd
        simp only [update_self]
        exact hb q c _ hd
      · simp only [update_of_ne e]; exact ht q
    · exact h
  | step p =>
    simp only [Pool.step]
    split
    · rename_i a k hf hp
      have hwp := ht p
      rw [hp] at hwp
      have hok : ok p a π.state := by simpa only [Pool.Acts, hp] using he
      obtain ⟨hgo, hfail⟩ := hs.step ρ π.state p a _ hw hok hwp
      split
      · rename_i x s hx
        obtain ⟨r, hq, hw'⟩ := hgo x s hx
        refine ⟨⟨_, hw', fun q => ?_⟩, h.failed⟩
        by_cases e : q = p
        · subst e; simpa only [update_self] using hq
        · simp only [update_of_ne e]; exact ht q
      · exact h
      · rename_i e hx
        exact ⟨⟨ρ, hw, ht⟩, fun e' he' => by cases he'; exact hfail e hx⟩
    · exact h

theorem Good.runs (hs : Sound exec spec World ok Bad)
    (hb : ∀ p c r, Done p r → wp spec p (body c) (fun _ => Done p) r)
    (h : Good spec World Bad Done π) (es : List (Ev P C)) (he : Pool.Along exec body (Pool.Acts ok) π es) :
    Good spec World Bad Done (Pool.runs exec body π es) := by
  induction es generalizing π with
  | nil => exact h
  | cons e es ih => exact ih (h.step hs hb e he.1) he.2

omit [DecidableEq P] in
theorem Good.idle (h : Good spec World Bad Done π) (hi : π.Idle) : ∃ ρ, World ρ π.state ∧ ∀ p, Done p (ρ p) := by
  obtain ⟨ρ, hw, ht⟩ := h.threads
  refine ⟨ρ, hw, fun p => ?_⟩
  have := ht p
  rw [hi p] at this
  exact this

end Local

end Xv6.Lib
