/-
  Xv6.Proc.Sleep — `sleep` and `wakeup` (`proc.c`), one lock acquisition or release at a
  time, and the sleep-locks built on them (`sleeplock.c`).

  Any number of processes run code under a spinlock `lk`; a statement of that code goes on,
  calls `sleep(ch, lk)` or `wakeup(ch)`, or releases `lk`, perhaps calling `wakeup` after
  it. `sleep` takes `ptable.lock` before it gives up `lk`, and `wakeup` scans the table
  under `ptable.lock`; a process given up by `sched` runs again once it is RUNNABLE and the
  scheduler has `ptable.lock`, which the process then releases. `kill` makes a sleeper
  RUNNABLE at any time.

  What holds of the data and of the statements the processes are at is proved per statement
  (`Keeps`, `Inv.runs`): to code under `lk`, `sleep` is giving up the lock. If code that makes a
  channel's condition true goes on to wake the channel and nothing sleeps on a true
  condition (`Wakes`), no wakeup is lost (`Wakes.no_sleeper`).
-/

import Mathlib

namespace Xv6

open Function

/-- `enum procstate` -/
inductive ProcState where
  | unused
  | embryo
  | sleeping
  | runnable
  | running
  | zombie
  deriving DecidableEq, Repr

namespace Proc.Sleep

inductive Next (Ch K : Type) where
  | goto (k : K)
  /-- `sleep(ch, lk)`, then `k` -/
  | sleep (ch : Ch) (k : K)
  /-- `wakeup(ch)`, then `k` -/
  | wakeup (ch : Ch) (k : K)
  /-- `release(lk)`, then `wakeup(ch)` if there is one -/
  | release (after : Option Ch)

inductive Pc (Ch K : Type) where
  | idle
  | acquire (k : K)
  | locked (k : K)
  -- in `sleep`: acquire(&ptable.lock); release(lk)
  | sleepAcquire (ch : Ch) (k : K)
  | sleepRelease (ch : Ch) (k : K)
  -- p->chan = chan; p->state = SLEEPING; sched()
  | sleepSet (ch : Ch) (k : K)
  | asleep (k : K)
  -- p->chan = 0; release(&ptable.lock)
  | resumed (k : K)
  -- in `wakeup`; after `release(lk)` there is no statement to go on at
  | wakeAcquire (ch : Ch) (k : Option K)
  | wakeScan (ch : Ch) (k : Option K)
  | wakeRelease (k : Option K)

structure Client (P D Ch K : Type) where
  /-- whether a process may begin a call at this statement -/
  may : P → D → K → Bool
  exec : P → D → K → D × Next Ch K

structure St (P D Ch K : Type) where
  data : D
  lk : Option P
  ptable : Option P
  state : P → ProcState
  chan : P → Option Ch
  pc : P → Pc Ch K

def St.start {P D Ch K : Type} (d : D) : St P D Ch K := ⟨d, none, none, fun _ => .running, fun _ => none, fun _ => .idle⟩

inductive Ev (P K : Type) where
  | call (p : P) (k : K)
  | step (p : P)
  | kill (p : P)

variable {P D Ch K : Type} [DecidableEq P] [DecidableEq Ch]

def wakeup1 (s : St P D Ch K) (ch : Ch) : P → ProcState :=
  fun q => if s.state q = .sleeping ∧ s.chan q = some ch then .runnable else s.state q

/-- The statement `k` of `p`, with `lk` held. -/
def stmt (M : Client P D Ch K) (s : St P D Ch K) (p : P) (k : K) : St P D Ch K := match M.exec p s.data k with
  | (d, .goto k') => { s with data := d, pc := Function.update s.pc p (.locked k') }
  | (d, .sleep ch k') => { s with data := d, pc := Function.update s.pc p (.sleepAcquire ch k') }
  | (d, .wakeup ch k') => { s with data := d, pc := Function.update s.pc p (.wakeAcquire ch (some k')) }
  | (d, .release none) => { s with data := d, lk := none, pc := Function.update s.pc p .idle }
  | (d, .release (some ch)) => { s with data := d, lk := none, pc := Function.update s.pc p (.wakeAcquire ch none) }

def step (M : Client P D Ch K) (s : St P D Ch K) : Ev P K → St P D Ch K
  | .call p k => match s.pc p with
    | .idle => if M.may p s.data k then { s with pc := Function.update s.pc p (.acquire k) } else s
    | _ => s
  | .kill q => if s.ptable = none ∧ s.state q = .sleeping then { s with state := Function.update s.state q .runnable } else s
  | .step p => match s.pc p with
    | .idle => s
    | .acquire k =>
      if s.lk = none then { s with lk := some p, pc := Function.update s.pc p (.locked k) } else s
    | .locked k => stmt M s p k
    | .sleepAcquire ch k =>
      if s.ptable = none then { s with ptable := some p, pc := Function.update s.pc p (.sleepRelease ch k) } else s
    | .sleepRelease ch k => { s with lk := none, pc := Function.update s.pc p (.sleepSet ch k) }
    | .sleepSet ch k =>
      { s with chan := Function.update s.chan p (some ch), state := Function.update s.state p .sleeping, ptable := none,
               pc := Function.update s.pc p (.asleep k) }
    | .asleep k =>
      if s.state p = .runnable ∧ s.ptable = none then
        { s with ptable := some p, state := Function.update s.state p .running, pc := Function.update s.pc p (.resumed k) }
      else s
    | .resumed k =>
      { s with chan := Function.update s.chan p none, ptable := none, pc := Function.update s.pc p (.acquire k) }
    | .wakeAcquire ch k =>
      if s.ptable = none then { s with ptable := some p, pc := Function.update s.pc p (.wakeScan ch k) } else s
    | .wakeScan ch k => { s with state := wakeup1 s ch, pc := Function.update s.pc p (.wakeRelease k) }
    | .wakeRelease k => { s with ptable := none, pc := Function.update s.pc p (k.elim .idle .locked) }

def runs (M : Client P D Ch K) (s : St P D Ch K) (es : List (Ev P K)) : St P D Ch K := es.foldl (step M) s

/-! ## The two locks -/

namespace Pc

def holdsLk : Pc Ch K → Bool
  | locked _ => true
  | sleepAcquire _ _ => true
  | sleepRelease _ _ => true
  | wakeAcquire _ k => k.isSome
  | wakeScan _ k => k.isSome
  | wakeRelease k => k.isSome
  | _ => false

def holdsPtable : Pc Ch K → Bool
  | sleepRelease _ _ => true
  | sleepSet _ _ => true
  | resumed _ => true
  | wakeScan _ _ => true
  | wakeRelease _ => true
  | _ => false

/-- The statement at which a process goes on with `lk` held. -/
def next : Pc Ch K → Option K
  | idle => none
  | acquire k => some k
  | locked k => some k
  | sleepAcquire _ k => some k
  | sleepRelease _ k => some k
  | sleepSet _ k => some k
  | asleep k => some k
  | resumed k => some k
  | wakeAcquire _ k => k
  | wakeScan _ k => k
  | wakeRelease k => k

/-- The statement at which the holder of `lk` goes on before giving `lk` up. -/
def within : Pc Ch K → Option K
  | locked k => some k
  | wakeAcquire _ k => k
  | wakeScan _ k => k
  | wakeRelease k => k
  | _ => none

/-- Given up by `sched`. -/
def inSched : Pc Ch K → Bool
  | asleep _ => true
  | _ => false

end Pc

/-- The lock is held by the process whose program counter says so, if there is one. -/
def Held {X : Type} (holds : X → Bool) (lock : Option P) (pc : P → X) : Prop := ∀ p, holds (pc p) = true ↔ lock = some p

section Held

variable {X : Type} {holds : X → Bool} {lock : Option P} {pc : P → X} {p : P} {x : X}

theorem Held.keep (h : Held holds lock pc) (hx : holds x = holds (pc p)) : Held holds lock (update pc p x) := by
  intro q
  have := h q
  grind

theorem Held.acquire (h : Held holds lock pc) (hl : lock = none) (hx : holds x = true) :
    Held holds (some p) (update pc p x) := by
  intro q
  have := h q
  grind

theorem Held.release (h : Held holds lock pc) (hp : holds (pc p) = true) (hx : holds x = false) :
    Held holds none (update pc p x) := by
  intro q
  have := h q
  have := h p
  grind

omit [DecidableEq P] in
theorem Held.same (h : Held holds lock pc) {q : P} (hp : holds (pc p) = true) (hq : holds (pc q) = true) : q = p := by
  grind [h p, h q]

end Held

structure Locks (s : St P D Ch K) : Prop where
  lk : Held Pc.holdsLk s.lk s.pc
  ptable : Held Pc.holdsPtable s.ptable s.pc
  running : ∀ p, (s.pc p).inSched = false → s.state p = .running

variable {M : Client P D Ch K} {s : St P D Ch K} {p : P}

omit [DecidableEq P] [DecidableEq Ch] in
theorem Locks.start (d : D) : Locks (St.start d : St P D Ch K) :=
  ⟨fun _ => by simp [St.start, Pc.holdsLk], fun _ => by simp [St.start, Pc.holdsPtable], fun _ _ => rfl⟩

omit [DecidableEq Ch] in
/-- `p` moves on; no process changes its state. -/
theorem Locks.move (h : Locks s) {s' : St P D Ch K} {x y : Pc Ch K} (hp : s.pc p = y) (hy : y.inSched = false)
    (hpc : s'.pc = update s.pc p x) (hst : s'.state = s.state) (hlk : Held Pc.holdsLk s'.lk s'.pc)
    (hpt : Held Pc.holdsPtable s'.ptable s'.pc) : Locks s' := by
  refine ⟨hlk, hpt, fun q hq => ?_⟩
  have := h.running q
  rw [hpc] at hq
  grind

omit [DecidableEq Ch] in
theorem Locks.stmt (h : Locks s) {k : K} (hk : s.pc p = .locked k) : Locks (Sleep.stmt M s p k) := by
  unfold Sleep.stmt
  split
  case h_1 | h_2 | h_3 => exact h.move hk rfl rfl rfl (h.lk.keep (by rw [hk]; rfl)) (h.ptable.keep (by rw [hk]; rfl))
  all_goals exact h.move hk rfl rfl rfl (h.lk.release (by rw [hk]; rfl) rfl) (h.ptable.keep (by rw [hk]; rfl))

theorem Locks.step (h : Locks s) (e : Ev P K) : Locks (Sleep.step M s e) := by
  have hr := h.running
  cases e <;> simp only [Sleep.step] <;> repeat' split
  all_goals first | exact h | exact h.stmt ‹_› | skip
  case h_1.isTrue hp _ => exact h.move hp rfl rfl rfl (h.lk.keep (by rw [hp]; rfl)) (h.ptable.keep (by rw [hp]; rfl))
  case h_2.isTrue hp hl => exact h.move hp rfl rfl rfl (h.lk.acquire hl rfl) (h.ptable.keep (by rw [hp]; rfl))
  case h_4.isTrue hp hl | h_9.isTrue hp hl =>
    exact h.move hp rfl rfl rfl (h.lk.keep (by rw [hp]; rfl)) (h.ptable.acquire hl rfl)
  case h_5 hp => exact h.move hp rfl rfl rfl (h.lk.release (by rw [hp]; rfl) rfl) (h.ptable.keep (by rw [hp]; rfl))
  case h_6 hp =>
    exact ⟨h.lk.keep (by rw [hp]; rfl), h.ptable.release (by rw [hp]; rfl) rfl, fun q hq => by grind [Pc.inSched]⟩
  case h_7.isTrue hp hl => exact ⟨h.lk.keep (by rw [hp]; rfl), h.ptable.acquire hl.2 rfl, fun q hq => by grind⟩
  case h_8 hp => exact h.move hp rfl rfl rfl (h.lk.keep (by rw [hp]; rfl)) (h.ptable.release (by rw [hp]; rfl) rfl)
  case h_10 hp =>
    refine ⟨h.lk.keep (by rw [hp]; rfl), h.ptable.keep (by rw [hp]; rfl), fun q hq => ?_⟩
    have hrun : s.state q = .running := hr q (by grind [Pc.inSched])
    simp [wakeup1, hrun]
  case h_11 k hp =>
    exact h.move hp rfl rfl rfl (h.lk.keep (by rw [hp]; cases k <;> rfl)) (h.ptable.release (by rw [hp]; rfl) (by cases k <;> rfl))
  case isTrue => exact ⟨h.lk, h.ptable, fun q hq => by grind⟩

/-! ## What holds of the data -/

/-- What matters of a state to code under `lk`: the data, the statement each process is to go
    on at, and the one that is under way with `lk` held. -/
structure View (P D K : Type) where
  data : D
  next : P → Option K
  inside : Option (P × K)

/-- The lock's holder and its statement; none while `lk` is free, or about to be in `sleep`. -/
def St.inside (s : St P D Ch K) : Option (P × K) := s.lk.bind fun p => (s.pc p).within.map (p, ·)

def St.view (s : St P D Ch K) : View P D K := ⟨s.data, fun p => (s.pc p).next, s.inside⟩

/-- The statement to go on at after this one, with `lk` held or to be taken again. -/
def Next.code : Next Ch K → Option K
  | goto k => some k
  | sleep _ k => some k
  | wakeup _ k => some k
  | release _ => none

/-- The statement to go on at with `lk` held throughout. -/
def Next.within : Next Ch K → Option K
  | goto k => some k
  | wakeup _ k => some k
  | _ => none

/-- The statement under way has been executed. -/
def View.exec (M : Client P D Ch K) (v : View P D K) (p : P) (k : K) : View P D K :=
  ⟨(M.exec p v.data k).1, Function.update v.next p (M.exec p v.data k).2.code, (M.exec p v.data k).2.within.map (p, ·)⟩

/-- `I` is kept when a process begins a call, takes the lock, or executes a statement. A
    process that sleeps may go on at any time when `lk` is free: `I` does not depend on why. -/
structure Keeps (M : Client P D Ch K) (ok : View P D K → P → K → Prop) (I : View P D K → Prop) : Prop where
  call : ∀ v p k, I v → v.next p = none → M.may p v.data k = true → ok v p k → I { v with next := Function.update v.next p (some k) }
  enter : ∀ v p k, I v → v.inside = none → v.next p = some k → I { v with inside := some (p, k) }
  exec : ∀ v p k, I v → v.inside = some (p, k) → v.next p = some k → I (v.exec M p k)

/-- The condition on the calls of a run. -/
def Calls (M : Client P D Ch K) (ok : View P D K → P → K → Prop) : St P D Ch K → List (Ev P K) → Prop
  | _, [] => True
  | s, e :: es => (∀ p k, e = .call p k → ok s.view p k) ∧ Calls M ok (step M s e) es

instance decidableCalls (M : Client P D Ch K) (ok : View P D K → P → K → Prop) [∀ v p k, Decidable (ok v p k)] :
    (s : St P D Ch K) → (es : List (Ev P K)) → Decidable (Calls M ok s es)
  | _, [] => .isTrue trivial
  | s, e :: es =>
    have : Decidable (∀ p k, e = .call p k → ok s.view p k) := match e with
      | .call p k => decidable_of_iff (ok s.view p k) ⟨fun h _ _ e => by cases e; exact h, fun h => h p k rfl⟩
      | .step _ => .isTrue fun _ _ e => nomatch e
      | .kill _ => .isTrue fun _ _ e => nomatch e
    have := decidableCalls M ok (step M s e) es
    instDecidableAnd

structure Inv (I : View P D K → Prop) (s : St P D Ch K) : Prop where
  locks : Locks s
  data : I s.view

variable {I : View P D K → Prop} {ok : View P D K → P → K → Prop}

omit [DecidableEq P] [DecidableEq Ch] in
theorem Inv.start {d : D} (h : I ⟨d, fun _ => none, none⟩) : Inv I (St.start d : St P D Ch K) := ⟨.start d, h⟩

omit [DecidableEq Ch] in
theorem next_update {x : Pc Ch K} : (fun q => (update s.pc p x q).next) = update (fun q => (s.pc q).next) p x.next := by
  funext q
  by_cases e : q = p <;> simp [e]

omit [DecidableEq Ch] in
/-- A step of `p` that leaves the data and where `p` goes on. -/
theorem view_move {s' : St P D Ch K} {x y : Pc Ch K} (hp : s.pc p = y) (hd : s'.data = s.data) (hpc : s'.pc = update s.pc p x)
    (hn : x.next = y.next) (hi : s'.inside = s.inside) : s'.view = s.view := by
  unfold St.view
  rw [hd, hi, hpc, next_update, hn, ← hp]
  congr 1
  exact update_eq_self p fun q => (s.pc q).next

omit [DecidableEq Ch] in
theorem inside_update {x : Pc Ch K} {d : D} {t : Option P} {st : P → ProcState} {ch : P → Option Ch}
    (hx : x.within = (s.pc p).within) :
    St.inside ⟨d, s.lk, t, st, ch, update s.pc p x⟩ = s.inside := by
  unfold St.inside
  congr 1
  funext q
  by_cases e : q = p <;> simp [e, hx]

omit [DecidableEq P] [DecidableEq Ch] in
theorem inside_of_lk (h : s.lk = some p) : s.inside = (s.pc p).within.map (p, ·) := by
  simp only [St.inside, h, Option.bind_some]

omit [DecidableEq Ch] in
theorem view_stmt (h : Locks s) {k : K} (hk : s.pc p = .locked k) : (Sleep.stmt M s p k).view = s.view.exec M p k := by
  have hlk : s.lk = some p := (h.lk p).1 (by rw [hk]; rfl)
  have hin : ∀ (d : D) x, St.view { s with data := d, pc := update s.pc p x } =
      ⟨d, update (fun q => (s.pc q).next) p x.next, x.within.map (p, ·)⟩ := by
    intro d x
    simp only [St.view, St.inside, hlk, Option.bind_some, update_self, next_update]
  have hfree : ∀ (d : D) x, St.view { s with data := d, lk := none, pc := update s.pc p x } =
      ⟨d, update (fun q => (s.pc q).next) p x.next, none⟩ := by
    intro d x
    simp only [St.view, St.inside, Option.bind_none, next_update]
  unfold Sleep.stmt View.exec
  split <;> rename_i hx <;> rw [show s.view.data = s.data from rfl, hx]
  all_goals first | exact hin _ _ | exact hfree _ _

theorem Inv.step (hM : Keeps M ok I) (h : Inv I s) (e : Ev P K) (he : ∀ p k, e = .call p k → ok s.view p k) :
    Inv I (Sleep.step M s e) := by
  refine ⟨h.locks.step e, ?_⟩
  -- a step of `sleep` or `wakeup` changes nothing the code can see
  have hsame : ∀ s' : St P D Ch K, s'.view = s.view → I s'.view := fun s' e' => by rw [e']; exact h.data
  cases e with
  | call p k =>
    simp only [Sleep.step]
    split
    · rename_i hp
      split
      · rename_i hm
        have hv : St.view { s with pc := update s.pc p (.acquire k) } =
            { s.view with next := update s.view.next p (some k) } := by
          simp only [St.view, next_update]
          rw [inside_update (by rw [hp]; rfl)]
          rfl
        rw [hv]
        exact hM.call _ p k h.data (by show (s.pc p).next = none; rw [hp]; rfl) hm (he p k rfl)
      · exact h.data
    · exact h.data
  | kill q =>
    simp only [Sleep.step]
    split
    · exact h.data
    · exact h.data
  | step p =>
    simp only [Sleep.step]
    split
    · exact h.data
    · rename_i k hp
      split
      · rename_i hn
        have hv : St.view { s with lk := some p, pc := update s.pc p (.locked k) } = { s.view with inside := some (p, k) } := by
          simp only [St.view, St.inside, Option.bind_some, update_self, next_update]
          congr 1
          exact (congrArg (update _ p) (by rw [hp]; rfl)).trans (update_eq_self p fun q => (s.pc q).next)
        rw [hv]
        refine hM.enter _ p k h.data ?_ (by show (s.pc p).next = some k; rw [hp]; rfl)
        simp only [St.view, St.inside, hn, Option.bind_none]
      · exact h.data
    · rename_i k hp
      rw [view_stmt h.locks hp]
      refine hM.exec _ p k h.data ?_ (by show (s.pc p).next = some k; rw [hp]; rfl)
      show s.inside = _
      rw [inside_of_lk ((h.locks.lk p).1 (by rw [hp]; rfl)), hp]
      rfl
    case h_5 hp =>
      refine hsame _ (view_move hp rfl rfl rfl ?_)
      rw [inside_of_lk ((h.locks.lk p).1 (by rw [hp]; rfl)), hp]
      rfl
    case h_11 k hp => exact hsame _ (view_move hp rfl rfl (by cases k <;> rfl) (inside_update (by rw [hp]; cases k <;> rfl)))
    all_goals
      rename_i hp
      try split
      all_goals first | exact h.data | exact hsame _ (view_move hp rfl rfl rfl (inside_update (by rw [hp]; rfl)))

theorem Inv.runs (hM : Keeps M ok I) (h : Inv I s) (es : List (Ev P K)) (he : Calls M ok s es) : Inv I (Sleep.runs M s es) := by
  induction es generalizing s with
  | nil => exact h
  | cons e es ih => exact ih (h.step hM e he.1) he.2

theorem calls_of_forall (h : ∀ v p k, ok v p k) (s : St P D Ch K) (es : List (Ev P K)) : Calls M ok s es := by
  induction es generalizing s with
  | nil => trivial
  | cons e es ih => exact ⟨fun p k _ => h _ p k, ih _⟩

/-! ## Wakeups -/

section Wakeups

/-- Whether code that goes on like this still has to wake the channel. -/
def Next.owes (owes : K → Ch → Prop) : Next Ch K → Ch → Prop
  | goto k, ch => owes k ch
  | sleep _ _, _ => False
  | wakeup c k, ch => c = ch ∨ owes k ch
  | release after, ch => after = some ch

/-- Between making the condition of a channel true and the scan that wakes the channel. -/
def Pc.owes (owes : K → Ch → Prop) : Pc Ch K → Ch → Prop
  | locked k, ch => owes k ch
  | wakeAcquire c k, ch => c = ch ∨ ∃ k', k = some k' ∧ owes k' ch
  | wakeScan c k, ch => c = ch ∨ ∃ k', k = some k' ∧ owes k' ch
  | wakeRelease k, ch => ∃ k', k = some k' ∧ owes k' ch
  | _, _ => False

/-- No statement sleeps on a true condition, and one that makes a condition true, or has to
    wake its channel, goes on to do so. -/
structure Wakes (M : Client P D Ch K) (cond : Ch → D → Prop) (owes : K → Ch → Prop) : Prop where
  sleeps : ∀ p d k ch k', (M.exec p d k).2 = .sleep ch k' → ¬ cond ch (M.exec p d k).1
  sets : ∀ p d k ch, cond ch (M.exec p d k).1 → (cond ch d ∧ ¬ owes k ch) ∨ (M.exec p d k).2.owes owes ch

/-- Asleep on the channel, or past the point where `sleep` gives up `lk`. -/
def St.Sleeper (s : St P D Ch K) (p : P) (ch : Ch) : Prop :=
  (s.state p = .sleeping ∧ s.chan p = some ch) ∨ ∃ k, s.pc p = .sleepSet ch k

/-- In `sleep`, before it gives up `lk`. -/
def Pc.Going (x : Pc Ch K) (ch : Ch) : Prop := ∃ k, x = .sleepAcquire ch k ∨ x = .sleepRelease ch k

structure Awake (cond : Ch → D → Prop) (owes : K → Ch → Prop) (s : St P D Ch K) : Prop where
  locks : Locks s
  going : ∀ p ch, (s.pc p).Going ch → ¬ cond ch s.data
  slept : ∀ p ch, s.Sleeper p ch → cond ch s.data → ∃ q, (s.pc q).owes owes ch

variable {cond : Ch → D → Prop} {owes : K → Ch → Prop}

omit [DecidableEq P] [DecidableEq Ch] in
theorem Awake.start (d : D) : Awake cond owes (St.start d : St P D Ch K) := by
  refine ⟨.start d, fun p ch ⟨k, hk⟩ => ?_, fun p ch hs _ => ?_⟩
  · rcases hk with hk | hk <;> cases hk
  · rcases hs with ⟨hs, _⟩ | ⟨k, hk⟩
    · cases hs
    · cases hk

omit [DecidableEq P] [DecidableEq Ch] in
/-- A step after which no one more sleeps, no condition is true that was not, and all that
    had to wake a channel still have to. -/
theorem Awake.move (h : Awake cond owes s) {s' : St P D Ch K} (hl : Locks s') (hd : s'.data = s.data)
    (hg : ∀ q ch, (s'.pc q).Going ch → (s.pc q).Going ch) (hs : ∀ q ch, s'.Sleeper q ch → s.Sleeper q ch)
    (ho : ∀ q ch, (s.pc q).owes owes ch → (s'.pc q).owes owes ch) : Awake cond owes s' := by
  refine ⟨hl, fun q ch hq => ?_, fun q ch hq hc => ?_⟩
  · rw [hd]
    exact h.going q ch (hg q ch hq)
  · rw [hd] at hc
    obtain ⟨w, hw⟩ := h.slept q ch (hs q ch hq) hc
    exact ⟨w, ho w ch hw⟩

omit [DecidableEq Ch] in
/-- `p` moves on. -/
theorem Awake.advance (h : Awake cond owes s) {s' : St P D Ch K} {x y : Pc Ch K} (hl : Locks s') (hp : s.pc p = y)
    (hd : s'.data = s.data) (hpc : s'.pc = update s.pc p x) (hg : ∀ ch, x.Going ch → y.Going ch)
    (hx : ∀ ch k, x ≠ .sleepSet ch k) (ho : ∀ ch, y.owes owes ch → x.owes owes ch)
    (hs : ∀ q ch, s'.state q = .sleeping → s'.chan q = some ch → s.Sleeper q ch) : Awake cond owes s' := by
  refine h.move hl hd (fun q ch hq => ?_) (fun q ch hq => ?_) (fun q ch hq => ?_)
  · by_cases e : q = p <;> simp_all
  · rcases hq with ⟨h1, h2⟩ | ⟨k, hk⟩
    · exact hs q ch h1 h2
    · rw [hpc] at hk
      exact .inr ⟨k, by grind⟩
  · by_cases e : q = p <;> simp_all

omit [DecidableEq Ch] in
/-- What every kind of statement has in common. -/
theorem Awake.after (hM : Wakes M cond owes) (h : Awake cond owes s) {k : K} (hk : s.pc p = .locked k) {s' : St P D Ch K}
    {x : Pc Ch K} (hl : Locks s') (hd : s'.data = (M.exec p s.data k).1) (hpc : s'.pc = update s.pc p x)
    (hst : s'.state = s.state) (hch : s'.chan = s.chan) (hg : ∀ ch, x.Going ch → ¬ cond ch (M.exec p s.data k).1)
    (hx : ∀ ch k, x ≠ .sleepSet ch k) (ho : ∀ ch, (M.exec p s.data k).2.owes owes ch → x.owes owes ch) :
    Awake cond owes s' := by
  have hlk : (s.pc p).holdsLk = true := by rw [hk]; rfl
  refine ⟨hl, fun q ch hq => ?_, fun q ch hq hc => ?_⟩
  · rw [hpc] at hq
    rw [hd]
    -- only the holder of `lk` is on its way to sleep
    have := h.locks.lk.same hlk (q := q)
    grind [Pc.Going, Pc.holdsLk]
  · have hq' : s.Sleeper q ch := by
      rcases hq with ⟨h1, h2⟩ | ⟨k', hk'⟩
      · exact .inl ⟨hst ▸ h1, hch ▸ h2⟩
      · rw [hpc] at hk'
        exact .inr ⟨k', by grind⟩
    rw [hd] at hc
    rcases hM.sets p s.data k ch hc with ⟨hc', hno⟩ | ho'
    · obtain ⟨w, hw⟩ := h.slept q ch hq' hc'
      have e : w ≠ p := fun e => hno (by rwa [e, hk] at hw)
      exact ⟨w, by rw [hpc, update_of_ne e]; exact hw⟩
    · exact ⟨p, by rw [hpc, update_self]; exact ho ch ho'⟩

omit [DecidableEq Ch] in
theorem Awake.stmt (hM : Wakes M cond owes) (h : Awake cond owes s) {k : K} (hk : s.pc p = .locked k) :
    Awake cond owes (Sleep.stmt M s p k) := by
  have hl := h.locks.stmt hk (M := M)
  have hsl := hM.sleeps p s.data k
  have key := @Awake.after P D Ch K _ M s p cond owes hM h k hk
  unfold Sleep.stmt at hl ⊢
  split at hl <;> rename_i hx <;> simp only [hx] at key hsl ⊢
  · exact key hl rfl rfl rfl rfl (by simp [Pc.Going]) (by simp) fun ch ho => ho
  · refine key hl rfl rfl rfl rfl (fun ch ⟨k', hk'⟩ => ?_) (by simp) fun ch ho => ho
    rcases hk' with e | e <;> cases e
    exact hsl _ _ rfl
  · exact key hl rfl rfl rfl rfl (by simp [Pc.Going]) (by simp) fun ch ho => ho.imp_right fun ho => ⟨_, rfl, ho⟩
  · exact key hl rfl rfl rfl rfl (by simp [Pc.Going]) (by simp) nofun
  · exact key hl rfl rfl rfl rfl (by simp [Pc.Going]) (by simp) fun ch ho => .inl (Option.some.inj ho)

/-- The scan of `wakeup(c)`: nobody who sleeps on `c` sleeps on, and nobody is about to. -/
theorem Awake.scan (h : Awake cond owes s) {c : Ch} {k : Option K} (hp : s.pc p = .wakeScan c k)
    (hl : Locks { s with state := wakeup1 s c, pc := update s.pc p (.wakeRelease k) }) :
    Awake cond owes { s with state := wakeup1 s c, pc := update s.pc p (.wakeRelease k) } := by
  refine ⟨hl, fun q ch hq => ?_, fun q ch hq hc => ?_⟩
  · have := h.going q ch
    by_cases e : q = p <;> simp_all [Pc.Going]
  · -- `q` slept before the scan, on another channel
    have := h.locks.ptable.same (p := p) (q := q) (by rw [hp]; rfl)
    have hq' : s.Sleeper q ch ∧ c ≠ ch := by
      simp only [St.Sleeper, wakeup1] at hq ⊢
      grind [Pc.holdsPtable]
    obtain ⟨w, hw⟩ := h.slept q ch hq'.1 hc
    refine ⟨w, ?_⟩
    by_cases e : w = p
    · subst e
      rw [hp] at hw
      simpa [Pc.owes] using hw.resolve_left hq'.2
    · simpa [e] using hw

theorem Awake.step (hM : Wakes M cond owes) (h : Awake cond owes s) (e : Ev P K) : Awake cond owes (Sleep.step M s e) := by
  have hl : Locks (Sleep.step M s e) := h.locks.step e
  have hsame : ∀ q ch, s.state q = .sleeping → s.chan q = some ch → s.Sleeper q ch := fun q ch h1 h2 => .inl ⟨h1, h2⟩
  generalize hs' : Sleep.step M s e = s' at hl ⊢
  cases e with
  | call p k =>
    simp only [Sleep.step] at hs'
    repeat' split at hs'
    all_goals subst hs'
    case h_1.isTrue hp _ => exact h.advance hl hp rfl rfl (by simp [Pc.Going]) (by simp) (fun _ ho => ho) hsame
    all_goals exact h
  | kill q =>
    simp only [Sleep.step] at hs'
    split at hs' <;> subst hs'
    · refine h.move hl rfl (fun _ _ hg => hg) (fun r ch hr => ?_) fun _ _ ho => ho
      exact hr.imp_left fun ⟨h1, h2⟩ => ⟨by grind, h2⟩
    · exact h
  | step p =>
    simp only [Sleep.step] at hs'
    repeat' split at hs'
    all_goals subst hs'
    all_goals first | exact h | exact h.stmt hM ‹_› | exact h.scan ‹_› hl | skip
    case h_2.isTrue hp _ => exact h.advance hl hp rfl rfl (by simp [Pc.Going]) (by simp) nofun hsame
    case h_4.isTrue hp _ => exact h.advance hl hp rfl rfl (fun ch ⟨k, hk⟩ => ⟨k, .inl (by grind)⟩) (by simp) nofun hsame
    case h_9.isTrue hp _ => exact h.advance hl hp rfl rfl (by simp [Pc.Going]) (by simp) (fun _ ho => ho) hsame
    case h_5 c k hp =>
      -- `lk` is given up: the condition is still false, and `ptable.lock` held
      have hc : ¬ cond c s.data := h.going p c (by rw [hp]; exact ⟨k, .inr rfl⟩)
      have hr := h.locks.running p (by rw [hp]; rfl)
      refine ⟨hl, fun q ch hq => ?_, fun q ch hq hcd => ?_⟩
      · have := h.going q ch
        by_cases e : q = p <;> simp_all [Pc.Going]
      · have hq' : s.Sleeper q ch := by
          simp only [St.Sleeper] at hq ⊢
          grind
        obtain ⟨w, hw⟩ := h.slept q ch hq' hcd
        have e' : w ≠ p := fun e' => by rw [e', hp] at hw; exact hw
        exact ⟨w, by simpa [e'] using hw⟩
    case h_6 c k hp =>
      refine h.advance hl hp rfl rfl (by simp [Pc.Going]) (by simp) nofun fun q ch h1 h2 => ?_
      simp only [St.Sleeper]
      grind
    case h_7.isTrue hp _ =>
      exact h.advance hl hp rfl rfl (by simp [Pc.Going]) (by simp) nofun fun q ch h1 h2 => .inl ⟨by grind, h2⟩
    case h_8 hp => exact h.advance hl hp rfl rfl (by simp [Pc.Going]) (by simp) nofun fun q ch h1 h2 => .inl ⟨h1, by grind⟩
    case h_11 k hp =>
      cases k with
      | none => exact h.advance hl hp rfl rfl (by simp [Pc.Going]) (by simp) (fun _ ⟨_, e, _⟩ => by cases e) hsame
      | some k =>
        refine h.advance hl hp rfl rfl (by simp [Pc.Going]) (by simp) (fun ch ho => ?_) hsame
        obtain ⟨k', e, ho⟩ := ho
        cases e
        exact ho

theorem Awake.runs (hM : Wakes M cond owes) (h : Awake cond owes s) (es : List (Ev P K)) :
    Awake cond owes (Sleep.runs M s es) := by
  induction es generalizing s with
  | nil => exact h
  | cons e es ih => exact ih (h.step hM e)

/-- Where a condition holds and all that made it true have woken its channel, nobody sleeps on the channel. -/
theorem Wakes.no_sleeper (hM : Wakes M cond owes) (d : D) (es : List (Ev P K)) {ch : Ch}
    (hc : cond ch (Sleep.runs M (St.start d) es).data) (ho : ∀ q, ¬ ((Sleep.runs M (St.start d) es).pc q).owes owes ch) (p : P) :
    ¬ ((Sleep.runs M (St.start d) es).state p = .sleeping ∧ (Sleep.runs M (St.start d) es).chan p = some ch) := by
  intro hs
  obtain ⟨q, hq⟩ := ((Awake.start d).runs hM es).slept p ch (.inl hs) hc
  exact ho q hq

/-- In a `wakeup` called after `release(lk)`. -/
def Pc.late : Pc Ch K → Bool
  | wakeAcquire _ none => true
  | wakeScan _ none => true
  | wakeRelease none => true
  | _ => false

omit [DecidableEq Ch] in
theorem late_update {x : Pc Ch K} (h : ∀ q, (s.pc q).late = false) (hx : x.late = false) (q : P) :
    (update s.pc p x q).late = false := by
  by_cases e : q = p <;> simp [e, hx, h q]

theorem not_late_step (hM : ∀ p d k ch, (M.exec p d k).2 ≠ .release (some ch)) (h : ∀ q, (s.pc q).late = false)
    (e : Ev P K) (q : P) : ((Sleep.step M s e).pc q).late = false := by
  have hM' : ∀ p d k d' ch, M.exec p d k ≠ (d', .release (some ch)) := fun p d k d' ch e => hM p d k ch (by rw [e])
  cases e <;> simp only [Sleep.step, Sleep.stmt] <;> repeat' split
  all_goals first | exact h q | (try cases ‹Option K›) <;> grind [Pc.late, Option.elim]

/-- Code that wakes only under `lk` owes nothing while `lk` is free. -/
theorem Wakes.no_sleeper_free (hM : Wakes M cond owes) (hr : ∀ p d k ch, (M.exec p d k).2 ≠ .release (some ch)) (d : D)
    (es : List (Ev P K)) {ch : Ch} (hl : (Sleep.runs M (St.start d) es).lk = none)
    (hc : cond ch (Sleep.runs M (St.start d) es).data) (p : P) :
    ¬ ((Sleep.runs M (St.start d) es).state p = .sleeping ∧ (Sleep.runs M (St.start d) es).chan p = some ch) := by
  refine hM.no_sleeper d es hc (fun q hq => ?_) p
  have hlate : ∀ (es : List (Ev P K)) (s : St P D Ch K), (∀ q, (s.pc q).late = false) →
      ∀ q, ((Sleep.runs M s es).pc q).late = false := by
    intro es
    induction es with
    | nil => exact fun s h => h
    | cons e es ih => exact fun s h => ih _ (not_late_step hr h e)
  have hq' := hlate es (St.start d) (fun _ => rfl) q
  have hno : ((Sleep.runs M (St.start d) es).pc q).holdsLk ≠ true := by
    intro h
    have := (((Awake.start d).runs hM es).locks.lk q).1 h
    rw [hl] at this
    cases this
  generalize (Sleep.runs M (St.start d) es).pc q = x at hq hq' hno
  cases x <;> simp only [Pc.owes] at hq
  all_goals (try cases ‹Option K›) <;> grind [Pc.late, Pc.holdsLk]

end Wakeups

end Proc.Sleep

end Xv6
