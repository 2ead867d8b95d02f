/-
  Xv6.Proc.Table — the process table and the CPUs that run its processes (`proc.c`).

  A CPU executes one statement at a time: of its scheduler, or of the process whose kernel
  stack it is on. `swtch` changes the stack and nothing else; `ptable.lock` is held by a
  CPU and crosses `swtch` in both directions. A process between its calls is at `user`; it
  may call `fork`, `exit`, `wait` and `kill`, be preempted (`yield`), and sleep and wake
  others on channels that are no `struct proc`.

  The loops of `exit`, `wait`, `kill` and `wakeup1` read and write only what changes under
  `ptable.lock` (the parent of an EMBRYO apart, which is nobody they look for) and are one
  statement each. `allocproc` looks for a slot that a failing `fork` gives back without the
  lock, and goes slot by slot; so does the scheduler, which leaves the loop by `swtch`.
-/

import Xv6.Proc.Sleep

namespace Xv6.Ptable

open List

/-- What a process sleeps on: itself in `wait`, something else everywhere else. -/
inductive Chan (n : Nat) where
  | proc (p : Fin n)
  | other (a : Nat)
  deriving DecidableEq

/-- `struct proc` -/
structure Proc (n : Nat) where
  state : ProcState
  pid : BitVec 32
  parent : Option (Fin n)
  chan : Option (Chan n)
  killed : Bool

abbrev Table (n : Nat) := Fin n → Proc n

namespace Table

variable {n : Nat}

def modify (t : Table n) (p : Fin n) (f : Proc n → Proc n) : Table n := Function.update t p (f (t p))

def wakeup1 (t : Table n) (chan : Chan n) : Table n :=
  fun p => if (t p).state = .sleeping ∧ (t p).chan = some chan then { t p with state := .runnable } else t p

/-- The loop of `exit` that passes the children of `p` to init. -/
def passChildren (init p : Fin n) : List (Fin n) → Table n → Table n
  | [], t => t
  | q :: qs, t =>
    if (t q).parent = some p then
      let t' := t.modify q fun x => { x with parent := some init }
      passChildren init p qs (if (t q).state = .zombie then t'.wakeup1 (.proc init) else t')
    else passChildren init p qs t

/-- `exit`, from `acquire(&ptable.lock)` to `sched()` -/
def exit (init p : Fin n) (t : Table n) : Table n :=
  let t := match (t p).parent with
    | some f => t.wakeup1 (.proc f)
    | none => t
  (passChildren init p (List.finRange n) t).modify p fun x => { x with state := .zombie }

/-- The scan of `wait`: the first zombie child, and `havekids`. -/
def waitScan (t : Table n) (p : Fin n) : List (Fin n) → Bool → Option (Fin n) × Bool
  | [], havekids => (none, havekids)
  | q :: qs, havekids =>
    if (t q).parent ≠ some p then waitScan t p qs havekids
    else if (t q).state = .zombie then (some q, true)
    else waitScan t p qs true

/-- The scan of `kill`. -/
def killScan (t : Table n) (pid : BitVec 32) : Option (Fin n) := (List.finRange n).find? fun q => (t q).pid == pid

/-- The slot a `wait` gives back. -/
def reap (x : Proc n) : Proc n := { x with state := .unused, pid := 0, parent := none, killed := false }

def kill (x : Proc n) : Proc n :=
  { x with killed := true, state := if x.state = .sleeping then .runnable else x.state }

end Table

/-- What one pass of the loop of `wait` comes to. -/
inductive Wait (n : Nat) where
  | found (q : Fin n)
  | fail
  | sleep

def Table.wait {n : Nat} (t : Table n) (p : Fin n) : Wait n :=
  match t.waitScan p (List.finRange n) false with
  | (some q, _) => .found q
  | (none, havekids) => if !havekids || (t p).killed then .fail else .sleep

/-! ## Control points -/

/-- The code with `ptable.lock` held. -/
inductive Section (n : Nat) where
  /-- the loop of `allocproc` -/
  | alloc (i : Nat)
  /-- the end of `fork` -/
  | publish (np : Fin n)
  | exit
  | wait
  | kill (pid : BitVec 32)
  | yield
  | sleep (a : Nat)
  | wakeup (a : Nat)
  deriving DecidableEq

/-- Where `sched` was called. -/
inductive Site where
  | yield
  | sleep
  | wait
  | exit
  deriving DecidableEq

inductive Pc (n : Nat) where
  | user
  | acquire (k : Section n)
  | locked (k : Section n)
  -- in `fork`, without the lock: the kernel stack, `copyuvm`, the rest of the child
  | kstack (np : Fin n)
  | copy (np : Fin n)
  | adopt (np : Fin n)
  -- about to `swtch`, and after it
  | sched (k : Site)
  | back (k : Site)
  | forkret
  deriving DecidableEq

/-- The statement of `scheduler` to be executed next. -/
inductive Loop (n : Nat) where
  | acquire
  | scan (i : Nat)
  | switchuvm (p : Fin n)
  | setRunning (p : Fin n)
  | swtch (p : Fin n)
  | switchkvm (p : Fin n)
  | clearProc (p : Fin n)
  deriving DecidableEq

/-- `struct cpu`, the stack in use (none: the scheduler's) and the page table (none: `kpgdir`). -/
structure Cpu (n : Nat) where
  proc : Option (Fin n)
  stack : Option (Fin n)
  cr3 : Option (Fin n)
  loop : Loop n

/-- What has happened, newest first. Processes are named by their pids. -/
inductive Entry (n : Nat) where
  | assigned (p : Fin n) (pid : BitVec 32)
  | forked (pid by' : BitVec 32)
  | exited (pid : BitVec 32)
  | reaped (pid by' : BitVec 32)
  | kill (pid : BitVec 32) (returned : Int)
  deriving DecidableEq

structure Kernel (n : Nat) (C : Type) where
  lock : Option C
  nextpid : BitVec 32
  initproc : Fin n
  proc : Table n
  pc : Fin n → Pc n
  cpu : C → Cpu n
  log : List (Entry n)
  panicked : Bool

inductive Call where
  | fork
  | exit
  | wait
  | kill (pid : BitVec 32)
  | yield
  | sleep (a : Nat)
  | wakeup (a : Nat)

def Call.entry {n : Nat} : Call → Section n
  | fork => .alloc 0
  | exit => .exit
  | wait => .wait
  | kill pid => .kill pid
  | yield => .yield
  | sleep a => .sleep a
  | wakeup a => .wakeup a

/-- A process on a CPU makes a call or traps; a CPU executes a statement, where `ok` says
    whether memory that it asks for is there; an interrupt wakes a channel. -/
inductive Ev (C : Type) where
  | call (c : C) (k : Call)
  | trap (c : C)
  | step (c : C) (ok : Bool)
  | interrupt (a : Nat)

namespace Kernel

variable {n : Nat} {C : Type}

/-- After `userinit` and `mpmain`: init is to run for the first time. -/
def boot (init : Fin n) : Kernel n C where
  lock := none
  nextpid := 2
  initproc := init
  proc p := { state := if p = init then .runnable else .unused, pid := if p = init then 1 else 0, parent := none, chan := none,
              killed := false }
  pc _ := .forkret
  cpu _ := ⟨none, none, none, .acquire⟩
  log := [.assigned init 1]
  panicked := false

@[simp] def goto (s : Kernel n C) (p : Fin n) (x : Pc n) : Kernel n C := { s with pc := Function.update s.pc p x }

@[simp] def table (s : Kernel n C) (t : Table n) : Kernel n C := { s with proc := t }

@[simp] def modify (s : Kernel n C) (p : Fin n) (f : Proc n → Proc n) : Kernel n C := s.table (s.proc.modify p f)

@[simp] def release (s : Kernel n C) : Kernel n C := { s with lock := none }

@[simp] def note (s : Kernel n C) (x : Entry n) : Kernel n C := { s with log := x :: s.log }

@[simp] def panic (s : Kernel n C) : Kernel n C := { s with panicked := true }

section Step

variable [DecidableEq C]

@[simp] def setCpu (s : Kernel n C) (c : C) (f : Cpu n → Cpu n) : Kernel n C := { s with cpu := Function.update s.cpu c (f (s.cpu c)) }

def schedulerStep (s : Kernel n C) (c : C) : Loop n → Kernel n C
  | .acquire =>
    if s.lock = none then { s with lock := some c }.setCpu c fun x => { x with loop := .scan 0 } else s
  | .scan i =>
    if h : i < n then
      if (s.proc ⟨i, h⟩).state = .runnable then
        s.setCpu c fun x => { x with proc := some ⟨i, h⟩, loop := .switchuvm ⟨i, h⟩ }
      else s.setCpu c fun x => { x with loop := .scan (i + 1) }
    else s.release.setCpu c fun x => { x with loop := .acquire }
  | .switchuvm p => s.setCpu c fun x => { x with cr3 := some p, loop := .setRunning p }
  | .setRunning p =>
    (s.modify p fun x => { x with state := .running }).setCpu c fun x => { x with loop := .swtch p }
  | .swtch p => s.setCpu c fun x => { x with stack := some p, loop := .switchkvm p }
  | .switchkvm p => s.setCpu c fun x => { x with cr3 := none, loop := .clearProc p }
  | .clearProc p => s.setCpu c fun x => { x with proc := none, loop := .scan (p + 1) }

/-- The statements under `ptable.lock` of the process `p` (`myproc()`), on the stack of `t`. -/
def sectionStep (s : Kernel n C) (t p : Fin n) : Section n → Kernel n C
  | .alloc i =>
    if h : i < n then
      if (s.proc ⟨i, h⟩).state = .unused then
        (((({ s with nextpid := s.nextpid + 1 }).modify ⟨i, h⟩ fun x => { x with state := .embryo, pid := s.nextpid }).note
          (.assigned ⟨i, h⟩ s.nextpid)).release).goto t (.kstack ⟨i, h⟩)
      else s.goto t (.locked (.alloc (i + 1)))
    else s.release.goto t .user
  | .publish np =>
    (((s.modify np fun x => { x with state := .runnable }).note (.forked (s.proc np).pid (s.proc p).pid)).release).goto t .user
  | .exit => ((s.table (s.proc.exit s.initproc p)).note (.exited (s.proc p).pid)).goto t (.sched .exit)
  | .wait => match s.proc.wait p with
    | .found q => (((s.modify q Table.reap).note (.reaped (s.proc q).pid (s.proc p).pid)).release).goto t .user
    | .fail => s.release.goto t .user
    | .sleep => (s.modify p fun x => { x with chan := some (.proc p), state := .sleeping }).goto t (.sched .wait)
  | .kill pid => match s.proc.killScan pid with
    | some q => (((s.modify q Table.kill).note (.kill pid 0)).release).goto t .user
    | none => ((s.note (.kill pid (-1))).release).goto t .user
  | .yield => (s.modify p fun x => { x with state := .runnable }).goto t (.sched .yield)
  | .sleep a => (s.modify p fun x => { x with chan := some (.other a), state := .sleeping }).goto t (.sched .sleep)
  | .wakeup a => (s.table (s.proc.wakeup1 (.other a))).release.goto t .user

def processStep (s : Kernel n C) (c : C) (t p : Fin n) (ok : Bool) : Kernel n C :=
  match s.pc t with
  | .user => s
  | .acquire k => if s.lock = none then { s with lock := some c }.goto t (.locked k) else s
  | .locked k => s.sectionStep t p k
  -- allocproc: the context of the new process is at forkret
  | .kstack np =>
    if ok then (s.goto np .forkret).goto t (.copy np) else (s.modify np fun x => { x with state := .unused }).goto t .user
  | .copy np =>
    if ok then s.goto t (.adopt np) else (s.modify np fun x => { x with state := .unused }).goto t .user
  | .adopt np => (s.modify np fun x => { x with parent := some p }).goto t (.acquire (.publish np))
  | .sched k => if (s.proc p).state = .running then s.panic else (s.goto t (.back k)).setCpu c fun x => { x with stack := none }
  | .back .yield => s.release.goto t .user
  | .back .sleep => (s.modify p fun x => { x with chan := none }).release.goto t .user
  | .back .wait => (s.modify p fun x => { x with chan := none }).goto t (.locked .wait)
  | .back .exit => s.panic
  | .forkret => s.release.goto t .user

def step (s : Kernel n C) : Ev C → Kernel n C
  | .call c k => if s.panicked then s else match (s.cpu c).stack, (s.cpu c).proc with
    | some t, some p =>
      if s.pc t = .user then
        match k with
        -- init exiting
        | .exit => if p = s.initproc then s.panic else s.goto t (.acquire .exit)
        | k => s.goto t (.acquire k.entry)
      else s
    | _, _ => s
  | .trap c => if s.panicked then s else match (s.cpu c).stack, (s.cpu c).proc with
    | some t, some p => if s.pc t = .user then s.modify p fun x => { x with killed := true } else s
    | _, _ => s
  | .step c ok => if s.panicked then s else match (s.cpu c).stack with
    | none => s.schedulerStep c (s.cpu c).loop
    | some t => match (s.cpu c).proc with
      | some p => s.processStep c t p ok
      | none => s.panic
  | .interrupt a => if s.panicked then s else if s.lock = none then s.table (s.proc.wakeup1 (.other a)) else s

def runs (s : Kernel n C) (es : List (Ev C)) : Kernel n C := es.foldl step s

end Step

end Kernel

/-! ## What the loops do -/

namespace Table

variable {n : Nat} {t t' : Table n} {p q : Fin n}

@[simp] theorem modify_apply (t : Table n) (p q : Fin n) (f : Proc n → Proc n) :
    t.modify p f q = if q = p then f (t q) else t q := by
  unfold modify
  by_cases e : q = p <;> simp [e]

theorem modify_self (t : Table n) (p : Fin n) (f : Proc n → Proc n) : t.modify p f p = f (t p) := Function.update_self ..

theorem modify_of_ne (t : Table n) {p q : Fin n} (f : Proc n → Proc n) (e : q ≠ p) : t.modify p f q = t q :=
  Function.update_of_ne e ..

theorem modify_state (t : Table n) (p : Fin n) {f : Proc n → Proc n} (hf : ∀ x, (f x).state = x.state) (q : Fin n) :
    (t.modify p f q).state = (t q).state := by
  grind [modify_apply]

/-- Some sleepers are made RUNNABLE, those on the channels `cs` among them. -/
structure Woken (cs : Chan n → Prop) (t t' : Table n) : Prop where
  pid : ∀ q, (t' q).pid = (t q).pid
  chan : ∀ q, (t' q).chan = (t q).chan
  killed : ∀ q, (t' q).killed = (t q).killed
  state : ∀ q, (t' q).state = (t q).state ∨ (t q).state = .sleeping ∧ (t' q).state = .runnable
  none : ∀ q ch, cs ch → (t q).chan = some ch → (t' q).state ≠ .sleeping

theorem Woken.refl (t : Table n) : Woken (fun _ => False) t t :=
  ⟨fun _ => rfl, fun _ => rfl, fun _ => rfl, fun _ => .inl rfl, fun _ _ h => h.elim⟩

theorem Woken.trans {t₁ t₂ t₃ : Table n} {cs ds : Chan n → Prop} (h : Woken cs t₁ t₂) (h' : Woken ds t₂ t₃) :
    Woken (fun ch => cs ch ∨ ds ch) t₁ t₃ := by
  refine ⟨fun q => (h'.pid q).trans (h.pid q), fun q => (h'.chan q).trans (h.chan q), fun q => (h'.killed q).trans (h.killed q),
    fun q => ?_, fun q ch hc hq => ?_⟩
  · have := h.state q
    have := h'.state q
    grind
  · have := h.none q ch
    have := h'.state q
    have := h'.none q ch
    have := h.chan q
    grind

theorem Woken.imp {cs ds : Chan n → Prop} (h : Woken cs t t') (hd : ∀ ch, ds ch → cs ch) : Woken ds t t' :=
  ⟨h.pid, h.chan, h.killed, h.state, fun q ch hc => h.none q ch (hd ch hc)⟩

theorem woken_wakeup1 (t : Table n) (ch : Chan n) : Woken (fun c => c = ch) t (t.wakeup1 ch) := by
  refine ⟨fun q => ?_, fun q => ?_, fun q => ?_, fun q => ?_, fun q c hc hq => ?_⟩
  all_goals grind [wakeup1]

@[simp] theorem wakeup1_parent (t : Table n) (ch : Chan n) (q : Fin n) : (t.wakeup1 ch q).parent = (t q).parent := by
  simp only [wakeup1]; split <;> rfl

theorem woken_parent (t : Table n) (q f : Fin n) : Woken (fun _ => False) t (t.modify q fun x => { x with parent := some f }) := by
  refine ⟨fun r => ?_, fun r => ?_, fun r => ?_, fun r => .inl ?_, fun _ _ h => h.elim⟩ <;>
    simp only [modify_apply] <;> split <;> rfl

/-- The children of `p` among `qs` are passed to init, and a zombie wakes init. -/
theorem passChildren_spec (init p : Fin n) (qs : List (Fin n)) (t : Table n) :
    Woken (fun ch => ch = .proc init ∧ ∃ z ∈ qs, (t z).parent = some p ∧ (t z).state = .zombie) t (passChildren init p qs t) ∧
    ∀ r, (passChildren init p qs t r).parent = if (t r).parent = some p ∧ r ∈ qs then some init else (t r).parent := by
  induction qs generalizing t with
  | nil => exact ⟨(Woken.refl t).imp (by simp), by simp [passChildren]⟩
  | cons q qs ih =>
    simp only [passChildren]
    split
    · rename_i hq
      -- the child changes hands first, and then init may be woken
      set t₁ := t.modify q fun x => { x with parent := some init } with ht₁
      set t₂ := if (t q).state = .zombie then t₁.wakeup1 (.proc init) else t₁ with ht₂
      have h₁ : Woken (fun ch => ch = .proc init ∧ (t q).state = .zombie) t t₂ := by
        rw [ht₂]
        split
        · exact ((woken_parent t q init).trans (woken_wakeup1 t₁ (.proc init))).imp fun _ hc => .inr hc.1
        · rename_i hz
          exact (woken_parent t q init).imp fun _ hc => hz hc.2
      have hpar : ∀ r, (t₂ r).parent = if r = q then some init else (t r).parent := fun r => by
        grind [modify_apply, wakeup1_parent]
      obtain ⟨h₂, hpar₂⟩ := ih t₂
      refine ⟨(h₁.trans h₂).imp fun ch ⟨hch, z, hz, hzp, hzs⟩ => ?_, fun r => ?_⟩
      · by_cases e : z = q
        · exact .inl ⟨hch, e ▸ hzs⟩
        · have := h₁.state z
          exact .inr ⟨hch, z, by grind, by grind, by grind⟩
      · rw [hpar₂, hpar]
        by_cases e : r = q
        · by_cases ei : init = p <;> simp [e, hq, ei]
        · simp [e]
    · rename_i hq
      obtain ⟨h, hpar⟩ := ih t
      refine ⟨h.imp fun ch ⟨hch, z, hz, hzp, hzs⟩ => ⟨hch, z, by grind, hzp, hzs⟩, fun r => ?_⟩
      by_cases e : r = q <;> simp [hpar, hq, e]

/-- What `exit` makes of the table. -/
structure Exited (init p : Fin n) (t t' : Table n) : Prop where
  pid : ∀ q, (t' q).pid = (t q).pid
  chan : ∀ q, (t' q).chan = (t q).chan
  killed : ∀ q, (t' q).killed = (t q).killed
  parent : ∀ q, (t' q).parent = if (t q).parent = some p then some init else (t q).parent
  self : (t' p).state = .zombie
  state : ∀ q, q ≠ p → (t' q).state = (t q).state ∨ (t q).state = .sleeping ∧ (t' q).state = .runnable
  parentWoken : ∀ q f, q ≠ p → (t p).parent = some f → (t q).chan = some (.proc f) → (t' q).state ≠ .sleeping
  initWoken : ∀ q z, q ≠ p → (t z).parent = some p → (t z).state = .zombie → (t q).chan = some (.proc init) →
    (t' q).state ≠ .sleeping

theorem exited_exit (init p : Fin n) (t : Table n) : Exited init p t (t.exit init p) := by
  set t₁ := match (t p).parent with
    | some f => t.wakeup1 (.proc f)
    | none => t with ht₁
  have h₁ : Woken (fun ch => ∃ f, (t p).parent = some f ∧ ch = .proc f) t t₁ := by
    rw [ht₁]
    split
    · rename_i f hf
      exact (woken_wakeup1 t (.proc f)).imp (by simp [hf])
    · rename_i hf
      exact (Woken.refl t).imp (by simp [hf])
  have hpar : ∀ q, (t₁ q).parent = (t q).parent := fun q => by
    rw [ht₁]
    split <;> simp
  obtain ⟨h₂, hpar₂⟩ := passChildren_spec init p (finRange n) t₁
  have h := h₁.trans h₂
  have he : ∀ q, t.exit init p q = if q = p then { passChildren init p (finRange n) t₁ q with state := .zombie }
      else passChildren init p (finRange n) t₁ q := fun q =>
    modify_apply (passChildren init p (finRange n) t₁) p q fun x => { x with state := .zombie }
  refine ⟨fun q => ?_, fun q => ?_, fun q => ?_, fun q => ?_, ?_, fun q e => ?_, fun q f e hf hc => ?_, fun q z e hz hzs hc => ?_⟩
  · rw [he, ← h.pid q]; split <;> rfl
  · rw [he, ← h.chan q]; split <;> rfl
  · rw [he, ← h.killed q]; split <;> rfl
  · have : (t.exit init p q).parent = (passChildren init p (finRange n) t₁ q).parent := by
      rw [he]; split <;> rfl
    rw [this, hpar₂, hpar]
    simp
  · rw [he, if_pos rfl]
  · rw [he, if_neg e]; exact h.state q
  · rw [he, if_neg e]
    exact h.none q _ (.inl ⟨f, hf, rfl⟩) hc
  · rw [he, if_neg e]
    refine h.none q _ (.inr ⟨rfl, z, mem_finRange z, by rw [hpar, hz], ?_⟩) hc
    have := h₁.state z
    grind

/-- The scan of `wait` finds a zombie child if there is one, and otherwise whether there is a child. -/
theorem waitScan_spec (t : Table n) (p : Fin n) (qs : List (Fin n)) (havekids : Bool) :
    match t.waitScan p qs havekids with
    | (some q, _) => (t q).parent = some p ∧ (t q).state = .zombie
    | (none, havekids') => (∀ q ∈ qs, (t q).parent = some p → (t q).state ≠ .zombie) ∧
        (havekids' = true ↔ havekids = true ∨ ∃ q ∈ qs, (t q).parent = some p) := by
  induction qs generalizing havekids with
  | nil => simp [waitScan]
  | cons q qs ih =>
    simp only [waitScan]
    by_cases hp : (t q).parent = some p
    · simp only [hp, ne_eq, not_true_eq_false, if_false]
      by_cases hz : (t q).state = .zombie
      · simp only [hz, if_true]
        exact ⟨hp, trivial⟩
      · simp only [hz, if_false]
        have := ih true
        split <;> grind
    · simp only [ne_eq, hp, not_false_eq_true, if_true]
      have := ih havekids
      split <;> grind

theorem wait_found (h : t.wait p = .found q) : (t q).parent = some p ∧ (t q).state = .zombie := by
  have hs := waitScan_spec t p (finRange n) false
  unfold wait at h
  split at h
  · rename_i hx
    rw [hx] at hs
    cases h
    exact hs
  · split at h <;> cases h

theorem wait_fail (h : t.wait p = .fail) : (∀ q, (t q).parent ≠ some p) ∨ (t p).killed = true := by
  have hs := waitScan_spec t p (finRange n) false
  unfold wait at h
  split at h
  · cases h
  · rename_i havekids hx
    rw [hx] at hs
    split at h
    · rename_i hc
      cases havekids with
      | false =>
        refine .inl fun q hq => ?_
        exact absurd (hs.2.2 (.inr ⟨q, mem_finRange q, hq⟩)) (by simp)
      | true => exact .inr (by simpa using hc)
    · cases h

theorem wait_sleep (h : t.wait p = .sleep) :
    (∃ q, (t q).parent = some p) ∧ ∀ q, (t q).parent = some p → (t q).state ≠ .zombie := by
  have hs := waitScan_spec t p (finRange n) false
  unfold wait at h
  split at h
  · cases h
  · rename_i havekids hx
    rw [hx] at hs
    split at h
    · cases h
    · rename_i hc
      have hk : havekids = true := by
        cases havekids with
        | false => simp at hc
        | true => rfl
      rcases hs.2.1 hk with e | ⟨q, _, hq⟩
      · cases e
      · exact ⟨⟨q, hq⟩, fun r => hs.1 r (mem_finRange r)⟩

theorem killScan_some {pid : BitVec 32} (h : t.killScan pid = some q) : (t q).pid = pid := by
  have := find?_some h
  simpa using this

end Table

end Xv6.Ptable
