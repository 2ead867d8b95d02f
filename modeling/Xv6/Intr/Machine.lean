/-
  Xv6.Intr.Machine — pushcli, popcli and what calls them (`spinlock.c`, `proc.c`), on any number
  of CPUs that take interrupts.

  A kernel thread is the scheduler of a CPU or a process. It has a stack of frames: depth 0 of a
  process is user mode, and every trap that a thread takes is a frame more. A frame executes the
  calls of the trap's handler, one action at a time, while its thread is on a CPU and it is the
  top one. A CPU takes an interrupt between any two actions while its IF flag is set, also between
  `readeflags` and `cli` in `pushcli`. `swtch` takes one thread off the CPU and puts another on.

  What is not here: a process is one run of `fork`, not a slot, and one that is not made yet is one
  that no scheduler looks at. A handler returns only with the locks that it took released.
-/

import Xv6.Lib.Prog

namespace Xv6.Intr

open Lib Prog

/-! ## The machine -/

inductive Thread (C P : Type) where
  | scheduler (c : C)
  | proc (p : P)
  deriving DecidableEq

structure Frame (C P : Type) where
  thread : Thread C P
  depth : Nat
  deriving DecidableEq

/-- User mode, whose code is not modelled. -/
def Frame.user {C P : Type} : Frame C P → Bool
  | ⟨.proc _, 0⟩ => true
  | _ => false

inductive Lock (L : Type) where
  | ptable
  | other (x : L)
  deriving DecidableEq

inductive PState where
  | runnable
  | running
  | sleeping
  | zombie
  deriving DecidableEq

/-- How a trap enters the kernel: the gates of interrupts clear IF, that of system calls does not
    (`tvinit`). -/
inductive Gate where
  | interrupt
  | syscall
  deriving DecidableEq

structure Cpu (P : Type) where
  IF : Bool
  ncli : Int
  intena : Bool
  proc : Option P

structure Machine (C P L : Type) where
  cpu : C → Cpu P
  /-- The CPU that a thread is on. -/
  on : Thread C P → Option C
  /-- The top frame of a thread's stack. -/
  depth : Thread C P → Nat
  /-- IF in the trap frame with which a frame began. -/
  saved : Frame C P → Bool
  locked : Lock L → Bool
  owner : Lock L → Option C
  state : P → PState
  chan : P → Option Nat

inductive Act (P L : Type) where
  -- a call of `pushcli` begins, a call of `popcli` ends: nothing happens
  | entered
  | left
  | readeflags
  | cli
  | sti
  | ncli
  | incNcli
  | decNcli
  | intena
  | setIntena (x : Bool)
  | proc
  | setProc (x : Option P)
  | locked (lk : Lock L)
  -- `lock->cpu == mycpu()`
  | mine (lk : Lock L)
  -- the loop around `xchg`
  | xchg (lk : Lock L)
  -- `lk->cpu = mycpu()` and `lk->cpu = 0`
  | own (lk : Lock L)
  | disown (lk : Lock L)
  | unlock (lk : Lock L)
  | state (p : P)
  | setState (p : P) (x : PState)
  | setChan (p : P) (x : Option Nat)
  -- the body of the loop in `wakeup1`
  | wake (p : P) (chan : Nat)
  -- `swtch(&p->context, mycpu()->scheduler)` and `swtch(&(c->scheduler), p->context)`
  | sched
  | swtch (p : P)
  | trap (g : Gate)
  | iret
  -- the scheduler's loop goes round
  | loop
  -- the caller holds the lock
  | requires (lk : Lock L)
  -- `for(;;);`
  | halt

def Act.Res {P L : Type} : Act P L → Type
  | .readeflags => Bool
  | .ncli => Int
  | .decNcli => Int
  | .intena => Bool
  | .proc => Option P
  | .locked _ => Bool
  | .mine _ => Bool
  | .state _ => PState
  | _ => Unit

variable {C P L : Type} [DecidableEq C] [DecidableEq P] [DecidableEq L]

namespace Machine

def setCpu (m : Machine C P L) (c : C) (x : Cpu P) : Machine C P L := { m with cpu := Function.update m.cpu c x }

/-- The CPU that executes the frame. -/
def here (m : Machine C P L) (f : Frame C P) : Option C :=
  if m.depth f.thread = f.depth ∧ f.user = false then m.on f.thread else none

/-- The trap that begins the frame `f`: the thread is in the frame below. -/
def trap (m : Machine C P L) (g : Gate) (f : Frame C P) : Out Empty (Unit × Machine C P L) :=
  match f.depth, m.on f.thread with
  | d + 1, some c =>
    if m.depth f.thread = d then
      let enter : Machine C P L :=
        { m with depth := Function.update m.depth f.thread f.depth, saved := Function.update m.saved f (m.cpu c).IF }
      match g with
      | .interrupt => if (m.cpu c).IF then .ok ((), enter.setCpu c { m.cpu c with IF := false }) else .wait
      -- from user mode
      | .syscall => match f.thread, d with
        | .proc _, 0 => .ok ((), enter)
        | _, _ => .wait
    else .wait
  | _, _ => .wait

/-- The CPU `c` performs an action of the frame `f`. -/
def perform (m : Machine C P L) (c : C) (f : Frame C P) : (a : Act P L) → Out Empty (a.Res × Machine C P L)
  | .entered => .ok ((), m)
  | .left => .ok ((), m)
  | .readeflags => .ok ((m.cpu c).IF, m)
  | .cli => .ok ((), m.setCpu c { m.cpu c with IF := false })
  | .sti => .ok ((), m.setCpu c { m.cpu c with IF := true })
  | .ncli => .ok ((m.cpu c).ncli, m)
  | .incNcli => .ok ((), m.setCpu c { m.cpu c with ncli := (m.cpu c).ncli + 1 })
  | .decNcli => .ok ((m.cpu c).ncli - 1, m.setCpu c { m.cpu c with ncli := (m.cpu c).ncli - 1 })
  | .intena => .ok ((m.cpu c).intena, m)
  | .setIntena x => .ok ((), m.setCpu c { m.cpu c with intena := x })
  | .proc => .ok ((m.cpu c).proc, m)
  | .setProc x => .ok ((), m.setCpu c { m.cpu c with proc := x })
  | .locked lk => .ok (m.locked lk, m)
  | .mine lk => .ok (decide (m.owner lk = some c), m)
  | .xchg lk => if m.locked lk then .wait else .ok ((), { m with locked := Function.update m.locked lk true })
  | .own lk => .ok ((), { m with owner := Function.update m.owner lk (some c) })
  | .disown lk => .ok ((), { m with owner := Function.update m.owner lk none })
  | .unlock lk => .ok ((), { m with locked := Function.update m.locked lk false })
  | .state p => .ok (m.state p, m)
  | .setState p x => .ok ((), { m with state := Function.update m.state p x })
  | .setChan p x => .ok ((), { m with chan := Function.update m.chan p x })
  | .wake p ch =>
    if m.state p = .sleeping ∧ m.chan p = some ch then .ok ((), { m with state := Function.update m.state p .runnable }) else .ok ((), m)
  | .sched => .ok ((), { m with on := Function.update (Function.update m.on f.thread none) (.scheduler c) (some c) })
  | .swtch p =>
    if m.on (.proc p) = none then .ok ((), { m with on := Function.update (Function.update m.on f.thread none) (.proc p) (some c) })
    -- does not happen: a RUNNABLE process is on no CPU (`Ptable.one_cpu_each`)
    else .wait
  | .trap _ => .wait
  | .iret => match f.depth with
    | d + 1 =>
      if (m.cpu c).ncli = 0 then
        .ok ((), { m with depth := Function.update m.depth f.thread d }.setCpu c { m.cpu c with IF := m.saved f })
      else .wait
    | 0 => .wait
  | .loop => match f.thread, f.depth with
    | .scheduler _, 0 => .ok ((), m)
    | _, _ => .wait
  | .requires lk => if m.owner lk = some c then .ok ((), m) else .wait
  | .halt => .wait

end Machine

def exec (f : Frame C P) (a : Act P L) (m : Machine C P L) : Out Empty (a.Res × Machine C P L) :=
  match a with
  | .trap g => m.trap g f
  | a => match m.here f with
    | some c => m.perform c f a
    | none => .wait

/-! ## The code -/

abbrev Code (P L α : Type) := Prog (Act P L) Act.Res α

def op (a : Act P L) : Code P L a.Res := Prog.perform a

def panic : Code P L Unit := do
  op .cli
  op .halt

def check (ok : Bool) : Code P L Unit := if ok then ret () else panic

/-- `mycpu`, whose result is the CPU that performs the next action. -/
def mycpu : Code P L Unit := do
  let eflags : Bool ← op .readeflags
  check !eflags

def pushcli : Code P L Unit := do
  op .entered
  let eflags : Bool ← op .readeflags
  op .cli
  mycpu
  let ncli : Int ← op .ncli
  if ncli = 0 then do
    mycpu
    op (.setIntena eflags)
    mycpu
    op .incNcli
  else do
    mycpu
    op .incNcli

/-- `popcli` from its last test on. -/
def restore : Code P L Unit := do
  mycpu
  let ncli : Int ← op .ncli
  if ncli = 0 then do
    mycpu
    let intena : Bool ← op .intena
    if intena then do
      op .sti
      op .left
    else op .left
  else op .left

def popcli : Code P L Unit := do
  let eflags : Bool ← op .readeflags
  check !eflags
  mycpu
  let ncli : Int ← op .decNcli
  check (0 ≤ ncli)
  restore

def holding (lk : Lock L) : Code P L Bool := do
  pushcli
  let locked : Bool ← op (.locked lk)
  if locked then do
    mycpu
    let r : Bool ← op (.mine lk)
    popcli
    ret r
  else do
    popcli
    ret false

def acquire (lk : Lock L) : Code P L Unit := do
  pushcli
  let held ← holding lk
  check !held
  op (.xchg lk)
  mycpu
  op (.own lk)

def release (lk : Lock L) : Code P L Unit := do
  let held ← holding lk
  check held
  op (.disown lk)
  op (.unlock lk)
  popcli

def myproc : Code P L (Option P) := do
  pushcli
  mycpu
  let p : Option P ← op .proc
  popcli
  ret p

/-- `switchuvm`, apart from the segments and the page table. -/
def switchuvm : Code P L Unit := do
  pushcli
  mycpu
  popcli

/-- A process, or the fault at address 0. -/
def deref (p : Option P) (k : P → Code P L Unit) : Code P L Unit :=
  match p with
  | some p => k p
  | none => panic

def sched : Code P L Unit := do
  let p ← myproc
  let held ← holding .ptable
  check held
  mycpu
  let ncli : Int ← op .ncli
  check (ncli = 1)
  deref p fun p => do
    let state : PState ← op (.state p)
    check (state ≠ .running)
    let eflags : Bool ← op .readeflags
    check !eflags
    mycpu
    let intena : Bool ← op .intena
    mycpu
    op .sched
    mycpu
    op (.setIntena intena)

def yield : Code P L Unit := do
  acquire .ptable
  let p ← myproc
  deref p fun p => do
    op (.setState p .runnable)
    sched
    release .ptable

/-- `sleep` once it holds `ptable.lock`. -/
def doze (p : P) (chan : Nat) : Code P L Unit := do
  op (.setChan p (some chan))
  op (.setState p .sleeping)
  sched
  op (.setChan p none)

def sleep (chan : Nat) (lk : Lock L) : Code P L Unit := do
  op (.requires lk)
  let p ← myproc
  deref p fun p =>
    if lk ≠ .ptable then do
      acquire .ptable
      release lk
      doze p chan
      release .ptable
      acquire lk
    else doze p chan

def wakeup1 (chan : Nat) : List P → Code P L Unit
  | [] => ret ()
  | p :: table => do
    op (.wake p chan)
    wakeup1 chan table

def wakeup (chan : Nat) (table : List P) : Code P L Unit := do
  acquire .ptable
  wakeup1 chan table
  release .ptable

/-- `exit` from where it takes `ptable.lock`, with one `wakeup1`. -/
def exit (chan : Nat) (table : List P) : Code P L Unit := do
  let p ← myproc
  acquire .ptable
  wakeup1 chan table
  deref p fun p => do
    op (.setState p .zombie)
    sched
    panic

/-- The loop of `scheduler` over the table. -/
def scan : List P → Code P L Unit
  | [] => ret ()
  | p :: table => do
    let state : PState ← op (.state p)
    if state = .runnable then do
      op (.setProc (some p))
      switchuvm
      op (.setState p .running)
      op (.swtch p)
      op (.setProc none)
      scan table
    else scan table

def scheduler (table : List P) : Code P L Unit := do
  op .loop
  op .sti
  acquire .ptable
  scan table
  release .ptable

/-! ## Traps -/

inductive Call (P L : Type) where
  | acquire (lk : Lock L)
  | release (lk : Lock L)
  | myproc
  | yield
  | sleep (chan : Nat) (lk : Lock L)
  | wakeup (chan : Nat) (table : List P)
  | exit (chan : Nat) (table : List P)

def Call.code : Call P L → Code P L Unit
  | .acquire lk => Intr.acquire lk
  | .release lk => Intr.release lk
  | .myproc => do
    let _ ← Intr.myproc
    ret ()
  | .yield => Intr.yield
  | .sleep chan lk => Intr.sleep chan lk
  | .wakeup chan table => Intr.wakeup chan table
  | .exit chan table => Intr.exit chan table

def calls : List (Call P L) → Code P L Unit
  | [] => ret ()
  | k :: ks => do
    k.code
    calls ks

/-- What a frame can begin with: a trap and the calls of its handler, or a round of the scheduler. -/
inductive Start (P L : Type) where
  | trap (g : Gate) (ks : List (Call P L))
  | round (table : List P)

def body : Start P L → Code P L Unit
  | .trap g ks => do
    op (.trap g)
    calls ks
    op .iret
  | .round table => scheduler table

/-- `forkret` and what follows it, up to the return to user mode. -/
def forkret (ks : List (Call P L)) : Code P L Unit := do
  release .ptable
  calls ks
  op .iret

/-! ## What the processes have done -/

structure Restored (C P : Type) where
  thread : Thread C P
  /-- IF at the start of an outermost `pushcli`. -/
  before : Bool
  /-- IF at the end of the `popcli` that matches it. -/
  after : Bool
  deriving DecidableEq

structure History (C P : Type) where
  /-- The calls of `pushcli` of a thread that no `popcli` has matched. -/
  pushes : Thread C P → Int
  /-- IF at the start of the outermost of them. -/
  outer : Thread C P → Option Bool
  /-- IF at the start of the last `pushcli` in a frame. -/
  entry : Frame C P → Bool
  /-- `outer`, of the outermost `pushcli` that the `popcli` in the frame matches. -/
  due : Frame C P → Option Bool
  log : List (Restored C P)

/-- IF on the CPU that executes the frame. -/
def Machine.flag (m : Machine C P L) (f : Frame C P) : Bool :=
  match m.here f with
  | some c => (m.cpu c).IF
  | none => false

def note (f : Frame C P) (a : Act P L) (_ : a.Res) (m : Machine C P L) (h : History C P) : History C P :=
  match a with
  | .entered => { h with entry := Function.update h.entry f (m.flag f) }
  | .incNcli =>
    { h with
      pushes := Function.update h.pushes f.thread (h.pushes f.thread + 1)
      outer := if h.pushes f.thread = 0 then Function.update h.outer f.thread (some (h.entry f)) else h.outer }
  | .decNcli =>
    { h with
      pushes := Function.update h.pushes f.thread (h.pushes f.thread - 1)
      outer := if h.pushes f.thread = 1 then Function.update h.outer f.thread none else h.outer
      due := Function.update h.due f (if h.pushes f.thread = 1 then h.outer f.thread else none) }
  | .left => match h.due f with
    | some b => { h with log := ⟨f.thread, b, m.flag f⟩ :: h.log, due := Function.update h.due f none }
    | none => h
  | _ => h

/-! ## Boot -/

/-- Every CPU comes to `scheduler` with its interrupts off. A process stands where `allocproc` puts
    it, behind the `swtch` to it: with `ptable.lock` taken for it, once. -/
def boot (state : P → PState) : Machine C P L where
  cpu _ := ⟨false, 0, false, none⟩
  on
    | .scheduler c => some c
    | .proc _ => none
  depth
    | .scheduler _ => 0
    | .proc _ => 1
  saved _ := true
  locked _ := false
  owner _ := none
  state := state
  chan _ := none

def noHistory : History C P where
  pushes
    | .scheduler _ => 0
    | .proc _ => 1
  outer _ := none
  entry _ := false
  due _ := none
  log := []

def start (state : P → PState) (first : P → List (Call P L)) : Pool (Act P L) Act.Res (Frame C P) (Machine C P L × History C P) Empty where
  state := (boot state, noHistory)
  threads
    | ⟨.proc p, 1⟩ => forkret (first p)
    | _ => ret ()
  failed := none

abbrev runs (π : Pool (Act P L) Act.Res (Frame C P) (Machine C P L × History C P) Empty) (es : List (Ev (Frame C P) (Start P L))) :
    Pool (Act P L) Act.Res (Frame C P) (Machine C P L × History C P) Empty := Pool.runs (recorded exec note) body π es

end Xv6.Intr
