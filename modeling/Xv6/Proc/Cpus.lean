/-
  Xv6.Proc.Cpus — which process runs where (`proc.c`: `scheduler`, `sched`, `yield`,
  `forkret`).

  `Step` lists what a statement can do to the kernel. `Sound` is what the scheduler relies
  on: where each CPU stands says whether it holds `ptable.lock` and which process, in which
  state, it is about to run, runs or has just left.

  `one_cpu_each`: with `ptable.lock` free, the RUNNING processes are those that are some
  CPU's `c->proc`, each that of one CPU; and `wait` gives back the stack and page table of
  a process that no CPU uses.
-/

import Xv6.Proc.Table

namespace Xv6.Ptable

open Function

variable {n : Nat} {C : Type} [DecidableEq C]

namespace Kernel

/-! ## Steps -/

/-- CPU `c` executes the process `p`. -/
def On (s : Kernel n C) (c : C) (p : Fin n) : Prop := (s.cpu c).stack = some p ∧ (s.cpu c).proc = some p

instance (s : Kernel n C) (c : C) (p : Fin n) : Decidable (s.On c p) := inferInstanceAs (Decidable (_ ∧ _))

/-- A process leaves a section that changed nothing, or first gets the CPU. -/
def Leaves (s : Kernel n C) (p : Fin n) : Prop :=
  (∃ i, s.pc p = .locked (.alloc i)) ∨ (s.pc p = .locked .wait ∧ s.proc.wait p = .fail) ∨ s.pc p = .back .yield ∨ s.pc p = .forkret

/-- The scheduler of `c` goes on, changing no process. -/
inductive Dispatch (s : Kernel n C) (c : C) : Kernel n C → Prop where
  | acquire (hx : (s.cpu c).loop = .acquire) (hl : s.lock = none) :
      Dispatch s c ({ s with lock := some c }.setCpu c fun x => { x with loop := .scan 0 })
  | skip (i : Nat) (hx : (s.cpu c).loop = .scan i) : Dispatch s c (s.setCpu c fun x => { x with loop := .scan (i + 1) })
  | done (i : Nat) (hx : (s.cpu c).loop = .scan i) : Dispatch s c (s.release.setCpu c fun x => { x with loop := .acquire })
  | choose (p : Fin n) (hx : (s.cpu c).loop = .scan p) (hp : (s.proc p).state = .runnable) :
      Dispatch s c (s.setCpu c fun x => { x with proc := some p, loop := .switchuvm p })
  | switchuvm (p : Fin n) (hx : (s.cpu c).loop = .switchuvm p) :
      Dispatch s c (s.setCpu c fun x => { x with cr3 := some p, loop := .setRunning p })
  | swtch (p : Fin n) (hx : (s.cpu c).loop = .swtch p) :
      Dispatch s c (s.setCpu c fun x => { x with stack := some p, loop := .switchkvm p })
  | switchkvm (p : Fin n) (hx : (s.cpu c).loop = .switchkvm p) :
      Dispatch s c (s.setCpu c fun x => { x with cr3 := none, loop := .clearProc p })
  | clearProc (p : Fin n) (hx : (s.cpu c).loop = .clearProc p) :
      Dispatch s c (s.setCpu c fun x => { x with proc := none, loop := .scan (p + 1) })

/-- What one statement does. -/
inductive Step (s : Kernel n C) : Ev C → Kernel n C → Prop where
  | call {c p} (ho : s.On c p) (hp : s.pc p = .user) (k : Call) (hk : k = .exit → p ≠ s.initproc) :
      Step s (.call c k) (s.goto p (.acquire k.entry))
  | trap {c p} (ho : s.On c p) (hp : s.pc p = .user) : Step s (.trap c) (s.modify p fun x => { x with killed := true })
  | acquire {c p k} (ho : s.On c p) (hp : s.pc p = .acquire k) (hl : s.lock = none) (ok : Bool) :
      Step s (.step c ok) ({ s with lock := some c }.goto p (.locked k))
  | scan {c p i} (ho : s.On c p) (hp : s.pc p = .locked (.alloc i)) (ok : Bool) :
      Step s (.step c ok) (s.goto p (.locked (.alloc (i + 1))))
  | leave {c p} (ho : s.On c p) (hp : s.Leaves p) (ok : Bool) : Step s (.step c ok) (s.release.goto p .user)
  | alloc {c p} {q : Fin n} (ho : s.On c p) (hp : s.pc p = .locked (.alloc q)) (hq : (s.proc q).state = .unused) (ok : Bool) :
      Step s (.step c ok)
        ((((({ s with nextpid := s.nextpid + 1 }).modify q fun x => { x with state := .embryo, pid := s.nextpid }).note
          (.assigned q s.nextpid)).release).goto p (.kstack q))
  | kstack {c p q} (ho : s.On c p) (hp : s.pc p = .kstack q) : Step s (.step c true) ((s.goto q .forkret).goto p (.copy q))
  | copy {c p q} (ho : s.On c p) (hp : s.pc p = .copy q) : Step s (.step c true) (s.goto p (.adopt q))
  | giveUp {c p q} (ho : s.On c p) (hp : s.pc p = .kstack q ∨ s.pc p = .copy q) :
      Step s (.step c false) ((s.modify q fun x => { x with state := .unused }).goto p .user)
  | adopt {c p q} (ho : s.On c p) (hp : s.pc p = .adopt q) (ok : Bool) :
      Step s (.step c ok) ((s.modify q fun x => { x with parent := some p }).goto p (.acquire (.publish q)))
  | publish {c p q} (ho : s.On c p) (hp : s.pc p = .locked (.publish q)) (ok : Bool) :
      Step s (.step c ok)
        ((((s.modify q fun x => { x with state := .runnable }).note (.forked (s.proc q).pid (s.proc p).pid)).release).goto p .user)
  | exit {c p} (ho : s.On c p) (hp : s.pc p = .locked .exit) (ok : Bool) :
      Step s (.step c ok) (((s.table (s.proc.exit s.initproc p)).note (.exited (s.proc p).pid)).goto p (.sched .exit))
  | reap {c p q} (ho : s.On c p) (hp : s.pc p = .locked .wait) (hq : s.proc.wait p = .found q) (ok : Bool) :
      Step s (.step c ok) ((((s.modify q Table.reap).note (.reaped (s.proc q).pid (s.proc p).pid)).release).goto p .user)
  | wait {c p} (ho : s.On c p) (hp : s.pc p = .locked .wait) (hq : s.proc.wait p = .sleep) (ok : Bool) :
      Step s (.step c ok) ((s.modify p fun x => { x with chan := some (.proc p), state := .sleeping }).goto p (.sched .wait))
  | kill {c p q pid} (ho : s.On c p) (hp : s.pc p = .locked (.kill pid)) (hq : s.proc.killScan pid = some q) (ok : Bool) :
      Step s (.step c ok) ((((s.modify q Table.kill).note (.kill pid 0)).release).goto p .user)
  | killNone {c p pid} (ho : s.On c p) (hp : s.pc p = .locked (.kill pid)) (hq : s.proc.killScan pid = none) (ok : Bool) :
      Step s (.step c ok) (((s.note (.kill pid (-1))).release).goto p .user)
  | yield {c p} (ho : s.On c p) (hp : s.pc p = .locked .yield) (ok : Bool) :
      Step s (.step c ok) ((s.modify p fun x => { x with state := .runnable }).goto p (.sched .yield))
  | sleep {c p a} (ho : s.On c p) (hp : s.pc p = .locked (.sleep a)) (ok : Bool) :
      Step s (.step c ok) ((s.modify p fun x => { x with chan := some (.other a), state := .sleeping }).goto p (.sched .sleep))
  | wakeup {c p a} (ho : s.On c p) (hp : s.pc p = .locked (.wakeup a)) (ok : Bool) :
      Step s (.step c ok) ((s.table (s.proc.wakeup1 (.other a))).release.goto p .user)
  | sched {c p k} (ho : s.On c p) (hp : s.pc p = .sched k) (ok : Bool) :
      Step s (.step c ok) ((s.goto p (.back k)).setCpu c fun x => { x with stack := none })
  | woken {c p} (ho : s.On c p) (hp : s.pc p = .back .sleep) (ok : Bool) :
      Step s (.step c ok) ((s.modify p fun x => { x with chan := none }).release.goto p .user)
  | rescan {c p} (ho : s.On c p) (hp : s.pc p = .back .wait) (ok : Bool) :
      Step s (.step c ok) ((s.modify p fun x => { x with chan := none }).goto p (.locked .wait))
  | interrupt (a : Nat) (hl : s.lock = none) : Step s (.interrupt a) (s.table (s.proc.wakeup1 (.other a)))
  | dispatch {c s'} (hc : (s.cpu c).stack = none) (h : Dispatch s c s') (ok : Bool) : Step s (.step c ok) s'
  | setRunning {c p} (hc : (s.cpu c).stack = none) (hx : (s.cpu c).loop = .setRunning p) (ok : Bool) :
      Step s (.step c ok) ((s.modify p fun x => { x with state := .running }).setCpu c fun x => { x with loop := .swtch p })
  | panic (e : Ev C) : Step s e s.panic

/-- `c->proc` is the process whose stack the CPU is on. -/
def Current (s : Kernel n C) : Prop := ∀ c p, (s.cpu c).stack = some p → (s.cpu c).proc = some p

variable {s : Kernel n C}

omit [DecidableEq C] in
theorem Current.on (h : Current s) {c : C} {t p : Fin n} (ht : (s.cpu c).stack = some t)
    (hp : (s.cpu c).proc = some p) : t = p := by
  have := h c t ht
  rw [hp] at this
  exact (Option.some.inj this).symm

theorem step_section {c : C} {p : Fin n} {k : Section n} (ho : s.On c p) (hp : s.pc p = .locked k)
    (ok : Bool) : Step s (.step c ok) (s.sectionStep p p k) := by
  cases k <;> simp only [sectionStep] <;> repeat' split
  case alloc.isTrue.isTrue i hi hq => exact .alloc (q := ⟨i, hi⟩) ho hp hq ok
  all_goals constructor <;> first | assumption | simp_all [Leaves]

theorem step_process {c : C} {p : Fin n} (ho : s.On c p) (ok : Bool) :
    s.processStep c p p ok = s ∨ Step s (.step c ok) (s.processStep c p p ok) := by
  unfold processStep
  repeat' split
  all_goals first | exact .inl rfl | exact .inr (.panic _) | right
  case h_3 k hp => exact step_section ho hp ok
  all_goals cases ok <;> constructor <;> first | assumption | simp_all [Leaves]

theorem step_scheduler {c : C} (hc : (s.cpu c).stack = none) (ok : Bool) :
    s.schedulerStep c (s.cpu c).loop = s ∨ Step s (.step c ok) (s.schedulerStep c (s.cpu c).loop) := by
  cases hx : (s.cpu c).loop <;> simp only [schedulerStep] <;> repeat' split
  all_goals first | exact .inl rfl | exact .inr (.setRunning hc hx ok) | refine .inr (.dispatch hc ?_ ok)
  case scan.isTrue.isTrue i hi hp => exact .choose ⟨i, hi⟩ hx hp
  all_goals constructor <;> assumption

theorem step_spec (h : Current s) (e : Ev C) : s.step e = s ∨ Step s e (s.step e) := by
  cases e <;> simp only [step] <;> split
  all_goals first | exact .inl rfl | skip
  case call.isFalse c k _ =>
    split
    · rename_i t p ht hp
      obtain rfl := h.on ht hp
      repeat' split
      all_goals first | exact .inl rfl | exact .inr (.panic _) | exact .inr (.call ⟨ht, hp⟩ ‹_› _ (by simp_all))
    · exact .inl rfl
  case trap.isFalse c _ =>
    split
    · rename_i t p ht hp
      obtain rfl := h.on ht hp
      split
      · exact .inr (.trap ⟨ht, hp⟩ ‹_›)
      · exact .inl rfl
    · exact .inl rfl
  case step.isFalse c ok _ =>
    split
    · rename_i hc
      exact step_scheduler hc ok
    · rename_i t ht
      split
      · rename_i p hp
        obtain rfl := h.on ht hp
        exact step_process ⟨ht, hp⟩ ok
      · exact .inr (.panic _)
  case interrupt.isFalse a _ =>
    split
    · exact .inr (.interrupt a ‹_›)
    · exact .inl rfl

/-! ## What each CPU and each process is at -/

end Kernel

/-- The state in which `sched` is called. -/
def Site.state : Site → ProcState
  | yield => .runnable
  | sleep => .sleeping
  | wait => .sleeping
  | exit => .zombie

namespace Pc

/-- Given up by `swtch`, or not yet run. -/
def parked : Pc n → Bool
  | back _ => true
  | forkret => true
  | _ => false

/-- The slot `allocproc` has returned, until the child is RUNNABLE or given up. -/
def child : Pc n → Option (Fin n)
  | kstack q => some q
  | copy q => some q
  | adopt q => some q
  | acquire (.publish q) => some q
  | locked (.publish q) => some q
  | _ => none

end Pc

/-- A CPU on the stack of `p`. -/
def RunOk (lock : Option C) (c : C) (st : ProcState) : Pc n → Prop
  | .sched k => lock = some c ∧ st = k.state
  | .locked _ => lock = some c ∧ st = .running
  | .back _ => lock = some c ∧ st = .running
  | .forkret => lock = some c ∧ st = .running
  | _ => lock ≠ some c ∧ st = .running

/-- A CPU in its scheduler. -/
def LoopOk (lock : Option C) (t : Table n) (pc : Fin n → Pc n) (c : C) (x : Cpu n) : Prop := match x.loop with
  | .acquire => lock ≠ some c ∧ x.proc = none ∧ x.cr3 = none
  | .scan _ => lock = some c ∧ x.proc = none ∧ x.cr3 = none
  | .switchuvm p => lock = some c ∧ x.proc = some p ∧ x.cr3 = none ∧ (t p).state = .runnable ∧ (pc p).parked = true
  | .setRunning p => lock = some c ∧ x.proc = some p ∧ x.cr3 = some p ∧ (t p).state = .runnable ∧ (pc p).parked = true
  | .swtch p => lock = some c ∧ x.proc = some p ∧ x.cr3 = some p ∧ (t p).state = .running ∧ (pc p).parked = true
  | .switchkvm p => lock = some c ∧ x.proc = some p ∧ x.cr3 = some p ∧ ∃ k : Site, (t p).state = k.state
  | .clearProc p => lock = some c ∧ x.proc = some p ∧ x.cr3 = none ∧ ∃ k : Site, (t p).state = k.state

def CpuOk (lock : Option C) (t : Table n) (pc : Fin n → Pc n) (c : C) (x : Cpu n) : Prop := match x.stack with
  | none => LoopOk lock t pc c x
  | some p => x.loop = .switchkvm p ∧ x.proc = some p ∧ x.cr3 = some p ∧ RunOk lock c (t p).state (pc p)

/-- Where the code of a process that is not RUNNING stands. -/
def Parked : ProcState → Pc n → Prop
  | .runnable, x => x = .sched .yield ∨ x = .back .yield ∨ x = .back .sleep ∨ x = .back .wait ∨ x = .forkret
  | .sleeping, x => x = .sched .sleep ∨ x = .sched .wait ∨ x = .back .sleep ∨ x = .back .wait
  | .zombie, x => x = .sched .exit ∨ x = .back .exit
  | _, _ => True

structure Sound (s : Kernel n C) : Prop where
  cpu : ∀ c, CpuOk s.lock s.proc s.pc c (s.cpu c)
  unique : ∀ c c' p, (s.cpu c).proc = some p → (s.cpu c').proc = some p → c = c'
  running : ∀ p, (s.proc p).state = .running → ∃ c, (s.cpu c).proc = some p
  active : ∀ p, (s.pc p).parked = false → ∃ c, (s.cpu c).stack = some p
  parked : ∀ p, Parked (s.proc p).state (s.pc p)
  child : ∀ p q, (s.pc p).child = some q → (s.proc q).state = .embryo ∧ (s.pc p = .kstack q ∨ s.pc q = .forkret)
  forker : ∀ p p' q, (s.pc p).child = some q → (s.pc p').child = some q → p = p'

variable {lock : Option C} {t : Table n} {pc : Fin n → Pc n} {x : Cpu n}

omit [DecidableEq C] in
theorem CpuOk.current {c : C} (h : CpuOk lock t pc c x) {p : Fin n} (hp : x.stack = some p) : x.proc = some p := by
  simp only [CpuOk, hp] at h
  exact h.2.1

omit [DecidableEq C] in
/-- What a CPU does depends on the state of its process alone. -/
theorem CpuOk.frame {lock' : Option C} {t' : Table n} {pc' : Fin n → Pc n} {c : C}
    (h : CpuOk lock t pc c x) (hl : lock' = some c ↔ lock = some c)
    (hp : ∀ p, x.proc = some p → (t' p).state = (t p).state ∧ pc' p = pc p) : CpuOk lock' t' pc' c x := by
  unfold CpuOk at h ⊢
  split
  · rename_i hs
    simp only [hs] at h
    unfold LoopOk at h ⊢
    split
    all_goals
      rename_i hx
      simp only [hx, hl, ne_eq] at h ⊢
    · exact h
    · exact h
    all_goals
      obtain ⟨h1, h2⟩ := hp _ h.2.1
      simp only [h1, h2]
      exact h
  · rename_i p hs
    simp only [hs] at h
    obtain ⟨h1, h2⟩ := hp p h.2.1
    refine ⟨h.1, h.2.1, h.2.2.1, ?_⟩
    have hr := h.2.2.2
    rw [h1, h2]
    unfold RunOk at hr ⊢
    split <;> simp_all

omit [DecidableEq C] in
/-- A CPU without the lock is before the loop of its scheduler, or runs a process. -/
theorem CpuOk.away {c : C} (h : CpuOk lock t pc c x)
    (hl : lock ≠ some c) : (x.stack = none ∧ x.proc = none ∧ x.cr3 = none) ∨
      ∃ p, x.stack = some p ∧ x.proc = some p ∧ x.cr3 = some p ∧ (t p).state = .running ∧ (pc p).parked = false := by
  unfold CpuOk at h
  split at h
  · unfold LoopOk at h
    split at h <;> simp_all
  · rename_i p hs
    obtain ⟨_, h2, h3, hr⟩ := h
    refine .inr ⟨p, hs, h2, h3, ?_⟩
    cases hx : pc p <;> simp_all [RunOk, Pc.parked]

omit [DecidableEq C] in
theorem CpuOk.running {c : C} (h : CpuOk lock t pc c x)
    (hl : lock ≠ some c) {p : Fin n} (hp : x.proc = some p) : (t p).state = .running := by
  grind [h.away hl]

omit [DecidableEq C] in
theorem CpuOk.live {c : C} (h : CpuOk lock t pc c x) {p : Fin n}
    (hp : x.proc = some p) : (t p).state ≠ .unused ∧ (t p).state ≠ .embryo := by
  have hk : ∀ k : Site, k.state ≠ .unused ∧ k.state ≠ .embryo := by intro k; cases k <;> simp [Site.state]
  unfold CpuOk at h
  split at h
  · unfold LoopOk at h
    split at h <;> grind
  · have hr := h.2.2.2
    unfold RunOk at hr
    split at hr <;> grind

namespace Sound

open Kernel

variable {s s' : Kernel n C} {c : C} {p : Fin n}

omit [DecidableEq C] in
theorem current (h : Sound s) : Current s := fun c _ hp => (h.cpu c).current hp

omit [DecidableEq C] in
theorem run (h : Sound s) (ho : s.On c p) {x : Pc n} (hp : s.pc p = x) : RunOk s.lock c (s.proc p).state x := by
  have := h.cpu c
  simp only [CpuOk, ho.1] at this
  rw [← hp]
  exact this.2.2.2

omit [DecidableEq C] in
/-- A process about to `swtch` is on the CPU that holds the lock. -/
theorem sched_on (h : Sound s) {k : Site} (hp : s.pc p = .sched k) : ∃ c, s.On c p ∧ s.lock = some c ∧ (s.proc p).state = k.state := by
  obtain ⟨c, hc⟩ := h.active p (by rw [hp]; rfl)
  have ho : s.On c p := ⟨hc, h.current c p hc⟩
  exact ⟨c, ho, h.run ho hp⟩

/-- What a statement of `p` on CPU `c` may do to another process. -/
inductive Other (s s' : Kernel n C) (c : C) (p q : Fin n) : Prop where
  | same (hs : (s'.proc q).state = (s.proc q).state) (hp : s'.pc q = s.pc q)
  | fresh (h : (s.proc q).state = .unused) (h' : (s'.proc q).state = .embryo) (hp : s'.pc q = s.pc q)
  | mine (h : (s.pc p).child = some q)
      (h' : (s'.proc q).state = .unused ∨ (s'.proc q).state = .embryo ∨ (s'.proc q).state = .runnable ∧ s'.pc q = .forkret)
      (hp : s'.pc q = s.pc q ∨ s'.pc q = .forkret)
  | woken (hl : s.lock = some c) (h : (s.proc q).state = .sleeping) (h' : (s'.proc q).state = .runnable) (hp : s'.pc q = s.pc q)
  | reaped (hl : s.lock = some c) (h : (s.proc q).state = .zombie) (h' : (s'.proc q).state = .unused) (hp : s'.pc q = s.pc q)

omit [DecidableEq C] in
/-- A sleeper that is not about to `swtch` may be woken. -/
theorem parked_woken (h : Sound s) {q : Fin n} (hl : ∀ c, s.lock = some c → (s.cpu c).stack ≠ some q)
    (hq : (s.proc q).state = .sleeping) : Parked .runnable (s.pc q) := by
  have hp := h.parked q
  rw [hq] at hp
  have hno : ∀ k, s.pc q ≠ .sched k := by
    intro k hk
    obtain ⟨c, ho, hc, _⟩ := h.sched_on hk
    exact hl c hc ho.1
  rcases hp with e | e | e | e
  · exact absurd e (hno _)
  · exact absurd e (hno _)
  · exact .inr (.inr (.inl e))
  · exact .inr (.inr (.inr (.inl e)))

omit [DecidableEq C] in
/-- A statement of `p`, run by CPU `c`. -/
theorem own (h : Sound s) (ho : s.On c p) (hcpu : s'.cpu = s.cpu)
    (hlock : s'.lock = s.lock ∨ (s.lock = some c ∧ s'.lock = none) ∨ (s.lock = none ∧ s'.lock = some c))
    (hrun : RunOk s'.lock c (s'.proc p).state (s'.pc p))
    (hpark : Parked (s'.proc p).state (s'.pc p)) (hother : ∀ q, q ≠ p → Other s s' c p q)
    (hchild : ∀ q, (s'.pc p).child = some q → ((s.pc p).child = some q ∨ (s.proc q).state = .unused) ∧
      (s'.proc q).state = .embryo ∧ (s'.pc p = .kstack q ∨ s'.pc q = .forkret)) : Sound s' := by
  have hlive := (h.cpu c).live ho.2
  -- another process keeps its program counter, or is the child
  have hkept : ∀ r, r ≠ p → s'.pc r = s.pc r ∨ s'.pc r = .forkret := fun r e => by cases hother r e <;> grind
  refine ⟨fun c' => ?_, ?_, fun q hq => ?_, fun q hq => ?_, fun q => ?_, fun r q hr => ?_, fun r r' q hr hr' => ?_⟩
  · rw [hcpu]
    by_cases e : c' = c
    · rw [e]
      have := h.cpu c
      simp only [CpuOk, ho.1] at this ⊢
      exact ⟨this.1, this.2.1, this.2.2.1, hrun⟩
    · refine (h.cpu c').frame (by grind) fun q hq => ?_
      have hne : q ≠ p := fun e' => e (h.unique c' c p (e' ▸ hq) ho.2)
      have hlive' := (h.cpu c').live hq
      have hrunning : s.lock = some c → (s.proc q).state = .running := fun hl => (h.cpu c').running (by grind) hq
      have := h.child p q
      cases hother q hne <;> grind
  · rw [hcpu]
    exact h.unique
  · rw [hcpu]
    by_cases e : q = p
    · exact ⟨c, by rw [e]; exact ho.2⟩
    · have := h.running q
      cases hother q e <;> grind
  · rw [hcpu]
    by_cases e : q = p
    · exact ⟨c, by rw [e]; exact ho.1⟩
    · have := h.active q
      cases hother q e <;> grind [Pc.parked]
  · by_cases e : q = p
    · rw [e]; exact hpark
    · have hw : s.lock = some c → (s.proc q).state = .sleeping → Parked .runnable (s.pc q) := fun hl =>
        h.parked_woken fun c' hc' hs => by
          obtain rfl : c = c' := Option.some.inj (hl.symm.trans hc')
          exact e (Option.some.inj (hs.symm.trans ho.1))
      have := h.parked q
      cases hother q e <;> grind [Parked]
  · by_cases e : r = p
    · rw [e] at hr ⊢
      exact (hchild q hr).2
    · have hrp : s'.pc r = s.pc r := by
        refine (hkept r e).resolve_right fun e' => ?_
        rw [e'] at hr
        cases hr
      rw [hrp] at hr ⊢
      obtain ⟨h1, h2⟩ := h.child r q hr
      have := h.forker r p q hr
      cases hother q (by grind) <;> grind
  · -- the new child of `p` was nobody's
    have hold : ∀ r, r ≠ p → (s'.pc r).child = some q → (s.pc r).child = some q ∧ (s'.pc p).child ≠ some q := fun r e hr => by
      have hr' : (s.pc r).child = some q := by have := hkept r e; grind [Pc.child]
      have := h.forker r p q hr'
      have := h.child r q hr'
      exact ⟨hr', fun hp => by have := hchild q hp; grind⟩
    have := h.forker r r' q
    have := hold r
    have := hold r'
    grind

omit [DecidableEq C] in
/-- A statement that changes the state of no other process. -/
theorem goes (h : Sound s) (ho : s.On c p) {x : Pc n} (hcpu : s'.cpu = s.cpu)
    (hlock : s'.lock = s.lock ∨ (s.lock = some c ∧ s'.lock = none) ∨ (s.lock = none ∧ s'.lock = some c))
    (hpc : s'.pc = update s.pc p x) (hst : ∀ q, q ≠ p → (s'.proc q).state = (s.proc q).state)
    (hrun : RunOk s'.lock c (s'.proc p).state x) (hpark : Parked (s'.proc p).state x)
    (hchild : ∀ q, x.child = some q → (s.pc p).child = some q ∧ s.pc p ≠ .kstack q) : Sound s' := by
  have hself : s'.pc p = x := by rw [hpc, update_self]
  have hne : ∀ q, q ≠ p → s'.pc q = s.pc q := fun q e => by rw [hpc, update_of_ne e]
  refine h.own ho hcpu hlock (by rw [hself]; exact hrun) (by rw [hself]; exact hpark)
    (fun q e => .same (hst q e) (hne q e)) fun q hq => ?_
  rw [hself] at hq
  obtain ⟨h1, h2⟩ := hchild q hq
  obtain ⟨h3, h4⟩ := h.child p q h1
  have e : q ≠ p := by
    intro e
    rw [e] at h3
    exact ((h.cpu c).live ho.2).2 h3
  exact ⟨.inl h1, by rw [hst q e, h3], .inr (by rw [hne q e]; exact h4.resolve_left h2)⟩

omit [DecidableEq C] in
/-- A section that wakes sleepers and leaves. -/
theorem wakes (h : Sound s) (ho : s.On c p) {k : Section n} (hp : s.pc p = .locked k) (hcpu : s'.cpu = s.cpu) (hl : s'.lock = none)
    (hpc : s'.pc = update s.pc p .user) (hself : (s'.proc p).state = (s.proc p).state)
    (hst : ∀ q, q ≠ p → (s'.proc q).state = (s.proc q).state ∨ (s.proc q).state = .sleeping ∧ (s'.proc q).state = .runnable) :
    Sound s' := by
  have hr := h.run ho hp
  have hself' : s'.pc p = .user := by rw [hpc, update_self]
  have hne : ∀ q, q ≠ p → s'.pc q = s.pc q := fun q e => by rw [hpc, update_of_ne e]
  refine h.own ho hcpu (.inr (.inl ⟨hr.1, hl⟩)) ?_ ?_ (fun q e => ?_) fun q hq => ?_
  · rw [hself', hl, hself]
    exact ⟨by simp, hr.2⟩
  · rw [hself', hself, hr.2]
    trivial
  · rcases hst q e with hs | ⟨h1, h2⟩
    · exact .same hs (hne q e)
    · exact .woken hr.1 h1 h2 (hne q e)
  · rw [hself'] at hq
    cases hq

omit [DecidableEq C] in
theorem ne_of_state (_ : Sound s) {q : Fin n} {a b : ProcState} (hp : (s.proc p).state = a) (hq : (s.proc q).state = b) (hab : a ≠ b) :
    q ≠ p := by
  intro e
  rw [e, hp] at hq
  exact hab hq

/-- A statement of the scheduler of `c`. -/
theorem loop (h : Sound s) (hc : (s.cpu c).stack = none) {y : Cpu n} (hcpu : s'.cpu = update s.cpu c y)
    (hpc : s'.pc = s.pc)
    (hlock : s'.lock = s.lock ∨ (s.lock = some c ∧ s'.lock = none) ∨ (s.lock = none ∧ s'.lock = some c))
    (hst : ∀ q, (s'.proc q).state = (s.proc q).state ∨ (s.cpu c).proc = some q ∧ Parked (s'.proc q).state (s.pc q))
    (hy : CpuOk s'.lock s'.proc s.pc c y)
    (hproc : ∀ q, y.proc = some q → (s.cpu c).proc = some q ∨ ∀ c', c' ≠ c → (s.cpu c').proc ≠ some q)
    (hkeep : ∀ q, (s'.proc q).state = .running → (s.cpu c).proc = some q → y.proc = some q) : Sound s' := by
  have hself : s'.cpu c = y := by rw [hcpu, update_self]
  have hne : ∀ c', c' ≠ c → s'.cpu c' = s.cpu c' := fun c' e => by rw [hcpu, update_of_ne e]
  refine ⟨fun c' => ?_, fun c' c'' q h' h'' => ?_, fun q hq => ?_, fun q hq => ?_, fun q => ?_, fun r q hr => ?_, ?_⟩
  · by_cases e : c' = c
    · rw [e, hself, hpc]; exact hy
    · rw [hne c' e]
      -- the process of another CPU is not that of `c`
      exact (h.cpu c').frame (by grind) fun q hq => ⟨(hst q).resolve_right fun e' => e (h.unique c' c q hq e'.1), by rw [hpc]⟩
  · have := h.unique c' c'' q
    have := h.unique c' c q
    have := h.unique c'' c q
    have := hproc q
    by_cases e : c' = c <;> by_cases e' : c'' = c <;> grind
  · obtain ⟨c', hc'⟩ : ∃ c', (s.cpu c').proc = some q := by
      rcases hst q with e | ⟨e, _⟩
      · exact h.running q (by rw [← e]; exact hq)
      · exact ⟨c, e⟩
    exact ⟨c', by by_cases e : c' = c <;> grind⟩
  · rw [hpc] at hq
    obtain ⟨c', hc'⟩ := h.active q hq
    exact ⟨c', by by_cases e : c' = c <;> grind⟩
  · have := h.parked q
    grind
  · rw [hpc] at hr ⊢
    obtain ⟨h1, h2⟩ := h.child r q hr
    have := (h.cpu c).live (p := q)
    exact ⟨by grind, h2⟩
  · rw [hpc]
    exact h.forker

omit [DecidableEq C] in
theorem loop_ok (h : Sound s) (hc : (s.cpu c).stack = none) : LoopOk s.lock s.proc s.pc c (s.cpu c) := by
  have := h.cpu c
  simp only [CpuOk, hc] at this
  exact this

theorem dispatch (h : Sound s) (hc : (s.cpu c).stack = none) (hd : Dispatch s c s') : Sound s' := by
  have ho := h.loop_ok hc
  cases hd with
  | acquire hx hl =>
    simp only [LoopOk, hx] at ho
    exact h.loop hc rfl rfl (.inr (.inr ⟨hl, rfl⟩)) (fun _ => .inl rfl) (by simp [CpuOk, LoopOk, hc, ho]) (fun q hq => .inl hq) fun q _ hq => hq
  | skip i hx =>
    simp only [LoopOk, hx] at ho
    exact h.loop hc rfl rfl (.inl rfl) (fun _ => .inl rfl) (by simpa [CpuOk, LoopOk, hc] using ho) (fun q hq => .inl hq) fun q _ hq => hq
  | done i hx =>
    simp only [LoopOk, hx] at ho
    exact h.loop hc rfl rfl (.inr (.inl ⟨ho.1, rfl⟩)) (fun _ => .inl rfl) (by simp [CpuOk, LoopOk, hc, ho]) (fun q hq => .inl hq) fun q _ hq => hq
  | choose p hx hp =>
    simp only [LoopOk, hx] at ho
    have hparked : (s.pc p).parked = true := by
      have hpk := h.parked p
      rw [hp] at hpk
      rcases hpk with e | e | e | e | e
      · -- no other CPU holds the lock
        obtain ⟨c', hon, hl, _⟩ := h.sched_on e
        rw [ho.1] at hl
        cases hl
        exact absurd hon.1 (by rw [hc]; simp)
      all_goals rw [e]; rfl
    refine h.loop hc rfl rfl (.inl rfl) (fun _ => .inl rfl) ?_ (fun q hq => .inr fun c' e hc' => ?_) fun q _ hq => ?_
    · simp only [CpuOk, LoopOk, hc]
      exact ⟨ho.1, trivial, ho.2.2, hp, hparked⟩
    · cases hq
      have := (h.cpu c').running (by rw [ho.1]; simp [Ne.symm e]) hc'
      rw [hp] at this
      cases this
    · rw [ho.2.1] at hq; cases hq
  | switchuvm p hx =>
    simp only [LoopOk, hx] at ho
    exact h.loop hc rfl rfl (.inl rfl) (fun _ => .inl rfl) (by simp [CpuOk, LoopOk, hc, ho]) (fun q hq => .inl hq) fun q _ hq => hq
  | swtch p hx =>
    simp only [LoopOk, hx] at ho
    refine h.loop hc rfl rfl (.inl rfl) (fun _ => .inl rfl) ?_ (fun q hq => .inl hq) fun q _ hq => hq
    obtain ⟨h1, h2, h3, h4, h5⟩ := ho
    refine ⟨rfl, h2, h3, ?_⟩
    cases hpc : s.pc p with
    | back k => exact ⟨h1, h4⟩
    | forkret => exact ⟨h1, h4⟩
    | _ => rw [hpc] at h5; cases h5
  | switchkvm p hx =>
    simp only [LoopOk, hx] at ho
    exact h.loop hc rfl rfl (.inl rfl) (fun _ => .inl rfl) (by simp [CpuOk, LoopOk, hc, ho]) (fun q hq => .inl hq) fun q _ hq => hq
  | clearProc p hx =>
    simp only [LoopOk, hx] at ho
    refine h.loop hc rfl rfl (.inl rfl) (fun _ => .inl rfl) ?_ (fun q hq => by cases hq) fun q hr hq => ?_
    · simp only [CpuOk, LoopOk, hc]
      exact ⟨ho.1, trivial, ho.2.2.1⟩
    · rw [ho.2.1] at hq
      cases hq
      obtain ⟨k, hk⟩ := ho.2.2.2
      have hr : (s.proc p).state = .running := hr
      rw [hk] at hr
      cases k <;> cases hr

theorem setRunning (h : Sound s) (hc : (s.cpu c).stack = none) (hx : (s.cpu c).loop = .setRunning p) :
    Sound ((s.modify p fun x => { x with state := .running }).setCpu c fun x => { x with loop := .swtch p }) := by
  have ho := h.loop_ok hc
  simp only [LoopOk, hx] at ho
  obtain ⟨h1, h2, h3, h4, h5⟩ := ho
  refine h.loop hc rfl rfl (.inl rfl) (fun q => ?_) ?_ (fun q hq => .inl hq) fun q _ hq => hq
  · simp only [Kernel.setCpu, Kernel.modify, Kernel.table, Table.modify_apply]
    split
    · rename_i e
      exact .inr ⟨by rw [e]; exact h2, trivial⟩
    · exact .inl rfl
  · simp only [CpuOk, LoopOk, Kernel.setCpu, Kernel.modify, Kernel.table, hc, Table.modify_apply, if_true]
    exact ⟨h1, h2, h3, trivial, h5⟩

/-- `sched` switches to the scheduler. -/
theorem sched (h : Sound s) (ho : s.On c p) {k : Site} (hp : s.pc p = .sched k) :
    Sound ((s.goto p (.back k)).setCpu c fun x => { x with stack := none }) := by
  have hr := h.run ho hp
  have hcp := h.cpu c
  simp only [CpuOk, ho.1] at hcp
  have hpark : ∀ st, Parked st (.sched k : Pc n) → Parked st (.back k : Pc n) := by
    intro st hst
    cases st <;> cases k <;> simp_all [Parked]
  generalize hs' : (s.goto p (.back k)).setCpu c (fun x => { x with stack := none }) = s'
  have hself : s'.cpu c = { s.cpu c with stack := none } := by simp [← hs']
  have hne : ∀ c', c' ≠ c → s'.cpu c' = s.cpu c' := fun c' e => by simp [← hs', update_of_ne e]
  have hproc : ∀ c', (s'.cpu c').proc = (s.cpu c').proc := fun c' => by by_cases e : c' = c <;> grind
  have hpc : ∀ q, s'.pc q = if q = p then .back k else s.pc q := fun q => by simp [← hs', update_apply]
  have hlock : s'.lock = s.lock := by simp [← hs']
  have htab : s'.proc = s.proc := by simp [← hs']
  refine ⟨fun c' => ?_, fun c' c'' q => ?_, fun q hq => ?_, fun q hq => ?_, fun q => ?_, fun r q hr' => ?_, fun r r' q h1 h2 => ?_⟩
  · by_cases e : c' = c
    · rw [e, hself, hlock, htab]
      simp only [CpuOk, LoopOk, hcp.1]
      exact ⟨hr.1, hcp.2.1, hcp.2.2.1, k, hr.2⟩
    · rw [hne c' e]
      refine (h.cpu c').frame (by rw [hlock]) fun q hq => ⟨by rw [htab], ?_⟩
      rw [hpc, if_neg fun (e' : q = p) => e (h.unique c' c p (e' ▸ hq) ho.2)]
  · rw [hproc, hproc]
    exact h.unique c' c'' q
  · rw [htab] at hq
    simpa only [hproc] using h.running q hq
  · have hqp : q ≠ p := fun e => by
      rw [hpc, if_pos e] at hq
      cases hq
    rw [hpc, if_neg hqp] at hq
    obtain ⟨c', hc'⟩ := h.active q hq
    exact ⟨c', by rw [hne c' fun e => hqp (Option.some.inj ((e ▸ hc').symm.trans ho.1))]; exact hc'⟩
  · have := h.parked q
    rw [htab]
    grind
  · have := h.child r q
    rw [htab]
    grind [Pc.child]
  · have := h.forker r r' q
    grind [Pc.child]

omit [DecidableEq C] in
/-- Sleepers are woken while the lock is free. -/
theorem interrupt (h : Sound s) (hl : s.lock = none) (a : Nat) : Sound (s.table (s.proc.wakeup1 (.other a))) := by
  have hw := Table.woken_wakeup1 s.proc (.other a)
  have hsame : ∀ q, (s.proc q).state ≠ .sleeping → (s.proc.wakeup1 (.other a) q).state = (s.proc q).state :=
    fun q hq => (hw.state q).resolve_right fun e => hq e.1
  refine ⟨fun c' => ?_, h.unique, fun q (hq : (s.proc.wakeup1 (.other a) q).state = _) => ?_, h.active, fun q => ?_, fun r q hr => ?_, h.forker⟩
  · refine (h.cpu c').frame Iff.rfl fun q hq => ⟨hsame q ?_, rfl⟩
    rw [(h.cpu c').running (by rw [hl]; simp) hq]
    simp
  · have := hw.state q
    exact h.running q (by grind)
  · have := h.parked_woken (q := q) fun c hc => by rw [hl] at hc; cases hc
    have := h.parked q
    have := hw.state q
    show Parked (s.proc.wakeup1 (.other a) q).state (s.pc q)
    grind
  · obtain ⟨h1, h2⟩ := h.child r q hr
    exact ⟨(hsame q (by rw [h1]; simp)).trans h1, h2⟩

omit [DecidableEq C] in
theorem panics (h : Sound s) : Sound s.panic := ⟨h.cpu, h.unique, h.running, h.active, h.parked, h.child, h.forker⟩

omit [DecidableEq C] in
/-- What `p` does with the slot it got from `allocproc`. -/
theorem withChild (h : Sound s) (ho : s.On c p) {q : Fin n} {x : Pc n} (hq : (s.pc p).child = some q) (hcpu : s'.cpu = s.cpu)
    (hlock : s'.lock = s.lock ∨ (s.lock = some c ∧ s'.lock = none)) (hpc : ∀ r, r ≠ p → r ≠ q → s'.pc r = s.pc r)
    (hx : s'.pc p = x) (hpq : s'.pc q = s.pc q ∨ s'.pc q = .forkret) (hst : ∀ r, r ≠ q → (s'.proc r).state = (s.proc r).state)
    (hqs : (s'.proc q).state = .unused ∨ (s'.proc q).state = .embryo ∨ (s'.proc q).state = .runnable ∧ s'.pc q = .forkret)
    (hrun : RunOk s'.lock c (s.proc p).state x) (hpark : Parked (s.proc p).state x)
    (hchild : ∀ r, x.child = some r → r = q ∧ (s'.proc q).state = .embryo ∧ s'.pc q = .forkret) : Sound s' := by
  have hne : p ≠ q := by
    intro e
    have := (h.child p q hq).1
    rw [← e] at this
    exact ((h.cpu c).live ho.2).2 this
  refine h.own ho hcpu (hlock.imp id .inl) (by rw [hst p hne, hx]; exact hrun) (by rw [hst p hne, hx]; exact hpark) (fun r e => ?_) fun r hr => ?_
  · by_cases e' : r = q
    · subst e'
      exact .mine hq hqs hpq
    · exact .same (hst r e') (hpc r e e')
  · rw [hx] at hr
    obtain ⟨rfl, h1, h2⟩ := hchild r hr
    exact ⟨.inl hq, h1, .inr h2⟩

theorem parked_running {st : ProcState} {x : Pc n} (h : st = .running) : Parked st x := by
  rw [h]
  trivial

theorem step (h : Sound s) {e : Ev C} (hs : Step s e s') : Sound s' := by
  cases hs with
  | @call c p ho hp k hk =>
    have hr := h.run ho hp
    refine h.goes ho rfl (.inl rfl) rfl (fun _ _ => rfl) hr (parked_running hr.2) fun q hq => ?_
    cases k <;> cases hq
  | @trap c p ho hp =>
    have hr := h.run ho hp
    have hst := s.proc.modify_state p (f := fun x => { x with killed := true }) fun _ => rfl
    refine h.goes (x := .user) ho rfl (.inl rfl) ?_ (fun q _ => hst q) ⟨hr.1, (hst p).trans hr.2⟩
      (parked_running ((hst p).trans hr.2)) fun q hq => ?_
    · rw [← hp]; exact (update_eq_self p s.pc).symm
    · cases hq
  | @acquire c p k ho hp hl =>
    have hr := h.run ho hp
    refine h.goes ho rfl (.inr (.inr ⟨hl, rfl⟩)) rfl (fun _ _ => rfl) ⟨rfl, hr.2⟩ (parked_running hr.2)
      fun q hq => ?_
    rw [hp]
    refine ⟨?_, by simp⟩
    cases k <;> exact hq
  | @scan c p i ho hp =>
    have hr := h.run ho hp
    refine h.goes ho rfl (.inl rfl) rfl (fun _ _ => rfl) hr (parked_running hr.2) fun q hq => ?_
    cases hq
  | @leave c p ho hp =>
    have hr : s.lock = some c ∧ (s.proc p).state = .running := by
      rcases hp with ⟨i, hp⟩ | ⟨hp, _⟩ | hp | hp <;> exact h.run ho hp
    exact h.goes ho rfl (.inr (.inl ⟨hr.1, rfl⟩)) rfl (fun _ _ => rfl) ⟨by simp, hr.2⟩ (parked_running hr.2) fun q hq => by cases hq
  | @alloc c p q ho hp hq =>
    have hr := h.run ho hp
    have hne : q ≠ p := h.ne_of_state hr.2 hq (by simp)
    refine h.own ho rfl (.inr (.inl ⟨hr.1, rfl⟩)) ?_ ?_ (fun r e => ?_) fun r hr' => ?_
    · have hp : (s.proc p).state = .running := hr.2
      simp [hne.symm, hp, RunOk]
    · have hp : (s.proc p).state = .running := hr.2
      simp [hne.symm, hp, Parked]
    · by_cases e' : r = q
      · subst e'
        exact .fresh hq (by simp) (by simp [update_of_ne e])
      · exact .same (by simp [e']) (by simp [update_of_ne e])
    · simp only [Kernel.goto, update_self, Pc.child, Option.some.injEq] at hr'
      subst hr'
      exact ⟨.inr hq, by simp, .inl (by simp)⟩
  | @kstack c p q ho hp =>
    have hr := h.run ho hp
    have hne : q ≠ p := h.ne_of_state hr.2 (h.child p q (by rw [hp]; rfl)).1 (by simp)
    refine h.withChild (x := .copy q) ho (by rw [hp]; rfl) rfl (.inl rfl) (fun r e e' => ?_) (by simp) (.inr ?_) (fun _ _ => rfl)
      (.inr (.inl (h.child p q (by rw [hp]; rfl)).1)) hr (parked_running hr.2) fun r hr' => ?_
    · simp [update_of_ne e, update_of_ne e']
    · simp [update_of_ne hne]
    · cases hr'
      exact ⟨rfl, (h.child p q (by rw [hp]; rfl)).1, by simp [update_of_ne hne]⟩
  | @copy c p q ho hp =>
    have hr := h.run ho hp
    refine h.goes ho rfl (.inl rfl) rfl (fun _ _ => rfl) hr (parked_running hr.2) fun r hr' => ?_
    rw [hp]
    exact ⟨hr', by simp⟩
  | @giveUp c p q ho hp =>
    have hch : (s.pc p).child = some q := by rcases hp with hp | hp <;> rw [hp] <;> rfl
    have hr : s.lock ≠ some c ∧ (s.proc p).state = .running := by
      rcases hp with hp | hp <;> exact h.run ho hp
    have hne : q ≠ p := h.ne_of_state hr.2 (h.child p q hch).1 (by simp)
    refine h.withChild (x := .user) ho hch rfl (.inl rfl) (fun r e e' => ?_) (by simp) (.inl ?_) (fun r e => ?_) (.inl (by simp)) hr
      (parked_running hr.2) fun r hr' => ?_
    · simp [update_of_ne e]
    · simp [update_of_ne hne]
    · simp [e]
    · cases hr'
  | @adopt c p q ho hp =>
    have hr := h.run ho hp
    have hst := s.proc.modify_state q (f := fun x => { x with parent := some p }) fun _ => rfl
    refine h.goes ho rfl (.inl rfl) rfl (fun r _ => hst r) ⟨hr.1, (hst p).trans hr.2⟩
      (parked_running ((hst p).trans hr.2)) fun r hr' => ?_
    rw [hp]
    exact ⟨hr', by simp⟩
  | @publish c p q ho hp =>
    have hr := h.run ho hp
    obtain ⟨hq, hf⟩ := h.child p q (by rw [hp]; rfl)
    have hf : s.pc q = .forkret := hf.resolve_left (by rw [hp]; simp)
    have hne : q ≠ p := h.ne_of_state hr.2 hq (by simp)
    have hf' : update s.pc p .user q = .forkret := by rw [update_of_ne hne, hf]
    refine h.withChild (x := .user) ho (by rw [hp]; rfl) rfl (.inr ⟨hr.1, rfl⟩) (fun r e e' => ?_) (by simp) (.inr hf') (fun r e => ?_)
      (.inr (.inr ⟨by simp, hf'⟩)) ⟨by simp, hr.2⟩ (parked_running hr.2) fun r hr' => ?_
    · simp [update_of_ne e]
    · simp [e]
    · cases hr'
  | @exit c p ho hp =>
    have hr := h.run ho hp
    have hx := Table.exited_exit s.initproc p s.proc
    refine h.own ho rfl (.inl rfl) ?_ ?_ (fun r e => ?_) fun r hr' => ?_
    · simpa using ⟨hr.1, hx.self⟩
    · simp [hx.self, Parked]
    · have hpc : ((((s.table (s.proc.exit s.initproc p)).note (.exited (s.proc p).pid)).goto p (.sched .exit))).pc r = s.pc r := by
        simp [update_of_ne e]
      rcases hx.state r e with e' | ⟨e1, e2⟩
      · exact .same e' hpc
      · exact .woken hr.1 e1 e2 hpc
    · simp only [Kernel.goto, update_self] at hr'
      cases hr'
  | @reap c p q ho hp hq =>
    have hr := h.run ho hp
    obtain ⟨_, hz⟩ := Table.wait_found hq
    have hne : q ≠ p := h.ne_of_state hr.2 hz (by simp)
    refine h.own ho rfl (.inr (.inl ⟨hr.1, rfl⟩)) ?_ ?_ (fun r e => ?_) fun r hr' => ?_
    · have hp : (s.proc p).state = .running := hr.2
      simp [hne.symm, hp, RunOk]
    · have hp : (s.proc p).state = .running := hr.2
      simp [hne.symm, hp, Parked]
    · by_cases e' : r = q
      · subst e'
        exact .reaped hr.1 hz (by simp [Table.reap]) (by simp [update_of_ne e])
      · exact .same (by simp [e']) (by simp [update_of_ne e])
    · simp only [Kernel.goto, update_self] at hr'
      cases hr'
  | @wait c p ho hp hq =>
    have hr := h.run ho hp
    exact h.goes ho rfl (.inl rfl) rfl (fun r e => by simp [e]) ⟨hr.1, by simp; rfl⟩ (by simp [Parked]) fun r hr' => by cases hr'
  | @kill c p q pid ho hp hq =>
    have hr := h.run ho hp
    refine h.wakes ho hp rfl rfl rfl ?_ fun r e => ?_
    · have hp : (s.proc p).state = .running := hr.2
      by_cases e : p = q <;> simp_all [Table.kill]
    · by_cases e' : r = q <;> by_cases hs : (s.proc q).state = .sleeping <;> simp [Table.kill, e', hs]
  | @killNone c p pid ho hp hq => exact h.wakes ho hp rfl rfl rfl rfl fun r e => .inl rfl
  | @yield c p ho hp =>
    have hr := h.run ho hp
    exact h.goes ho rfl (.inl rfl) rfl (fun r e => by simp [e]) ⟨hr.1, by simp; rfl⟩ (by simp [Parked]) fun r hr' => by cases hr'
  | @sleep c p a ho hp =>
    have hr := h.run ho hp
    exact h.goes ho rfl (.inl rfl) rfl (fun r e => by simp [e]) ⟨hr.1, by simp; rfl⟩ (by simp [Parked]) fun r hr' => by cases hr'
  | @wakeup c p a ho hp =>
    have hr := h.run ho hp
    have hw := Table.woken_wakeup1 s.proc (.other a)
    refine h.wakes ho hp rfl rfl rfl ?_ fun r _ => hw.state r
    rcases hw.state p with e | ⟨e, _⟩
    · exact e
    · rw [show (s.proc p).state = _ from hr.2] at e; cases e
  | @sched c p k ho hp => exact h.sched ho hp
  | @woken c p ho hp =>
    have hr := h.run ho hp
    have hst := s.proc.modify_state p (f := fun x => { x with chan := none }) fun _ => rfl
    refine h.goes ho rfl (.inr (.inl ⟨hr.1, rfl⟩)) rfl (fun r _ => hst r) ⟨by simp, (hst p).trans hr.2⟩
      (parked_running ((hst p).trans hr.2)) fun r hr' => ?_
    cases hr'
  | @rescan c p ho hp =>
    have hr := h.run ho hp
    have hst := s.proc.modify_state p (f := fun x => { x with chan := none }) fun _ => rfl
    refine h.goes ho rfl (.inl rfl) rfl (fun r _ => hst r) ⟨hr.1, (hst p).trans hr.2⟩
      (parked_running ((hst p).trans hr.2)) fun r hr' => ?_
    cases hr'
  | interrupt a hl => exact h.interrupt hl a
  | dispatch hc hd => exact h.dispatch hc hd
  | setRunning hc hx => exact h.setRunning hc hx
  | panic => exact h.panics

omit [DecidableEq C] in
theorem boot (init : Fin n) : Sound (Kernel.boot init : Kernel n C) := by
  refine ⟨fun c => ?_, fun c c' p h => ?_, fun p h => ?_, fun p h => ?_, fun p => ?_, fun p q h => ?_, fun p p' q h => ?_⟩
  · simp [CpuOk, LoopOk, Kernel.boot]
  · simp [Kernel.boot] at h
  · simp only [Kernel.boot] at h
    split at h <;> cases h
  · cases h
  · simp only [Kernel.boot]
    split
    · exact .inr (.inr (.inr (.inr rfl)))
    · trivial
  · cases h
  · cases h

theorem runs (h : Sound s) (es : List (Ev C)) : Sound (s.runs es) := by
  induction es generalizing s with
  | nil => exact h
  | cons e es ih =>
    refine ih ?_
    rcases step_spec h.current e with e' | hs
    · rw [e']; exact h
    · exact h.step hs

omit [DecidableEq C] in
/-- A CPU uses only the process it runs, is about to run or has just run. -/
theorem proc_of_use (h : Sound s) (hu : (s.cpu c).stack = some p ∨ (s.cpu c).cr3 = some p) : (s.cpu c).proc = some p := by
  rcases hu with hu | hu
  · exact h.current c p hu
  · have hc := h.cpu c
    unfold CpuOk at hc
    split at hc
    · unfold LoopOk at hc
      split at hc <;> simp_all
    · simp_all

omit [DecidableEq C] in
/-- While CPU `c` runs `p` with the lock held, no CPU uses a process that is not RUNNING. -/
theorem unused_by_cpus (h : Sound s) (ho : s.On c p) (hl : s.lock = some c) (hp : (s.proc p).state = .running) {q : Fin n}
    (hq : (s.proc q).state ≠ .running) (c' : C) : (s.cpu c').proc ≠ some q := by
  intro hc'
  by_cases e : c' = c
  · rw [e, ho.2] at hc'
    cases hc'
    exact hq hp
  · exact hq ((h.cpu c').running (by rw [hl]; simp [Ne.symm e]) hc')

end Sound

/-- In every run, while `ptable.lock` is free, a process is RUNNING iff exactly one CPU has
    it as `c->proc`, and no CPU has another; and `wait` frees the stack and page directory
    of a process that no CPU has as `c->proc` or is still on. -/
theorem one_cpu_each (init : Fin n) (es : List (Ev C)) :
    let s := (Kernel.boot init : Kernel n C).runs es
    (s.lock = none → (∀ p, (s.proc p).state = .running ↔ ∃! c, (s.cpu c).proc = some p) ∧
      ∀ c p, (s.cpu c).proc = some p → (s.proc p).state = .running) ∧
    ∀ c p q, s.On c p → s.pc p = .locked .wait → s.proc.wait p = .found q →
      ∀ c', (s.cpu c').proc ≠ some q ∧ (s.cpu c').stack ≠ some q ∧ (s.cpu c').cr3 ≠ some q := by
  intro s
  have h : Sound s := (Sound.boot init).runs es
  refine ⟨fun hl => ?_, fun c p q ho hp hq c' => ?_⟩
  · have hrun : ∀ c p, (s.cpu c).proc = some p → (s.proc p).state = .running := fun c p => (h.cpu c).running (by rw [hl]; simp)
    refine ⟨fun p => ⟨fun hp => ?_, fun ⟨c, hc, _⟩ => hrun c p hc⟩, hrun⟩
    obtain ⟨c, hc⟩ := h.running p hp
    exact ⟨c, hc, fun c' hc' => h.unique c' c p hc' hc⟩
  · have hr := h.run ho hp
    have hz := (Table.wait_found hq).2
    have hno := h.unused_by_cpus ho hr.1 hr.2 (q := q) (by rw [hz]; simp)
    exact ⟨hno c', fun e => hno c' (h.proc_of_use (.inl e)), fun e => hno c' (h.proc_of_use (.inr e))⟩

/-- One CPU goes on. -/
def steps (k : Nat) : List (Ev Unit) := List.replicate k (.step () true)

/-- The first process gets the CPU and releases the lock. -/
theorem one_cpu_each_init :
    let s : Kernel 2 Unit := (Kernel.boot 0).runs (steps 6)
    (s.proc 0).state = .running ∧ ∃! c, (s.cpu c).proc = some 0 :=
  ⟨by decide +kernel, (((one_cpu_each (C := Unit) 0 (steps 6)).1 (by decide +kernel)).1 0).1 (by decide +kernel)⟩

end Xv6.Ptable
