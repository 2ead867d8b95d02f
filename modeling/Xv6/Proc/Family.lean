/-
  Xv6.Proc.Family — parents, children and pids (`proc.c`: `fork`, `exit`, `wait`).

  `Family` says who may be a parent and what a process asleep in `wait` can rely on;
  `Pids` says that pids are handed out in order, that no two processes have the same, and
  what the log of forks, exits and waits says of each. Both hold in every run.

  `children_reaped_once` and `wait_sleeps_on_no_zombie`.
-/

import Xv6.Proc.Cpus

namespace Xv6.Ptable

open Kernel Function

variable {n : Nat} {C : Type}

/-! ## Parents -/

/-- May have children. -/
def Alive (st : ProcState) : Prop := st = .sleeping ∨ st = .runnable ∨ st = .running

namespace Pc

/-- The slot of a child without a parent. -/
def early : Pc n → Option (Fin n)
  | kstack q => some q
  | copy q => some q
  | adopt q => some q
  | _ => none

/-- The slot of a child with its parent set. -/
def late : Pc n → Option (Fin n)
  | acquire (.publish q) => some q
  | locked (.publish q) => some q
  | _ => none

def exits : Pc n → Bool
  | acquire .exit => true
  | locked .exit => true
  | _ => false

/-- In `sleep` called from `wait`. -/
def waits : Pc n → Bool
  | sched .wait => true
  | back .wait => true
  | _ => false

theorem child_of_early {x : Pc n} {q : Fin n} (h : x.early = some q) : x.child = some q := by
  cases x <;> first | exact h | cases h

theorem child_of_late {x : Pc n} {q : Fin n} (h : x.late = some q) : x.child = some q := by
  cases x with
  | acquire k => cases k <;> exact h
  | locked k => cases k <;> exact h
  | _ => cases h

end Pc

/-- What `wait` sleeps on. -/
structure Waiting (t : Table n) (p : Fin n) : Prop where
  chan : (t p).chan = some (.proc p)
  child : ∃ q, (t q).parent = some p
  noZombie : ∀ q, (t q).parent = some p → (t q).state ≠ .zombie

structure Family (s : Kernel n C) : Prop where
  parent : ∀ q f, (s.proc q).parent = some f → Alive (s.proc f).state
  orphan : ∀ q, q ≠ s.initproc → Alive (s.proc q).state ∨ (s.proc q).state = .zombie → (s.proc q).parent ≠ none
  unused : ∀ q, (s.proc q).state = .unused → (s.proc q).parent = none
  init : Alive (s.proc s.initproc).state ∧ (s.proc s.initproc).parent = none
  self : ∀ q, (s.proc q).parent ≠ some q
  early : ∀ p q, (s.pc p).early = some q → (s.proc q).parent = none
  late : ∀ p q, (s.pc p).late = some q → (s.proc q).parent = some p
  exits : ∀ p, (s.pc p).exits = true → p ≠ s.initproc
  waiting : ∀ p, (s.proc p).state = .sleeping → (s.pc p).waits = true → Waiting s.proc p

/-- Not yet a process, or no longer one. -/
def Free (st : ProcState) : Prop := st = .unused ∨ st = .embryo

theorem Alive.not_free {st : ProcState} (h : Alive st) : ¬ Free st := by
  rcases h with h | h | h <;> simp [h, Free]

theorem Alive.not_zombie {st : ProcState} (h : Alive st) : st ≠ .zombie := by
  rcases h with h | h | h <;> simp [h]

namespace Family

variable {s s' : Kernel n C} {c : C} {p : Fin n}

/-- A statement that changes no parents and makes nobody a zombie. -/
theorem frame (h : Family s) (hi : s'.initproc = s.initproc) (hpar : ∀ q, (s'.proc q).parent = (s.proc q).parent)
    (hst : ∀ q, (s'.proc q).state = (s.proc q).state ∨ Alive (s.proc q).state ∧ Alive (s'.proc q).state ∨
      Free (s.proc q).state ∧ (Free (s'.proc q).state ∧ (s.proc q).parent = none ∨ Alive (s'.proc q).state ∧ (s.proc q).parent ≠ none))
    (hearly : ∀ r q, (s'.pc r).early = some q → (s.pc r).early = some q ∨ (s.proc q).parent = none)
    (hlate : ∀ r q, (s'.pc r).late = some q → (s.pc r).late = some q)
    (hexits : ∀ r, (s'.pc r).exits = true → r ≠ s.initproc)
    (hwait : ∀ r, (s'.proc r).state = .sleeping → (s'.pc r).waits = true → Waiting s'.proc r ∨
      (s.proc r).state = .sleeping ∧ (s.pc r).waits = true ∧ (s'.proc r).chan = (s.proc r).chan) : Family s' := by
  have halive : ∀ q, Alive (s.proc q).state → Alive (s'.proc q).state := fun q hq => by
    have := hq.not_free
    have := hst q
    grind
  have hzombie : ∀ q, (s'.proc q).state = .zombie → (s.proc q).state = .zombie := fun q hq => by
    have := hst q
    grind [Alive, Free]
  refine ⟨fun q f hf => ?_, fun q hq hl => ?_, fun q hq => ?_, ⟨?_, ?_⟩, fun q => ?_, fun r q hr => ?_, fun r q hr => ?_, fun r hr => ?_,
    fun r hr hw => ?_⟩
  · exact halive f (h.parent q f ((hpar q).symm.trans hf))
  · have := h.orphan q (hi ▸ hq)
    have := hst q
    grind [Alive, Free]
  · have := h.unused q
    have := hst q
    grind [Alive, Free]
  · rw [hi]; exact halive _ h.init.1
  · rw [hi, hpar]; exact h.init.2
  · rw [hpar]; exact h.self q
  · rw [hpar]; exact (hearly r q hr).elim (h.early r q) id
  · rw [hpar]; exact h.late r q (hlate r q hr)
  · rw [hi]; exact hexits r hr
  · rcases hwait r hr hw with e | ⟨h1, h2, h3⟩
    · exact e
    · obtain ⟨w1, ⟨q, w2⟩, w3⟩ := h.waiting r h1 h2
      exact ⟨h3.trans w1, ⟨q, (hpar q).trans w2⟩, fun q hq hz => w3 q ((hpar q).symm.trans hq) (hzombie q hz)⟩

/-- `p` goes on at `x`, and the entry of `q` is changed. -/
theorem goes (h : Family s) {q : Fin n} {x : Pc n} {f : Proc n → Proc n} (hi : s'.initproc = s.initproc)
    (hpc : s'.pc = update s.pc p x) (hf : s'.proc = s.proc.modify q f)
    (hpar : (f (s.proc q)).parent = (s.proc q).parent)
    (hst : (f (s.proc q)).state = (s.proc q).state ∨ Alive (s.proc q).state ∧ Alive (f (s.proc q)).state ∨
      Free (s.proc q).state ∧ (Free (f (s.proc q)).state ∧ (s.proc q).parent = none ∨
        Alive (f (s.proc q)).state ∧ (s.proc q).parent ≠ none))
    (hsl : (f (s.proc q)).state = .sleeping → q = p ∨ (s.proc q).state = .sleeping ∧ (f (s.proc q)).chan = (s.proc q).chan)
    (hearly : ∀ a, x.early = some a → (s.pc p).early = some a ∨ (s.proc a).parent = none)
    (hlate : ∀ a, x.late = some a → (s.pc p).late = some a) (hexits : x.exits = true → p ≠ s.initproc)
    (hwaits : x.waits = true → Waiting s'.proc p) : Family s' := by
  have hproc : ∀ r, s'.proc r = if r = q then f (s.proc q) else s.proc r := fun r => by rw [hf, Table.modify, update_apply]
  have hpc' : ∀ r, s'.pc r = if r = p then x else s.pc r := fun r => by rw [hpc, update_apply]
  refine h.frame hi (fun r => ?_) (fun r => ?_) (fun r a hr => ?_) (fun r a hr => ?_) (fun r hr => ?_) fun r hr hw => ?_
  · grind
  · by_cases e : r = q
    · rw [hproc, if_pos e, e]; exact hst
    · rw [hproc, if_neg e]; exact .inl rfl
  · grind
  · grind
  · have := h.exits r
    grind
  · grind

/-- `p` goes on; the table stays as it is. -/
theorem moves (h : Family s) {x : Pc n} (hi : s'.initproc = s.initproc) (hproc : s'.proc = s.proc)
    (hpc : s'.pc = update s.pc p x) (hearly : ∀ q, x.early = some q → (s.pc p).early = some q)
    (hlate : ∀ q, x.late = some q → (s.pc p).late = some q) (hexits : x.exits = true → p ≠ s.initproc)
    (hwaits : x.waits = false) : Family s' :=
  h.goes (q := p) (f := id) hi hpc (by rw [hproc]; exact (update_eq_self p s.proc).symm) rfl (.inl rfl) (fun _ => .inl rfl)
    (fun a ha => .inl (hearly a ha)) hlate hexits (by simp [hwaits])

/-- Nobody goes anywhere; sleepers may be woken. -/
theorem wakes (h : Family s) (hi : s'.initproc = s.initproc) (hpar : ∀ q, (s'.proc q).parent = (s.proc q).parent)
    (hst : ∀ q, (s'.proc q).state = (s.proc q).state ∨ (s.proc q).state = .sleeping ∧ (s'.proc q).state = .runnable)
    (hchan : ∀ q, (s'.proc q).chan = (s.proc q).chan) (hpc : s'.pc = s.pc) : Family s' := by
  refine h.frame hi hpar (fun q => (hst q).imp id fun e => .inl ⟨.inl e.1, .inr (.inl e.2)⟩) (fun r q hr => .inl ?_) (fun r q hr => ?_)
    (fun r hr => ?_) fun r hr hw => .inr ?_
  · rwa [hpc] at hr
  · rwa [hpc] at hr
  · rw [hpc] at hr; exact h.exits r hr
  · have := hst r
    exact ⟨by grind, hpc ▸ hw, hchan r⟩

theorem adopt (hs : Sound s) (h : Family s) {q : Fin n} (ho : s.On c p) (hp : s.pc p = .adopt q) (hi : s'.initproc = s.initproc)
    (hpc : s'.pc = update s.pc p (.acquire (.publish q))) (hst : ∀ r, (s'.proc r).state = (s.proc r).state)
    (hpar : ∀ r, (s'.proc r).parent = if r = q then some p else (s.proc r).parent)
    (hchan : ∀ r, (s'.proc r).chan = (s.proc r).chan) : Family s' := by
  have hr := hs.run ho hp
  have hq : (s.proc q).state = .embryo := (hs.child p q (by rw [hp]; rfl)).1
  have hne : q ≠ p := hs.ne_of_state hr.2 hq (by simp)
  have hnone : (s.proc q).parent = none := h.early p q (by rw [hp]; rfl)
  have hpc' : ∀ r, s'.pc r = if r = p then .acquire (.publish q) else s.pc r := fun r => by rw [hpc, update_apply]
  -- the child of another process is another
  have hother : ∀ r q', r ≠ p → (s.pc r).child = some q' → q' ≠ q := fun r q' e hr' e' =>
    e (hs.forker r p q (e' ▸ hr') (by rw [hp]; rfl))
  have hrun := hr.2
  refine ⟨fun r f hf => ?_, fun r hri hl => ?_, fun r hu => ?_, ⟨?_, ?_⟩, fun r => ?_, fun r q' hr' => ?_, fun r q' hr' => ?_, fun r hr' => ?_,
    fun r hsl hw => ?_⟩
  · have := h.parent r f
    grind [Alive]
  · have := h.orphan r
    grind
  · have := h.unused r
    grind
  · rw [hi, hst]
    exact h.init.1
  · have := h.init
    grind [Alive]
  · have := h.self r
    grind
  · have := h.early r q'
    have := hother r q'
    have := Pc.child_of_early (x := s.pc r) (q := q')
    grind [Pc.early]
  · have := h.late r q'
    have := hother r q'
    have := Pc.child_of_late (x := s.pc r) (q := q')
    grind [Pc.late]
  · have := h.exits r
    grind [Pc.exits]
  · rw [hst] at hsl
    obtain ⟨w1, ⟨q', w2⟩, w3⟩ := h.waiting r hsl (by grind [Pc.waits])
    exact ⟨(hchan r).trans w1, ⟨q', by grind⟩, fun q' hq' => by have := w3 q'; grind⟩

theorem exit (hs : Sound s) (h : Family s) (ho : s.On c p) (hp : s.pc p = .locked .exit) (hi : s'.initproc = s.initproc)
    (hpc : s'.pc = update s.pc p (.sched .exit)) (hx : Table.Exited s.initproc p s.proc s'.proc) : Family s' := by
  have hrun := (hs.run ho hp).2
  have hpi : p ≠ s.initproc := h.exits p (by rw [hp]; rfl)
  have hpc' : ∀ r, s'.pc r = if r = p then .sched .exit else s.pc r := fun r => by rw [hpc, update_apply]
  have hstate := hx.state
  have hparent := hx.parent
  have hself := hx.self
  have halive : ∀ r, r ≠ p → Alive (s.proc r).state → Alive (s'.proc r).state := fun r e => by
    have := hstate r e
    grind [Alive]
  refine ⟨fun r f hf => ?_, fun r hri hl => ?_, fun r hu => ?_, ⟨?_, ?_⟩, fun r => ?_, fun r q' hr' => ?_, fun r q' hr' => ?_, fun r hr' => ?_,
    fun r hsl hw => ?_⟩
  · have := halive s.initproc hpi.symm h.init.1
    have := h.parent r f
    grind
  · have := h.orphan r
    have := hstate r
    grind [Alive]
  · have := h.unused r
    have := hstate r
    grind
  · rw [hi]
    exact halive _ hpi.symm h.init.1
  · rw [hi, hparent, h.init.2]
    simp
  · have := h.self r
    have := h.init.2
    grind
  · have := h.early r q'
    grind [Pc.early]
  · have := h.late r q'
    grind [Pc.late]
  · have := h.exits r
    grind [Pc.exits]
  · have e : r ≠ p := by grind
    have hsl' : (s.proc r).state = .sleeping := by have := hstate r e; grind
    obtain ⟨w1, ⟨q', w2⟩, w3⟩ := h.waiting r hsl' (by grind [Pc.waits])
    refine ⟨(hx.chan r).trans w1, ⟨q', by grind⟩, fun q' hq' hz => ?_⟩
    have hold : q' ≠ p → (s.proc q').state = .zombie := fun e' => by have := hstate q' e'; grind
    rw [hparent] at hq'
    split at hq'
    · -- a child that init inherits; a zombie among them has woken it
      rename_i e'
      cases hq'
      exact hx.initWoken _ q' e e' (hold fun e'' => h.self p (e'' ▸ e')) w1 hsl
    · by_cases e' : q' = p
      · exact hx.parentWoken r r e (e' ▸ hq') w1 hsl
      · exact w3 q' hq' (hold e')

theorem reap (hs : Sound s) (h : Family s) {q : Fin n} (ho : s.On c p) (hp : s.pc p = .locked .wait) (hq : s.proc.wait p = .found q)
    (hi : s'.initproc = s.initproc) (hpc : s'.pc = update s.pc p .user)
    (hproc : ∀ r, s'.proc r = if r = q then Table.reap (s.proc r) else s.proc r) : Family s' := by
  have hrun := (hs.run ho hp).2
  obtain ⟨hqp, hz⟩ := Table.wait_found hq
  have hqi : q ≠ s.initproc := fun e => h.init.1.not_zombie (e ▸ hz)
  have hpc' : ∀ r, s'.pc r = if r = p then .user else s.pc r := fun r => by rw [hpc, update_apply]
  have hsame : ∀ r, r ≠ q → s'.proc r = s.proc r := fun r e => by rw [hproc, if_neg e]
  have hself : s'.proc q = Table.reap (s.proc q) := by rw [hproc, if_pos rfl]
  refine ⟨fun r f hf => ?_, fun r hri hl => ?_, fun r hu => ?_, ⟨?_, ?_⟩, fun r => ?_, fun r q' hr' => ?_, fun r q' hr' => ?_, fun r hr' => ?_,
    fun r hsl hw => ?_⟩
  · have := h.parent r f
    by_cases e : r = q <;> by_cases e' : f = q <;> grind [Alive, Table.reap]
  · have := h.orphan r
    by_cases e : r = q <;> grind [Alive, Table.reap]
  · have := h.unused r
    by_cases e : r = q <;> grind [Table.reap]
  · rw [hi, hsame _ (Ne.symm hqi)]; exact h.init.1
  · rw [hi, hsame _ (Ne.symm hqi)]; exact h.init.2
  · have := h.self r
    by_cases e : r = q <;> grind [Table.reap]
  · have := h.early r q'
    by_cases e : q' = q <;> grind [Table.reap, Pc.early]
  · have hr' : (s.pc r).late = some q' := by grind [Pc.late]
    have := h.late r q' hr'
    have := (hs.child r q' (Pc.child_of_late hr')).1
    by_cases e : q' = q <;> grind
  · have := h.exits r
    grind [Pc.exits]
  · have e : r ≠ q := by grind [Table.reap]
    rw [hsame r e] at hsl
    obtain ⟨w1, ⟨q', w2⟩, w3⟩ := h.waiting r hsl (by grind [Pc.waits])
    refine ⟨by rw [hsame r e, w1], ⟨q', ?_⟩, fun q' hq' => ?_⟩
    · rw [hsame q' (by grind), w2]
    · have := w3 q'
      by_cases e'' : q' = q <;> grind [Table.reap]

variable [DecidableEq C]

theorem step (hs : Sound s) (h : Family s) {e : Ev C} (hstep : Step s e s') : Family s' := by
  cases hstep with
  | @call c p ho hp k hk =>
    refine h.moves rfl rfl rfl (by simp [Pc.early]) (fun q hq => ?_) (fun he => hk ?_) rfl
    · cases k <;> cases hq
    · cases k <;> first | rfl | cases he
  | @trap c p ho hp =>
    refine h.goes (p := p) (q := p) (f := fun x => { x with killed := true }) rfl ?_ rfl rfl (.inl rfl) (fun _ => .inl rfl)
      (fun _ ha => .inl ha) (fun _ ha => ha) (fun ha => h.exits p ha) fun ha => ?_
    · exact (update_eq_self p s.pc).symm
    · rw [hp] at ha; cases ha
  | @acquire c p k ho hp hl =>
    refine h.moves rfl rfl rfl (by simp [Pc.early]) ?_ (fun he => h.exits p ?_) rfl
    · rw [hp]; cases k <;> simp [Pc.late]
    · rw [hp]; cases k <;> exact he
  | scan | leave | killNone => exact h.moves rfl rfl rfl (by simp [Pc.early]) (by simp [Pc.late]) (by simp [Pc.exits]) rfl
  | @alloc c p q ho hp hq =>
    have hnone := h.unused q hq
    refine h.goes (q := q) (f := fun x => { x with state := .embryo, pid := s.nextpid }) rfl rfl rfl rfl (.inr (.inr ⟨.inl hq, .inl ⟨.inr rfl, hnone⟩⟩))
      (by simp) (fun a ha => .inr ?_) (by simp [Pc.late]) (by simp [Pc.exits]) (by simp [Pc.waits])
    cases ha
    exact hnone
  | @kstack c p q ho hp =>
    -- two program counters change
    have hpc : ∀ r, ((s.goto q .forkret).goto p (.copy q)).pc r = if r = p then .copy q else if r = q then .forkret else s.pc r :=
      fun r => by simp only [Kernel.goto, update_apply]
    refine h.frame rfl (fun _ => rfl) (fun _ => .inl rfl) (fun r a hr => .inl ?_) (fun r a hr => ?_) (fun r hr => h.exits r ?_)
      fun r hr hw => .inr ⟨hr, ?_, rfl⟩
    all_goals grind [Pc.early, Pc.late, Pc.exits, Pc.waits]
  | @copy c p q ho hp =>
    exact h.moves rfl rfl rfl (by rw [hp]; simp [Pc.early]) (by simp [Pc.late]) (by simp [Pc.exits]) rfl
  | @giveUp c p q ho hp =>
    have hch : (s.pc p).early = some q := by rcases hp with hp | hp <;> rw [hp] <;> rfl
    have hq := (hs.child p q (Pc.child_of_early hch)).1
    exact h.goes (q := q) (f := fun x => { x with state := .unused }) rfl rfl rfl rfl
      (.inr (.inr ⟨.inr hq, .inl ⟨.inl rfl, h.early p q hch⟩⟩)) (by simp) (by simp [Pc.early]) (by simp [Pc.late]) (by simp [Pc.exits])
      (by simp [Pc.waits])
  | @adopt c p q ho hp =>
    refine adopt hs h ho hp rfl rfl (fun r => ?_) (fun r => ?_) fun r => ?_ <;>
    · simp only [Kernel.goto, Kernel.modify, Kernel.table, Table.modify_apply]
      split <;> rfl
  | @publish c p q ho hp =>
    have hl : (s.pc p).late = some q := by rw [hp]; rfl
    have hq := (hs.child p q (Pc.child_of_late hl)).1
    exact h.goes (q := q) (f := fun x => { x with state := .runnable }) rfl rfl rfl rfl
      (.inr (.inr ⟨.inr hq, .inr ⟨.inr (.inl rfl), by rw [h.late p q hl]; simp⟩⟩)) (by simp) (by simp [Pc.early]) (by simp [Pc.late])
      (by simp [Pc.exits]) (by simp [Pc.waits])
  | @exit c p ho hp => exact exit hs h ho hp rfl rfl (Table.exited_exit _ _ _)
  | @reap c p q ho hp hq => exact reap hs h ho hp hq rfl rfl fun r => Table.modify_apply _ _ _ _
  | @wait c p ho hp hq =>
    have hr := hs.run ho hp
    obtain ⟨⟨k, hk⟩, hno⟩ := Table.wait_sleep hq
    refine h.goes (q := p) (f := fun x => { x with chan := some (.proc p), state := .sleeping }) rfl rfl rfl rfl (.inr (.inl ⟨.inr (.inr hr.2), .inl rfl⟩))
      (fun _ => .inl rfl) (by simp [Pc.early]) (by simp [Pc.late]) (by simp [Pc.exits]) fun _ => ?_
    -- `wait` has just looked
    refine ⟨by simp, ⟨k, ?_⟩, fun q => ?_⟩ <;> simp only [Kernel.goto, Kernel.modify, Kernel.table, Table.modify_apply] <;> grind
  | @kill c p q pid ho hp hq =>
    refine h.goes (q := q) (f := Table.kill) rfl rfl rfl rfl ?_ ?_ (by simp [Pc.early])
      (by simp [Pc.late]) (by simp [Pc.exits]) (by simp [Pc.waits])
    all_goals grind [Table.kill, Alive]
  | @yield c p ho hp =>
    have hr := hs.run ho hp
    exact h.goes (q := p) (f := fun x => { x with state := .runnable }) rfl rfl rfl rfl
      (.inr (.inl ⟨.inr (.inr hr.2), .inr (.inl rfl)⟩)) (by simp) (by simp [Pc.early]) (by simp [Pc.late]) (by simp [Pc.exits]) (by simp [Pc.waits])
  | @sleep c p a ho hp =>
    have hr := hs.run ho hp
    exact h.goes (q := p) (f := fun x => { x with chan := some (.other a), state := .sleeping }) rfl rfl rfl rfl
      (.inr (.inl ⟨.inr (.inr hr.2), .inl rfl⟩)) (fun _ => .inl rfl) (by simp [Pc.early]) (by simp [Pc.late]) (by simp [Pc.exits])
      (by simp [Pc.waits])
  | @wakeup c p a ho hp =>
    have hw := Table.woken_wakeup1 s.proc (.other a)
    have h' : Family (s.table (s.proc.wakeup1 (.other a))) := h.wakes rfl (Table.wakeup1_parent _ _) hw.state hw.chan rfl
    exact h'.moves rfl rfl rfl (by simp [Pc.early]) (by simp [Pc.late]) (by simp [Pc.exits]) rfl
  | @sched c p k ho hp =>
    have hpc : ∀ r, ((s.goto p (.back k)).setCpu c fun x => { x with stack := none }).pc r = if r = p then .back k else s.pc r :=
      fun r => by simp only [Kernel.goto, Kernel.setCpu, update_apply]
    refine h.frame rfl (fun _ => rfl) (fun _ => .inl rfl) (fun r q hr => .inl ?_) (fun r q hr => ?_) (fun r hr => h.exits r ?_)
      fun r hr hw => .inr ⟨hr, ?_, rfl⟩
    all_goals cases k <;> grind [Pc.early, Pc.late, Pc.exits, Pc.waits]
  | @woken c p | @rescan c p =>
    exact h.goes (q := p) (f := fun x => { x with chan := none }) rfl rfl rfl rfl (.inl rfl) (fun _ => .inl rfl)
      (by simp [Pc.early]) (by simp [Pc.late]) (by simp [Pc.exits]) (by simp [Pc.waits])
  | interrupt a hl =>
    have hw := Table.woken_wakeup1 s.proc (.other a)
    exact h.wakes rfl (Table.wakeup1_parent _ _) hw.state hw.chan rfl
  | dispatch hc hd =>
    cases hd <;> exact h.wakes rfl (fun _ => rfl) (fun _ => .inl rfl) (fun _ => rfl) rfl
  | @setRunning c p hc hx =>
    have hl := hs.loop_ok hc
    simp only [LoopOk, hx] at hl
    have hproc : ∀ r, ((s.modify p fun x => { x with state := .running }).setCpu c fun x => { x with loop := .swtch p }).proc r =
        if r = p then { s.proc p with state := .running } else s.proc r := fun r => update_apply ..
    refine h.frame rfl (fun r => ?_) (fun r => ?_) (fun r a hr => .inl hr) (fun r a hr => hr) (fun r hr => h.exits r hr) fun r hr hw => .inr ⟨?_, hw, ?_⟩
    all_goals grind [Alive]
  | panic => exact h.wakes rfl (fun _ => rfl) (fun _ => .inl rfl) (fun _ => rfl) rfl

end Family

/-! ## Pids -/

def Entry.isAssigned : Entry n → Bool
  | assigned _ _ => true
  | _ => false

/-- How many processes have ever been given a pid. -/
def created (log : List (Entry n)) : Nat := log.countP Entry.isAssigned

/-- Every pid that `wait` returned had been returned by `fork` to the same process, or to one
    that has exited if init waits for it; and it was returned once. -/
def Reaps : List (Entry n) → Prop
  | [] => True
  | .reaped pid w :: log =>
    (∃ f, .forked pid f ∈ log ∧ (w = f ∨ w = 1 ∧ .exited f ∈ log)) ∧ (∀ w', .reaped pid w' ∉ log) ∧ Reaps log
  | _ :: log => Reaps log

def Live (st : ProcState) : Prop := Alive st ∨ st = .zombie

theorem Live.not_unused {st : ProcState} (h : Live st) : st ≠ .unused := by
  rcases h with (h | h | h) | h <;> simp [h]

structure Pids (s : Kernel n C) : Prop where
  next : s.nextpid = BitVec.ofNat 32 (created s.log + 1)
  init : (s.proc s.initproc).pid = 1
  forked : ∀ q, q ≠ s.initproc → Live (s.proc q).state → ∃ f, .forked (s.proc q).pid f ∈ s.log ∧
    ∃ g, (s.proc q).parent = some g ∧ ((s.proc g).pid = f ∨ g = s.initproc ∧ .exited f ∈ s.log)
  range : created s.log < 2 ^ 31 → ∀ q, (s.proc q).state ≠ .unused → (s.proc q).pid.toNat ≤ created s.log
  unique : created s.log < 2 ^ 31 → ∀ q r, (s.proc q).state ≠ .unused → (s.proc r).state ≠ .unused → (s.proc q).pid = (s.proc r).pid → q = r
  reaped : created s.log < 2 ^ 31 → ∀ pid w, .reaped pid w ∈ s.log →
    pid.toNat ≤ created s.log ∧ ∀ q, (s.proc q).state ≠ .unused → (s.proc q).pid ≠ pid
  reaps : created s.log < 2 ^ 31 → Reaps s.log

namespace Pids

variable {s s' : Kernel n C} {c : C} {p : Fin n}

theorem boot (init : Fin n) : Pids (Kernel.boot init : Kernel n C) := by
  have hu : ∀ q, ((Kernel.boot init : Kernel n C).proc q).state ≠ .unused → q = init := by
    intro q hq
    by_contra e
    simp [Kernel.boot, e] at hq
  refine ⟨rfl, by simp [Kernel.boot], fun q hq hl => ?_, fun _ q hq => ?_, fun _ q r hq hr _ => ?_, fun _ pid w h => ?_, fun _ => trivial⟩
  · exact absurd (hu q hl.not_unused) hq
  · rw [hu q hq]
    simp [Kernel.boot, created, Entry.isAssigned]
  · rw [hu q hq, hu r hr]
  · simp [Kernel.boot] at h

/-- Nobody gets or loses a pid; what is noted is no `wait` that returned. -/
theorem notes (h : Pids s) (hn : s'.nextpid = s.nextpid) (hi : s'.initproc = s.initproc) (hcr : created s'.log = created s.log)
    (hlog : ∀ pid w, .reaped pid w ∈ s'.log → .reaped pid w ∈ s.log) (hreaps : Reaps s.log → Reaps s'.log)
    (hpid : ∀ q, (s'.proc q).pid = (s.proc q).pid) (hun : ∀ q, (s'.proc q).state ≠ .unused → (s.proc q).state ≠ .unused)
    (hforked : ∀ q, q ≠ s.initproc → Live (s'.proc q).state → ∃ f, .forked (s.proc q).pid f ∈ s'.log ∧
      ∃ g, (s'.proc q).parent = some g ∧ ((s.proc g).pid = f ∨ g = s.initproc ∧ .exited f ∈ s'.log)) : Pids s' := by
  refine ⟨by rw [hn, hcr, h.next], by rw [hi, hpid, h.init], ?_, fun hc q hq => ?_, fun hc q r hq hr e => ?_,
    fun hc pid w hw => ?_, fun hc => hreaps (h.reaps (hcr ▸ hc))⟩
  · simpa only [hi, hpid] using hforked
  · rw [hpid, hcr]
    exact h.range (hcr ▸ hc) q (hun q hq)
  · rw [hpid, hpid] at e
    exact h.unique (hcr ▸ hc) q r (hun q hq) (hun r hr) e
  · obtain ⟨h1, h2⟩ := h.reaped (hcr ▸ hc) pid w (hlog pid w hw)
    exact ⟨hcr ▸ h1, fun q hq => by rw [hpid]; exact h2 q (hun q hq)⟩

/-- Nobody gets or loses a pid. -/
theorem frame (h : Pids s) (hn : s'.nextpid = s.nextpid) (hi : s'.initproc = s.initproc) (hlog : s'.log = s.log)
    (hpid : ∀ q, (s'.proc q).pid = (s.proc q).pid) (hun : ∀ q, (s'.proc q).state ≠ .unused → (s.proc q).state ≠ .unused)
    (hlive : ∀ q, Live (s'.proc q).state → Live (s.proc q).state ∧ (s'.proc q).parent = (s.proc q).parent) : Pids s' := by
  refine h.notes hn hi (by rw [hlog]) (by rw [hlog]; exact fun _ _ => id) (by rw [hlog]; exact id) hpid hun fun q hq hl => ?_
  obtain ⟨hl, hpar⟩ := hlive q hl
  rw [hlog, hpar]
  exact h.forked q hq hl

/-- A statement that changes at most the state of one process, and not to or from UNUSED. -/
theorem goes (h : Pids s) {q : Fin n} {f : Proc n → Proc n} (hn : s'.nextpid = s.nextpid) (hi : s'.initproc = s.initproc)
    (hlog : s'.log = s.log) (hf : s'.proc = s.proc.modify q f) (hpid : (f (s.proc q)).pid = (s.proc q).pid)
    (hun : (f (s.proc q)).state ≠ .unused → (s.proc q).state ≠ .unused)
    (hlive : Live (f (s.proc q)).state → Live (s.proc q).state ∧ (f (s.proc q)).parent = (s.proc q).parent) : Pids s' := by
  refine h.frame hn hi hlog (fun r => ?_) (fun r => ?_) fun r => ?_ <;>
  · rw [hf, Table.modify_apply]
    split
    · rename_i e
      rw [e]
      assumption
    · first | rfl | exact fun h => h | exact fun h => ⟨h, rfl⟩

/-- Waking sleepers. -/
theorem wakes (h : Pids s) {cs : Chan n → Prop} (hn : s'.nextpid = s.nextpid) (hi : s'.initproc = s.initproc) (hlog : s'.log = s.log)
    (hw : Table.Woken cs s.proc s'.proc) (hpar : ∀ q, (s'.proc q).parent = (s.proc q).parent) : Pids s' := by
  refine h.frame hn hi hlog hw.pid (fun q hq => ?_) fun q hq => ⟨?_, hpar q⟩
  · have := hw.state q
    grind
  · have := hw.state q
    grind [Live, Alive]

/-- A longer log knows as much about the forker of `q`. -/
theorem forked_cons (h : Pids s) (e : Entry n) (q : Fin n) (hq : q ≠ s.initproc) (hl : Live (s.proc q).state) :
    ∃ f, .forked (s.proc q).pid f ∈ e :: s.log ∧
      ∃ g, (s.proc q).parent = some g ∧ ((s.proc g).pid = f ∨ g = s.initproc ∧ .exited f ∈ e :: s.log) := by
  obtain ⟨f, hf, g, hg, hor⟩ := h.forked q hq hl
  exact ⟨f, List.mem_cons_of_mem _ hf, g, hg, hor.imp id fun hor => ⟨hor.1, List.mem_cons_of_mem _ hor.2⟩⟩

theorem note_kill (h : Pids s) (pid : BitVec 32) (r : Int) : Pids (s.note (.kill pid r)) := by
  exact h.notes rfl rfl rfl (fun pid' w hw => (List.mem_cons.1 hw).resolve_left nofun) id (fun _ => rfl) (fun _ => id) (h.forked_cons _)

/-- The parent of a process is no free slot. -/
theorem parent_ne (hf : Family s) {q g : Fin n} {r : Fin n} (hg : (s.proc q).parent = some g) (hr : ¬ Alive (s.proc r).state) : g ≠ r := by
  intro e
  rw [e] at hg
  exact hr (hf.parent q r hg)

theorem alloc (hf : Family s) (h : Pids s) {q : Fin n} (hq : (s.proc q).state = .unused) (hn : s'.nextpid = s.nextpid + 1)
    (hi : s'.initproc = s.initproc) (hlog : s'.log = .assigned q s.nextpid :: s.log)
    (hproc : s'.proc = s.proc.modify q fun x => { x with state := .embryo, pid := s.nextpid }) : Pids s' := by
  have hcr : created s'.log = created s.log + 1 := by rw [hlog]; simp [created, List.countP_cons, Entry.isAssigned]
  have hne : ∀ r, r ≠ q → s'.proc r = s.proc r := fun r e => by rw [hproc, Table.modify_of_ne _ _ e]
  have hself : s'.proc q = { s.proc q with state := .embryo, pid := s.nextpid } := by rw [hproc, Table.modify_self]
  have hnot : ¬ Alive (s.proc q).state := by rw [hq]; simp [Alive]
  have hqi : s.initproc ≠ q := fun e => hnot (e ▸ hf.init.1)
  -- the new pid is larger than all before
  have hnew : created s'.log < 2 ^ 31 → s.nextpid.toNat = created s.log + 1 := by
    intro hc
    rw [h.next, BitVec.toNat_ofNat]
    exact Nat.mod_eq_of_lt (by omega)
  have hold : created s'.log < 2 ^ 31 → ∀ r, (s.proc r).state ≠ .unused → (s.proc r).pid ≠ s.nextpid := by
    intro hc r hr e
    have h1 := h.range (by omega) r hr
    rw [e, hnew hc] at h1
    omega
  refine ⟨?_, ?_, fun r hr hl => ?_, fun hc r hr => ?_, fun hc r r' hr hr' e => ?_, fun hc pid w hw => ?_, fun hc => ?_⟩
  · rw [hn, hcr, h.next]
    exact (BitVec.ofNat_add_ofNat (created s.log + 1) 1)
  · rw [hi, hne _ hqi, h.init]
  · have e : r ≠ q := by
      intro e
      rw [e, hself] at hl
      simp [Live, Alive] at hl
    rw [hi] at hr
    rw [hne r e] at hl ⊢
    obtain ⟨f, hf', g, hg, hor⟩ := h.forked_cons _ r hr hl
    exact ⟨f, hlog ▸ hf', g, hg, by rwa [hne g (parent_ne hf hg hnot), hi, hlog]⟩
  · have := h.range (by omega) r
    by_cases e : r = q <;> grind
  · have := h.unique (by omega) r r'
    have := hold hc r
    have := hold hc r'
    by_cases e1 : r = q <;> by_cases e2 : r' = q <;> grind
  · rw [hlog] at hw
    obtain ⟨h1, h2⟩ := h.reaped (by omega) pid w ((List.mem_cons.1 hw).resolve_left fun e => nomatch e)
    refine ⟨by omega, fun r hr e => ?_⟩
    have := h2 r
    by_cases e' : r = q <;> grind
  · rw [hlog]
    exact h.reaps (by omega)

theorem publish (hs : Sound s) (hf : Family s) (h : Pids s) {q : Fin n} (hp : s.pc p = .locked (.publish q))
    (hn : s'.nextpid = s.nextpid) (hi : s'.initproc = s.initproc) (hlog : s'.log = .forked (s.proc q).pid (s.proc p).pid :: s.log)
    (hproc : s'.proc = s.proc.modify q fun x => { x with state := .runnable }) : Pids s' := by
  have hl : (s.pc p).late = some q := by rw [hp]; rfl
  have hq := (hs.child p q (Pc.child_of_late hl)).1
  have hproc' : ∀ r, s'.proc r = if r = q then { s.proc q with state := .runnable } else s.proc r := fun r => by
    rw [hproc, Table.modify, update_apply]
  refine h.notes hn hi (by rw [hlog]; simp [created, Entry.isAssigned]) (by rw [hlog]; simp) (by rw [hlog]; exact id) (fun r => by grind)
    (fun r hr => by grind) fun r hr hl' => ?_
  rw [hlog]
  by_cases e : r = q
  · rw [hproc', if_pos e, e]
    exact ⟨_, List.mem_cons_self, p, hf.late p q hl, .inl rfl⟩
  · rw [hproc', if_neg e] at hl' ⊢
    exact h.forked_cons _ r hr hl'

theorem exit (hs : Sound s) (hf : Family s) (h : Pids s) (ho : s.On c p) (hp : s.pc p = .locked .exit)
    (hn : s'.nextpid = s.nextpid) (hi : s'.initproc = s.initproc) (hlog : s'.log = .exited (s.proc p).pid :: s.log)
    (hx : Table.Exited s.initproc p s.proc s'.proc) : Pids s' := by
  have hrun := (hs.run ho hp).2
  have hpi : p ≠ s.initproc := hf.exits p (by rw [hp]; rfl)
  have hlive : ∀ r, Live (s'.proc r).state → Live (s.proc r).state := fun r hl => by
    have := hx.state r
    by_cases e : r = p <;> grind [Live, Alive]
  have hun : ∀ r, (s'.proc r).state ≠ .unused → (s.proc r).state ≠ .unused := fun r hr => by
    have := hx.state r
    by_cases e : r = p <;> grind
  refine h.notes hn hi (by rw [hlog]; simp [created, Entry.isAssigned]) (by rw [hlog]; simp) (by rw [hlog]; exact id) hx.pid hun fun r hr hl => ?_
  obtain ⟨f, hf', g, hg, hor⟩ := h.forked_cons (.exited (s.proc p).pid) r hr (hlive r hl)
  refine ⟨f, hlog ▸ hf', ?_⟩
  rw [hx.parent, hlog]
  by_cases e : g = p
  · -- the forker is the one that exits
    rw [e] at hg hor
    rw [if_pos hg]
    rcases hor with hor | ⟨hor, _⟩
    · exact ⟨_, rfl, .inr ⟨rfl, by rw [hor]; exact List.mem_cons_self⟩⟩
    · exact absurd hor hpi
  · rw [if_neg (by rw [hg]; simpa using e)]
    exact ⟨g, hg, hor⟩

theorem reap (hf : Family s) (h : Pids s) {q : Fin n} (hq : s.proc.wait p = .found q) (hn : s'.nextpid = s.nextpid)
    (hi : s'.initproc = s.initproc) (hlog : s'.log = .reaped (s.proc q).pid (s.proc p).pid :: s.log)
    (hproc : s'.proc = s.proc.modify q Table.reap) : Pids s' := by
  obtain ⟨hqp, hz⟩ := Table.wait_found hq
  have hcr : created s'.log = created s.log := by rw [hlog]; simp [created, Entry.isAssigned]
  have hne : ∀ r, r ≠ q → s'.proc r = s.proc r := fun r e => by rw [hproc, Table.modify_of_ne _ _ e]
  have hself : (s'.proc q).state = .unused := by rw [hproc, Table.modify_self]; rfl
  have hnot : ¬ Alive (s.proc q).state := by rw [hz]; simp [Alive]
  have hqi : s.initproc ≠ q := fun e => hnot (e ▸ hf.init.1)
  have hqu : (s.proc q).state ≠ .unused := by rw [hz]; simp
  have hun : ∀ r, (s'.proc r).state ≠ .unused → r ≠ q := fun r hr e => hr (by rw [e, hself])
  refine ⟨by rw [hn, hcr, h.next], by rw [hi, hne _ hqi, h.init], fun r hr hl => ?_, fun hc r hr => ?_, fun hc r r' hr hr' e => ?_,
    fun hc pid w hw => ?_, fun hc => ?_⟩
  · have e := hun r hl.not_unused
    rw [hi] at hr
    rw [hne r e] at hl ⊢
    obtain ⟨f, hf', g, hg, hor⟩ := h.forked_cons _ r hr hl
    exact ⟨f, hlog ▸ hf', g, hg, by rwa [hne g (parent_ne hf hg hnot), hi, hlog]⟩
  · have := h.range (hcr ▸ hc) r
    have := hne r (hun r hr)
    grind
  · have := h.unique (hcr ▸ hc) r r'
    have := hne r (hun r hr)
    have := hne r' (hun r' hr')
    grind
  · rw [hcr] at hc ⊢
    rw [hlog] at hw
    rcases List.mem_cons.1 hw with e | hw
    · cases e
      refine ⟨h.range hc q hqu, fun r hr e => ?_⟩
      have e' := hun r hr
      rw [hne r e'] at hr e
      exact e' (h.unique hc r q hr hqu e)
    · obtain ⟨h1, h2⟩ := h.reaped hc pid w hw
      refine ⟨h1, fun r hr => ?_⟩
      have e := hun r hr
      rw [hne r e] at hr ⊢
      exact h2 r hr
  · rw [hcr] at hc
    rw [hlog]
    refine ⟨?_, fun w' hw' => (h.reaped hc _ w' hw').2 q hqu rfl, h.reaps hc⟩
    obtain ⟨f, hf', g, hg, hor⟩ := h.forked q hqi.symm (.inr hz)
    rw [hqp] at hg
    cases hg
    refine ⟨f, hf', hor.imp id fun hor => ⟨?_, hor.2⟩⟩
    rw [hor.1, h.init]

variable [DecidableEq C]

theorem step (hs : Sound s) (hf : Family s) (h : Pids s) {e : Ev C} (hstep : Step s e s') : Pids s' := by
  have hsame : ∀ s' : Kernel n C, s'.nextpid = s.nextpid → s'.initproc = s.initproc → s'.log = s.log → s'.proc = s.proc → Pids s' :=
    fun s' hn hi hl hp => h.frame hn hi hl (fun _ => by rw [hp]) (fun _ => by rw [hp]; exact id) fun _ => by rw [hp]; exact fun h => ⟨h, rfl⟩
  cases hstep with
  | call | acquire | scan | leave | kstack | copy | sched | panic => exact hsame _ rfl rfl rfl rfl
  | @trap c p => exact h.goes (q := p) (f := fun x => { x with killed := true }) rfl rfl rfl rfl rfl id fun h => ⟨h, rfl⟩
  | alloc ho hp hq => exact h.alloc hf hq rfl rfl rfl rfl
  | @giveUp c p q =>
    exact h.goes (q := q) (f := fun x => { x with state := .unused }) rfl rfl rfl rfl rfl (fun h => absurd rfl h) (by simp [Live, Alive])
  | @adopt c p q ho hp =>
    have hq := (hs.child p q (by rw [hp]; rfl)).1
    refine h.goes (q := q) (f := fun x => { x with parent := some p }) rfl rfl rfl rfl rfl id fun hl => ?_
    have hl : Live (s.proc q).state := hl
    rw [hq] at hl
    simp [Live, Alive] at hl
  | publish ho hp => exact h.publish hs hf hp rfl rfl rfl rfl
  | exit ho hp => exact h.exit hs hf ho hp rfl rfl rfl (Table.exited_exit _ _ _)
  | reap ho hp hq => exact h.reap hf hq rfl rfl rfl rfl
  | @wait c p ho hp hq =>
    have hr := hs.run ho hp
    exact h.goes (q := p) (f := fun x => { x with chan := some (.proc p), state := .sleeping }) rfl rfl rfl rfl rfl
      (fun _ => by rw [hr.2]; simp) fun _ => ⟨by rw [hr.2]; exact .inl (.inr (.inr rfl)), rfl⟩
  | @kill c p q pid ho hp hq =>
    refine (h.note_kill pid 0).goes (q := q) (f := Table.kill) rfl rfl rfl rfl rfl (fun hun => ?_) fun hl => ⟨?_, rfl⟩
    all_goals
      simp only [Kernel.note] at *
      grind [Table.kill, Live, Alive]
  | killNone => exact (h.note_kill _ (-1)).frame rfl rfl rfl (fun _ => rfl) (fun _ => id) fun _ h => ⟨h, rfl⟩
  | @yield c p ho hp =>
    have hr := hs.run ho hp
    exact h.goes (q := p) (f := fun x => { x with state := .runnable }) rfl rfl rfl rfl rfl (fun _ => by rw [hr.2]; simp)
      fun _ => ⟨by rw [hr.2]; exact .inl (.inr (.inr rfl)), rfl⟩
  | @sleep c p a ho hp =>
    have hr := hs.run ho hp
    exact h.goes (q := p) (f := fun x => { x with chan := some (.other a), state := .sleeping }) rfl rfl rfl rfl rfl
      (fun _ => by rw [hr.2]; simp) fun _ => ⟨by rw [hr.2]; exact .inl (.inr (.inr rfl)), rfl⟩
  | @wakeup c p a => exact h.wakes rfl rfl rfl (Table.woken_wakeup1 s.proc (.other a)) (Table.wakeup1_parent _ _)
  | @woken c p | @rescan c p => exact h.goes (q := p) (f := fun x => { x with chan := none }) rfl rfl rfl rfl rfl id fun h => ⟨h, rfl⟩
  | interrupt a => exact h.wakes rfl rfl rfl (Table.woken_wakeup1 s.proc (.other a)) (Table.wakeup1_parent _ _)
  | dispatch hc hd => cases hd <;> exact hsame _ rfl rfl rfl rfl
  | @setRunning c p hc hx =>
    have hl := hs.loop_ok hc
    simp only [LoopOk, hx] at hl
    exact h.goes (q := p) (f := fun x => { x with state := .running }) rfl rfl rfl rfl rfl (fun _ => by rw [hl.2.2.2.1]; simp)
      fun _ => ⟨by rw [hl.2.2.2.1]; exact .inl (.inr (.inl rfl)), rfl⟩

end Pids

/-! ## Every run -/

theorem Family.boot (init : Fin n) : Family (Kernel.boot init : Kernel n C) := by
  refine ⟨fun q f h => ?_, fun q hq hl => ?_, fun q _ => rfl, ⟨?_, rfl⟩, fun q h => ?_, fun p q h => ?_, fun p q h => ?_, fun p h => ?_,
    fun p h => ?_⟩
  · cases h
  · have hq : q ≠ init := hq
    simp [Kernel.boot, hq, Alive] at hl
  · simp [Kernel.boot, Alive]
  · cases h
  · cases h
  · cases h
  · cases h
  · simp only [Kernel.boot] at h
    split at h <;> cases h

variable [DecidableEq C]

theorem initproc_step {s s' : Kernel n C} {e : Ev C} (h : Step s e s') : s'.initproc = s.initproc := by
  cases h with
  | dispatch hc hd => cases hd <;> rfl
  | _ => rfl

/-- What holds of a kernel that has been booted. -/
structure Booted (init : Fin n) (s : Kernel n C) : Prop where
  init : s.initproc = init
  sound : Sound s
  family : Family s
  pids : Pids s

namespace Booted

variable {s : Kernel n C} {init : Fin n}

theorem step (h : Booted init s) (e : Ev C) : Booted init (s.step e) := by
  rcases step_spec h.sound.current e with e' | hs
  · rw [e']; exact h
  · exact ⟨(initproc_step hs).trans h.init, h.sound.step hs, h.family.step h.sound hs, h.pids.step h.sound h.family hs⟩

theorem runs (h : Booted init s) (es : List (Ev C)) : Booted init (s.runs es) := by
  induction es generalizing s with
  | nil => exact h
  | cons e es ih => exact ih (h.step e)

omit [DecidableEq C] in
theorem boot (init : Fin n) : Booted init (Kernel.boot init : Kernel n C) := ⟨rfl, .boot init, .boot init, .boot init⟩

end Booted

theorem Reaps.split {log l₁ l₂ : List (Entry n)} {pid w : BitVec 32} (h : Reaps log) (hlog : log = l₁ ++ .reaped pid w :: l₂) :
    (∃ f, .forked pid f ∈ l₂ ∧ (w = f ∨ w = 1 ∧ .exited f ∈ l₂)) ∧ ∀ w', .reaped pid w' ∉ l₁ ++ l₂ := by
  induction l₁ generalizing log with
  | nil =>
    subst hlog
    exact ⟨h.1, h.2.1⟩
  | cons x l₁ ih =>
    subst hlog
    -- an older entry, after which the pid is not returned again
    have htail : Reaps (l₁ ++ .reaped pid w :: l₂) := by
      cases x with
      | reaped => exact h.2.2
      | _ => exact h
    obtain ⟨h1, h2⟩ := ih htail rfl
    refine ⟨h1, fun w' hw' => ?_⟩
    rcases List.mem_cons.1 hw' with e | hw'
    · subst e
      exact h.2.1 w (List.mem_append_right _ List.mem_cons_self)
    · exact h2 w' hw'

/-- In every run in which fewer than 2^31 pids were handed out: no two processes have the
    same pid; every process but init has a parent that can wait for it; a pid that `wait`
    returned was returned once, to its forker, or to init after the forker has exited; and
    `wait` fails only without a child or once killed. -/
theorem children_reaped_once (init : Fin n) (es : List (Ev C)) (hc : created ((Kernel.boot init : Kernel n C).runs es).log < 2 ^ 31) :
    let s := (Kernel.boot init : Kernel n C).runs es
    (∀ q r, (s.proc q).state ≠ .unused → (s.proc r).state ≠ .unused → (s.proc q).pid = (s.proc r).pid → q = r) ∧
    (∀ q, q ≠ init → Live (s.proc q).state → ∃ f, (s.proc q).parent = some f ∧ Alive (s.proc f).state) ∧
    (∀ l₁ l₂ pid w, s.log = l₁ ++ .reaped pid w :: l₂ →
      (∃ f, .forked pid f ∈ l₂ ∧ (w = f ∨ w = (s.proc init).pid ∧ .exited f ∈ l₂)) ∧ ∀ w', .reaped pid w' ∉ l₁ ++ l₂) ∧
    (∀ p q, s.proc.wait p = .found q → (s.proc q).parent = some p) ∧
    ∀ p, s.proc.wait p = .fail → (∀ q, (s.proc q).parent ≠ some p) ∨ (s.proc p).killed = true := by
  intro s
  have h : Booted init s := (Booted.boot init).runs es
  refine ⟨h.pids.unique hc, fun q hq hl => ?_, fun l₁ l₂ pid w hlog => ?_, fun p q hq => (Table.wait_found hq).1, fun p => Table.wait_fail⟩
  · obtain ⟨f, hf⟩ := Option.ne_none_iff_exists'.1 (h.family.orphan q (by rw [h.init]; exact hq) hl)
    exact ⟨f, hf, h.family.parent q f hf⟩
  · have hi : (s.proc init).pid = 1 := by rw [← h.init, h.pids.init]
    rw [hi]
    exact (h.pids.reaps hc).split hlog

/-- init forks and goes to sleep in `wait`; the child gets the CPU. -/
def forkAndWait : List (Ev Unit) := steps 6 ++ [.call () .fork] ++ steps 8 ++ [.call () .wait] ++ steps 10

/-- The child exits and init reaps it. -/
def forkAndReap : List (Ev Unit) := forkAndWait ++ [.call () .exit] ++ steps 19

theorem children_reaped_once_reap :
    let s : Kernel 2 Unit := (Kernel.boot 0).runs forkAndReap
    s.log = [.reaped 2 1, .exited 2, .forked 2 1, .assigned 1 2, .assigned 0 1] ∧
    ∀ q, q ≠ 0 → Live (s.proc q).state → ∃ f, (s.proc q).parent = some f ∧ Alive (s.proc f).state :=
  ⟨by decide +kernel, (children_reaped_once (C := Unit) 0 forkAndReap (by decide +kernel)).2.1⟩

/-- In every run, while `ptable.lock` is free, a process asleep in `wait` has a child, and none of its children is a zombie. -/
theorem wait_sleeps_on_no_zombie (init : Fin n) (es : List (Ev C)) (_ : ((Kernel.boot init : Kernel n C).runs es).lock = none) :
    let s := (Kernel.boot init : Kernel n C).runs es
    ∀ p, (s.proc p).state = .sleeping → (s.pc p).waits = true →
      (∃ q, (s.proc q).parent = some p) ∧ ∀ q, (s.proc q).parent = some p → (s.proc q).state ≠ .zombie := by
  intro s p hp hw
  have h := ((Booted.boot init).runs es).family.waiting p hp hw
  exact ⟨h.child, h.noZombie⟩

theorem wait_sleeps_on_no_zombie_init :
    let s : Kernel 2 Unit := (Kernel.boot 0).runs forkAndWait
    (s.proc 0).state = .sleeping ∧ ∀ q, (s.proc q).parent = some 0 → (s.proc q).state ≠ .zombie :=
  ⟨by decide +kernel, (wait_sleeps_on_no_zombie (C := Unit) 0 forkAndWait (by decide +kernel) 0 (by decide +kernel) (by decide +kernel)).2⟩

end Xv6.Ptable
