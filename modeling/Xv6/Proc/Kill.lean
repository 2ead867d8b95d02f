/-
  Xv6.Proc.Kill — whom `kill` hits (`proc.c`).

  `kill` compares pids without looking at the state, and neither `allocproc` nor `fork`
  clears `killed`. So `kill(0)` finds an UNUSED slot, returns 0 and marks it, and the next
  process in that slot starts out killed (`kill_zero_hits_next_child`). A `fork` that fails
  also leaves its pid, and a mark set meanwhile, in the slot it gives back.

  `kill_hits_target_iff`: `kill` hits its target and nobody else exactly in the runs in
  which it finds no UNUSED slot and no `fork` gives back a slot that was marked.
-/

import Xv6.Proc.Family

namespace Xv6.Ptable

open Kernel Function

variable {n : Nat} {C : Type} [DecidableEq C]

/-- `kill` was called with the pid since it was given to the slot. -/
def KilledSince (p : Fin n) (pid : BitVec 32) : List (Entry n) → Prop
  | [] => False
  | .kill pid' _ :: log => pid' = pid ∨ KilledSince p pid log
  | .assigned p' _ :: log => p' ≠ p ∧ KilledSince p pid log
  | _ :: log => KilledSince p pid log

/-- The process is about to search for `pid` in `kill`. -/
def Kernel.Kills (s : Kernel n C) (e : Ev C) (p : Fin n) (pid : BitVec 32) : Prop :=
  ∃ c ok, e = .step c ok ∧ s.panicked = false ∧ s.On c p ∧ s.pc p = .locked (.kill pid)

/-- The `fork` of `p` is about to fail and give back the slot `q`. -/
def Kernel.GivesUp (s : Kernel n C) (e : Ev C) (p q : Fin n) : Prop :=
  ∃ c, e = .step c false ∧ s.panicked = false ∧ s.On c p ∧ (s.pc p = .kstack q ∨ s.pc p = .copy q)

/-- `kill` finds no slot that is UNUSED, and `fork` gives back none that was marked. -/
def Kernel.Spares (s : Kernel n C) (e : Ev C) : Prop :=
  (∀ p pid q, s.Kills e p pid → s.proc.killScan pid = some q → (s.proc q).state ≠ .unused) ∧
  ∀ p q, s.GivesUp e p q → (s.proc q).killed = false

/-- `kill` returns 0 only if a process has the pid, and changes only that one; UNUSED slots
    are not marked; and a process that first runs is marked only if it was killed. -/
structure Kernel.HitsTarget (s : Kernel n C) (e : Ev C) : Prop where
  returns : ∀ p pid q, s.Kills e p pid → s.proc.killScan pid = some q → ∃ r, (s.proc r).state ≠ .unused ∧ (s.proc r).pid = pid
  others : ∀ p pid, s.Kills e p pid → ∀ r, s.proc.killScan pid ≠ some r → (s.step e).proc r = s.proc r
  unused : ∀ q, ((s.step e).proc q).state = .unused → ((s.step e).proc q).killed = false
  starts : ∀ c p, s.On c p → s.pc p = .forkret → (s.proc p).killed = true → KilledSince p (s.proc p).pid s.log

/-- Every step of the run meets the condition in the state it is taken in. -/
def Kernel.Along (ok : Kernel n C → Ev C → Prop) : Kernel n C → List (Ev C) → Prop
  | _, [] => True
  | s, e :: es => ok s e ∧ Along ok (s.step e) es

/-- Not yet run. -/
def Fresh (s : Kernel n C) (q : Fin n) : Prop :=
  (s.proc q).state = .embryo ∨ (s.proc q).state ≠ .unused ∧ s.pc q = .forkret

structure Unmarked (s : Kernel n C) : Prop where
  unused : ∀ q, (s.proc q).state = .unused → (s.proc q).killed = false
  fresh : ∀ q, Fresh s q → (s.proc q).killed = true → KilledSince q (s.proc q).pid s.log

namespace Unmarked

variable {s s' : Kernel n C} {c : C} {p : Fin n}

omit [DecidableEq C] in
theorem boot (init : Fin n) : Unmarked (Kernel.boot init : Kernel n C) :=
  ⟨fun _ _ => rfl, fun _ _ h => by cases h⟩

omit [DecidableEq C] in
/-- Nobody is marked, and nobody is new. -/
theorem frame (h : Unmarked s) (hun : ∀ q, (s'.proc q).state = .unused → (s.proc q).state = .unused) (hfresh : ∀ q, Fresh s' q → Fresh s q)
    (hk : ∀ q, (s'.proc q).killed = (s.proc q).killed) (hpid : ∀ q, (s'.proc q).pid = (s.proc q).pid)
    (hlog : ∀ q, KilledSince q (s.proc q).pid s.log → KilledSince q (s.proc q).pid s'.log) : Unmarked s' := by
  refine ⟨fun q hq => ?_, fun q hq hk' => ?_⟩
  · rw [hk]; exact h.unused q (hun q hq)
  · rw [hk] at hk'
    rw [hpid]
    exact hlog q (h.fresh q (hfresh q hq) hk')

omit [DecidableEq C] in
/-- `p`, which is not new, goes on; other processes change at most between states that have begun. -/
theorem goes (h : Unmarked s) {x : Pc n} (hx : x = .forkret → s.pc p = .forkret)
    (hpc : s'.pc = update s.pc p x)
    (hst : ∀ q, (s'.proc q).state = (s.proc q).state ∨ Live (s'.proc q).state ∧ (Live (s.proc q).state ∨ (s.proc q).state = .embryo))
    (hk : ∀ q, (s'.proc q).killed = (s.proc q).killed) (hpid : ∀ q, (s'.proc q).pid = (s.proc q).pid)
    (hlog : ∀ q, KilledSince q (s.proc q).pid s.log → KilledSince q (s.proc q).pid s'.log) : Unmarked s' := by
  have hpc' : ∀ q, s'.pc q = if q = p then x else s.pc q := fun q => by rw [hpc, update_apply]
  refine h.frame (fun q hq => ?_) (fun q hq => ?_) hk hpid hlog
  · have := hst q
    grind [Live, Alive]
  · have := hst q
    grind [Fresh, Live, Alive]

omit [DecidableEq C] in
/-- `p` goes on, and the entry of `q` is changed. -/
theorem modifies (h : Unmarked s) {q : Fin n} {x : Pc n} {f : Proc n → Proc n}
    (hx : x = .forkret → s.pc p = .forkret) (hpc : s'.pc = update s.pc p x) (hf : s'.proc = s.proc.modify q f)
    (hst : (f (s.proc q)).state = (s.proc q).state ∨
      Live (f (s.proc q)).state ∧ (Live (s.proc q).state ∨ (s.proc q).state = .embryo))
    (hk : (f (s.proc q)).killed = (s.proc q).killed) (hpid : (f (s.proc q)).pid = (s.proc q).pid)
    (hlog : ∀ r, KilledSince r (s.proc r).pid s.log → KilledSince r (s.proc r).pid s'.log) : Unmarked s' := by
  have hproc : ∀ r, s'.proc r = if r = q then f (s.proc q) else s.proc r := fun r => by rw [hf, Table.modify, update_apply]
  exact h.goes hx hpc (fun r => by grind) (fun r => by grind) (fun r => by grind) hlog

omit [DecidableEq C] in
/-- The entry of `q` is changed, so that it is not UNUSED and marked, nor new and marked without cause. -/
theorem changes (h : Unmarked s) {q : Fin n} {x : Pc n} {f : Proc n → Proc n}
    (hx : x = .forkret → s.pc p = .forkret) (hpc : s'.pc = update s.pc p x) (hf : s'.proc = s.proc.modify q f) (hun : (f (s.proc q)).state = .unused → (f (s.proc q)).killed = false)
    (hq : Fresh s' q → (f (s.proc q)).killed = true → KilledSince q (f (s.proc q)).pid s'.log)
    (hlog : ∀ r, r ≠ q → KilledSince r (s.proc r).pid s.log → KilledSince r (s.proc r).pid s'.log) : Unmarked s' := by
  have hproc : ∀ r, s'.proc r = if r = q then f (s.proc q) else s.proc r := fun r => by rw [hf, Table.modify, update_apply]
  have hpc' : ∀ r, s'.pc r = if r = p then x else s.pc r := fun r => by rw [hpc, update_apply]
  refine ⟨fun r hr => ?_, fun r hr hk => ?_⟩
  · have := h.unused r
    grind
  · have := h.fresh r
    by_cases e : r = q
    · grind
    · have := hlog r e
      grind [Fresh]

theorem step (hs : Sound s) (h : Unmarked s) {e : Ev C} (hpan : s.panicked = false) (hsp : s.Spares e) (hstep : Step s e s') :
    Unmarked s' := by
  have hmoves : ∀ (s' : Kernel n C) (p : Fin n) (x : Pc n), (x = .forkret → s.pc p = .forkret) → s'.pc = update s.pc p x → s'.proc = s.proc →
      (∀ r, KilledSince r (s.proc r).pid s.log → KilledSince r (s.proc r).pid s'.log) → Unmarked s' :=
    fun s' p x hx hpc hproc hlog => h.goes hx hpc (fun _ => .inl (by rw [hproc])) (fun _ => by rw [hproc]) (fun _ => by rw [hproc]) hlog
  cases hstep with
  | call | acquire | scan | leave | copy | sched => exact hmoves _ _ _ (by simp) rfl rfl fun _ h => h
  | @trap c p ho hp =>
    have hr := hs.run ho hp
    refine h.changes (p := p) (q := p) (x := .user) (f := fun x => { x with killed := true }) (by simp) ?_ rfl (fun hu => ?_) (fun hf _ => ?_)
      fun _ _ h => h
    · rw [← hp]; exact (update_eq_self p s.pc).symm
    · simp [hr.2] at hu
    · simp [Fresh, hr.2, hp] at hf
  | @alloc c p q ho hp hq =>
    refine h.changes (p := p) (q := q) (f := fun x => { x with state := .embryo, pid := s.nextpid }) (by simp) rfl rfl (by simp)
      (fun _ hk => ?_) fun r e hl => ⟨Ne.symm e, hl⟩
    simp [h.unused q hq] at hk
  | @kstack c p q ho hp =>
    have hq := (hs.child p q (by rw [hp]; rfl)).1
    refine h.frame (fun _ hu => hu) (fun r hr => ?_) (fun _ => rfl) (fun _ => rfl) fun _ h => h
    by_cases e : r = q
    · rw [e]; exact .inl hq
    · simp only [Fresh, Kernel.goto, update_apply] at hr ⊢
      grind
  | @giveUp c p q ho hp =>
    have hk := hsp.2 p q ⟨c, rfl, hpan, ho, hp⟩
    refine h.changes (p := p) (q := q) (f := fun x => { x with state := .unused }) (by simp) rfl rfl (fun _ => hk) (fun _ hk' => ?_)
      fun _ _ h => h
    simp [hk] at hk'
  | @adopt c p q ho hp =>
    exact h.modifies (p := p) (q := q) (f := fun x => { x with parent := some p }) (by simp) rfl rfl (.inl rfl) rfl rfl fun _ h => h
  | @publish c p q ho hp =>
    have hq := (hs.child p q (by rw [hp]; rfl)).1
    exact h.modifies (p := p) (q := q) (f := fun x => { x with state := .runnable }) (by simp) rfl rfl
      (.inr ⟨.inl (.inr (.inl rfl)), .inr hq⟩) rfl rfl fun _ h => h
  | @exit c p ho hp =>
    have hr := hs.run ho hp
    have hx := Table.exited_exit s.initproc p s.proc
    refine h.goes (p := p) (by simp) rfl (fun q => ?_) hx.killed hx.pid fun _ h => h
    have := hx.self
    have := hr.2
    have := hx.state q
    simp only [Kernel.goto, Kernel.note, Kernel.table]
    grind [Live, Alive]
  | @reap c p q ho hp hq =>
    exact h.changes (p := p) (q := q) (f := Table.reap) (by simp) rfl rfl (fun _ => rfl) (by simp [Table.reap]) fun _ _ h => h
  | @wait c p ho hp hq =>
    have hr := hs.run ho hp
    exact h.modifies (p := p) (q := p) (f := fun x => { x with chan := some (.proc p), state := .sleeping }) (by simp) rfl rfl
      (.inr ⟨.inl (.inl rfl), .inl (.inl (.inr (.inr hr.2)))⟩) rfl rfl fun _ h => h
  | @kill c p q pid ho hp hq ok =>
    have hu := hsp.1 p pid q ⟨c, ok, rfl, hpan, ho, hp⟩ hq
    refine h.changes (p := p) (q := q) (f := Table.kill) (by simp) rfl rfl (fun hu' => ?_) (fun _ _ => ?_) fun r _ hr => .inr hr
    · grind [Table.kill]
    · exact .inl (Table.killScan_some hq).symm
  | @killNone c p pid ho hp hq => exact hmoves _ p _ (by simp) rfl rfl fun _ h => .inr h
  | @yield c p ho hp =>
    have hr := hs.run ho hp
    exact h.modifies (p := p) (q := p) (f := fun x => { x with state := .runnable }) (by simp) rfl rfl
      (.inr ⟨.inl (.inr (.inl rfl)), .inl (.inl (.inr (.inr hr.2)))⟩) rfl rfl fun _ h => h
  | @sleep c p a ho hp =>
    have hr := hs.run ho hp
    exact h.modifies (p := p) (q := p) (f := fun x => { x with chan := some (.other a), state := .sleeping }) (by simp) rfl rfl
      (.inr ⟨.inl (.inl rfl), .inl (.inl (.inr (.inr hr.2)))⟩) rfl rfl fun _ h => h
  | @wakeup c p a ho hp =>
    have hw := Table.woken_wakeup1 s.proc (.other a)
    exact h.goes (p := p) (x := .user) (by simp) rfl
      (fun q => (hw.state q).imp id fun e => ⟨.inl (.inr (.inl e.2)), .inl (.inl (.inl e.1))⟩) hw.killed hw.pid fun _ h => h
  | @woken c p | @rescan c p =>
    exact h.modifies (p := p) (q := p) (f := fun x => { x with chan := none }) (by simp) rfl rfl (.inl rfl) rfl rfl fun _ h => h
  | interrupt a hl =>
    have hw := Table.woken_wakeup1 s.proc (.other a)
    refine h.frame (fun q hq => ?_) (fun q hq => ?_) hw.killed hw.pid fun _ h => h
    all_goals
      have := hw.state q
      simp only [Fresh, Kernel.table] at hq ⊢
      grind
  | dispatch hc hd =>
    cases hd <;> exact h.frame (fun _ hu => hu) (fun _ hf => hf) (fun _ => rfl) (fun _ => rfl) fun _ h => h
  | @setRunning c p hc hx =>
    have hl := hs.loop_ok hc
    simp only [LoopOk, hx] at hl
    exact h.modifies (p := p) (q := p) (x := s.pc p) (f := fun x => { x with state := .running }) id
      (update_eq_self p s.pc).symm rfl (.inr ⟨.inl (.inr (.inr rfl)), .inl (.inl (.inr (.inl hl.2.2.2.1)))⟩) rfl rfl fun _ h => h
  | panic => exact h.frame (fun _ hu => hu) (fun _ hf => hf) (fun _ => rfl) (fun _ => rfl) fun _ h => h

end Unmarked

/-! ## Exactly when -/

section

variable {s : Kernel n C} {e : Ev C} {init : Fin n}

theorem step_kills {p : Fin n} {pid : BitVec 32} (hk : s.Kills e p pid) : s.step e = s.sectionStep p p (.kill pid) := by
  obtain ⟨c, ok, rfl, hpan, ho, hp⟩ := hk
  simp [step, hpan, ho.1, ho.2, processStep, hp]

theorem step_givesUp {p q : Fin n} (hg : s.GivesUp e p q) :
    s.step e = (s.modify q fun x => { x with state := .unused }).goto p .user := by
  obtain ⟨c, rfl, hpan, ho, hp⟩ := hg
  rcases hp with hp | hp <;> simp [step, hpan, ho.1, ho.2, processStep, hp]

theorem Unmarked.stepEv (hb : Booted init s) (h : Unmarked s) (hsp : s.Spares e) : Unmarked (s.step e) := by
  cases hpan : s.panicked with
  | true =>
    have : s.step e = s := by cases e <;> simp [Kernel.step, hpan]
    rw [this]
    exact h
  | false =>
    rcases step_spec hb.sound.current e with e' | hs
    · rw [e']; exact h
    · exact h.step hb.sound hpan hsp hs

/-- A step is on target iff it spares the slots that are no process. -/
theorem spares_iff (hb : Booted init s) (h : Unmarked s) : s.Spares e ↔ s.HitsTarget e := by
  constructor
  · intro hsp
    refine ⟨fun p pid q hk hq => ⟨q, hsp.1 p pid q hk hq, Table.killScan_some hq⟩, fun p pid hk r hr => ?_, (h.stepEv hb hsp).unused,
      fun c p ho hf => h.fresh p (.inr ⟨?_, hf⟩)⟩
    · rw [step_kills hk]
      simp only [sectionStep]
      split
      · rename_i q hq
        exact Table.modify_of_ne _ _ fun e => hr (by rw [hq, e])
      · rfl
    · exact ((hb.sound.cpu c).live ho.2).1
  · intro ht
    refine ⟨fun p pid q hk hq hu => ?_, fun p q hg => ?_⟩
    · have := ht.unused q
      simp only [step_kills hk, sectionStep, hq] at this
      simp [Table.kill, hu] at this
    · have := ht.unused q
      simp only [step_givesUp hg] at this
      simpa using this

theorem along_spares_iff (hb : Booted init s) (h : Unmarked s) (es : List (Ev C)) : Along Spares s es ↔ Along HitsTarget s es := by
  induction es generalizing s with
  | nil => exact Iff.rfl
  | cons e es ih =>
    constructor
    · intro ⟨h1, h2⟩
      exact ⟨(spares_iff hb h).1 h1, (ih (hb.step e) (h.stepEv hb h1)).1 h2⟩
    · intro ⟨h1, h2⟩
      have h1 := (spares_iff hb h).2 h1
      exact ⟨h1, (ih (hb.step e) (h.stepEv hb h1)).2 h2⟩

end

/-- `kill` hits its target and nobody else throughout a run exactly if it never finds an
    UNUSED slot and no failing `fork` gives back a slot that was marked. -/
theorem kill_hits_target_iff (init : Fin n) (es : List (Ev C)) :
    Along HitsTarget (Kernel.boot init : Kernel n C) es ↔ Along Spares (Kernel.boot init : Kernel n C) es :=
  (along_spares_iff (.boot init) (.boot init) es).symm

/-- init calls `kill(0)` and then `fork`, and the child gets the CPU. -/
def killZero : List (Ev Unit) :=
  steps 6 ++ [.call () (.kill 0)] ++ steps 2 ++ [.call () .fork] ++ steps 8 ++ [.call () .yield] ++ steps 9

theorem kill_zero_hits_next_child :
    let s : Kernel 2 Unit := (Kernel.boot 0).runs (killZero.take 9)
    let s' : Kernel 2 Unit := (Kernel.boot 0).runs killZero
    (Entry.kill 0 0 ∈ s.log ∧ (∀ r, (s.proc r).pid = 0 → (s.proc r).state = .unused) ∧
      (s.proc 1).state = .unused ∧ (s.proc 1).killed = true) ∧
    s'.On () 1 ∧ s'.pc 1 = .forkret ∧ (s'.proc 1).killed = true ∧ s'.log = [.forked 2 1, .assigned 1 2, .kill 0 0, .assigned 0 1] := by
  decide +kernel

end Xv6.Ptable
