/-
  Xv6.Intr.Views — what a frame may count on between its actions.

  A view says what a frame knows of the CPU that executes it (IF, `ncli`, and `intena` while
  interrupts are off) and which locks its thread holds. Nobody else changes any of it: with IF set
  a handler may come in between, but it leaves `ncli` at 0 and IF set; with `ptable.lock` held the
  thread may be switched out, but it comes back to a CPU with `ncli` 1 and IF clear, whose `intena`
  is any.

  `World` ties the views to the machine, and `views_sound` says that every action keeps it.
-/

import Xv6.Intr.Machine

namespace Xv6.Intr

open Lib Prog
open Function (update update_self update_of_ne update_apply update_eq_self)

variable {C P L : Type} [DecidableEq C] [DecidableEq P]

/-! ## Views -/

structure View (P L : Type) where
  IF : Bool
  pushes : Nat
  /-- `intena`, if it is known. -/
  intena : Option Bool
  outer : Option Bool
  entry : Bool
  due : Option Bool
  /-- The locks that are locked for the thread, and those that name its CPU. -/
  held : Finset (Lock L)
  named : Finset (Lock L)
  proc : Option P

/-- `c->proc`, outside the scheduler's loop. -/
def Thread.home : Thread C P → Option P
  | .scheduler _ => none
  | .proc p => some p

/-- A thread that holds no lock and may be interrupted. -/
structure Free (t : Thread C P) (r : View P L) : Prop where
  pushes : r.pushes = 0
  held : r.held = ∅
  named : r.named = ∅
  outer : r.outer = none
  proc : r.proc = t.home

/-- A thread that holds `ptable.lock` only, as `swtch` wants it. -/
structure Carries (r : View P L) : Prop where
  IF : r.IF = false
  pushes : r.pushes = 1
  held : r.held = {.ptable}
  named : r.named = {.ptable}

/-- What an action of the frame needs of its view. -/
def Needs (f : Frame C P) (r : View P L) : Act P L → Prop
  | .left => ∀ p, f.thread = .proc p → ∀ b, r.due = some b → r.IF = b
  | .sti => Free f.thread r
  | .incNcli | .intena | .setIntena _ => r.IF = false
  | .decNcli => r.IF = false ∧ r.held.card < r.pushes
  | .setProc _ => (∃ c, f.thread = .scheduler c) ∧ r.IF = false
  | .xchg _ => r.IF = false ∧ r.held.card < r.pushes
  | .own lk => lk ∈ r.held
  | .disown lk => lk ∈ r.named
  | .unlock lk => lk ∈ r.held ∧ lk ∉ r.named
  | .sched => (∃ p, f.thread = .proc p) ∧ Carries r
  | .swtch p => (∃ c, f = ⟨.scheduler c, 0⟩) ∧ Carries r ∧ r.proc = some p
  | .iret => r.pushes = 0 → Free f.thread r
  | _ => True

/-- What is known once it has a result. -/
def Gives (f : Frame C P) (r : View P L) : (a : Act P L) → a.Res → Prop
  | .readeflags, x => x = r.IF
  | .ncli, x => x = (r.pushes : Int)
  | .decNcli, x => x = (r.pushes : Int) - 1
  | .intena, x => ∀ b, r.intena = some b → x = b
  | .proc, x => x = r.proc
  | .locked lk, x => lk ∈ r.held → x = true
  | .mine lk, x => (x = true ↔ lk ∈ r.named)
  | .xchg lk, _ => lk ∉ r.held
  | .iret, _ => r.pushes = 0
  | .loop, _ => ∃ c, f = ⟨.scheduler c, 0⟩
  | .requires lk, _ => lk ∈ r.named
  | .halt, _ => False
  | _, _ => True

/-- The view after it. -/
def View.after [DecidableEq L] (r : View P L) (f : Frame C P) : (a : Act P L) → a.Res → View P L
  | .entered, _ => { r with entry := r.IF }
  | .left, _ => { r with due := none }
  | .cli, _ => { r with IF := false }
  | .sti, _ => { r with IF := true, intena := none }
  | .incNcli, _ => { r with pushes := r.pushes + 1, outer := if r.pushes = 0 then some r.entry else r.outer }
  | .decNcli, _ =>
    { r with
      pushes := r.pushes - 1
      outer := if r.pushes = 1 then none else r.outer
      due := if r.pushes = 1 then r.outer else none }
  | .intena, x => { r with intena := some x }
  | .setIntena x, _ => { r with intena := some x }
  | .setProc x, _ => { r with proc := x }
  | .xchg lk, _ => { r with held := insert lk r.held }
  | .own lk, _ => { r with named := insert lk r.named }
  | .disown lk, _ => { r with named := r.named.erase lk }
  | .unlock lk, _ => { r with held := r.held.erase lk }
  | .sched, _ | .swtch _, _ => { r with intena := none }
  | .trap g, _ =>
    { r with IF := g = .syscall, pushes := 0, intena := none, outer := none, held := ∅, named := ∅, proc := f.thread.home }
  | _, _ => r

def spec [DecidableEq L] (f : Frame C P) (a : Act P L) (r : View P L) (Q : a.Res → View P L → Prop) : Prop :=
  Needs f r a ∧ ∀ x, Gives f r a x → Q x (r.after f a x)

omit [DecidableEq C] [DecidableEq P] in
theorem spec_mono [DecidableEq L] : Monotone (spec (C := C) (P := P) (L := L)) :=
  fun _ _ _ _ _ hQ h => ⟨h.1, fun x hx => hQ x _ (h.2 x hx)⟩

/-! ## The world -/

/-- What holds of the view of a frame on the stack. -/
structure Well (t : Thread C P) (r : View P L) : Prop where
  free : r.IF = true → Free t r ∧ r.intena = none
  count : r.held.card ≤ r.pushes
  named : r.named ⊆ r.held
  proc : ∀ p, t = .proc p → r.proc = some p

structure Shows (x : Cpu P) (r : View P L) : Prop where
  IF : x.IF = r.IF
  ncli : x.ncli = r.pushes
  intena : ∀ b, r.intena = some b → x.intena = b
  proc : x.proc = r.proc

abbrev Views (C P L : Type) := Frame C P → View P L

/-- The view of the thread's top frame. -/
def Machine.top (m : Machine C P L) (ρ : Views C P L) (t : Thread C P) : View P L := ρ ⟨t, m.depth t⟩

/-- The stacks: the frames below the top are interrupted ones. -/
structure Stacks (ρ : Views C P L) (m : Machine C P L) : Prop where
  well : ∀ {t d}, d ≤ m.depth t → Well t (ρ ⟨t, d⟩)
  below : ∀ {t d}, d < m.depth t → (ρ ⟨t, d⟩).IF = true
  user : ∀ p, (ρ ⟨.proc p, 0⟩).IF = true
  saved : ∀ f, m.saved f = true

/-- The notes are those of the views. -/
structure Notes (ρ : Views C P L) (m : Machine C P L) (h : History C P) : Prop where
  pushes : ∀ t, h.pushes t = (m.top ρ t).pushes
  outer : ∀ t, h.outer t = (m.top ρ t).outer
  entry : ∀ f, h.entry f = (ρ f).entry
  due : ∀ f, h.due f = (ρ f).due
  log : ∀ e ∈ h.log, ∀ p, e.thread = .proc p → e.after = e.before

/-- Who is on which CPU. -/
structure Placed (ρ : Views C P L) (m : Machine C P L) : Prop where
  one : ∀ {t t' c}, m.on t = some c → m.on t' = some c → t = t'
  home : ∀ {c c'}, m.on (.scheduler c) = some c' → c' = c
  busy : ∀ c, ∃ t, m.on t = some c
  shows : ∀ {t c}, m.on t = some c → Shows (m.cpu c) (m.top ρ t)
  -- the threads that were switched out
  away : ∀ {t}, m.on t = none → Carries (m.top ρ t) ∧ (m.top ρ t).intena = none
  base : ∀ {c}, m.on (.scheduler c) = none → m.depth (.scheduler c) = 0
  running : ∀ {p c}, m.on (.proc p) = some c → (m.top ρ (.scheduler c)).proc = some p

structure Locks (ρ : Views C P L) (m : Machine C P L) : Prop where
  locked : ∀ {t c lk}, m.on t = some c → lk ∈ (m.top ρ t).held → m.locked lk = true
  excl : ∀ {t t' c c' lk}, m.on t = some c → m.on t' = some c' → lk ∈ (m.top ρ t).held → lk ∈ (m.top ρ t').held → t = t'
  owner : ∀ {t c} lk, m.on t = some c → (m.owner lk = some c ↔ lk ∈ (m.top ρ t).named)

structure World (ρ : Views C P L) (m : Machine C P L) (h : History C P) : Prop where
  frames : Stacks ρ m
  notes : Notes ρ m h
  placed : Placed ρ m
  locks : Locks ρ m

section Step

variable {ρ ρ' : Views C P L} {m m' : Machine C P L} {h h' : History C P} {f : Frame C P} {c : C} {r : View P L} {t : Thread C P}

omit [DecidableEq C] [DecidableEq P] in
/-- The frame that the CPU executes is the top one of its thread, and not user mode. -/
theorem top_of_here (hx : m.here f = some c) :
    m.on f.thread = some c ∧ m.depth f.thread = f.depth ∧ m.top ρ f.thread = ρ f ∧ ∀ p, (⟨.proc p, 0⟩ : Frame C P) ≠ f := by
  unfold Machine.here at hx
  split at hx
  · rename_i hd
    refine ⟨hx, hd.1, by unfold Machine.top; rw [hd.1], fun p e => ?_⟩
    rw [← e] at hd
    exact Bool.noConfusion hd.2
  · cases hx

theorem top_update (hd : m.depth f.thread = f.depth) (hm : m'.depth = m.depth) (t : Thread C P) :
    m'.top (update ρ f r) t = if t = f.thread then r else m.top ρ t := by
  unfold Machine.top
  rw [hm]
  by_cases e : t = f.thread
  · rw [if_pos e, e, hd]
    exact update_self ..
  · rw [if_neg e, update_of_ne]
    exact fun e' => e (congrArg Frame.thread e')

/-! ### One thread changes its view -/

theorem Stacks.update (w : Stacks ρ m) (hx : m.here f = some c) (hd : m'.depth = m.depth) (hs : m'.saved = m.saved)
    (hr : Well f.thread r) : Stacks (update ρ f r) m' := by
  obtain ⟨_, hdf, _, hu⟩ := top_of_here (ρ := ρ) hx
  have hne : ∀ {t d}, d < m.depth t → (⟨t, d⟩ : Frame C P) ≠ f := fun hlt e => by
    rw [← e] at hdf
    exact hlt.ne hdf.symm
  refine ⟨fun {t d} hle => ?_, fun {t d} hlt => ?_, fun p => ?_, by rw [hs]; exact w.saved⟩
  · rw [hd] at hle
    by_cases e : (⟨t, d⟩ : Frame C P) = f
    · rw [e, update_self, show t = f.thread from congrArg Frame.thread e]
      exact hr
    · rw [update_of_ne e]
      exact w.well hle
  · rw [hd] at hlt
    rw [update_of_ne (hne hlt)]
    exact w.below hlt
  · rw [update_of_ne (hu p)]
    exact w.user p

/-- The notes of a frame whose view becomes `r`. -/
structure Noted (h h' : History C P) (f : Frame C P) (r : View P L) : Prop where
  pushes : h'.pushes = Function.update h.pushes f.thread r.pushes
  outer : h'.outer = Function.update h.outer f.thread r.outer
  entry : h'.entry = Function.update h.entry f r.entry
  due : h'.due = Function.update h.due f r.due
  log : ∀ e ∈ h'.log, e ∈ h.log ∨ ∀ p, e.thread = .proc p → e.after = e.before

theorem Notes.update (w : Notes ρ m h) (hd : m.depth f.thread = f.depth) (hdepth : m'.depth = m.depth) (hn : Noted h h' f r) :
    Notes (update ρ f r) m' h' := by
  have htop := top_update (r := r) (ρ := ρ) hd hdepth
  refine ⟨fun t => ?_, fun t => ?_, fun g => ?_, fun g => ?_, fun e he => (hn.log e he).elim (w.log e) id⟩
  · rw [htop, hn.pushes, update_apply, w.pushes]
    split <;> rfl
  · rw [htop, hn.outer, update_apply, w.outer]
    split <;> rfl
  · rw [hn.entry, update_apply, update_apply, w.entry]
    split <;> rfl
  · rw [hn.due, update_apply, update_apply, w.due]
    split <;> rfl

/-- An action of which nothing is noted. -/
theorem Noted.same (w : Notes ρ m h) (hx : m.here f = some c) (hp : r.pushes = (ρ f).pushes) (ho : r.outer = (ρ f).outer)
    (he : r.entry = (ρ f).entry) (hd : r.due = (ρ f).due) : Noted h h f r := by
  obtain ⟨_, _, htop, _⟩ := top_of_here (ρ := ρ) hx
  rw [← htop] at hp ho
  refine ⟨?_, ?_, ?_, ?_, fun e he => .inl he⟩
  · rw [hp, ← w.pushes, update_eq_self]
  · rw [ho, ← w.outer, update_eq_self]
  · rw [he, ← w.entry, update_eq_self]
  · rw [hd, ← w.due, update_eq_self]

/-- The thread `t` stays on its CPU and comes to the view `r`. -/
theorem Placed.change (w : Placed ρ m) (hc : m.on t = some c) (hon : m'.on = m.on) (hd : ∀ u, u ≠ t → m'.depth u = m.depth u)
    (htop : ∀ u, m'.top ρ' u = if u = t then r else m.top ρ u) (hcpu : ∀ c', c' ≠ c → m'.cpu c' = m.cpu c')
    (hshows : Shows (m'.cpu c) r) : Placed ρ' m' := by
  have hnone : ∀ {u}, m.on u = none → u ≠ t := fun hu e => by simp [e, hc] at hu
  refine ⟨by rw [hon]; exact w.one, by rw [hon]; exact w.home, by rw [hon]; exact w.busy, fun {u c'} hu => ?_, fun {u} hu => ?_,
    fun {c'} hu => ?_, fun {p c'} hp => ?_⟩
  all_goals rw [hon] at *
  · rw [htop]
    by_cases e : u = t
    · rw [if_pos e]
      obtain rfl : c' = c := by grind
      exact hshows
    · rw [if_neg e, hcpu c' fun e' => e (w.one (e' ▸ hu) hc)]
      exact w.shows hu
  · rw [htop, if_neg (hnone hu)]
    exact w.away hu
  · rw [hd _ (hnone hu)]
    exact w.base hu
  · have hne : Thread.scheduler c' ≠ t := fun e => by
      obtain rfl := w.home (e ▸ hc)
      cases w.one hp (e ▸ hc)
    rw [htop, if_neg hne]
    exact w.running hp

theorem Locks.change (w : Locks ρ m) (wp : Placed ρ m) (hc : m.on t = some c) (hon : m'.on = m.on)
    (htop : ∀ u, m'.top ρ' u = if u = t then r else m.top ρ u) (hlocked : ∀ lk ∈ r.held, m'.locked lk = true)
    (hothers : ∀ lk u c', u ≠ t → m.on u = some c' → lk ∈ (m.top ρ u).held → m'.locked lk = true ∧ lk ∉ r.held)
    (howner : ∀ lk, m'.owner lk = some c ↔ lk ∈ r.named)
    (howner' : ∀ lk c', c' ≠ c → (m'.owner lk = some c' ↔ m.owner lk = some c')) : Locks ρ' m' := by
  refine ⟨fun {u c' lk} hu hm => ?_, fun {u u' c1 c2 lk} hu hu' hm hm' => ?_, fun {u c'} lk hu => ?_⟩
  all_goals rw [hon] at *
  · have := hlocked lk
    have := hothers lk u c'
    grind
  · have := hothers lk u c1
    have := hothers lk u' c2
    by_cases e : u = t <;> by_cases e' : u' = t <;> simp only [htop, e, e', if_true, if_false] at hm hm'
    · exact e.trans e'.symm
    · grind
    · grind
    · exact w.excl hu hu' hm hm'
  · rw [htop]
    split
    · rename_i e
      obtain rfl : c' = c := by grind
      exact howner lk
    · rename_i e
      exact (howner' lk c' fun e' => e (wp.one (e' ▸ hu) hc)).trans (w.owner lk hu)

/-- It has the same locks. -/
theorem Locks.keep (w : Locks ρ m) (wp : Placed ρ m) (hc : m.on t = some c) (hon : m'.on = m.on)
    (htop : ∀ u, m'.top ρ' u = if u = t then r else m.top ρ u) (hl : m'.locked = m.locked) (ho : m'.owner = m.owner)
    (hheld : r.held = (m.top ρ t).held) (hnamed : r.named = (m.top ρ t).named) : Locks ρ' m' := by
  refine w.change wp hc hon htop ?_ (fun lk u c' hne hu hm => ?_) ?_ fun _ _ _ => by rw [ho]
  · rw [hheld, hl]
    exact fun lk => w.locked hc
  · rw [hl, hheld]
    exact ⟨w.locked hu hm, fun hm' => hne (w.excl hu hc hm hm')⟩
  · rw [hnamed, ho]
    exact fun lk => w.owner lk hc

/-- The registers of the CPU, its `struct cpu` and the table of processes. -/
theorem World.regs (w : World ρ m h) (hx : m.here f = some c) (hon : m'.on = m.on) (hd : m'.depth = m.depth)
    (hs : m'.saved = m.saved) (hl : m'.locked = m.locked) (ho : m'.owner = m.owner) (hcpu : ∀ c', c' ≠ c → m'.cpu c' = m.cpu c')
    (hshows : Shows (m'.cpu c) r) (hn : Noted h h' f r) (hwell : Well f.thread r) (hheld : r.held = (ρ f).held)
    (hnamed : r.named = (ρ f).named) : World (update ρ f r) m' h' := by
  obtain ⟨hc, hdf, htop, _⟩ := top_of_here (ρ := ρ) hx
  rw [← htop] at hheld hnamed
  exact ⟨w.frames.update hx hd hs hwell, w.notes.update hdf hd hn,
    w.placed.change hc hon (fun _ _ => by rw [hd]) (top_update hdf hd) hcpu hshows,
    w.locks.keep w.placed hc hon (top_update hdf hd) hl ho hheld hnamed⟩

/-- The fields of a lock. -/
theorem World.lock (w : World ρ m h) (hx : m.here f = some c) {locked : Lock L → Bool} {owner : Lock L → Option C}
    (held named : Finset (Lock L)) (hwell : Well f.thread { ρ f with held := held, named := named })
    (hlocked : ∀ lk ∈ held, locked lk = true)
    (hothers : ∀ lk t c', t ≠ f.thread → m.on t = some c' → lk ∈ (m.top ρ t).held → locked lk = true ∧ lk ∉ held)
    (howner : ∀ lk, owner lk = some c ↔ lk ∈ named)
    (howner' : ∀ lk c', c' ≠ c → (owner lk = some c' ↔ m.owner lk = some c')) :
    World (update ρ f { ρ f with held := held, named := named }) { m with locked := locked, owner := owner } h := by
  obtain ⟨hc, hdf, htop, _⟩ := top_of_here (ρ := ρ) hx
  have hsh := w.placed.shows hc
  rw [htop] at hsh
  exact ⟨w.frames.update hx rfl rfl hwell, w.notes.update hdf rfl (.same w.notes hx rfl rfl rfl rfl),
    w.placed.change hc rfl (fun _ _ => rfl) (top_update hdf rfl) (fun _ _ => rfl) ⟨hsh.IF, hsh.ncli, hsh.intena, hsh.proc⟩,
    w.locks.change w.placed hc rfl (top_update hdf rfl) hlocked hothers howner howner'⟩

/-! ### Switches -/

/-- A thread that is on a CPU after `swtch` from `t` to `u`: it is `u`, or it is where it was. -/
theorem Placed.switched (w : Placed ρ m) {u : Thread C P} (hc : m.on t = some c)
    (hon : m'.on = update (update m.on t none) u (some c)) {t' : Thread C P} {c' : C} (ht : m'.on t' = some c') :
    (t' = u ∧ c' = c) ∨ (t' ≠ u ∧ t' ≠ t ∧ m.on t' = some c' ∧ c' ≠ c) := by
  rw [hon, update_apply, update_apply] at ht
  split at ht
  · rename_i e
    exact .inl ⟨e, (Option.some.inj ht).symm⟩
  · rename_i e
    split at ht
    · cases ht
    · rename_i e'
      exact .inr ⟨e, e', ht, fun ec => e' (w.one (ec ▸ ht) hc)⟩

/-- `swtch`, from the thread of `f` to the thread `u`. -/
theorem World.switch (w : World ρ m h) (hx : m.here f = some c) {u : Thread C P} (hu : m.on u = none) (hcar : Carries (ρ f))
    (hproc : (m.top ρ u).proc = (ρ f).proc) (hhome : ∀ c', u = .scheduler c' → c' = c)
    (hbase : ∀ c', f.thread = .scheduler c' → f.depth = 0)
    (hrun : ∀ p, u = .proc p → (∃ c', f.thread = .scheduler c') ∧ (ρ f).proc = some p) :
    World (update ρ f { ρ f with intena := none })
      { m with on := update (update m.on f.thread none) u (some c) } h := by
  obtain ⟨hc, hd, htopf, _⟩ := top_of_here (ρ := ρ) hx
  have hut : u ≠ f.thread := fun e => by simp [e, hc] at hu
  obtain ⟨hucar, huint⟩ := w.placed.away hu
  generalize hmach : ({ m with on := update (update m.on f.thread none) u (some c) } : Machine C P L) = m'
  have hdepth : m'.depth = m.depth := by rw [← hmach]
  have hcpu : m'.cpu = m.cpu := by rw [← hmach]
  have hlocked : m'.locked = m.locked := by rw [← hmach]
  have howner : m'.owner = m.owner := by rw [← hmach]
  have hon : m'.on = update (update m.on f.thread none) u (some c) := by rw [← hmach]
  have hon' : ∀ t, m'.on t = if t = u then some c else if t = f.thread then none else m.on t := fun t => by
    rw [hon, update_apply, update_apply]
  have htop := top_update (r := { ρ f with intena := none }) (ρ := ρ) hd hdepth
  have htopu : m'.top (update ρ f { ρ f with intena := none }) u = m.top ρ u := by rw [htop, if_neg hut]
  have hcase := fun {t' c'} (ht : m'.on t' = some c') => w.placed.switched hc hon ht
  have hheldf : .ptable ∈ (m.top ρ f.thread).held := by simp [htopf, hcar.held]
  have hpt : ∀ {lk}, lk ∈ (m'.top (update ρ f { ρ f with intena := none }) u).held → lk = .ptable := by simp [htopu, hucar.held]
  refine ⟨w.frames.update hx hdepth (by rw [← hmach]) ?_, w.notes.update hd hdepth (.same w.notes hx rfl rfl rfl rfl),
    ⟨fun {t t' c'} ht ht' => ?_, fun {c' c''} ht => ?_, fun c' => ?_, fun {t c'} ht => ?_, fun {t} ht => ?_, fun {c'} ht => ?_,
      fun {p c'} ht => ?_⟩,
    ⟨fun {t c' lk} ht hm => ?_, fun {t t' c1 c2 lk} ht ht' hm hm' => ?_, fun {t c'} lk ht => ?_⟩⟩
  · have hw := w.frames.well hd.ge
    exact ⟨fun hIF => absurd (hIF.symm.trans hcar.IF) (by decide), hw.count, hw.named, hw.proc⟩
  -- who is on which CPU
  · have : m.on t = some c' → m.on t' = some c' → t = t' := w.placed.one
    have := hcase ht
    have := hcase ht'
    grind
  · have : m.on (.scheduler c') = some c'' → c'' = c' := w.placed.home
    have := hhome c'
    have := hcase ht
    grind
  · by_cases e : c' = c
    · exact ⟨u, by rw [hon', if_pos rfl, e]⟩
    · obtain ⟨t, ht⟩ := w.placed.busy c'
      exact ⟨t, by grind⟩
  · rw [hcpu]
    rcases hcase ht with ⟨rfl, rfl⟩ | ⟨_, hne, ht, _⟩
    · have hsh := w.placed.shows hc
      rw [htopf] at hsh
      rw [htopu]
      exact ⟨hsh.IF.trans (hcar.IF.trans hucar.IF.symm), by rw [hsh.ncli, hcar.pushes, hucar.pushes],
        (fun b hb => nomatch huint.symm.trans hb), hsh.proc.trans hproc.symm⟩
    · rw [htop, if_neg hne]
      exact w.placed.shows ht
  · rw [htop]
    split
    · exact ⟨⟨hcar.IF, hcar.pushes, hcar.held, hcar.named⟩, rfl⟩
    · exact w.placed.away (by grind)
  · have := w.placed.base (c := c')
    have := hbase c'
    grind
  · rcases hcase ht with ⟨e, rfl⟩ | ⟨_, _, ht, hne⟩
    · obtain ⟨⟨c'', hsc⟩, hp⟩ := hrun p e.symm
      have hc' := hc
      rw [hsc] at hc'
      rw [htop, if_pos (by rw [hsc, w.placed.home hc'])]
      exact hp
    · rw [htop, if_neg (fun e => hne (w.placed.home (show m.on (.scheduler c') = some c by rw [e]; exact hc)).symm)]
      exact w.placed.running ht
  -- the locks
  · rw [hlocked]
    rcases hcase ht with ⟨rfl, _⟩ | ⟨_, hne, ht, _⟩
    · rw [hpt hm]
      exact w.locks.locked hc hheldf
    · rw [htop, if_neg hne] at hm
      exact w.locks.locked ht hm
  · -- only `u` and `f` can both have the lock of the table
    rcases hcase ht with ⟨rfl, _⟩ | ⟨_, hne, ht, _⟩ <;> rcases hcase ht' with ⟨rfl, _⟩ | ⟨_, hne', ht', _⟩
    · rfl
    · rw [htop, if_neg hne', hpt hm] at hm'
      exact absurd (w.locks.excl ht' hc hm' hheldf) hne'
    · rw [htop, if_neg hne, hpt hm'] at hm
      exact absurd (w.locks.excl ht hc hm hheldf) hne
    · rw [htop, if_neg hne] at hm
      rw [htop, if_neg hne'] at hm'
      exact w.locks.excl ht ht' hm hm'
  · rw [howner]
    rcases hcase ht with ⟨rfl, rfl⟩ | ⟨_, hne, ht, _⟩
    · rw [htopu, hucar.named, ← hcar.named, ← htopf]
      exact w.locks.owner lk hc
    · rw [htop, if_neg hne]
      exact w.locks.owner lk ht

/-! ### Traps -/

/-- A trap or a return from one: the top frame is another one, of the view `r`. -/
theorem World.reenter (w : World ρ m h) (hc : m.on t = some c) (hw : Stacks ρ' m') (hother : ∀ u, u ≠ t → m'.top ρ' u = m.top ρ u)
    (htop : m'.top ρ' t = r) (hfree : Free t (m.top ρ t)) (hfree' : Free t r) (hint : r.intena = none)
    (hIF : (m'.cpu c).IF = r.IF) (hncli : (m'.cpu c).ncli = (m.cpu c).ncli) (hproc : (m'.cpu c).proc = (m.cpu c).proc)
    (hcpu : ∀ c', c' ≠ c → m'.cpu c' = m.cpu c') (hd : ∀ u, u ≠ t → m'.depth u = m.depth u) (hon : m'.on = m.on)
    (hl : m'.locked = m.locked) (ho : m'.owner = m.owner) (hentry : ∀ g, (ρ' g).entry = (ρ g).entry)
    (hdue : ∀ g, (ρ' g).due = (ρ g).due) : World ρ' m' h := by
  have htop' : ∀ u, m'.top ρ' u = if u = t then r else m.top ρ u := by grind
  have hsh := w.placed.shows hc
  refine ⟨hw, ⟨fun u => ?_, fun u => ?_, fun g => (w.notes.entry g).trans (hentry g).symm,
    fun g => (w.notes.due g).trans (hdue g).symm, w.notes.log⟩, w.placed.change hc hon hd htop' hcpu ⟨hIF, ?_, ?_, ?_⟩,
    w.locks.keep w.placed hc hon htop' hl ho (hfree'.held.trans hfree.held.symm) (hfree'.named.trans hfree.named.symm)⟩
  · have := hfree.pushes.trans hfree'.pushes.symm
    grind [w.notes.pushes u]
  · have := hfree.outer.trans hfree'.outer.symm
    grind [w.notes.outer u]
  · rw [hncli, hsh.ncli, hfree.pushes, hfree'.pushes]
  · exact fun b hb => nomatch hint.symm.trans hb
  · rw [hproc, hsh.proc, hfree.proc, hfree'.proc]

/-- A trap puts the frame `f` over an interrupted one. -/
theorem World.trap [DecidableEq L] (w : World ρ m h) (hc : m.on f.thread = some c) (hf : f.depth = m.depth f.thread + 1)
    (hIF : (m.top ρ f.thread).IF = true) {g : Gate} (hd : m'.depth = update m.depth f.thread f.depth)
    (hs : m'.saved = update m.saved f (m.cpu c).IF)
    (hcpu : m'.cpu = update m.cpu c { m.cpu c with IF := g = Gate.syscall })
    (hon : m'.on = m.on) (hl : m'.locked = m.locked) (ho : m'.owner = m.owner) :
    World (update ρ f ((ρ f).after f (.trap g) ())) m' h := by
  obtain ⟨hfree, _⟩ := (w.frames.well (Nat.le_refl _)).free hIF
  have hfree' : Free f.thread ((ρ f).after f (.trap g) ()) := ⟨rfl, rfl, rfl, rfl, rfl⟩
  have hle : ∀ {u d}, d ≤ m'.depth u → (⟨u, d⟩ : Frame C P) = f ∨ (⟨u, d⟩ : Frame C P) ≠ f ∧ d ≤ m.depth u := by
    intro u d hle
    rw [hd, update_apply] at hle
    split at hle
    · rename_i e
      subst e
      by_cases e : d = f.depth
      · exact .inl (by rw [e])
      · exact .inr ⟨fun e' => e (congrArg Frame.depth e'), by omega⟩
    · rename_i e
      exact .inr ⟨fun e' => e (congrArg Frame.thread e'), hle⟩
  refine w.reenter (r := (ρ f).after f (.trap g) ()) hc ⟨fun {u d} hle' => ?_, fun {u d} hlt => ?_, fun p => ?_, fun g' => ?_⟩
    (fun u hne => ?_) ?_ hfree hfree' rfl ?_ ?_ ?_ (fun c' hne => by rw [hcpu, update_of_ne hne])
    (fun u hne => by rw [hd, update_of_ne hne]) hon hl ho (fun g' => ?_) fun g' => ?_
  · rcases hle hle' with rfl | ⟨e, hle⟩
    · rw [update_self]
      exact ⟨fun _ => ⟨hfree', rfl⟩, Nat.le_refl 0, Finset.Subset.refl _, fun p hp => congrArg Thread.home hp⟩
    · rw [update_of_ne e]
      exact w.frames.well hle
  · rcases hle hlt.le with rfl | ⟨e, hle⟩
    · rw [hd, update_self] at hlt
      exact absurd hlt (Nat.lt_irrefl _)
    · rw [update_of_ne e]
      rcases hle.lt_or_eq with hlt' | rfl
      · exact w.frames.below hlt'
      · rw [hd, update_apply] at hlt
        split at hlt
        · rename_i e
          rw [e]
          exact hIF
        · exact absurd hlt (Nat.lt_irrefl _)
  · rw [update_of_ne]
    · exact w.frames.user p
    · exact fun e => nomatch (congrArg Frame.depth e).trans hf
  · rw [hs, update_apply, (w.placed.shows hc).IF]
    split
    · exact hIF
    · exact w.frames.saved g'
  · unfold Machine.top
    rw [hd, update_of_ne hne, update_of_ne fun e => hne (congrArg Frame.thread e)]
  · unfold Machine.top
    rw [hd, update_self]
    exact update_self ..
  · rw [hcpu, update_self]
    rfl
  · rw [hcpu, update_self]
  · rw [hcpu, update_self]
  all_goals
    by_cases e : g' = f
    · rw [e, update_self]
      rfl
    · rw [update_of_ne e]

/-- The return from a trap. -/
theorem World.iret (w : World ρ m h) (hx : m.here f = some c) {d : Nat} (hf : f.depth = d + 1) (hfree : Free f.thread (ρ f)) :
    World ρ ({ m with depth := update m.depth f.thread d }.setCpu c { m.cpu c with IF := m.saved f }) h := by
  obtain ⟨hc, hd, htopf, _⟩ := top_of_here (ρ := ρ) hx
  have hle : ∀ u, update m.depth f.thread d u ≤ m.depth u := fun u => by
    rw [update_apply]
    split
    · rename_i e
      rw [e, hd, hf]
      exact Nat.le_succ d
    · exact Nat.le_refl _
  have hlt : d < m.depth f.thread := by rw [hd, hf]; exact Nat.lt_succ_self d
  have hIF := w.frames.below hlt
  obtain ⟨hfree', hint⟩ := (w.frames.well hlt.le).free hIF
  rw [← htopf] at hfree
  refine w.reenter (r := ρ ⟨f.thread, d⟩) hc ⟨fun h => w.frames.well (h.trans (hle _)), fun h => w.frames.below (h.trans_le (hle _)),
    w.frames.user, w.frames.saved⟩ (fun u hne => ?_) ?_ hfree hfree' hint ?_ ?_ ?_ (fun c' hne => update_of_ne hne ..)
    (fun u hne => update_of_ne hne ..) rfl rfl rfl (fun _ => rfl) fun _ => rfl
  · show ρ ⟨u, update m.depth f.thread d u⟩ = _
    rw [update_of_ne hne]
    rfl
  · show ρ ⟨f.thread, update m.depth f.thread d f.thread⟩ = _
    rw [update_self]
  all_goals simp only [Machine.setCpu, update_self]
  rw [w.frames.saved, hIF]

end Step

/-! ## Soundness -/

section Sound

variable {ρ : Views C P L} {m m' : Machine C P L} {h : History C P} {f : Frame C P} {c : C}

omit [DecidableEq C] [DecidableEq P] in
theorem World.here (w : World ρ m h) (hx : m.here f = some c) :
    m.on f.thread = some c ∧ Shows (m.cpu c) (ρ f) ∧ Well f.thread (ρ f) ∧ h.pushes f.thread = (ρ f).pushes ∧
      h.outer f.thread = (ρ f).outer := by
  obtain ⟨hc, hd, htop, _⟩ := top_of_here (ρ := ρ) hx
  have hw := w.frames.well (Nat.le_refl (m.depth f.thread))
  rw [hd] at hw
  rw [← htop]
  exact ⟨hc, w.placed.shows hc, htop ▸ hw, w.notes.pushes _, w.notes.outer _⟩

omit [DecidableEq C] [DecidableEq P] in
theorem World.flag (w : World ρ m h) (hx : m.here f = some c) : m.flag f = (ρ f).IF := by
  unfold Machine.flag
  rw [hx]
  exact (w.here hx).2.1.IF

omit [DecidableEq C] [DecidableEq P] in
theorem Well.note {t : Thread C P} {r : View P L} (hw : Well t r) (e : Bool) (d : Option Bool) :
    Well t { r with entry := e, due := d } := by
  refine ⟨fun hIF => ?_, hw.count, hw.named, hw.proc⟩
  obtain ⟨hf, hi⟩ := hw.free hIF
  exact ⟨⟨hf.pushes, hf.held, hf.named, hf.outer, hf.proc⟩, hi⟩

/-- Neither the view nor the CPUs and the locks change. -/
theorem World.still (w : World ρ m h) (hx : m.here f = some c) (hcpu : m'.cpu = m.cpu) (hon : m'.on = m.on) (hd : m'.depth = m.depth)
    (hs : m'.saved = m.saved) (hl : m'.locked = m.locked) (ho : m'.owner = m.owner) : World (update ρ f (ρ f)) m' h := by
  obtain ⟨_, hsh, hw, _, _⟩ := w.here hx
  exact w.regs hx hon hd hs hl ho (fun c' _ => by rw [hcpu]) (by rw [hcpu]; exact hsh) (.same w.notes hx rfl rfl rfl rfl) hw rfl rfl

/-- The CPU changes, and the view of it. -/
theorem World.cpu (w : World ρ m h) (hx : m.here f = some c) {x : Cpu P} {r : View P L} {h' : History C P} (hshows : Shows x r)
    (hn : Noted h h' f r) (hwell : Well f.thread r) (hheld : r.held = (ρ f).held) (hnamed : r.named = (ρ f).named) :
    World (update ρ f r) (m.setCpu c x) h' := by
  refine w.regs hx rfl rfl rfl rfl rfl (fun c' hne => update_of_ne hne ..) ?_ hn hwell hheld hnamed
  show Shows (update m.cpu c x c) r
  rw [update_self]
  exact hshows

variable [DecidableEq L]

/-- What `Sound` asks of an action, for a frame that a CPU executes. -/
def Keeps (ρ : Views C P L) (m : Machine C P L) (h : History C P) (c : C) (f : Frame C P) (a : Act P L) : Prop :=
  Needs f (ρ f) a → ∀ y m', m.perform c f a = .ok (y, m') →
    Gives f (ρ f) a y ∧ World (Function.update ρ f ((ρ f).after f a y)) m' (note f a y m h)

section Actions

variable (w : World ρ m h) (hx : m.here f = some c)

include w hx

theorem keeps_entered : Keeps ρ m h c f .entered := by
  intro _ y m' hr
  cases hr
  obtain ⟨_, hsh, hw, hp, ho⟩ := w.here hx
  have hn : Noted h h f (ρ f) := .same w.notes hx rfl rfl rfl rfl
  refine ⟨trivial, w.regs hx rfl rfl rfl rfl rfl (fun _ _ => rfl) ⟨hsh.IF, hsh.ncli, hsh.intena, hsh.proc⟩ ?_ (hw.note _ _) rfl rfl⟩
  exact ⟨hn.pushes, hn.outer, congrArg (update h.entry f) (w.flag hx), hn.due, hn.log⟩

theorem keeps_left : Keeps ρ m h c f .left := by
  intro hdue y m' hr
  cases hr
  obtain ⟨_, hsh, hw, hp, ho⟩ := w.here hx
  have hn : Noted h h f (ρ f) := .same w.notes hx rfl rfl rfl rfl
  refine ⟨trivial, w.regs hx rfl rfl rfl rfl rfl (fun _ _ => rfl) ⟨hsh.IF, hsh.ncli, hsh.intena, hsh.proc⟩ ?_ (hw.note _ _) rfl rfl⟩
  cases hb : h.due f with
  | some b =>
    simp only [Intr.note, hb]
    refine ⟨hn.pushes, hn.outer, hn.entry, rfl, fun e he => ?_⟩
    rcases List.mem_cons.mp he with rfl | he
    · refine .inr fun p hp => ?_
      rw [w.notes.due f] at hb
      exact (w.flag hx).trans (hdue p hp b hb)
    · exact .inl he
  | none =>
    simp only [Intr.note, hb]
    refine ⟨hn.pushes, hn.outer, hn.entry, ?_, hn.log⟩
    show h.due = update h.due f none
    rw [← hb, update_eq_self]

theorem keeps_cli : Keeps ρ m h c f .cli := by
  intro _ y m' hr
  cases hr
  obtain ⟨_, hsh, hw, _, _⟩ := w.here hx
  refine ⟨trivial, w.cpu hx ⟨rfl, hsh.ncli, hsh.intena, hsh.proc⟩ (.same w.notes hx rfl rfl rfl rfl) ?_ rfl rfl⟩
  exact ⟨fun hIF => Bool.noConfusion hIF, hw.count, hw.named, hw.proc⟩

theorem keeps_sti : Keeps ρ m h c f .sti := by
  intro hf y m' hr
  cases hr
  obtain ⟨_, hsh, hw, _, _⟩ := w.here hx
  refine ⟨trivial, w.cpu hx ⟨rfl, hsh.ncli, (fun b hb => nomatch hb), hsh.proc⟩ (.same w.notes hx rfl rfl rfl rfl) ?_ rfl rfl⟩
  exact ⟨fun _ => ⟨⟨hf.pushes, hf.held, hf.named, hf.outer, hf.proc⟩, rfl⟩, hw.count, hw.named, hw.proc⟩

theorem keeps_incNcli : Keeps ρ m h c f .incNcli := by
  intro hIF y m' hr
  cases hr
  obtain ⟨_, hsh, hw, hp, ho⟩ := w.here hx
  have hn : Noted h h f (ρ f) := .same w.notes hx rfl rfl rfl rfl
  have h0 : h.pushes f.thread = 0 ↔ (ρ f).pushes = 0 := by rw [hp, Int.natCast_eq_zero]
  refine ⟨trivial, w.cpu hx ⟨hsh.IF, ?_, hsh.intena, hsh.proc⟩ ⟨?_, ?_, hn.entry, hn.due, hn.log⟩ ?_ rfl rfl⟩
  · rw [hsh.ncli]
    exact (Nat.cast_succ _).symm
  · simp only [Intr.note, View.after, hp, Nat.cast_succ]
  · simp only [Intr.note, View.after, h0, w.notes.entry]
    split
    · rfl
    · exact hn.outer
  · exact ⟨fun h' => absurd (h'.symm.trans hIF) (by decide), hw.count.trans (Nat.le_succ _), hw.named, hw.proc⟩

theorem keeps_decNcli : Keeps ρ m h c f .decNcli := by
  intro ⟨hIF, hcard⟩ y m' hr
  cases hr
  obtain ⟨_, hsh, hw, hp, ho⟩ := w.here hx
  have hn : Noted h h f (ρ f) := .same w.notes hx rfl rfl rfl rfl
  have hcast : ((ρ f).pushes : Int) - 1 = (((ρ f).pushes - 1 : Nat) : Int) := by omega
  have h1 : h.pushes f.thread = 1 ↔ (ρ f).pushes = 1 := by rw [hp]; omega
  refine ⟨congrArg (· - 1) hsh.ncli, w.cpu hx ⟨hsh.IF, ?_, hsh.intena, hsh.proc⟩ ⟨?_, ?_, hn.entry, ?_, hn.log⟩ ?_ rfl rfl⟩
  · exact (congrArg (· - 1) hsh.ncli).trans hcast
  · simp only [Intr.note, View.after, hp, hcast]
  · simp only [Intr.note, View.after, h1]
    split
    · rfl
    · exact hn.outer
  · simp only [Intr.note, View.after, h1, ho]
  · exact ⟨fun h' => absurd (h'.symm.trans hIF) (by decide), Nat.le_sub_one_of_lt hcard, hw.named, hw.proc⟩

theorem keeps_intena : Keeps ρ m h c f .intena := by
  intro hIF y m' hr
  cases hr
  obtain ⟨_, hsh, hw, _, _⟩ := w.here hx
  refine ⟨hsh.intena, w.regs hx rfl rfl rfl rfl rfl (fun _ _ => rfl) ⟨hsh.IF, hsh.ncli, fun b hb => Option.some.inj hb, hsh.proc⟩
    (.same w.notes hx rfl rfl rfl rfl) ?_ rfl rfl⟩
  exact ⟨fun h' => absurd (h'.symm.trans hIF) (by decide), hw.count, hw.named, hw.proc⟩

theorem keeps_setIntena (b : Bool) : Keeps ρ m h c f (.setIntena b) := by
  intro hIF y m' hr
  cases hr
  obtain ⟨_, hsh, hw, _, _⟩ := w.here hx
  refine ⟨trivial, w.cpu hx ⟨hsh.IF, hsh.ncli, fun b' hb => Option.some.inj hb, hsh.proc⟩ (.same w.notes hx rfl rfl rfl rfl) ?_ rfl rfl⟩
  exact ⟨fun h' => absurd (h'.symm.trans hIF) (by decide), hw.count, hw.named, hw.proc⟩

theorem keeps_setProc (x : Option P) : Keeps ρ m h c f (.setProc x) := by
  intro ⟨⟨c', hc'⟩, hIF⟩ y m' hr
  cases hr
  obtain ⟨_, hsh, hw, _, _⟩ := w.here hx
  refine ⟨trivial, w.cpu hx ⟨hsh.IF, hsh.ncli, hsh.intena, rfl⟩ (.same w.notes hx rfl rfl rfl rfl) ?_ rfl rfl⟩
  exact ⟨fun h' => absurd (h'.symm.trans hIF) (by decide), hw.count, hw.named, fun p hp => nomatch hc'.symm.trans hp⟩

omit [DecidableEq C] [DecidableEq P] [DecidableEq L] in
/-- The locks of the thread: they are locked, no other thread has them, and it owns those that name its CPU. -/
theorem World.mine : (∀ lk ∈ (ρ f).held, m.locked lk = true) ∧
    (∀ lk ∈ (ρ f).held, ∀ t c', t ≠ f.thread → m.on t = some c' → lk ∉ (m.top ρ t).held) ∧
    ∀ lk, m.owner lk = some c ↔ lk ∈ (ρ f).named := by
  obtain ⟨hc, _, htop, _⟩ := top_of_here (ρ := ρ) hx
  rw [← htop]
  exact ⟨fun lk => w.locks.locked hc, fun lk hm t c' hne ht hm' => hne (w.locks.excl ht hc hm' hm), fun lk => w.locks.owner lk hc⟩

theorem keeps_xchg (lk : Lock L) : Keeps ρ m h c f (.xchg lk) := by
  intro ⟨hIF, hcard⟩ y m' hr
  obtain ⟨hc, hsh, hw, _, _⟩ := w.here hx
  obtain ⟨hlocked, hothers, howner⟩ := w.mine hx
  simp only [Machine.perform] at hr
  split at hr
  · cases hr
  rename_i hfree
  cases hr
  have hnew : lk ∉ (ρ f).held := fun hm => hfree (hlocked lk hm)
  refine ⟨hnew, w.lock hx _ (ρ f).named ?_ ?_ ?_ howner fun _ _ _ => Iff.rfl⟩
  · refine ⟨fun h' => absurd (h'.symm.trans hIF) (by decide), ?_, hw.named.trans (Finset.subset_insert _ _), hw.proc⟩
    rw [Finset.card_insert_of_notMem hnew]
    exact hcard
  · intro lk' hm
    rw [update_apply]
    split
    · rfl
    · exact hlocked lk' ((Finset.mem_insert.mp hm).resolve_left ‹_›)
  · intro lk' t c' hne ht hm
    have hne' : lk' ≠ lk := fun e => hfree (w.locks.locked ht (e ▸ hm))
    rw [update_of_ne hne']
    exact ⟨w.locks.locked ht hm, fun hm' => hothers lk' ((Finset.mem_insert.mp hm').resolve_left hne') t c' hne ht hm⟩

theorem keeps_own (lk : Lock L) : Keeps ρ m h c f (.own lk) := by
  intro hheld y m' hr
  cases hr
  obtain ⟨hc, hsh, hw, _, _⟩ := w.here hx
  obtain ⟨hlocked, hothers, howner⟩ := w.mine hx
  refine ⟨trivial, w.lock hx (ρ f).held _ ?_ hlocked ?_ ?_ ?_⟩
  · refine ⟨fun h' => ?_, hw.count, Finset.insert_subset hheld hw.named, hw.proc⟩
    exact absurd ((hw.free h').1.held ▸ hheld : lk ∈ ∅) (Finset.notMem_empty _)
  · exact fun lk' t c' hne ht hm => ⟨w.locks.locked ht hm, fun hm' => hothers lk' hm' t c' hne ht hm⟩
  · intro lk'
    rw [update_apply, Finset.mem_insert]
    have := howner lk'
    grind
  · intro lk' c' hne
    rw [update_apply]
    split
    · rename_i e
      refine iff_of_false (fun h' => hne (Option.some.inj h').symm) fun h' => ?_
      -- the thread on the other CPU would hold the lock too
      obtain ⟨t, ht⟩ := w.placed.busy c'
      have hne' : t ≠ f.thread := fun e' => hne (Option.some.inj ((e' ▸ ht).symm.trans hc))
      exact hothers lk hheld t c' hne' ht ((w.frames.well (Nat.le_refl _)).named ((w.locks.owner lk ht).mp (e ▸ h')))
    · exact Iff.rfl

theorem keeps_disown (lk : Lock L) : Keeps ρ m h c f (.disown lk) := by
  intro hnamed y m' hr
  cases hr
  obtain ⟨hc, hsh, hw, _, _⟩ := w.here hx
  obtain ⟨hlocked, hothers, howner⟩ := w.mine hx
  refine ⟨trivial, w.lock hx (ρ f).held _ ?_ hlocked ?_ ?_ ?_⟩
  · refine ⟨fun h' => ?_, hw.count, (Finset.erase_subset _ _).trans hw.named, hw.proc⟩
    exact absurd ((hw.free h').1.named ▸ hnamed : lk ∈ ∅) (Finset.notMem_empty _)
  · exact fun lk' t c' hne ht hm => ⟨w.locks.locked ht hm, fun hm' => hothers lk' hm' t c' hne ht hm⟩
  · intro lk'
    rw [update_apply, Finset.mem_erase]
    have := howner lk'
    grind
  · intro lk' c' hne
    rw [update_apply]
    have := (howner lk).mpr hnamed
    grind

theorem keeps_unlock (lk : Lock L) : Keeps ρ m h c f (.unlock lk) := by
  intro ⟨hheld, hnamed⟩ y m' hr
  cases hr
  obtain ⟨hc, hsh, hw, _, _⟩ := w.here hx
  obtain ⟨hlocked, hothers, howner⟩ := w.mine hx
  refine ⟨trivial, w.lock hx _ (ρ f).named ?_ ?_ ?_ howner fun _ _ _ => Iff.rfl⟩
  · refine ⟨fun h' => ?_, (Finset.card_le_card (Finset.erase_subset _ _)).trans hw.count, ?_, hw.proc⟩
    · exact absurd ((hw.free h').1.held ▸ hheld) (Finset.notMem_empty _)
    · exact fun lk' hm => Finset.mem_erase.mpr ⟨fun e => hnamed (e ▸ hm), hw.named hm⟩
  · intro lk' hm
    obtain ⟨e, hm⟩ := Finset.mem_erase.mp hm
    rw [update_of_ne e]
    exact hlocked lk' hm
  · intro lk' t c' hne ht hm
    have e : lk' ≠ lk := fun e => hothers lk hheld t c' hne ht (e ▸ hm)
    rw [update_of_ne e]
    exact ⟨w.locks.locked ht hm, fun hm' => hothers lk' (Finset.mem_erase.mp hm').2 t c' hne ht hm⟩

theorem keeps_sched : Keeps ρ m h c f .sched := by
  intro ⟨⟨p, hp⟩, hcar⟩ y m' hr
  cases hr
  obtain ⟨hc, hsh, hw, _, _⟩ := w.here hx
  have hc' := hc
  rw [hp] at hc'
  have hoff : m.on (.scheduler c) = none := by
    cases hon : m.on (.scheduler c) with
    | none => rfl
    | some c' =>
      obtain rfl := w.placed.home hon
      cases w.placed.one hon hc'
  exact ⟨trivial, w.switch hx hoff hcar (by rw [w.placed.running hc', hw.proc p hp]) (fun c' e => (Thread.scheduler.inj e).symm)
    (fun c' e => nomatch hp.symm.trans e) (fun p' e => nomatch e)⟩

theorem keeps_swtch (p : P) : Keeps ρ m h c f (.swtch p) := by
  intro ⟨⟨c', hf⟩, hcar, hproc⟩ y m' hr
  simp only [Machine.perform] at hr
  split at hr
  · rename_i hoff
    cases hr
    refine ⟨trivial, w.switch hx hoff hcar ?_ (fun c' e => nomatch e) (fun _ _ => by rw [hf]) fun p' e => ?_⟩
    · exact ((w.frames.well (Nat.le_refl _)).proc p rfl).trans hproc.symm
    · cases e
      exact ⟨⟨c', by rw [hf]⟩, hproc⟩
  · cases hr

theorem keeps_iret : Keeps ρ m h c f .iret := by
  intro hs y m' hr
  simp only [Machine.perform] at hr
  split at hr
  · rename_i d hd
    split at hr
    · rename_i hn
      cases hr
      rw [(w.here hx).2.1.ncli, Int.natCast_eq_zero] at hn
      refine ⟨hn, ?_⟩
      show World (update ρ f (ρ f)) _ h
      rw [update_eq_self]
      exact w.iret hx hd (hs hn)
    · cases hr
  · cases hr

theorem keeps_perform (a : Act P L) : Keeps ρ m h c f a := by
  obtain ⟨hc, hsh, _, _, _⟩ := w.here hx
  obtain ⟨hlocked, _, howner⟩ := w.mine hx
  cases a with
  | entered => exact keeps_entered w hx
  | left => exact keeps_left w hx
  | cli => exact keeps_cli w hx
  | sti => exact keeps_sti w hx
  | incNcli => exact keeps_incNcli w hx
  | decNcli => exact keeps_decNcli w hx
  | intena => exact keeps_intena w hx
  | setIntena x => exact keeps_setIntena w hx x
  | setProc x => exact keeps_setProc w hx x
  | xchg lk => exact keeps_xchg w hx lk
  | own lk => exact keeps_own w hx lk
  | disown lk => exact keeps_disown w hx lk
  | unlock lk => exact keeps_unlock w hx lk
  | sched => exact keeps_sched w hx
  | swtch p => exact keeps_swtch w hx p
  | iret => exact keeps_iret w hx
  | trap | halt => exact fun _ y m' hr => nomatch hr
  -- the other ones only look, or write the table of processes
  | readeflags => intro _ y m' hr; cases hr; exact ⟨hsh.IF, w.still hx rfl rfl rfl rfl rfl rfl⟩
  | ncli => intro _ y m' hr; cases hr; exact ⟨hsh.ncli, w.still hx rfl rfl rfl rfl rfl rfl⟩
  | proc => intro _ y m' hr; cases hr; exact ⟨hsh.proc, w.still hx rfl rfl rfl rfl rfl rfl⟩
  | locked lk => intro _ y m' hr; cases hr; exact ⟨hlocked lk, w.still hx rfl rfl rfl rfl rfl rfl⟩
  | mine lk => intro _ y m' hr; cases hr; exact ⟨decide_eq_true_iff.trans (howner lk), w.still hx rfl rfl rfl rfl rfl rfl⟩
  | state | setState | setChan => intro _ y m' hr; cases hr; exact ⟨trivial, w.still hx rfl rfl rfl rfl rfl rfl⟩
  | wake p ch =>
    intro _ y m' hr
    simp only [Machine.perform] at hr
    split at hr <;> cases hr <;> exact ⟨trivial, w.still hx rfl rfl rfl rfl rfl rfl⟩
  | loop =>
    intro _ y m' hr
    obtain ⟨t, d⟩ := f
    simp only [Machine.perform] at hr
    split at hr
    · cases hr
      exact ⟨⟨_, rfl⟩, w.still hx rfl rfl rfl rfl rfl rfl⟩
    · cases hr
  | requires lk =>
    intro _ y m' hr
    simp only [Machine.perform] at hr
    split at hr
    · cases hr
      exact ⟨(howner lk).mp ‹_›, w.still hx rfl rfl rfl rfl rfl rfl⟩
    · cases hr

end Actions

/-- A trap keeps the world, on whatever frame it comes. -/
theorem keeps_trap (w : World ρ m h) (g : Gate) {y : Unit} (hr : m.trap g f = .ok (y, m')) :
    World (update ρ f ((ρ f).after f (.trap g) ())) m' h := by
  unfold Machine.trap at hr
  split at hr
  · rename_i d c hd hc
    split at hr
    · rename_i hdepth
      subst hdepth
      cases g with
      | interrupt =>
        simp only at hr
        split at hr
        · rename_i hIF
          cases hr
          exact w.trap hc hd (by rw [← (w.placed.shows hc).IF]; exact hIF) rfl rfl rfl rfl rfl rfl
        · cases hr
      | syscall =>
        simp only at hr
        split at hr
        · rename_i p ht h0
          cases hr
          -- user mode has its interrupts on
          have hIF : (m.top ρ f.thread).IF = true := by
            rw [Machine.top, h0, ht]
            exact w.frames.user p
          refine w.trap hc hd hIF rfl rfl ?_ rfl rfl rfl
          rw [← (w.placed.shows hc).IF] at hIF
          show m.cpu = update m.cpu c { m.cpu c with IF := true }
          rw [← hIF, update_eq_self]
        · cases hr
    · cases hr
  · cases hr

theorem exec_eq {a : Act P L} (h : ∀ g, a ≠ .trap g) : exec f a m = match m.here f with
    | some c => m.perform c f a
    | none => .wait := by
  cases a with
  | trap g => exact absurd rfl (h g)
  | _ => rfl

theorem views_sound :
    Sound (recorded (exec (C := C) (P := P) (L := L)) note) spec (fun ρ x => World ρ x.1 x.2) (fun _ _ _ => True) fun _ => False where
  mono := spec_mono
  step := by
    intro ρ x f a Q w _ hs
    refine ⟨fun y x' hr => ?_, fun e _ he => he⟩
    obtain ⟨m, h⟩ := x
    unfold recorded at hr
    by_cases htrap : ∃ g, a = .trap g
    · obtain ⟨g, rfl⟩ := htrap
      cases he : exec f (.trap g) m with
      | wait => rw [he] at hr; cases hr
      | fail e => exact nomatch e
      | ok z =>
        rw [he] at hr
        cases hr
        exact ⟨_, hs.2 _ trivial, keeps_trap w g he⟩
    · rw [exec_eq (fun g e => htrap ⟨g, e⟩)] at hr
      cases hx : m.here f with
      | none => rw [hx] at hr; cases hr
      | some c =>
        cases hp : m.perform c f a with
        | wait => simp only [hx, hp] at hr; cases hr
        | fail e => exact nomatch e
        | ok z =>
          simp only [hx, hp] at hr
          cases hr
          obtain ⟨hg, hw⟩ := keeps_perform w hx a hs.1 _ _ hp
          exact ⟨_, hs.2 _ hg, hw⟩

end Sound

end Xv6.Intr
