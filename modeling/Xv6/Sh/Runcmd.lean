/-
  Xv6.Sh.Runcmd — `runcmd` of `sh.c`: which descriptors the processes of a command have.

  A process is its descriptor table, its local `p[2]` and what it still has to do; `fork`
  gives the child a copy. The processes run interleaved in any order, and `wait` may return
  at any time: it does not touch descriptors. Descriptors are allocated as in `fdalloc`, the
  lowest one first, and `pipe` and `open` make files that have not been there before.

  Every node of the command is named by the way to it from the root. The log has the table
  with which a process begins `runcmd` at a node, the pipe that a PIPE node makes, the table
  with which an EXEC node calls `exec`, and the one with which the process of a PIPE node
  begins to wait.

  `Wp code fds p w`: whatever else happens, what `code` logs is as it should be. Every step
  keeps it for all processes; `wp_runcmd` has it for `runcmd`. `runcmd_wires`: every EXEC
  node has exactly the descriptors 0, 1 and 2; the two sides of a PIPE node begin with the
  table of the node and one end of a fresh pipe each, and its process waits with neither.
-/

import Xv6.Sh.Accepts

namespace Xv6.Sh

open Function

/-! ## Descriptors -/

def NOFILE : Nat := 16

/-- Open files by number; a pipe has two ends. -/
inductive File where
  | file (id : Nat)
  | pipe (id : Nat) (write : Bool)
deriving DecidableEq

def File.id : File → Nat
  | file id => id
  | pipe id _ => id

abbrev Fds := Nat → Option File

def fdalloc (fds : Fds) : Option Nat := (List.range NOFILE).find? fun fd => (fds fd).isNone

/-! ## What a process does -/

/-- From a node to one below it. -/
inductive Dir where
  | redir
  | listLeft
  | listRight
  | pipeLeft
  | pipeRight
  | back
deriving DecidableEq

/-- The way to a node, the last step first. -/
abbrev Path := List Dir

/-- An argument of `close` and `dup`. -/
inductive Arg where
  | fd (n : Nat)
  | p0
  | p1

def Arg.val (p : Nat × Nat) : Arg → Nat
  | fd n => n
  | p0 => p.1
  | p1 => p.2

/-- The system calls of `runcmd` in order; `begins` is its entry, and `waits` the first of the
    two waits of a PIPE node. -/
inductive Code where
  | exit
  | begins (node : Path) (k : Code)
  | close (fd : Arg) (k : Code)
  | dup (fd : Arg) (k : Code)
  | open (k : Code)
  | pipe (node : Path) (k : Code)
  | fork (child k : Code)
  | wait (k : Code)
  | waits (node : Path) (k : Code)
  | exec (node : Path) (k : Code)

/-- What the child for one side of a pipe does before its `runcmd`. -/
def Code.side (fd : Nat) (p : Arg) (k : Code) : Code := close (.fd fd) (dup p (close .p0 (close .p1 k)))

def runcmd (node : Path) : Cmd → Code
  | .exec argv => .begins node (if argv.isEmpty then .exit else .exec node .exit)
  | .redir cmd _ _ _ fd => .begins node (.close (.fd fd) (.open (runcmd (.redir :: node) cmd)))
  | .list left right => .begins node (.fork (runcmd (.listLeft :: node) left) (.wait (runcmd (.listRight :: node) right)))
  | .pipe left right => .begins node (.pipe node (.fork (.side 1 .p1 (runcmd (.pipeLeft :: node) left))
      (.fork (.side 0 .p0 (runcmd (.pipeRight :: node) right)) (.close .p0 (.close .p1 (.waits node (.wait .exit)))))))
  | .back cmd => .begins node (.fork (runcmd (.back :: node) cmd) .exit)

/-! ## Runs -/

inductive Event where
  | begins (node : Path) (fds : Fds)
  | piped (node : Path) (id : Nat)
  | exec (node : Path) (fds : Fds)
  | waits (node : Path) (fds : Fds)

/-- What the processes share: the log, and the number of the next file. -/
structure World where
  log : List Event
  next : Nat

def World.note (w : World) (e : Event) : World := { w with log := e :: w.log }

structure Proc where
  fds : Fds
  p : Nat × Nat
  code : Code

/-- One call of a process: the processes it becomes. -/
def Proc.step (pr : Proc) (w : World) : Option (List Proc × World) :=
  match pr.code with
  | .exit => some ([], w)
  | .begins node k => some ([{ pr with code := k }], w.note (.begins node pr.fds))
  | .close fd k => some ([{ pr with fds := Function.update pr.fds (fd.val pr.p) none, code := k }], w)
  | .dup fd k => do
    let fd' ← fdalloc pr.fds
    some ([{ pr with fds := Function.update pr.fds fd' (pr.fds (fd.val pr.p)), code := k }], w)
  | .open k => do
    let fd ← fdalloc pr.fds
    some ([{ pr with fds := Function.update pr.fds fd (some (.file w.next)), code := k }], { w with next := w.next + 1 })
  | .pipe node k => do
    let fd0 ← fdalloc pr.fds
    let fds := Function.update pr.fds fd0 (some (.pipe w.next false))
    let fd1 ← fdalloc fds
    some ([⟨Function.update fds fd1 (some (.pipe w.next true)), (fd0, fd1), k⟩], { w.note (.piped node w.next) with next := w.next + 1 })
  | .fork child k => some ([{ pr with code := k }, { pr with code := child }], w)
  | .wait k => some ([{ pr with code := k }], w)
  | .waits node k => some ([{ pr with code := k }], w.note (.waits node pr.fds))
  | .exec node k => some ([{ pr with code := k }], w.note (.exec node pr.fds))

structure System where
  procs : List Proc
  world : World

def System.step (s : System) (i : Nat) : Option System := do
  let pr ← s.procs[i]?
  let (ps, w) ← pr.step s.world
  some ⟨s.procs.take i ++ (ps ++ s.procs.drop (i + 1)), w⟩

/-- The processes take turns as `sched` says. -/
def System.run (s : System) (sched : List Nat) : Option System := sched.foldlM System.step s

def System.start (cmd : Cmd) (fds : Fds) (next : Nat) : System := ⟨[⟨fds, (0, 0), runcmd [] cmd⟩], ⟨[], next⟩⟩

/-! ## What is logged -/

def World.Le (w w' : World) : Prop := (∀ e ∈ w.log, e ∈ w'.log) ∧ w.next ≤ w'.next

theorem World.Le.refl (w : World) : w.Le w := ⟨fun _ h => h, Nat.le_refl _⟩

theorem World.Le.trans {w₁ w₂ w₃ : World} (h : w₁.Le w₂) (h' : w₂.Le w₃) : w₁.Le w₃ := ⟨fun e he => h'.1 e (h.1 e he), Nat.le_trans h.2 h'.2⟩

theorem World.le_note (w : World) (e : Event) : w.Le (w.note e) := ⟨fun _ h => List.mem_cons_of_mem e h, Nat.le_refl _⟩

variable {w w' : World}

theorem World.Le.next (h : w.Le w') : w.Le { w' with next := w'.next + 1 } := ⟨h.1, Nat.le_succ_of_le h.2⟩

/-- Exactly 0, 1 and 2 are open. -/
def Std (fds : Fds) : Prop := ∀ n, (fds n).isSome ↔ n < 3

/-- The files of the table are not new. -/
def Old (fds : Fds) (w : World) : Prop := ∀ n f, fds n = some f → f.id < w.next

/-- What is to hold of an event, given what has been logged. -/
def EventOk (w : World) : Event → Prop
  | .begins (.pipeLeft :: node) fds => ∃ (F : Fds) (id : Nat), .begins node F ∈ w.log ∧ .piped node id ∈ w.log ∧ fds = Function.update F 1 (some (.pipe id true))
  | .begins (.pipeRight :: node) fds => ∃ (F : Fds) (id : Nat), .begins node F ∈ w.log ∧ .piped node id ∈ w.log ∧ fds = Function.update F 0 (some (.pipe id false))
  | .begins _ _ => True
  | .piped node id => ∃ F, .begins node F ∈ w.log ∧ ∀ n f, F n = some f → f.id ≠ id
  | .exec _ fds => Std fds
  | .waits node fds => .begins node fds ∈ w.log

theorem EventOk.mono {e : Event} (h : EventOk w e) (hw : w.Le w') : EventOk w' e := by
  unfold EventOk at h ⊢
  split
  · obtain ⟨F, id, h1, h2, h3⟩ := h
    exact ⟨F, id, hw.1 _ h1, hw.1 _ h2, h3⟩
  · obtain ⟨F, id, h1, h2, h3⟩ := h
    exact ⟨F, id, hw.1 _ h1, hw.1 _ h2, h3⟩
  · trivial
  · obtain ⟨F, h1, h2⟩ := h
    exact ⟨F, hw.1 _ h1, h2⟩
  · exact h
  · exact hw.1 _ h

/-- Whatever the other processes do, descriptors do not run out and what is logged is right. -/
def Wp : Code → Fds → Nat × Nat → World → Prop
  | .exit, _, _, _ => True
  | .begins node k, fds, p, w => ∀ w', w.Le w' → EventOk w' (.begins node fds) ∧ Wp k fds p (w'.note (.begins node fds))
  | .close fd k, fds, p, w => Wp k (Function.update fds (fd.val p) none) p w
  | .dup fd k, fds, p, w => ∃ fd', fdalloc fds = some fd' ∧ Wp k (Function.update fds fd' (fds (fd.val p))) p w
  | .open k, fds, p, w => ∃ fd, fdalloc fds = some fd ∧
      ∀ w', w.Le w' → Wp k (Function.update fds fd (some (.file w'.next))) p { w' with next := w'.next + 1 }
  | .pipe node k, fds, _, w => ∃ fd0 fd1, ∀ w', w.Le w' → EventOk w' (.piped node w'.next) ∧ fdalloc fds = some fd0 ∧
      fdalloc (Function.update fds fd0 (some (.pipe w'.next false))) = some fd1 ∧
      Wp k (Function.update (Function.update fds fd0 (some (.pipe w'.next false))) fd1 (some (.pipe w'.next true))) (fd0, fd1)
        { w'.note (.piped node w'.next) with next := w'.next + 1 }
  | .fork child k, fds, p, w => Wp child fds p w ∧ Wp k fds p w
  | .wait k, fds, p, w => Wp k fds p w
  | .waits node k, fds, p, w => ∀ w', w.Le w' → EventOk w' (.waits node fds) ∧ Wp k fds p (w'.note (.waits node fds))
  | .exec node k, fds, p, w => ∀ w', w.Le w' → EventOk w' (.exec node fds) ∧ Wp k fds p (w'.note (.exec node fds))

theorem Wp.mono {c : Code} {fds : Fds} {p : Nat × Nat} (h : Wp c fds p w) (hw : w.Le w') : Wp c fds p w' := by
  induction c generalizing fds p with
  | exit => trivial
  | begins node k _ => exact fun w'' hw' => h w'' (hw.trans hw')
  | close fd k ih => exact ih h
  | dup fd k ih =>
    obtain ⟨fd', hfd, hk⟩ := h
    exact ⟨fd', hfd, ih hk⟩
  | «open» k _ =>
    obtain ⟨fd, hfd, hk⟩ := h
    exact ⟨fd, hfd, fun w'' hw' => hk w'' (hw.trans hw')⟩
  | pipe node k _ =>
    obtain ⟨fd0, fd1, hk⟩ := h
    exact ⟨fd0, fd1, fun w'' hw' => hk w'' (hw.trans hw')⟩
  | fork child k ihc ihk => exact ⟨ihc h.1, ihk h.2⟩
  | wait k ih => exact ih h
  | waits node k _ => exact fun w'' hw' => h w'' (hw.trans hw')
  | exec node k _ => exact fun w'' hw' => h w'' (hw.trans hw')

/-! ## `runcmd` -/

/-- `redircmd` is only called for 0 and 1. -/
def Cmd.Plain : Cmd → Prop
  | .exec _ => True
  | .redir cmd _ _ _ fd => fd < 2 ∧ cmd.Plain
  | .pipe left right => left.Plain ∧ right.Plain
  | .list left right => left.Plain ∧ right.Plain
  | .back cmd => cmd.Plain

variable {cmd : Cmd}

theorem plain_redirect {rs : List Redir} (h : cmd.Plain) : (redirect rs cmd).Plain := by
  induction rs generalizing cmd with
  | nil => exact h
  | cons r rs ih => exact ih ⟨by cases r.op <;> decide, h⟩

theorem plain_back {k : Nat} (h : cmd.Plain) : (Cmd.back^[k] cmd).Plain := by
  induction k generalizing cmd with
  | zero => exact h
  | succ k ih => exact ih (show (Cmd.back cmd).Plain from h)

theorem Deriv.plain {n : Nonterminal} (d : Deriv n) : d.cmd.Plain := by
  induction d with
  | last p k ih => exact plain_back ih
  | seq p k l ihp ihl => exact ⟨plain_back ihp, ihl⟩
  | single e ih => exact ih
  | piped e p ihe ihp => exact ⟨ihe, ihp⟩
  | block l rs ih => exact plain_redirect ih
  | simple rs as => exact plain_redirect trivial

theorem fdalloc_eq {fds : Fds} {n : Nat} (hn : fds n = none) (hlt : n < NOFILE) (hm : ∀ m, m < n → (fds m).isSome) : fdalloc fds = some n := by
  rw [fdalloc, List.find?_range_eq_some]
  refine ⟨by rw [hn]; rfl, List.mem_range.2 hlt, fun m h => ?_⟩
  obtain ⟨f, hf⟩ := Option.isSome_iff_exists.1 (hm m h)
  rw [hf]
  rfl

section Runcmd

variable {F : Fds} {w : World}

theorem Std.closed (h : Std F) {n : Nat} (hn : 3 ≤ n) : F n = none := by
  rw [← Option.not_isSome_iff_eq_none, h n]
  omega

/-- What was closed below 3 is what is allocated next. -/
theorem Std.reopen (h : Std F) {n : Nat} (hn : n < 3) : fdalloc (update F n none) = some n := by
  refine fdalloc_eq (update_self ..) (by unfold NOFILE; omega) fun m hm => ?_
  rw [update_of_ne (by omega)]
  exact (h m).2 (by omega)

theorem Std.update (h : Std F) {n : Nat} (hn : n < 3) (f : File) : Std (update F n (some f)) := fun m => by
  by_cases e : m = n
  · rw [e, update_self]
    exact ⟨fun _ => hn, fun _ => rfl⟩
  · rw [update_of_ne e]
    exact h m

theorem Old.update (h : Old F w) {n id : Nat} {f : File} (hf : f.id < id) (hw : w.next ≤ id) {log : List Event} :
    Old (update F n (some f)) ⟨log, id⟩ := fun m g hg => by
  by_cases e : m = n
  · rw [e, update_self] at hg
    cases hg
    exact hf
  · rw [update_of_ne e] at hg
    exact Nat.lt_of_lt_of_le (h m g hg) hw

theorem Old.mono (h : Old F w) {w' : World} (hw : w.Le w') : Old F w' := fun n f hf => Nat.lt_of_lt_of_le (h n f hf) hw.2

/-- The child for the side of a pipe that has the descriptor `n`. -/
theorem wp_side (hF : Std F) {id n : Nat} {write : Bool} (hn : n < 2) {arg : Arg} (harg : arg.val (3, 4) = if write then 4 else 3) {k : Code}
    (hk : Wp k (update F n (some (.pipe id write))) (3, 4) w) :
    Wp (.side n arg k) (update (update F 3 (some (.pipe id false))) 4 (some (.pipe id true))) (3, 4) w := by
  have hopen : fdalloc (update (update (update F 3 (some (.pipe id false))) 4 (some (.pipe id true))) n none) = some n := by
    refine fdalloc_eq (update_self ..) (by unfold NOFILE; omega) fun m hm => ?_
    rw [update_of_ne (by omega), update_of_ne (by omega), update_of_ne (by omega)]
    exact (hF m).2 (by omega)
  refine ⟨n, hopen, ?_⟩
  show Wp k _ (3, 4) w
  convert hk using 1
  funext m
  have h3 := hF.closed (Nat.le_refl 3)
  have h4 : F 4 = none := hF.closed (by decide)
  have hval : (update (update (update F 3 (some (File.pipe id false))) 4 (some (.pipe id true))) n none) (arg.val (3, 4)) =
      some (.pipe id write) := by
    rw [harg, update_of_ne (by cases write <;> simp <;> omega)]
    cases write
    · rw [if_neg (by decide), update_of_ne (by decide), update_self]
    · rw [if_pos rfl, update_self]
  simp only [Arg.val] at hval ⊢
  rw [hval]
  by_cases e4 : m = 4
  · rw [e4, update_self, update_of_ne (by omega), h4]
  by_cases e3 : m = 3
  · rw [e3, update_of_ne (by decide), update_self, update_of_ne (by omega), h3]
  rw [update_of_ne e4, update_of_ne e3]
  by_cases e : m = n
  · rw [e, update_self, update_self]
  · rw [update_of_ne e, update_of_ne e, update_of_ne e4, update_of_ne e3, update_of_ne e]

theorem wp_runcmd {cmd : Cmd} (hcmd : cmd.Plain) {node : Path} {p : Nat × Nat} (hF : Std F) (hold : Old F w) (hev : EventOk w (.begins node F)) :
    Wp (runcmd node cmd) F p w := by
  induction cmd generalizing node F p w with
  | exec argv =>
    intro w' hw
    refine ⟨hev.mono hw, ?_⟩
    split
    · trivial
    · exact fun _ _ => ⟨hF, trivial⟩
  | redir cmd file efile mode fd ih =>
    intro w' hw
    have hfd : fd < 3 := Nat.lt_succ_of_lt hcmd.1
    refine ⟨hev.mono hw, fd, hF.reopen hfd, fun w'' hw' => ?_⟩
    rw [show Arg.val p (.fd fd) = fd from rfl, update_idem]
    have hle : w.next ≤ w''.next := Nat.le_trans hw.2 hw'.2
    exact ih hcmd.2 (hF.update hfd _) (hold.update (show (File.file w''.next).id < w''.next + 1 from Nat.lt_succ_self _)
      (Nat.le_succ_of_le hle)) trivial
  | list left right ihl ihr =>
    intro w' hw
    have hold' := hold.mono (hw.trans (w'.le_note (.begins node F)))
    exact ⟨hev.mono hw, ihl hcmd.1 hF hold' trivial, ihr hcmd.2 hF hold' trivial⟩
  | back cmd ih =>
    intro w' hw
    exact ⟨hev.mono hw, ih hcmd hF (hold.mono (hw.trans (w'.le_note _))) trivial, trivial⟩
  | pipe left right ihl ihr =>
    intro w' hw
    have hbegins : .begins node F ∈ (w'.note (.begins node F)).log := List.mem_cons_self
    have h3 : F 3 = none := hF.closed (Nat.le_refl 3)
    have h4 : F 4 = none := hF.closed (by decide)
    have hold' := hold.mono (hw.trans (w'.le_note (.begins node F)))
    generalize w'.note (.begins node F) = w₁ at hbegins hold'
    refine ⟨hev.mono hw, 3, 4, fun w₂ hw₂ => ⟨⟨F, hw₂.1 _ hbegins, fun n f hf => ?_⟩, ?_, ?_, ?_⟩⟩
    · exact Nat.ne_of_lt (hold'.mono hw₂ n f hf)
    · exact fdalloc_eq h3 (by decide) fun m hm => (hF m).2 hm
    · refine fdalloc_eq (by rw [update_of_ne (by decide), h4]) (by decide) fun m hm => ?_
      by_cases e : m = 3
      · rw [e, update_self]
        rfl
      · rw [update_of_ne e]
        exact (hF m).2 (by omega)
    · -- the pipe has been logged from here on
      have hpiped : .piped node w₂.next ∈ (w₂.note (.piped node w₂.next)).log := List.mem_cons_self
      have hlog := hw₂.1 _ hbegins
      have hle := hw₂.2
      have hl : Arg.val (3, 4) .p1 = if true then 4 else 3 := rfl
      have hr : Arg.val (3, 4) .p0 = if false then 4 else 3 := rfl
      refine ⟨wp_side hF (by decide) hl (ihl hcmd.1 (hF.update (by decide) _) ?_ ?_),
        wp_side hF (by decide) hr (ihr hcmd.2 (hF.update (by decide) _) ?_ ?_), fun w₃ hw₃ => ⟨?_, trivial⟩⟩
      · exact (hold'.mono hw₂).update (Nat.lt_succ_self _) (Nat.le_succ _)
      · exact ⟨F, w₂.next, List.mem_cons_of_mem _ hlog, hpiped, rfl⟩
      · exact (hold'.mono hw₂).update (Nat.lt_succ_self _) (Nat.le_succ _)
      · exact ⟨F, w₂.next, List.mem_cons_of_mem _ hlog, hpiped, rfl⟩
      · -- both ends are closed again
        have hF' : update (update (update (update F 3 (some (.pipe w₂.next false))) 4 (some (.pipe w₂.next true)))
            3 none) 4 none = F := by
          funext m
          by_cases e4 : m = 4
          · rw [e4, update_self, h4]
          by_cases e3 : m = 3
          · rw [e3, update_of_ne (by decide), update_self, h3]
          · simp only [update_of_ne e4, update_of_ne e3]
        show Event.begins node _ ∈ w₃.log
        rw [show Arg.val (3, 4) Arg.p0 = 3 from rfl, show Arg.val (3, 4) Arg.p1 = 4 from rfl, hF']
        exact hw₃.1 _ (List.mem_cons_of_mem _ hlog)

end Runcmd

/-! ## Every node once -/

/-- The nodes at which the code has a `begins`, with `false`, and a `pipe`, with `true`. -/
def Code.names : Code → List (Bool × Path)
  | .exit => []
  | .begins node k => (false, node) :: k.names
  | .close _ k => k.names
  | .dup _ k => k.names
  | .open k => k.names
  | .pipe node k => (true, node) :: k.names
  | .fork child k => child.names ++ k.names
  | .wait k => k.names
  | .waits _ k => k.names
  | .exec _ k => k.names

def Event.names : Event → List (Bool × Path)
  | .begins node _ => [(false, node)]
  | .piped node _ => [(true, node)]
  | .exec _ _ => []
  | .waits _ _ => []

theorem suffix_of_mem_names {node : Path} {x : Bool × Path} (h : x ∈ (runcmd node cmd).names) : node <:+ x.2 := by
  induction cmd generalizing node with
  | exec argv =>
    have hn : (runcmd node (.exec argv)).names = [(false, node)] := by
      simp only [runcmd, Code.names]
      split <;> rfl
    rw [hn] at h
    rw [List.mem_singleton.1 h]
  | redir cmd file efile mode fd ih | back cmd ih =>
    rcases List.mem_cons.1 h with rfl | h
    · exact List.suffix_refl _
    · first
        | exact (List.suffix_cons _ _).trans (ih h)
        | exact (List.suffix_cons _ _).trans (ih ((List.mem_append.1 h).resolve_right nofun))
  | list left right ihl ihr =>
    rcases List.mem_cons.1 h with rfl | h
    · exact List.suffix_refl _
    · rcases List.mem_append.1 h with h | h
      · exact (List.suffix_cons _ _).trans (ihl h)
      · exact (List.suffix_cons _ _).trans (ihr h)
  | pipe left right ihl ihr =>
    rcases List.mem_cons.1 h with rfl | h
    · exact List.suffix_refl _
    rcases List.mem_cons.1 h with rfl | h
    · exact List.suffix_refl _
    rcases List.mem_append.1 h with h | h
    · exact (List.suffix_cons _ _).trans (ihl h)
    · exact (List.suffix_cons _ _).trans (ihr ((List.mem_append.1 h).resolve_right nofun))

/-- A node is not below its children, and nothing is below two different ones. -/
theorem not_mem_names {node : Path} {d : Dir} {b : Bool} : (b, node) ∉ (runcmd (d :: node) cmd).names := fun h => by
  have := (suffix_of_mem_names h).length_le
  simp at this

theorem names_disjoint {left right : Cmd} {node : Path} {d d' : Dir} (hd : d ≠ d') :
    (runcmd (d :: node) left).names.Disjoint (runcmd (d' :: node) right).names := fun x hl hr => by
  have h := List.suffix_of_suffix_length_le (suffix_of_mem_names hl) (suffix_of_mem_names hr) (Nat.le_refl _)
  exact hd (List.cons.inj (h.eq_of_length rfl)).1

theorem names_nodup (cmd : Cmd) (node : Path) : (runcmd node cmd).names.Nodup := by
  induction cmd generalizing node with
  | exec argv =>
    have hn : (runcmd node (.exec argv)).names = [(false, node)] := by
      simp only [runcmd, Code.names]
      split <;> rfl
    rw [hn]
    exact List.nodup_singleton _
  | redir cmd file efile mode fd ih => exact List.nodup_cons.2 ⟨not_mem_names, ih _⟩
  | back cmd ih =>
    show ((false, node) :: ((runcmd (.back :: node) cmd).names ++ [])).Nodup
    rw [List.append_nil]
    exact List.nodup_cons.2 ⟨not_mem_names, ih _⟩
  | list left right ihl ihr =>
    refine List.nodup_cons.2 ⟨fun h => ?_, (ihl _).append (ihr _) (names_disjoint (by decide))⟩
    exact (List.mem_append.1 h).elim not_mem_names not_mem_names
  | pipe left right ihl ihr =>
    show ((false, node) :: (true, node) :: ((runcmd (.pipeLeft :: node) left).names ++ ((runcmd (.pipeRight :: node) right).names ++ []))).Nodup
    rw [List.append_nil]
    refine List.nodup_cons.2 ⟨fun h => ?_, List.nodup_cons.2 ⟨fun h => ?_, (ihl _).append (ihr _) (names_disjoint (by decide))⟩⟩
    · rcases List.mem_cons.1 h with h | h
      · exact Bool.false_ne_true (congrArg Prod.fst h)
      · exact (List.mem_append.1 h).elim not_mem_names not_mem_names
    · exact (List.mem_append.1 h).elim not_mem_names not_mem_names

/-! ## Runs -/

def System.names (s : System) : List (Bool × Path) := s.world.log.flatMap Event.names ++ s.procs.flatMap (·.code.names)

structure Inv (s : System) : Prop where
  wp : ∀ pr ∈ s.procs, Wp pr.code pr.fds pr.p s.world
  log : ∀ e ∈ s.world.log, EventOk s.world e
  once : s.names.Nodup

/-- What a call does to the world, and the names it moves to the log. -/
theorem Proc.step_spec {pr : Proc} {ps : List Proc} (hs : pr.step w = some (ps, w')) (hwp : Wp pr.code pr.fds pr.p w) :
    w.Le w' ∧ (∀ q ∈ ps, Wp q.code q.fds q.p w') ∧ (∀ e ∈ w'.log, EventOk w e ∨ e ∈ w.log) ∧
      (w'.log.flatMap Event.names ++ ps.flatMap (·.code.names)).Perm (w.log.flatMap Event.names ++ pr.code.names) := by
  have hnote : ∀ {e}, EventOk w e → ∀ e' ∈ (w.note e).log, EventOk w e' ∨ e' ∈ w.log := fun he e' h => by
    rcases List.mem_cons.1 h with rfl | h
    · exact .inl he
    · exact .inr h
  have hone : ∀ {q : Proc} {w : World}, Wp q.code q.fds q.p w → ∀ r ∈ [q], Wp r.code r.fds r.p w := fun h r hr => by
    rw [List.mem_singleton.1 hr]
    exact h
  obtain ⟨fds, p, code⟩ := pr
  cases code with
  | exit =>
    cases hs
    exact ⟨.refl w, nofun, fun e he => .inr he, .refl _⟩
  | begins node k =>
    cases hs
    obtain ⟨hev, hk⟩ := hwp w (.refl w)
    refine ⟨w.le_note _, hone hk, hnote hev, ?_⟩
    simpa [World.note, Event.names, Code.names] using List.perm_middle.symm
  | close fd k =>
    cases hs
    exact ⟨.refl w, hone hwp, fun e he => .inr he, by simp [Code.names]⟩
  | dup fd k =>
    obtain ⟨fd', hfd, hk⟩ := hwp
    simp only [Proc.step, hfd, Option.bind_eq_bind, Option.bind_some] at hs
    cases hs
    exact ⟨.refl w, hone hk, fun e he => .inr he, by simp [Code.names]⟩
  | «open» k =>
    obtain ⟨fd', hfd, hk⟩ := hwp
    simp only [Proc.step, hfd, Option.bind_eq_bind, Option.bind_some] at hs
    cases hs
    exact ⟨World.Le.next (.refl w), hone (hk w (.refl w)), fun e he => .inr he, by simp [Code.names]⟩
  | pipe node k =>
    obtain ⟨fd0, fd1, hk⟩ := hwp
    obtain ⟨hev, hfd0, hfd1, hk⟩ := hk w (.refl w)
    simp only [Proc.step, hfd0, hfd1, Option.bind_eq_bind, Option.bind_some] at hs
    cases hs
    refine ⟨(w.le_note (.piped node w.next)).next, hone hk, hnote hev, ?_⟩
    simpa [World.note, Event.names, Code.names] using List.perm_middle.symm
  | fork child k =>
    cases hs
    refine ⟨.refl w, fun q hq => ?_, fun e he => .inr he, ?_⟩
    · rcases List.mem_cons.1 hq with rfl | hq
      · exact hwp.2
      · exact hone hwp.1 q hq
    · simpa [Code.names] using List.perm_append_comm.append_left _
  | wait k =>
    cases hs
    exact ⟨.refl w, hone hwp, fun e he => .inr he, by simp [Code.names]⟩
  | waits node k =>
    cases hs
    obtain ⟨hev, hk⟩ := hwp w (.refl w)
    exact ⟨w.le_note _, hone hk, hnote hev, by simp [World.note, Event.names, Code.names]⟩
  | exec node k =>
    cases hs
    obtain ⟨hev, hk⟩ := hwp w (.refl w)
    exact ⟨w.le_note _, hone hk, hnote hev, by simp [World.note, Event.names, Code.names]⟩

theorem Inv.step {s s' : System} {i : Nat} (hi : Inv s) (hs : s.step i = some s') : Inv s' := by
  obtain ⟨pr, hpr, hs⟩ := Option.bind_eq_some_iff.1 hs
  obtain ⟨⟨ps, w⟩, hps, hs⟩ := Option.bind_eq_some_iff.1 hs
  cases hs
  obtain ⟨hlt, hget⟩ := List.getElem?_eq_some_iff.1 hpr
  have hsplit : s.procs = s.procs.take i ++ pr :: s.procs.drop (i + 1) := by
    rw [← hget, List.getElem_cons_drop, List.take_append_drop]
  have hmem : pr ∈ s.procs := hget ▸ List.getElem_mem hlt
  obtain ⟨hle, hwp, hlog, hperm⟩ := Proc.step_spec hps (hi.wp pr hmem)
  refine ⟨fun q hq => ?_, fun e he => ?_, ?_⟩
  · rcases List.mem_append.1 hq with hq | hq
    · exact (hi.wp q (List.mem_of_mem_take hq)).mono hle
    rcases List.mem_append.1 hq with hq | hq
    · exact hwp q hq
    · exact (hi.wp q (List.mem_of_mem_drop hq)).mono hle
  · rcases hlog e he with h | h
    · exact h.mono hle
    · exact (hi.log e h).mono hle
  · have hn := hi.once
    rw [System.names, hsplit] at hn
    refine List.Perm.nodup ?_ hn
    refine List.perm_iff_count.2 fun x => ?_
    have hx := hperm.count_eq x
    simp only [System.names, List.flatMap_append, List.flatMap_cons, List.count_append] at hx ⊢
    omega

theorem Inv.runs {s s' : System} {sched : List Nat} (hi : Inv s) (hr : s.run sched = some s') : Inv s' := by
  induction sched generalizing s with
  | nil =>
    cases hr
    exact hi
  | cons i sched ih =>
    obtain ⟨s₁, h1, h2⟩ := Option.bind_eq_some_iff.1 hr
    exact ih (hi.step h1) h2

theorem Inv.start (hcmd : cmd.Plain) {fds : Fds} {next : Nat} (hfds : Std fds) (hold : ∀ n f, fds n = some f → f.id < next) :
    Inv (System.start cmd fds next) := by
  refine ⟨fun pr hpr => ?_, nofun, ?_⟩
  · rw [List.mem_singleton.1 hpr]
    exact wp_runcmd hcmd hfds hold trivial
  · show ([] ++ ((runcmd [] cmd).names ++ [])).Nodup
    rw [List.append_nil]
    exact names_nodup cmd []

/-- In a list without repetitions of names two events with one name are the same. -/
theorem event_unique {log : List Event} (hn : (log.flatMap Event.names).Nodup) {e e' : Event} (he : e ∈ log) (he' : e' ∈ log) {x : Bool × Path}
    (hx : e.names = [x]) (hx' : e'.names = [x]) : e = e' := by
  by_contra hne
  obtain ⟨l₁, l₂, rfl⟩ := List.append_of_mem he
  have hmem : e' ∈ l₁ ++ l₂ := by
    rcases List.mem_append.1 he' with h | h
    · exact List.mem_append_left _ h
    · exact List.mem_append_right _ ((List.mem_cons.1 h).resolve_left fun e => hne e.symm)
  have hx₂ : x ∈ (l₁ ++ l₂).flatMap Event.names := List.mem_flatMap.2 ⟨e', hmem, by rw [hx']; exact List.mem_cons_self⟩
  have hperm : ((l₁ ++ e :: l₂).flatMap Event.names).Perm (x :: (l₁ ++ l₂).flatMap Event.names) := by
    simp [hx]
  exact (List.nodup_cons.1 (hperm.nodup hn)).1 hx₂

/-- `runcmd` on a parsed command, from a table with 0, 1 and 2 open and however its processes
    are scheduled. -/
theorem runcmd_wires {buf mem : List Char} {fuel : Nat} {cmd : Cmd} (hz : '\x00' ∉ buf) (hcmd : parsecmd fuel buf = .ok (cmd, mem)) {fds : Fds} {next : Nat}
    (hfds : ∀ n, (fds n).isSome ↔ n < 3) (hold : ∀ n f, fds n = some f → f.id < next) {sched : List Nat} {s : System}
    (hr : (System.start cmd fds next).run sched = some s) :
    (∀ node fds, .exec node fds ∈ s.world.log → ∀ n, (fds n).isSome ↔ n < 3) ∧
    (∀ node fds, .begins (.pipeLeft :: node) fds ∈ s.world.log ∨ .begins (.pipeRight :: node) fds ∈ s.world.log →
      ∃ F id, .begins node F ∈ s.world.log ∧ .piped node id ∈ s.world.log) ∧
    ∀ node (F : Fds) id, .begins node F ∈ s.world.log → .piped node id ∈ s.world.log →
      (∀ n f, F n = some f → f.id ≠ id) ∧
      (∀ fds, .begins (.pipeLeft :: node) fds ∈ s.world.log → fds = Function.update F 1 (some (.pipe id true))) ∧
      (∀ fds, .begins (.pipeRight :: node) fds ∈ s.world.log → fds = Function.update F 0 (some (.pipe id false))) ∧
      ∀ fds, .waits node fds ∈ s.world.log → fds = F := by
  obtain ⟨d, _, _, he⟩ := parsecmd_sound hz hcmd
  obtain ⟨rfl, _⟩ := Prod.mk.inj he
  have hi := (Inv.start d.plain hfds hold).runs hr
  have hn : (s.world.log.flatMap Event.names).Nodup := (List.nodup_append.1 hi.once).1
  have hbegins : ∀ {node F F'}, .begins node F ∈ s.world.log → .begins node F' ∈ s.world.log → F = F' := fun h h' =>
    (Event.begins.inj (event_unique hn h h' rfl rfl)).2
  have hpiped : ∀ {node id id'}, .piped node id ∈ s.world.log → .piped node id' ∈ s.world.log → id = id' := fun h h' =>
    (Event.piped.inj (event_unique hn h h' rfl rfl)).2
  refine ⟨fun node fds h => hi.log _ h, fun node fds h => ?_, fun node F id hF hid => ⟨fun n f hf => ?_, fun fds h => ?_, fun fds h => ?_, fun fds h => ?_⟩⟩
  · rcases h with h | h
    · obtain ⟨F, id, h1, h2, _⟩ := hi.log _ h
      exact ⟨F, id, h1, h2⟩
    · obtain ⟨F, id, h1, h2, _⟩ := hi.log _ h
      exact ⟨F, id, h1, h2⟩
  · obtain ⟨F', h1, h2⟩ := hi.log _ hid
    rw [hbegins hF h1] at hf
    exact h2 n f hf
  · obtain ⟨F', id', h1, h2, h3⟩ := hi.log _ h
    rw [h3, hbegins h1 hF, hpiped h2 hid]
  · obtain ⟨F', id', h1, h2, h3⟩ := hi.log _ h
    rw [h3, hbegins h1 hF, hpiped h2 hid]
  · exact hbegins (hi.log _ h) hF

/-- The table with three files in it. -/
def stdFds : Fds := fun n => if n < 3 then some (.file n) else none

/-- `a|b`, with the two children and the parent run to their ends. -/
def pipeline : Option System :=
  (System.start (.pipe (.exec [(0, 1)]) (.exec [(2, 3)])) stdFds 3).run [0, 0, 0, 1, 1, 1, 1, 1, 1, 0, 1, 1, 1, 1, 1, 1, 0, 0, 0]

theorem runcmd_wires_pipeline : ∃ s, pipeline = some s ∧ s.world.log.length = 7 ∧
    ∀ node fds, .exec node fds ∈ s.world.log → ∀ n, (fds n).isSome ↔ n < 3 := by
  have hcmd : parsecmd 20 "a|b".toList = .ok (.pipe (.exec [(0, 1)]) (.exec [(2, 3)]), ['a', '\x00', 'b', '\x00']) := by decide +kernel
  have hfds : ∀ n, (stdFds n).isSome ↔ n < 3 := fun n => by
    by_cases h : n < 3 <;> simp [stdFds, h]
  have hold : ∀ n f, stdFds n = some f → f.id < 3 := fun n f h => by
    by_cases hn : n < 3
    · simp only [stdFds, hn, if_true, Option.some.injEq] at h
      rw [← h]
      exact hn
    · simp [stdFds, hn] at h
  have hlen : pipeline.map (·.world.log.length) = some 7 := by decide
  obtain ⟨s, hs, hlen⟩ := Option.map_eq_some_iff.1 hlen
  exact ⟨s, hs, hlen, (runcmd_wires (by decide) hcmd hfds hold hs).1⟩

end Xv6.Sh
