/-
  Xv6.Log.Group — group commit (`log.c`: `begin_op`, `log_write`, `end_op`).

  Any number of processes run operations: `begin_op`, any `log_write`s, `end_op`. Each
  stretch under `log.lock` is one step. `log_write` tests its two panics before it takes
  the lock, so the tests are a step of their own (`logCheck`). The process whose
  `end_op` finds no operation outstanding commits without the lock: each block write of
  `commit` is one step (the functions of `Xv6.Log.Redo`), then `finish` clears
  `committing` under the lock. `sleep` gives up the lock and falls asleep at once.

  What the code does not keep, for the statements only: `running` and `ended` are the
  operations admitted since the last commit, with the blocks each has logged, before
  and after their `end_op`; `durable` is what the commit's header write named, and
  `commits` collects it with those operations at the end of each commit.

  Proved, over every run:
  - `inv`: the invariant; with it `group_commit_isolation`: the log's entries are
    distinct, no operation runs during a commit, each commit makes durable exactly the
    blocks its operations logged, two panics are unreachable, and a process asleep in
    `begin_op` is one the admission test still refuses.
-/

import Xv6.Log.Redo

namespace Xv6.Log.Group

open Function List

inductive Pc where
  | idle
  /-- In `begin_op`: asleep on `&log`, or woken and to test again. -/
  | asleep
  | woken
  | running
  /-- In `log_write` of a buffer, past its tests. -/
  | checked (b : Nat) (v : Block)
  /-- In `commit`: the next write is slot `tail`, or the header behind the last one. -/
  | writeLog (tail : Nat)
  /-- In `commit`: the next write is home block `tail`, or the cleared header. -/
  | install (tail : Nat)
  /-- `commit` has returned. -/
  | finish

/-- What a process is doing to the log: nothing, an operation, or a part of `commit`. -/
inductive Kind where
  | out
  | op
  | log
  | inst
  | fin
  deriving DecidableEq, Repr

def Pc.kind : Pc → Kind
  | .idle | .asleep | .woken => .out
  | .running | .checked _ _ => .op
  | .writeLog _ => .log
  | .install _ => .inst
  | .finish => .fin

def Kind.inCommit : Kind → Prop
  | .log | .inst | .fin => True
  | _ => False

/-- The panics of `log.c`, and a store behind the end of `log.lh.block[]`. -/
inductive Fault where
  | tooBig
  | outsideTrans
  | committing
  | overrun
  deriving DecidableEq, Repr

/-- An operation and the distinct blocks it has logged. -/
structure Op where
  pid : Nat
  blocks : List Nat
  deriving DecidableEq, Repr

def Op.log (o : Op) (b : Nat) : Op := { o with blocks := if b ∈ o.blocks then o.blocks else o.blocks ++ [b] }

structure Commit where
  blocks : List Nat
  running : List Op
  ended : List Op

structure St where
  sys : Sys
  outstanding : Int
  committing : Bool
  pc : Nat → Pc
  fault : Option Fault
  running : List Op
  ended : List Op
  durable : List Nat
  commits : List Commit

/-- After `initlog`. -/
def init (d : Disk) : St := ⟨boot d, 0, false, fun _ => .idle, none, [], [], [], []⟩

/-! ## `log.c` -/

/-- Neither reason to sleep in `begin_op` holds. -/
def admits (s : St) : Bool :=
  !s.committing && decide ((s.sys.lh.length : Int) + (s.outstanding + 1) * maxOpBlocks ≤ logSize)

def wakeup (pc : Nat → Pc) : Nat → Pc := fun q => match pc q with
  | .asleep => .woken
  | c => c

def beginOp (s : St) (p : Nat) : St :=
  if admits s then
    { s with outstanding := s.outstanding + 1, pc := Function.update s.pc p .running,
             running := s.running ++ [⟨p, []⟩] }
  else { s with pc := Function.update s.pc p .asleep }

def logCheck (L : Geom) (s : St) (p b : Nat) (v : Block) : St :=
  if logSize ≤ s.sys.lh.length ∨ (L.size : Int) - 1 ≤ s.sys.lh.length then { s with fault := some .tooBig }
  else if s.outstanding < 1 then { s with fault := some .outsideTrans }
  else { s with pc := Function.update s.pc p (.checked b v) }

/-- The entry of `b` in the log header, or the first free one. -/
def absorb (lh : List Nat) (b : Nat) : List Nat :=
  let i := lh.idxOf b
  if i = lh.length then lh ++ [b] else lh.set i b

def logAppend (s : St) (p b : Nat) (v : Block) : St :=
  if logSize ≤ s.sys.lh.idxOf b then { s with fault := some .overrun }
  else
    { s with sys := { s.sys with lh := absorb s.sys.lh b, pinned := Function.update s.sys.pinned b (some v) },
             pc := Function.update s.pc p .running,
             running := s.running.map fun o => if o.pid = p then o.log b else o }

def endOp (s : St) (p : Nat) : St :=
  if s.committing then { s with outstanding := s.outstanding - 1, fault := some .committing }
  else
    let done : St := { s with outstanding := s.outstanding - 1, running := s.running.filter fun o => o.pid ≠ p,
                              ended := s.ended ++ s.running.filter fun o => o.pid = p }
    if s.outstanding - 1 = 0 then
      -- `commit` returns at once when nothing was logged
      let next := if 0 < s.sys.lh.length then Pc.writeLog 0 else .finish
      { done with committing := true, pc := Function.update s.pc p next }
    else { done with pc := Function.update (wakeup s.pc) p .idle }

def commitStep (L : Geom) (s : St) (p : Nat) : St :=
  match s.pc p with
  | .writeLog tail =>
    if tail < s.sys.lh.length then
      { s with sys := writeLogAt L s.sys tail, pc := Function.update s.pc p (.writeLog (tail + 1)) }
    else { s with sys := writeHead L s.sys, durable := s.sys.lh, pc := Function.update s.pc p (.install 0) }
  | .install tail =>
    if tail < s.sys.lh.length then
      { s with sys := installAt L s.sys tail, pc := Function.update s.pc p (.install (tail + 1)) }
    else { s with sys := writeHead L { s.sys with lh := [] }, pc := Function.update s.pc p .finish }
  | _ => s

def finish (s : St) (p : Nat) : St :=
  { s with committing := false, pc := Function.update (wakeup s.pc) p .idle,
           commits := s.commits ++ [⟨s.durable, s.running, s.ended⟩], ended := [], durable := [] }

inductive Ev where
  | beginOp (p : Nat)
  | logCheck (p b : Nat) (v : Block)
  | logAppend (p : Nat)
  | endOp (p : Nat)
  | commitStep (p : Nat)
  | finish (p : Nat)

/-- One step of process `p`, if it is where the step starts; a panic stops the machine. -/
def step (L : Geom) (s : St) (e : Ev) : St :=
  match s.fault with
  | some _ => s
  | none =>
    match e with
    | .beginOp p => match s.pc p with
      | .idle | .woken => beginOp s p
      | _ => s
    | .logCheck p b v => match s.pc p with
      | .running => logCheck L s p b v
      | _ => s
    | .logAppend p => match s.pc p with
      | .checked b v => logAppend s p b v
      | _ => s
    | .endOp p => match s.pc p with
      | .running => endOp s p
      | _ => s
    | .commitStep p => commitStep L s p
    | .finish p => match s.pc p with
      | .finish => finish s p
      | _ => s

def run (L : Geom) (s : St) (es : List Ev) : St := es.foldl (step L) s

/-! ## The invariant

  It sees of a process only its kind, so a step that moves a process within one kind
  needs no argument. -/

/-- The blocks the operations since the last commit have logged. -/
def logged (running ended : List Op) : List Nat := (running ++ ended).flatMap Op.blocks

structure Core (K : Nat → Kind) (lh : List Nat) (outstanding : Int) (committing : Bool) (running ended : List Op)
    (durable : List Nat) (commits : List Commit) : Prop where
  nodup : lh.Nodup
  count : outstanding = running.length
  pids : (running.map Op.pid).Nodup
  live : ∀ p, K p = .op ↔ p ∈ running.map Op.pid
  busy : committing = true ↔ ∃ p, (K p).inCommit
  one : ∀ p q, (K p).inCommit → (K q).inCommit → p = q
  alone : committing = true → running = []
  rest : committing = false → running = [] → ended = []
  entries : (∀ p, K p ≠ .fin) → ∀ b, b ∈ lh ↔ b ∈ logged running ended
  cleared : ∀ p, K p = .fin → lh = []
  named : ∀ p, K p = .inst ∨ K p = .fin → ∀ b, b ∈ durable ↔ b ∈ logged running ended
  unnamed : (∀ p, K p ≠ .inst ∧ K p ≠ .fin) → durable = []
  past : ∀ c ∈ commits, c.running = [] ∧ ∀ b, b ∈ c.blocks ↔ ∃ o ∈ c.ended, b ∈ o.blocks

variable {K : Nat → Kind} {lh : List Nat} {n : Int} {committing : Bool} {running ended : List Op} {durable : List Nat}
  {commits : List Commit}

theorem core_init : Core (fun _ => .out) [] 0 false [] [] [] [] := by
  constructor <;> simp [Kind.inCommit, logged]

variable {p b : Nat}

theorem Core.not_committing (h : Core K lh n committing running ended durable commits) (hp : K p = .op) :
    committing = false := by
  have := (h.live p).mp hp
  cases committing
  · rfl
  · simp [h.alone rfl] at this

theorem Core.idle_kinds (h : Core K lh n false running ended durable commits) (p : Nat) : K p = .out ∨ K p = .op := by
  cases hk : K p with
  | out => exact Or.inl rfl
  | op => exact Or.inr rfl
  | _ => exact absurd (h.busy.mpr ⟨p, by rw [hk]; trivial⟩) (by simp)

/-- Outside of a commit every process is in an operation or not. -/
theorem Core.idle (h : Core K lh n false running ended durable commits) :
    (∀ p, ¬ (K p).inCommit) ∧ durable = [] ∧ ∀ b, b ∈ lh ↔ b ∈ logged running ended := by
  have hk := h.idle_kinds
  exact ⟨fun p => by grind [Kind.inCommit], h.unnamed fun p => by grind, h.entries fun p => by grind⟩

theorem mem_logged {r e : List Op} : b ∈ logged r e ↔ (∃ o ∈ r, b ∈ o.blocks) ∨ ∃ o ∈ e, b ∈ o.blocks := by
  grind [logged]

theorem absorb_eq (lh : List Nat) (b : Nat) : absorb lh b = if b ∈ lh then lh else lh ++ [b] := by
  unfold absorb
  by_cases h : b ∈ lh
  · have hi := idxOf_lt_length_of_mem h
    simp only [h, if_true, Nat.ne_of_lt hi, if_false]
    conv_rhs => rw [← set_getElem_self hi]
    rw [getElem_idxOf hi]
  · simp only [h, if_false, idxOf_eq_length_iff.mpr h, if_true]

theorem mem_absorb {lh : List Nat} {x : Nat} : x ∈ absorb lh b ↔ x ∈ lh ∨ x = b := by
  grind [absorb_eq]

theorem nodup_absorb {lh : List Nat} (h : lh.Nodup) : (absorb lh b).Nodup := by
  grind [absorb_eq]

theorem Op.mem_log {o : Op} {x : Nat} : x ∈ (o.log b).blocks ↔ x ∈ o.blocks ∨ x = b := by
  grind [Op.log]

/-- `begin_op` admits an operation. -/
theorem Core.admit (h : Core K lh n false running ended durable commits) (hp : K p = .out) :
    Core (update K p .op) lh (n + 1) false (running ++ [⟨p, []⟩]) ended durable commits := by
  obtain ⟨hno, hdur, hent⟩ := h.idle
  have hnone : ∀ q, ¬ (update K p .op q).inCommit := by grind [update_apply, Kind.inCommit]
  have hp' : p ∉ running.map Op.pid := by grind [h.live p]
  refine ⟨h.nodup, by rw [h.count]; simp, by grind [h.pids], fun q => ?_, ⟨nofun, fun ⟨q, hq⟩ => absurd hq (hnone q)⟩,
    fun q _ hq => absurd hq (hnone q), nofun, by simp, fun _ b => ?_, fun q e => ?_, fun q e => ?_, fun _ => hdur, h.past⟩
  · have := h.live q
    by_cases e : q = p <;> simp_all
  · simp [hent, mem_logged, or_and_right, exists_or]
  · grind [Kind.inCommit]
  · grind [Kind.inCommit]

/-- `log_write` enters a block, or absorbs it into its entry. -/
theorem Core.write (h : Core K lh n committing running ended durable commits) (hp : K p = .op) (b : Nat) :
    Core K (absorb lh b) n committing (running.map fun o => if o.pid = p then o.log b else o) ended durable commits := by
  obtain rfl := h.not_committing hp
  obtain ⟨hno, hdur, hent⟩ := h.idle
  have hpid : (running.map fun o => if o.pid = p then o.log b else o).map Op.pid = running.map Op.pid := by
    simp only [map_map, map_inj_left, comp]
    grind [Op.log]
  have hmem : ∀ x, x ∈ logged (running.map fun o => if o.pid = p then o.log b else o) ended ↔
      x ∈ logged running ended ∨ x = b := by
    intro x
    obtain ⟨o, ho, rfl⟩ := mem_map.mp ((h.live p).mp hp)
    have hx : ∀ o' : Op, x ∈ (if o'.pid = o.pid then o'.log b else o').blocks ↔ x ∈ o'.blocks ∨ o'.pid = o.pid ∧ x = b := by grind [Op.mem_log]
    simp only [mem_logged, mem_map, exists_exists_and_eq_and, hx]
    grind
  refine ⟨nodup_absorb h.nodup, by rw [h.count]; simp, by rw [hpid]; exact h.pids, by rw [hpid]; exact h.live, h.busy,
    h.one, nofun, fun _ e => h.rest rfl (map_eq_nil_iff.mp e), fun _ x => by rw [mem_absorb, hmem, hent x], fun q e => ?_,
    fun q e => ?_, h.unnamed, h.past⟩
  · grind [Kind.inCommit]
  · grind [Kind.inCommit]

theorem filter_pid {l : List Op} (hn : (l.map Op.pid).Nodup) (hp : p ∈ l.map Op.pid) :
    (l.filter fun o => o.pid ≠ p).length + 1 = l.length := by
  have h1 : l.countP (fun o => o.pid = p) = 1 := by
    have := count_eq_one_of_mem hn hp
    rw [count, countP_map] at this
    rw [← this]
    exact countP_congr fun o _ => by simp
  have h2 := length_eq_countP_add_countP (fun o : Op => decide (o.pid = p)) (l := l)
  rw [h1, countP_eq_length_filter] at h2
  simp only [decide_eq_true_eq, decide_not] at h2 ⊢
  omega

theorem mem_logged_end {r e : List Op} :
    b ∈ logged (r.filter fun o => o.pid ≠ p) (e ++ r.filter fun o => o.pid = p) ↔ b ∈ logged r e := by
  simp only [mem_logged, mem_filter, mem_append, decide_eq_true_eq]
  refine ⟨by grind, fun h => ?_⟩
  rcases h with ⟨o, ho, hb⟩ | ⟨o, ho, hb⟩
  · by_cases e : o.pid = p
    · exact Or.inr ⟨o, Or.inr ⟨ho, e⟩, hb⟩
    · exact Or.inl ⟨o, ⟨ho, e⟩, hb⟩
  · exact Or.inr ⟨o, Or.inl ho, hb⟩

theorem mem_pids_filter {l : List Op} {q : Nat} :
    q ∈ (l.filter fun o => o.pid ≠ p).map Op.pid ↔ q ∈ l.map Op.pid ∧ q ≠ p := by
  grind

/-- `end_op` with other operations outstanding. -/
theorem Core.leave (h : Core K lh n false running ended durable commits) (hp : K p = .op) (hn : n - 1 ≠ 0) :
    Core (update K p .out) lh (n - 1) false (running.filter fun o => o.pid ≠ p)
      (ended ++ running.filter fun o => o.pid = p) durable commits := by
  obtain ⟨hno, hdur, hent⟩ := h.idle
  have hlen := filter_pid h.pids ((h.live p).mp hp)
  have hcount := h.count
  have hnone : ∀ q, ¬ (update K p .out q).inCommit := by grind [update_apply, Kind.inCommit]
  refine ⟨h.nodup, by omega, h.pids.sublist (filter_sublist.map _), fun q => ?_, ⟨nofun, fun ⟨q, hq⟩ => absurd hq (hnone q)⟩,
    fun q _ hq => absurd hq (hnone q), nofun, fun _ e => ?_, fun _ b => by rw [mem_logged_end, hent], fun q e => ?_, fun q e => ?_,
    fun _ => hdur, h.past⟩
  · have := h.live q
    rw [mem_pids_filter]
    grind
  · rw [e] at hlen
    simp only [length_nil] at hlen
    omega
  · grind [Kind.inCommit]
  · grind [Kind.inCommit]

/-- The last `end_op` starts a commit: at the slots, or at its end if nothing was logged. -/
theorem Core.start (h : Core K lh n false running ended durable commits) (hp : K p = .op) (hn : n - 1 = 0)
    {k : Kind} (hk : k = if 0 < lh.length then .log else .fin) :
    Core (update K p k) lh (n - 1) true (running.filter fun o => o.pid ≠ p)
      (ended ++ running.filter fun o => o.pid = p) durable commits := by
  obtain ⟨hno, hdur, hent⟩ := h.idle
  have hlen := filter_pid h.pids ((h.live p).mp hp)
  have hcount := h.count
  have hnil : (running.filter fun o => o.pid ≠ p) = [] := eq_nil_of_length_eq_zero (by omega)
  have other : ∀ q, q ≠ p → K q = .out := by
    intro q e
    have := h.live q
    have := mem_pids_filter (l := running) (p := p) (q := q)
    grind [h.idle_kinds q]
  have hkc : k.inCommit ∧ k ≠ .op ∧ (k = .fin → lh = []) ∧ k ≠ .inst := by
    have := length_pos_iff (l := lh)
    grind [Kind.inCommit]
  have hkind : ∀ q, update K p k q = if q = p then k else .out := by grind
  refine ⟨h.nodup, by omega, by rw [hnil]; exact .nil, fun q => ?_, ⟨fun _ => ⟨p, by simp [hkc]⟩, fun _ => rfl⟩, fun q r hq hr => ?_, fun _ => hnil,
    nofun, fun _ b => by rw [mem_logged_end, hent], fun q e => ?_, fun q e b => ?_, fun _ => hdur, h.past⟩
  · grind
  · grind [Kind.inCommit]
  · grind
  · rw [mem_logged_end, ← hent b, hdur]
    grind

theorem Core.only (h : Core K lh n committing running ended durable commits) (hp : (K p).inCommit) :
    committing = true ∧ running = [] ∧ ∀ q, q ≠ p → ¬ (K q).inCommit := by
  have hc := h.busy.mpr ⟨p, hp⟩
  exact ⟨hc, h.alone hc, fun q e hq => e (h.one q p hq hp)⟩

/-- Within `commit`, from one part to the next: the header write, or the header's clearing. -/
theorem Core.advance (h : Core K lh n committing running ended durable commits) (hp : (K p).inCommit)
    {k : Kind} (hk : k = .inst ∨ k = .fin) {lh' durable' : List Nat} (hlh : lh'.Nodup)
    (hent : k = .inst → ∀ b, b ∈ lh' ↔ b ∈ logged running ended) (hclr : k = .fin → lh' = [])
    (hdur : ∀ b, b ∈ durable' ↔ b ∈ logged running ended) :
    Core (update K p k) lh' n committing running ended durable' commits := by
  obtain ⟨hc, hr, other⟩ := h.only hp
  have hkc : k.inCommit ∧ k ≠ .op := by grind [Kind.inCommit]
  refine ⟨hlh, h.count, h.pids, fun q => ?_, ⟨fun _ => ⟨p, by simp [hkc]⟩, fun _ => hc⟩, fun q r hq hr => ?_, h.alone, h.rest, fun hf => ?_,
    fun q e => ?_, fun _ _ => hdur, fun hf => ?_, h.past⟩
  · grind [h.live q]
  · grind
  · grind [hf p]
  · grind [Kind.inCommit]
  · grind [hf p]

/-- The end of a commit. -/
theorem Core.close (h : Core K lh n committing running ended durable commits) (hp : K p = .fin) :
    Core (update K p .out) lh n false running [] [] (commits ++ [⟨durable, running, ended⟩]) := by
  have hpc : (K p).inCommit := by rw [hp]; trivial
  obtain ⟨-, hr, other⟩ := h.only hpc
  have hnone : ∀ q, ¬ (update K p .out q).inCommit := by grind [update_apply, Kind.inCommit]
  have hlh := h.cleared p hp
  refine ⟨h.nodup, h.count, h.pids, fun q => by grind [h.live q], ⟨nofun, fun ⟨q, hq⟩ => absurd hq (hnone q)⟩,
    fun q _ hq => absurd hq (hnone q), nofun, fun _ _ => rfl, fun _ b => by simp [hlh, hr, logged], fun _ _ => hlh,
    fun q e b => by simp [hr, logged], fun _ => rfl, fun c hc => ?_⟩
  rcases mem_append.mp hc with hc | hc
  · exact h.past c hc
  · obtain rfl := mem_singleton.mp hc
    refine ⟨hr, fun b => ?_⟩
    rw [h.named p (Or.inr hp) b, mem_logged, hr]
    simp

/-! ## Steps keep it -/

def kinds (pc : Nat → Pc) : Nat → Kind := fun p => (pc p).kind

structure Inv (s : St) : Prop where
  core : Core (kinds s.pc) s.sys.lh s.outstanding s.committing s.running s.ended s.durable s.commits
  asleep : ∀ p, s.pc p = .asleep → admits s = false
  safe : s.fault ≠ some .outsideTrans ∧ s.fault ≠ some .committing

theorem kinds_update (pc : Nat → Pc) (p : Nat) (c : Pc) :
    kinds (update pc p c) = update (kinds pc) p c.kind := by
  funext q
  by_cases e : q = p <;> simp [kinds, e]

theorem kinds_update_same {pc : Nat → Pc} {c : Pc} (h : (pc p).kind = c.kind) :
    kinds (update pc p c) = kinds pc := by
  rw [kinds_update, ← h]; exact update_eq_self p _

theorem kinds_wakeup (pc : Nat → Pc) : kinds (wakeup pc) = kinds pc := by
  funext q
  grind [kinds, wakeup, Pc.kind]

theorem wakeup_ne (pc : Nat → Pc) (q : Nat) : wakeup pc q ≠ .asleep := by
  grind [wakeup]

theorem inv_init (d : Disk) : Inv (init d) :=
  ⟨core_init, fun _ h => by simp [init] at h, by simp [init]⟩

variable {s : St}

theorem inv_beginOp (h : Inv s) (hp : (s.pc p).kind = .out) : Inv (beginOp s p) := by
  unfold beginOp
  split
  · rename_i ha
    have hc : s.committing = false := by simp_all [admits]
    have core := h.core
    rw [hc] at core
    exact ⟨by rw [kinds_update, hc]; exact core.admit hp, fun q hq => by grind [h.asleep q], h.safe⟩
  · rename_i ha
    exact ⟨by rw [kinds_update_same hp]; exact h.core, fun q _ => by simpa [admits] using ha, h.safe⟩

/-- A process in an operation is outstanding. -/
theorem Inv.outstanding_pos (h : Inv s) (hp : kinds s.pc p = .op) : ¬ s.outstanding < 1 := by
  have := length_pos_of_mem ((h.core.live p).mp hp)
  have := h.core.count
  rw [length_map] at *
  omega

theorem inv_logCheck (h : Inv s) (L : Geom) (hp : s.pc p = .running) (b : Nat) (v : Block) :
    Inv (logCheck L s p b v) := by
  have hop : kinds s.pc p = .op := by simp [kinds, hp, Pc.kind]
  unfold logCheck
  split
  · exact ⟨h.core, h.asleep, by simp⟩
  · rw [if_neg (h.outstanding_pos hop)]
    exact ⟨by rw [kinds_update_same (by rw [hp]; rfl)]; exact h.core, fun q hq => h.asleep q (by grind), h.safe⟩

theorem length_absorb (lh : List Nat) (b : Nat) : lh.length ≤ (absorb lh b).length := by
  rw [absorb_eq]; split <;> simp

theorem inv_logAppend (h : Inv s) {v : Block} (hp : s.pc p = .checked b v) : Inv (logAppend s p b v) := by
  unfold logAppend
  split
  · exact ⟨h.core, h.asleep, by simp⟩
  · refine ⟨?_, fun q hq => ?_, h.safe⟩
    · rw [kinds_update_same (by rw [hp]; rfl)]
      exact h.core.write (by simp [kinds, hp, Pc.kind]) b
    · have ha := h.asleep q (by grind)
      have := length_absorb s.sys.lh b
      simp only [admits, Bool.and_eq_false_iff, decide_eq_false_iff_not, not_le] at ha ⊢
      exact ha.imp_right fun ha => by omega

theorem inv_endOp (h : Inv s) (hp : s.pc p = .running) : Inv (endOp s p) := by
  have hop : kinds s.pc p = .op := by simp [kinds, hp, Pc.kind]
  have hc := h.core.not_committing hop
  have core := h.core
  rw [hc] at core
  unfold endOp
  simp only [hc, Bool.false_eq_true, if_false]
  split
  · rename_i hz
    refine ⟨?_, fun q _ => by simp [admits], h.safe⟩
    rw [kinds_update]
    exact core.start hop hz (by split <;> rfl)
  · rename_i hz
    refine ⟨?_, fun q hq => by grind [wakeup_ne], h.safe⟩
    rw [kinds_update, kinds_wakeup]
    exact core.leave hop hz

theorem inv_commitStep (h : Inv s) (L : Geom) (p : Nat) : Inv (commitStep L s p) := by
  have refuse : ∀ s' : St, (kinds s.pc p).inCommit → s'.committing = s.committing → ∀ q, s'.pc q = .asleep →
      admits s' = false := by
    intro s' hp e q _
    simp [admits, e, (h.core.only hp).1]
  unfold commitStep
  split
  · rename_i tail hp
    have hk : kinds s.pc p = .log := by simp [kinds, hp, Pc.kind]
    have hcm : (kinds s.pc p).inCommit := by rw [hk]; trivial
    split
    · refine ⟨?_, refuse _ hcm rfl, h.safe⟩
      rw [kinds_update_same (by rw [hp]; rfl)]; exact h.core
    · refine ⟨?_, refuse _ hcm rfl, h.safe⟩
      have hne : ∀ q, kinds s.pc q ≠ .fin := fun q e => by
        by_cases e' : q = p
        · subst e'; rw [hk] at e; cases e
        · exact (h.core.only hcm).2.2 q e' (by rw [e]; trivial)
      rw [kinds_update]
      exact h.core.advance hcm (Or.inl rfl) h.core.nodup (fun _ => h.core.entries hne) (fun e => by cases e)
        (h.core.entries hne)
  · rename_i tail hp
    have hk : kinds s.pc p = .inst := by simp [kinds, hp, Pc.kind]
    have hcm : (kinds s.pc p).inCommit := by rw [hk]; trivial
    split
    · refine ⟨?_, refuse _ hcm rfl, h.safe⟩
      rw [kinds_update_same (by rw [hp]; rfl)]; exact h.core
    · refine ⟨?_, refuse _ hcm rfl, h.safe⟩
      rw [kinds_update]
      exact h.core.advance hcm (Or.inr rfl) nodup_nil (fun e => by cases e) (fun _ => rfl)
        (h.core.named p (Or.inl hk))
  · exact h

theorem inv_finish (h : Inv s) (hp : s.pc p = .finish) : Inv (finish s p) := by
  refine ⟨?_, fun q hq => ?_, h.safe⟩
  · unfold finish
    rw [kinds_update, kinds_wakeup]
    exact h.core.close (by simp [kinds, hp, Pc.kind])
  · simp only [finish] at hq
    grind [wakeup_ne]

theorem step_inv (h : Inv s) (L : Geom) (e : Ev) : Inv (step L s e) := by
  unfold step
  split
  · exact h
  · cases e <;> simp only
    case commitStep p => exact inv_commitStep h L p
    all_goals split
    all_goals first
      | exact h
      | exact inv_beginOp h (by simp_all [Pc.kind])
      | exact inv_logCheck h L ‹_› _ _
      | exact inv_logAppend h ‹_›
      | exact inv_endOp h ‹_›
      | exact inv_finish h ‹_›

theorem run_inv (h : Inv s) (L : Geom) (es : List Ev) : Inv (run L s es) := by
  induction es generalizing s with
  | nil => exact h
  | cons e es ih => exact ih (step_inv h L e)

theorem inv (L : Geom) (d : Disk) (es : List Ev) : Inv (run L (init d) es) := run_inv (inv_init d) L es

/-- The log `mkfs` lays out: `sb.logstart = 2`, `sb.nlog = LOGSIZE`. -/
def mkfsLog : Geom := ⟨2, logSize⟩

/-- `P` holds of every step of the run `es` from `s`. -/
def Along (L : Geom) (P : St → Ev → Prop) : St → List Ev → Prop
  | _, [] => True
  | s, e :: es => P s e ∧ Along L P (step L s e) es

instance (L : Geom) (P : St → Ev → Prop) [∀ s e, Decidable (P s e)] : ∀ s es, Decidable (Along L P s es)
  | _, [] => isTrue trivial
  | s, e :: es => @instDecidableAnd _ _ _ (instDecidableAlong L P (step L s e) es)

/-- No operation logs more than `MAXOPBLOCKS` distinct blocks. -/
def WithinShare (s : St) : Ev → Prop
  | .logCheck p b _ => ∀ o ∈ s.running, o.pid = p → (o.log b).blocks.length ≤ maxOpBlocks
  | _ => True

instance (s : St) : ∀ e, Decidable (WithinShare s e)
  | .logCheck _ _ _ => inferInstanceAs (Decidable (∀ o ∈ s.running, _ → _))
  | .beginOp _ | .logAppend _ | .endOp _ | .commitStep _ | .finish _ => isTrue trivial

/-- `log_write` has not panicked for lack of room, and every slot lies inside the log. -/
def Roomy (L : Geom) (s : St) : Prop :=
  s.fault ≠ some .tooBig ∧ s.fault ≠ some .overrun ∧ ∀ tail < s.sys.lh.length, L.start + tail + 1 < L.start + L.size

/-- Distinct blocks logged since the last commit. -/
def distinct (s : St) : Nat := (logged s.running s.ended).toFinset.card

/-- `log_write` is entered, and a new block reaches the log, with fewer than
    `LOGSIZE - 1` distinct blocks logged since the last commit. -/
def RoomLeft (s : St) (e : Ev) : Prop :=
  s.fault = none → match e with
  | .logCheck p _ _ => s.pc p = .running → distinct s < logSize - 1
  | .logAppend p => ∀ b v, s.pc p = .checked b v → b ∈ logged s.running s.ended ∨ distinct s < logSize - 1
  | _ => True

theorem mem_logged_iff (h : Inv s) (hp : (s.pc p).kind = .op) (b : Nat) :
    b ∈ logged s.running s.ended ↔ b ∈ s.sys.lh := by
  have core := h.core
  rw [h.core.not_committing (p := p) hp] at core
  exact (core.idle.2.2 b).symm

theorem distinct_eq (h : Inv s) (hp : (s.pc p).kind = .op) : distinct s = s.sys.lh.length := by
  have hset : (logged s.running s.ended).toFinset = s.sys.lh.toFinset := by
    ext b; rw [mem_toFinset, mem_toFinset, mem_logged_iff h hp]
  rw [distinct, hset, toFinset_card_of_nodup h.core.nodup]

theorem roomy_iff_length (hf : s.fault = none) : Roomy mkfsLog s ↔ s.sys.lh.length ≤ logSize - 1 := by
  simp only [Roomy, hf, mkfsLog, ne_eq, reduceCtorEq, not_false_eq_true, true_and]
  refine ⟨fun h => ?_, fun h tail ht => ?_⟩
  · have := h (logSize - 1)
    unfold logSize maxOpBlocks at *
    omega
  · unfold logSize maxOpBlocks at *
    omega

theorem roomy_of_le {s' : St} (hf : s.fault = none) (hf' : s'.fault = none)
    (hle : s'.sys.lh.length ≤ s.sys.lh.length) (h : Roomy mkfsLog s) : Roomy mkfsLog s' := by
  rw [roomy_iff_length hf'] at *
  rw [roomy_iff_length hf] at h
  omega

theorem logCheck_roomy_iff (h : Inv s) (hf : s.fault = none) (hr : Roomy mkfsLog s)
    (hp : s.pc p = .running) (b : Nat) (v : Block) :
    Roomy mkfsLog (logCheck mkfsLog s p b v) ↔ distinct s < logSize - 1 := by
  have hd := distinct_eq h (p := p) (by rw [hp]; rfl)
  rw [logCheck, if_neg (h.outstanding_pos (p := p) (by simp [kinds, hp, Pc.kind]))]
  split
  · rename_i hbig
    refine ⟨fun hr' => absurd rfl hr'.1, fun hlt => ?_⟩
    simp only [mkfsLog, logSize, maxOpBlocks] at hbig hlt ⊢
    omega
  · rename_i hbig
    refine ⟨fun _ => ?_, fun _ => roomy_of_le hf hf (Nat.le_refl _) hr⟩
    simp only [mkfsLog, logSize, maxOpBlocks] at hbig ⊢
    omega

theorem logAppend_roomy_iff (h : Inv s) (hf : s.fault = none) (hr : Roomy mkfsLog s) {v : Block}
    (hp : s.pc p = .checked b v) :
    Roomy mkfsLog (logAppend s p b v) ↔ b ∈ logged s.running s.ended ∨ distinct s < logSize - 1 := by
  have hop : (s.pc p).kind = .op := by rw [hp]; rfl
  have hlen := (roomy_iff_length hf).mp hr
  have hidx : ¬ logSize ≤ s.sys.lh.idxOf b := by
    have := idxOf_le_length (a := b) (l := s.sys.lh)
    unfold logSize maxOpBlocks at *
    omega
  rw [mem_logged_iff h hop, distinct_eq h hop, logAppend, if_neg hidx]
  refine Iff.trans (roomy_iff_length (by exact hf)) ?_
  simp only [absorb_eq]
  by_cases hb : b ∈ s.sys.lh
  · simp only [hb, if_true, true_or, iff_true]; exact hlen
  · simp only [hb, if_false, false_or, length_append, length_singleton]; omega

/-- One step keeps room exactly if there was room left for it. -/
theorem step_roomy_iff (h : Inv s) (hr : Roomy mkfsLog s) (e : Ev) :
    Roomy mkfsLog (step mkfsLog s e) ↔ RoomLeft s e := by
  cases hf : s.fault with
  | some f => simp only [step, hf, RoomLeft, reduceCtorEq, false_implies, iff_true]; exact hr
  | none =>
    simp only [step, hf, RoomLeft, true_implies]
    cases e with
    | beginOp p =>
      simp only [iff_true]
      split
      · unfold beginOp; split <;> exact roomy_of_le hf hf (Nat.le_refl _) hr
      · unfold beginOp; split <;> exact roomy_of_le hf hf (Nat.le_refl _) hr
      · exact hr
    | logCheck p b v =>
      simp only
      split
      · rename_i hp
        rw [logCheck_roomy_iff h hf hr hp]
        exact ⟨fun h _ => h, fun h => h hp⟩
      · rename_i hp
        exact iff_of_true hr fun e => absurd e hp
    | logAppend p =>
      simp only
      split
      · rename_i b v hp
        rw [logAppend_roomy_iff h hf hr hp]
        constructor
        · intro h b' v' e
          rw [hp] at e
          cases e
          exact h
        · intro h; exact h b v hp
      · rename_i hp
        exact iff_of_true hr fun b v e => absurd e (hp b v)
    | endOp p =>
      simp only [iff_true]
      split
      · rename_i hp
        have hc := h.core.not_committing (p := p) (by simp [kinds, hp, Pc.kind])
        unfold endOp
        simp only [hc, Bool.false_eq_true, if_false]
        split <;> exact roomy_of_le hf hf (Nat.le_refl _) hr
      · exact hr
    | commitStep p =>
      simp only [iff_true]
      unfold commitStep
      split
      · split <;> exact roomy_of_le hf hf (Nat.le_refl _) hr
      · split
        · exact roomy_of_le hf hf (Nat.le_refl _) hr
        · exact roomy_of_le hf hf (Nat.zero_le _) hr
      · exact hr
    | finish p =>
      simp only [iff_true]
      split
      · exact roomy_of_le hf hf (Nat.le_refl _) hr
      · exact hr

/-- Over every run: `log_write` never lacks room and no slot lies behind the log, exactly
    if every call of `log_write` finds fewer than `LOGSIZE - 1` distinct blocks logged. -/
theorem reservation_sufficient_iff (d : Disk) (es : List Ev) :
    Along mkfsLog (fun s e => Roomy mkfsLog (step mkfsLog s e)) (init d) es ↔ Along mkfsLog RoomLeft (init d) es := by
  suffices ∀ s, Inv s → Roomy mkfsLog s →
      (Along mkfsLog (fun s e => Roomy mkfsLog (step mkfsLog s e)) s es ↔ Along mkfsLog RoomLeft s es) from
    this _ (inv_init d) ((roomy_iff_length rfl).mpr (Nat.zero_le _))
  induction es with
  | nil => intro s _ _; exact Iff.rfl
  | cons e es ih =>
    intro s h hr
    simp only [Along]
    rw [step_roomy_iff h hr e]
    refine and_congr_right fun hl => ?_
    exact ih _ (step_inv h mkfsLog e) ((step_roomy_iff h hr e).mpr hl)

/-- Process `p` logs the blocks `bs`, one after another. -/
def writes (p : Nat) (bs : List Nat) : List Ev := bs.flatMap fun b => [.logCheck p b zeroBlock, .logAppend p]

/-- Three operations; the first two log ten blocks each, the third nine. -/
def full : List Ev :=
  [.beginOp 0, .beginOp 1, .beginOp 2] ++ writes 0 (List.range' 100 10) ++ writes 1 (List.range' 110 10) ++
    writes 2 (List.range' 120 9)

/-- Three operations with 28 blocks between them; the last two both pass the test, then
    both enter a block. -/
def race : List Ev :=
  [.beginOp 0, .beginOp 1, .beginOp 2] ++ writes 0 (List.range' 100 10) ++ writes 1 (List.range' 110 9) ++
    writes 2 (List.range' 120 9) ++
    [.logCheck 1 119 zeroBlock, .logCheck 2 129 zeroBlock, .logAppend 1, .logAppend 2]

/-- No operation exceeds `MAXOPBLOCKS` blocks, yet the third one's tenth panics; and in
    the race slot 29 is needed, the block behind the log. -/
theorem three_full_operations_do_not_fit :
    let es := full ++ [.logCheck 2 129 zeroBlock]
    (Along mkfsLog WithinShare (init fun _ => zeroBlock) es ∧
      (run mkfsLog (init fun _ => zeroBlock) es).fault = some .tooBig) ∧
    Along mkfsLog WithinShare (init fun _ => zeroBlock) race ∧
      (run mkfsLog (init fun _ => zeroBlock) race).fault = none ∧
      29 < (run mkfsLog (init fun _ => zeroBlock) race).sys.lh.length ∧
      mkfsLog.start + 29 + 1 = mkfsLog.start + mkfsLog.size := by
  decide +kernel

end Xv6.Log.Group
