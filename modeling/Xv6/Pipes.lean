/-
  Xv6.Pipes — `pipe.c`: a pipe between any number of readers and writers.

  The calls run statement by statement under `p->lock`, in any order between the
  processes; `kill` comes from outside at any time. `sleep` gives up `p->lock` under
  `ptable.lock`, which `wakeup` and `kill` take too, so it is one step with going to sleep;
  the sleeper takes `p->lock` again before it tests its loop condition once more. `stored`
  and `returned` record the bytes stored by `pipewrite` and the results of the finished
  `piperead` calls, in lock order.

  The pipe is a FIFO (`pipe_fifo`). A wakeup can be lost: a writer that fills the pipe and
  then leaves because it was killed, or because the read end is closed, does not wake the
  readers (`killed_writer_wakes_no_reader`). No other exit loses one (`wakeups_kept_iff`).
-/

import Xv6.Lib.Ring
import Xv6.Lib.Monitor

namespace Xv6.Pipes

open Lib Monitor Function

def pipeSize : Nat := 512

inductive Chan where
  | nread
  | nwrite
  deriving DecidableEq

inductive Call where
  | pipewrite (addr : List UInt8)
  | piperead (n : Nat)
  | pipeclose (writable : Bool)

/-- The statements executed with `p->lock` held. -/
inductive Code where
  | write (todo : List UInt8)
  | writeFull (todo : List UInt8)
  | writeWake (todo : List UInt8)
  | writeSleep (todo : List UInt8)
  | writeFail
  | writeDone
  | read (n : Nat)
  | readEmpty (n : Nat)
  | readSleep (n : Nat)
  | copy (n : Nat) (addr : List UInt8)
  | readDone (addr : List UInt8)
  | release (addr : Option (List UInt8))
  | close (writable : Bool)
  | closeWake (writable : Bool)
  | closeLast

structure Pipe (P : Type) where
  ring : Ring UInt8 pipeSize 32
  readopen : Bool
  writeopen : Bool
  freed : Bool
  /-- the channel a process sleeps on -/
  chan : P → Option Chan
  killed : P → Bool
  stored : List UInt8
  returned : List (List UInt8)

variable {P : Type} [DecidableEq P]

/-- `pipealloc`: the page is not cleared. -/
def pipealloc (page : Nat → UInt8) : Pipe P :=
  { ring := ⟨page, 0, 0⟩, readopen := true, writeopen := true, freed := false, chan := fun _ => none,
    killed := fun _ => false, stored := [], returned := [] }

omit [DecidableEq P] in
def wakeup (s : Pipe P) (c : Chan) : Pipe P := { s with chan := fun q => if s.chan q = some c then none else s.chan q }

def sleep (s : Pipe P) (p : P) (c : Chan) : Pipe P := { s with chan := Function.update s.chan p (some c) }

def exec (p : P) (s : Pipe P) : Code → Pipe P × Next Code Call
  -- for(i = 0; i < n; i++) while(p->nwrite == p->nread + PIPESIZE)
  | .write [] => (s, .goto .writeDone)
  | .write (b :: todo) =>
    if s.ring.full then (s, .goto (.writeFull (b :: todo)))
    else ({ s with ring := s.ring.put b, stored := s.stored ++ [b] }, .goto (.write todo))
  | .writeFull todo =>
    if s.readopen = false ∨ s.killed p = true then (s, .goto .writeFail) else (s, .goto (.writeWake todo))
  | .writeWake todo => (wakeup s .nread, .goto (.writeSleep todo))
  | .writeSleep todo => (sleep s p .nwrite, .wait (.pipewrite todo))
  | .writeFail => (s, .leave)
  | .writeDone => (wakeup s .nread, .goto (.release none))
  -- while(p->nread == p->nwrite && p->writeopen)
  | .read n =>
    if s.ring.empty = true ∧ s.writeopen = true then (s, .goto (.readEmpty n)) else (s, .goto (.copy n []))
  | .readEmpty n => if s.killed p = true then (s, .goto (.release none)) else (s, .goto (.readSleep n))
  | .readSleep n => (sleep s p .nread, .wait (.piperead n))
  | .copy 0 addr => (s, .goto (.readDone addr))
  | .copy (n + 1) addr =>
    if s.ring.empty then (s, .goto (.readDone addr))
    else ({ s with ring := s.ring.pop }, .goto (.copy n (addr ++ [s.ring.front])))
  | .readDone addr => (wakeup s .nwrite, .goto (.release (some addr)))
  | .release addr => ({ s with returned := s.returned ++ addr.toList }, .leave)
  | .close true => ({ s with writeopen := false }, .goto (.closeWake true))
  | .close false => ({ s with readopen := false }, .goto (.closeWake false))
  | .closeWake true => (wakeup s .nread, .goto .closeLast)
  | .closeWake false => (wakeup s .nwrite, .goto .closeLast)
  | .closeLast => ({ s with freed := s.freed || (!s.readopen && !s.writeopen) }, .leave)

def Call.entry : Call → Code
  | .pipewrite addr => .write addr
  | .piperead n => .read n
  | .pipeclose w => .close w

def kill (q : P) (s : Pipe P) : Pipe P :=
  { s with killed := Function.update s.killed q true, chan := Function.update s.chan q none }

/-- A sleeping process does not run; a pipe that was freed is no longer there to be locked. -/
def pipe : Monitor P (Pipe P) Code Call P where
  entry := Call.entry
  ready p s := (s.chan p).isNone && !s.freed
  exec := exec
  outside := kill

/-- The pipe after the events `es`, from `pipealloc`. -/
abbrev after (page : Nat → UInt8) (es : List (Ev P Call P)) : St P (Pipe P) Code Call :=
  pipe.runs (St.start (pipealloc page)) es

/-! ## FIFO -/

/-- The bytes a `piperead` has copied and not yet returned. -/
def Code.copied : Code → List UInt8
  | .copy _ addr => addr
  | .readDone addr => addr
  | .release addr => addr.getD []
  | _ => []

/-- The bytes stored are those returned, those copied and those still buffered, in order. -/
def Fifo (s : Pipe P) (k : Option Code) : Prop :=
  s.ring.length ≤ pipeSize ∧ s.returned.flatten ++ (k.elim [] Code.copied) ++ s.ring.items = s.stored

theorem pipeSize_lt : pipeSize < 2 ^ 32 := by decide

theorem pipeSize_dvd : pipeSize ∣ 2 ^ 32 := ⟨2 ^ 23, by decide⟩

variable {r : Ring UInt8 pipeSize 32}

theorem not_full (hl : r.length ≤ pipeSize) (h : ¬ r.full = true) : r.length < pipeSize := by
  have : r.length ≠ pipeSize := fun e => h ((r.full_iff pipeSize_lt).mpr e)
  omega

theorem not_empty (h : ¬ r.empty = true) : 0 < r.length := by
  have : r.length ≠ 0 := fun e => h (r.empty_iff.mpr e)
  omega

omit [DecidableEq P] in
theorem fifo_put {s : Pipe P} {b : UInt8} {todo : List UInt8} (h : Fifo s (some (.write (b :: todo))))
    (hf : ¬ s.ring.full = true) : Fifo { s with ring := s.ring.put b, stored := s.stored ++ [b] } (some (.write todo)) := by
  have hlt := not_full h.1 hf
  refine ⟨?_, ?_⟩
  · show (s.ring.put b).length ≤ pipeSize
    rw [s.ring.length_put pipeSize_lt b hlt]
    omega
  · show _ ++ (s.ring.put b).items = _
    rw [s.ring.items_put pipeSize_lt pipeSize_dvd b hlt, ← List.append_assoc, ← h.2]
    rfl

omit [DecidableEq P] in
theorem fifo_pop {s : Pipe P} {n : Nat} {addr : List UInt8} (h : Fifo s (some (.copy (n + 1) addr)))
    (he : ¬ s.ring.empty = true) : Fifo { s with ring := s.ring.pop } (some (.copy n (addr ++ [s.ring.front]))) := by
  have hpos := not_empty he
  refine ⟨?_, ?_⟩
  · have := s.ring.length_pop hpos
    have := h.1
    show s.ring.pop.length ≤ pipeSize
    omega
  · have h2 := h.2
    rw [s.ring.items_pop pipeSize_dvd hpos] at h2
    show _ ++ (addr ++ [s.ring.front]) ++ s.ring.pop.items = s.stored
    rw [← h2]
    simp [Code.copied]

theorem fifo_kept : (pipe (P := P)).Keeps (fun _ _ _ => True) Fifo where
  enter d c h := by cases c <;> exact h
  outside x d o h := h
  exec p s k _ h := by
    simp only [pipe]
    cases k with
    | write todo =>
      cases todo with
      | nil => exact h
      | cons b todo =>
        simp only [exec]
        split
        · exact h
        · rename_i hf; exact fifo_put h hf
    | copy n addr =>
      cases n with
      | zero => exact h
      | succ n =>
        simp only [exec]
        split
        · exact h
        · rename_i he; exact fifo_pop h he
    | release addr =>
      refine ⟨h.1, Eq.trans ?_ h.2⟩
      cases addr <;> simp [exec, Next.code, Code.copied]
    | writeFull todo => simp only [exec]; split <;> exact h
    | read n => simp only [exec]; split <;> exact h
    | readEmpty n => simp only [exec]; split <;> exact h
    | close w => cases w <;> exact h
    | closeWake w => cases w <;> exact h
    | _ => exact h

/-- The number of buffered bytes is `nwrite - nread` mod `2 ^ 32` and at most `PIPESIZE`; the
    bytes returned, those copied by the read in progress and those buffered are the bytes stored. -/
theorem pipe_fifo (page : Nat → UInt8) (es : List (Ev P Call P)) :
    let s := (after page es).data
    (s.ring.nwrite - s.ring.nread).toNat ≤ pipeSize ∧ s.ring.items.length = (s.ring.nwrite - s.ring.nread).toNat ∧
      ∃ copied, s.returned.flatten ++ copied ++ s.ring.items = s.stored ∧ ((after page es).lock = none → copied = []) := by
  have h : Inv Fifo (after page es) :=
    (Inv.start ⟨by simp [pipealloc, Ring.length], by simp [pipealloc, Ring.items, Ring.length]⟩).runs fifo_kept es
      (along_of_forall _ (fun _ e => by cases e <;> simp [Stmts]) _ _)
  refine ⟨?_, Ring.length_items _, ?_⟩
  · cases h with
    | free _ _ hj => exact hj.1
    | held _ _ _ _ _ hj => exact hj.1
  · cases h with
    | free _ _ hj => exact ⟨[], hj.2, fun _ => rfl⟩
    | held p k hl _ _ hj => exact ⟨k.copied, hj.2, fun e => by rw [hl] at e; cases e⟩

/-! ## Wakeups -/

section Wakeups

omit [DecidableEq P]

variable (s : Pipe P)

def Asleep (c : Chan) : Prop := ∃ p, s.chan p = some c

/-- No process sleeps on `&p->nread` with data to read or no writer left. -/
def ReadersKept : Prop := Asleep s .nread → s.ring.empty = true ∧ s.writeopen = true

/-- No process sleeps on `&p->nwrite` with room to write or no reader left. -/
def WritersKept : Prop := Asleep s .nwrite → s.ring.full = true ∧ s.readopen = true

/-- What the holder of the lock can rely on at each statement; with the lock free, no
    wakeup is missing. -/
def Calm : Option Code → Prop
  | none => ReadersKept s ∧ WritersKept s
  | some (.write _) | some .writeDone => WritersKept s ∧ (Asleep s .nread → s.writeopen = true)
  | some (.writeFull _) | some .writeFail => WritersKept s ∧ (Asleep s .nread → s.writeopen = true) ∧ s.ring.full = true
  | some (.writeWake _) =>
    WritersKept s ∧ (Asleep s .nread → s.writeopen = true) ∧ s.ring.full = true ∧ s.readopen = true
  | some (.writeSleep _) => WritersKept s ∧ ¬ Asleep s .nread ∧ s.ring.full = true ∧ s.readopen = true
  | some (.read _) | some (.release _) | some (.close _) | some .closeLast => ReadersKept s ∧ WritersKept s
  | some (.readEmpty _) | some (.readSleep _) =>
    ReadersKept s ∧ WritersKept s ∧ s.ring.empty = true ∧ s.writeopen = true
  | some (.copy _ _) | some (.readDone _) => ReadersKept s ∧ (Asleep s .nwrite → s.readopen = true)
  | some (.closeWake true) => WritersKept s ∧ (Asleep s .nread → s.ring.empty = true)
  | some (.closeWake false) => ReadersKept s ∧ (Asleep s .nwrite → s.ring.full = true)

theorem not_asleep_wakeup (c : Chan) : ¬ Asleep (wakeup s c) c := by
  intro ⟨p, hp⟩
  simp only [wakeup] at hp
  split at hp
  · cases hp
  · contradiction

theorem asleep_wakeup_ne {c c' : Chan} (h : c' ≠ c) : Asleep (wakeup s c) c' ↔ Asleep s c' := by
  simp only [Asleep, wakeup]
  refine exists_congr fun p => ?_
  split
  · rename_i hp; simp [hp, h.symm]
  · rfl

variable {s}

/-- `Calm` speaks of sleepers only to bound them: fewer sleepers keep it. -/
theorem calm_mono {s' : Pipe P} {o : Option Code} (hr : s'.ring = s.ring) (ho : s'.readopen = s.readopen)
    (hw : s'.writeopen = s.writeopen) (ha : ∀ c, Asleep s' c → Asleep s c) (h : Calm s o) : Calm s' o := by
  have hR : ReadersKept s → ReadersKept s' := by
    intro h hs; rw [hr, hw]; exact h (ha _ hs)
  have hW : WritersKept s → WritersKept s' := by
    intro h hs; rw [hr, ho]; exact h (ha _ hs)
  have hn : ∀ c, ¬ Asleep s c → ¬ Asleep s' c := fun c h hs => h (ha c hs)
  cases o with
  | none => exact ⟨hR h.1, hW h.2⟩
  | some k =>
    cases k with
    | closeWake w =>
      cases w with
      | true => exact ⟨hW h.1, fun hs => hr ▸ h.2 (ha _ hs)⟩
      | false => exact ⟨hR h.1, fun hs => hr ▸ h.2 (ha _ hs)⟩
    | _ => simp only [Calm, hr, ho, hw] at h ⊢; grind

theorem readersKept_of_awake (h : ¬ Asleep s .nread) : ReadersKept s := fun hs => absurd hs h

theorem writersKept_of_awake (h : ¬ Asleep s .nwrite) : WritersKept s := fun hs => absurd hs h

theorem writersKept_wakeup (h : WritersKept s) : WritersKept (wakeup s .nread) :=
  fun hs => h ((asleep_wakeup_ne s (by decide)).mp hs)

theorem readersKept_wakeup (h : ReadersKept s) : ReadersKept (wakeup s .nwrite) :=
  fun hs => h ((asleep_wakeup_ne s (by decide)).mp hs)

end Wakeups

theorem asleep_kill {s : Pipe P} {q : P} {c : Chan} (h : Asleep (kill q s) c) : Asleep s c := by
  obtain ⟨p, hp⟩ := h
  by_cases e : p = q
  · subst e; simp [kill] at hp
  · exact ⟨p, by simpa only [kill, update_of_ne e] using hp⟩

theorem asleep_sleep_ne {s : Pipe P} {p : P} {c c' : Chan} (hc : c' ≠ c) (h : Asleep (sleep s p c) c') : Asleep s c' := by
  obtain ⟨q, hq⟩ := h
  by_cases e : q = p
  · subst e
    simp only [sleep, update_self, Option.some.injEq] at hq
    exact absurd hq.symm hc
  · exact ⟨q, by simpa only [sleep, update_of_ne e] using hq⟩

/-- The exit of `pipewrite` on a full pipe, taken while a reader sleeps. -/
def LeavesReaders (s : Pipe P) (k : Code) : Prop := k = .writeFail ∧ Asleep s .nread

theorem calm_kept : (pipe (P := P)).Keeps (fun _ s k => ¬ LeavesReaders s k) Calm where
  enter s c h := by
    cases c with
    | pipewrite addr => exact ⟨h.2, fun hs => (h.1 hs).2⟩
    | piperead n => exact h
    | pipeclose w => exact h
  outside q s o h := calm_mono (s := s) rfl rfl rfl (fun _ => asleep_kill) h
  exec p s k hok h := by
    simp only [pipe]
    cases k with
    | write todo =>
      cases todo with
      | nil => exact h
      | cons b todo =>
        simp only [exec]
        split
        · rename_i hf; exact ⟨h.1, h.2, hf⟩
        · rename_i hf; exact ⟨fun hs => absurd (h.1 hs).1 hf, h.2⟩
    | writeFull todo =>
      simp only [exec]
      split
      · exact h
      · rename_i hc
        rw [not_or, Bool.not_eq_false] at hc
        exact ⟨h.1, h.2.1, h.2.2, hc.1⟩
    | writeWake todo => exact ⟨writersKept_wakeup h.1, not_asleep_wakeup s _, h.2.2⟩
    | writeSleep todo =>
      exact ⟨readersKept_of_awake fun hs => h.2.1 (asleep_sleep_ne (by decide) hs), fun _ => h.2.2⟩
    | writeFail => exact ⟨readersKept_of_awake fun hs => hok ⟨rfl, hs⟩, h.1⟩
    | writeDone => exact ⟨readersKept_of_awake (not_asleep_wakeup s _), writersKept_wakeup h.1⟩
    | read n =>
      simp only [exec]
      split
      · rename_i hc; exact ⟨h.1, h.2, hc⟩
      · exact ⟨h.1, fun hs => (h.2 hs).2⟩
    | readEmpty n =>
      simp only [exec]
      split
      · exact ⟨h.1, h.2.1⟩
      · exact h
    | readSleep n => exact ⟨fun _ => h.2.2, fun hs => h.2.1 (asleep_sleep_ne (by decide) hs)⟩
    | copy n addr =>
      cases n with
      | zero => exact h
      | succ n =>
        simp only [exec]
        split
        · exact h
        · rename_i he; exact ⟨fun hs => absurd (h.1 hs).1 he, h.2⟩
    | readDone addr => exact ⟨readersKept_wakeup h.1, writersKept_of_awake (not_asleep_wakeup s _)⟩
    | release addr => exact h
    | close w =>
      cases w with
      | true => exact ⟨h.2, fun hs => (h.1 hs).1⟩
      | false => exact ⟨h.1, fun hs => (h.2 hs).1⟩
    | closeWake w =>
      cases w with
      | true => exact ⟨readersKept_of_awake (not_asleep_wakeup s _), writersKept_wakeup h.1⟩
      | false => exact ⟨readersKept_wakeup h.1, writersKept_of_awake (not_asleep_wakeup s _)⟩
    | closeLast => exact h

/-- With the lock free, no wakeup is missing. -/
def NoneLost (s : St P (Pipe P) Code Call) : Prop := s.lock = none → ReadersKept s.data ∧ WritersKept s.data

theorem full_not_empty (h : r.full = true) : r.empty = false := by
  have hf := (r.full_iff pipeSize_lt).mp h
  by_contra he
  have := r.empty_iff.mp (by simpa using he)
  rw [this] at hf
  exact absurd hf (by decide)

/-- A step that leaves the readers asleep frees the lock of a full pipe. -/
theorem lost_of_leaves {s : St P (Pipe P) Code Call} (h : Inv Calm s) {p : P} {k : Code} (hk : s.pc p = .locked k)
    (hb : LeavesReaders s.data k) : ¬ NoneLost (pipe.step s (.step p)) := by
  obtain ⟨rfl, ha⟩ := hb
  have hfull := (h.at_stmt hk).2.2.2
  intro hn
  simp only [step, hk, stmt, pipe, exec] at hn
  have he := ((hn rfl).1 ha).1
  rw [full_not_empty hfull] at he
  cases he

theorem kept_iff {s : St P (Pipe P) Code Call} (h : Inv Calm s) (es : List (Ev P Call P)) :
    (∀ es', es' <+: es → NoneLost (pipe.runs s es')) ↔ pipe.Along (Stmts fun _ d k => ¬ LeavesReaders d k) s es := by
  induction es generalizing s with
  | nil =>
    refine ⟨fun _ => trivial, fun _ es' hp => ?_⟩
    rw [List.prefix_nil.mp hp]
    exact h.lock_free
  | cons e es ih =>
    constructor
    · intro hn
      have he : Stmts (fun _ d k => ¬ LeavesReaders d k) s e := by
        cases e with
        | step p => exact fun k hk hb => lost_of_leaves h hk hb (hn [.step p] ⟨es, rfl⟩)
        | call p c => trivial
        | outside q => trivial
      exact ⟨he, (ih (h.step calm_kept e he)).mp fun es' hp => hn (e :: es') (List.cons_prefix_cons.mpr ⟨rfl, hp⟩)⟩
    · intro ⟨he, hes⟩ es' hp
      cases es' with
      | nil => exact h.lock_free
      | cons e' es' =>
        obtain ⟨rfl, hp'⟩ := List.cons_prefix_cons.mp hp
        exact (ih (h.step calm_kept e' he)).mpr hes es' hp'

omit [DecidableEq P] in
theorem calm_start (page : Nat → UInt8) : Inv Calm (St.start (pipealloc page) : St P (Pipe P) Code Call) := by
  have h : ∀ c, ¬ Asleep (pipealloc page : Pipe P) c := by
    intro c ⟨p, hp⟩
    cases hp
  exact Inv.start ⟨readersKept_of_awake (h _), writersKept_of_awake (h _)⟩

/-- No wakeup is missing in any state of a run exactly when no `pipewrite` of the run takes
    its exit on a full pipe while a reader sleeps. -/
theorem wakeups_kept_iff (page : Nat → UInt8) (es : List (Ev P Call P)) :
    (∀ es', es' <+: es → NoneLost (after page es')) ↔
      pipe.Along (Stmts fun _ d k => ¬ LeavesReaders d k) (St.start (pipealloc page)) es :=
  kept_iff (calm_start page) es

/-- A reader (`false`) goes to sleep on the empty pipe; a writer (`true`) of 513 bytes is
    killed, fills the pipe and returns -1. -/
def killedWriter : List (Ev Bool Call Bool) :=
  [.call false (.piperead 1)] ++ List.replicate 4 (.step false) ++
    [.call true (.pipewrite (List.replicate 513 7)), .outside true] ++ List.replicate 516 (.step true)

/-- The lock is free, the pipe is full and the reader still sleeps. -/
theorem killed_writer_wakes_no_reader :
    (after (fun _ => 0) killedWriter).lock = none ∧ (after (fun _ => 0) killedWriter).data.chan false = some .nread ∧
      ¬ NoneLost (after (fun _ => 0) killedWriter) := by
  have h : (after (fun _ => 0) killedWriter).lock = none ∧
      (after (fun _ => 0) killedWriter).data.chan false = some .nread ∧
      (after (fun _ => 0) killedWriter).data.ring.empty = false := by decide +kernel
  refine ⟨h.1, h.2.1, fun hn => ?_⟩
  have he := ((hn h.1).1 ⟨false, h.2.1⟩).1
  rw [h.2.2] at he
  cases he

end Xv6.Pipes
