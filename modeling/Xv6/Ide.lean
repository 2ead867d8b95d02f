/-
  Xv6.Ide — `ide.c`: the queue of disk requests.

  `iderw` appends a locked buffer to `idequeue`, starts the disk if it is the only one, and
  sleeps until the interrupt handler has marked it valid and clean; `ideintr` takes the head
  off the queue, completes it, wakes its process and starts the next. Both are code under
  `idelock` in the machine of `Xv6.Proc.Sleep`, with the queue linked through `qnext`.

  The handler is one thread (`none`): `ideinit` routes the interrupt to one CPU, where it is
  not taken again before the handler returns. The device raises one interrupt for each
  command that `idestart` issues: `ideintr` is called only while a command is in progress.

  `disk_serves_in_order`: the queue never holds a buffer twice, and its head is the one with a
  command in progress; commands are issued in the order of the calls of `iderw`, one for each,
  with the direction and the data of the buffer at the call; a call returns when its own
  command is complete, and does not sleep on after that.
-/

import Xv6.Lib.Seg
import Xv6.Param
import Xv6.Proc.Sleep

namespace Xv6.Ide

open Proc.Sleep

/-! ## `ide.c` -/

structure Buf where
  valid : Bool
  dirty : Bool
  dev : Nat
  blockno : Nat
  data : Block

/-- `(flags & (B_VALID|B_DIRTY)) == B_VALID` -/
def Buf.synced (b : Buf) : Bool := b.valid && !b.dirty

/-- The checks of `iderw` before it takes `idelock`, of a buffer that its caller has locked. -/
def iderwPanic (havedisk1 : Bool) (b : Buf) : Option String :=
  if b.synced then some "iderw: nothing to do"
  else if b.dev != 0 && !havedisk1 then some "iderw: ide disk 1 not present"
  else none

def idestartPanic (b : Buf) : Option String := if fsSize ≤ b.blockno then some "incorrect blockno" else none

/-- A buffer that `iderw` may be called with. -/
structure Request (havedisk1 : Bool) where
  buf : Buf
  accepted : iderwPanic havedisk1 buf = none

theorem Request.not_synced {havedisk1 : Bool} (r : Request havedisk1) : r.buf.synced = false := by
  have h := r.accepted
  unfold iderwPanic at h
  by_contra hs
  rw [if_pos (by simpa using hs)] at h
  cases h

/-- What `idestart` tells the device to do. -/
structure Cmd (n : Nat) where
  buf : Fin n
  write : Bool
  dev : Nat
  sector : Nat
  data : Block

/-- What `idelock` guards, the disks, and which commands the calls of `iderw` stand for
    (`queued`), which were issued (`started`) and which are complete (`done`); `returned` has
    for each call that returned its buffer, its place in `queued`, and the buffer as it was. -/
structure Driver (n : Nat) where
  idequeue : Option (Fin n)
  qnext : Fin n → Option (Fin n)
  bufs : Fin n → Buf
  disk : Nat → Disk
  command : Option (Cmd n)
  panic : Option String
  queued : List (Cmd n)
  started : List (Cmd n)
  done : List (Cmd n)
  returned : List (Fin n × Nat × Buf)

/-- An idle disk. -/
def ideinit {n : Nat} (qnext : Fin n → Option (Fin n)) (bufs : Fin n → Buf) (disk : Nat → Disk) : Driver n :=
  ⟨none, qnext, bufs, disk, none, none, [], [], [], []⟩

/-- The command for a buffer: a write if it is dirty. -/
def Buf.cmd {n : Nat} (x : Buf) (b : Fin n) : Cmd n := ⟨b, x.dirty, x.dev % 2, x.blockno * (bsize / 512), x.data⟩

variable {n : Nat} {havedisk1 : Bool}

def Driver.cmd (d : Driver n) (b : Fin n) : Cmd n := (d.bufs b).cmd b

def Driver.synced (d : Driver n) (b : Fin n) : Bool := (d.bufs b).synced

/-- `iderw`'s `b->qnext = 0` and the loop that links `b` at the end; none if the loop never ends. -/
def Driver.append (d : Driver n) (b : Fin n) : Option (Driver n) :=
  let qnext := Function.update d.qnext b none
  match d.idequeue with
  | none => some { d with qnext, idequeue := some b }
  | some a => (Lib.last qnext n a).map fun x => { d with qnext := Function.update qnext x (some b) }

/-- `idestart`: the command is in progress from here to its interrupt. -/
def Driver.idestart (d : Driver n) (b : Fin n) : Except String (Driver n) :=
  match idestartPanic (d.bufs b) with
  | some msg => .error msg
  | none => .ok { d with command := some (d.cmd b), started := d.started ++ [d.cmd b] }

/-- The device has carried out its command and raised the interrupt. -/
def Driver.interrupt (d : Driver n) : Driver n :=
  match d.command with
  | some c => { d with command := none
                       disk := if c.write then Function.update d.disk c.dev (Function.update (d.disk c.dev) c.sector c.data) else d.disk }
  | none => d

/-- `ideintr`: `insl` unless the buffer was written, then the flags. -/
def Driver.fill (d : Driver n) (b : Fin n) : Driver n :=
  let x := d.bufs b
  { d with bufs := Function.update d.bufs b { x with
             data := if x.dirty then x.data else d.disk (x.dev % 2) (x.blockno * (bsize / 512)), valid := true, dirty := false }
           done := d.done ++ [d.cmd b] }

inductive Code (n : Nat) (havedisk1 : Bool) where
  /-- `iderw` from `acquire(&idelock)`; the buffer is as its caller left it. -/
  | append (b : Fin n) (r : Request havedisk1)
  /-- `if(idequeue == b) idestart(b);` the `i`-th request. -/
  | start (b : Fin n) (i : Nat)
  /-- the test of the `while` -/
  | test (b : Fin n) (i : Nat)
  /-- `ideintr` -/
  | pop
  | fill (b : Fin n)
  /-- `if(idequeue != 0) idestart(idequeue);` -/
  | startNext

/-- `idestart` at a statement, which a panic does not leave. -/
def startAt (d : Driver n) (b : Fin n) (k : Code n havedisk1) (next : Next (Fin n) (Code n havedisk1)) :
    Driver n × Next (Fin n) (Code n havedisk1) :=
  match d.idestart b with
  | .ok d' => (d', next)
  | .error msg => ({ d with panic := some msg }, .goto k)

def exec (d : Driver n) : Code n havedisk1 → Driver n × Next (Fin n) (Code n havedisk1)
  | .append b r =>
    let d' := { d with bufs := Function.update d.bufs b r.buf }
    match d'.append b with
    | some d'' => ({ d'' with queued := d.queued ++ [r.buf.cmd b] }, .goto (.start b d.queued.length))
    | none => (d, .goto (.append b r))
  | .start b i => if d.idequeue = some b then startAt d b (.start b i) (.goto (.test b i)) else (d, .goto (.test b i))
  | .test b i =>
    if d.synced b then ({ d with returned := d.returned ++ [(b, i, d.bufs b)] }, .release none) else (d, .sleep b (.test b i))
  | .pop => match d.idequeue with
    | none => (d.interrupt, .release none)
    | some b => ({ d.interrupt with idequeue := d.qnext b }, .goto (.fill b))
  | .fill b => (d.fill b, .wakeup b .startNext)
  | .startNext => match d.idequeue with
    | none => (d, .release none)
    | some b => startAt d b .startNext (.release none)

/-- The processes call `iderw`; the interrupt handler is called for a command in progress. -/
def client (P : Type) (n : Nat) (havedisk1 : Bool) : Client (Option P) (Driver n) (Fin n) (Code n havedisk1) where
  may
    | some _, _, .append _ _ => true
    | none, d, .pop => d.command.isSome
    | _, _, _ => false
  exec _ := exec

/-! ## The queue -/

/-- The buffer that a call of `iderw` is about. -/
def Code.buf : Code n havedisk1 → Option (Fin n)
  | append b _ => some b
  | start b _ => some b
  | test b _ => some b
  | _ => none

/-- The calls of `iderw` that are under way have different buffers, each locked by its caller. -/
def Distinct {P : Type} (v : View P (Driver n) (Code n havedisk1)) (p : P) (k : Code n havedisk1) : Prop :=
  ∀ q, q ≠ p → ∀ b, k.buf = some b → (v.next q).bind Code.buf ≠ some b

/-- The buffers of `pend` are queued, `cur` is off the queue and not yet complete; the head has
    a command in progress if `busy`. -/
structure Queue (d : Driver n) (cur : Option (Fin n)) (busy : Bool) (pend : List (Fin n)) : Prop where
  seg : Lib.Seg d.qnext d.idequeue pend none
  nodup : (cur.toList ++ pend).Nodup
  queued : d.queued = d.done ++ (cur.toList ++ pend).map d.cmd
  started : d.started = d.done ++ (cur.toList ++ if busy then pend.head?.toList else []).map d.cmd
  command : d.command = if busy then pend.head?.map d.cmd else none
  todo : ∀ b ∈ cur.toList ++ pend, d.synced b = false


/-- In `iderw` on `b` as the `i`-th request, past the append. -/
def Waits (o : Option (Code n havedisk1)) (b : Fin n) (i : Nat) : Prop := o = some (.start b i) ∨ o = some (.test b i)

/-- The `i`-th request is for `b`: one of those not complete, or the last for `b` that is. -/
def Placed (d : Driver n) (active : List (Fin n)) (b : Fin n) (i : Nat) : Prop :=
  (∃ j, active[j]? = some b ∧ i = d.done.length + j) ∨ (b ∉ active ∧ ∃ c, d.done[i]? = some c ∧ c.buf = b)

variable {P T : Type} [DecidableEq T]

/-- No two calls of `iderw` on one buffer. -/
def Apart (next : T → Option (Code n havedisk1)) : Prop :=
  ∀ p q b, (next p).bind Code.buf = some b → (next q).bind Code.buf = some b → p = q

structure Good (d : Driver n) (next : T → Option (Code n havedisk1)) (cur : Option (Fin n)) (busy : Bool) (pend : List (Fin n)) : Prop where
  queue : Queue d cur busy pend
  placed : ∀ p b i, Waits (next p) b i → Placed d (cur.toList ++ pend) b i
  waited : ∀ b ∈ cur.toList ++ pend, ∃ p i, Waits (next p) b i
  apart : Apart next
  returned : ∀ x ∈ d.returned, x.2.2.synced = true ∧ ∃ c, d.done[x.2.1]? = some c ∧ c.buf = x.1

variable {d : Driver n} {next : T → Option (Code n havedisk1)} {cur : Option (Fin n)} {busy : Bool} {pend : List (Fin n)} {p : T} {b : Fin n} {i : Nat}

variable {o : Option (Code n havedisk1)}

omit [DecidableEq T] in
theorem Waits.buf (h : Waits o b i) : o.bind Code.buf = some b := by
  rcases h with h | h <;> rw [h] <;> rfl

theorem Apart.update (h : Apart next)
    (ho : ∀ b, o.bind Code.buf = some b → ∀ q, q ≠ p → (next q).bind Code.buf ≠ some b) : Apart (Function.update next p o) := by
  intro q r b hq hr
  have := h q r b
  have := ho b
  grind

/-- A thread goes on with the same buffer, or none. -/
theorem Apart.goOn (h : Apart next) (ho : ∀ b, o.bind Code.buf = some b → (next p).bind Code.buf = some b) :
    Apart (Function.update next p o) :=
  h.update fun b hb q hq hb' => hq (h q p b hb' (ho b hb))

theorem waits_update (ho : ∀ b i, Waits o b i ↔ Waits (next p) b i) (q : T) (b : Fin n) (i : Nat) :
    Waits (Function.update next p o q) b i ↔ Waits (next q) b i := by
  by_cases e : q = p
  · simpa [e] using ho b i
  · simp [e]

variable {d' : Driver n}

/-- A statement that completes no request. -/
theorem Good.goOn (h : Good d next cur busy pend) {cur' : Option (Fin n)} {busy' : Bool} {pend' : List (Fin n)}
    (hq : Queue d' cur' busy' pend') (ha : cur'.toList ++ pend' = cur.toList ++ pend) (hd : d'.done = d.done)
    (hr : d'.returned = d.returned) (ho : ∀ b i, Waits o b i ↔ Waits (next p) b i)
    (hb : ∀ b, o.bind Code.buf = some b → (next p).bind Code.buf = some b) :
    Good d' (Function.update next p o) cur' busy' pend' := by
  refine ⟨hq, fun q b i hw => ?_, fun b hm => ?_, h.apart.goOn hb, fun x hx => ?_⟩
  · rw [ha, Placed, hd]
    exact h.placed q b i ((waits_update ho q b i).1 hw)
  · rw [ha] at hm
    obtain ⟨q, i, hw⟩ := h.waited b hm
    exact ⟨q, i, (waits_update ho q b i).2 hw⟩
  · rw [hr] at hx
    rw [hd]
    exact h.returned x hx

variable {r : Request havedisk1}

omit [DecidableEq T] in
/-- A buffer with a call of `iderw` that has not appended it is not queued. -/
theorem Good.not_queued (h : Good d next cur busy pend) (hp : next p = some (.append b r)) :
    b ∉ cur.toList ++ pend := by
  intro hb
  obtain ⟨q, i, hq⟩ := h.waited b hb
  obtain rfl : q = p := h.apart q p b hq.buf (by rw [hp]; rfl)
  rw [hp] at hq
  rcases hq with e | e <;> cases e

/-! ## The statements -/

/-- The loop of `iderw` ends, with `b` behind the others. -/
theorem append_spec (hs : Lib.Seg d.qnext d.idequeue pend none) (hd : pend.Nodup) (hb : b ∉ pend) :
    ∃ qnext idequeue, d.append b = some { d with qnext := qnext, idequeue := idequeue } ∧
      Lib.Seg qnext idequeue (pend ++ [b]) none := by
  have hs' : Lib.Seg (Function.update d.qnext b none) d.idequeue pend none := (Lib.Seg.update hb).2 hs
  have hn : Function.update d.qnext b none b = none := Function.update_self ..
  cases hq : d.idequeue with
  | none =>
    have hp : pend = [] := by
      cases pend with
      | nil => rfl
      | cons a l => rw [hq] at hs; cases hs.1
    subst hp
    exact ⟨_, some b, by simp only [Driver.append, hq], ⟨rfl, hn⟩⟩
  | some a =>
    rw [hq] at hs'
    have hlen : pend.length ≤ n := by simpa using hd.length_le_card
    obtain ⟨l, x, hl, hx⟩ := Lib.last_of_seg hs' hlen
    subst hl
    exact ⟨_, some a, by simp only [Driver.append, hq, hx, Option.map_some], hs'.snoc hd hb hn⟩

omit [DecidableEq T] in
theorem map_cmd_congr {l : List (Fin n)} (h : ∀ a ∈ l, d'.bufs a = d.bufs a) : l.map d'.cmd = l.map d.cmd :=
  List.map_congr_left fun a ha => by rw [Driver.cmd, Driver.cmd, h a ha]

/-- Whether the head of the queue has been started, while `iderw` is about to see to it. -/
def Driver.going (d : Driver n) (b : Fin n) : Bool := d.idequeue ≠ some b

theorem Queue.append (h : Queue d none true pend) {x : Buf} (hb : b ∉ pend) (hx : x.synced = false)
    (hbufs : d'.bufs = Function.update d.bufs b x) (hq : d'.queued = d.queued ++ [x.cmd b]) (hst : d'.started = d.started)
    (hdn : d'.done = d.done) (hc : d'.command = d.command) (hs : Lib.Seg d'.qnext d'.idequeue (pend ++ [b]) none) :
    Queue d' none (d'.going b) (pend ++ [b]) := by
  have hne : ∀ a ∈ pend, d'.bufs a = d.bufs a := fun a ha => by
    rw [hbufs, Function.update_of_ne (fun e : a = b => hb (e ▸ ha))]
  have hself : d'.bufs b = x := by rw [hbufs, Function.update_self]
  have hcmd : (pend ++ [b]).map d'.cmd = pend.map d.cmd ++ [x.cmd b] := by
    rw [List.map_append, map_cmd_congr hne, List.map_singleton, Driver.cmd, hself]
  have hgo : d'.going b = !pend.isEmpty := by
    cases pend with
    | nil => simp [Driver.going, show d'.idequeue = some b from hs.1]
    | cons a l => simp [Driver.going, show d'.idequeue = some a from hs.1, Ne.symm (List.ne_of_not_mem_cons hb)]
  refine ⟨hs, ?_, ?_, ?_, ?_, fun a ha => ?_⟩
  · show (pend ++ [b]).Nodup
    exact List.nodup_append.2 ⟨h.nodup, List.nodup_singleton b, by grind⟩
  · have hold : d.queued = d.done ++ pend.map d.cmd := h.queued
    show d'.queued = d'.done ++ (pend ++ [b]).map d'.cmd
    rw [hq, hdn, hcmd, hold, List.append_assoc]
  · rw [hst, hdn, h.started, hgo]
    cases pend with
    | nil => rfl
    | cons a l => simp [Driver.cmd, hne a List.mem_cons_self]
  · rw [hc, h.command, hgo]
    cases pend with
    | nil => rfl
    | cons a l => simp [Driver.cmd, hne a List.mem_cons_self]
  · rw [Driver.synced]
    rcases List.mem_append.1 (show a ∈ pend ++ [b] from ha) with ha | ha
    · rw [hne a ha]; exact h.todo a ha
    · rw [List.mem_singleton.1 ha, hself]; exact hx

omit [DecidableEq T] in
theorem exec_append (h : Driver.append { d with bufs := Function.update d.bufs b r.buf } b = some d') :
    exec d (.append b r) = ({ d' with queued := d.queued ++ [r.buf.cmd b] }, .goto (.start b d.queued.length)) := by
  simp only [exec, h]

/-- `idestart` of the head, which has no command yet. -/
theorem Queue.idestart (h : Queue d none false (b :: pend)) (hs : d.idestart b = .ok d') : Queue d' none true (b :: pend) := by
  unfold Driver.idestart at hs
  split at hs
  · cases hs
  · obtain rfl := Except.ok.inj hs
    refine ⟨h.seg, h.nodup, h.queued, ?_, rfl, h.todo⟩
    have hst : d.started = d.done := h.started.trans (List.append_nil _)
    exact congrArg (· ++ [d.cmd b]) hst

omit [DecidableEq T] in
theorem idestart_frame (hs : d.idestart b = .ok d') : d'.done = d.done ∧ d'.returned = d.returned := by
  unfold Driver.idestart at hs
  split at hs
  · cases hs
  · obtain rfl := Except.ok.inj hs
    exact ⟨rfl, rfl⟩

theorem Queue.panic (h : Queue d cur busy pend) (msg : Option String) : Queue { d with panic := msg } cur busy pend :=
  ⟨h.seg, h.nodup, h.queued, h.started, h.command, h.todo⟩

omit [DecidableEq T] in
theorem startAt_cases (d : Driver n) (b : Fin n) (k : Code n havedisk1) (nx : Next (Fin n) (Code n havedisk1)) :
    (∃ d', d.idestart b = .ok d' ∧ startAt d b k nx = (d', nx)) ∨
    (∃ msg, startAt d b k nx = ({ d with panic := some msg }, .goto k)) := by
  unfold startAt
  split
  · rename_i d' hd
    exact .inl ⟨d', hd, rfl⟩
  · rename_i msg _
    exact .inr ⟨msg, rfl⟩

/-- The buffer off the queue, and whether the head has been started, at each statement under `idelock`. -/
def curOf : Option (T × Code n havedisk1) → Option (Fin n)
  | some (_, .fill b) => some b
  | _ => none

def busyOf (d : Driver n) : Option (T × Code n havedisk1) → Bool
  | some (_, .start b _) => d.going b
  | some (_, .fill _) => false
  | some (_, .startNext) => false
  | _ => true

/-- The statement has been executed, and the invariant holds as it should at the next. -/
def Steps (next : T → Option (Code n havedisk1)) (p : T) (e : Driver n × Next (Fin n) (Code n havedisk1)) : Prop :=
  ∃ pend, Good e.1 (Function.update next p e.2.code) (curOf (e.2.within.map (p, ·))) (busyOf e.1 (e.2.within.map (p, ·))) pend

theorem Steps.mk {e : Driver n × Next (Fin n) (Code n havedisk1)} {nx : Next (Fin n) (Code n havedisk1)} (he : e = (d', nx))
    (hc : curOf (nx.within.map (p, ·)) = cur) (hb : busyOf d' (nx.within.map (p, ·)) = busy)
    (h : Good d' (Function.update next p nx.code) cur busy pend) : Steps next p e := by
  subst he hc hb
  exact ⟨pend, h⟩

theorem Good.appended (h : Good d next none true pend) (hp : next p = some (.append b r))
    (hq : Queue d' none (d'.going b) (pend ++ [b])) (hd : d'.done = d.done) (hr : d'.returned = d.returned) :
    Good d' (Function.update next p (some (.start b d.queued.length))) none (d'.going b) (pend ++ [b]) := by
  have hb : b ∉ pend := h.not_queued hp
  have hmem : ∀ a ∈ none.toList ++ (pend ++ [b]), a ∈ pend ∨ a = b := fun a ha => by simpa using ha
  refine ⟨hq, fun q a j hw => ?_, fun a ha => ?_, h.apart.goOn fun c hc => by rw [hp]; exact hc, fun x hx => ?_⟩
  · rw [Placed, hd]
    by_cases e : q = p
    · rw [e, Function.update_self] at hw
      obtain ⟨rfl, rfl⟩ : b = a ∧ d.queued.length = j := by rcases hw with e | e <;> cases e; exact ⟨rfl, rfl⟩
      refine .inl ⟨pend.length, by simp, ?_⟩
      rw [h.queue.queued]
      simp
    · rw [Function.update_of_ne e] at hw
      rcases h.placed q a j hw with ⟨l, hl, hj⟩ | ⟨hn, hc⟩
      · have hl' : pend[l]? = some a := hl
        refine .inl ⟨l, ?_, hj⟩
        show (pend ++ [b])[l]? = some a
        rw [List.getElem?_append_left (List.getElem?_eq_some_iff.1 hl').1, hl']
      · refine .inr ⟨fun ha => ?_, hc⟩
        rcases hmem a ha with ha | rfl
        · exact hn ha
        · exact e (h.apart q p a (Waits.buf hw) (by rw [hp]; rfl))
  · rcases hmem a ha with ha | rfl
    · obtain ⟨q, j, hq⟩ := h.waited a ha
      exact ⟨q, j, by grind [Waits]⟩
    · exact ⟨p, _, .inl (Function.update_self ..)⟩
  · rw [hr] at hx
    rw [hd]
    exact h.returned x hx

theorem Good.append (h : Good d next none true pend) (hp : next p = some (.append b r)) :
    Steps next p (exec d (.append b r)) := by
  have hb : b ∉ pend := h.not_queued hp
  obtain ⟨qnext, idq, ha, hs⟩ :=
    append_spec (d := { d with bufs := Function.update d.bufs b r.buf }) h.queue.seg h.queue.nodup hb
  rw [exec_append ha]
  exact ⟨pend ++ [b], h.appended hp (h.queue.append hb r.not_synced rfl rfl rfl rfl rfl hs) rfl rfl⟩

theorem Good.start (h : Good d next none (d.going b) pend) (hp : next p = some (.start b i)) : Steps next p (exec d (.start b i)) := by
  have hw : ∀ a j, Waits (some (.test b i) : Option (Code n havedisk1)) a j ↔ Waits (next p) a j := by
    grind [Waits]
  by_cases hq : d.idequeue = some b
  · obtain ⟨l, rfl⟩ : ∃ l, pend = b :: l := by
      cases pend with
      | nil => rw [show d.idequeue = none from h.queue.seg] at hq; cases hq
      | cons a l => exact ⟨l, by rw [Option.some.inj (h.queue.seg.1.symm.trans hq)]⟩
    have hg : d.going b = false := decide_eq_false fun hn => hn hq
    have he : exec d (.start b i : Code n havedisk1) = startAt d b (.start b i) (.goto (.test b i)) := if_pos hq
    rcases startAt_cases d b (.start b i : Code n havedisk1) (.goto (.test b i)) with ⟨d', hd, hs⟩ | ⟨msg, hs⟩
    · obtain ⟨h1, h2⟩ := idestart_frame hd
      have hqs : Queue d none false (b :: l) := hg ▸ h.queue
      exact .mk (he.trans hs) rfl rfl (h.goOn (hqs.idestart hd) rfl h1 h2 hw fun a ha => by rw [hp]; exact ha)
    · exact .mk (he.trans hs) rfl rfl
        (h.goOn (h.queue.panic (some msg)) rfl rfl rfl (fun a j => by rw [hp]; rfl) fun a ha => by rw [hp]; exact ha)
  · have hqs : Queue d none true pend := (show d.going b = true from decide_eq_true hq) ▸ h.queue
    have he : exec d (.start b i : Code n havedisk1) = (d, .goto (.test b i)) := if_neg hq
    exact .mk he rfl rfl (h.goOn hqs rfl rfl rfl hw fun a ha => by rw [hp]; exact ha)

variable {k : Code n havedisk1}

/-- No one waits at the handler's statements. -/
theorem not_waits (hk : k.buf = none) (b : Fin n) (i : Nat) : ¬ Waits (some k) b i := by
  intro h
  rcases h with e | e <;> rw [Option.some.inj e] at hk <;> cases hk

/-- The handler goes on. -/
theorem Good.handler (h : Good d next cur busy pend) (hp : next p = some k) (hk : k.buf = none)
    {cur' : Option (Fin n)} {busy' : Bool} {pend' : List (Fin n)} (hq : Queue d' cur' busy' pend') (ha : cur'.toList ++ pend' = cur.toList ++ pend)
    (hd : d'.done = d.done) (hr : d'.returned = d.returned) (ho : o.bind Code.buf = none) :
    Good d' (Function.update next p o) cur' busy' pend' := by
  refine h.goOn hq ha hd hr (fun b i => ?_) (fun b hb => by rw [ho] at hb; cases hb)
  rw [hp]
  refine ⟨fun hw => ?_, fun hw => absurd hw (not_waits hk b i)⟩
  rw [hw.buf] at ho
  cases ho

theorem Good.startNext (h : Good d next none false pend) (hp : next p = some .startNext) : Steps next p (exec d .startNext) := by
  cases pend with
  | nil =>
    have he : exec d (.startNext : Code n havedisk1) = (d, .release none) := by
      simp only [exec, show d.idequeue = none from h.queue.seg]
    have hq : Queue d none true [] := ⟨h.queue.seg, h.queue.nodup, h.queue.queued, h.queue.started, h.queue.command, h.queue.todo⟩
    exact .mk he rfl rfl (h.handler hp rfl hq rfl rfl rfl rfl)
  | cons b l =>
    have he : exec d (.startNext : Code n havedisk1) = startAt d b .startNext (.release none) := by
      simp only [exec, show d.idequeue = some b from h.queue.seg.1]
    rcases startAt_cases d b (.startNext : Code n havedisk1) (.release none) with ⟨d', hd, hs⟩ | ⟨msg, hs⟩
    · obtain ⟨h1, h2⟩ := idestart_frame hd
      exact .mk (he.trans hs) rfl rfl (h.handler hp rfl (h.queue.idestart hd) rfl h1 h2 rfl)
    · exact .mk (he.trans hs) rfl rfl (h.handler hp rfl (h.queue.panic (some msg)) rfl rfl rfl rfl)

theorem Good.test (h : Good d next none true pend) (hp : next p = some (.test b i)) : Steps next p (exec d (.test b i)) := by
  refine ⟨pend, ?_⟩
  simp only [exec]
  split
  · rename_i hs
    have hb : b ∉ pend := fun hb => by rw [h.queue.todo b hb] at hs; cases hs
    refine ⟨⟨h.queue.seg, h.queue.nodup, h.queue.queued, h.queue.started, h.queue.command, h.queue.todo⟩, fun q a j hq => ?_,
      fun a ha => ?_, h.apart.goOn (fun _ hc => nomatch hc), fun x hx => ?_⟩
    · exact h.placed q a j (by grind [Waits, Next.code])
    · obtain ⟨q, j, hq⟩ := h.waited a ha
      have ha : a ∈ pend := ha
      exact ⟨q, j, by grind [Waits]⟩
    · rcases List.mem_append.1 hx with hx | hx
      · exact h.returned x hx
      · rw [List.mem_singleton.1 hx]
        rcases h.placed p b i (.inr hp) with ⟨j, hj, _⟩ | ⟨_, hc⟩
        · exact absurd (List.mem_of_getElem? hj) hb
        · exact ⟨hs, hc⟩
  · exact h.goOn h.queue rfl rfl rfl (fun a j => by rw [hp]; rfl) (fun a ha => by rw [hp]; exact ha)

theorem Queue.pop (h : Queue d none true (b :: pend)) :
    Queue { d.interrupt with idequeue := d.qnext b } (some b) false pend ∧ d.interrupt.done = d.done ∧ d.interrupt.returned = d.returned := by
  have hc : d.command = some (d.cmd b) := h.command
  rw [Driver.interrupt, hc]
  exact ⟨⟨h.seg.2, h.nodup, h.queued, h.started, rfl, h.todo⟩, rfl, rfl⟩

theorem Good.pop (h : Good d next none true pend) (hp : next p = some .pop) : Steps next p (exec d .pop) := by
  cases pend with
  | nil =>
    have hc : d.command = none := h.queue.command
    have he : exec d (.pop : Code n havedisk1) = (d, .release none) := by
      simp only [exec, show d.idequeue = none from h.queue.seg, Driver.interrupt, hc]
    exact .mk he rfl rfl (h.handler hp rfl h.queue rfl rfl rfl rfl)
  | cons b l =>
    have he : exec d (.pop : Code n havedisk1) = ({ d.interrupt with idequeue := d.qnext b }, .goto (.fill b)) := by
      simp only [exec, show d.idequeue = some b from h.queue.seg.1]
    obtain ⟨hq, hd, hr⟩ := h.queue.pop
    exact .mk he rfl rfl (h.handler hp rfl hq rfl hd hr rfl)

theorem Good.fill (h : Good d next (some b) false pend) (hp : next p = some (.fill b)) : Steps next p (exec d (.fill b)) := by
  have hb : b ∉ pend := (List.nodup_cons.1 h.queue.nodup).1
  have hne : ∀ a ∈ pend, (d.fill b).bufs a = d.bufs a := fun a ha => Function.update_of_ne (fun e : a = b => hb (e ▸ ha)) _ _
  have hw : ∀ q a j, Waits (Function.update next p (some .startNext) q) a j ↔ Waits (next q) a j :=
    waits_update fun a j => by grind [Waits]
  refine .mk (show exec d (.fill b : Code n havedisk1) = (d.fill b, .wakeup b .startNext) from rfl) rfl rfl ⟨⟨h.queue.seg, (List.nodup_cons.1 h.queue.nodup).2, ?_, ?_, h.queue.command, fun a ha => ?_⟩, fun q a j hq => ?_,
    fun a ha => ?_, h.apart.goOn (fun _ hc => nomatch hc), fun x hx => ?_⟩
  · show d.queued = d.done ++ [d.cmd b] ++ pend.map (d.fill b).cmd
    rw [map_cmd_congr hne, h.queue.queued, List.append_assoc]
    rfl
  · exact h.queue.started.trans (List.append_nil _).symm
  · rw [Driver.synced, hne a ha]
    exact h.queue.todo a (List.mem_cons_of_mem b ha)
  · have hdone : (d.fill b).done = d.done ++ [d.cmd b] := rfl
    rcases h.placed q a j ((hw q a j).1 hq) with ⟨m, hm, hj⟩ | ⟨hn, c, hc, hca⟩
    · cases m with
      | zero =>
        obtain rfl : b = a := Option.some.inj hm
        refine .inr ⟨hb, d.cmd b, ?_, rfl⟩
        rw [hdone, hj]
        simp
      | succ m =>
        refine .inl ⟨m, hm, ?_⟩
        rw [hdone, hj, List.length_append, List.length_singleton]
        omega
    · refine .inr ⟨fun ha => hn (List.mem_cons_of_mem b ha), c, ?_, hca⟩
      rw [hdone, List.getElem?_append_left (List.getElem?_eq_some_iff.1 hc).1]
      exact hc
  · obtain ⟨q, j, hq⟩ := h.waited a (List.mem_cons_of_mem b ha)
    exact ⟨q, j, (hw q a j).2 hq⟩
  · obtain ⟨hs, c, hc, hcb⟩ := h.returned x hx
    refine ⟨hs, c, ?_, hcb⟩
    show (d.done ++ [d.cmd b])[x.2.1]? = some c
    rw [List.getElem?_append_left (List.getElem?_eq_some_iff.1 hc).1]
    exact hc

/-! ## Every run -/

/-- Where `idelock` is taken, on entry or after `sleep`. -/
def Code.entry : Code n havedisk1 → Bool
  | append _ _ => true
  | test _ _ => true
  | pop => true
  | _ => false

structure Used (v : View T (Driver n) (Code n havedisk1)) : Prop where
  good : ∃ pend, Good v.data v.next (curOf v.inside) (busyOf v.data v.inside) pend
  entry : ∀ p k, v.next p = some k → v.inside = some (p, k) ∨ k.entry = true

omit [DecidableEq T] in
theorem startAt_sleep {nx : Next (Fin n) (Code n havedisk1)} {ch : Fin n} {l : Code n havedisk1}
    (h : (startAt d b k nx).2 = .sleep ch l) : nx = .sleep ch l := by
  rcases startAt_cases d b k nx with ⟨d', _, he⟩ | ⟨msg, he⟩ <;> rw [he] at h
  · exact h
  · cases h

omit [DecidableEq T] in
/-- Only the loop of `iderw` sleeps. -/
theorem exec_sleep {k' : Code n havedisk1} {ch : Fin n} (h : (exec d k).2 = .sleep ch k') :
    ∃ i, k' = .test ch i ∧ (exec d k).1 = d ∧ d.synced ch = false := by
  cases k with
  | test b i =>
    by_cases hs : d.synced b = true
    · rw [exec, if_pos hs] at h; cases h
    · have he : exec d (.test b i : Code n havedisk1) = (d, .sleep b (.test b i)) := if_neg hs
      rw [he] at h ⊢
      cases h
      exact ⟨i, rfl, rfl, Bool.eq_false_of_not_eq_true hs⟩
  | _ =>
    simp only [exec] at h
    try split at h
    all_goals first | cases h | cases startAt_sleep h

omit [DecidableEq T] in
/-- Only `sleep` gives up the lock before the end. -/
theorem exec_entry (d : Driver n) (k k' : Code n havedisk1) (h : (exec d k).2.code = some k') :
    (exec d k).2.within = some k' ∨ k'.entry = true := by
  cases hx : (exec d k).2 with
  | goto _ | wakeup _ _ => rw [hx] at h; exact .inl h
  | release _ => rw [hx] at h; cases h
  | sleep ch l =>
    rw [hx] at h
    obtain rfl := Option.some.inj h
    obtain ⟨i, rfl, _⟩ := exec_sleep hx
    exact .inr rfl

theorem Good.call (h : Good d next cur busy pend) (hn : next p = none) (hk : ∀ b i, ¬ Waits (some k) b i)
    (hd : ∀ q, q ≠ p → ∀ b, k.buf = some b → (next q).bind Code.buf ≠ some b) : Good d (Function.update next p (some k)) cur busy pend := by
  have hw : ∀ q b i, Waits (Function.update next p (some k) q) b i ↔ Waits (next q) b i :=
    waits_update fun b i => ⟨fun hw => absurd hw (hk b i), fun hw => by rw [hn] at hw; rcases hw with e | e <;> cases e⟩
  refine ⟨h.queue, fun q b i hq => h.placed q b i ((hw q b i).1 hq), fun b hb => ?_, h.apart.update fun b hb q hq => hd q hq b hb, h.returned⟩
  obtain ⟨q, i, hq⟩ := h.waited b hb
  exact ⟨q, i, (hw q b i).2 hq⟩

theorem Used.exec {v : View (Option P) (Driver n) (Code n havedisk1)} [DecidableEq P] (h : Used v) {p : Option P}
    (hin : v.inside = some (p, k)) (hk : v.next p = some k) : Steps v.next p (exec v.data k) := by
  obtain ⟨pend, hg⟩ := h.good
  rw [hin] at hg
  cases k with
  | append b r => exact hg.append hk
  | start b i => exact hg.start hk
  | test b i => exact hg.test hk
  | pop => exact hg.pop hk
  | fill b => exact hg.fill hk
  | startNext => exact hg.startNext hk

theorem may_entry {p : Option P} {d : Driver n} (h : (client P n havedisk1).may p d k = true) :
    k.entry = true ∧ ∀ b i, ¬ Waits (some k) b i := by
  have hno : k.entry = true ∧ ∀ b i, k ≠ .start b i ∧ k ≠ .test b i := by
    cases k <;> cases p <;> simp_all [client, Code.entry]
  refine ⟨hno.1, fun b i hw => ?_⟩
  rcases hw with e | e
  · exact (hno.2 b i).1 (Option.some.inj e)
  · exact (hno.2 b i).2 (Option.some.inj e)

theorem keeps [DecidableEq P] : Keeps (client P n havedisk1) Distinct Used := by
  refine ⟨fun v p k h hn hm hd => ?_, fun v p k h hin hk => ?_, fun v p k h hin hk => ?_⟩
  · obtain ⟨he, hw⟩ := may_entry hm
    obtain ⟨pend, hg⟩ := h.good
    refine ⟨⟨pend, hg.call hn hw hd⟩, fun q k' hq => ?_⟩
    have := h.entry q k'
    by_cases e : q = p <;> simp_all
  · have hent : ∀ q k', v.next q = some k' → k'.entry = true := fun q k' hq =>
      (h.entry q k' hq).resolve_left (by simp [hin])
    obtain ⟨pend, hg⟩ := h.good
    rw [hin] at hg
    refine ⟨⟨pend, ?_⟩, fun q k' hq => .inr (hent q k' hq)⟩
    have he := hent p k hk
    cases k <;> first | exact hg | cases he
  · refine ⟨h.exec hin hk, fun q k' hq => ?_⟩
    by_cases e : q = p
    · subst e
      simp only [View.exec, client, Function.update_self] at hq ⊢
      rcases exec_entry v.data k k' hq with e | e
      · exact .inl (by rw [e]; rfl)
      · exact .inr e
    · simp only [View.exec, Function.update_of_ne e] at hq
      rcases h.entry q k' hq with e' | e'
      · rw [hin] at e'
        exact absurd (congrArg Prod.fst (Option.some.inj e')).symm e
      · exact .inr e'

theorem used_init (qnext : Fin n → Option (Fin n)) (bufs : Fin n → Buf) (disk : Nat → Disk) :
    Used (⟨ideinit qnext bufs disk, fun _ => none, none⟩ : View (Option P) (Driver n) (Code n havedisk1)) := by
  refine ⟨⟨[], ⟨rfl, List.nodup_nil, rfl, rfl, rfl, (fun _ hb => nomatch hb)⟩, fun p b i hw => ?_, (fun _ hb => nomatch hb),
    (fun _ _ _ hp => nomatch hp), (fun _ hx => nomatch hx)⟩, fun _ _ hp => nomatch hp⟩
  rcases hw with e | e <;> cases e

omit [DecidableEq T] in
theorem startAt_bufs (d : Driver n) (b : Fin n) (k : Code n havedisk1) (nx : Next (Fin n) (Code n havedisk1)) :
    (startAt d b k nx).1.bufs = d.bufs := by
  unfold startAt Driver.idestart
  cases idestartPanic (d.bufs b) <;> rfl

omit [DecidableEq T] in
theorem append_bufs (h : d.append b = some d') : d'.bufs = d.bufs := by
  unfold Driver.append at h
  split at h
  · cases h; rfl
  · obtain ⟨x, _, rfl⟩ := Option.map_eq_some_iff.1 h
    rfl

omit [DecidableEq T] in
theorem interrupt_bufs (d : Driver n) : d.interrupt.bufs = d.bufs := by
  unfold Driver.interrupt
  split <;> rfl

omit [DecidableEq T] in
/-- Only the handler makes a buffer valid and clean. -/
theorem exec_synced {c : Fin n} (h : (exec d k).1.synced c = true) : d.synced c = true ∨ k = .fill c := by
  cases k with
  | append b r =>
    simp only [exec] at h
    split at h
    · rename_i d' hd
      have hb : d'.bufs = Function.update d.bufs b r.buf := append_bufs hd
      have hs : (d'.bufs c).synced = true := h
      rw [hb] at hs
      have := r.not_synced
      exact .inl (show (d.bufs c).synced = true by grind)
    · exact .inl h
  | fill b =>
    by_cases e : c = b
    · exact .inr (by rw [e])
    · exact .inl (by simpa [exec, Driver.fill, Driver.synced, e] using h)
  | _ =>
    simp only [exec] at h
    try split at h
    all_goals simp only [Driver.synced, startAt_bufs, interrupt_bufs] at h; exact .inl h

/-- The wait of `iderw` is for a synced buffer, and the handler wakes who waits. -/
theorem wakes : Wakes (client P n havedisk1) (fun b d => d.synced b = true) (fun _ _ => False) := by
  refine ⟨fun p d k ch k' h hs => ?_, fun p d k ch h => ?_⟩
  · obtain ⟨_, _, hd, hn⟩ := exec_sleep h
    have hs' : (exec d k).1.synced ch = true := hs
    rw [hd, hn] at hs'
    cases hs'
  · rcases exec_synced h with hs | rfl
    · exact .inl ⟨hs, id⟩
    · exact .inr (.inl rfl)

/-- In `wakeup(b)`, before its scan of the table is done. -/
def Waking (x : Pc (Fin n) (Code n havedisk1)) (b : Fin n) : Prop := ∃ k, x = .wakeAcquire b k ∨ x = .wakeScan b k

theorem Waking.of_owes {x : Pc (Fin n) (Code n havedisk1)} (h : x.owes (fun _ _ => False) b) : Waking x b := by
  cases x <;> simp_all [Pc.owes, Waking]

theorem disk_serves_in_order [DecidableEq P] (qnext : Fin n → Option (Fin n)) (bufs : Fin n → Buf) (disk : Nat → Disk)
    (es : List (Ev (Option P) (Code n havedisk1)))
    (hd : Calls (client P n havedisk1) Distinct (.start (ideinit qnext bufs disk)) es) :
    let s := runs (client P n havedisk1) (.start (ideinit qnext bufs disk)) es
    (∃ pend, Lib.Seg s.data.qnext s.data.idequeue pend none ∧ pend.Nodup ∧
      (∀ c, s.data.command = some c → pend.head? = some c.buf) ∧
      (s.lk = none →
        s.data.command = pend.head?.map s.data.cmd ∧
        s.data.started = s.data.done ++ pend.head?.toList.map s.data.cmd ∧
        s.data.queued = s.data.done ++ pend.map s.data.cmd)) ∧
    s.data.done <+: s.data.started ∧ s.data.started <+: s.data.queued ∧
    (∀ x ∈ s.data.returned, x.2.2.valid = true ∧ x.2.2.dirty = false ∧ ∃ c, s.data.done[x.2.1]? = some c ∧ c.buf = x.1) ∧
    ∀ b, s.data.synced b = true → (∀ q, ¬ Waking (s.pc q) b) → ∀ p, ¬ (s.state p = .sleeping ∧ s.chan p = some b) := by
  intro s
  have hu : Used s.view := ((Inv.start (used_init qnext bufs disk)).runs keeps es hd).data
  obtain ⟨pend, hg⟩ := hu.good
  have hq := hg.queue
  refine ⟨⟨pend, hq.seg, (List.nodup_append.1 hq.nodup).2.1, fun c hc => ?_, fun hl => ?_⟩, ?_, ?_, fun x hx => ?_, fun b hb hw p => ?_⟩
  · have hc' := hq.command.symm.trans hc
    split at hc'
    · obtain ⟨b, hb, rfl⟩ := Option.map_eq_some_iff.1 hc'
      exact hb
    · cases hc'
  · have hin : s.view.inside = none := by
      show s.lk.bind _ = none
      rw [hl]
      rfl
    rw [hin] at hq
    exact ⟨hq.command, hq.started, hq.queued⟩
  · exact ⟨_, hq.started.symm⟩
  · have h1 : s.data.started = _ := hq.started
    have h2 : s.data.queued = _ := hq.queued
    rw [h1, h2]
    refine (List.prefix_append_right_inj _).2 ?_
    rw [List.map_append, List.map_append]
    refine (List.prefix_append_right_inj _).2 ?_
    split
    · cases pend with
      | nil => exact List.nil_prefix
      | cons a l => exact ⟨l.map s.data.cmd, rfl⟩
    · exact List.nil_prefix
  · obtain ⟨hs, hc⟩ := hg.returned x hx
    have hs' : x.2.2.valid = true ∧ x.2.2.dirty = false := by simpa [Buf.synced] using hs
    exact ⟨hs'.1, hs'.2, hc⟩
  · exact wakes.no_sleeper _ es hb (fun q hq => hw q (.of_owes hq)) p

def steps (p : Option (Fin 2)) (k : Nat) : List (Ev (Option (Fin 2)) (Code 2 true)) := List.replicate k (.step p)

def iderw (p b : Fin 2) (x : Buf) (h : iderwPanic true x = none) : List (Ev (Option (Fin 2)) (Code 2 true)) :=
  [.call (some p) (.append b ⟨x, h⟩)]

def ideintr : List (Ev (Option (Fin 2)) (Code 2 true)) := [.call none .pop]

/-- Two processes queue a read and a write; the first interrupt completes the read. -/
def readAndWrite : List (Ev (Option (Fin 2)) (Code 2 true)) :=
  iderw 0 0 ⟨false, false, 1, 7, zeroBlock⟩ (by decide) ++ steps (some 0) 1 ++ iderw 1 1 ⟨true, true, 1, 9, fun _ => 1⟩ (by decide) ++
  steps (some 0) 6 ++ steps (some 1) 7 ++ ideintr ++ steps none 8 ++ steps (some 0) 4

instance decidableDistinct [Fintype T] (v : View T (Driver n) (Code n havedisk1)) (p : T) (k : Code n havedisk1) : Decidable (Distinct v p k) :=
  inferInstanceAs (Decidable (∀ q, q ≠ p → ∀ b, k.buf = some b → (v.next q).bind Code.buf ≠ some b))

def idle : Driver 2 := ideinit (fun _ => none) (fun _ => ⟨false, false, 0, 0, zeroBlock⟩) fun _ _ => zeroBlock

theorem disk_serves_in_order_readAndWrite :
    let s := runs (client (Fin 2) 2 true) (.start idle) readAndWrite
    s.lk = none ∧ s.data.idequeue = some 1 ∧ s.data.done.map Cmd.buf = [0] ∧ s.data.queued.map Cmd.buf = [0, 1] ∧
    s.data.returned.map Prod.fst = [0] ∧ s.data.started <+: s.data.queued := by
  refine ⟨by decide +kernel, by decide +kernel, by decide +kernel, by decide +kernel, by decide +kernel, ?_⟩
  exact (disk_serves_in_order (P := Fin 2) _ _ _ readAndWrite (by decide +kernel)).2.2.1

end Xv6.Ide
