/-
  Xv6.Console — the console's line buffer (`console.c`: `input`, `consoleintr`,
  `consoleread`).

  Characters arrive, and any number of processes read, in any order. Everything happens under
  `cons.lock`: one call of `consoleintr` is a step, and so is each stretch of a `consoleread`
  from taking the lock to `sleep` or the return. `sleep` gives up the lock and wakes only by
  `wakeup(&input.r)` or `kill`. What is echoed and `procdump` are left out; `getc` yields
  bytes; `sys_read` refuses a negative `n`.

  `committed`, `taken` and `returned` are not in the code: the bytes that `input.w` has
  passed, the bytes that `input.r` has passed with the reader who moved it, and the calls
  that are over.

  A line is two lists (`Line`), what is committed and not read and what may still be edited;
  the three wrapping indices keep it (`line_key`, `pending_cons`).

    • `console_keeps_input`: over every run, the order of the indices, that editing leaves
      what is committed, that each committed byte is delivered once, in order, and what
      a ^D does.
-/

import Xv6.Lib.Ring

namespace Xv6.Console

open Lib Function List

def inputBuf : Nat := 128

/-- `C(x)`. -/
def ctrl (x : Char) : UInt8 := UInt8.ofNat (x.toNat - '@'.toNat)

def newline : UInt8 := UInt8.ofNat '\n'.toNat
def carriageReturn : UInt8 := UInt8.ofNat '\r'.toNat
def delete : UInt8 := 0x7f

structure Input where
  /-- The cell of an index is the index mod `INPUT_BUF`. -/
  buf : Nat → UInt8
  r : BitVec 32
  w : BitVec 32
  e : BitVec 32

/-- A `consoleread`: what is left of the request, the request, and the bytes stored so far. -/
structure Frame where
  n : Nat
  target : Nat
  dst : List UInt8

inductive Reader where
  | idle
  /-- About to take the lock, at the start or after `sleep`. -/
  | ready (f : Frame)
  | asleep (f : Frame)

structure Return (P : Type) where
  reader : P
  target : Nat
  dst : List UInt8
  result : Int

structure St (P : Type) where
  input : Input
  reader : P → Reader
  killed : P → Bool
  committed : List UInt8
  taken : List (P × UInt8)
  returned : List (Return P)

def start (P : Type) : St P := ⟨⟨fun _ => 0, 0, 0, 0⟩, fun _ => .idle, fun _ => false, [], [], []⟩

namespace Input

/-- The bytes from `r` to `w`. -/
def pending (s : Input) : List UInt8 := (⟨s.buf, s.r, s.w⟩ : Ring UInt8 inputBuf 32).items

/-- The bytes from `w` to `e`. -/
def edit (s : Input) : List UInt8 := (⟨s.buf, s.w, s.e⟩ : Ring UInt8 inputBuf 32).items

end Input

/-! ## `consoleintr` -/

theorem sub_one_lt {e w : BitVec 32} (h : e ≠ w) : (e - 1 - w).toNat < (e - w).toNat := by
  have hpos : 0 < (⟨fun _ => (), w, e⟩ : Ring Unit 1 32).length := by
    refine Nat.pos_of_ne_zero fun h0 => h ?_
    exact (beq_iff_eq.mp ((Ring.empty_iff _).mpr h0)).symm
  have := Ring.length_unput _ hpos
  simp only [Ring.length, Ring.unput] at this
  omega

/-- The loop of ^U. -/
def killLine (s : Input) : Input :=
  if _h : s.e ≠ s.w ∧ s.buf ((s.e - 1).toNat % inputBuf) ≠ newline then killLine { s with e := s.e - 1 } else s
termination_by (s.e - s.w).toNat
decreasing_by exact sub_one_lt _h.1

variable {P : Type}

def Reader.wake : Reader → Reader
  | .asleep f => .ready f
  | x => x

/-- `wakeup(&input.r)`. -/
def wakeup (s : St P) : St P := { s with reader := fun p => (s.reader p).wake }

/-- `input.buf[input.e++ % INPUT_BUF] = c`. -/
def store (s : Input) (c : UInt8) : Input :=
  { s with buf := Function.update s.buf (s.e.toNat % inputBuf) c, e := s.e + 1 }

def commit (s : Input) : Input := { s with w := s.e }

/-- The `default` case, once it is known that there is room. -/
def insert (s : St P) (c : UInt8) : St P :=
  let t := store s.input c
  if c = newline ∨ c = ctrl 'D' ∨ t.e = t.r + BitVec.ofNat 32 inputBuf then
    wakeup { s with input := commit t, committed := s.committed ++ t.edit }
  else { s with input := t }

/-- One character. -/
def key (s : St P) (c : UInt8) : St P :=
  if c = ctrl 'P' then s
  else if c = ctrl 'U' then { s with input := killLine s.input }
  else if c = ctrl 'H' ∨ c = delete then
    if s.input.e ≠ s.input.w then { s with input := { s.input with e := s.input.e - 1 } } else s
  else if c ≠ 0 ∧ (s.input.e - s.input.r).toNat < inputBuf then insert s (if c = carriageReturn then newline else c)
  else s

def consoleintr (s : St P) (cs : List UInt8) : St P := cs.foldl key s

/-! ## `consoleread` -/

variable [DecidableEq P]

def St.ret (s : St P) (p : P) (target : Nat) (dst : List UInt8) (result : Int) : St P :=
  { s with reader := Function.update s.reader p .idle, returned := s.returned ++ [⟨p, target, dst, result⟩] }

/-- The loop, with `n` bytes to go. -/
def readLoop (p : P) (target : Nat) : Nat → List UInt8 → St P → St P
  | 0, dst, s => s.ret p target dst target
  | n + 1, dst, s =>
    if s.input.r = s.input.w then
      if s.killed p then s.ret p target dst (-1)
      else { s with reader := Function.update s.reader p (.asleep ⟨n + 1, target, dst⟩) }
    else
      let c := s.input.buf (s.input.r.toNat % inputBuf)
      let t := { s.input with r := s.input.r + 1 }
      if c = ctrl 'D' then
        if n + 1 < target then
          -- the next read finds the ^D again
          St.ret { s with input := { t with r := t.r - 1 } } p target dst (target - (n + 1 : Nat))
        else St.ret { s with input := t, taken := s.taken ++ [(p, c)] } p target dst (target - (n + 1 : Nat))
      else
        let s := { s with input := t, taken := s.taken ++ [(p, c)] }
        if c = newline then s.ret p target (dst ++ [c]) (target - n) else readLoop p target n (dst ++ [c]) s

/-! ## Runs -/

inductive Ev (P : Type) where
  | intr (cs : List UInt8)
  | read (p : P) (n : Nat)
  | run (p : P)
  | kill (p : P)

def step (s : St P) : Ev P → St P
  | .intr cs => consoleintr s cs
  | .read p n => match s.reader p with
    | .idle => { s with reader := Function.update s.reader p (.ready ⟨n, n, []⟩) }
    | _ => s
  | .run p => match s.reader p with
    | .ready f => readLoop p f.target f.n f.dst s
    | _ => s
  | .kill p =>
    { s with killed := Function.update s.killed p true, reader := Function.update s.reader p (s.reader p).wake }

def run (s : St P) (es : List (Ev P)) : St P := es.foldl step s

/-! ## The line -/

/-- What is committed and not read, and what may still be edited. -/
structure Line where
  pending : List UInt8
  edit : List UInt8

def Line.insert (l : Line) (c : UInt8) : Line :=
  if c = newline ∨ c = ctrl 'D' ∨ l.pending.length + l.edit.length + 1 = inputBuf then ⟨l.pending ++ (l.edit ++ [c]), []⟩
  else { l with edit := l.edit ++ [c] }

def Line.key (l : Line) (c : UInt8) : Line :=
  if c = ctrl 'P' then l
  else if c = ctrl 'U' then { l with edit := [] }
  else if c = ctrl 'H' ∨ c = delete then { l with edit := l.edit.dropLast }
  else if c ≠ 0 ∧ l.pending.length + l.edit.length < inputBuf then l.insert (if c = carriageReturn then newline else c)
  else l

namespace Input

def line (s : Input) : Line := ⟨s.pending, s.edit⟩

/-- The indices are in order, at most `INPUT_BUF` apart, and no line end is being edited. -/
structure Valid (s : Input) : Prop where
  fits : s.pending.length + s.edit.length ≤ inputBuf
  line : newline ∉ s.edit

variable {s : Input}

theorem inputBuf_lt : inputBuf < 2 ^ 32 := by decide

theorem inputBuf_dvd : inputBuf ∣ 2 ^ 32 := ⟨2 ^ 25, by decide⟩

theorem length_pending (s : Input) : s.pending.length = (s.w - s.r).toNat := Ring.length_items _

theorem length_edit (s : Input) : s.edit.length = (s.e - s.w).toNat := Ring.length_items _

theorem length_eq (h : s.pending.length + s.edit.length ≤ inputBuf) :
    (s.e - s.r).toNat = s.pending.length + s.edit.length := by
  have hlt := inputBuf_lt
  rw [length_pending, length_edit] at h ⊢
  exact Ring.length_join _ _ _ (by omega)

theorem full_iff (h : s.pending.length + s.edit.length ≤ inputBuf) :
    s.e = s.r + BitVec.ofNat 32 inputBuf ↔ s.pending.length + s.edit.length = inputBuf := by
  rw [← length_eq h]
  exact beq_iff_eq.symm.trans (Ring.full_iff (⟨s.buf, s.r, s.e⟩ : Ring UInt8 inputBuf 32) inputBuf_lt)

theorem pending_eq_nil : s.pending = [] ↔ s.r = s.w := by
  rw [← length_eq_zero_iff, length_pending]
  exact (Ring.empty_iff (⟨s.buf, s.r, s.w⟩ : Ring UInt8 inputBuf 32)).symm.trans beq_iff_eq

theorem edit_eq_nil : s.edit = [] ↔ s.w = s.e := by
  rw [← length_eq_zero_iff, length_edit]
  exact (Ring.empty_iff (⟨s.buf, s.w, s.e⟩ : Ring UInt8 inputBuf 32)).symm.trans beq_iff_eq

/-- The byte before `e` is the last that may be edited. -/
theorem edit_eq (h : s.Valid) (hne : s.e ≠ s.w) :
    s.edit = edit { s with e := s.e - 1 } ++ [s.buf ((s.e - 1).toNat % inputBuf)] := by
  have hpos : 0 < s.edit.length := length_pos_of_ne_nil fun h0 => hne (edit_eq_nil.mp h0).symm
  have hf := h.fits
  rw [length_edit] at hpos hf
  exact Ring.items_unput _ inputBuf_lt inputBuf_dvd hpos (by show (s.e - s.w).toNat ≤ _; omega)

theorem Valid.backspace (h : s.Valid) (hne : s.e ≠ s.w) : Valid { s with e := s.e - 1 } := by
  have he := edit_eq h hne
  refine ⟨?_, fun hm => h.line ?_⟩
  · have hf := h.fits
    rw [he, length_append] at hf
    show s.pending.length + _ ≤ _
    omega
  · rw [he]
    exact mem_append_left _ hm

theorem killLine_spec (h : s.Valid) : (killLine s).Valid ∧ (killLine s).line = { s.line with edit := [] } ∧
    (killLine s).buf = s.buf ∧ (killLine s).r = s.r ∧ (killLine s).w = s.w := by
  induction s using killLine.induct with
  | case1 s hc ih =>
    rw [killLine, dif_pos hc]
    exact ih (h.backspace hc.1)
  | case2 s hc =>
    rw [killLine, dif_neg hc]
    have hnil : s.edit = [] := by
      by_contra hne
      have hew : s.e ≠ s.w := fun e => hne (edit_eq_nil.mpr e.symm)
      have hlast : s.buf ((s.e - 1).toNat % inputBuf) = newline := by
        by_contra hb
        exact hc ⟨hew, hb⟩
      refine h.line ?_
      rw [edit_eq h hew, hlast]
      exact mem_append_right _ (mem_singleton_self _)
    exact ⟨h, by rw [line, hnil], rfl, rfl, rfl⟩

/-- A stored byte goes to the end of the part being edited. -/
theorem line_store (h : s.Valid) (hlt : s.pending.length + s.edit.length < inputBuf) (c : UInt8) :
    (store s c).line = { s.line with edit := s.edit ++ [c] } := by
  have hedit : (store s c).edit = s.edit ++ [c] := by
    refine Ring.items_put (⟨s.buf, s.w, s.e⟩ : Ring UInt8 inputBuf 32) inputBuf_lt inputBuf_dvd c ?_
    show (s.e - s.w).toNat < inputBuf
    rw [← length_edit]
    omega
  have hpend : (store s c).pending = s.pending := by
    have hcell : s.e.toNat % inputBuf = (s.r.toNat + (s.e - s.r).toNat) % inputBuf :=
      Ring.nwrite_mod (⟨s.buf, s.r, s.e⟩ : Ring UInt8 inputBuf 32) inputBuf_dvd
    have := Ring.items_update (⟨s.buf, s.r, s.w⟩ : Ring UInt8 inputBuf 32) (k := (s.e - s.r).toNat)
      (by show (s.w - s.r).toNat ≤ _; rw [length_eq h.fits, ← length_pending]; omega) (by rw [length_eq h.fits]; exact hlt) c
    rw [← hcell] at this
    exact this
  rw [line, hedit, hpend, line]

theorem pending_commit (h : s.pending.length + s.edit.length ≤ inputBuf) : (commit s).pending = s.pending ++ s.edit := by
  have hlt := inputBuf_lt
  rw [length_pending, length_edit] at h
  exact Ring.items_join s.buf s.r s.w s.e inputBuf_dvd (by omega)

theorem edit_commit (s : Input) : (commit s).edit = [] := edit_eq_nil.mpr rfl

theorem valid_commit (h : s.pending.length + s.edit.length ≤ inputBuf) : (commit s).Valid := by
  refine ⟨?_, ?_⟩
  · rw [pending_commit h, edit_commit, length_append]
    exact h
  · rw [edit_commit]
    exact not_mem_nil

/-- The byte at `r` is the first that is pending; `input.r++` takes it. -/
theorem pending_cons (hne : s.r ≠ s.w) :
    s.pending = s.buf (s.r.toNat % inputBuf) :: pending { s with r := s.r + 1 } := by
  have hpos : 0 < s.pending.length := length_pos_of_ne_nil fun h => hne (pending_eq_nil.mp h)
  rw [length_pending] at hpos
  exact Ring.items_pop (⟨s.buf, s.r, s.w⟩ : Ring UInt8 inputBuf 32) inputBuf_dvd hpos

/-- The first pending byte is the one at `r`. -/
theorem pending_head {c : UInt8} {rest : List UInt8} (h : s.pending = c :: rest) :
    s.r ≠ s.w ∧ s.buf (s.r.toNat % inputBuf) = c ∧ pending { s with r := s.r + 1 } = rest := by
  have hne : s.r ≠ s.w := fun e => by
    rw [pending_eq_nil.mpr e] at h
    cases h
  rw [pending_cons hne, cons.injEq] at h
  exact ⟨hne, h⟩

theorem Valid.take (h : s.Valid) (hne : s.r ≠ s.w) : Valid { s with r := s.r + 1 } := by
  have hf := h.fits
  rw [pending_cons hne, length_cons] at hf
  exact ⟨by show _ + s.edit.length ≤ _; omega, h.line⟩

end Input

section Keys

omit [DecidableEq P]

/-- From `s` to `s'` the line has become `l`; what it gained of committed bytes is recorded,
    and if it gained any the readers are awake. -/
structure Typed (s s' : St P) (l : Line) : Prop where
  valid : s'.input.Valid
  line : s'.input.line = l
  grown : ∃ x, s'.input.pending = s.input.pending ++ x ∧ s'.committed = s.committed ++ x ∧
    (x = [] ∧ s'.reader = s.reader ∨ s'.reader = fun p => (s.reader p).wake)
  rest : s'.taken = s.taken ∧ s'.returned = s.returned ∧ s'.killed = s.killed

variable {s : St P}

theorem Typed.edited {t : Input} {l : Line} (hv : t.Valid) (hl : t.line = l) (hp : t.pending = s.input.pending) :
    Typed s { s with input := t } l :=
  ⟨hv, hl, ⟨[], by rw [append_nil]; exact hp, (append_nil _).symm, .inl ⟨rfl, rfl⟩⟩, rfl, rfl, rfl⟩

theorem typed_insert (h : s.input.Valid) (hlt : s.input.pending.length + s.input.edit.length < inputBuf) (c : UInt8) :
    Typed s (insert s c) (s.input.line.insert c) := by
  have hst := Input.line_store h hlt c
  have hp : (store s.input c).pending = s.input.pending := congrArg Line.pending hst
  have he : (store s.input c).edit = s.input.edit ++ [c] := congrArg Line.edit hst
  have hlen : (store s.input c).pending.length + (store s.input c).edit.length = s.input.pending.length + s.input.edit.length + 1 := by
    rw [hp, he, length_append]
    rfl
  have hfits : (store s.input c).pending.length + (store s.input c).edit.length ≤ inputBuf := by omega
  have hfull : (store s.input c).e = (store s.input c).r + BitVec.ofNat 32 inputBuf ↔
      s.input.line.pending.length + s.input.line.edit.length + 1 = inputBuf := by
    rw [Input.full_iff hfits, hlen]
    rfl
  by_cases hcommit : c = newline ∨ c = ctrl 'D' ∨ (store s.input c).e = (store s.input c).r + BitVec.ofNat 32 inputBuf
  · rw [insert, if_pos hcommit, Line.insert, if_pos (hcommit.imp_right (Or.imp_right hfull.mp))]
    have hpc := Input.pending_commit hfits
    rw [hp, he] at hpc
    refine ⟨Input.valid_commit hfits, ?_, ⟨s.input.edit ++ [c], hpc, ?_, .inr rfl⟩, rfl, rfl, rfl⟩
    · show Line.mk (commit (store s.input c)).pending (commit (store s.input c)).edit = _
      rw [hpc, Input.edit_commit]
      rfl
    · show s.committed ++ (store s.input c).edit = _
      rw [he]
  · rw [insert, if_neg hcommit, Line.insert, if_neg fun h => hcommit (h.imp_right (Or.imp_right hfull.mpr))]
    refine .edited ⟨hfits, ?_⟩ hst hp
    rw [he, mem_append, mem_singleton, not_or]
    exact ⟨h.line, fun e => hcommit (.inl e.symm)⟩

theorem typed_key (h : s.input.Valid) (c : UInt8) : Typed s (key s c) (s.input.line.key c) := by
  have hroom : (s.input.e - s.input.r).toNat = s.input.line.pending.length + s.input.line.edit.length := Input.length_eq h.fits
  unfold key Line.key
  rw [hroom]
  split
  · exact .edited h rfl rfl
  split
  · obtain ⟨hv, hl, -⟩ := Input.killLine_spec h
    exact .edited hv hl (congrArg Line.pending hl)
  split
  · split
    · rename_i hne
      refine .edited (h.backspace hne) ?_ rfl
      have hd : s.input.edit.dropLast = Input.edit { s.input with e := s.input.e - 1 } := by
        rw [Input.edit_eq h hne, dropLast_concat]
      exact congrArg (Line.mk s.input.pending) hd.symm
    · rename_i hne
      have hnil := Input.edit_eq_nil.mpr (not_not.mp hne).symm
      refine .edited h ?_ rfl
      rw [Input.line, hnil]
      rfl
  split
  · rename_i hc
    exact typed_insert h hc.2 _
  · exact .edited h rfl rfl

end Keys

/-! ## The readers -/

/-- The bytes that `p` has been given. -/
def delivered (taken : List (P × UInt8)) (p : P) : List UInt8 := (taken.filter fun x => x.1 = p ∧ x.2 ≠ ctrl 'D').map (·.2)

def Return.isEof (x : Return P) (p : P) : Bool := x.reader = p ∧ 0 < x.target ∧ x.result = 0

def Reader.frame : Reader → Option Frame
  | .idle => none
  | .ready f | .asleep f => some f

def Reader.dst (x : Reader) : List UInt8 := x.frame.elim [] Frame.dst

/-- What is committed has been taken or is pending; the bytes taken are those the readers have,
    `dst` in the reads in progress; each ^D taken is a read that returned 0. -/
structure Kept (s : St P) (dst : P → List UInt8) : Prop where
  valid : s.input.Valid
  order : s.taken.map (·.2) ++ s.input.pending = s.committed
  delivered : ∀ p, delivered s.taken p = (s.returned.filter (·.reader = p)).flatMap (·.dst) ++ dst p
  eofs : ∀ p, s.taken.count (p, ctrl 'D') = s.returned.countP (·.isEof p)
  results : ∀ x ∈ s.returned, x.result = x.dst.length ∨ x.result = -1 ∧ s.killed x.reader = true

variable {s : St P} {dst : P → List UInt8} {p : P} {n target : Nat} {d : List UInt8}

/-- The call is over; the bytes it has stored stay with the reader. -/
theorem Kept.ret (h : Kept s dst) (hd : dst p = d) {result : Int}
    (hres : result = d.length ∧ (target = 0 ∨ d ≠ []) ∨ result = -1 ∧ s.killed p = true) :
    Kept (s.ret p target d result) (update dst p []) := by
  refine ⟨h.valid, h.order, fun q => ?_, fun q => ?_, fun x hx => ?_⟩
  · show Console.delivered s.taken q = ((s.returned ++ [_]).filter _).flatMap _ ++ _
    rw [h.delivered q, filter_append, flatMap_append]
    by_cases e : q = p
    · subst e
      simp [hd]
    · simp [e, Ne.symm e]
  · show s.taken.count _ = (s.returned ++ [_]).countP _
    have hno : Return.isEof ⟨p, target, d, result⟩ q = false := by
      simp only [Return.isEof, decide_eq_false_iff_not]
      intro ⟨_, ht, h0⟩
      rcases hres with ⟨hr, h⟩ | ⟨hr, _⟩
      · have hnil : d = [] := by
          rw [← length_eq_zero_iff]
          omega
        rcases h with h | h
        · exact absurd h (Nat.ne_of_gt ht)
        · exact h hnil
      · omega
    rw [h.eofs q, countP_append, countP_cons, hno]
    rfl
  · rcases mem_append.mp hx with hx | hx
    · exact h.results x hx
    · rw [mem_singleton] at hx
      subst hx
      exact hres.imp (·.1) id

/-- `c = input.buf[input.r++ % INPUT_BUF]`, a byte for the reader. -/
theorem Kept.take (h : Kept s dst) (hne : s.input.r ≠ s.input.w) {c : UInt8} (hc : s.input.buf (s.input.r.toNat % inputBuf) = c)
    (hD : c ≠ ctrl 'D') :
    Kept { s with input := { s.input with r := s.input.r + 1 }, taken := s.taken ++ [(p, c)] }
      (update dst p (dst p ++ [c])) := by
  refine ⟨h.valid.take hne, ?_, fun q => ?_, fun q => ?_, h.results⟩
  · rw [← h.order, Input.pending_cons hne, hc]
    simp
  · have hq := h.delivered q
    simp only [Console.delivered, filter_append, map_append] at hq ⊢
    rw [hq]
    by_cases e : q = p
    · subst e
      simp [hD]
    · simp [e, Ne.symm e]
  · have hne : ((p, c) == (q, ctrl 'D')) = false := by simp [hD]
    rw [count_append, count_singleton, hne, h.eofs q]
    rfl

/-- A ^D that comes first: the call returns 0. -/
theorem Kept.eof (h : Kept s dst) (hne : s.input.r ≠ s.input.w) (hc : s.input.buf (s.input.r.toNat % inputBuf) = ctrl 'D')
    (hd : dst p = []) (ht : 0 < target) :
    Kept (St.ret { s with input := { s.input with r := s.input.r + 1 }, taken := s.taken ++ [(p, ctrl 'D')] } p target [] 0)
      (update dst p []) := by
  refine ⟨h.valid.take hne, ?_, fun q => ?_, fun q => ?_, fun x hx => ?_⟩
  · show (s.taken ++ [_]).map _ ++ Input.pending { s.input with r := s.input.r + 1 } = s.committed
    rw [← h.order, Input.pending_cons hne, hc]
    simp
  · have hq := h.delivered q
    simp only [Console.delivered, St.ret, filter_append, map_append, flatMap_append] at hq ⊢
    rw [hq]
    by_cases e : q = p
    · subst e
      simp [hd]
    · simp [e, Ne.symm e]
  · show (s.taken ++ [_]).count _ = (s.returned ++ [_]).countP _
    rw [count_append, countP_append, h.eofs q]
    by_cases e : q = p
    · subst e
      simp [Return.isEof, ht]
    · simp [Return.isEof, Ne.symm e]
  · rcases mem_append.mp hx with hx | hx
    · exact h.results x hx
    · rw [mem_singleton] at hx
      subst hx
      exact .inl rfl

/-- What a stretch of `consoleread` leaves, for the reader itself and for the others. -/
structure Stretch (s s' : St P) (p : P) (dst : P → List UInt8) : Prop where
  kept : Kept s' (Function.update dst p (s'.reader p).dst)
  others : ∀ q, q ≠ p → s'.reader q = s.reader q
  frame : ∀ f, (s'.reader p).frame = some f → f.dst.length + f.n = f.target
  asleep : ∀ f, s'.reader p = .asleep f → s'.input.pending = []
  suffix : s'.input.pending <:+ s.input.pending

/-- A stretch goes on from `s₁`, which the same stretch reached. -/
theorem Stretch.after {s s₁ s' : St P} {d : List UInt8} (h : Stretch s₁ s' p (update dst p d)) (hr : s₁.reader = s.reader)
    (hs : s₁.input.pending <:+ s.input.pending) : Stretch s s' p dst := by
  refine ⟨?_, fun q hq => ?_, h.frame, h.asleep, h.suffix.trans hs⟩
  · have hk := h.kept
    rwa [update_idem] at hk
  · rw [h.others q hq, hr]

/-- It ends with the return. -/
theorem Stretch.ret {result : Int} (h : Kept (s.ret p target d result) (update dst p [])) :
    Stretch s (s.ret p target d result) p dst := by
  have hp : (s.ret p target d result).reader p = .idle := update_self ..
  refine ⟨?_, fun q hq => update_of_ne hq _ _, fun f hf => ?_, fun f hf => ?_, suffix_refl _⟩
  · rw [hp]
    exact h
  · rw [hp] at hf
    cases hf
  · rw [hp] at hf
    cases hf

/-- It ends with `sleep`. -/
theorem Stretch.sleep (h : Kept s dst) {f : Frame} (hd : dst p = f.dst) (hf : f.dst.length + f.n = f.target)
    (hempty : s.input.pending = []) : Stretch s { s with reader := update s.reader p (.asleep f) } p dst := by
  have hp : update s.reader p (.asleep f) p = .asleep f := update_self ..
  refine ⟨?_, fun q hq => update_of_ne hq _ _, fun g hg => ?_, fun _ _ => hempty, suffix_refl _⟩
  · show Kept _ (update dst p (update s.reader p (.asleep f) p).dst)
    rw [hp]
    show Kept _ (update dst p f.dst)
    rw [← hd, update_eq_self]
    exact ⟨h.valid, h.order, h.delivered, h.eofs, h.results⟩
  · change (update s.reader p (.asleep f) p).frame = some g at hg
    rw [hp] at hg
    cases hg
    exact hf

theorem stretch_readLoop (h : Kept s dst) (hd : dst p = d) (ht : d.length + n = target) :
    Stretch s (readLoop p target n d s) p dst := by
  induction n generalizing d dst s with
  | zero =>
    refine .ret (h.ret hd (.inl ⟨?_, ?_⟩))
    · omega
    · by_cases e : d = []
      · subst e
        exact .inl ht.symm
      · exact .inr e
  | succ n ih =>
    unfold readLoop
    by_cases hempty : s.input.r = s.input.w
    · rw [if_pos hempty]
      by_cases hk : s.killed p = true
      · rw [if_pos hk]
        exact .ret (h.ret hd (.inr ⟨rfl, hk⟩))
      · rw [if_neg hk]
        exact .sleep h hd ht (Input.pending_eq_nil.mpr hempty)
    · rw [if_neg hempty]
      have hcons := Input.pending_cons hempty
      generalize hc : s.input.buf (s.input.r.toNat % inputBuf) = c at hcons ⊢
      have hsuffix : Input.pending { s.input with r := s.input.r + 1 } <:+ s.input.pending := by
        rw [hcons]
        exact suffix_cons _ _
      dsimp only
      by_cases hD : c = ctrl 'D'
      · rw [if_pos hD]
        by_cases hlt : n + 1 < target
        · -- the reader has some bytes
          rw [if_pos hlt, BitVec.add_sub_cancel]
          exact .ret (h.ret hd (.inl ⟨by omega, .inr fun e => by subst e; simp at ht; omega⟩))
        · rw [if_neg hlt]
          have hnil : d = [] := by
            rw [← length_eq_zero_iff]
            omega
          subst hnil hD
          have h0 : (target : Int) - (n + 1 : Nat) = 0 := by simp at ht; omega
          rw [h0]
          have heof := h.eof hempty hc hd (show 0 < target by omega)
          refine Stretch.after (d := []) (.ret ?_) rfl hsuffix
          rwa [update_idem]
      · rw [if_neg hD]
        have htake := h.take (p := p) hempty hc hD
        rw [hd] at htake
        have hlen : (d ++ [c]).length + n = target := by
          rw [length_append, length_singleton]
          omega
        by_cases hnl : c = newline
        · rw [if_pos hnl]
          refine Stretch.after (.ret (htake.ret (update_self ..) (.inl ⟨?_, .inr ?_⟩))) rfl hsuffix
          · omega
          · simp
        · rw [if_neg hnl]
          exact Stretch.after (ih htake (update_self ..) hlen) rfl hsuffix

/-! ## Every run -/

structure Inv (s : St P) : Prop where
  kept : Kept s fun p => (s.reader p).dst
  frame : ∀ p f, (s.reader p).frame = some f → f.dst.length + f.n = f.target
  asleep : ∀ p f, s.reader p = .asleep f → s.input.pending = []

omit [DecidableEq P] in
@[simp] theorem Reader.frame_wake (x : Reader) : x.wake.frame = x.frame := by cases x <;> rfl

omit [DecidableEq P] in
theorem Reader.wake_ne_asleep (x : Reader) (f : Frame) : x.wake ≠ .asleep f := by
  cases x <;> exact fun e => by cases e

theorem inv_start : Inv (start P) := by
  have hp : (start P).input.pending = [] := Input.pending_eq_nil.mpr rfl
  have he : (start P).input.edit = [] := Input.edit_eq_nil.mpr rfl
  refine ⟨⟨⟨?_, ?_⟩, hp, fun _ => rfl, fun _ => rfl, fun x hx => ?_⟩, fun _ f h => ?_, fun _ _ _ => hp⟩
  · rw [hp, he]
    decide
  · rw [he]
    exact not_mem_nil
  · cases hx
  · cases h

theorem inv_key (h : Inv s) (c : UInt8) : Inv (key s c) := by
  obtain ⟨hv, -, ⟨x, hp, hcom, hr⟩, htaken, hret, hk⟩ := typed_key h.kept.valid c
  have hframe : ∀ p, ((key s c).reader p).frame = (s.reader p).frame := fun p => by
    rcases hr with ⟨-, hr⟩ | hr
    · rw [hr]
    · rw [hr, Reader.frame_wake]
  refine ⟨⟨hv, ?_, ?_, ?_, ?_⟩, fun p f => ?_, fun p f hf => ?_⟩
  · rw [htaken, hp, hcom, ← h.kept.order, append_assoc]
  · intro p
    rw [htaken, hret, Reader.dst, hframe]
    exact h.kept.delivered p
  · rw [htaken, hret]
    exact h.kept.eofs
  · rw [hret, hk]
    exact h.kept.results
  · rw [hframe]
    exact h.frame p f
  · rcases hr with ⟨hx, hr⟩ | hr
    · rw [hr] at hf
      rw [hp, hx, h.asleep p f hf, append_nil]
    · rw [hr] at hf
      exact absurd hf (Reader.wake_ne_asleep _ _)

theorem inv_consoleintr (h : Inv s) (cs : List UInt8) : Inv (consoleintr s cs) := by
  induction cs generalizing s with
  | nil => exact h
  | cons c cs ih => exact ih (inv_key h c)

theorem inv_run (h : Inv s) {f : Frame} (hp : s.reader p = .ready f) : Inv (readLoop p f.target f.n f.dst s) := by
  have hdst : (s.reader p).dst = f.dst := by rw [hp]; rfl
  have hst := stretch_readLoop h.kept hdst (h.frame p f (by rw [hp]; rfl))
  generalize readLoop p f.target f.n f.dst s = s' at hst
  refine ⟨?_, fun q g hg => ?_, fun q g hg => ?_⟩
  · have he : (fun q => (s'.reader q).dst) = update (fun q => (s.reader q).dst) p (s'.reader p).dst := by
      funext q
      by_cases e : q = p
      · subst e
        rw [update_self]
      · rw [update_of_ne e, hst.others q e]
    rw [he]
    exact hst.kept
  · by_cases e : q = p
    · subst e
      exact hst.frame g hg
    · rw [hst.others q e] at hg
      exact h.frame q g hg
  · by_cases e : q = p
    · subst e
      exact hst.asleep g hg
    · rw [hst.others q e] at hg
      have hs := hst.suffix
      rw [h.asleep q g hg] at hs
      exact suffix_nil.mp hs

/-- The reader's own state changes, and not its bytes. -/
theorem Inv.reader (h : Inv s) {x : Reader} {k : P → Bool} (hd : x.dst = (s.reader p).dst)
    (hf : ∀ f, x.frame = some f → f.dst.length + f.n = f.target) (ha : ∀ f, x ≠ .asleep f) (hk : ∀ q, s.killed q = true → k q = true) :
    Inv { s with reader := update s.reader p x, killed := k } := by
  have he : (fun q => (update s.reader p x q).dst) = fun q => (s.reader q).dst := by
    funext q
    by_cases e : q = p
    · subst e
      rw [update_self, hd]
    · rw [update_of_ne e]
  refine ⟨⟨h.kept.valid, h.kept.order, ?_, h.kept.eofs, fun y hy => (h.kept.results y hy).imp_right fun hr => ⟨hr.1, hk _ hr.2⟩⟩,
    fun q g hg => ?_, fun q g hg => ?_⟩
  · show ∀ q, _ = _ ++ (fun q => (update s.reader p x q).dst) q
    rw [he]
    exact h.kept.delivered
  · by_cases e : q = p
    · subst e
      exact hf g (by simpa using hg)
    · exact h.frame q g (by simpa [e] using hg)
  · by_cases e : q = p
    · subst e
      exact absurd (by simpa using hg) (ha g)
    · exact h.asleep q g (by simpa [e] using hg)

theorem inv_step (h : Inv s) (e : Ev P) : Inv (step s e) := by
  cases e with
  | intr cs => exact inv_consoleintr h cs
  | read p n =>
    simp only [step]
    split
    · rename_i hp
      refine h.reader (by rw [hp]; rfl) (fun f hf => ?_) (fun _ e => by cases e) fun _ hq => hq
      cases hf
      exact Nat.zero_add n
    · exact h
  | run p =>
    simp only [step]
    split
    · rename_i f hp
      exact inv_run h hp
    · exact h
  | kill p =>
    refine h.reader (by rw [Reader.dst, Reader.frame_wake, Reader.dst]) (fun f hf => ?_) (Reader.wake_ne_asleep _) fun q hq => ?_
    · rw [Reader.frame_wake] at hf
      exact h.frame p f hf
    · by_cases e : q = p
      · rw [e, update_self]
      · rw [update_of_ne e, hq]

theorem inv_steps (h : Inv s) (es : List (Ev P)) : Inv (run s es) := by
  induction es generalizing s with
  | nil => exact h
  | cons e es ih => exact ih (inv_step h e)

/-- A ^D after `l` ends the read with what it has; it is gone only if that is nothing. -/
theorem readLoop_eof {l rest : List UInt8} (hp : s.input.pending = l ++ ctrl 'D' :: rest) (hl : ∀ c ∈ l, c ≠ ctrl 'D' ∧ c ≠ newline)
    (hn : l.length < n) (ht : d.length + n = target) :
    (readLoop p target n d s).returned = s.returned ++ [⟨p, target, d ++ l, (d ++ l).length⟩] ∧
      (readLoop p target n d s).reader p = .idle ∧
        (readLoop p target n d s).input.pending = if d ++ l = [] then rest else ctrl 'D' :: rest := by
  induction l generalizing n d s with
  | nil =>
    obtain ⟨n, rfl⟩ := Nat.exists_eq_succ_of_ne_zero (Nat.ne_of_gt hn)
    obtain ⟨hne, hc, hrest⟩ := Input.pending_head hp
    unfold readLoop
    rw [if_neg hne, hc]
    dsimp only
    rw [if_pos rfl, append_nil]
    by_cases hlt : n + 1 < target
    · have hd : d ≠ [] := fun e => by
        rw [e, length_nil] at ht
        omega
      rw [if_pos hlt, if_neg hd, BitVec.add_sub_cancel]
      refine ⟨?_, update_self .., hp⟩
      show s.returned ++ [_] = _
      congr 3
      omega
    · have hd : d = [] := by
        rw [← length_eq_zero_iff]
        omega
      rw [if_neg hlt, if_pos hd]
      refine ⟨?_, update_self .., hrest⟩
      show s.returned ++ [_] = _
      congr 3
      omega
  | cons c l ih =>
    obtain ⟨n, rfl⟩ := Nat.exists_eq_succ_of_ne_zero (Nat.ne_zero_of_lt hn)
    obtain ⟨hne, hc, hrest⟩ := Input.pending_head hp
    obtain ⟨hD, hnl⟩ := hl c mem_cons_self
    unfold readLoop
    rw [if_neg hne, hc]
    dsimp only
    rw [if_neg hD, if_neg hnl, append_cons d c l]
    refine ih hrest (fun x hx => hl x (mem_cons_of_mem _ hx)) ?_ ?_
    · rw [length_cons] at hn
      omega
    · rw [length_append, length_singleton]
      omega

theorem taken_readLoop (p : P) (target n : Nat) (d : List UInt8) (s : St P) : s.taken <+: (readLoop p target n d s).taken := by
  induction n generalizing d s with
  | zero => exact prefix_refl _
  | succ n ih =>
    unfold readLoop
    split
    · split <;> exact prefix_refl _
    · dsimp only
      split
      · split
        · exact prefix_refl _
        · exact prefix_append _ _
      · split
        · exact prefix_append _ _
        · exact (prefix_append s.taken [_]).trans (ih _ { s with input := _, taken := _ })

/-- The next byte goes to the reader that runs. -/
theorem next_readLoop {c : UInt8} {rest : List UInt8} (hp : s.input.pending = c :: rest) (hD : c ≠ ctrl 'D') (hn : 0 < n) :
    s.taken ++ [(p, c)] <+: (readLoop p target n d s).taken := by
  obtain ⟨n, rfl⟩ := Nat.exists_eq_succ_of_ne_zero (Nat.ne_of_gt hn)
  obtain ⟨hne, hc, -⟩ := Input.pending_head hp
  unfold readLoop
  rw [if_neg hne, hc]
  dsimp only
  rw [if_neg hD]
  split
  · exact prefix_refl _
  · exact taken_readLoop p target n _ { s with input := _, taken := _ }

/-- What holds in every state of the console. -/
structure KeepsInput (s : St P) : Prop where
  /-- `0 <= w - r <= e - r <= INPUT_BUF` mod `2 ^ 32`. -/
  indices : (s.input.w - s.input.r).toNat ≤ (s.input.e - s.input.r).toNat ∧ (s.input.e - s.input.r).toNat ≤ inputBuf
  /-- An editing character changes no byte, and moves neither `r` nor `w`. -/
  editing : ∀ c, c = ctrl 'U' ∨ c = ctrl 'H' ∨ c = delete →
    (key s c).input.buf = s.input.buf ∧ (key s c).input.r = s.input.r ∧ (key s c).input.w = s.input.w
  /-- Whatever is typed, the bytes between `r` and `w` stay. -/
  typing : ∀ c, s.input.pending <+: (key s c).input.pending
  /-- The bytes that `r` has passed and those from `r` to `w` are those that `w` has passed. -/
  order : s.taken.map (·.2) ++ s.input.pending = s.committed
  /-- Each byte passed that is no ^D is in the buffer of the reader who passed it. -/
  delivered : ∀ p, delivered s.taken p = (s.returned.filter (·.reader = p)).flatMap (·.dst) ++ (s.reader p).dst
  /-- The result is the number of bytes, or -1 for a killed process. -/
  results : ∀ x ∈ s.returned, x.result = x.dst.length ∨ x.result = -1 ∧ s.killed x.reader = true
  /-- A reader that runs takes the next byte. -/
  next : ∀ p f c rest, s.reader p = .ready f → 0 < f.n → s.input.pending = c :: rest → c ≠ ctrl 'D' →
    s.taken ++ [(p, c)] <+: (step s (.run p)).taken
  /-- No reader sleeps while there are bytes to read. -/
  awake : ∀ p f, s.reader p = .asleep f → s.input.pending = []
  /-- A ^D ends the read in progress with the bytes so far; it stays unless there are none. -/
  eof : ∀ p f l rest, s.reader p = .ready f → s.input.pending = l ++ ctrl 'D' :: rest →
    (∀ c ∈ l, c ≠ ctrl 'D' ∧ c ≠ newline) → l.length < f.n →
      (step s (.run p)).returned = s.returned ++ [⟨p, f.target, f.dst ++ l, (f.dst ++ l).length⟩] ∧
        (step s (.run p)).reader p = .idle ∧
          (step s (.run p)).input.pending = if f.dst ++ l = [] then rest else ctrl 'D' :: rest
  /-- The ^D's a reader has passed are its reads that asked for bytes and returned 0. -/
  eofs : ∀ p, s.taken.count (p, ctrl 'D') = s.returned.countP (·.isEof p)

omit [DecidableEq P] in
theorem key_editing (h : s.input.Valid) {c : UInt8} (hc : c = ctrl 'U' ∨ c = ctrl 'H' ∨ c = delete) :
    (key s c).input.buf = s.input.buf ∧ (key s c).input.r = s.input.r ∧ (key s c).input.w = s.input.w := by
  have hP : c ≠ ctrl 'P' := by
    rcases hc with rfl | rfl | rfl <;> decide
  unfold key
  rw [if_neg hP]
  by_cases hU : c = ctrl 'U'
  · rw [if_pos hU]
    exact (Input.killLine_spec h).2.2
  · rw [if_neg hU, if_pos (hc.resolve_left hU)]
    split <;> exact ⟨rfl, rfl, rfl⟩

theorem Inv.keepsInput (h : Inv s) : KeepsInput s where
  indices := by
    have hf := h.kept.valid.fits
    rw [Input.length_eq hf, ← Input.length_pending]
    omega
  editing c hc := key_editing h.kept.valid hc
  typing c := by
    obtain ⟨x, hx, -⟩ := (typed_key h.kept.valid c).grown
    rw [hx]
    exact prefix_append _ _
  order := h.kept.order
  delivered := h.kept.delivered
  results := h.kept.results
  next p f c rest hp hn hpend hD := by
    simp only [step, hp]
    exact next_readLoop hpend hD hn
  awake := h.asleep
  eof p f l rest hp hpend hl hn := by
    simp only [step, hp]
    exact readLoop_eof hpend hl hn (h.frame p f (by rw [hp]; rfl))
  eofs := h.kept.eofs

/-- From the empty buffer, whatever is typed and whoever reads. -/
theorem console_keeps_input (es : List (Ev P)) : KeepsInput (run (start P) es) := (inv_steps inv_start es).keepsInput

end Xv6.Console
