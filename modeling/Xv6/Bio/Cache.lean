/-
  Xv6.Bio.Cache — the buffer cache (`bio.c`: `binit`, `bget`, `bread`, `bwrite`,
  `brelse`; the pinning of `log_write`).

  Any number of sessions run, each one `bread(ROOTDEV, b)` to its `brelse`; a process
  that holds two buffers at once is two sessions. Each stretch under `bcache.lock`, and
  each acquisition or release of a buffer's sleep-lock, is one step; `iderw` is one step
  and succeeds. A holder may modify the data as often as it likes, and calls `log_write`
  or `bwrite` after the last change before it calls `brelse`.

  `bget` walks the list through `bcache.head` along `next` for the block and along
  `prev` for a buffer to recycle; `brelse` moves a buffer nobody wants to the front.
  Running out of buffers is assumed away: `bget` then takes no step.

  `left` is not in the code: the data each block was last left with by a holder, at
  first the disk's.

  Proved, over every run (`inv`, `buffer_cache_transparent`): `bread` returns what the
  block was last left with; no two buffers are assigned one block; `refcnt` counts the
  sessions; a buffer in use or dirty is not recycled; the list holds every buffer once.
-/

import Xv6.Param
import Xv6.Lib.Dll

namespace Xv6.Bio

open Xv6.Lib.Dll Function List

structure Buf where
  valid : Bool
  dirty : Bool
  dev : Nat
  blockno : Nat
  refcnt : Nat
  data : Block

/-- `&bcache.buf[i]`, or `&bcache.head`. -/
abbrev Node := Option (Fin nbuf)

inductive Pc where
  | idle
  /-- `bget` has counted the session; it waits for the buffer's lock. -/
  | wanting (b : Fin nbuf) (blk : Nat)
  | locked (b : Fin nbuf) (blk : Nat)
  /-- `bread` has returned; `saved`: no change since the last `log_write` or `bwrite`. -/
  | holding (b : Fin nbuf) (blk : Nat) (saved : Bool)
  /-- `brelse` has released the lock. -/
  | releasing (b : Fin nbuf) (blk : Nat)

structure St where
  links : Links Node
  buf : Fin nbuf → Buf
  /-- Who holds a buffer's sleep-lock. -/
  owner : Fin nbuf → Option Nat
  disk : Disk
  pc : Nat → Pc
  left : Nat → Block

def binit : Links Node := (List.finRange nbuf).foldl (fun r b => pushFront r none (some b)) (single none)

def init (d : Disk) : St :=
  ⟨binit, fun _ => ⟨false, false, 0, 0, 0, zeroBlock⟩, fun _ => none, d, fun _ => .idle, d⟩

/-! ## `bio.c` -/

/-- The first loop of `bget`. -/
def cached (s : St) (dev blk : Nat) : Option (Fin nbuf) :=
  (walk s.links.next none (fun n => n.any fun b => (s.buf b).dev == dev && (s.buf b).blockno == blk) (nbuf + 1)
    (s.links.next none)).join

/-- The second loop of `bget`. -/
def unused (s : St) : Option (Fin nbuf) :=
  (walk s.links.prev none (fun n => n.any fun b => (s.buf b).refcnt == 0 && !(s.buf b).dirty) (nbuf + 1)
    (s.links.prev none)).join

/-- `bget` has settled on `b`, now `x`, and goes on to its lock. -/
def take (s : St) (p blk : Nat) (b : Fin nbuf) (x : Buf) : St :=
  { s with buf := Function.update s.buf b x, pc := Function.update s.pc p (.wanting b blk) }

def bget (s : St) (p dev blk : Nat) : St :=
  match cached s dev blk with
  | some b => take s p blk b { s.buf b with refcnt := (s.buf b).refcnt + 1 }
  | none =>
    match unused s with
    | some b =>
      take s p blk b { s.buf b with dev := dev, blockno := blk, valid := false, dirty := false, refcnt := 1 }
    | none => s

def iderw (s : St) (b : Fin nbuf) : St :=
  if (s.buf b).dirty then
    { s with disk := Function.update s.disk (s.buf b).blockno (s.buf b).data,
             buf := Function.update s.buf b { s.buf b with valid := true, dirty := false } }
  else
    { s with buf := Function.update s.buf b { s.buf b with data := s.disk (s.buf b).blockno, valid := true } }

def acquiresleep (s : St) (p : Nat) (b : Fin nbuf) (blk : Nat) : St :=
  match s.owner b with
  | some _ => s
  | none => { s with owner := Function.update s.owner b (some p), pc := Function.update s.pc p (.locked b blk) }

/-- `bread` once it has the lock. -/
def breadReturn (s : St) (p : Nat) (b : Fin nbuf) (blk : Nat) : St :=
  let s := if (s.buf b).valid then s else iderw s b
  { s with pc := Function.update s.pc p (.holding b blk true) }

def modify (s : St) (p : Nat) (b : Fin nbuf) (blk : Nat) (v : Block) : St :=
  { s with buf := Function.update s.buf b { s.buf b with data := v },
           pc := Function.update s.pc p (.holding b blk false) }

def logWrite (s : St) (p : Nat) (b : Fin nbuf) (blk : Nat) : St :=
  { s with buf := Function.update s.buf b { s.buf b with dirty := true },
           pc := Function.update s.pc p (.holding b blk true) }

def bwrite (s : St) (p : Nat) (b : Fin nbuf) (blk : Nat) : St :=
  let s := iderw { s with buf := Function.update s.buf b { s.buf b with dirty := true } } b
  { s with pc := Function.update s.pc p (.holding b blk true) }

/-- `releasesleep` in `brelse`. -/
def release (s : St) (p : Nat) (b : Fin nbuf) (blk : Nat) : St :=
  { s with owner := Function.update s.owner b none, pc := Function.update s.pc p (.releasing b blk),
           left := Function.update s.left (s.buf b).blockno (s.buf b).data }

/-- `b->refcnt--`, the session's last access. -/
def uncount (s : St) (p : Nat) (b : Fin nbuf) : St :=
  { s with buf := Function.update s.buf b { s.buf b with refcnt := (s.buf b).refcnt - 1 },
           pc := Function.update s.pc p .idle }

/-- The rest of `brelse`. -/
def drop (s : St) (p : Nat) (b : Fin nbuf) : St :=
  let s := uncount s p b
  if (s.buf b).refcnt = 0 then { s with links := pushFront (unlink s.links (some b)) none (some b) } else s

inductive Ev where
  | bget (p blk : Nat)
  | acquire (p : Nat)
  | ret (p : Nat)
  | modify (p : Nat) (v : Block)
  | logWrite (p : Nat)
  | bwrite (p : Nat)
  | release (p : Nat)
  | drop (p : Nat)

/-- One step of session `p`, if it is where the step starts. -/
def step (s : St) : Ev → St
  | .bget p blk => match s.pc p with
    | .idle => bget s p rootDev blk
    | _ => s
  | .acquire p => match s.pc p with
    | .wanting b blk => acquiresleep s p b blk
    | _ => s
  | .ret p => match s.pc p with
    | .locked b blk => breadReturn s p b blk
    | _ => s
  | .modify p v => match s.pc p with
    | .holding b blk _ => modify s p b blk v
    | _ => s
  | .logWrite p => match s.pc p with
    | .holding b blk _ => logWrite s p b blk
    | _ => s
  | .bwrite p => match s.pc p with
    | .holding b blk _ => bwrite s p b blk
    | _ => s
  | .release p => match s.pc p with
    | .holding b blk true => release s p b blk
    | _ => s
  | .drop p => match s.pc p with
    | .releasing b _ => drop s p b
    | _ => s

def run (s : St) (es : List Ev) : St := es.foldl step s

/-! ## The invariant -/

/-- The buffer a session counts in, with its block. -/
def Pc.ref : Pc → Option (Fin nbuf × Nat)
  | .idle => none
  | .wanting b blk | .locked b blk | .holding b blk _ | .releasing b blk => some (b, blk)

/-- The buffer whose lock a session has. -/
def Pc.lock : Pc → Option (Fin nbuf)
  | .locked b _ | .holding b _ _ => some b
  | _ => none

/-- The sessions between their `bget` and the end of their `brelse` on `b`. -/
def users (pc : Nat → Pc) (b : Fin nbuf) : Set Nat := {p | ∃ blk, (pc p).ref = some (b, blk)}

structure Counted (links : Links Node) (buf : Fin nbuf → Buf) (pc : Nat → Pc) : Prop where
  list : ∃ l : List (Fin nbuf), Circle links none (l.map some) ∧ ∀ b, b ∈ l
  refcnt : ∀ b, (buf b).refcnt = (users pc b).ncard
  finite : ∀ b, (users pc b).Finite

structure Assigned (buf : Fin nbuf → Buf) (pc : Nat → Pc) : Prop where
  unique : ∀ b c, (buf b).dev ≠ 0 → (buf b).dev = (buf c).dev → (buf b).blockno = (buf c).blockno → b = c
  ident : ∀ p b blk, (pc p).ref = some (b, blk) → (buf b).dev = rootDev ∧ (buf b).blockno = blk

def Pc.hold : Pc → Option Bool
  | .holding _ _ k => some k
  | _ => none

/-- Whether `bread` has returned `b` to its holder, and whether its changes are saved. -/
def holdOf (s : St) (b : Fin nbuf) : Option Bool := (s.owner b).bind fun p => (s.pc p).hold

/-- What a buffer's data and the disk's block are: the block as it was left, unless a
    holder is changing it; the disk has it too, unless the buffer is pinned. -/
structure Local (disk left : Nat → Block) (x : Buf) (hold : Option Bool) : Prop where
  invalid : x.valid = false → hold = none ∧ x.dirty = false ∧ disk x.blockno = left x.blockno
  unheld : x.valid = true → hold = none →
    x.data = left x.blockno ∧ (x.dirty = true ∨ disk x.blockno = left x.blockno)
  held : hold = some true → x.dirty = true ∨ disk x.blockno = x.data

structure Coherent (s : St) : Prop where
  buffers : ∀ b, (s.buf b).dev = rootDev → Local s.disk s.left (s.buf b) (holdOf s b)
  uncached : ∀ blk, (∀ b, (s.buf b).dev = rootDev → (s.buf b).blockno ≠ blk) → s.disk blk = s.left blk

structure Inv (s : St) : Prop where
  counted : Counted s.links s.buf s.pc
  assigned : Assigned s.buf s.pc
  locks : ∀ b p, s.owner b = some p ↔ (s.pc p).lock = some b
  coherent : Coherent s

/-! ## The list and the counts -/

variable {links : Links Node} {buf : Fin nbuf → Buf} {pc : Nat → Pc}

variable {l : List (Fin nbuf)}

theorem list_length (h : Circle links none (l.map some)) : (l.map (some : _ → Node)).length < nbuf + 1 := by
  have hnd : l.Nodup := (nodup_cons.mp h.nodup).2.of_map _
  have := hnd.length_le_card
  rw [Fintype.card_fin] at this
  rw [length_map]
  omega

theorem join_find (P : Fin nbuf → Bool) (l : List (Fin nbuf)) :
    ((l.map some).find? fun n : Node => n.any P).join = l.find? P := by
  induction l with
  | nil => rfl
  | cons b l ih =>
    rw [map_cons, find?_cons, find?_cons]
    cases h : P b with
    | true => simp [h]
    | false =>
      have : (some b : Node).any P = false := h
      rw [this]
      exact ih

theorem walk_next_find (h : Circle links none (l.map some)) (P : Fin nbuf → Bool) :
    (walk links.next none (fun n => n.any P) (nbuf + 1) (links.next none)).join = l.find? P := by
  rw [walk_next h _ (list_length h), join_find]

theorem walk_prev_find (h : Circle links none (l.map some)) (P : Fin nbuf → Bool) :
    (walk links.prev none (fun n => n.any P) (nbuf + 1) (links.prev none)).join = l.reverse.find? P := by
  rw [walk_prev h _ (list_length h), ← map_reverse, join_find]

variable {s s' : St} {blk p : Nat} {b : Fin nbuf}

theorem cached_some (h : Counted s.links s.buf s.pc) {dev : Nat}
    (hb : cached s dev blk = some b) : (s.buf b).dev = dev ∧ (s.buf b).blockno = blk := by
  obtain ⟨l, hl, -⟩ := h.list
  rw [cached, walk_next_find hl] at hb
  simpa using find?_some hb

theorem cached_none (h : Counted s.links s.buf s.pc) {dev : Nat} (hb : cached s dev blk = none)
    (b : Fin nbuf) : (s.buf b).dev = dev → (s.buf b).blockno ≠ blk := by
  obtain ⟨l, hl, hmem⟩ := h.list
  rw [cached, walk_next_find hl, find?_eq_none] at hb
  simpa using hb b (hmem b)

theorem unused_some (h : Counted s.links s.buf s.pc) (hb : unused s = some b) :
    (s.buf b).refcnt = 0 ∧ (s.buf b).dirty = false := by
  obtain ⟨l, hl, -⟩ := h.list
  rw [unused, walk_prev_find hl] at hb
  simpa using find?_some hb

variable {c : Pc}

theorem users_same (h : (pc p).ref = c.ref) (b : Fin nbuf) : users (update pc p c) b = users pc b := by
  ext q
  by_cases e : q = p <;> simp [users, e, ← h]

theorem users_enter (hc : c.ref = some (b, blk)) : users (update pc p c) b = insert p (users pc b) := by
  ext q
  by_cases e : q = p <;> simp [users, e, hc]

theorem users_other {b' : Fin nbuf} (hp : (pc p).ref = none) (hc : c.ref = some (b, blk))
    (hne : b' ≠ b) : users (update pc p c) b' = users pc b' := by
  ext q
  by_cases e : q = p <;> simp [users, e, hc, hp, Ne.symm hne]

theorem users_leave (hp : (pc p).ref = some (b, blk)) (b' : Fin nbuf) :
    users (update pc p .idle) b' = if b' = b then users pc b \ {p} else users pc b' := by
  ext q
  have hidle : Pc.idle.ref = none := rfl
  by_cases e : q = p <;> by_cases e' : b' = b <;> simp_all [users]
  grind

/-- Steps that move a session between places with one reference. -/
theorem Counted.move (h : Counted links buf pc) (hc : (pc p).ref = c.ref) {buf' : Fin nbuf → Buf}
    (hb : ∀ b, (buf' b).refcnt = (buf b).refcnt) : Counted links buf' (update pc p c) where
  list := h.list
  refcnt b := by rw [hb, h.refcnt, users_same hc]
  finite b := by rw [users_same hc]; exact h.finite b

theorem not_user (hp : (pc p).ref = none) (b : Fin nbuf) : p ∉ users pc b := by
  intro ⟨blk, h⟩
  rw [hp] at h
  cases h

/-- A session enters: the count of its buffer becomes its users plus one. -/
theorem Counted.enter (h : Counted links buf pc) (hp : (pc p).ref = none)
    {x : Buf} (hx : x.refcnt = (buf b).refcnt + 1) :
    Counted links (update buf b x) (update pc p (.wanting b blk)) where
  list := h.list
  refcnt b' := by
    by_cases e : b' = b
    · subst e
      rw [update_self, users_enter rfl, Set.ncard_insert_of_notMem (not_user hp _) (h.finite _), hx, h.refcnt]
    · rw [update_of_ne e, users_other hp rfl e, h.refcnt]
  finite b' := by
    by_cases e : b' = b
    · subst e; rw [users_enter rfl]; exact (h.finite _).insert _
    · rw [users_other hp rfl e]; exact h.finite _

/-- A session leaves. -/
theorem Counted.leave (h : Counted links buf pc) (hp : (pc p).ref = some (b, blk))
    {links' : Links Node} (hl : ∃ l : List (Fin nbuf), Circle links' none (l.map some) ∧ ∀ b, b ∈ l) :
    Counted links' (update buf b { buf b with refcnt := (buf b).refcnt - 1 }) (update pc p .idle) where
  list := hl
  refcnt b' := by
    rw [users_leave hp]
    by_cases e : b' = b
    · subst e
      rw [if_pos rfl, update_self, Set.ncard_sdiff_singleton_of_mem (show p ∈ users pc b' from ⟨blk, hp⟩), h.refcnt]
    · rw [if_neg e, update_of_ne e, h.refcnt]
  finite b' := by
    rw [users_leave hp]
    split
    · exact (h.finite b).subset Set.sdiff_subset
    · exact h.finite b'

/-- Moving a buffer to the front keeps the list. -/
theorem list_move (h : Circle links none (l.map some)) (hm : ∀ b, b ∈ l) (b : Fin nbuf) :
    ∃ l' : List (Fin nbuf), Circle (pushFront (unlink links (some b)) none (some b)) none (l'.map some) ∧ ∀ c, c ∈ l' := by
  obtain ⟨l₁, l₂, rfl⟩ := append_of_mem (hm b)
  have hnd : (l₁ ++ b :: l₂).Nodup := (nodup_cons.mp h.nodup).2.of_map _
  rw [map_append, map_cons] at h
  have h' := circle_unlink h
  rw [← map_append] at h'
  refine ⟨b :: (l₁ ++ l₂), ?_, fun c => ?_⟩
  · rw [map_cons]
    refine circle_pushFront h' ?_
    rw [mem_cons, not_or]
    refine ⟨by simp, fun hb => ?_⟩
    obtain ⟨c, hc, e⟩ := mem_map.mp hb
    cases e
    exact (nodup_middle.mp hnd |> nodup_cons.mp).1 hc
  · have := hm c
    simp only [mem_append, mem_cons] at this ⊢
    tauto

theorem list_init : ∃ l : List (Fin nbuf), Circle binit none (l.map some) ∧ ∀ b, b ∈ l := by
  suffices ∀ (bs l : List (Fin nbuf)) (r : Links Node), (bs ++ l).Nodup → Circle r none (l.map some) →
      Circle (bs.foldl (fun r b => pushFront r none (some b)) r) none ((bs.reverse ++ l).map some) by
    refine ⟨_, this (finRange nbuf) [] (single none) (by simp [nodup_finRange]) (circle_single _), ?_⟩
    intro b
    simp
  intro bs
  induction bs with
  | nil => intro l r _ h; exact h
  | cons b bs ih =>
    intro l r hnd h
    rw [foldl_cons, reverse_cons, append_assoc]
    refine ih _ _ ?_ ?_
    · rw [singleton_append]; exact nodup_middle.mpr hnd
    · rw [singleton_append, map_cons]
      refine circle_pushFront h ?_
      rw [mem_cons, not_or]
      refine ⟨by simp, fun hb => ?_⟩
      obtain ⟨c, hc, e⟩ := mem_map.mp hb
      cases e
      exact (nodup_cons.mp hnd).1 (mem_append_right _ hc)

/-! ## Who has which buffer -/

/-- Steps that leave each buffer its block and a session its reference. -/
theorem Assigned.move (h : Assigned buf pc) (hc : c.ref = (pc p).ref ∨ c.ref = none)
    {buf' : Fin nbuf → Buf} (hb : ∀ b, (buf' b).dev = (buf b).dev ∧ (buf' b).blockno = (buf b).blockno) :
    Assigned buf' (update pc p c) where
  unique b c := by rw [(hb b).1, (hb c).1, (hb b).2, (hb c).2]; exact h.unique b c
  ident q b blk hq := by
    have := h.ident q b blk
    have := h.ident p b blk
    grind

theorem Assigned.enter (h : Assigned buf pc) {x : Buf}
    (hx : x.dev = rootDev ∧ x.blockno = blk) (hu : ∀ c, c ≠ b → (buf c).dev = rootDev → (buf c).blockno ≠ blk)
    (hold : ∀ q blk', (pc q).ref = some (b, blk') → blk' = blk ∧ (buf b).dev = rootDev) :
    Assigned (update buf b x) (update pc p (.wanting b blk)) where
  unique c c' hc0 hdev hblk := by
    have := h.unique c c'
    have := hu c
    have := hu c'
    grind
  ident q c blk' hq := by
    have := h.ident q c blk'
    have := hold q blk'
    grind [Pc.ref]

/-- Steps that take or give up no lock. -/
theorem locks_move {owner : Fin nbuf → Option Nat} (h : ∀ b p, owner b = some p ↔ (pc p).lock = some b)
    (hc : c.lock = (pc p).lock) (b : Fin nbuf) (q : Nat) :
    owner b = some q ↔ (update pc p c q).lock = some b := by
  by_cases e : q = p <;> simp_all

/-- A session's step does not change how another buffer is held. -/
theorem holdOf_other (h : Inv s) (hpc : s'.pc = update s.pc p c)
    (hb : (s.pc p).lock ≠ some b) (ho : s'.owner b = s.owner b) : holdOf s' b = holdOf s b := by
  unfold holdOf
  rw [ho, hpc]
  cases hq : s.owner b with
  | none => rfl
  | some q =>
    have := (h.locks b q).mp hq
    have e : q ≠ p := by grind
    simp [e]

theorem holdOf_owner (h : s.owner b = some p) : holdOf s b = (s.pc p).hold := by
  rw [holdOf, h]; rfl

/-- A step on one buffer and its block keeps coherence if it keeps that buffer's. -/
theorem Coherent.touch (h : Inv s) (hdev : (s.buf b).dev = rootDev)
    (hid : (s'.buf b).dev = (s.buf b).dev ∧ (s'.buf b).blockno = (s.buf b).blockno)
    (hbuf : ∀ c, c ≠ b → s'.buf c = s.buf c) (hdisk : ∀ blk, blk ≠ (s.buf b).blockno → s'.disk blk = s.disk blk)
    (hleft : ∀ blk, blk ≠ (s.buf b).blockno → s'.left blk = s.left blk)
    (hhold : ∀ c, c ≠ b → holdOf s' c = holdOf s c)
    (hloc : Local s'.disk s'.left (s'.buf b) (holdOf s' b)) : Coherent s' where
  buffers c hc := by
    by_cases e : c = b
    · rw [e]; exact hloc
    · rw [hbuf c e] at hc ⊢
      have hl := h.coherent.buffers c hc
      have hne : (s.buf c).blockno ≠ (s.buf b).blockno := fun e' =>
        e (h.assigned.unique c b (by rw [hc]; decide) (by rw [hc, hdev]) e')
      rw [hhold c e]
      exact ⟨by rw [hdisk _ hne, hleft _ hne]; exact hl.invalid, by rw [hdisk _ hne, hleft _ hne]; exact hl.unheld,
        by rw [hdisk _ hne]; exact hl.held⟩
  uncached blk hblk := by
    have hne : blk ≠ (s.buf b).blockno := fun e => hblk b (by rw [hid.1, hdev]) (by rw [hid.2, e])
    rw [hdisk blk hne, hleft blk hne]
    refine h.coherent.uncached blk fun c hc => ?_
    by_cases e : c = b
    · rw [e]; exact Ne.symm hne
    · have := hblk c; rw [hbuf c e] at this; exact this hc

/-! ## Steps keep it -/

theorem inv_init (d : Disk) : Inv (init d) where
  counted := ⟨list_init, fun b => by simp [init, users, Pc.ref], fun b => by simp [init, users, Pc.ref]⟩
  assigned := ⟨fun b c h => by simp [init] at h, fun p b blk h => by simp [init, Pc.ref] at h⟩
  locks := fun b p => by simp [init, Pc.lock]
  coherent := ⟨fun b h => by simp [init, rootDev] at h, fun _ _ => rfl⟩

theorem no_users (h : Inv s) (hb : (s.buf b).refcnt = 0) (p blk : Nat) : (s.pc p).ref ≠ some (b, blk) := by
  intro hp
  rw [h.counted.refcnt, Set.ncard_eq_zero (h.counted.finite b)] at hb
  have hm : p ∈ users s.pc b := ⟨blk, hp⟩
  rw [hb] at hm
  exact hm

theorem lock_ref (h : c.lock = some b) : ∃ blk, c.ref = some (b, blk) := by
  cases c <;> simp_all [Pc.lock, Pc.ref]

theorem holdOf_none (h : Inv s) (hb : (s.buf b).refcnt = 0) : holdOf s b = none := by
  unfold holdOf
  cases ho : s.owner b with
  | none => rfl
  | some q =>
    obtain ⟨blk, hr⟩ := lock_ref ((h.locks b q).mp ho)
    exact absurd hr (no_users h hb q blk)

/-- A buffer `bget` may recycle has nothing the disk has not. -/
theorem unused_saved (h : Inv s) (hr : (s.buf b).refcnt = 0) (hd : (s.buf b).dirty = false)
    (hdev : (s.buf b).dev = rootDev) : s.disk (s.buf b).blockno = s.left (s.buf b).blockno := by
  have hl := h.coherent.buffers b hdev
  cases hv : (s.buf b).valid with
  | false => exact (hl.invalid hv).2.2
  | true =>
    rcases (hl.unheld hv (holdOf_none h hr)).2 with e | e
    · rw [hd] at e; cases e
    · exact e

theorem holdOf_take (h : Inv s) (hp : s.pc p = .idle) (blk : Nat) (b : Fin nbuf) (x : Buf)
    (c : Fin nbuf) : holdOf (take s p blk b x) c = holdOf s c :=
  holdOf_other h rfl (by simp [hp, Pc.lock]) rfl

theorem inv_hit (h : Inv s) (hp : s.pc p = .idle) (hb : cached s rootDev blk = some b) :
    Inv (take s p blk b { s.buf b with refcnt := (s.buf b).refcnt + 1 }) := by
  obtain ⟨hdev, hblk⟩ := cached_some h.counted hb
  have hl := h.coherent.buffers b hdev
  refine ⟨h.counted.enter (by rw [hp]; rfl) rfl, ?_, fun c q => locks_move h.locks (by rw [hp]; rfl) c q, ?_⟩
  · refine h.assigned.enter ⟨hdev, hblk⟩ (fun c e hc hc' => ?_) (fun q blk' hq => ?_)
    · exact e (h.assigned.unique c b (by rw [hc]; decide) (hc.trans hdev.symm) (hc'.trans hblk.symm))
    · have := h.assigned.ident q b blk' hq
      exact ⟨this.2.symm.trans hblk, this.1⟩
  · refine Coherent.touch h hdev (by simp [take]) (fun c e => by simp [take, e]) (fun _ _ => rfl) (fun _ _ => rfl)
      (fun c _ => holdOf_take h hp _ _ _ c) ?_
    rw [holdOf_take h hp]
    simp only [take, update_self]
    exact ⟨hl.invalid, hl.unheld, hl.held⟩

theorem inv_recycle (h : Inv s) (hp : s.pc p = .idle) (hc : cached s rootDev blk = none) (hu : unused s = some b) :
    Inv (take s p blk b
      { s.buf b with dev := rootDev, blockno := blk, valid := false, dirty := false, refcnt := 1 }) := by
  obtain ⟨hr, hd⟩ := unused_some h.counted hu
  have hnone := cached_none h.counted hc
  refine ⟨h.counted.enter (by rw [hp]; rfl) (by simp [hr]), ?_,
    fun c q => locks_move h.locks (by rw [hp]; rfl) c q, ?_, ?_⟩
  · exact h.assigned.enter ⟨rfl, rfl⟩ (fun c _ hc => hnone c hc) (fun q blk' hq => absurd hq (no_users h hr q blk'))
  · intro c hcd
    rw [holdOf_take h hp]
    by_cases e : c = b
    · subst e
      simp only [take, update_self]
      refine ⟨fun _ => ⟨holdOf_none h hr, rfl, h.coherent.uncached blk hnone⟩, fun e => (by cases e), fun e => ?_⟩
      rw [holdOf_none h hr] at e; cases e
    · simp only [take, update_of_ne e] at hcd ⊢
      exact h.coherent.buffers c hcd
  · intro blk' hblk'
    -- the block `b` was assigned to until now is no longer cached
    by_cases hold : (s.buf b).dev = rootDev ∧ (s.buf b).blockno = blk'
    · rw [← hold.2]; exact unused_saved h hr hd hold.1
    · refine h.coherent.uncached blk' fun c hcd hcb => ?_
      by_cases e : c = b
      · exact hold ⟨e ▸ hcd, e ▸ hcb⟩
      · have := hblk' c
        simp only [take, update_of_ne e] at this
        exact this hcd hcb

theorem inv_bget (h : Inv s) (hp : s.pc p = .idle) : Inv (bget s p rootDev blk) := by
  unfold bget
  split
  · rename_i b hb; exact inv_hit h hp hb
  · rename_i hc
    split
    · rename_i b hu; exact inv_recycle h hp hc hu
    · exact h

theorem locks_acquire (h : Inv s) (hp : s.pc p = .wanting b blk) (ho : s.owner b = none) (c : Fin nbuf) (q : Nat) :
    update s.owner b (some p) c = some q ↔ (update s.pc p (.locked b blk) q).lock = some c := by
  have hlock : (s.pc p).lock = none := by rw [hp]; rfl
  have := h.locks c q
  have := h.locks b q
  grind [Pc.lock]

theorem inv_acquiresleep (h : Inv s) (hp : s.pc p = .wanting b blk) : Inv (acquiresleep s p b blk) := by
  unfold acquiresleep
  split
  · exact h
  · rename_i ho
    have hid := h.assigned.ident p b blk (by rw [hp]; rfl)
    refine ⟨h.counted.move (by rw [hp]; rfl) (fun _ => rfl),
      h.assigned.move (Or.inl (by rw [hp]; rfl)) (fun _ => ⟨rfl, rfl⟩), locks_acquire h hp ho, ?_⟩
    refine Coherent.touch h hid.1 ⟨rfl, rfl⟩ (fun _ _ => rfl) (fun _ _ => rfl) (fun _ _ => rfl)
      (fun c e => holdOf_other h rfl (by simp [hp, Pc.lock]) (by simp [e])) ?_
    have hl := h.coherent.buffers b hid.1
    rw [holdOf, ho] at hl
    rw [holdOf_owner (p := p) (by simp)]
    simp only [update_self]
    exact hl

variable {k : Bool}

/-- A holder's step: it keeps its lock, and only its buffer and block change. -/
theorem inv_hold (h : Inv s) (href : (s.pc p).ref = some (b, blk))
    (hlock : (s.pc p).lock = some b) (hlinks : s'.links = s.links) (howner : s'.owner = s.owner)
    (hpc : s'.pc = update s.pc p (.holding b blk k)) (hleft : s'.left = s.left)
    (hbuf : ∀ c, c ≠ b → s'.buf c = s.buf c)
    (hid : (s'.buf b).dev = (s.buf b).dev ∧ (s'.buf b).blockno = (s.buf b).blockno ∧
      (s'.buf b).refcnt = (s.buf b).refcnt) (hdisk : ∀ x, x ≠ (s.buf b).blockno → s'.disk x = s.disk x)
    (hv : (s'.buf b).valid = true) (hk : k = true → (s'.buf b).dirty = true ∨ s'.disk blk = (s'.buf b).data) :
    Inv s' := by
  have hident := h.assigned.ident p b blk href
  have same : ∀ c, (s'.buf c).dev = (s.buf c).dev ∧ (s'.buf c).blockno = (s.buf c).blockno ∧
      (s'.buf c).refcnt = (s.buf c).refcnt := fun c => by by_cases e : c = b <;> simp_all
  refine ⟨?_, ?_, ?_, ?_⟩
  · rw [hlinks, hpc]; exact h.counted.move href (fun c => (same c).2.2)
  · rw [hpc]; exact h.assigned.move (Or.inl (by rw [href]; rfl)) (fun c => ⟨(same c).1, (same c).2.1⟩)
  · rw [howner, hpc]; exact fun c q => locks_move h.locks (by rw [hlock]; rfl) c q
  · have hhold : holdOf s' b = some k := by
      rw [holdOf_owner (p := p) (by rw [howner]; exact (h.locks b p).mpr hlock), hpc, update_self]; rfl
    refine Coherent.touch h hident.1 ⟨hid.1, hid.2.1⟩ hbuf hdisk (fun x _ => by rw [hleft])
      (fun c e => holdOf_other h hpc (by rw [hlock]; simp [Ne.symm e]) (by rw [howner])) ?_
    rw [hhold]
    refine ⟨fun e => ?_, fun _ e => (by cases e), fun e => ?_⟩
    · rw [hv] at e; cases e
    · cases e
      rw [hid.2.1, hident.2]
      exact hk rfl

theorem inv_breadReturn (h : Inv s) (hp : s.pc p = .locked b blk) : Inv (breadReturn s p b blk) := by
  have href : (s.pc p).ref = some (b, blk) := by rw [hp]; rfl
  have hlock : (s.pc p).lock = some b := by rw [hp]; rfl
  have hid := h.assigned.ident p b blk href
  have hn : holdOf s b = none := by rw [holdOf_owner ((h.locks b p).mpr hlock), hp]; rfl
  have hl := h.coherent.buffers b hid.1
  unfold breadReturn
  cases hv : (s.buf b).valid with
  | true =>
    simp only [if_true]
    refine inv_hold (k := true) h href hlock rfl rfl rfl rfl (fun _ _ => rfl) ⟨rfl, rfl, rfl⟩ (fun _ _ => rfl) hv
      (fun _ => ?_)
    obtain ⟨hdata, hd⟩ := hl.unheld hv hn
    rcases hd with hd | hd
    · exact Or.inl hd
    · right; rw [hid.2] at hd hdata; rw [hd, hdata]
  | false =>
    have hd := (hl.invalid hv).2.1
    simp only [Bool.false_eq_true, if_false, iderw, hd]
    exact inv_hold (k := true) h href hlock rfl rfl rfl rfl (fun _ e => by simp [e]) (by simp) (fun _ _ => rfl) (by simp)
      (fun _ => Or.inr (by simp [hid.2]))

theorem holding_valid (h : Inv s) (hp : s.pc p = .holding b blk k) :
    holdOf s b = some k ∧ (s.buf b).valid = true := by
  have ho : s.owner b = some p := (h.locks b p).mpr (by rw [hp]; rfl)
  have hk : holdOf s b = some k := by rw [holdOf_owner ho, hp]; rfl
  refine ⟨hk, ?_⟩
  cases hv : (s.buf b).valid with
  | true => rfl
  | false =>
    have := ((h.coherent.buffers b (h.assigned.ident p b blk (by rw [hp]; rfl)).1).invalid hv).1
    rw [hk] at this
    cases this

theorem inv_modify (h : Inv s) (hp : s.pc p = .holding b blk k) (v : Block) : Inv (modify s p b blk v) :=
  inv_hold (k := false) h (by rw [hp]; rfl) (by rw [hp]; rfl) rfl rfl rfl rfl (fun _ e => by simp [modify, e])
    (by simp [modify]) (fun _ _ => rfl) (by simp [modify, (holding_valid h hp).2]) (fun e => by cases e)

theorem inv_logWrite (h : Inv s) (hp : s.pc p = .holding b blk k) : Inv (logWrite s p b blk) :=
  inv_hold (k := true) h (by rw [hp]; rfl) (by rw [hp]; rfl) rfl rfl rfl rfl (fun _ e => by simp [logWrite, e])
    (by simp [logWrite]) (fun _ _ => rfl) (by simp [logWrite, (holding_valid h hp).2])
    (fun _ => Or.inl (by simp [logWrite]))

theorem inv_bwrite (h : Inv s) (hp : s.pc p = .holding b blk k) : Inv (bwrite s p b blk) := by
  have hid := (h.assigned.ident p b blk (by rw [hp]; rfl)).2
  simp only [bwrite, iderw, update_self, if_true]
  exact inv_hold (k := true) h (by rw [hp]; rfl) (by rw [hp]; rfl) rfl rfl rfl rfl (fun _ e => by simp [e]) (by simp)
    (fun _ e => by simp [e]) (by simp) (fun _ => Or.inr (by simp [hid]))

theorem locks_release (h : Inv s) (hp : s.pc p = .holding b blk k) (c : Fin nbuf) (q : Nat) :
    update s.owner b none c = some q ↔ (update s.pc p (.releasing b blk) q).lock = some c := by
  have hlock : (s.pc p).lock = some b := by rw [hp]; rfl
  have := h.locks c q
  have := h.locks b q
  have := h.locks b p
  grind [Pc.lock]

theorem inv_release (h : Inv s) (hp : s.pc p = .holding b blk true) : Inv (release s p b blk) := by
  have hid := h.assigned.ident p b blk (by rw [hp]; rfl)
  obtain ⟨hk, hv⟩ := holding_valid h hp
  have hl := h.coherent.buffers b hid.1
  refine ⟨h.counted.move (by rw [hp]; rfl) (fun _ => rfl),
    h.assigned.move (Or.inl (by rw [hp]; rfl)) (fun _ => ⟨rfl, rfl⟩), locks_release h hp, ?_⟩
  refine Coherent.touch h hid.1 ⟨rfl, rfl⟩ (fun _ _ => rfl) (fun _ _ => rfl) (fun _ e => by simp [release, e])
    (fun c e => holdOf_other h rfl (by simp [hp, Pc.lock, Ne.symm e]) (by simp [release, e])) ?_
  have hn : holdOf (release s p b blk) b = none := by simp [holdOf, release]
  rw [hn]
  refine ⟨fun e => ?_, fun _ _ => ?_, fun e => by cases e⟩
  · exact absurd (hv.symm.trans e) (by decide)
  · simp only [release, update_self, true_and]
    exact hl.held hk

theorem inv_drop (h : Inv s) (hp : s.pc p = .releasing b blk) : Inv (drop s p b) := by
  have href : (s.pc p).ref = some (b, blk) := by rw [hp]; rfl
  have hid := h.assigned.ident p b blk href
  have hl := h.coherent.buffers b hid.1
  -- both branches of `drop` are the same but for the list
  suffices ∀ links', (∃ l : List (Fin nbuf), Circle links' none (l.map some) ∧ ∀ b, b ∈ l) →
      Inv { uncount s p b with links := links' } by
    obtain ⟨l, hc, hm⟩ := h.counted.list
    unfold drop
    dsimp only
    split
    · exact this _ (list_move hc hm b)
    · exact this _ ⟨l, hc, hm⟩
  intro links' hlist
  refine ⟨h.counted.leave href hlist, h.assigned.move (Or.inr rfl) (fun c => ?_),
    fun c q => locks_move h.locks (by rw [hp]; rfl) c q, ?_⟩
  · by_cases e : c = b <;> simp [uncount, e]
  · have hh : ∀ c, holdOf { uncount s p b with links := links' } c = holdOf s c :=
      fun c => holdOf_other h rfl (by simp [hp, Pc.lock]) rfl
    refine Coherent.touch h hid.1 (by simp [uncount]) (fun c e => by simp [uncount, e]) (fun _ _ => rfl)
      (fun _ _ => rfl) (fun c _ => hh c) ?_
    rw [hh]
    simp only [uncount, update_self]
    exact ⟨hl.invalid, hl.unheld, hl.held⟩

/-! ## Runs -/

theorem step_inv (h : Inv s) (e : Ev) : Inv (step s e) := by
  cases e <;> simp only [step] <;> split
  all_goals first
    | exact h
    | exact inv_bget h ‹_›
    | exact inv_acquiresleep h ‹_›
    | exact inv_breadReturn h ‹_›
    | exact inv_modify h ‹_› _
    | exact inv_logWrite h ‹_›
    | exact inv_bwrite h ‹_›
    | exact inv_release h ‹_›
    | exact inv_drop h ‹_›

theorem run_inv (h : Inv s) (es : List Ev) : Inv (run s es) := by
  induction es generalizing s with
  | nil => exact h
  | cons e es ih => exact ih (step_inv h e)

theorem inv (d : Disk) (es : List Ev) : Inv (run (init d) es) := run_inv (inv_init d) es

/-- `bread` returns the buffer of the block it was asked for, with what the last holder left in it. -/
theorem breadReturn_data (h : Inv s) (hp : s.pc p = .locked b blk) :
    (breadReturn s p b blk).pc p = .holding b blk true ∧ ((breadReturn s p b blk).buf b).dev = rootDev ∧
      ((breadReturn s p b blk).buf b).blockno = blk ∧ ((breadReturn s p b blk).buf b).data = s.left blk := by
  have hid := h.assigned.ident p b blk (by rw [hp]; rfl)
  have hn : holdOf s b = none := by rw [holdOf_owner ((h.locks b p).mpr (by rw [hp]; rfl)), hp]; rfl
  have hl := h.coherent.buffers b hid.1
  unfold breadReturn
  cases hv : (s.buf b).valid with
  | true => exact ⟨by simp, hid.1, hid.2, by rw [← hid.2]; exact (hl.unheld hv hn).1⟩
  | false =>
    obtain ⟨-, hd, hdisk⟩ := hl.invalid hv
    simp only [Bool.false_eq_true, if_false, iderw, hd, update_self]
    exact ⟨trivial, hid.1, hid.2, by rw [hdisk, hid.2]⟩

/-- Only a buffer nobody counts in and that is not pinned changes its block. -/
theorem step_keeps (h : Inv s) (e : Ev) (hb : 0 < (s.buf b).refcnt ∨ (s.buf b).dirty = true) :
    ((step s e).buf b).dev = (s.buf b).dev ∧ ((step s e).buf b).blockno = (s.buf b).blockno := by
  have keep : ∀ (c : Fin nbuf) (x : Buf), x.dev = (s.buf c).dev ∧ x.blockno = (s.buf c).blockno →
      (update s.buf c x b).dev = (s.buf b).dev ∧ (update s.buf c x b).blockno = (s.buf b).blockno := by
    intro c x hx
    by_cases e : b = c <;> simp_all
  cases e <;> simp only [step] <;> split
  all_goals first | exact ⟨rfl, rfl⟩ | exact keep _ _ ⟨rfl, rfl⟩ | skip
  · unfold bget
    split
    · exact keep _ _ ⟨rfl, rfl⟩
    · split
      · rename_i c hu
        obtain ⟨hr, hd⟩ := unused_some h.counted hu
        have e : b ≠ c := fun e => by simp [e, hr, hd] at hb
        simp [take, e]
      · exact ⟨rfl, rfl⟩
  · unfold acquiresleep; split <;> exact ⟨rfl, rfl⟩
  · unfold breadReturn iderw
    dsimp only
    split
    · exact ⟨rfl, rfl⟩
    · split <;> exact keep _ _ ⟨rfl, rfl⟩
  · simp only [bwrite, iderw, update_self, if_true, update_idem]
    exact keep _ _ ⟨rfl, rfl⟩
  · unfold drop uncount
    dsimp only
    split <;> exact keep _ _ ⟨rfl, rfl⟩

/-- What the cache promises its users in a state. -/
structure Transparent (s : St) : Prop where
  reads : ∀ p b blk, s.pc p = .locked b blk → (step s (.ret p)).pc p = .holding b blk true ∧
    ((step s (.ret p)).buf b).dev = rootDev ∧ ((step s (.ret p)).buf b).blockno = blk ∧
    ((step s (.ret p)).buf b).data = s.left blk
  unique : ∀ b c, (s.buf b).dev ≠ 0 → (s.buf b).dev = (s.buf c).dev → (s.buf b).blockno = (s.buf c).blockno → b = c
  counts : ∀ b, (users s.pc b).Finite ∧ (s.buf b).refcnt = (users s.pc b).ncard
  keeps : ∀ e b, 0 < (s.buf b).refcnt ∨ (s.buf b).dirty = true →
    ((step s e).buf b).dev = (s.buf b).dev ∧ ((step s e).buf b).blockno = (s.buf b).blockno
  list : ∃ l : List (Fin nbuf), Circle s.links none (l.map some) ∧ ∀ b, b ∈ l

theorem buffer_cache_transparent (d : Disk) (es : List Ev) : Transparent (run (init d) es) := by
  have h := inv d es
  refine ⟨fun p b blk hp => ?_, h.assigned.unique, fun b => ⟨h.counted.finite b, h.counted.refcnt b⟩,
    fun e b hb => step_keeps h e hb, h.counted.list⟩
  simp only [step, hp]
  exact breadReturn_data h hp

end Xv6.Bio
