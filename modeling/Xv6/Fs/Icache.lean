/-
  Xv6.Fs.Icache — the inode cache (`fs.c`: `iget`, `idup`, `ilock`, `iunlock`, `ialloc`,
  `iupdate`, `iput`).

  A reference is what `iget` and `idup` hand out and `iput` drops; `handle` has one name
  for each. The processes use them: several may lock through one reference (an open file
  shared after `fork`), and a reference is not dropped while one does. Every section
  under `icache.lock` is a step, and so is every acquisition or release of an inode's
  sleep-lock; what is done under the sleep-lock is cut further, at every write of the
  on-disk inode, so that `ialloc` can come in between.

  `iput` goes through its steps in the reference's `Stage`. `ialloc` is two steps: the
  iteration that finds its inode free and marks it, and the `iget` it returns.

  `entries` is not in the code: how many entries of linked directories name an inode.
  `iget` is called for an inode some such entry names. Directory entries come and go at
  any time, but an inode's link count on disk stays at least their number; whoever
  changes an inode calls `iupdate` before it unlocks, and only `iput` clears a type.

  Proved, over every run (`inv`, `icache_identity`): in use, an inode has one entry;
  `ref` counts its references; an inode is freed only by the holder of its only
  reference; what `ilock` returns is the on-disk inode.
-/

import Xv6.Fs.Layout
import Xv6.Lib.Shared

namespace Xv6.Fs.Icache

open Xv6.Lib.Shared Function

/-- A device and an inode number. -/
abbrev Id := Nat × Nat

structure Inode where
  dev : Nat
  inum : Nat
  ref : Nat
  valid : Bool
  copy : Dinode

def Inode.id (ip : Inode) : Id := (ip.dev, ip.inum)

inductive Stage where
  | live
  /-- In `iput`, before `acquiresleep`. -/
  | putting
  | locked
  /-- `ref` was read as `r`. -/
  | sampled (r : Nat)
  /-- `itrunc` is done. -/
  | truncated
  /-- Type 0 is on disk. -/
  | zeroed
  | unlocking (freed : Bool)
  | dropping (freed : Bool)
  deriving DecidableEq

inductive Handle where
  | none
  /-- `ialloc` has marked the inode and not called `iget` yet. -/
  | claimed (k : Id)
  | ref (i : Fin ninode) (k : Id) (st : Stage)
  deriving DecidableEq

/-- A process in `ilock` or after it, through reference `h`. -/
inductive Pc where
  | idle
  | waiting (i : Fin ninode) (h : Nat)
  | locked (i : Fin ninode) (h : Nat)
  /-- `ilock` has returned; `saved`: no change since the last `iupdate`. -/
  | holding (i : Fin ninode) (h : Nat) (saved : Bool)
  deriving DecidableEq

/-- Who holds a sleep-lock: a process after `ilock`, or an `iput`. -/
inductive Owner (n : Nat) where
  | proc (p : Fin n)
  | put (h : Nat)
  deriving DecidableEq

structure St (n : Nat) where
  inode : Fin ninode → Inode
  owner : Fin ninode → Option (Owner n)
  disk : Id → Dinode
  entries : Id → Nat
  handle : Nat → Handle
  pc : Fin n → Pc

variable {n : Nat}

/-! ## `fs.c` -/

def setInode (s : St n) (i : Fin ninode) (ip : Inode) : St n := { s with inode := Function.update s.inode i ip }

def setHandle (s : St n) (h : Nat) (x : Handle) : St n := { s with handle := Function.update s.handle h x }

def setPc (s : St n) (p : Fin n) (c : Pc) : St n := { s with pc := Function.update s.pc p c }

def setOwner (s : St n) (i : Fin ninode) (o : Option (Owner n)) : St n :=
  { s with owner := Function.update s.owner i o }

def setDisk (s : St n) (k : Id) (d : Dinode) : St n := { s with disk := Function.update s.disk k d }

def find (s : St n) (k : Id) : Option (Fin ninode) :=
  (List.finRange ninode).find? fun i => decide (0 < (s.inode i).ref) && decide ((s.inode i).id = k)

def empty (s : St n) : Option (Fin ninode) := (List.finRange ninode).find? fun i => (s.inode i).ref == 0

def iget (s : St n) (h : Nat) (k : Id) : St n :=
  match find s k with
  | some i =>
    setHandle (setInode s i { s.inode i with ref := (s.inode i).ref + 1 }) h (.ref i k .live)
  | none =>
    match empty s with
    | some i =>
      setHandle (setInode s i { s.inode i with dev := k.1, inum := k.2, ref := 1, valid := false }) h (.ref i k .live)
    | none => s

def idup (s : St n) (i : Fin ninode) (k : Id) (h' : Nat) : St n :=
  setHandle (setInode s i { s.inode i with ref := (s.inode i).ref + 1 }) h' (.ref i k .live)

/-- `ialloc`'s test and marking of one inode. -/
def ialloc (s : St n) (h : Nat) (k : Id) (t : FileType) : St n :=
  if (s.disk k).type = none then setHandle (setDisk s k (Dinode.blank (some t))) h (.claimed k) else s

/-- `iupdate`: the copy goes to disk. -/
def iupdate (s : St n) (i : Fin ninode) : St n := setDisk s (s.inode i).id (s.inode i).copy

/-- The rest of `ilock` after `acquiresleep`. -/
def ilockLoad (s : St n) (p : Fin n) (i : Fin ninode) (h : Nat) : St n :=
  if (s.inode i).valid then setPc s p (.holding i h true)
  else if (s.disk (s.inode i).id).type = none then s
  else setPc (setInode s i { s.inode i with copy := s.disk (s.inode i).id, valid := true }) p (.holding i h true)

/-- The next step of `iput` on a reference to `inode[i]`. -/
def iputStep (s : St n) (h : Nat) (i : Fin ninode) (k : Id) : Stage → St n
  | .live => s
  | .putting => match s.owner i with
    | none => setHandle (setOwner s i (some (.put h))) h (.ref i k .locked)
    | some _ => s
  | .locked =>
    if (s.inode i).valid ∧ (s.inode i).copy.nlink = 0 then setHandle s h (.ref i k (.sampled (s.inode i).ref))
    else setHandle s h (.ref i k (.unlocking false))
  | .sampled r =>
    if r = 1 then
      setHandle (iupdate (setInode s i { s.inode i with copy := { (s.inode i).copy with size := 0, addrs := fun _ => 0 } }) i)
        h (.ref i k .truncated)
    else setHandle s h (.ref i k (.unlocking false))
  | .truncated =>
    setHandle (iupdate (setInode s i { s.inode i with copy := { (s.inode i).copy with type := none } }) i)
      h (.ref i k .zeroed)
  | .zeroed => setHandle (setInode s i { s.inode i with valid := false }) h (.ref i k (.unlocking true))
  | .unlocking f => setHandle (setOwner s i none) h (.ref i k (.dropping f))
  | .dropping _ => setHandle (setInode s i { s.inode i with ref := (s.inode i).ref - 1 }) h .none

inductive Ev (n : Nat) where
  | iget (h : Nat) (k : Id)
  | ialloc (h : Nat) (k : Id) (t : FileType)
  | igetNew (h : Nat)
  | idup (h h' : Nat)
  | ilock (p : Fin n) (h : Nat)
  | acquire (p : Fin n)
  | load (p : Fin n)
  | modify (p : Fin n) (d : Dinode)
  | iupdate (p : Fin n)
  | iunlock (p : Fin n)
  | iput (h : Nat)
  | put (h : Nat)
  | addEntry (k : Id)
  | removeEntry (k : Id)

/-- Some process is in `ilock`, or after it, through `h`. -/
def Pc.uses : Pc → Option (Fin ninode × Nat)
  | .idle => none
  | .waiting i h | .locked i h | .holding i h _ => some (i, h)

def inUse (s : St n) (h : Nat) : Prop := ∃ p, ((s.pc p).uses.map Prod.snd) = some h

instance (s : St n) (h : Nat) : Decidable (inUse s h) := inferInstanceAs (Decidable (∃ _, _))

/-- One step, if it is enabled. -/
def step (s : St n) : Ev n → St n
  | .iget h k => if s.handle h = .none ∧ 0 < s.entries k then iget s h k else s
  | .ialloc h k t => if s.handle h = .none then ialloc s h k t else s
  | .igetNew h => match s.handle h with
    | .claimed k => iget s h k
    | _ => s
  | .idup h h' => match s.handle h with
    | .ref i k .live => if s.handle h' = .none then idup s i k h' else s
    | _ => s
  | .ilock p h => match s.pc p, s.handle h with
    | .idle, .ref i _ .live => setPc s p (.waiting i h)
    | _, _ => s
  | .acquire p => match s.pc p with
    | .waiting i h => if (s.owner i).isNone then setPc (setOwner s i (some (.proc p))) p (.locked i h) else s
    | _ => s
  | .load p => match s.pc p with
    | .locked i h => ilockLoad s p i h
    | _ => s
  | .modify p d => match s.pc p with
    | .holding i h _ =>
      setPc (setInode s i { s.inode i with copy := { d with type := (s.inode i).copy.type } }) p (.holding i h false)
    | _ => s
  | .iupdate p => match s.pc p with
    | .holding i h _ =>
      if (s.entries (s.inode i).id : Int) ≤ (s.inode i).copy.nlink then setPc (iupdate s i) p (.holding i h true) else s
    | _ => s
  | .iunlock p => match s.pc p with
    | .holding i _ true => setPc (setOwner s i none) p .idle
    | _ => s
  | .iput h => match s.handle h with
    | .ref i k .live => if inUse s h then s else setHandle s h (.ref i k .putting)
    | _ => s
  | .put h => match s.handle h with
    | .ref i k st => iputStep s h i k st
    | _ => s
  | .addEntry k =>
    if (s.disk k).type ≠ none ∧ (s.entries k : Int) < (s.disk k).nlink then
      { s with entries := Function.update s.entries k (s.entries k + 1) }
    else s
  | .removeEntry k => { s with entries := Function.update s.entries k (s.entries k - 1) }

def run (s : St n) (es : List (Ev n)) : St n := es.foldl step s

/-! ## The invariant -/

def Pc.lock : Pc → Option (Fin ninode)
  | .locked i _ | .holding i _ _ => some i
  | _ => none

def Stage.locks : Stage → Bool
  | .locked | .sampled _ | .truncated | .zeroed | .unlocking _ => true
  | _ => false

/-- The reference's own `iput` has freed the inode. -/
def Stage.freed : Stage → Bool
  | .zeroed | .unlocking true | .dropping true => true
  | _ => false

/-- `iput` has found no other reference and has not freed the inode yet. -/
def Stage.sole : Stage → Bool
  | .sampled r => r == 1
  | .truncated => true
  | _ => false

def Handle.slot : Handle → Option (Fin ninode)
  | .ref i _ _ => some i
  | _ => Option.none

def Handle.lock : Handle → Option (Fin ninode)
  | .ref i _ st => if st.locks then some i else Option.none
  | _ => Option.none

/-- The lock a process or an `iput` holds. -/
def holds (pc : Fin n → Pc) (handle : Nat → Handle) : Owner n → Option (Fin ninode)
  | .proc p => (pc p).lock
  | .put h => (handle h).lock

def refs (inode : Fin ninode → Inode) (i : Fin ninode) : Nat := (inode i).ref

def slots (handle : Nat → Handle) (h : Nat) : Option (Fin ninode) := (handle h).slot

/-- The copy and the disk may differ. -/
def Unsaved (pc : Fin n → Pc) (handle : Nat → Handle) (i : Fin ninode) : Prop :=
  (∃ p h, pc p = .holding i h false) ∨ ∃ h k, handle h = .ref i k .zeroed

variable {inode : Fin ninode → Inode} {owner : Fin ninode → Option (Owner n)} {disk : Id → Dinode}
  {entries : Id → Nat} {handle : Nat → Handle} {pc : Fin n → Pc}

structure Core (inode : Fin ninode → Inode) (owner : Fin ninode → Option (Owner n)) (disk : Id → Dinode)
    (entries : Id → Nat) (handle : Nat → Handle) (pc : Fin n → Pc) : Prop where
  ident : ∀ h i k st, handle h = .ref i k st → (inode i).id = k
  counted : Counted (refs inode) (slots handle)
  unique : ∀ i j, 0 < refs inode i → 0 < refs inode j → (inode i).id = (inode j).id → i = j
  sess : ∀ p i h, (pc p).uses = some (i, h) → ∃ k, handle h = .ref i k .live
  locks : Held owner (holds pc handle)
  alive : ∀ h i k st, handle h = .ref i k st → st.freed = false → (disk k).type ≠ none
  fresh : ∀ h k, handle h = .claimed k → (disk k).type ≠ none ∧ (disk k).nlink = 0 ∧
    (∀ h' i st, handle h' = .ref i k st → st.freed = true) ∧ ∀ h', handle h' = .claimed k → h' = h
  linked : ∀ k, 0 < entries k → (disk k).type ≠ none ∧ (entries k : Int) ≤ (disk k).nlink
  coh : ∀ i, 0 < refs inode i → (inode i).valid = true → ¬ Unsaved pc handle i →
    (inode i).copy = disk (inode i).id ∧ (inode i).copy.type ≠ none
  hold : ∀ p i h b, pc p = .holding i h b → (inode i).valid = true ∧ (inode i).copy.type = (disk (inode i).id).type
  sole : ∀ h i k st, handle h = .ref i k st → st.sole = true →
    (inode i).valid = true ∧ (inode i).copy.nlink = 0 ∧ ∀ h', slots handle h' = some i → h' = h

def Inv (s : St n) : Prop := Core s.inode s.owner s.disk s.entries s.handle s.pc

/-! ## Updates -/

theorem refs_update (inode : Fin ninode → Inode) (i : Fin ninode) (ip : Inode) :
    refs (update inode i ip) = update (refs inode) i ip.ref := by
  funext j
  grind [refs, update_apply]

theorem slots_update (handle : Nat → Handle) (h : Nat) (x : Handle) :
    slots (update handle h x) = update (slots handle) h x.slot := by
  funext j
  grind [slots, update_apply]

theorem holds_pc (pc : Fin n → Pc) (handle : Nat → Handle) (p : Fin n) (c : Pc) :
    holds (update pc p c) handle = update (holds pc handle) (.proc p) c.lock := by
  funext o
  cases o <;> grind [holds, update_apply]

theorem holds_handle (pc : Fin n → Pc) (handle : Nat → Handle) (h : Nat) (x : Handle) :
    holds pc (update handle h x) = update (holds pc handle) (.put h) x.lock := by
  funext o
  cases o <;> grind [holds, update_apply]

variable {i : Fin ninode}

theorem refs_keep (ip : Inode) (hr : ip.ref = (inode i).ref) : refs (update inode i ip) = refs inode := by
  rw [refs_update, hr]; exact update_eq_self _ _

theorem id_keep (ip : Inode) (hi : ip.id = (inode i).id) (j : Fin ninode) :
    (update inode i ip j).id = (inode j).id := by
  grind [update_apply]

variable {hd : Nat} {k : Id} {st : Stage}

theorem slots_keep (hh : handle hd = .ref i k st) (st' : Stage) :
    slots (update handle hd (.ref i k st')) = slots handle := by
  rw [slots_update, show (Handle.ref i k st').slot = slots handle hd by rw [slots, hh]; rfl, update_eq_self]

/-- A reference after a stage of `iput` was one before, to the same inode, and freed if it was. -/
theorem stage_old {st' : Stage} (hh : handle hd = .ref i k st)
    (hf : st'.freed = st.freed) (h' : Nat) (j : Fin ninode) (k' : Id) (st'' : Stage)
    (e : update handle hd (.ref i k st') h' = .ref j k' st'') :
    ∃ st₀, handle h' = .ref j k' st₀ ∧ st''.freed = st₀.freed := by
  by_cases eh : h' = hd
  · exact ⟨st, by grind⟩
  · exact ⟨st'', by grind⟩

theorem stage_claimed (hh : handle hd = .ref i k st) (st' : Stage)
    (h' : Nat) (k' : Id) : update handle hd (.ref i k st') h' = .claimed k' ↔ handle h' = .claimed k' := by
  grind [update_apply]

theorem Unsaved.locked {pc : Fin n → Pc} {handle : Nat → Handle} (h : Unsaved pc handle i) :
    ∃ o, holds pc handle o = some i ∧ ((∃ p h, o = .proc p ∧ pc p = .holding i h false) ∨
      ∃ h k, o = .put h ∧ handle h = .ref i k .zeroed) := by
  rcases h with ⟨p, h, hp⟩ | ⟨h, k, hh⟩
  · exact ⟨.proc p, by simp [holds, hp, Pc.lock], Or.inl ⟨p, h, rfl, hp⟩⟩
  · exact ⟨.put h, by simp [holds, hh, Handle.lock, Stage.locks], Or.inr ⟨h, k, rfl, hh⟩⟩

theorem Unsaved.update {pc : Fin n → Pc} {handle : Nat → Handle} {j : Fin ninode} (x : Handle)
    (h : Unsaved pc handle j) (hz : ∀ k, handle hd ≠ .ref j k .zeroed) :
    Unsaved pc (update handle hd x) j := by
  rcases h with h | ⟨h', k, e⟩
  · exact Or.inl h
  · exact Or.inr ⟨h', k, by grind [update_apply]⟩

theorem sole_not_freed (hs : st.sole = true) : st.freed = false ∧ st.locks = true := by
  cases st <;> simp_all [Stage.sole, Stage.freed, Stage.locks]

section
variable (h : Core inode owner disk entries handle pc)
include h

variable {hd : Nat}

/-- No process uses a reference that is not live. -/
theorem sess_handle (x : Handle) (hx : ∀ i k, handle hd ≠ .ref i k .live) (p : Fin n) (i : Fin ninode) (h' : Nat)
    (hp : (pc p).uses = some (i, h')) : ∃ k, update handle hd x h' = .ref i k .live := by
  obtain ⟨k, hk⟩ := h.sess p i h' hp
  exact ⟨k, by grind [update_apply]⟩

theorem locks_handle {x : Handle} (e : x.lock = (handle hd).lock) :
    Held owner (holds pc (update handle hd x)) := by
  rw [holds_handle, e, show (handle hd).lock = holds pc handle (.put hd) from rfl, update_eq_self]
  exact h.locks

variable {p : Fin n} {i : Fin ninode}

theorem uses_pos (hp : (pc p).uses = some (i, hd)) : 0 < refs inode i ∧ (disk (inode i).id).type ≠ none := by
  obtain ⟨k, hk⟩ := h.sess p i hd hp
  refine ⟨h.counted.pos (h := hd) (by rw [slots, hk]; rfl), ?_⟩
  rw [h.ident hd i k _ hk]
  exact h.alive hd i k _ hk rfl

/-- While a process has the lock no `iput` has, and the copy is saved unless that process changed it. -/
theorem proc_excl (hp : (pc p).lock = some i) :
    (∀ q, (pc q).lock = some i → q = p) ∧ (∀ hd k st, handle hd = .ref i k st → st.locks = false) ∧
      ((∀ hd, pc p ≠ .holding i hd false) → ¬ Unsaved pc handle i) := by
  have hpo : holds pc handle (.proc p) = some i := hp
  refine ⟨fun q hq => ?_, fun hd k st hh => ?_, fun hn hu => ?_⟩
  · have := h.locks.excl hpo (.proc q) hq
    cases this; rfl
  · cases hs : st.locks with
    | false => rfl
    | true =>
      have := h.locks.excl hpo (.put hd) (by simp [holds, hh, Handle.lock, hs])
      cases this
  · obtain ⟨o, ho, ⟨q, hd, rfl, hq⟩ | ⟨hd, k, rfl, -⟩⟩ := hu.locked
    · have := h.locks.excl hpo _ ho
      cases this
      exact hn hd hq
    · have := h.locks.excl hpo _ ho
      cases this

/-! ## Processes -/

theorem sess_update {c : Pc} (hu : ∀ i hd, c.uses = some (i, hd) → ∃ k, handle hd = .ref i k .live)
    (q : Fin n) (i : Fin ninode) (hd : Nat) (hq : (update pc p c q).uses = some (i, hd)) :
    ∃ k, handle hd = .ref i k .live := by
  by_cases e : q = p
  · subst e; rw [update_self] at hq; exact hu i hd hq
  · rw [update_of_ne e] at hq; exact h.sess q i hd hq

/-- A process step that changes no inode. -/
theorem inv_pc {c : Pc} {owner' : Fin ninode → Option (Owner n)} (hs : ∀ i hd, pc p ≠ .holding i hd false)
    (hu : ∀ i hd, c.uses = some (i, hd) → ∃ k, handle hd = .ref i k .live)
    (hl : Held owner' (update (holds pc handle) (.proc p) c.lock))
    (hh : ∀ i hd b, c = .holding i hd b → (inode i).valid = true ∧ (inode i).copy.type = (disk (inode i).id).type) :
    Core inode owner' disk entries handle (update pc p c) := by
  refine ⟨h.ident, h.counted, h.unique, sess_update h hu, by rw [holds_pc]; exact hl, h.alive, h.fresh, h.linked,
    fun i hr hv hn => h.coh i hr hv fun hx => hn ?_, fun q i hd b hq => ?_, h.sole⟩
  · rcases hx with ⟨q, hd, hq⟩ | hx
    · have e : q ≠ p := fun e => hs i hd (e ▸ hq)
      exact Or.inl ⟨q, hd, by rw [update_of_ne e]; exact hq⟩
    · exact Or.inr hx
  · have := h.hold q i hd b
    grind [update_apply]

variable {k : Id}

theorem inv_ilock (hp : pc p = .idle)
    (hh : handle hd = .ref i k .live) : Core inode owner disk entries handle (update pc p (.waiting i hd)) := by
  refine inv_pc h (by simp [hp]) (fun j hd' e => ?_) ?_ (by simp)
  · cases e; exact ⟨k, hh⟩
  · have : (Pc.waiting i hd).lock = holds pc handle (.proc p) := by rw [holds, hp]; rfl
    rw [this, update_eq_self]; exact h.locks

theorem inv_acquire (hp : pc p = .waiting i hd) (ho : owner i = none) :
    Core inode (update owner i (some (.proc p))) disk entries handle (update pc p (.locked i hd)) := by
  refine inv_pc h (by simp [hp]) (fun j hd' e => ?_) ?_ (by simp)
  · exact h.sess p j hd' (by rw [hp]; exact e)
  · exact h.locks.take ho (by rw [holds, hp]; rfl)

theorem inv_iunlock (hp : pc p = .holding i hd true) :
    Core inode (update owner i none) disk entries handle (update pc p .idle) := by
  refine inv_pc h (by simp [hp]) (fun j hd' e => by cases e) ?_ (by simp)
  exact h.locks.drop (by rw [holds, hp]; rfl)

/-- An inode in use other than `inode[i]` is another one on disk. -/
theorem id_ne {j : Fin ninode} (hi : 0 < refs inode i) (hj : 0 < refs inode j) (e : j ≠ i) :
    (inode j).id ≠ (inode i).id :=
  fun e' => e (h.unique j i hj hi e')

/-- A process step on the inode it has locked. -/
theorem inv_touch {b : Bool} {d : Dinode} (disk' : Id → Dinode)
    (hl : (pc p).lock = some i) (hu : (pc p).uses = some (i, hd)) (hdisk : ∀ k, k ≠ (inode i).id → disk' k = disk k)
    (htype : (disk' (inode i).id).type = (disk (inode i).id).type) (hdt : d.type = (disk' (inode i).id).type)
    (hlink : 0 < entries (inode i).id → (entries (inode i).id : Int) ≤ (disk' (inode i).id).nlink)
    (hb : b = true → d = disk' (inode i).id) :
    Core (update inode i { inode i with copy := d, valid := true }) owner disk' entries handle
      (update pc p (.holding i hd b)) := by
  obtain ⟨k, hk⟩ := h.sess p i hd hu
  obtain ⟨hpos, halive⟩ := uses_pos h hu
  obtain ⟨hex, hst, -⟩ := proc_excl h hl
  have hik := h.ident hd i k _ hk
  have hid := id_keep (i := i) { inode i with copy := d, valid := true } rfl
  have hrefs := refs_keep (i := i) { inode i with copy := d, valid := true } rfl
  have htype' : ∀ k, (disk' k).type = (disk k).type := fun k => by by_cases e : k = (inode i).id <;> grind
  refine ⟨fun h' j k' st hh => ?_, by rw [hrefs]; exact h.counted, fun a a' => ?_, sess_update h (fun j hd' e => ?_), ?_,
    fun h' j k' st hh hf => ?_, fun h' k' hc => ?_, fun k' hk' => ?_, fun j hr hv hn => ?_, fun q j hd' b' hq => ?_,
    fun h' j k' st hh hs => ?_⟩
  · exact (hid j).trans (h.ident h' j k' st hh)
  · simp only [hid, hrefs]; exact h.unique a a'
  · cases e; exact ⟨k, hk⟩
  · have : (Pc.holding i hd b).lock = holds pc handle (.proc p) := hl.symm
    rw [holds_pc, this, update_eq_self]; exact h.locks
  · rw [htype']; exact h.alive h' j k' st hh hf
  · have := h.fresh h' k' hc
    by_cases e : k' = (inode i).id <;> grind [Stage.freed]
  · have := h.linked k' hk'
    by_cases e : k' = (inode i).id <;> grind
  · rw [hrefs] at hr
    by_cases e : j = i
    · subst e
      have : b = false → Unsaved (update pc p (.holding j hd b)) handle j := fun e =>
        Or.inl ⟨p, hd, by rw [update_self, e]⟩
      rw [hid]
      grind [update_apply]
    · rw [update_of_ne e] at hv ⊢
      rw [hdisk _ (id_ne h hpos hr e)]
      refine h.coh j hr hv (fun hx => hn ?_)
      rcases hx with ⟨q, hd', hq⟩ | hx
      · exact Or.inl ⟨q, hd', by grind [update_apply, Pc.lock]⟩
      · exact Or.inr hx
  · rw [hid]
    by_cases e : q = p
    · grind [update_apply]
    · rw [update_of_ne e] at hq
      have hji : j ≠ i := fun e' => e (hex q (by rw [hq, e']; rfl))
      have hpj := (uses_pos h (show (pc q).uses = some (_, hd') by rw [hq]; rfl)).1
      rw [update_of_ne hji, hdisk _ (id_ne h hpos hpj hji)]
      exact h.hold q j hd' b' hq
  · have hji : j ≠ i := by
      intro e
      have := hst h' k' st (e ▸ hh)
      simp [(sole_not_freed hs).2] at this
    rw [update_of_ne hji]
    exact h.sole h' j k' st hh hs

/-! ## `iput` -/

variable {st : Stage}

/-- While an `iput` has the lock no process has, and the copy is saved unless it is zeroed. -/
theorem put_excl (hh : handle hd = .ref i k st) (hs : st.locks = true) :
    (∀ p, (pc p).lock ≠ some i) ∧ (∀ hd' k' st', handle hd' = .ref i k' st' → st'.locks = true → hd' = hd) ∧
      (st ≠ .zeroed → ¬ Unsaved pc handle i) := by
  have hpo : holds pc handle (.put hd) = some i := by simp [holds, hh, Handle.lock, hs]
  refine ⟨fun p hp => ?_, fun hd' k' st' hh' hs' => ?_, fun hn hu => ?_⟩
  · cases h.locks.excl hpo (.proc p) hp
  · have := h.locks.excl hpo (.put hd') (by simp [holds, hh', Handle.lock, hs'])
    cases this; rfl
  · obtain ⟨o, ho, ⟨q, hd', rfl, -⟩ | ⟨hd', k', rfl, hz⟩⟩ := hu.locked
    · cases h.locks.excl hpo _ ho
    · cases h.locks.excl hpo _ ho
      rw [hh] at hz
      cases hz
      exact hn rfl

/-- A stage of `iput` that changes no inode. -/
theorem inv_stage {st' : Stage} {owner' : Fin ninode → Option (Owner n)}
    (hh : handle hd = .ref i k st) (hlive : st = .live → ∀ p, (pc p).uses.map Prod.snd ≠ some hd)
    (hz : st ≠ .zeroed) (hf : st'.freed = st.freed)
    (hl : Held owner' (update (holds pc handle) (.put hd) (Handle.ref i k st').lock))
    (hs : st'.sole = true → (inode i).valid = true ∧ (inode i).copy.nlink = 0 ∧
      ∀ h', slots handle h' = some i → h' = hd) :
    Core inode owner' disk entries (update handle hd (.ref i k st')) pc := by
  have hslots := slots_keep hh st'
  have old := stage_old hh hf
  have oldc := stage_claimed hh st'
  refine ⟨fun h' j k' st'' e => ?_, by rw [hslots]; exact h.counted, h.unique, fun p j h' hp => ?_,
    by rw [holds_handle]; exact hl, fun h' j k' st'' e he => ?_, fun h' k' hc => ?_, h.linked,
    fun j hr hv hn => h.coh j hr hv fun hx => hn ?_, h.hold, fun h' j k' st'' e he => ?_⟩
  · obtain ⟨st₀, e₀, -⟩ := old h' j k' st'' e
    exact h.ident h' j k' st₀ e₀
  · obtain ⟨k', hk'⟩ := h.sess p j h' hp
    have := fun e => hlive e p
    exact ⟨k', by grind [update_apply]⟩
  · obtain ⟨st₀, e₀, hfr⟩ := old h' j k' st'' e
    exact h.alive h' j k' st₀ e₀ (hfr ▸ he)
  · have := h.fresh h' k'
    grind
  · exact hx.update _ (by grind)
  · have := h.sole h' j k' st''
    rw [hslots]
    grind [update_apply]

/-- The only reference to an inode is the only one to its number. -/
theorem sole_key (hh : handle hd = .ref i k st) (hs : st.sole = true)
    {h' : Nat} {j : Fin ninode} {st' : Stage} (hh' : handle h' = .ref j k st') : h' = hd := by
  have hslot : ∀ {h' j st'}, handle h' = .ref j k st' → 0 < refs inode j ∧ (inode j).id = k := fun e =>
    ⟨h.counted.pos (by rw [slots, e]; rfl), h.ident _ _ _ _ e⟩
  have e : j = i := h.unique j i (hslot hh').1 (hslot hh).1 ((hslot hh').2.trans (hslot hh).2.symm)
  subst e
  exact (h.sole hd j k st hh hs).2.2 h' (by rw [slots, hh']; rfl)

/-- No entry names an inode that an `iput` is about to free. -/
theorem sole_unlinked (hh : handle hd = .ref i k st)
    (hs : st.sole = true) (hl : st.locks = true) : entries k = 0 ∧ (disk k).type = (inode i).copy.type := by
  obtain ⟨hv, hn, -⟩ := h.sole hd i k st hh hs
  have hpos : 0 < refs inode i := h.counted.pos (h := hd) (by rw [slots, hh]; rfl)
  have hz : st ≠ .zeroed := by intro e; subst e; cases hs
  obtain ⟨hc, -⟩ := h.coh i hpos hv ((put_excl h hh hl).2.2 hz)
  rw [h.ident hd i k st hh] at hc
  refine ⟨?_, by rw [hc]⟩
  rcases Nat.eq_zero_or_pos (entries k) with e | e
  · exact e
  · have := (h.linked k e).2
    rw [← hc, hn] at this
    omega

/-- `iput` writes the inode it frees: cut to nothing, then with type 0. -/
theorem inv_write (st' : Stage) {d : Dinode} (hh : handle hd = .ref i k st)
    (hs : st.sole = true) (hl : st.locks = true) (hd0 : d.nlink = 0)
    (hst : st' = .truncated ∧ d.type = (inode i).copy.type ∨ st' = .zeroed) :
    Core (update inode i { inode i with copy := d }) owner (update disk k d) entries
      (update handle hd (.ref i k st')) pc := by
  obtain ⟨hv, hn, hsole⟩ := h.sole hd i k st hh hs
  obtain ⟨hent, htype⟩ := sole_unlinked h hh hs hl
  obtain ⟨hnp, -, -⟩ := put_excl h hh hl
  have hpos : 0 < refs inode i := h.counted.pos (h := hd) (by rw [slots, hh]; rfl)
  have hik := h.ident hd i k st hh
  have hfr : st.freed = false := by cases st <;> simp_all [Stage.sole, Stage.freed]
  have hlive : st ≠ .live := by intro e; subst e; cases hl
  have hl' : st'.locks = true := by rcases hst with ⟨e, -⟩ | e <;> rw [e] <;> rfl
  have hid := id_keep (i := i) { inode i with copy := d } rfl
  have hrefs := refs_keep (i := i) { inode i with copy := d } rfl
  have hslots := slots_keep hh st'
  have halive := h.alive hd i k st hh hfr
  -- a reference other than this one is to another inode
  have other : ∀ h' j k' st'', h' ≠ hd → handle h' = .ref j k' st'' → j ≠ i ∧ k' ≠ k := by
    intro h' j k' st'' eh e
    refine ⟨fun ej => eh (hsole h' (by rw [slots, e, ej]; rfl)), fun ek => eh (sole_key h hh hs (ek ▸ e))⟩
  have hne : ∀ j, 0 < refs inode j → j ≠ i → (inode j).id ≠ k := fun j hj e => hik ▸ id_ne h hpos hj e
  refine ⟨fun h' j k' st'' e => ?_, by rw [hrefs, hslots]; exact h.counted, fun a a' => ?_,
    sess_handle h _ (by grind), locks_handle h (by simp [hh, Handle.lock, hl, hl']), fun h' j k' st'' e he => ?_,
    fun h' k' hc => ?_, fun k' hk' => ?_, fun j hr hvj hnu => ?_, fun q j hd' b' hq => ?_, fun h' j k' st'' e he => ?_⟩
  · have := h.ident h' j k' st''
    rw [hid]
    grind [update_apply]
  · simp only [hid, hrefs]; exact h.unique a a'
  · have := h.alive h' j k' st''
    have := other h' j k' st''
    grind [update_apply, Stage.freed]
  · have := h.fresh h' k'
    grind [update_apply]
  · have := h.linked k' hk'
    grind [update_apply]
  · rw [hrefs] at hr
    have := h.coh j hr
    have := hne j hr
    by_cases ej : j = i
    · have : st' = .zeroed → Unsaved pc (update handle hd (.ref i k st')) i := fun e =>
        Or.inr ⟨hd, k, by rw [update_self, e]⟩
      rw [hid]
      grind [update_apply]
    · have hun := fun hx : Unsaved pc handle j => hnu (hx.update _ (by grind))
      rw [hid]
      grind [update_apply]
  · have ej : j ≠ i := fun ej => hnp q (by rw [hq, ej]; rfl)
    have hj := (uses_pos h (show (pc q).uses = some (_, hd') by rw [hq]; rfl)).1
    rw [hid, update_of_ne ej, update_of_ne (hne j hj ej)]
    exact h.hold q j hd' b' hq
  · rw [hslots]
    have := h.sole h' j k' st''
    have := other h' j k' st''
    grind [update_apply]

/-- `ip->valid = 0` after the inode is freed. -/
theorem inv_invalidate (hh : handle hd = .ref i k .zeroed) :
    Core (update inode i { inode i with valid := false }) owner disk entries
      (update handle hd (.ref i k (.unlocking true))) pc := by
  have hid := id_keep (i := i) { inode i with valid := false } rfl
  have hrefs := refs_keep (i := i) { inode i with valid := false } rfl
  have hslots := slots_keep hh (.unlocking true)
  obtain ⟨hnp, hno, -⟩ := put_excl h hh rfl
  have old := stage_old hh (show (Stage.unlocking true).freed = Stage.zeroed.freed from rfl)
  have oldc := stage_claimed hh (.unlocking true)
  refine ⟨fun h' j k' st' e => ?_, by rw [hrefs, hslots]; exact h.counted, fun a a' => ?_, sess_handle h _ (by grind),
    locks_handle h (by simp [hh, Handle.lock, Stage.locks]), fun h' j k' st' e he => ?_, fun h' k' hc => ?_, h.linked,
    fun j hr hv hnu => ?_, fun q j hd' b' hq => ?_, fun h' j k' st' e he => ?_⟩
  · obtain ⟨st₀, e₀, -⟩ := old h' j k' st' e
    rw [hid]; exact h.ident h' j k' st₀ e₀
  · simp only [hid, hrefs]; exact h.unique a a'
  · obtain ⟨st₀, e₀, hfr⟩ := old h' j k' st' e
    exact h.alive h' j k' st₀ e₀ (hfr ▸ he)
  · have := h.fresh h' k'
    grind
  · have ej : j ≠ i := by grind [update_apply]
    rw [hrefs] at hr
    rw [update_of_ne ej] at hv ⊢
    exact h.coh j hr hv fun hx => hnu (hx.update _ (by grind))
  · have ej : j ≠ i := fun ej => hnp q (by rw [hq, ej]; rfl)
    rw [update_of_ne ej]
    exact h.hold q j hd' b' hq
  · have hlocks := (sole_not_freed he).2
    have := h.sole h' j k' st'
    rw [hslots]
    grind [update_apply, Stage.sole]

theorem inv_drop {f : Bool} (hh : handle hd = .ref i k (.dropping f)) :
    Core (update inode i { inode i with ref := (inode i).ref - 1 }) owner disk entries
      (update handle hd .none) pc := by
  have hid := id_keep (i := i) { inode i with ref := (inode i).ref - 1 } rfl
  have hrefs := refs_update inode i { inode i with ref := (inode i).ref - 1 }
  have hpos : ∀ j, 0 < refs (update inode i { inode i with ref := (inode i).ref - 1 }) j → 0 < refs inode j := by
    intro j hj
    grind [refs, update_apply]
  have hsame : ∀ j, (update inode i { inode i with ref := (inode i).ref - 1 } j).valid = (inode j).valid ∧
      (update inode i { inode i with ref := (inode i).ref - 1 } j).copy = (inode j).copy := by
    grind [update_apply]
  have old : ∀ h' x, x ≠ .none → update handle hd .none h' = x → h' ≠ hd ∧ handle h' = x := by
    grind [update_apply]
  refine ⟨fun h' j k' st e => ?_, ?_, fun a a' ha ha' => ?_, sess_handle h _ (by grind),
    locks_handle h (by simp [hh, Handle.lock, Stage.locks]), fun h' j k' st e he => ?_, fun h' k' hc => ?_, h.linked,
    fun j hr hv hnu => ?_, fun q j hd' b' hq => ?_, fun h' j k' st e he => ?_⟩
  · rw [hid]; exact h.ident h' j k' st (old _ _ (by simp) e).2
  · rw [hrefs, slots_update]
    exact h.counted.leave (by rw [slots, hh]; rfl)
  · rw [hid, hid]; exact h.unique a a' (hpos a ha) (hpos a' ha')
  · exact h.alive h' j k' st (old _ _ (by simp) e).2 he
  · have := h.fresh h' k'
    grind
  · rw [(hsame j).1] at hv
    rw [(hsame j).2, hid]
    exact h.coh j (hpos j hr) hv fun hx => hnu (hx.update _ (by grind))
  · rw [(hsame j).1, (hsame j).2, hid]; exact h.hold q j hd' b' hq
  · rw [(hsame j).1, (hsame j).2]
    obtain ⟨h1, h2, h3⟩ := h.sole h' j k' st (old _ _ (by simp) e).2 he
    exact ⟨h1, h2, fun h'' hs => h3 h'' (by grind [slots, Handle.slot, update_apply])⟩

/-! ## New references -/

/-- `iget` or `idup` hands out a reference to `inode[i]`, which becomes `ip`: it had the
    inode already, or it was empty and no entry had. -/
theorem inv_enter {ip : Inode} (hn : (handle hd).slot = none)
    (hk : (disk k).type ≠ none) (hns : ∀ h' j st, handle h' = .ref j k st → st.sole = false)
    (hnc : ∀ h', h' ≠ hd → handle h' ≠ .claimed k) (hr : ip.ref = (inode i).ref + 1) (hid : ip.id = k)
    (hcase : (0 < (inode i).ref ∧ (inode i).id = k ∧ ip.valid = (inode i).valid ∧ ip.copy = (inode i).copy) ∨
      ((inode i).ref = 0 ∧ ip.valid = false ∧ ∀ j, 0 < refs inode j → (inode j).id ≠ k)) :
    Core (update inode i ip) owner disk entries (update handle hd (.ref i k .live)) pc := by
  have hrefs : refs (update inode i ip) = update (refs inode) i (refs inode i + 1) := by
    rw [refs_update, hr]; rfl
  have hpos : ∀ {h' j k' st}, handle h' = .ref j k' st → 0 < refs inode j := fun e =>
    h.counted.pos (by rw [slots, e]; rfl)
  have hne : ∀ j k' st, handle hd ≠ .ref j k' st := by grind [Handle.slot]
  -- an entry that some reference is to has kept its inode
  have hkeep : ∀ {h' j k' st}, handle h' = .ref j k' st → (update inode i ip j).id = (inode j).id ∧
      (update inode i ip j).valid = (inode j).valid ∧ (update inode i ip j).copy = (inode j).copy := by
    intro h' j k' st e
    have := hpos e
    grind [refs, update_apply]
  -- an entry in use with inode `k` is `inode[i]`
  have huse : ∀ j, j ≠ i → 0 < refs inode j → (inode j).id ≠ k := by
    intro j ej hj
    rcases hcase with ⟨h1, h2, -, -⟩ | ⟨-, -, h3⟩
    · exact h2 ▸ id_ne h h1 hj ej
    · exact h3 j hj
  have old : ∀ h' j k' st, update handle hd (.ref i k .live) h' = .ref j k' st →
      (h' = hd ∧ j = i ∧ k' = k ∧ st = .live) ∨ (h' ≠ hd ∧ handle h' = .ref j k' st) := by
    grind [update_apply]
  have oldc : ∀ h' k', update handle hd (.ref i k .live) h' = .claimed k' → h' ≠ hd ∧ handle h' = .claimed k' := by
    grind [update_apply]
  refine ⟨fun h' j k' st e => ?_, ?_, fun a a' ha ha' haa => ?_, sess_handle h _ fun j k' => hne j k' _,
    locks_handle h (by cases hx : handle hd <;> simp_all [Handle.slot, Handle.lock, Stage.locks]),
    fun h' j k' st e he => ?_, fun h' k' hc => ?_, h.linked,
    fun j hrj hv hnu => ?_, fun q j hd' b' hq => ?_, fun h' j k' st e he => ?_⟩
  · rcases old _ _ _ _ e with ⟨-, rfl, rfl, -⟩ | ⟨-, e⟩
    · rw [update_self]; exact hid
    · rw [(hkeep e).1]; exact h.ident h' j k' st e
  · rw [hrefs, slots_update]
    exact h.counted.enter hn i
  · have := h.unique a a'
    have := huse a
    have := huse a'
    rw [hrefs] at ha ha'
    grind [update_apply]
  · have := h.alive h' j k' st
    grind
  · have := h.fresh h' k'
    grind
  · have := h.coh j
    have hun := fun hx : Unsaved pc handle j => hnu (hx.update _ fun k' => hne j k' _)
    rw [hrefs] at hrj
    grind [refs, update_apply]
  · obtain ⟨k', hk'⟩ := h.sess q j hd' (by rw [hq]; rfl)
    obtain ⟨e1, e2, e3⟩ := hkeep hk'
    rw [e1, e2, e3]; exact h.hold q j hd' b' hq
  · rcases old _ _ _ _ e with ⟨-, -, -, rfl⟩ | ⟨-, e₀⟩
    · cases he
    · obtain ⟨h1, h2, h3⟩ := h.sole h' j k' st e₀ he
      obtain ⟨-, e2, e3⟩ := hkeep e₀
      rw [e2, e3]
      refine ⟨h1, h2, fun h'' hs => ?_⟩
      -- the entry of the sole reference has another inode than the one handed out
      have hik := h.ident h' j k' st e₀
      have := hpos e₀
      have := hns h' j st
      have := h3 h''
      grind [refs, slots, Handle.slot, update_apply]

/-- `ialloc` marks a free inode. -/
theorem inv_claim (t : FileType) (hn : handle hd = .none) (hk : (disk k).type = none) :
    Core inode owner (update disk k (Dinode.blank (some t))) entries (update handle hd (.claimed k)) pc := by
  have old : ∀ h' j k' st, update handle hd (.claimed k) h' = .ref j k' st → handle h' = .ref j k' st := by
    grind [update_apply]
  have hslots : slots (update handle hd (.claimed k)) = slots handle := by
    rw [slots_update, show (Handle.claimed k).slot = slots handle hd by rw [slots, hn]; rfl, update_eq_self]
  refine ⟨fun h' j k' st e => h.ident h' j k' st (old _ _ _ _ e), by rw [hslots]; exact h.counted, h.unique,
    sess_handle h _ (by grind), locks_handle h (by rw [hn]; rfl), fun h' j k' st e he => ?_, fun h' k' hc => ?_,
    fun k' hk' => ?_, fun j hr hv hnu => ?_, fun q j hd' b' hq => ?_, fun h' j k' st e he => ?_⟩
  · have := h.alive h' j k' st (old _ _ _ _ e) he
    grind [update_apply]
  · have hfresh := h.fresh
    have halive := h.alive
    grind [update_apply, Dinode.blank]
  · have := h.linked k' hk'
    grind [update_apply]
  · have := h.coh j hr hv fun hx => hnu (hx.update _ (by grind))
    grind [update_apply]
  · have := (uses_pos h (show (pc q).uses = some (_, hd') by rw [hq]; rfl)).2
    have := h.hold q j hd' b' hq
    grind [update_apply]
  · rw [hslots]; exact h.sole h' j k' st (old _ _ _ _ e) he

theorem inv_entries {m : Nat} (hm : 0 < m → (disk k).type ≠ none ∧ (m : Int) ≤ (disk k).nlink) :
    Core inode owner disk (update entries k m) handle pc := by
  refine { h with linked := fun k' hk' => ?_ }
  have := h.linked k'
  grind [update_apply]

end

/-! ## Runs -/

/-- A disk and the entries of its linked directories. -/
structure Image where
  disk : Id → Dinode
  entries : Id → Nat
  linked : ∀ k, 0 < entries k → (disk k).type ≠ none ∧ (entries k : Int) ≤ (disk k).nlink

def init (m : Image) : St n :=
  ⟨fun _ => ⟨0, 0, 0, false, Dinode.blank none⟩, fun _ => none, m.disk, m.entries, fun _ => .none, fun _ => .idle⟩

theorem inv_init (m : Image) : Inv (init m : St n) where
  ident _ _ _ _ e := by cases e
  counted := ⟨fun i => by simp [init, users, slots, Handle.slot], fun i => by simp [init, users, slots, Handle.slot, refs]⟩
  unique i _ e := by simp [init, refs] at e
  sess _ _ _ e := by cases e
  locks i o := by cases o <;> simp [init, holds, Pc.lock, Handle.lock]
  alive _ _ _ _ e := by cases e
  fresh _ _ e := by cases e
  linked := m.linked
  coh i e := by simp [init, refs] at e
  hold _ _ _ _ e := by cases e
  sole _ _ _ _ e := by cases e

variable {s : St n}

theorem find_some (h : find s k = some i) : 0 < (s.inode i).ref ∧ (s.inode i).id = k := by
  simpa [find] using List.find?_some h

theorem find_none (h : find s k = none) (i : Fin ninode) (hi : 0 < refs s.inode i) : (s.inode i).id ≠ k := by
  rw [find, List.find?_eq_none] at h
  have := h i (List.mem_finRange i)
  simp only [Bool.and_eq_true, decide_eq_true_eq, not_and] at this
  exact this hi

theorem empty_some (h : empty s = some i) : (s.inode i).ref = 0 := by
  simpa [empty] using List.find?_some h

theorem inv_iget (h : Inv s) (hn : (s.handle hd).slot = none)
    (hk : (s.disk k).type ≠ none) (hns : ∀ h' j st, s.handle h' = .ref j k st → st.sole = false)
    (hnc : ∀ h', h' ≠ hd → s.handle h' ≠ .claimed k) : Inv (iget s hd k) := by
  unfold iget
  split
  · rename_i i hf
    obtain ⟨hpos, hid⟩ := find_some hf
    exact inv_enter h hn hk hns hnc rfl hid (Or.inl ⟨hpos, hid, rfl, rfl⟩)
  · rename_i hf
    split
    · rename_i i he
      have h0 := empty_some he
      exact inv_enter h hn hk hns hnc (by simp [h0]) rfl (Or.inr ⟨h0, rfl, find_none hf⟩)
    · exact h

theorem inv_igetLinked (h : Inv s) (hn : s.handle hd = .none) (he : 0 < s.entries k) : Inv (iget s hd k) := by
  obtain ⟨hk, hle⟩ := h.linked k he
  refine inv_iget h (by rw [hn]; rfl) hk (fun h' j st e => ?_) (fun h' _ e => ?_)
  · cases hs : st.sole with
    | false => rfl
    | true =>
      have := (sole_unlinked h e hs (sole_not_freed hs).2).1
      omega
  · have := (h.fresh h' k e).2.1
    omega

theorem inv_igetNew (h : Inv s) (hn : s.handle hd = .claimed k) : Inv (iget s hd k) := by
  obtain ⟨hk, -, hfr, hun⟩ := h.fresh hd k hn
  refine inv_iget h (by rw [hn]; rfl) hk (fun h' j st e => ?_) (fun h' eh e => eh (hun h' e))
  cases hs : st.sole with
  | false => rfl
  | true => exact absurd (hfr h' j st e) (by rw [(sole_not_freed hs).1]; decide)

theorem inv_idup (h : Inv s) {h' : Nat} (hh : s.handle hd = .ref i k .live)
    (hn : s.handle h' = .none) : Inv (idup s i k h') := by
  have hid := h.ident hd i k _ hh
  refine inv_enter h (by rw [hn]; rfl) (h.alive hd i k _ hh rfl) (fun h'' j st e => ?_) (fun h'' _ e => ?_) rfl hid
    (Or.inl ⟨h.counted.pos (h := hd) (by rw [slots, hh]; rfl), hid, rfl, rfl⟩)
  · cases hs : st.sole with
    | false => rfl
    | true =>
      have := sole_key h e hs hh
      subst this
      rw [hh] at e
      cases e
      cases hs
  · cases (h.fresh h'' k e).2.2.1 hd i _ hh

theorem inv_load (h : Inv s) {p : Fin n} (hp : s.pc p = .locked i hd) : Inv (ilockLoad s p i hd) := by
  have hl : (s.pc p).lock = some i := by rw [hp]; rfl
  have hu : (s.pc p).uses = some (i, hd) := by rw [hp]; rfl
  unfold ilockLoad
  split
  · rename_i hv
    refine inv_pc h (by simp [hp]) (fun j hd' e => h.sess p j hd' (by rw [hp]; exact e)) ?_ (fun j hd' b e => ?_)
    · have : (Pc.holding i hd true).lock = holds s.pc s.handle (.proc p) := hl.symm
      rw [this, update_eq_self]; exact h.locks
    · cases e
      have := h.coh i (uses_pos h hu).1 hv ((proc_excl h hl).2.2 (by simp [hp]))
      exact ⟨hv, by rw [this.1]⟩
  · split
    · exact h
    · exact inv_touch h _ hl hu (fun _ _ => rfl) rfl rfl (fun e => (h.linked _ e).2) (fun _ => rfl)

theorem inv_iputStep (h : Inv s) (hh : s.handle hd = .ref i k st) : Inv (iputStep s hd i k st) := by
  -- a stage that takes or gives up no lock
  have keep : ∀ st', st'.locks = st.locks →
      Held s.owner (update (holds s.pc s.handle) (.put hd) (Handle.ref i k st').lock) := by
    intro st' e
    have : (Handle.ref i k st').lock = holds s.pc s.handle (.put hd) := by simp [holds, hh, Handle.lock, e]
    rw [this, update_eq_self]; exact h.locks
  have hid := h.ident hd i k st hh
  cases st with
  | live => exact h
  | putting =>
    simp only [iputStep]
    split
    · rename_i ho
      refine inv_stage h hh (by simp) (by simp) rfl ?_ (fun e => by cases e)
      exact h.locks.take ho (by simp [holds, hh, Handle.lock, Stage.locks])
    · exact h
  | locked =>
    simp only [iputStep]
    split
    · rename_i hc
      refine inv_stage h hh (by simp) (by simp) rfl (keep _ rfl) (fun e => ⟨hc.1, hc.2, fun h' hs => ?_⟩)
      have h1 : refs s.inode i = 1 := by simpa [Stage.sole, refs] using e
      exact h.counted.sole h1 (h := hd) (by rw [slots, hh]; rfl) hs
    · exact inv_stage h hh (by simp) (by simp) rfl (keep _ rfl) (fun e => by cases e)
  | sampled r =>
    simp only [iputStep]
    split
    · rename_i e
      subst e
      have := inv_write h .truncated (d := { (s.inode i).copy with size := 0, addrs := fun _ => 0 }) hh rfl rfl
        (h.sole hd i k _ hh rfl).2.1 (Or.inl ⟨rfl, rfl⟩)
      simpa [Inv, iupdate, setHandle, setDisk, setInode, Inode.id, ← hid] using this
    · exact inv_stage h hh (by simp) (by simp) rfl (keep _ rfl) (fun e => by cases e)
  | truncated =>
    have := inv_write h .zeroed (d := { (s.inode i).copy with type := none }) hh rfl rfl
      (h.sole hd i k _ hh rfl).2.1 (Or.inr rfl)
    simpa [Inv, iputStep, iupdate, setHandle, setDisk, setInode, Inode.id, ← hid] using this
  | zeroed => exact inv_invalidate h hh
  | unlocking f =>
    refine inv_stage h hh (by simp) (by simp) (by cases f <;> rfl) ?_ (fun e => by cases e)
    exact h.locks.drop (by simp [holds, hh, Handle.lock, Stage.locks])
  | dropping f => exact inv_drop h hh

theorem step_inv (h : Inv s) (e : Ev n) : Inv (step s e) := by
  cases e with
  | iget hd k => simp only [step]; split; exacts [inv_igetLinked h (by tauto) (by tauto), h]
  | ialloc hd k t =>
    simp only [step, ialloc]
    split
    · split
      · exact inv_claim h t (by assumption) (by assumption)
      · exact h
    · exact h
  | igetNew hd => simp only [step]; split; exacts [inv_igetNew h (by assumption), h]
  | idup hd h' =>
    simp only [step]
    split
    · split
      · exact inv_idup h (by assumption) (by assumption)
      · exact h
    · exact h
  | ilock p hd => simp only [step]; split; exacts [inv_ilock h (by assumption) (by assumption), h]
  | acquire p =>
    simp only [step]
    split
    · split
      · rename_i ho
        exact inv_acquire h (by assumption) (Option.isNone_iff_eq_none.mp ho)
      · exact h
    · exact h
  | load p => simp only [step]; split; exacts [inv_load h (by assumption), h]
  | modify p d =>
    simp only [step]
    split
    · rename_i i hd b hp
      obtain ⟨hv, ht⟩ := h.hold p i hd b hp
      have := inv_touch h s.disk (b := false) (d := { d with type := (s.inode i).copy.type }) (p := p) (i := i)
        (by rw [hp]; rfl) (by rw [hp]; rfl) (fun _ _ => rfl) rfl ht (fun e => (h.linked _ e).2) (fun e => by cases e)
      simpa [Inv, setPc, setInode, hv] using this
    · exact h
  | iupdate p =>
    simp only [step]
    split
    · rename_i i hd b hp
      obtain ⟨hv, ht⟩ := h.hold p i hd b hp
      split
      · rename_i hle
        have := inv_touch h (update s.disk (s.inode i).id (s.inode i).copy) (b := true)
          (d := (s.inode i).copy) (p := p) (i := i) (by rw [hp]; rfl) (by rw [hp]; rfl)
          (fun k e => by simp [e]) (by simp [ht]) (by simp) (fun _ => by simpa using hle) (fun _ => by simp)
        have hs : ({ s.inode i with copy := (s.inode i).copy, valid := true } : Inode) = s.inode i := by rw [← hv]
        rw [hs, update_eq_self] at this
        exact this
      · exact h
    · exact h
  | iunlock p => simp only [step]; split; exacts [inv_iunlock h (by assumption), h]
  | iput hd =>
    simp only [step]
    split
    · rename_i i k hh
      split
      · exact h
      · rename_i hu
        refine inv_stage h hh (fun _ p hp => hu ⟨p, hp⟩) (by simp) rfl ?_ (fun e => by cases e)
        have : (Handle.ref i k .putting).lock = holds s.pc s.handle (.put hd) := by
          simp [holds, hh, Handle.lock, Stage.locks]
        rw [this, update_eq_self]; exact h.locks
    · exact h
  | put hd => simp only [step]; split; exacts [inv_iputStep h (by assumption), h]
  | addEntry k =>
    simp only [step]
    split
    · rename_i hk
      exact inv_entries h (fun _ => ⟨hk.1, by push_cast; omega⟩)
    · exact h
  | removeEntry k =>
    refine inv_entries h (fun e => ?_)
    have := h.linked k (by omega)
    exact ⟨this.1, by omega⟩

theorem run_inv (h : Inv s) (es : List (Ev n)) : Inv (run s es) := by
  induction es generalizing s with
  | nil => exact h
  | cons e es ih => exact ih (step_inv h e)

theorem inv (m : Image) (es : List (Ev n)) : Inv (run (init m) es) := run_inv (inv_init m) es

/-! ## What the cache promises -/

/-- Only an `iput` that has found no other reference changes the inode it drops on disk. -/
theorem iputStep_disk (h : Inv s) {k' : Id}
    (hh : s.handle hd = .ref i k st) (hk : (iputStep s hd i k st).disk k' ≠ s.disk k') :
    k' = k ∧ ∀ h' j st', s.handle h' = .ref j k' st' → h' = hd := by
  have hid := h.ident hd i k st hh
  have key : ∀ d, update s.disk (s.inode i).id d k' ≠ s.disk k' → k' = k := by
    intro d hd
    by_cases e : k' = (s.inode i).id
    · exact e.trans hid
    · rw [update_of_ne e] at hd; exact absurd rfl hd
  cases st with
  | sampled r =>
    simp only [iputStep] at hk
    split at hk
    · rename_i e
      subst e
      have e := key _ (by simpa [iupdate, setHandle, setDisk, setInode, Inode.id] using hk)
      subst e
      exact ⟨rfl, fun h' j st' e => sole_key h hh rfl e⟩
    · exact absurd rfl hk
  | truncated =>
    have e := key _ (by simpa [iputStep, iupdate, setHandle, setDisk, setInode, Inode.id] using hk)
    subst e
    exact ⟨rfl, fun h' j st' e => sole_key h hh rfl e⟩
  | putting => simp only [iputStep] at hk; split at hk <;> exact absurd rfl hk
  | locked => simp only [iputStep] at hk; split at hk <;> exact absurd rfl hk
  | _ => exact absurd rfl hk

theorem step_type (h : Inv s) (e : Ev n) (hk : (s.disk k).type ≠ none)
    (hk' : ((step s e).disk k).type = none) : ∃ hd, e = .put hd := by
  have iget_disk : ∀ hd k', (iget s hd k').disk = s.disk := by
    intro hd k'
    unfold iget
    split
    · rfl
    · split <;> rfl
  cases e with
  | put hd => exact ⟨hd, rfl⟩
  | iget hd k' => simp only [step] at hk'; split at hk' <;> simp_all
  | igetNew hd => simp only [step] at hk'; split at hk' <;> simp_all
  | ialloc hd k' t =>
    simp only [step, ialloc, setHandle, setDisk] at hk'
    repeat' split at hk'
    all_goals grind [update_apply, Dinode.blank]
  | iupdate p =>
    have := h.hold p
    simp only [step, iupdate, setPc, setDisk] at hk'
    repeat' split at hk'
    all_goals grind [update_apply]
  | _ =>
    -- the disk is not written
    simp only [step, ilockLoad] at hk'
    repeat' split at hk'
    all_goals exact absurd hk' hk

theorem ilockLoad_copy (h : Inv s) {p : Fin n} (hp : s.pc p = .locked i hd) :
    (ilockLoad s p i hd).pc p = .holding i hd true ∧
      ((ilockLoad s p i hd).inode i).copy = (ilockLoad s p i hd).disk ((ilockLoad s p i hd).inode i).id := by
  have hl : (s.pc p).lock = some i := by rw [hp]; rfl
  obtain ⟨hpos, ht⟩ := uses_pos h (show (s.pc p).uses = some (i, hd) by rw [hp]; rfl)
  unfold ilockLoad
  split
  · rename_i hv
    exact ⟨by simp [setPc], (h.coh i hpos hv ((proc_excl h hl).2.2 (by simp [hp]))).1⟩
  · exact ⟨by simp [setPc], by simp [setPc, setInode, Inode.id]⟩

structure Identity (s : St n) : Prop where
  unique : ∀ i j, 0 < (s.inode i).ref → 0 < (s.inode j).ref →
    (s.inode i).dev = (s.inode j).dev → (s.inode i).inum = (s.inode j).inum → i = j
  counts : ∀ i, {h | ∃ k st, s.handle h = .ref i k st}.Finite ∧
    (s.inode i).ref = {h | ∃ k st, s.handle h = .ref i k st}.ncard
  /-- A reference is to the entry that has its inode. -/
  refers : ∀ h i k st, s.handle h = .ref i k st → ((s.inode i).dev, (s.inode i).inum) = k
  /-- What an `iput` changes on disk is what it has the only reference to. -/
  frees : ∀ h k, (step s (.put h)).disk k ≠ s.disk k →
    (∃ i st, s.handle h = .ref i k st) ∧ ∀ h' i st, s.handle h' = .ref i k st → h' = h
  keeps : ∀ e k, (s.disk k).type ≠ none → ((step s e).disk k).type = none → ∃ h, e = .put h
  /-- `ilock` returns, with the on-disk inode in the entry. -/
  reads : ∀ p i h, s.pc p = .locked i h → (step s (.load p)).pc p = .holding i h true ∧
    ((step s (.load p)).inode i).copy = (step s (.load p)).disk ((step s (.load p)).inode i).id

theorem icache_identity (m : Image) (es : List (Ev n)) : Identity (run (init m) es) := by
  have h := inv m es
  have hset : ∀ i, {h | ∃ k st, (run (init m) es).handle h = .ref i k st} = users (slots (run (init m) es).handle) i := by
    intro i
    ext hd
    simp only [Set.mem_ofPred_eq, users, slots]
    cases (run (init m) es).handle hd <;> simp [Handle.slot]
  refine ⟨fun i j hi hj hd hn => h.unique i j hi hj (Prod.ext hd hn), fun i => ?_, h.ident, fun hd k hk => ?_,
    fun e k => step_type h e, fun p i hd hp => ?_⟩
  · rw [hset]; exact ⟨h.counted.finite i, h.counted.count i⟩
  · simp only [step] at hk
    split at hk
    · rename_i i k' st hh
      obtain ⟨rfl, hs⟩ := iputStep_disk h hh hk
      exact ⟨⟨i, st, hh⟩, hs⟩
    · exact absurd rfl hk
  · simp only [step, hp]
    exact ilockLoad_copy h hp

def slot0 : Fin ninode := ⟨0, by decide⟩

/-- One file with one link. -/
def oneLink : Image where
  disk k := if k = (rootDev, 5) then { Dinode.blank (some .file) with nlink := 1 } else Dinode.blank none
  entries k := if k = (rootDev, 5) then 1 else 0
  linked k hk := by
    by_cases e : k = (rootDev, 5)
    · simp [e, Dinode.blank]
    · simp [e] at hk

/-- Two generations in one entry: reference 0 has freed the inode and not dropped `ref` yet;
    through reference 1 the inode allocated since is locked. -/
example :
    let s : St 1 := run (init oneLink) [.iget 0 (rootDev, 5), .ilock 0 0, .acquire 0, .load 0, .removeEntry (rootDev, 5),
      .modify 0 (Dinode.blank none), .iupdate 0, .iunlock 0, .iput 0, .put 0, .put 0, .put 0, .put 0,
      .ialloc 1 (rootDev, 5) .dir, .igetNew 1, .put 0, .put 0, .ilock 0 1, .acquire 0, .load 0]
    s.handle 0 = .ref slot0 (rootDev, 5) (.dropping true) ∧ s.pc 0 = .holding slot0 1 true ∧
      (s.inode slot0).ref = 2 ∧ (s.inode slot0).copy.type = some .dir := by decide +kernel

end Xv6.Fs.Icache
