/-
  Xv6.Bio.DeviceErrors — what a buffer holds when the disk reports errors (`ide.c`:
  `idewait`, `ideintr`; `bio.c`: `bget`, `bread`).

  The sessions of `Bio.Cache`, with the status bytes that the disk shows when a read is
  complete. `ideintr` leaves the data as they are when `idewait(1)` finds an error, and
  marks the buffer valid all the same, so `bread` returns the bytes that were in it.

  `modified` is not in the code: whether a holder changed the buffer's data since they were
  last read or written.

  Nothing but the data depends on the statuses: without the data (`ctl`) a run is one of
  `Bio.Cache`, whose invariant gives who holds what and that no block has two buffers.

    • `valid_holds_block_iff`: in every state of a run an unmodified buffer that `bread`
      returned holds its block, exactly if every read that the disk reports an error for
      finds the block's bytes in the buffer already.
    • `error_leaves_old_data`: a read with an error.
-/

import Xv6.Bio.Cache

namespace Xv6.Bio.DeviceErrors

open Function

/-! ## `ide.c` -/

def IDE_BSY : BitVec 8 := 0x80
def IDE_DRDY : BitVec 8 := 0x40
def IDE_DF : BitVec 8 := 0x20
def IDE_ERR : BitVec 8 := 0x01

/-- `idewait`, with what `inb(0x1f7)` yields, in order; none if the disk is not ready yet. -/
def idewait (checkerr : Bool) : List (BitVec 8) → Option Int
  | [] => none
  | r :: rs =>
    if r &&& (IDE_BSY ||| IDE_DRDY) ≠ IDE_DRDY then idewait checkerr rs
    else if checkerr ∧ r &&& (IDE_DF ||| IDE_ERR) ≠ 0 then some (-1)
    else some 0

/-- What `ideintr` makes of the buffer; the disk has carried out the command. -/
def ideintr (s : St) (b : Fin nbuf) (status : List (BitVec 8)) : Option St :=
  if (s.buf b).dirty then some (iderw s b)
  else (idewait true status).map fun r =>
    if 0 ≤ r then iderw s b else { s with buf := Function.update s.buf b { s.buf b with valid := true } }

/-- `bread` once it has the lock. -/
def breadReturn (s : St) (p : Nat) (b : Fin nbuf) (blk : Nat) (status : List (BitVec 8)) : St :=
  match if (s.buf b).valid then some s else ideintr s b status with
  | some s' => { s' with pc := Function.update s'.pc p (.holding b blk true) }
  | none => s

/-! ## Runs -/

structure Watched where
  s : St
  modified : Fin nbuf → Bool

def start (d : Disk) : Watched := ⟨init d, fun _ => false⟩

def note (s : St) (m : Fin nbuf → Bool) : Ev → Fin nbuf → Bool
  | .bget p blk => match s.pc p, cached s rootDev blk, unused s with
    | .idle, none, some b => Function.update m b false
    | _, _, _ => m
  | .modify p _ => match s.pc p with
    | .holding b _ _ => Function.update m b true
    | _ => m
  | .bwrite p => match s.pc p with
    | .holding b _ _ => Function.update m b false
    | _ => m
  | _ => m

/-- A step, with what the disk shows at it. -/
def step (w : Watched) (e : Ev × List (BitVec 8)) : Watched :=
  ⟨match e.1 with
    | .ret p => match w.s.pc p with
      | .locked b blk => breadReturn w.s p b blk e.2
      | _ => w.s
    | e => Bio.step w.s e, note w.s w.modified e.1⟩

def run (w : Watched) (es : List (Ev × List (BitVec 8))) : Watched := es.foldl step w

/-- A buffer that `bread` has returned is valid, and holds the disk's block unless its data
    have been modified. -/
def Holds (w : Watched) : Prop := ∀ p b blk k, w.s.pc p = .holding b blk k →
  (w.s.buf b).valid = true ∧ (w.s.buf b).dev = rootDev ∧ (w.s.buf b).blockno = blk ∧
    (w.modified b = false → (w.s.buf b).data = w.s.disk blk)

/-- A read that ends with an error finds the block's bytes in the buffer. -/
def Clean (w : Watched) (e : Ev × List (BitVec 8)) : Prop := ∀ p b blk, e.1 = .ret p → w.s.pc p = .locked b blk →
  (w.s.buf b).valid = false → idewait true e.2 = some (-1) → (w.s.buf b).data = w.s.disk blk

/-- Every step of the run is clean in the state it is taken in. -/
def CleanRun : Watched → List (Ev × List (BitVec 8)) → Prop
  | _, [] => True
  | w, e :: es => Clean w e ∧ CleanRun (step w e) es

/-! ## Without the data -/

def erase (x : Buf) : Buf := { x with data := zeroBlock }

def ctl (s : St) : St := { s with buf := fun b => erase (s.buf b), disk := fun _ => zeroBlock, left := fun _ => zeroBlock }

theorem erase_update (f : Fin nbuf → Buf) (b : Fin nbuf) (x : Buf) :
    (fun c => erase (update f b x c)) = update (fun c => erase (f c)) b (erase x) := by
  funext c
  by_cases e : c = b
  · subst e; simp
  · simp [e]

theorem ctl_bget (s : St) (p dev blk : Nat) : ctl (bget s p dev blk) = ctl (bget (ctl s) p dev blk) := by
  have hc : cached (ctl s) dev blk = cached s dev blk := rfl
  have hu : unused (ctl s) = unused s := rfl
  unfold bget
  rw [hc, hu]
  cases cached s dev blk with
  | some b => simp only [ctl, take, erase_update]; rfl
  | none =>
    cases unused s with
    | some b => simp only [ctl, take, erase_update]; rfl
    | none => rfl

theorem ctl_breadReturn (s : St) (p : Nat) (b : Fin nbuf) (blk : Nat) :
    ctl (Bio.breadReturn s p b blk) = ctl (Bio.breadReturn (ctl s) p b blk) := by
  have hv : ((ctl s).buf b).valid = (s.buf b).valid := rfl
  have hd : ((ctl s).buf b).dirty = (s.buf b).dirty := rfl
  unfold Bio.breadReturn iderw
  rw [hv, hd]
  cases (s.buf b).valid with
  | true => rfl
  | false => cases (s.buf b).dirty <;> (simp only [ctl, Bool.false_eq_true, if_true, if_false, erase_update]; rfl)

theorem ctl_step (s : St) (e : Ev) : ctl (Bio.step s e) = ctl (Bio.step (ctl s) e) := by
  have hpc : (ctl s).pc = s.pc := rfl
  have ho : (ctl s).owner = s.owner := rfl
  cases e with
  | bget p blk =>
    simp only [Bio.step, hpc]
    cases s.pc p <;> first | rfl | exact ctl_bget s p rootDev blk
  | acquire p =>
    simp only [Bio.step, hpc, acquiresleep, ho]
    cases s.pc p with
    | wanting b blk => dsimp only; cases s.owner b <;> rfl
    | _ => rfl
  | ret p =>
    simp only [Bio.step, hpc]
    cases s.pc p <;> first | rfl | exact ctl_breadReturn s p _ _
  | modify p v =>
    simp only [Bio.step, hpc]
    cases s.pc p <;> first | rfl | (simp only [modify, ctl, erase_update]; rfl)
  | logWrite p =>
    simp only [Bio.step, hpc]
    cases s.pc p <;> first | rfl | (simp only [logWrite, ctl, erase_update]; rfl)
  | bwrite p =>
    simp only [Bio.step, hpc]
    cases s.pc p <;> first | rfl | (simp only [bwrite, iderw, ctl, update_self, if_true, erase_update]; rfl)
  | release p =>
    simp only [Bio.step, hpc]
    cases s.pc p with
    | holding b blk k => cases k <;> rfl
    | _ => rfl
  | drop p =>
    simp only [Bio.step, hpc]
    cases s.pc p with
    | releasing b blk =>
      simp only [drop, uncount, update_self]
      have hr : ((ctl s).buf b).refcnt = (s.buf b).refcnt := rfl
      rw [hr]
      split <;> (simp only [ctl, erase_update]; rfl)
    | _ => rfl

theorem ctl_breadWith (s : St) (p : Nat) (b : Fin nbuf) (blk : Nat) (status : List (BitVec 8)) :
    breadReturn s p b blk status = s ∨ ctl (breadReturn s p b blk status) = ctl (Bio.breadReturn s p b blk) := by
  unfold breadReturn Bio.breadReturn ideintr
  cases (s.buf b).valid with
  | true => exact .inr rfl
  | false =>
    cases hd : (s.buf b).dirty with
    | true => exact .inr rfl
    | false =>
      cases idewait true status with
      | none => exact .inl rfl
      | some r =>
        right
        by_cases hr : 0 ≤ r
        · simp [hr]
        · simp only [Bool.false_eq_true, if_false, Option.map_some, hr, iderw, hd]
          simp only [ctl, erase_update]
          rfl

/-! ## The invariant -/

/-- Without the data the state is one of `Bio.Cache`; what a valid buffer holds; a buffer that
    is not valid has not been modified. -/
structure WInv (w : Watched) : Prop where
  ctl : ∃ t, Inv t ∧ ctl w.s = ctl t
  fresh : ∀ b, (w.s.buf b).dev = rootDev → (w.s.buf b).valid = true → w.modified b = false → (w.s.buf b).data = w.s.disk (w.s.buf b).blockno
  invalid : ∀ b, (w.s.buf b).valid = false → w.modified b = false

section Facts

variable {s t : St}

theorem pc_eq (h : ctl s = ctl t) : s.pc = t.pc := (congrArg St.pc h :)

theorem erase_eq (h : ctl s = ctl t) (b : Fin nbuf) : erase (s.buf b) = erase (t.buf b) := congrFun (congrArg St.buf h) b

theorem valid_eq (h : ctl s = ctl t) (b : Fin nbuf) : (s.buf b).valid = (t.buf b).valid := (congrArg Buf.valid (erase_eq h b) :)

theorem dev_eq (h : ctl s = ctl t) (b : Fin nbuf) : (s.buf b).dev = (t.buf b).dev := (congrArg Buf.dev (erase_eq h b) :)

theorem blockno_eq (h : ctl s = ctl t) (b : Fin nbuf) : (s.buf b).blockno = (t.buf b).blockno := (congrArg Buf.blockno (erase_eq h b) :)

theorem dirty_eq (h : ctl s = ctl t) (b : Fin nbuf) : (s.buf b).dirty = (t.buf b).dirty := (congrArg Buf.dirty (erase_eq h b) :)

end Facts

variable {w : Watched}

theorem winv_start (d : Disk) : WInv (start d) :=
  ⟨⟨init d, inv_init d, rfl⟩, fun b h => absurd h (show (0 : Nat) ≠ 1 by decide), fun _ _ => rfl⟩

variable {b : Fin nbuf}

/-- The sessions with a buffer: whose it is, and that it is valid once `bread` has returned. -/
theorem WInv.ident (h : WInv w) {p blk : Nat} (hp : (w.s.pc p).ref = some (b, blk)) :
    (w.s.buf b).dev = rootDev ∧ (w.s.buf b).blockno = blk := by
  obtain ⟨t, ht, hc⟩ := h.ctl
  rw [pc_eq hc] at hp
  rw [dev_eq hc, blockno_eq hc]
  exact ht.assigned.ident p b blk hp

theorem WInv.valid (h : WInv w) {p blk : Nat} {k : Bool} (hp : w.s.pc p = .holding b blk k) :
    (w.s.buf b).valid = true := by
  obtain ⟨t, ht, hc⟩ := h.ctl
  rw [pc_eq hc] at hp
  rw [valid_eq hc]
  exact (holding_valid ht hp).2

theorem WInv.clean (h : WInv w) (hdev : (w.s.buf b).dev = rootDev) (hv : (w.s.buf b).valid = false) :
    (w.s.buf b).dirty = false := by
  obtain ⟨t, ht, hc⟩ := h.ctl
  rw [dev_eq hc] at hdev
  rw [valid_eq hc] at hv
  rw [dirty_eq hc]
  exact ((ht.coherent.buffers b hdev).invalid hv).2.1

theorem WInv.unique (h : WInv w) {c : Fin nbuf} (hb : (w.s.buf b).dev = rootDev) (hc : (w.s.buf c).dev = rootDev)
    (he : (w.s.buf b).blockno = (w.s.buf c).blockno) : b = c := by
  obtain ⟨t, ht, hct⟩ := h.ctl
  rw [dev_eq hct] at hb hc
  rw [blockno_eq hct, blockno_eq hct] at he
  exact ht.assigned.unique b c (by rw [hb]; decide) (hb.trans hc.symm) he

theorem WInv.holds (h : WInv w) : Holds w := by
  intro p b blk k hp
  have href : (w.s.pc p).ref = some (b, blk) := by rw [hp]; rfl
  obtain ⟨hdev, hblk⟩ := h.ident href
  refine ⟨h.valid hp, hdev, hblk, fun hm => ?_⟩
  rw [h.fresh b hdev (h.valid hp) hm, hblk]

/-- The control part of a step. -/
theorem WInv.ctl_step (h : WInv w) (e : Ev × List (BitVec 8)) : ∃ t, Inv t ∧ DeviceErrors.ctl (step w e).s = DeviceErrors.ctl t := by
  obtain ⟨t, ht, hc⟩ := h.ctl
  have hstep : ∀ e, DeviceErrors.ctl (Bio.step w.s e) = DeviceErrors.ctl (Bio.step t e) := fun e => by
    rw [DeviceErrors.ctl_step, DeviceErrors.ctl_step t, hc]
  obtain ⟨e, status⟩ := e
  cases e with
  | ret p =>
    have hret := hstep (.ret p)
    simp only [step, Bio.step] at hret ⊢
    cases hp : w.s.pc p with
    | locked b blk =>
      rw [hp] at hret
      rcases ctl_breadWith w.s p b blk status with he | he
      · exact ⟨t, ht, by dsimp only; rw [he]; exact hc⟩
      · exact ⟨Bio.step t (.ret p), step_inv ht _, he.trans hret⟩
    | _ => exact ⟨t, ht, hc⟩
  | _ => exact ⟨_, step_inv ht _, hstep _⟩

/-- The data part of the invariant, of a buffer. -/
def Fresh (disk : Disk) (x : Buf) (m : Bool) : Prop :=
  (x.dev = rootDev → x.valid = true → m = false → x.data = disk x.blockno) ∧ (x.valid = false → m = false)

theorem WInv.local (h : WInv w) (b : Fin nbuf) : Fresh w.s.disk (w.s.buf b) (w.modified b) := ⟨h.fresh b, h.invalid b⟩

theorem WInv.of_local (hc : ∃ t, Inv t ∧ DeviceErrors.ctl w.s = DeviceErrors.ctl t)
    (h : ∀ b, Fresh w.s.disk (w.s.buf b) (w.modified b)) : WInv w :=
  ⟨hc, fun b => (h b).1, fun b => (h b).2⟩

/-- One buffer and its mark change. -/
theorem fresh_update {buf : Fin nbuf → Buf} {m : Fin nbuf → Bool} {disk : Disk} (h : ∀ b, Fresh disk (buf b) (m b)) {x : Buf}
    {k : Bool} (hx : Fresh disk x k) (c : Fin nbuf) : Fresh disk (update buf b x c) (update m b k c) := by
  by_cases e : c = b
  · subst e
    rw [update_self, update_self]
    exact hx
  · rw [update_of_ne e, update_of_ne e]
    exact h c

theorem fresh_keep {buf : Fin nbuf → Buf} {m : Fin nbuf → Bool} {disk : Disk} (h : ∀ b, Fresh disk (buf b) (m b)) {x : Buf}
    (hx : Fresh disk x (m b)) (c : Fin nbuf) : Fresh disk (update buf b x c) (m c) := by
  have := fresh_update h (b := b) hx c
  rwa [update_eq_self] at this

theorem idewait_cases (checkerr : Bool) (status : List (BitVec 8)) :
    idewait checkerr status = none ∨ idewait checkerr status = some (-1) ∨ idewait checkerr status = some 0 := by
  induction status with
  | nil => exact .inl rfl
  | cons r rs ih =>
    unfold idewait
    split
    · exact ih
    · split
      · exact .inr (.inl rfl)
      · exact .inr (.inr rfl)

theorem drop_parts (s : St) (p : Nat) (b : Fin nbuf) :
    (drop s p b).buf = update s.buf b { s.buf b with refcnt := (s.buf b).refcnt - 1 } ∧ (drop s p b).disk = s.disk := by
  unfold drop uncount
  dsimp only
  split <;> exact ⟨rfl, rfl⟩

theorem winv_step (h : WInv w) {e : Ev × List (BitVec 8)} (hclean : Clean w e) : WInv (step w e) := by
  refine .of_local (h.ctl_step e) ?_
  have hl := h.local
  obtain ⟨e, status⟩ := e
  cases e with
  | bget p blk =>
    simp only [step, Bio.step, note]
    cases hp : w.s.pc p with
    | idle =>
      simp only [bget]
      cases cached w.s rootDev blk with
      | some b => exact fresh_keep hl (hl b)
      | none =>
        cases unused w.s with
        | some b => exact fresh_update hl ⟨fun _ e => (by cases e), fun _ => rfl⟩
        | none => exact hl
    | _ => exact hl
  | acquire p =>
    simp only [step, Bio.step, note]
    cases hp : w.s.pc p with
    | wanting b blk =>
      simp only [acquiresleep]
      cases w.s.owner b <;> exact hl
    | _ => exact hl
  | ret p =>
    simp only [step, note]
    cases hp : w.s.pc p with
    | locked b blk =>
      have href : (w.s.pc p).ref = some (b, blk) := by rw [hp]; rfl
      obtain ⟨hdev, hblk⟩ := h.ident href
      simp only [breadReturn, ideintr]
      cases hv : (w.s.buf b).valid with
      | true => exact hl
      | false =>
        have hd := h.clean hdev hv
        simp only [Bool.false_eq_true, if_false, hd]
        cases hi : idewait true status with
        | none => exact hl
        | some r =>
          simp only [Option.map_some]
          by_cases hr : 0 ≤ r
          · simp only [hr, if_true, iderw, hd, Bool.false_eq_true, if_false]
            exact fresh_keep hl ⟨fun _ _ _ => rfl, fun e => by cases e⟩
          · have herr : idewait true status = some (-1) := by
              rcases idewait_cases true status with e | e | e
              · rw [e] at hi
                cases hi
              · exact e
              · rw [e] at hi
                cases hi
                exact absurd le_rfl hr
            simp only [hr, if_false]
            refine fresh_keep hl ⟨fun _ _ _ => ?_, fun e => by cases e⟩
            show (w.s.buf b).data = w.s.disk (w.s.buf b).blockno
            rw [hblk]
            exact hclean p b blk rfl hp hv herr
    | _ => exact hl
  | modify p v =>
    simp only [step, Bio.step, note]
    cases hp : w.s.pc p with
    | holding b blk k => exact fresh_update hl ⟨fun _ _ e => (by cases e), fun e => absurd (h.valid hp) (by rw [show (w.s.buf b).valid = false from e]; decide)⟩
    | _ => exact hl
  | logWrite p =>
    simp only [step, Bio.step, note]
    cases hp : w.s.pc p with
    | holding b blk k => exact fresh_keep hl (hl b)
    | _ => exact hl
  | bwrite p =>
    simp only [step, Bio.step, note]
    cases hp : w.s.pc p with
    | holding b blk k =>
      have href : (w.s.pc p).ref = some (b, blk) := by rw [hp]; rfl
      obtain ⟨hdev, _⟩ := h.ident href
      simp only [bwrite, iderw, update_self, if_true, update_idem]
      intro c
      by_cases e : c = b
      · subst e
        simp only [update_self]
        exact ⟨fun _ _ _ => (update_self (w.s.buf c).blockno (w.s.buf c).data w.s.disk).symm, fun e => by cases e⟩
      · simp only [update_of_ne e]
        refine ⟨fun hc hv hm => ?_, (hl c).2⟩
        have hne : (w.s.buf c).blockno ≠ (w.s.buf b).blockno := fun he => e (h.unique hc hdev he)
        rw [update_of_ne hne]
        exact (hl c).1 hc hv hm
    | _ => exact hl
  | release p =>
    simp only [step, Bio.step, note]
    cases hp : w.s.pc p with
    | holding b blk k => cases k <;> exact hl
    | _ => exact hl
  | drop p =>
    simp only [step, Bio.step, note]
    cases hp : w.s.pc p with
    | releasing b blk =>
      dsimp only
      rw [(drop_parts w.s p b).1, (drop_parts w.s p b).2]
      exact fresh_keep hl (hl b)
    | _ => exact hl

/-! ## Every run -/

/-- After a read with an error that is not clean, `bread` returns other bytes than the block's. -/
theorem not_holds_step (h : WInv w) {e : Ev × List (BitVec 8)} (hclean : ¬ Clean w e) : ¬ Holds (step w e) := by
  simp only [Clean, not_forall] at hclean
  obtain ⟨p, b, blk, he, hp, hv, hi, hne⟩ := hclean
  have href : (w.s.pc p).ref = some (b, blk) := by rw [hp]; rfl
  obtain ⟨hdev, -⟩ := h.ident href
  have hs : step w e = ⟨{ w.s with buf := update w.s.buf b { w.s.buf b with valid := true },
                                   pc := update w.s.pc p (.holding b blk true) }, w.modified⟩ := by
    simp only [step, he, hp, note, breadReturn, ideintr, hv, h.clean hdev hv, hi]
    rfl
  intro hh
  rw [hs] at hh
  obtain ⟨-, -, -, hd⟩ := hh p b blk true (update_self ..)
  refine hne ((?_ : _ = _).trans (hd (h.invalid b hv)))
  simp only [update_self]

theorem cleanRun_iff (h : WInv w) (es : List (Ev × List (BitVec 8))) :
    (∀ n, Holds (run w (es.take n))) ↔ CleanRun w es := by
  induction es generalizing w with
  | nil => exact ⟨fun _ => trivial, fun _ n => by rw [List.take_nil]; exact h.holds⟩
  | cons e es ih =>
    constructor
    · intro hh
      have he : Clean w e := by
        by_contra hne
        exact not_holds_step h hne (hh 1)
      exact ⟨he, (ih (winv_step h he)).mp fun n => hh (n + 1)⟩
    · intro ⟨he, hes⟩ n
      cases n with
      | zero => exact h.holds
      | succ n => exact (ih (winv_step h he)).mpr hes n

/-- In every state of every run each buffer that `bread` has returned is valid and, unless it
    was modified since, holds the disk's block: exactly if no read of the run that the disk
    reports an error for finds other bytes in its buffer than the block's. -/
theorem valid_holds_block_iff (d : Disk) (es : List (Ev × List (BitVec 8))) :
    (∀ n, Holds (run (start d) (es.take n))) ↔ CleanRun (start d) es :=
  cleanRun_iff (winv_start d) es

deriving instance DecidableEq for Pc

/-- `bread(ROOTDEV, 5)` when the disk is ready with `IDE_ERR`: the buffer is returned valid,
    unmodified, with the zeros that were in it, whatever the block is. -/
theorem error_leaves_old_data : ∃ (d : Disk) (es : List (Ev × List (BitVec 8))) (b : Fin nbuf),
    (run (start d) es).s.pc 0 = .holding b 5 true ∧ ((run (start d) es).s.buf b).valid = true ∧
      (run (start d) es).modified b = false ∧ ((run (start d) es).s.buf b).data ≠ (run (start d) es).s.disk 5 := by
  refine ⟨fun _ _ => 1, [(.bget 0 5, []), (.acquire 0, []), (.ret 0, [IDE_DRDY ||| IDE_ERR])], ⟨0, by decide⟩, ?_, ?_, ?_, fun e => ?_⟩
  · decide +kernel
  · decide +kernel
  · decide +kernel
  · exact absurd (congrFun e ⟨0, by decide⟩) (by decide +kernel)

end Xv6.Bio.DeviceErrors
