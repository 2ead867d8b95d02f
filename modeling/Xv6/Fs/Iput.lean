/-
  Xv6.Fs.Iput — the last `iput` of an unlinked inode.

  `iput` reads the reference count under the inode's lock and gives the reference up
  later, without that lock. The holders of an inode that has no links all call `iput`,
  their actions in any order. A holder that reads 1 is alone, and truncates and frees the
  inode; if none does, nobody frees it. So the inode is freed exactly in the runs in which
  some holder reads the count after all the others have given theirs up
  (`iput_frees_iff`), and two holders that both read 2 leave it allocated for good
  (`two_iputs_lose_inode`), against the comment above `iput`.
-/

import Xv6.Fs.BlockSafety
import Xv6.Lib.Shared

namespace Xv6.Fs.Iput

open Xv6.Lib Prog Blocks Shared Function List

variable {P : Type} {sb : Superblock}

/-! ## `itrunc` alone -/

/-- The end of `iput`. -/
def finish (i : Nat) : M Unit := do
  releasesleep i
  unref i

/-- The bitmap after `bfree` of the nonzero numbers of `l`. -/
def clear (bm : Nat → Bool) (l : List Nat) (b : Nat) : Bool := if b ≠ 0 ∧ b ∈ l then false else bm b

@[simp] theorem clear_nil (bm : Nat → Bool) : clear bm [] = bm := by
  funext b
  simp [clear]

variable {bm : Nat → Bool}

theorem clear_zero {x : Nat} (l : List Nat) (h : x = 0) : clear bm (x :: l) = clear bm l := by
  funext b
  unfold clear
  by_cases e : b = 0
  · simp [e]
  · have : b ≠ x := by omega
    simp [e, this]

theorem clear_cons {x : Nat} (l : List Nat) (h : x ≠ 0) :
    clear bm (x :: l) = clear (update bm x false) l := by
  funext b
  unfold clear
  by_cases e : b = x
  · subst e; simp [h]
  · simp [e]

theorem clear_append (bm : Nat → Bool) (l l' : List Nat) : clear bm (l ++ l') = clear (clear bm l) l' := by
  funext b
  unfold clear
  by_cases h' : b ≠ 0 ∧ b ∈ l'
  · rw [if_pos h', if_pos ⟨h'.1, mem_append_right _ h'.2⟩]
  · rw [if_neg h']
    by_cases h : b ≠ 0 ∧ b ∈ l
    · rw [if_pos h, if_pos ⟨h.1, mem_append_left _ h.2⟩]
    · rw [if_neg h, if_neg fun hb => ?_]
      rcases mem_append.mp hb.2 with hl | hl
      · exact h ⟨hb.1, hl⟩
      · exact h' ⟨hb.1, hl⟩

/-- The nonzero numbers of `l` are distinct and marked. -/
structure Freeable (bm : Nat → Bool) (l : List Nat) : Prop where
  distinct : l.Pairwise fun x y => x ≠ 0 → x ≠ y
  marked : ∀ b ∈ l, b ≠ 0 → bm b = true

variable {l : List Nat}

theorem Freeable.tail {x : Nat} (h : Freeable bm (x :: l)) : Freeable bm l :=
  ⟨(pairwise_cons.mp h.distinct).2, fun b hb => h.marked b (mem_cons_of_mem _ hb)⟩

theorem Freeable.free {x : Nat} (h : Freeable bm (x :: l)) (hx : x ≠ 0) :
    Freeable (update bm x false) l := by
  refine ⟨h.tail.distinct, fun b hb hb0 => ?_⟩
  have hne : b ≠ x := ((pairwise_cons.mp h.distinct).1 b hb hx).symm
  rw [update_of_ne hne]
  exact h.tail.marked b hb hb0

theorem Freeable.left {l' : List Nat} (h : Freeable bm (l ++ l')) : Freeable bm l :=
  ⟨(pairwise_append.mp h.distinct).1, fun b hb => h.marked b (mem_append_left _ hb)⟩

theorem Freeable.right {l' : List Nat} (h : Freeable bm (l ++ l')) : Freeable (clear bm l) l' := by
  obtain ⟨_, hd, hne⟩ := pairwise_append.mp h.distinct
  refine ⟨hd, fun b hb hb0 => ?_⟩
  have hnot : ¬ (b ≠ 0 ∧ b ∈ l) := fun ⟨_, hl⟩ => hne b hl b hb hb0 rfl
  rw [clear, if_neg hnot]
  exact h.marked b (mem_append_right _ hb) hb0

section Run

variable (sb) (p : P) (ip : Nat)

variable {s : Store P}

theorem run_bfree {b : Nat} {f : Unit → M α} (h : s.bitmap b = true) : run (exec sb) p (bfree ip b >>= f) s =
      run (exec sb) p (f ()) { s with bitmap := update s.bitmap b false } := by
  refine run_act (exec sb) p (Act.bfree ip b) f ?_
  simp [exec, h]

variable {d : Dinode}

theorem run_iupdate {f : Unit → M α} (h : d.type ≠ none) :
    run (exec sb) p (iupdate ip d >>= f) s = run (exec sb) p (f ()) { s with inode := update s.inode ip d } := by
  refine run_act (exec sb) p (Act.iupdate ip d) f ?_
  simp [exec, h]

theorem run_truncDirect (js : List (Fin ndirect)) : ∀ (d : Dinode) (s : Store P), js.Nodup →
    Freeable s.bitmap (js.map fun j => d.addrs (direct j)) →
    ∃ d', run (exec sb) p (truncDirect ip js d) s =
        .ok (d', { s with bitmap := clear s.bitmap (js.map fun j => d.addrs (direct j)) }) ∧
      d'.type = d.type ∧ d'.addrs indirect = d.addrs indirect := by
  induction js with
  | nil =>
    intro d s _ _
    rw [map_nil, clear_nil]
    exact ⟨d, rfl, rfl, rfl⟩
  | cons j js ih =>
    intro d s hnd hf
    obtain ⟨hj, hnd⟩ := nodup_cons.mp hnd
    rw [map_cons] at hf ⊢
    unfold truncDirect
    by_cases h0 : d.addrs (direct j) = 0
    · rw [if_neg (not_not.mpr h0), clear_zero _ h0]
      exact ih d s hnd hf.tail
    · have hsame : (js.map fun k => (d.setAddr (direct j) 0).addrs (direct k)) = js.map fun k => d.addrs (direct k) := by
        refine map_congr_left fun k hk => update_of_ne (fun e => hj ?_) _ _
        rw [← direct_inj.mp e]; exact hk
      rw [if_pos h0, run_bfree sb p ip (hf.marked _ mem_cons_self h0), clear_cons _ h0]
      obtain ⟨d', hrun, hty, hi⟩ := ih (d.setAddr (direct j) 0)
        { s with bitmap := update s.bitmap (d.addrs (direct j)) false } hnd (by rw [hsame]; exact hf.free h0)
      rw [hsame] at hrun
      refine ⟨d', hrun, hty, hi.trans ?_⟩
      exact update_of_ne (direct_ne_indirect j).symm _ _

theorem run_truncEntries {a : Block} (js : List Nat) : ∀ s : Store P, Freeable s.bitmap (js.map (word a)) →
    run (exec sb) p (truncEntries ip a js) s = .ok ((), { s with bitmap := clear s.bitmap (js.map (word a)) }) := by
  induction js with
  | nil =>
    intro s _
    rw [map_nil, clear_nil]
    rfl
  | cons j js ih =>
    intro s hf
    rw [map_cons] at hf ⊢
    unfold truncEntries
    by_cases h0 : word a j = 0
    · rw [if_neg (not_not.mpr h0), clear_zero _ h0]
      exact ih s hf.tail
    · rw [if_pos h0, run_bfree sb p ip (hf.marked _ mem_cons_self h0), clear_cons _ h0]
      exact ih _ (hf.free h0)

/-- An inode's block numbers beyond the direct ones, in the order `itrunc` frees them. -/
def indirectSlots : List Slot := (List.finRange nindirect).map Slot.entry ++ [.ind]

def slots : List Slot := (List.finRange ndirect).map Slot.direct ++ indirectSlots

theorem mem_slots (x : Slot) : x ∈ slots := by
  unfold slots indirectSlots
  cases x <;> simp

theorem nodup_slots : slots.Nodup := by
  unfold slots indirectSlots
  refine List.Nodup.append ((nodup_finRange _).map fun _ _ h => Slot.direct.inj h) ?_ ?_
  · refine List.Nodup.append ((nodup_finRange _).map fun _ _ h => Slot.entry.inj h) (by simp) ?_
    simp [List.Disjoint]
  · simp [List.Disjoint]

theorem ptr_indirectSlots {m : Nat → Block} (h : d.addrs indirect ≠ 0) :
    indirectSlots.map (ptr d m) = (range nindirect).map (word (m (d.addrs indirect))) ++ [d.addrs indirect] := by
  rw [indirectSlots, map_append, map_map, ← map_coe_finRange_eq_range, map_map]
  congr 1
  refine map_congr_left fun j _ => ?_
  simp [ptr, h]

theorem clear_zeros {bm : Nat → Bool} {l : List Nat} (h : ∀ b ∈ l, b = 0) : clear bm l = bm := by
  funext b
  rw [clear, if_neg fun hb => hb.1 (h b hb.2)]

theorem run_truncIndirect (hf : Freeable s.bitmap (indirectSlots.map (ptr d s.data))) :
    ∃ d', run (exec sb) p (truncIndirect ip d) s =
      .ok (d', { s with bitmap := clear s.bitmap (indirectSlots.map (ptr d s.data)) }) ∧ d'.type = d.type := by
  unfold truncIndirect
  by_cases h0 : d.addrs indirect = 0
  · rw [if_neg (not_not.mpr h0), clear_zeros fun b hb => ?_]
    · exact ⟨d, rfl, rfl⟩
    · obtain ⟨x, hx, rfl⟩ := mem_map.mp hb
      cases x with
      | direct j => simp [indirectSlots] at hx
      | ind => exact h0
      | entry j => exact if_pos h0
  · rw [ptr_indirectSlots h0] at hf ⊢
    rw [if_pos h0, clear_append]
    refine ⟨d.setAddr indirect 0, ?_, rfl⟩
    show run (exec sb) p (truncEntries ip (s.data (d.addrs indirect)) _ >>= fun _ => _) s = _
    rw [run_bind_ok _ (run_truncEntries sb p ip _ s hf.left), run_bfree sb p ip (hf.right.marked _ (by simp) h0), clear_cons _ h0,
      clear_nil]
    rfl

/-- The inode's blocks are freed. -/
theorem run_itrunc (hty : d.type ≠ none) (hf : Freeable s.bitmap (slots.map (ptr d s.data))) :
    ∃ d', run (exec sb) p (itrunc ip d) s = .ok (d', { s with
      bitmap := clear s.bitmap (slots.map (ptr d s.data)), inode := update s.inode ip d' }) := by
  rw [slots, map_append, map_map] at hf ⊢
  obtain ⟨d₁, h₁, hty₁, hi₁⟩ := run_truncDirect sb p ip _ d s (nodup_finRange _) hf.left
  have hptr : indirectSlots.map (ptr d₁ s.data) = indirectSlots.map (ptr d s.data) := by
    refine map_congr_left fun x hx => ?_
    cases x with
    | direct j => simp [indirectSlots] at hx
    | ind => exact hi₁
    | entry j => simp [ptr, hi₁]
  obtain ⟨d₂, h₂, hty₂⟩ := run_truncIndirect sb p ip (d := d₁)
    (s := { s with bitmap := clear s.bitmap ((finRange ndirect).map fun j => d.addrs (direct j)) })
    (by rw [hptr]; exact hf.right)
  refine ⟨{ d₂ with size := 0 }, ?_⟩
  have hty' : d₂.type ≠ none := by rw [hty₂, hty₁]; exact hty
  rw [itrunc, run_bind_ok _ h₁, run_bind_ok _ h₂, hptr, clear_append]
  rw [run_iupdate sb p ip (d := { d₂ with size := 0 }) hty']
  rfl

/-- `iput` of the last reference, from where it has read the count. -/
theorem run_lastIput (hty : d.type ≠ none) (hf : Freeable s.bitmap (slots.map (ptr d s.data))) :
    ∃ s', run (exec sb) p (do iputFree ip d; finish ip) s = .ok ((), s') ∧ (s'.inode ip).type = none ∧
      s'.bitmap = clear s.bitmap (slots.map (ptr d s.data)) ∧ s'.freed ip = s.freed ip + 1 := by
  obtain ⟨d', h⟩ := run_itrunc sb p ip hty hf
  rw [iputFree, bind_assoc, run_bind_ok _ h]
  exact ⟨_, rfl, by simp, rfl, by simp⟩

end Run

/-! ## Holders -/

/-- What `iput` still has to do, before it knows the count. -/
inductive At where
  | lock
  | look
  | count
  | unlock
  | drop
  | done
  deriving DecidableEq

def At.prog (i : Nat) (d : Dinode) : At → M Unit
  | .lock => iput i
  | .look => do
    iputLocked i
    finish i
  | .count => do
    let r ← sample i
    (if r = 1 then iputFree i d else return ())
    finish i
  | .unlock => finish i
  | .drop => unref i
  | .done => return ()

theorem look_prog {i : Nat} {d : Dinode} (h : d.nlink = 0) :
    ∃ k, At.look.prog i d = act (.cached i) k ∧ k (some d) = At.count.prog i d := by
  refine ⟨_, rfl, ?_⟩
  show ((if d.nlink = 0 then (do let r ← sample i; if r = 1 then iputFree i d else return ()) else return ()) >>=
    fun _ => finish i) = _
  rw [if_pos h]
  rfl

theorem count_prog (i : Nat) (d : Dinode) : ∃ k : Nat → M Unit, At.count.prog i d = act (.sample i) k ∧
    (∀ n, n ≠ 1 → k n = At.unlock.prog i d) ∧ k 1 = (do iputFree i d; finish i) := by
  refine ⟨_, rfl, fun n hn => ?_, rfl⟩
  show ((if n = 1 then iputFree i d else return ()) >>= fun _ => finish i) = _
  rw [if_neg hn]
  rfl

variable [Fintype P] [DecidableEq P]

/-- Every thread holds a reference to inode `i`, which has no links. -/
structure Unlinked (s : Store P) (i : Nat) : Prop where
  ref : s.ref i = Fintype.card P
  valid : s.valid i = true
  nlink : (s.inode i).nlink = 0
  type : (s.inode i).type ≠ none
  distinct : Inj (s.inode i) s.data
  marked : ∀ b, Refs (s.inode i) s.data b → s.bitmap b = true

/-- Type 0 on disk, no block of the inode marked, written with type 0 once. -/
structure Freed (s : Store P) (i : Nat) (s' : Store P) : Prop where
  type : (s'.inode i).type = none
  blocks : ∀ b, Refs (s.inode i) s.data b → s'.bitmap b = false
  once : s'.freed i = s.freed i + 1

/-- No holder has read 1 so far. -/
structure Before (s : Store P) (i : Nat) (π : Pool Act Act.Res P (Store P) Panic) (at_ : P → At) : Prop where
  threads : ∀ p, π.threads p = (at_ p).prog i (s.inode i)
  failed : π.failed = none
  inode : π.state.inode = s.inode
  bitmap : π.state.bitmap = s.bitmap
  data : π.state.data = s.data
  valid : π.state.valid = s.valid
  freed : π.state.freed = s.freed
  count : Counted (fun _ : Unit => π.state.ref i) fun p => if at_ p = .done then none else some ()

/-- The next step is a holder's reading 1. -/
def ReadsOne (i : Nat) (π : Pool Act Act.Res P (Store P) Panic) : Ev P Empty → Prop
  | .start _ _ => False
  | .step p => (∃ k, π.threads p = act (.sample i) k) ∧ π.state.ref i = 1

section Steps

variable {s : Store P} {i : Nat} {π : Pool Act Act.Res P (Store P) Panic} {at_ : P → At} {p : P}

omit [Fintype P] in
theorem Before.move (h : Before s i π at_) {x : At} (hp : at_ p ≠ .done) (hx : x ≠ .done) (l : Nat → Option P) :
    Before s i { π with state := { π.state with lock := l },
                        threads := update π.threads p (x.prog i (s.inode i)) } (update at_ p x) := by
  refine ⟨fun q => ?_, h.failed, h.inode, h.bitmap, h.data, h.valid, h.freed, ?_⟩
  · by_cases e : q = p
    · subst e; simp
    · simp [e, h.threads]
  · have hsame : (fun q => if update at_ p x q = .done then none else some ()) =
        fun q => if at_ q = .done then none else some () := by
      funext q
      by_cases e : q = p
      · subst e; simp [hp, hx]
      · simp [e]
    rw [hsame]
    exact h.count

omit [Fintype P] in
theorem Before.leave (h : Before s i π at_) (hp : at_ p ≠ .done) : Before s i
    { π with state := { π.state with ref := update π.state.ref i (π.state.ref i - 1) },
             threads := update π.threads p (ret ()) } (update at_ p .done) := by
  refine ⟨fun q => ?_, h.failed, h.inode, h.bitmap, h.data, h.valid, h.freed, ?_⟩
  · by_cases e : q = p
    · subst e; simp [At.prog]
    · simp [e, h.threads]
  · have hc := h.count.leave (h := p) (i := ()) (by simp [hp])
    have ht : (fun q => if update at_ p .done q = .done then none else some ()) =
        update (fun q => if at_ q = .done then none else some ()) p none := by
      funext q
      by_cases e : q = p
      · subst e; simp
      · simp [e]
    have hr : (fun _ : Unit => update π.state.ref i (π.state.ref i - 1) i) =
        update (fun _ : Unit => π.state.ref i) () (π.state.ref i - 1) := by
      funext u
      simp
    rw [ht]
    show Counted (fun _ : Unit => update π.state.ref i (π.state.ref i - 1) i) _
    rw [hr]
    exact hc

theorem Before.step (sb : Superblock) (h : Before s i π at_) (hu : Unlinked s i) (e : Ev P Empty) (hne : ¬ ReadsOne i π e) :
    ∃ at', Before s i (Pool.step (exec sb) nofun π e) at' := by
  cases e with
  | start p c => cases c
  | step p =>
    have hp := h.threads p
    cases ha : at_ p with
    | lock =>
      rw [ha] at hp
      cases hl : π.state.lock i with
      | none =>
        rw [Pool.step_ok h.failed hp (by simp only [exec, hl]; rfl)]
        exact ⟨_, h.move (x := .look) (by simp [ha]) (by simp) _⟩
      | some q =>
        rw [Pool.step_wait h.failed hp (by simp only [exec, hl])]
        exact ⟨_, h⟩
    | look =>
      obtain ⟨k, hk, hnext⟩ := look_prog hu.nlink
      rw [ha, hk] at hp
      have hx : exec sb p (.cached i) π.state = .ok (some (s.inode i), π.state) := by
        simp [exec, h.valid, hu.valid, h.inode]
      rw [Pool.step_ok h.failed hp hx, hnext]
      exact ⟨_, h.move (by simp [ha]) (by simp) π.state.lock⟩
    | count =>
      obtain ⟨k, hk, hnext, _⟩ := count_prog i (s.inode i)
      rw [ha, hk] at hp
      have hr : π.state.ref i ≠ 1 := fun hr => hne ⟨⟨_, hp⟩, hr⟩
      rw [Pool.step_ok h.failed hp rfl, hnext _ hr]
      exact ⟨_, h.move (by simp [ha]) (by simp) π.state.lock⟩
    | unlock =>
      rw [ha] at hp
      rw [Pool.step_ok h.failed hp rfl]
      exact ⟨_, h.move (x := .drop) (by simp [ha]) (by simp) _⟩
    | drop =>
      rw [ha] at hp
      rw [Pool.step_ok h.failed hp rfl]
      exact ⟨_, h.leave (by simp [ha])⟩
    | done =>
      rw [ha] at hp
      rw [Pool.step_ret hp]
      exact ⟨_, h⟩

end Steps

/-! ## Alone -/

def counts : Act → Bool
  | .iget _ => true
  | .unref _ => true
  | _ => false

omit [Fintype P] [DecidableEq P] in
theorem exec_ref {p : P} {a : Act} (ha : counts a = false) {s s' : Store P} {r : a.Res}
    (h : exec sb p a s = .ok (r, s')) : s'.ref = s.ref := by
  cases a with
  | iget i => cases ha
  | unref i => cases ha
  | mark ip j => simp only [exec] at h; split at h <;> cases h <;> rfl
  | bfree ip b => simp only [exec] at h; split at h <;> cases h; rfl
  | acquiresleep i => simp only [exec] at h; split at h <;> cases h; rfl
  | load i => simp only [exec] at h; split at h <;> cases h; rfl
  | claim i t => simp only [exec] at h; split at h <;> cases h <;> rfl
  | panic m => cases h
  | _ => cases h; rfl

/-- The program gives up a reference to `i` as its last action and changes no count before. -/
inductive Drops (i : Nat) : M Unit → Prop
  | last : Drops i (unref i)
  | step {a : Act} {k : a.Res → M Unit} (ha : counts a = false) (hk : ∀ r, Drops i (k r)) : Drops i (act a k)

theorem Drops.bind {i : Nat} {c : M α} {f : α → M Unit} (hc : c.All (counts · = false)) (hf : ∀ x, Drops i (f x)) :
    Drops i (c >>= f) := by
  induction c with
  | ret x => exact hf x
  | act a k ih => exact .step hc.1 fun r => ih r (hc.2 r)

theorem all_truncDirect {ok : Act → Prop} {ip : Nat} (hb : ∀ b, ok (.bfree ip b)) (js : List (Fin ndirect)) (d : Dinode) :
    (truncDirect ip js d).All ok := by
  induction js generalizing d with
  | nil => trivial
  | cons j js ih =>
    unfold truncDirect
    split
    · exact ⟨hb _, fun _ => ih _⟩
    · exact ih d

theorem all_truncEntries {ok : Act → Prop} {ip : Nat} (hb : ∀ b, ok (.bfree ip b)) (a : Block) (js : List Nat) :
    (truncEntries ip a js).All ok := by
  induction js with
  | nil => trivial
  | cons j js ih =>
    unfold truncEntries
    split
    · exact ⟨hb _, fun _ => ih⟩
    · exact ih

theorem all_itrunc {ok : Act → Prop} {ip : Nat} (hb : ∀ b, ok (.bfree ip b)) (hr : ∀ b, ok (.bread ip b))
    (hu : ∀ d, ok (.iupdate ip d)) (d : Dinode) : (itrunc ip d).All ok := by
  refine All.bind (all_truncDirect hb _ d) fun d => All.bind ?_ fun d => ⟨hu _, fun _ => trivial⟩
  unfold truncIndirect
  split
  · refine ⟨hr _, fun (a : Block) => ?_⟩
    show All _ (truncEntries ip a _ >>= _)
    exact All.bind (all_truncEntries hb a _) fun _ => ⟨hb _, fun _ => trivial⟩
  · trivial

theorem all_iputFree (i : Nat) (d : Dinode) : (iputFree i d).All (counts · = false) :=
  All.bind (all_itrunc (fun _ => rfl) (fun _ => rfl) (fun _ => rfl) d) fun _ => ⟨rfl, fun _ => ⟨rfl, fun _ => trivial⟩⟩

/-- One holder is left, and frees the inode. -/
structure Alone (sb : Superblock) (s : Store P) (i : Nat) (π : Pool Act Act.Res P (Store P) Panic) (p : P) : Prop where
  others : ∀ q, q ≠ p → π.threads q = ret ()
  failed : π.failed = none
  run : ∃ s', run (exec sb) p (π.threads p) π.state = .ok ((), s') ∧ Freed s i s'
  ref : Drops i (π.threads p) ∧ π.state.ref i = 1 ∨ π.threads p = ret ()

section Steps

variable {s : Store P} {i : Nat} {π : Pool Act Act.Res P (Store P) Panic} {at_ : P → At} {p : P}

omit [Fintype P] in
theorem Alone.step (h : Alone sb s i π p) (e : Ev P Empty) : Alone sb s i (Pool.step (exec sb) nofun π e) p := by
  cases e with
  | start q c => cases c
  | step q =>
    by_cases e : q = p
    · subst e
      rcases h.ref with ⟨hd, hr⟩ | hret
      · obtain ⟨s', hrun, hfreed⟩ := h.run
        have hothers : ∀ c x, x ≠ q → update π.threads q c x = ret () := fun c x e => by
          rw [update_of_ne e]; exact h.others x e
        cases hp : π.threads q with
        | ret u => rw [hp] at hd; cases hd
        | act a k =>
          rw [hp] at hrun hd
          obtain ⟨y, s₁, hx, hrest⟩ := run_act_inv _ hrun
          rw [Pool.step_ok h.failed hp hx]
          refine ⟨hothers _, h.failed, ⟨s', by simpa using hrest, hfreed⟩, ?_⟩
          cases hd with
          | last => exact Or.inr (update_self ..)
          | step ha hk => exact Or.inl ⟨by simpa using hk y, by rw [exec_ref ha hx]; exact hr⟩
      · rw [Pool.step_ret hret]
        exact h
    · rw [Pool.step_ret (h.others q e)]
      exact h

/-- A holder that reads 1 is alone. -/
theorem Before.readsOne (h : Before s i π at_) (hu : Unlinked s i) {e : Ev P Empty} (he : ReadsOne i π e) :
    ∃ p, Alone sb s i (Pool.step (exec sb) nofun π e) p := by
  cases e with
  | start p c => cases c
  | step p =>
    obtain ⟨⟨k', hk'⟩, hr⟩ := he
    have hp := h.threads p
    -- of the programs a holder can be at, only one begins with `sample`
    have ha : at_ p = .count := by
      rw [hk'] at hp
      cases ha : at_ p <;> rw [ha] at hp <;> first | rfl | cases hp
    have hothers : ∀ q, q ≠ p → at_ q = .done := by
      intro q hq
      by_contra hd
      exact hq (h.count.sole hr (h := p) (i := ()) (by simp [ha]) (by simp [hd]))
    obtain ⟨k, hk, _, hnext⟩ := count_prog i (s.inode i)
    rw [ha, hk] at hp
    have hone : k (π.state.ref i) = (do iputFree i (s.inode i); finish i) := by rw [hr]; exact hnext
    rw [Pool.step_ok h.failed hp rfl, hone]
    have hf : Freeable π.state.bitmap (slots.map (ptr (s.inode i) π.state.data)) := by
      rw [h.bitmap, h.data]
      refine ⟨pairwise_map.mpr (nodup_slots.imp fun hne h0 e => hne (hu.distinct _ _ h0 e)), fun b hb hb0 => ?_⟩
      obtain ⟨x, _, hx⟩ := mem_map.mp hb
      exact hu.marked b ⟨hb0, x, hx⟩
    obtain ⟨s', hrun, htype, hbit, hfreed⟩ := run_lastIput sb p i hu.type hf
    refine ⟨p, fun q hq => ?_, h.failed, ⟨s', ?_, ?_⟩, ?_⟩
    · simp [hq, h.threads, hothers q hq, At.prog]
    · simp only [update_self]
      exact hrun
    · refine ⟨htype, fun b ⟨hb0, x, hx⟩ => ?_, by rw [hfreed, h.freed]⟩
      have hmem : b ∈ slots.map (ptr (s.inode i) π.state.data) :=
        mem_map.mpr ⟨x, mem_slots x, by rw [h.data]; exact hx⟩
      rw [hbit, clear, if_pos ⟨hb0, hmem⟩]
    · refine Or.inl ⟨?_, hr⟩
      simp only [update_self]
      exact Drops.bind (all_iputFree i _) fun _ => .step rfl fun _ => .last

omit [Fintype P] in
theorem Alone.runs (h : Alone sb s i π p) (es : List (Ev P Empty)) : Alone sb s i (Pool.runs (exec sb) nofun π es) p := by
  induction es generalizing π with
  | nil => exact h
  | cons e es ih => exact ih (h.step e)

/-- Until a holder reads 1 nothing is freed, and from then on that holder is alone. -/
theorem Before.runs (sb : Superblock) (h : Before s i π at_) (hu : Unlinked s i) (es : List (Ev P Empty)) :
    (∃ at', Before s i (Pool.runs (exec sb) nofun π es) at') ∧ ¬ Pool.Sometime (exec sb) nofun (ReadsOne i) π es ∨
    (∃ p, Alone sb s i (Pool.runs (exec sb) nofun π es) p) ∧ Pool.Sometime (exec sb) nofun (ReadsOne i) π es := by
  induction es generalizing π at_ with
  | nil => exact Or.inl ⟨⟨_, h⟩, id⟩
  | cons e es ih =>
    by_cases he : ReadsOne i π e
    · obtain ⟨p, hp⟩ := h.readsOne hu he
      exact Or.inr ⟨⟨p, hp.runs es⟩, Or.inl he⟩
    · obtain ⟨at', h'⟩ := h.step sb hu e he
      rcases ih h' with ⟨hb, hn⟩ | ⟨hl, hs⟩
      · exact Or.inl ⟨hb, fun hs => hs.elim he hn⟩
      · exact Or.inr ⟨hl, Or.inr hs⟩

end Steps

/-- Nothing of the inode has changed on disk. -/
structure Kept (s : Store P) (i : Nat) (s' : Store P) : Prop where
  inode : s'.inode i = s.inode i
  bitmap : s'.bitmap = s.bitmap
  freed : s'.freed i = s.freed i

def holders (s : Store P) (i : Nat) : Pool Act Act.Res P (Store P) Panic := ⟨s, fun _ => iput i, none⟩

omit [DecidableEq P] in
theorem before_init {s : Store P} {i : Nat} (hu : Unlinked s i) : Before s i (holders s i) fun _ => .lock := by
  refine ⟨fun _ => rfl, rfl, rfl, rfl, rfl, rfl, rfl, fun _ => Set.toFinite _, fun _ => ?_⟩
  have hall : users (fun _ : P => some ()) () = Set.univ := Set.eq_univ_of_forall fun _ => rfl
  show s.ref i = (users (fun _ : P => some ()) ()).ncard
  rw [hall, Set.ncard_univ, Nat.card_eq_fintype_card, hu.ref]

/-- When the count has come to 0, the inode has been freed, once, exactly if a holder has read 1. -/
theorem iput_frees_iff (sb : Superblock) (s : Store P) (i : Nat) (hu : Unlinked s i) (es : List (Ev P Empty)) :
    let π := Pool.runs (exec sb) nofun (holders s i) es
    π.failed = none ∧ (π.state.ref i = 0 →
      (Freed s i π.state ↔ Pool.Sometime (exec sb) nofun (ReadsOne i) (holders s i) es) ∧
      (Freed s i π.state ∨ Kept s i π.state)) := by
  intro π
  rcases (before_init hu).runs sb hu es with ⟨⟨at', h⟩, hn⟩ | ⟨⟨p, h⟩, hs⟩
  · have hk : Kept s i π.state := ⟨by rw [h.inode], h.bitmap, by rw [h.freed]⟩
    refine ⟨h.failed, fun _ => ⟨⟨fun hf => ?_, fun hs => absurd hs hn⟩, Or.inr hk⟩⟩
    have := hf.type
    rw [hk.inode] at this
    exact absurd this hu.type
  · refine ⟨h.failed, fun hr => ?_⟩
    have hf : Freed s i π.state := by
      rcases h.ref with ⟨_, h1⟩ | hret
      · exact absurd (h1.symm.trans hr) (by decide)
      · obtain ⟨s', hrun, hfreed⟩ := h.run
        rw [hret] at hrun
        cases hrun
        exact hfreed
    exact ⟨⟨fun _ => hs, fun _ => hf⟩, Or.inl hf⟩

omit [DecidableEq P] in
theorem unlinked_oneFile {n : Nat} (hn : n = Fintype.card P) : Unlinked (oneFile (P := P) n 7) 1 := by
  refine ⟨hn, rfl, rfl, by simp [oneFile, Dinode.blank], fun x y hx hxy => ?_, fun b ⟨hb, x, hx⟩ => ?_⟩
  · rw [ptr_oneFile] at hx hxy
    rw [ptr_oneFile] at hxy
    by_cases ex : x = first
    · by_cases ey : y = first
      · rw [ex, ey]
      · simp [ex, ey] at hxy
    · simp [ex] at hx
  · rw [ptr_oneFile] at hx
    rw [marked_oneFile]
    split at hx
    · exact Or.inr hx.symm
    · exact absurd hx.symm hb

theorem iput_frees_iff_one_holder : Unlinked (oneFile (P := Unit) 1 7) 1 ∧
    let es : List (Ev Unit Empty) := List.replicate 9 (.step ())
    let π := Pool.runs (exec tiny) nofun (holders (oneFile 1 7) 1) es
    π.state.ref 1 = 0 ∧ Freed (oneFile 1 7) 1 π.state := by
  have hu : Unlinked (oneFile (P := Unit) 1 7) 1 := unlinked_oneFile rfl
  refine ⟨hu, rfl, ((iput_frees_iff tiny (oneFile 1 7) 1 hu (List.replicate 9 (.step ()))).2 rfl).1.mpr ?_⟩
  exact Or.inr (Or.inr (Or.inl ⟨⟨_, rfl⟩, rfl⟩))

/-- Two holders read 2, one after the other, before either gives its reference up. -/
theorem two_iputs_lose_inode : ∃ (sb : Superblock) (s : Store Bool) (es : List (Ev Bool Empty)), Unlinked s 1 ∧
    let π := Pool.runs (exec sb) nofun (holders s 1) es
    π.Idle ∧ π.failed = none ∧ π.state.ref 1 = 0 ∧ (π.state.inode 1).type ≠ none ∧ π.state.bitmap 7 = true := by
  refine ⟨tiny, oneFile 2 7, List.replicate 4 (.step true) ++ List.replicate 4 (.step false) ++
    [.step true, .step false], unlinked_oneFile rfl, fun p => ?_, rfl, rfl, ?_, rfl⟩
  · cases p <;> rfl
  · decide

end Xv6.Fs.Iput
