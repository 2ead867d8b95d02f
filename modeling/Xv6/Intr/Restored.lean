/-
  Xv6.Intr.Restored — interrupts are as they were when a process has released its last lock.

  `pushcli` and `popcli` are said once, of views (`wp_pushcli`, `wp_popcli`); the rest of the code
  goes through them. A thread is steady if it can go on so: its locks are no more than its calls of
  `pushcli`, interrupts are off while there are any, and in a process `intena` is what it was to
  begin with (`Steady`). `sched` alone loses `intena` and puts it back (`wp_sched`).

  `interrupts_restored`: in any run, `ncli` of a CPU is the number of calls of `pushcli` that the
  thread on it has not matched, IF is clear while there are any, and with the call of `popcli` that
  matches a process's outermost `pushcli` IF is again what it was before that.
-/

import Xv6.Intr.Views

namespace Xv6.Intr

open Lib Prog

variable {C P L : Type} [DecidableEq L]

section Code

variable {f : Frame C P} {r : View P L} {α β : Type}

/-! ## pushcli and popcli -/

theorem wp_op {a : Act P L} {k : a.Res → Code P L α} {Q : α → View P L → Prop} (hn : Needs f r a)
    (h : ∀ x, Gives f r a x → wp spec f (k x) Q (r.after f a x)) : wp spec f (op a >>= k) Q r := ⟨hn, h⟩

/-- The last action of a function. -/
theorem wp_last {a : Act P L} {Q : a.Res → View P L → Prop} (hn : Needs f r a) (h : ∀ x, Gives f r a x → Q x (r.after f a x)) :
    wp spec f (op a) Q r := ⟨hn, h⟩

theorem wp_seq {c : Code P L α} {k : α → Code P L β} {Q : β → View P L → Prop} (h : wp spec f c (fun x r' => wp spec f (k x) Q r') r) :
    wp spec f (c >>= k) Q r := wp_bind spec_mono h

variable {Q : Unit → View P L → Prop}

theorem wp_panic : wp spec f panic Q r :=
  wp_op trivial fun _ _ => wp_last trivial fun _ h => h.elim

theorem wp_check {ok : Bool} {k : Unit → Code P L α} {Q : α → View P L → Prop} (h : ok = true → wp spec f (k ()) Q r) :
    wp spec f (check ok >>= k) Q r := by
  cases ok with
  | true => exact h rfl
  | false => exact wp_seq wp_panic

theorem wp_mycpu {k : Unit → Code P L α} {Q : α → View P L → Prop} (h : wp spec f (k ()) Q r) :
    wp spec f (mycpu >>= k) Q r := by
  exact wp_op trivial fun x _ => wp_check fun _ => h

/-- After `pushcli`. -/
def View.pushed (r : View P L) : View P L :=
  { r with
    IF := false
    pushes := r.pushes + 1
    intena := if r.pushes = 0 then some r.IF else r.intena
    outer := if r.pushes = 0 then some r.IF else r.outer
    entry := r.IF }

theorem wp_ite {p : Prop} [Decidable p] {c c' : Code P L α} {Q : α → View P L → Prop} (h : p → wp spec f c Q r)
    (h' : ¬ p → wp spec f c' Q r) : wp spec f (if p then c else c') Q r := by
  split
  · exact h ‹_›
  · exact h' ‹_›

theorem wp_pushcli (h : Q () r.pushed) : wp spec f pushcli Q r := by
  refine wp_op trivial fun _ _ => wp_op trivial fun b hb => wp_op trivial fun _ _ => wp_mycpu (wp_op trivial fun (n : Int) hn => ?_)
  obtain rfl : b = r.IF := hb
  obtain rfl : n = (r.pushes : Int) := hn
  refine wp_ite (fun e => ?_) fun e => ?_
  · have e' : r.pushes = 0 := Int.natCast_eq_zero.mp e
    refine wp_mycpu (wp_op rfl fun _ _ => wp_mycpu (wp_last rfl fun _ _ => show Q () _ from ?_))
    simpa only [View.pushed, View.after, e', if_true] using h
  · have e' : r.pushes ≠ 0 := fun e' => e (Int.natCast_eq_zero.mpr e')
    refine wp_mycpu (wp_last rfl fun _ _ => show Q () _ from ?_)
    simpa only [View.pushed, View.after, e', if_false] using h

/-- A `popcli` that is not the last one, or the last one: what it makes of IF is `intena`. -/
theorem wp_popcli (hIF : r.IF = false) (hcard : r.held.card < r.pushes)
    (hlast : r.pushes = 1 → r.named = ∅ ∧ r.proc = f.thread.home)
    (htie : ∀ p, f.thread = .proc p → ∀ b, r.outer = some b → r.intena = some b)
    (h : r.pushes ≠ 1 → Q () { r with pushes := r.pushes - 1, due := none })
    (h1 : r.pushes = 1 → ∀ b, (∀ b', r.intena = some b' → b = b') →
      Q () { r with IF := b, pushes := 0, intena := if b then none else some false, outer := none, due := none }) :
    wp spec f popcli Q r := by
  refine wp_op trivial fun _ _ => wp_check fun _ => wp_mycpu (wp_op ⟨hIF, hcard⟩ fun _ _ => wp_check fun _ => wp_mycpu ?_)
  refine wp_op trivial fun (n : Int) hn => ?_
  have hn' : n = ((r.pushes - 1 : Nat) : Int) := hn
  refine wp_ite (fun e => ?_) fun e => ?_
  · have e' : r.pushes = 1 := by omega
    obtain ⟨hnamed, hproc⟩ := hlast e'
    refine wp_mycpu (wp_op hIF fun (b : Bool) hb => ?_)
    have hq := h1 e' b hb
    have hdue : ∀ p, f.thread = .proc p → ∀ b', r.outer = some b' → b = b' := fun p hp b' hb' => hb b' (htie p hp b' hb')
    have hheld : r.held = ∅ := Finset.card_eq_zero.mp (by omega)
    cases b with
    | true =>
      refine wp_op ⟨?_, hheld, hnamed, ?_, hproc⟩ fun _ _ => wp_last ?_ fun _ _ => show Q () _ from ?_
      · simp only [View.after, e', Nat.sub_self]
      · simp only [View.after, e', if_true]
      · simpa only [Needs, View.after, e', if_true] using hdue
      · simpa only [View.after, e', Nat.sub_self, if_true] using hq
    | false =>
      refine wp_last ?_ fun _ _ => show Q () _ from ?_
      · simpa only [Needs, View.after, e', if_true, hIF] using hdue
      · simpa only [View.after, e', hIF, Nat.sub_self, if_true, Bool.false_eq_true, if_false] using hq
  · have e' : r.pushes ≠ 1 := by omega
    refine wp_last ?_ fun _ _ => show Q () _ from ?_
    · intro p _ b hb
      simp only [View.after, e', if_false] at hb
      cases hb
    · simpa only [View.after, e', if_false] using h e'

/-! ## Steady threads -/

structure Steady (f : Frame C P) (r : View P L) : Prop where
  off : 0 < r.pushes → r.IF = false
  count : r.held.card ≤ r.pushes
  named : r.named = r.held
  last : r.pushes = 0 → r.outer = none ∧ r.proc = f.thread.home
  tie : ∀ p, f.thread = .proc p → ∀ b, r.outer = some b → r.intena = some b

/-- Nothing has changed but what was noted, and `intena` without locks. -/
structure Kept (r r' : View P L) : Prop where
  IF : r'.IF = r.IF
  pushes : r'.pushes = r.pushes
  held : r'.held = r.held
  proc : r'.proc = r.proc

omit [DecidableEq L] in
theorem Steady.free (hs : Steady f r) (h0 : r.pushes = 0) : Free f.thread r := by
  obtain ⟨ho, hp⟩ := hs.last h0
  have hheld : r.held = ∅ := Finset.card_eq_zero.mp (by have := hs.count; omega)
  exact ⟨h0, hheld, hs.named.trans hheld, ho, hp⟩

omit [DecidableEq L] in
theorem Steady.pushed (hs : Steady f r) : Steady f r.pushed where
  off _ := rfl
  count := hs.count.trans (Nat.le_succ _)
  named := hs.named
  last h := absurd h (Nat.succ_ne_zero _)
  tie := by
    intro p hp b hb
    simp only [View.pushed] at hb ⊢
    split at hb
    · rename_i e
      rw [if_pos e]
      exact hb
    · rename_i e
      rw [if_neg e]
      exact hs.tie p hp b hb

/-- The `popcli` that matches a `pushcli` leaves everything as it was. -/
theorem wp_popcli_pushed (hs : Steady f r) (h : ∀ r', Steady f r' → Kept r r' → Q () r') :
    wp spec f popcli Q r.pushed := by
  refine wp_popcli rfl (Nat.lt_succ_of_le hs.count) (fun e => ?_) hs.pushed.tie (fun e => ?_) fun e b hb => ?_
  · have hf := hs.free (Nat.succ.inj e)
    exact ⟨hf.named, hf.proc⟩
  · have e' : r.pushes ≠ 0 := fun e' => e (congrArg (· + 1) e')
    refine h _ ⟨fun _ => rfl, hs.count, hs.named, fun e => absurd e e', ?_⟩ ⟨?_, rfl, rfl, rfl⟩
    · simpa only [View.pushed, if_neg e'] using hs.tie
    · exact (hs.off (Nat.pos_of_ne_zero e')).symm
  · have e' : r.pushes = 0 := Nat.succ.inj e
    obtain rfl : b = r.IF := hb _ (if_pos e')
    have hf := hs.free e'
    refine h _ ⟨fun h0 => absurd h0 (Nat.lt_irrefl 0), ?_, hs.named, fun _ => ⟨rfl, hf.proc⟩, ?_⟩
      ⟨rfl, e'.symm, rfl, rfl⟩
    · show r.held.card ≤ 0
      rw [hf.held]
      exact Nat.le_refl 0
    · intro p _ b hb
      cases hb

variable {lk : Lock L}

theorem wp_holding {Q : Bool → View P L → Prop} (hs : Steady f r)
    (h : ∀ r', Steady f r' → Kept r r' → Q (decide (lk ∈ r.held)) r') : wp spec f (holding lk) Q r := by
  refine wp_seq (wp_pushcli (wp_op trivial fun b hb => ?_))
  cases b with
  | true =>
    refine wp_mycpu (wp_op trivial fun x hx => wp_seq (wp_popcli_pushed hs fun r' hs' hk => ?_))
    have hx' : x = true ↔ lk ∈ r.held := by
      rw [← hs.named]
      exact hx
    have := h r' hs' hk
    rwa [← Bool.eq_iff_iff.mpr (hx'.trans decide_eq_true_iff.symm)] at this
  | false =>
    refine wp_seq (wp_popcli_pushed hs fun r' hs' hk => ?_)
    have hno : lk ∉ r.held := fun hm => Bool.noConfusion (hb hm)
    have := h r' hs' hk
    rwa [decide_eq_false hno] at this

theorem wp_myproc {Q : Option P → View P L → Prop} (hs : Steady f r) (h : ∀ r', Steady f r' → Kept r r' → Q r.proc r') :
    wp spec f myproc Q r :=
  wp_seq (wp_pushcli (wp_mycpu (wp_op trivial fun _ e => wp_seq (wp_popcli_pushed hs fun r' hs' hk => e ▸ h r' hs' hk))))

theorem wp_switchuvm (hs : Steady f r) (h : ∀ r', Steady f r' → Kept r r' → Q () r') : wp spec f switchuvm Q r :=
  wp_seq (wp_pushcli (wp_mycpu (wp_popcli_pushed hs h)))

/-- The thread has taken `lk`. -/
structure Took (lk : Lock L) (r r' : View P L) : Prop where
  pushes : r'.pushes = r.pushes + 1
  held : r'.held = insert lk r.held
  proc : r'.proc = r.proc

theorem wp_acquire (hs : Steady f r)
    (h : lk ∉ r.held → ∀ r', Steady f r' → Took lk r r' → Q () r') : wp spec f (acquire lk) Q r := by
  refine wp_seq (wp_pushcli (wp_seq (wp_holding hs.pushed fun r' hs' hk => wp_check fun hno => ?_)))
  have hno' : lk ∉ r.held := fun hm => by
    rw [decide_eq_true (show lk ∈ r.pushed.held from hm)] at hno
    cases hno
  have hp : r'.pushes = r.pushes + 1 := hk.pushes
  have hheld : r'.held = r.held := hk.held
  have hIF : r'.IF = false := hk.IF
  refine wp_op ⟨hIF, ?_⟩ fun _ _ => wp_mycpu (wp_last (Finset.mem_insert_self _ _) fun _ _ => ?_)
  · rw [hheld, hp]
    exact Nat.lt_succ_of_le hs.count
  · refine h hno' _ ⟨fun _ => hIF, ?_, ?_, ?_, hs'.tie⟩ ⟨hp, ?_, hk.proc⟩
    · show (insert lk r'.held).card ≤ r'.pushes
      rw [hheld, hp, Finset.card_insert_of_notMem hno']
      exact Nat.succ_le_succ hs.count
    · show insert lk r'.named = insert lk r'.held
      rw [hs'.named]
    · intro h0
      have h0' : r'.pushes = 0 := h0
      omega
    · show insert lk r'.held = _
      rw [hheld]

/-- The thread has given `lk` back. -/
structure Gave (lk : Lock L) (r r' : View P L) : Prop where
  pushes : r'.pushes = r.pushes - 1
  held : r'.held = r.held.erase lk
  proc : r'.proc = r.proc

theorem wp_release (hs : Steady f r) (hproc : r.proc = f.thread.home)
    (h : lk ∈ r.held → ∀ r', Steady f r' → Gave lk r r' → Q () r') : wp spec f (release lk) Q r := by
  refine wp_seq (wp_holding hs fun r' hs' hk => wp_check fun hm => ?_)
  have hm' : lk ∈ r.held := by simpa using hm
  have hmem : lk ∈ r'.held := by
    rw [hk.held]
    exact hm'
  have hcard : (r'.held.erase lk).card < r'.pushes := by
    have := Finset.card_erase_lt_of_mem hmem
    have := hs'.count
    omega
  have hpos : 0 < r'.pushes := Nat.lt_of_le_of_lt (Nat.zero_le _) hcard
  have hIF := hs'.off hpos
  have hnamed : r'.named.erase lk = r'.held.erase lk := by rw [hs'.named]
  refine wp_op (by rw [Needs, hs'.named]; exact hmem) fun _ _ => wp_op ⟨hmem, Finset.notMem_erase _ _⟩ fun _ _ => ?_
  refine wp_popcli hIF hcard (fun e => ?_) hs'.tie (fun e => ?_) fun e b hb => ?_
  · have e' : r'.pushes = 1 := e
    have hempty : r'.held.erase lk = ∅ := Finset.card_eq_zero.mp (by omega)
    exact ⟨hnamed.trans hempty, hk.proc.trans hproc⟩
  · have e' : r'.pushes ≠ 1 := e
    refine h hm' _ ⟨fun _ => hIF, Nat.le_sub_one_of_lt hcard, hnamed, fun h0 => ?_, hs'.tie⟩ ⟨?_, ?_, hk.proc⟩
    · have h0' : r'.pushes - 1 = 0 := h0
      omega
    · show r'.pushes - 1 = _
      rw [hk.pushes]
    · show r'.held.erase lk = _
      rw [hk.held]
  · have e' : r'.pushes = 1 := e
    refine h hm' _ ⟨fun h0 => absurd h0 (Nat.lt_irrefl 0), ?_, hnamed, fun _ => ?_, fun p _ b hb => ?_⟩ ⟨?_, ?_, hk.proc⟩
    · show (r'.held.erase lk).card ≤ 0
      omega
    · exact ⟨rfl, hk.proc.trans hproc⟩
    · cases hb
    · show 0 = r.pushes - 1
      rw [← hk.pushes, e']
    · show r'.held.erase lk = _
      rw [hk.held]

/-! ## The scheduler's other side -/

/-- A thread between two calls. -/
structure Calm (f : Frame C P) (r : View P L) : Prop extends Steady f r where
  proc : r.proc = f.thread.home

omit [DecidableEq L] in
theorem Calm.kept {r' : View P L} (hc : Calm f r) (hs : Steady f r') (hk : Kept r r') : Calm f r' :=
  ⟨hs, hk.proc.trans hc.proc⟩

theorem Calm.took {r' : View P L} (hc : Calm f r) (hs : Steady f r') (ht : Took lk r r') : Calm f r' :=
  ⟨hs, ht.proc.trans hc.proc⟩

theorem Calm.gave {r' : View P L} (hc : Calm f r) (hs : Steady f r') (hg : Gave lk r r') : Calm f r' :=
  ⟨hs, hg.proc.trans hc.proc⟩

/-- `sched` comes back with the `intena` it has saved. -/
theorem wp_sched (hc : Calm f r) {p : P} (hf : f.thread = .proc p)
    (h : ∀ r', Calm f r' → r'.held = {.ptable} → Q () r') : wp spec f sched Q r := by
  refine wp_seq (wp_myproc hc.toSteady fun r1 hs1 hk1 => wp_seq (wp_holding hs1 fun r2 hs2 hk2 => wp_check fun hm => ?_))
  refine wp_mycpu (wp_op trivial fun (n : Int) hn => wp_check fun h1 => ?_)
  have hc2 := (hc.kept hs1 hk1).kept hs2 hk2
  rw [show r.proc = some p by rw [hc.proc, hf]; rfl]
  have hn' : r2.pushes = 1 := by
    have hn : n = (r2.pushes : Int) := hn
    have := of_decide_eq_true h1
    omega
  have hIF : r2.IF = false := hs2.off (by omega)
  have hmem : .ptable ∈ r2.held := by
    rw [hk2.held]
    exact of_decide_eq_true hm
  have hheld : r2.held = {.ptable} := by
    have hle := hs2.count
    rw [hn'] at hle
    exact Finset.eq_singleton_iff_unique_mem.mpr ⟨hmem, fun lk hlk => Finset.card_le_one.mp hle lk hlk _ hmem⟩
  refine wp_op trivial fun _ _ => wp_check fun _ => wp_op trivial fun _ _ => wp_check fun _ => wp_mycpu (wp_op hIF fun b hb => wp_mycpu ?_)
  refine wp_op ⟨⟨p, hf⟩, hIF, hn', hheld, hs2.named.trans hheld⟩ fun _ _ => wp_mycpu (wp_last hIF fun _ _ => ?_)
  refine h _ ⟨⟨hs2.off, hs2.count, hs2.named, hs2.last, fun p' hp' b' hb' => ?_⟩, hc2.proc⟩ hheld
  exact congrArg some (hb b' (hs2.tie p' hp' b' hb'))

theorem wp_wakeup1 {chan : Nat} {table : List P} (h : Q () r) : wp spec f (wakeup1 chan table) Q r := by
  induction table with
  | nil => exact h
  | cons p table ih => exact wp_op trivial fun _ _ => ih

/-- What a call needs and leaves. -/
def Goes (f : Frame C P) (c : Code P L Unit) : Prop :=
  ∀ (r : View P L) (Q : Unit → View P L → Prop), Calm f r → (∀ r', Calm f r' → Q () r') → wp spec f c Q r

theorem goes_acquire (lk : Lock L) : Goes f (acquire lk) := by
  intro r Q hc h
  exact wp_acquire hc.toSteady fun _ r' hs ht => h r' (hc.took hs ht)

theorem goes_release (lk : Lock L) : Goes f (release lk) := by
  intro r Q hc h
  exact wp_release hc.toSteady hc.proc fun _ r' hs hg => h r' (hc.gave hs hg)

/-- A process that is about to leave the CPU. -/
theorem wp_deref {k : P → Code P L Unit} (hc : Calm f r) (h : ∀ p, f.thread = .proc p → wp spec f (k p) Q r) :
    wp spec f (deref r.proc k) Q r := by
  rw [hc.proc]
  cases ht : f.thread with
  | scheduler c => exact wp_panic
  | proc p => exact h p ht

theorem goes_yield : Goes f (yield (P := P) (L := L)) := by
  intro r Q hc h
  refine wp_seq (wp_acquire hc.toSteady fun _ r1 hs1 ht => wp_seq (wp_myproc hs1 fun r2 hs2 hk => ?_))
  have hc2 := (hc.took hs1 ht).kept hs2 hk
  rw [← hk.proc]
  refine wp_deref hc2 fun p hp => wp_op trivial fun _ _ => wp_seq (wp_sched hc2 hp fun r3 hc3 _ => ?_)
  exact goes_release _ r3 Q hc3 h

theorem goes_doze {p : P} (hf : f.thread = .proc p) (chan : Nat) : Goes f (doze (L := L) p chan) := by
  intro r Q hc h
  exact wp_op trivial fun _ _ => wp_op trivial fun _ _ => wp_seq (wp_sched hc hf fun r' hc' _ => wp_last trivial fun _ _ => h r' hc')

theorem goes_sleep (chan : Nat) (lk : Lock L) : Goes f (sleep (P := P) chan lk) := by
  intro r Q hc h
  refine wp_op trivial fun _ _ => wp_seq (wp_myproc hc.toSteady fun r1 hs1 hk => ?_)
  have hc1 := hc.kept hs1 hk
  rw [← hk.proc]
  refine wp_deref hc1 fun p hp => wp_ite (fun _ => ?_) fun _ => goes_doze hp chan r1 Q hc1 h
  refine wp_seq (goes_acquire _ r1 _ hc1 fun r2 hc2 => wp_seq (goes_release _ r2 _ hc2 fun r3 hc3 => ?_))
  refine wp_seq (goes_doze hp chan r3 _ hc3 fun r4 hc4 => wp_seq (goes_release _ r4 _ hc4 fun r5 hc5 => ?_))
  exact goes_acquire _ r5 Q hc5 h

theorem goes_wakeup (chan : Nat) (table : List P) : Goes f (wakeup (L := L) chan table) := by
  intro r Q hc h
  exact wp_seq (goes_acquire _ r _ hc fun r1 hc1 => wp_seq (wp_wakeup1 (goes_release _ r1 Q hc1 h)))

theorem goes_exit (chan : Nat) (table : List P) : Goes f (exit (L := L) chan table) := by
  intro r Q hc h
  refine wp_seq (wp_myproc hc.toSteady fun r1 hs1 hk => wp_seq (wp_acquire hs1 fun _ r2 hs2 ht => wp_seq (wp_wakeup1 ?_)))
  have hc2 := (hc.kept hs1 hk).took hs2 ht
  rw [← hk.proc, ← ht.proc]
  exact wp_deref hc2 fun p hp => wp_op trivial fun _ _ => wp_seq (wp_sched hc2 hp fun r3 hc3 _ => wp_panic)

theorem goes_call (k : Call P L) : Goes f k.code := by
  cases k with
  | acquire lk => exact goes_acquire lk
  | release lk => exact goes_release lk
  | myproc => exact fun r Q hc h => wp_seq (wp_myproc hc.toSteady fun r' hs hk => h r' (hc.kept hs hk))
  | yield => exact goes_yield
  | sleep chan lk => exact goes_sleep chan lk
  | wakeup chan table => exact goes_wakeup chan table
  | exit chan table => exact goes_exit chan table

theorem goes_calls (ks : List (Call P L)) : Goes f (calls ks) := by
  induction ks with
  | nil => exact fun r Q hc h => h r hc
  | cons k ks ih => exact fun r Q hc h => wp_seq (goes_call k r _ hc fun r' hc' => ih r' Q hc' h)

/-! ## The scheduler -/

/-- The scheduler in its loop over the table. -/
structure Scans (f : Frame C P) (r : View P L) : Prop extends Calm f r where
  held : r.held = {.ptable}
  pushes : r.pushes = 1

theorem wp_scan {c : C} (table : List P) (hr : Scans ⟨.scheduler c, 0⟩ r)
    (h : ∀ r', Scans ⟨.scheduler c, 0⟩ r' → Q () r') : wp spec (⟨.scheduler c, 0⟩ : Frame C P) (scan table) Q r := by
  induction table generalizing r with
  | nil => exact h r hr
  | cons p table ih =>
    have hIF : r.IF = false := hr.off (by rw [hr.pushes]; exact Nat.one_pos)
    refine wp_op trivial fun (x : PState) _ => wp_ite (fun hx => ?_) fun hx => ih hr
    refine wp_op ⟨⟨c, rfl⟩, hIF⟩ fun _ _ => wp_seq (wp_switchuvm ?_ fun r1 hs1 hk => ?_)
    · exact ⟨hr.off, hr.count, hr.named, fun h0 => absurd (h0.symm.trans hr.pushes) Nat.zero_ne_one, fun p' hp' => nomatch hp'⟩
    · have hheld : r1.held = {.ptable} := hk.held.trans hr.held
      have hpushes : r1.pushes = 1 := hk.pushes.trans hr.pushes
      have hIF1 : r1.IF = false := hs1.off (by rw [hpushes]; exact Nat.one_pos)
      have hcar : Carries r1 := ⟨hIF1, hpushes, hheld, hs1.named.trans hheld⟩
      refine wp_op trivial fun _ _ => wp_op ⟨⟨c, rfl⟩, hcar, hk.proc⟩ fun _ _ => wp_op ⟨⟨c, rfl⟩, hIF1⟩ fun _ _ => ?_
      refine ih ⟨⟨⟨fun _ => hIF1, hs1.count, hs1.named, fun h0 => ?_, fun p' hp' => nomatch hp'⟩, rfl⟩, hheld, hpushes⟩
      exact absurd (hpushes.symm.trans h0) (by decide)

/-- A frame whose code has ended: the scheduler's loop, or nothing in particular. -/
def Done (f : Frame C P) (r : View P L) : Prop := f.depth = 0 → Calm f r ∧ r.pushes = 0

theorem wp_iret (hc : Calm f r) : wp spec f (op (.iret : Act P L)) (fun _ => Done f) r :=
  wp_last (fun h0 => hc.free h0) fun _ h0 _ => ⟨hc, h0⟩

theorem wp_body (s : Start P L) (hd : Done f r) : wp spec f (body s) (fun _ => Done f) r := by
  cases s with
  | trap g ks =>
    refine wp_op trivial fun _ _ => wp_seq (goes_calls ks _ _ ?_ fun r' hc' => wp_iret hc')
    exact ⟨⟨fun h0 => absurd h0 (Nat.lt_irrefl 0), Nat.le_refl 0, rfl, fun _ => ⟨rfl, rfl⟩, fun p _ b hb => nomatch hb⟩, rfl⟩
  | round table =>
    refine wp_op trivial fun _ ⟨c, hf⟩ => ?_
    subst hf
    obtain ⟨hc, h0⟩ := hd rfl
    have hf := hc.free h0
    have hc' : Calm (⟨.scheduler c, 0⟩ : Frame C P) { r with IF := true, intena := none } :=
      ⟨⟨fun h => absurd h0 h.ne', hc.count, hc.named, hc.last, fun p hp => nomatch hp⟩, hc.proc⟩
    refine wp_op hf fun _ _ => wp_seq (wp_acquire hc'.toSteady fun _ r1 hs1 ht => ?_)
    have hheld : r1.held = {.ptable} := by
      rw [ht.held]
      show insert _ r.held = _
      rw [hf.held]
      rfl
    have hpushes : r1.pushes = 1 := by
      rw [ht.pushes]
      exact congrArg (· + 1) h0
    refine wp_seq (wp_scan table ⟨hc'.took hs1 ht, hheld, hpushes⟩ fun r2 hr2 => ?_)
    refine wp_release hr2.toSteady hr2.proc fun _ r3 hs3 hg _ => ⟨hr2.toCalm.gave hs3 hg, ?_⟩
    rw [hg.pushes, hr2.pushes]

end Code

/-! ## Every run -/

section Runs

variable [DecidableEq C] [DecidableEq P]

/-- The views at boot. -/
def views : Views C P L
  | ⟨.scheduler _, _⟩ => ⟨false, 0, none, none, false, none, ∅, ∅, none⟩
  | ⟨.proc p, 0⟩ => ⟨true, 0, none, none, false, none, ∅, ∅, some p⟩
  | ⟨.proc p, _ + 1⟩ => ⟨false, 1, none, none, false, none, {.ptable}, {.ptable}, some p⟩

omit [DecidableEq C] [DecidableEq P] [DecidableEq L] in
/-- Only the schedulers are on a CPU, with no lock. -/
theorem on_boot {state : P → PState} {t : Thread C P} {c : C} (h : (boot (L := L) state).on t = some c) :
    t = .scheduler c ∧ (boot (L := L) state).top views t = ⟨false, 0, none, none, false, none, ∅, ∅, none⟩ := by
  cases t with
  | proc p => cases h
  | scheduler c' => cases h; exact ⟨rfl, rfl⟩

omit [DecidableEq C] [DecidableEq P] [DecidableEq L] in
theorem world_boot (state : P → PState) : World views (boot (C := C) (L := L) state) noHistory where
  frames := by
    refine ⟨fun {t d} hd => ?_, fun {t d} hd => ?_, fun _ => rfl, fun _ => rfl⟩
    · match t, d with
      | .scheduler c, _ => exact ⟨(fun h => nomatch h), Nat.le_refl 0, Finset.Subset.refl _, (fun p hp => nomatch hp)⟩
      | .proc p, 0 =>
        exact ⟨fun _ => ⟨⟨rfl, rfl, rfl, rfl, rfl⟩, rfl⟩, Nat.le_refl 0, Finset.Subset.refl _, fun q hq => congrArg Thread.home hq⟩
      | .proc p, d + 1 => exact ⟨(fun h => nomatch h), Nat.le_refl 1, Finset.Subset.refl _, fun q hq => congrArg Thread.home hq⟩
    · cases t with
      | scheduler c => exact absurd hd (Nat.not_lt_zero d)
      | proc p =>
        obtain rfl : d = 0 := Nat.lt_one_iff.mp hd
        rfl
  notes := by
    refine ⟨fun t => ?_, fun t => ?_, fun f => ?_, fun f => ?_, fun e he => absurd he List.not_mem_nil⟩
    · cases t <;> rfl
    · cases t <;> rfl
    · obtain ⟨t, d⟩ := f
      cases t <;> cases d <;> rfl
    · obtain ⟨t, d⟩ := f
      cases t <;> cases d <;> rfl
  placed := by
    refine ⟨fun ht ht' => (on_boot (L := L) ht).1.trans (on_boot (L := L) ht').1.symm, fun h => (Option.some.inj h).symm,
      fun c => ⟨.scheduler c, rfl⟩, fun ht => ?_, fun {t} ht => ?_, (fun h => nomatch h), (fun h => nomatch h)⟩
    · rw [(on_boot ht).2]
      exact ⟨rfl, rfl, (fun b hb => nomatch hb), rfl⟩
    · cases t with
      | scheduler c => cases ht
      | proc p => exact ⟨⟨rfl, rfl, rfl, rfl⟩, rfl⟩
  locks := by
    refine ⟨fun ht hm => ?_, fun ht _ hm _ => ?_, fun lk ht => ?_⟩
    · rw [(on_boot ht).2] at hm
      exact absurd hm (Finset.notMem_empty _)
    · rw [(on_boot ht).2] at hm
      exact absurd hm (Finset.notMem_empty _)
    · rw [(on_boot ht).2]
      exact iff_of_false (fun h => nomatch h) (Finset.notMem_empty _)

omit [DecidableEq C] [DecidableEq P] in
theorem good_start (state : P → PState) (first : P → List (Call P L)) :
    Good spec (fun ρ x => World ρ x.1 x.2) (fun _ => False) Done (start (C := C) state first) := by
  refine ⟨⟨views, world_boot state, fun f => ?_⟩, fun e => nomatch e⟩
  obtain ⟨t, d⟩ := f
  cases t with
  | scheduler c =>
    intro _
    exact ⟨⟨⟨fun h => absurd h (Nat.lt_irrefl 0), Nat.le_refl 0, rfl, fun _ => ⟨rfl, rfl⟩, (fun p hp => nomatch hp)⟩, rfl⟩, rfl⟩
  | proc p =>
    match d with
    | 0 =>
      intro _
      exact ⟨⟨⟨fun h => absurd h (Nat.lt_irrefl 0), Nat.le_refl 0, rfl, fun _ => ⟨rfl, rfl⟩, (fun p _ b hb => nomatch hb)⟩, rfl⟩, rfl⟩
    | 1 =>
      have hc : Calm (⟨.proc p, 1⟩ : Frame C P) (views (L := L) (⟨.proc p, 1⟩ : Frame C P)) :=
        ⟨⟨fun _ => rfl, Nat.le_refl 1, rfl, (fun h => nomatch h), (fun p _ b hb => nomatch hb)⟩, rfl⟩
      exact wp_seq (goes_release _ _ _ hc fun r1 hc1 => wp_seq (goes_calls _ r1 _ hc1 fun r2 hc2 => wp_iret hc2))
    | d + 2 => exact fun h => nomatch h

/-- In any run: `ncli` of a CPU is the number of calls of `pushcli` of the thread on it that no call of
    `popcli` has matched, IF is clear if there is one, and when a process has matched its outermost
    `pushcli`, IF is as it was before that. -/
theorem interrupts_restored (state : P → PState) (first : P → List (Call P L)) (es : List (Ev (Frame C P) (Start P L))) :
    (∀ c, ∃ t, (runs (start state first) es).state.1.on t = some c ∧
      ((runs (start state first) es).state.1.cpu c).ncli = (runs (start state first) es).state.2.pushes t ∧
      0 ≤ ((runs (start state first) es).state.1.cpu c).ncli ∧
      (0 < ((runs (start state first) es).state.1.cpu c).ncli → ((runs (start state first) es).state.1.cpu c).IF = false)) ∧
    ∀ e ∈ (runs (start state first) es).state.2.log, ∀ p, e.thread = .proc p → e.after = e.before := by
  have hgood := (good_start (C := C) state first).runs views_sound (fun f s r => wp_body s) es
    (Pool.along_acts _ _ (fun _ _ _ => trivial) _ es)
  obtain ⟨ρ, w, _⟩ := hgood.threads
  generalize (runs (start state first) es).state = x at w
  refine ⟨fun c => ?_, w.notes.log⟩
  obtain ⟨t, ht⟩ := w.placed.busy c
  have hsh := w.placed.shows ht
  refine ⟨t, ht, ?_, ?_, fun hpos => ?_⟩
  · rw [hsh.ncli, w.notes.pushes]
  · rw [hsh.ncli]
    exact Int.natCast_nonneg _
  · rw [hsh.IF]
    rw [← Bool.not_eq_true]
    intro hIF
    have hfree : Free t (x.1.top ρ t) := ((w.frames.well (Nat.le_refl _)).free hIF).1
    rw [hsh.ncli, hfree.pushes] at hpos
    exact absurd hpos (by decide)

end Runs

def steps (f : Frame Bool Unit) (n : Nat) : List (Ev (Frame Bool Unit) (Start Unit Unit)) := List.replicate n (.step f)

/-- A process yields on one CPU and goes on on the other one. -/
def moves : List (Ev (Frame Bool Unit) (Start Unit Unit)) :=
  .start ⟨.scheduler false, 0⟩ (.round [()]) :: steps ⟨.scheduler false, 0⟩ 70 ++ steps ⟨.proc (), 1⟩ 150 ++
    steps ⟨.scheduler false, 0⟩ 40 ++ .start ⟨.scheduler true, 0⟩ (.round [()]) :: steps ⟨.scheduler true, 0⟩ 70 ++
    steps ⟨.proc (), 1⟩ 70

example : (runs (start (fun _ => .runnable) fun _ => [.yield]) moves).state.2.log.head? = some ⟨.proc (), true, true⟩ ∧
    (runs (start (fun _ => .runnable) fun _ => [.yield]) moves).state.1.on (.proc ()) = some true := by
  decide +kernel

end Xv6.Intr
