/-
  Xv6.Proc.SleepLock — a condition that processes wait for (`proc.c`: `sleep`, `wakeup`),
  and the sleep-lock of inodes and buffers (`sleeplock.c`).

  Waiters run `acquire(lk); while(!cond) sleep(chan, lk)`, use the data and release `lk`.
  Wakers change the data under `lk` and call `wakeup(chan)` before or after releasing it;
  code that does not make the condition true may run under `lk` as well. A sleep-lock is
  such data with the condition `locked == 0`; `inside` records who has taken it.
-/

import Xv6.Proc.Sleep

namespace Xv6.Proc

open Sleep Function

variable {P D : Type}

/-! ## Waiting for a condition -/

namespace Condition

/-- A change of the data that does not make the condition true. -/
def Quiet (cond : D → Bool) : Type := { f : D → D // ∀ d, cond (f d) = true → cond d = true }

inductive Code (cond : D → Bool) where
  /-- `while(!cond) sleep(chan, lk)`, then `use` -/
  | wait (use : D → D)
  /-- `set`, then `wakeup(chan)` before or after `release(lk)` -/
  | wake (set : D → D) (before : Bool)
  | woken
  | other (change : Quiet cond)

def exec (cond : D → Bool) (d : D) : Code cond → D × Next Unit (Code cond)
  | .wait use => if cond d then (use d, .release none) else (d, .sleep () (.wait use))
  | .wake set true => (set d, .wakeup () .woken)
  | .wake set false => (set d, .release (some ()))
  | .woken => (d, .release none)
  | .other change => (change.1 d, .release none)

def client (P : Type) (cond : D → Bool) : Client P D Unit (Code cond) where
  may _ _ k := match k with
    | .woken => false
    | _ => true
  exec _ := exec cond

/-- A waker between changing the data and the end of the scan of its `wakeup`. -/
def Waking {cond : D → Bool} : Pc Unit (Code cond) → Prop
  | .wakeAcquire _ _ => True
  | .wakeScan _ _ => True
  | _ => False

theorem wakes (cond : D → Bool) : Wakes (client P cond) (fun _ d => cond d = true) (fun _ _ => False) := by
  refine ⟨fun p d k ch k' h => ?_, fun p d k ch h => ?_⟩
  · simp only [client] at h ⊢
    cases k with
    | wait use =>
      simp only [exec] at h ⊢
      split at h
      · cases h
      · rename_i hc
        rw [if_neg hc]
        exact hc
    | wake set b => cases b <;> cases h
    | woken => cases h
    | other change => cases h
  · simp only [client] at h ⊢
    cases k with
    | wait use =>
      simp only [exec] at h ⊢
      split
      · rename_i hc
        exact .inl ⟨hc, not_false⟩
      · rename_i hc
        rw [if_neg hc] at h
        exact absurd h hc
    | wake set b =>
      cases b with
      | true => exact .inr (.inl rfl)
      | false => exact .inr rfl
    | woken => exact .inl ⟨h, not_false⟩
    | other change => exact .inl ⟨change.2 d h, not_false⟩

theorem owes_waking {cond : D → Bool} {x : Pc Unit (Code cond)} {ch : Unit} (h : x.owes (fun _ _ => False) ch) : Waking x := by
  cases x with
  | locked k => exact h
  | wakeAcquire c k => trivial
  | wakeScan c k => trivial
  | wakeRelease k => exact h.elim fun _ h => h.2
  | _ => exact h

end Condition

/-! ## `sleeplock.c` -/

structure SleepLock (P : Type) where
  locked : Bool
  pid : Nat
  /-- The processes between `lk->locked = 1` of `acquiresleep` and `lk->locked = 0` of `releasesleep`. -/
  inside : P → Bool

namespace SleepLock

def initsleeplock : SleepLock P := ⟨false, 0, fun _ => false⟩

/-- The statements under `lk->lk`. -/
inductive Code where
  | acquiresleep
  | releasesleep
  | released
  deriving DecidableEq

variable [DecidableEq P] (pid : P → Nat)

def exec (p : P) (lk : SleepLock P) : Code → SleepLock P × Next Unit Code
  | .acquiresleep =>
    if lk.locked then (lk, .sleep () .acquiresleep)
    else ({ locked := true, pid := pid p, inside := Function.update lk.inside p true }, .release none)
  | .releasesleep =>
    ({ locked := false, pid := 0, inside := Function.update lk.inside p false }, .wakeup () .released)
  | .released => (lk, .release none)

/-- `holdingsleep` reads the lock under `lk->lk`. -/
def holdingsleep (p : P) (lk : SleepLock P) : Bool := lk.locked && lk.pid == pid p

/-- A process releases what it has acquired. -/
def client : Client P (SleepLock P) Unit Code where
  may p lk k := match k with
    | .acquiresleep => true
    | .releasesleep => lk.inside p
    | .released => false
  exec := exec pid

/-- The lock is held by one process or by none, and says by which. -/
structure Owned (lk : SleepLock P) : Prop where
  locked : ∀ p, lk.inside p = true → lk.locked = true ∧ lk.pid = pid p
  one : ∀ p q, lk.inside p = true → lk.inside q = true → p = q
  some : lk.locked = true → ∃ p, lk.inside p = true

omit [DecidableEq P] in
theorem Owned.holdingsleep {lk : SleepLock P} (h : Owned pid lk) (hpid : Function.Injective pid) (p : P) :
    holdingsleep pid p lk = true ↔ lk.inside p = true := by
  simp only [SleepLock.holdingsleep, Bool.and_eq_true, beq_iff_eq]
  constructor
  · intro ⟨hl, hp⟩
    obtain ⟨q, hq⟩ := h.some hl
    rw [(h.locked q hq).2] at hp
    rwa [← hpid hp]
  · exact h.locked p

/-- Who releases the lock is inside. -/
structure Used (v : View P (SleepLock P) Code) : Prop where
  owned : Owned pid v.data
  releases : ∀ p, v.next p = some .releasesleep → v.data.inside p = true

omit [DecidableEq P] in
theorem used_init : Used pid (⟨initsleeplock, fun _ => none, none⟩ : View P (SleepLock P) Code) :=
  ⟨⟨(fun _ hp => nomatch hp), (fun _ _ hp => nomatch hp), (fun h => nomatch h)⟩, fun _ hp => nomatch hp⟩

theorem keeps : Keeps (client pid) (fun _ _ _ => True) (Used pid) := by
  refine ⟨fun v p k h _ hm _ => ⟨h.owned, fun q hq => ?_⟩, fun v p k h _ _ => ⟨h.owned, h.releases⟩, fun v p k h _ hk => ?_⟩
  · by_cases e : q = p
    · rw [e]
      simp only [e, update_self, Option.some.injEq] at hq
      subst hq
      exact hm
    · simp only [update_of_ne e] at hq
      exact h.releases q hq
  · cases k with
    | acquiresleep =>
      simp only [View.exec, client, exec]
      split
      · refine ⟨h.owned, fun q hq => ?_⟩
        by_cases e : q = p
        · subst e; simp [Next.code] at hq
        · simp only [update_of_ne e] at hq; exact h.releases q hq
      · rename_i hl
        -- nobody is inside
        have hno : ∀ q, v.data.inside q ≠ true := fun q hq => hl (h.owned.locked q hq).1
        have honly : ∀ q, update v.data.inside p true q = true → q = p := by
          intro q hq
          by_contra e
          rw [update_of_ne e] at hq
          exact hno q hq
        refine ⟨⟨fun q hq => ?_, fun q r hq hr => ?_, fun _ => ⟨p, update_self ..⟩⟩, fun q hq => ?_⟩
        · rw [honly q hq]; exact ⟨rfl, rfl⟩
        · rw [honly q hq, honly r hr]
        · by_cases e : q = p
          · subst e; simp [Next.code] at hq
          · simp only [update_of_ne e] at hq
            exact absurd (h.releases q hq) (hno q)
    | releasesleep =>
      have hp := h.releases p hk
      have hno : ∀ q, update v.data.inside p false q ≠ true := by
        intro q hq
        by_cases e : q = p
        · rw [e, update_self] at hq; cases hq
        · rw [update_of_ne e] at hq
          exact e (h.owned.one q p hq hp)
      refine ⟨⟨fun q hq => absurd hq (hno q), fun q r hq => absurd hq (hno q), (fun e => nomatch e)⟩, fun q hq => ?_⟩
      by_cases e : q = p
      · subst e; simp [View.exec, client, exec, Next.code] at hq
      · simp only [View.exec, update_of_ne e] at hq
        exact absurd (h.owned.one q p (h.releases q hq) hp) e
    | released =>
      refine ⟨h.owned, fun q hq => ?_⟩
      by_cases e : q = p
      · subst e; simp [View.exec, client, exec, Next.code] at hq
      · simp only [View.exec, update_of_ne e] at hq; exact h.releases q hq

theorem wakes : Wakes (client pid) (fun _ (lk : SleepLock P) => lk.locked = false) (fun _ _ => False) := by
  refine ⟨fun p lk k ch k' h => ?_, fun p lk k ch h => ?_⟩
  · simp only [client] at h ⊢
    cases k with
    | acquiresleep =>
      simp only [exec] at h ⊢
      split at h
      · rename_i hl
        rw [if_pos hl, hl]
        simp
      · cases h
    | _ => cases h
  · simp only [client] at h ⊢
    cases k with
    | acquiresleep =>
      simp only [exec] at h
      split at h
      · rename_i hl
        rw [hl] at h
        cases h
      · cases h
    | releasesleep => exact .inr (.inl rfl)
    | released => exact .inl ⟨h, not_false⟩

theorem not_late (p : P) (lk : SleepLock P) (k : Code) (ch : Unit) : ((client pid).exec p lk k).2 ≠ .release (some ch) := by
  simp only [client]
  cases k with
  | acquiresleep => simp only [exec]; split <;> simp
  | releasesleep => simp [exec]
  | released => simp [exec]

end SleepLock

/-! ## No lost wakeup -/

/-- In every run of waiters and wakers, where the condition holds and no waker has still to
    wake the channel, nobody sleeps on it. A sleep-lock is held by one process at a time,
    and nobody sleeps on it when it and its spinlock are free. -/
theorem no_lost_wakeup [DecidableEq P] :
    (∀ (cond : D → Bool) (d : D) (es : List (Ev P (Condition.Code cond))),
      let s := runs (Condition.client P cond) (.start d) es
      cond s.data = true → (∀ q, ¬ Condition.Waking (s.pc q)) → ∀ p, ¬ (s.state p = .sleeping ∧ s.chan p = some ())) ∧
    ∀ (pid : P → Nat) (es : List (Ev P SleepLock.Code)),
      let s := runs (SleepLock.client pid) (.start SleepLock.initsleeplock) es
      (∀ p q, s.data.inside p = true → s.data.inside q = true → p = q) ∧
      (s.lk = none → s.data.locked = false → ∀ p, ¬ (s.state p = .sleeping ∧ s.chan p = some ())) := by
  constructor
  · intro cond d es s hc hw p
    exact (Condition.wakes cond).no_sleeper d es hc (fun q hq => hw q (Condition.owes_waking hq)) p
  · intro pid es s
    refine ⟨((Inv.start (SleepLock.used_init pid)).runs (SleepLock.keeps pid) es (calls_of_forall (fun _ _ _ => trivial) _ es)).data.owned.one, fun hl hf p => ?_⟩
    exact (SleepLock.wakes pid).no_sleeper_free (SleepLock.not_late pid) _ es hl hf p

/-- A waiter goes to sleep; the waker sets the condition and wakes it after releasing the lock. -/
def handOver : List (Ev Bool (Condition.Code (D := Bool) id)) :=
  [.call true (.wait id), .step true, .step true, .step true, .step true, .step true, .call false (.wake (fun _ => true) false),
   .step false, .step false, .step false, .step false, .step false]

theorem no_lost_wakeup_handOver :
    (runs (Condition.client Bool id) (.start false) (handOver.take 6)).state true = .sleeping ∧
    ∀ p, ¬ ((runs (Condition.client Bool id) (.start false) handOver).state p = .sleeping ∧
      (runs (Condition.client Bool id) (.start false) handOver).chan p = some ()) := by
  refine ⟨by decide, no_lost_wakeup.1 id false handOver (by decide) fun q h => ?_⟩
  cases q <;> exact h

end Xv6.Proc
