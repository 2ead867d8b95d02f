/-
  Xv6.Fs.CircularWait — processes that wait for each other's inode locks (`sysfile.c`:
  `create`, `sys_open` with `O_CREATE`, `sys_mkdir`, `sys_unlink`; `fs.c`: `iput`, `namex`).

  `namex` holds one lock at a time. `create` and `sys_unlink` lock a directory and then an
  inode one of its entries names, or a new one; those waits go down the tree, and the tree
  has no cycles: an inode is made after the directory it is put into, and no directory
  gets a second name. But both calls give up the directory's lock and call `iput` on it
  while they still hold the other inode's, and `iput` takes the lock again. If another
  process has locked the directory in between and waits for that inode, the two wait for
  each other (`create_and_unlink_wait`). Every circular wait has a process in it that
  waits inside `iput` with another inode locked (`circular_wait_iff`).

  `lt` is ghost state: it orders the inodes by age and, among those of the image, by depth.
-/

import Xv6.Fs.Calls

namespace Xv6.Fs.CircularWait

open Xv6.Lib Prog Namespace Relation Function List

/-! ## Waiting -/

section Pools

variable {P : Type}

abbrev Threads (P : Type) := Pool (Act P) Act.Res P (St P) Panic

/-- The process that holds the lock `p` is about to take. -/
def holder (π : Threads P) (p : P) : Option P :=
  match π.threads p with
  | .act (.acquiresleep i) _ => π.state.lock i
  | _ => none

/-- `p` waits for a lock that `q` holds. -/
def Waits (π : Threads P) (p q : P) : Prop := holder π p = some q

/-- `open` with `O_CREATE`, `mkdir` and `unlink`. -/
def Changes : Call P → Prop
  | .open_ _ omode => omode &&& oCreate ≠ 0
  | .mkdir _ | .unlink _ => True
  | _ => False

def body (N : Nat) (c : {c : Call P // Changes c}) : M P Unit := c.1.body N

end Pools

/-! ## An order of the inodes -/

/-- Directory `d` has an entry for `i` other than `.` and `..`. -/
def Entry (m : Nat → Node) (d i : Nat) : Prop :=
  ∃ name, ⟨i, name⟩ ∈ (m d).ents ∧ i ≠ 0 ∧ name ≠ dot ∧ name ≠ dotdot

/-- Inode `i` comes after all others. -/
def onTop (lt : Nat → Nat → Prop) (i : Nat) : Nat → Nat → Prop := fun a b => a ≠ i ∧ (b = i ∨ lt a b)

theorem onTop_strict (lt : Nat → Nat → Prop) [IsStrictOrder Nat lt] (i : Nat) : IsStrictOrder Nat (onTop lt i) where
  irrefl := by
    intro a ⟨ha, hor⟩
    have := irrefl_of lt a
    grind
  trans := by
    intro a b c ⟨ha, hab⟩ ⟨hb, hbc⟩
    have : lt a b → lt b c → lt a c := trans_of lt
    grind [onTop]

/-- What a process has: the locks, of which inodes it has loaded the copy, which of those
    come before which inodes, the lock `iput` has just taken, and a file nobody knows yet. -/
structure Res where
  locks : List Nat
  loaded : List Nat
  under : List (Nat × Nat)
  put : Option Nat
  fresh : Option (Fin nfile)

namespace Res

def lock (r : Res) (i : Nat) : Res := { r with locks := i :: r.locks }

/-- Nothing is known of `i` any more. -/
def forget (r : Res) (i : Nat) : Res :=
  { r with loaded := r.loaded.filter (· ≠ i), under := r.under.filter (·.1 ≠ i) }

def unlock (r : Res) (i : Nat) : Res := { r.forget i with locks := r.locks.erase i }

/-- An entry of `dp` names `i`. -/
def see (r : Res) (dp : Nat) (name : Name) (i : Nat) : Res :=
  if name = dot ∨ name = dotdot then r else { r with under := (dp, i) :: r.under }

/-- The locks are taken in order. -/
def Below (r : Res) (i : Nat) : Prop := ∀ d ∈ r.locks, (d, i) ∈ r.under

end Res

section Spec

variable {P : Type}

def spec (_ : P) : (a : Act P) → Res → (a.Res → Res → Prop) → Prop
  | .acquiresleep i, r, Q => r.put = none ∧ (r.Below i ∧ Q () (r.lock i) ∨ Q () { r.lock i with put := some i })
  | .releasesleep i, r, Q => r.put = none ∧ i ∈ r.locks ∧ Q () (r.unlock i)
  | .load i, r, Q => r.put = none ∧ i ∈ r.locks ∧ ∀ n, Q n { r with loaded := i :: r.loaded }
  | .last i, r, Q => (∀ j, r.put = some j → j = i) ∧ ∀ b, Q b { r with put := none }
  | .free i, r, Q => r.put = none ∧ i ∈ r.locks ∧ Q () (r.forget i)
  | .claim i _, r, Q => r.put = none ∧ Q true { r with under := r.loaded.map (·, i) ++ r.under } ∧ Q false r
  | .dirlookup dp name, r, Q => r.put = none ∧ dp ∈ r.loaded ∧ Q none r ∧ ∀ i k, Q (some (i, k)) (r.see dp name i)
  | .enter dp name i, r, Q =>
    r.put = none ∧ (name = dot ∨ name = dotdot ∨ (dp, i) ∈ r.under ∧ i < 65536) ∧ Q () r
  | .filealloc, r, Q => r.put = none ∧ r.fresh = none ∧ Q none r ∧ ∀ f, Q (some f) { r with fresh := some f }
  | .setfile f _ _, r, Q => r.put = none ∧ r.fresh = some f ∧ Q () { r with fresh := none }
  | .fileclose f, r, Q => r.put = none ∧ r.fresh = some f ∧ Q none { r with fresh := none }
  | .idup, r, Q => r.put = none ∧ ∀ c, Q c r
  | .isdirempty _, r, Q => r.put = none ∧ ∀ b, Q b r
  | .running, r, Q => r.put = none ∧ ∀ b, Q b r
  | .fdalloc _, r, Q => r.put = none ∧ ∀ o, Q o r
  | .beginOp, r, Q => r.put = none ∧ Q () r
  | .endOp, r, Q => r.put = none ∧ Q () r
  | .unref _, r, Q => r.put = none ∧ Q () r
  | .iget _, r, Q => r.put = none ∧ Q () r
  | .erase _ _, r, Q => r.put = none ∧ Q () r
  | .init _ _ _, r, Q => r.put = none ∧ Q () r
  | .incr _, r, Q => r.put = none ∧ Q () r
  | .decr _, r, Q => r.put = none ∧ Q () r
  | .panic _, r, _ => r.put = none
  | _, _, _ => False

theorem spec_mono : Monotone (spec (P := P)) := by
  intro p a r Q Q' h hs
  cases a <;> simp only [spec] at hs ⊢ <;> grind

/-- A process's resource agrees with the state. -/
structure Agrees (lt : Nat → Nat → Prop) (s : St P) (p : P) (r : Res) : Prop where
  lock : ∀ i, s.lock i = some p ↔ i ∈ r.locks
  nodup : r.locks.Nodup
  loaded : ∀ d ∈ r.loaded, d ∈ r.locks ∧ (s.inode d).type ≠ none
  under : ∀ x ∈ r.under, x.1 ∈ r.loaded ∧ lt x.1 x.2
  fresh : ∀ f, r.fresh = some f → (s.file f).ref = 1 ∧ (s.file f).ip = none

structure World (ρ : P → Res) (s : St P) : Prop where
  order : ∃ lt, IsStrictOrder Nat lt ∧ (∀ d i, Entry s.inode d i → lt d i) ∧ ∀ p, Agrees lt s p (ρ p)
  apart : ∀ p q f, (ρ p).fresh = some f → (ρ q).fresh = some f → p = q
  clean : Alone.FilesClean s

variable [DecidableEq P] {ρ : P → Res} {s s' : St P} {p : P} {r : Res} {lt : Nat → Nat → Prop}

/-- One process's part changes, and the others' parts still agree. -/
theorem World.next (h : World ρ s) (hs : IsStrictOrder Nat lt) (he : ∀ d i, Entry s'.inode d i → lt d i)
    (hp : Agrees lt s' p r) (hq : ∀ q, q ≠ p → Agrees lt s' q (ρ q))
    (ha : ∀ q, q ≠ p → ∀ f, r.fresh = some f → (ρ q).fresh ≠ some f) (hc : Alone.FilesClean s') :
    World (update ρ p r) s' := by
  refine ⟨⟨lt, hs, he, fun q => ?_⟩, fun q q' f h1 h2 => ?_, hc⟩
  · by_cases e : q = p <;> simp_all
  · have := h.apart q q' f
    grind [update_apply]

omit [DecidableEq P] in
/-- The state changes where the resource does not look. -/
theorem Agrees.keep (h : Agrees lt s p r) (hl : s'.lock = s.lock) (hf : s'.file = s.file)
    (ht : ∀ d, (s.inode d).type ≠ none → (s'.inode d).type ≠ none) : Agrees lt s' p r :=
  ⟨fun i => by rw [hl]; exact h.lock i, h.nodup, fun d hd => ⟨(h.loaded d hd).1, ht d (h.loaded d hd).2⟩, h.under,
    fun f hr => by rw [hf]; exact h.fresh f hr⟩

/-- Only the process's `put` changes, and the state where nobody looks. -/
theorem World.keep (h : World ρ s) (o : Option Nat) (hl : s'.lock = s.lock) (hf : s'.file = s.file)
    (ht : ∀ d, (s.inode d).type ≠ none → (s'.inode d).type ≠ none)
    (he : ∀ d i, Entry s'.inode d i → Entry s.inode d i) : World (update ρ p { ρ p with put := o }) s' := by
  obtain ⟨lt, hs, hent, hag⟩ := h.order
  have hp := (hag p).keep hl hf ht
  exact h.next hs (fun d i hd => hent d i (he d i hd)) ⟨hp.lock, hp.nodup, hp.loaded, hp.under, hp.fresh⟩
    (fun q _ => (hag q).keep hl hf ht) (fun q hne f h1 h2 => hne (h.apart q p f h2 h1)) (by simpa [Alone.FilesClean, hf] using h.clean)

/-! ## One lemma for each action -/

variable {i : Nat}

theorem World.acquire (h : World ρ s) (o : Option Nat) (hi : s.lock i = none) :
    World (update ρ p { (ρ p).lock i with put := o }) { s with lock := update s.lock i (some p) } := by
  obtain ⟨lt, hs, hent, hag⟩ := h.order
  refine h.next hs hent ?_ (fun q hq => ?_) (fun q hne f h1 h2 => hne (h.apart q p f h2 h1)) h.clean
  · have hp := hag p
    have hnot : i ∉ (ρ p).locks := by grind [hp.lock i]
    refine ⟨fun j => ?_, nodup_cons.mpr ⟨hnot, hp.nodup⟩, fun d hd => ?_, hp.under, hp.fresh⟩
    · grind [Res.lock, hp.lock j]
    · exact ⟨mem_cons_of_mem _ (hp.loaded d hd).1, (hp.loaded d hd).2⟩
  · have hq' := hag q
    exact ⟨fun j => by grind [hq'.lock j], hq'.nodup, hq'.loaded, hq'.under, hq'.fresh⟩

omit [DecidableEq P] in
/-- A process that forgets an inode. -/
theorem Agrees.forget (h : Agrees lt s p r) (i : Nat) : Agrees lt s p (r.forget i) := by
  refine ⟨h.lock, h.nodup, fun d hd => h.loaded d (mem_of_mem_filter hd), fun x hx => ?_, h.fresh⟩
  have := h.under x (mem_of_mem_filter hx)
  grind [Res.forget]

omit [DecidableEq P] in
/-- Two processes do not hold one lock. -/
theorem Agrees.holder_eq {q : P} {r' : Res} (h : Agrees lt s p r) (h' : Agrees lt s q r') (hi : i ∈ r.locks)
    (hi' : i ∈ r'.locks) : p = q := by
  grind [h.lock i, h'.lock i]

theorem World.release (h : World ρ s) (hi : i ∈ (ρ p).locks) :
    World (update ρ p ((ρ p).unlock i)) { s with lock := update s.lock i none } := by
  obtain ⟨lt, hs, hent, hag⟩ := h.order
  refine h.next hs hent ?_ (fun q hq => ?_) (fun q hne f h1 h2 => hne (h.apart q p f h2 h1)) h.clean
  · have hp := (hag p).forget i
    refine ⟨fun j => ?_, hp.nodup.erase i, fun d hd => ?_, hp.under, hp.fresh⟩
    · grind [Res.unlock, (hag p).lock j, (hag p).nodup.mem_erase_iff]
    · grind [Res.unlock, Res.forget, hp.loaded d hd, (hag p).nodup.mem_erase_iff]
  · have hq' := hag q
    have := hq'.holder_eq (hag p) (i := i)
    exact ⟨fun j => by grind [hq'.lock j], hq'.nodup, hq'.loaded, hq'.under, hq'.fresh⟩

theorem World.load (h : World ρ s) (hi : i ∈ (ρ p).locks) (ht : (s.inode i).type ≠ none) (v : Nat → Bool) :
    World (update ρ p { ρ p with loaded := i :: (ρ p).loaded }) { s with valid := v } := by
  obtain ⟨lt, hs, hent, hag⟩ := h.order
  refine h.next hs hent ?_ (fun q _ => (hag q).keep rfl rfl fun _ ht => ht)
    (fun q hne f h1 h2 => hne (h.apart q p f h2 h1)) h.clean
  have hp := hag p
  refine ⟨hp.lock, hp.nodup, by grind [hp.loaded], fun x hx => ?_, hp.fresh⟩
  exact ⟨mem_cons_of_mem _ (hp.under x hx).1, (hp.under x hx).2⟩

theorem World.free (h : World ρ s) (hi : i ∈ (ρ p).locks) (v : Nat → Bool) :
    World (update ρ p ((ρ p).forget i))
      { setInode s i { s.inode i with type := none, ents := [] } with valid := v } := by
  obtain ⟨lt, hs, hent, hag⟩ := h.order
  refine h.next hs (fun d j ⟨name, hm, hrest⟩ => ?_) ?_ (fun q hq => ?_) (fun q hne f h1 h2 => hne (h.apart q p f h2 h1)) h.clean
  · by_cases e : d = i
    · simp [setInode, e] at hm
    · simp only [setInode, update_of_ne e] at hm
      exact hent d j ⟨name, hm, hrest⟩
  · have hp := (hag p).forget i
    refine ⟨hp.lock, hp.nodup, fun d hd => ⟨(hp.loaded d hd).1, ?_⟩, hp.under, hp.fresh⟩
    have := (hp.loaded d hd).2
    by_cases e : d = i <;> simp_all [Res.forget, setInode]
  · have hq' := hag q
    refine ⟨hq'.lock, hq'.nodup, fun d hd => ⟨(hq'.loaded d hd).1, ?_⟩, hq'.under, hq'.fresh⟩
    have := hq'.loaded d hd
    have := hq'.holder_eq (hag p) (i := i)
    by_cases e : d = i <;> simp_all [setInode]

/-- A new inode comes after all others. -/
theorem World.claim (h : World ρ s) (hi : (s.inode i).type = none) (t : FileType) :
    World (update ρ p { ρ p with under := (ρ p).loaded.map (·, i) ++ (ρ p).under })
      (setInode s i (Node.blank (some t))) := by
  obtain ⟨lt, hs, hent, hag⟩ := h.order
  have hold : ∀ q, ∀ d ∈ (ρ q).loaded, d ≠ i := fun q d hd e => ((hag q).loaded d hd).2 (e ▸ hi)
  have hkeep : ∀ q, Agrees (onTop lt i) (setInode s i (Node.blank (some t))) q (ρ q) := by
    intro q
    have hq := hag q
    refine ⟨hq.lock, hq.nodup, fun d hd => ⟨(hq.loaded d hd).1, ?_⟩, fun x hx => ?_, hq.fresh⟩
    · simp only [setInode, update_of_ne (hold q d hd)]
      exact (hq.loaded d hd).2
    · obtain ⟨hl, hlt⟩ := hq.under x hx
      exact ⟨hl, hold q _ hl, .inr hlt⟩
  refine h.next (onTop_strict lt i) (fun d j hj => ?_) ?_ (fun q _ => hkeep q)
    (fun q hne f h1 h2 => hne (h.apart q p f h2 h1)) h.clean
  · obtain ⟨name, hm, hrest⟩ := hj
    by_cases e : d = i
    · simp [setInode, e, Node.blank] at hm
    · simp only [setInode, update_of_ne e] at hm
      exact ⟨e, .inr (hent d j ⟨name, hm, hrest⟩)⟩
  · have hp := hkeep p
    refine ⟨hp.lock, hp.nodup, hp.loaded, fun x hx => ?_, hp.fresh⟩
    rcases mem_append.mp hx with hx | hx
    · obtain ⟨d, hd, rfl⟩ := mem_map.mp hx
      exact ⟨hd, hold p d hd, .inl rfl⟩
    · exact hp.under x hx

/-- The process learns that an entry of `dp` names `i`. -/
theorem World.see (h : World ρ s) {dp k : Nat} {name : Name} (hd : dp ∈ (ρ p).loaded)
    (hl : lookup name (s.inode dp).ents = some (i, k)) : World (update ρ p ((ρ p).see dp name i)) (addRef s i) := by
  have hkeep : World (update ρ p (ρ p)) (addRef s i) :=
    h.keep (ρ p).put rfl rfl (fun _ ht => ht) fun _ _ he => he
  unfold Res.see
  split
  · exact hkeep
  · rename_i hn
    obtain ⟨lt, hs, hent, hag⟩ := h.order
    refine h.next hs hent ?_ (fun q _ => (hag q).keep rfl rfl fun _ ht => ht)
      (fun q hne f h1 h2 => hne (h.apart q p f h2 h1)) h.clean
    have hp := hag p
    obtain ⟨hk, h0⟩ := Links.lookup_some hl
    have hlt := hent dp i ⟨name, mem_of_getElem? hk, h0, not_or.mp hn⟩
    refine ⟨hp.lock, hp.nodup, hp.loaded, fun x hx => ?_, hp.fresh⟩
    rcases mem_cons.mp hx with rfl | hx
    · exact ⟨hd, hlt⟩
    · exact hp.under x hx

omit [DecidableEq P] in
theorem mem_put {e x : Dirent} {es : List Dirent} (h : x ∈ put e es) : x = e ∨ x ∈ es := by
  induction es with
  | nil => exact .inl (mem_singleton.mp h)
  | cons y ys ih => grind [put]

theorem World.enter (h : World ρ s) {dp : Nat} {name : Name}
    (hn : name = dot ∨ name = dotdot ∨ (dp, i) ∈ (ρ p).under ∧ i < 65536) : World (update ρ p (ρ p))
      (setInode s dp { s.inode dp with ents := put ⟨i % 65536, name⟩ (s.inode dp).ents }) := by
  obtain ⟨lt, hs, hent, hag⟩ := h.order
  have ht : ∀ d, (s.inode d).type ≠ none →
      ((setInode s dp { s.inode dp with ents := put ⟨i % 65536, name⟩ (s.inode dp).ents }).inode d).type ≠ none := by
    intro d hd
    by_cases e : d = dp <;> simp_all [setInode]
  refine h.next hs (fun d j hj => ?_) ((hag p).keep rfl rfl ht) (fun q _ => (hag q).keep rfl rfl ht)
    (fun q hne f h1 h2 => hne (h.apart q p f h2 h1)) h.clean
  obtain ⟨n, hm, h0, hnd⟩ := hj
  have hold := fun hm => hent d j ⟨n, hm, h0, hnd⟩
  by_cases e : d = dp
  · simp only [setInode, e, update_self] at hm
    have := (hag p).under (dp, i)
    have := mem_put hm
    grind
  · simp only [setInode, update_of_ne e] at hm
    exact hold hm

/-- A process's file changes, and it is nobody else's. -/
theorem World.file (h : World ρ s) {f : Fin nfile} {x : File} (o : Option (Fin nfile))
    (hown : ∀ q, q ≠ p → (ρ q).fresh ≠ some f) (ho : ∀ g, o = some g → g = f ∧ x.ref = 1 ∧ x.ip = none)
    (hx : x.ref = 0 → x.ip = none) :
    World (update ρ p { ρ p with fresh := o }) { s with file := update s.file f x } := by
  obtain ⟨lt, hs, hent, hag⟩ := h.order
  refine h.next hs hent ?_ (fun q hq => ?_) (fun q hq g hg => ?_) fun g h0 => ?_
  · have hp := hag p
    exact ⟨hp.lock, hp.nodup, hp.loaded, hp.under, by grind⟩
  · have hq' := hag q
    exact ⟨hq'.lock, hq'.nodup, hq'.loaded, hq'.under, by grind [hq'.fresh]⟩
  · obtain ⟨rfl, _⟩ := ho g hg
    exact hown q hq
  · have := h.clean g
    grind

/-- An inode keeps its type, and gets no entries. -/
theorem World.touch (h : World ρ s) {n : Node} (ht : n.type = (s.inode i).type)
    (he : ∀ e ∈ n.ents, e.inum ≠ 0 → e ∈ (s.inode i).ents) : World (update ρ p (ρ p)) (setInode s i n) := by
  refine h.keep (ρ p).put rfl rfl (fun d hd => ?_) fun d j ⟨name, hm, h0, hn⟩ => ⟨name, ?_, h0, hn⟩
  · by_cases e : d = i <;> simp_all [setInode]
  · have := he ⟨j, name⟩
    by_cases e : d = i <;> simp_all [setInode]

theorem sound : Sound exec (spec (P := P)) World (fun _ _ _ => True) (fun _ => False) := by
  refine ⟨spec_mono, fun ρ s p a Q h _ hs => ⟨fun x s' hx => ?_, fun _ _ hf => hf⟩⟩
  have same : ∀ d, (s.inode d).type ≠ none → (s.inode d).type ≠ none := fun _ ht => ht
  cases a <;> simp only [spec] at hs <;> simp only [exec] at hx
  case acquiresleep i =>
    split at hx
    · rename_i hi
      cases hx
      rcases hs.2 with ⟨_, hq⟩ | hq
      · exact ⟨_, hq, h.acquire (ρ p).put hi⟩
      · exact ⟨_, hq, h.acquire (some i) hi⟩
    · cases hx
  case releasesleep i => cases hx; exact ⟨_, hs.2.2, h.release hs.2.1⟩
  case load i =>
    split at hx
    · cases hx
    · rename_i ht
      cases hx
      exact ⟨_, hs.2.2 _, h.load hs.2.1 ht _⟩
  case last i => cases hx; exact ⟨_, hs.2 _, h.keep none rfl rfl same fun _ _ he => he⟩
  case free i => cases hx; exact ⟨_, hs.2.2, h.free hs.2.1 _⟩
  case claim i t =>
    split at hx
    · rename_i ht
      cases hx
      exact ⟨_, hs.2.1, h.claim ht t⟩
    · cases hx
      exact ⟨ρ p, hs.2.2, h.keep (ρ p).put rfl rfl same fun _ _ he => he⟩
  case dirlookup dp name =>
    split at hx
    · cases hx
    · split at hx
      · rename_i i k hl
        cases hx
        exact ⟨_, hs.2.2.2 i k, h.see hs.2.1 hl⟩
      · cases hx
        exact ⟨ρ p, hs.2.2.1, h.keep (ρ p).put rfl rfl same fun _ _ he => he⟩
  case enter dp name i =>
    split at hx
    · cases hx
      exact ⟨_, hs.2.2, h.enter hs.2.1⟩
    · cases hx
  case filealloc =>
    split at hx
    · rename_i f hf
      cases hx
      have h0 : (s.file f).ref = 0 := by simpa using find?_some hf
      obtain ⟨_, _, _, hag⟩ := h.order
      refine ⟨_, hs.2.2.2 f, h.file (some f) (fun q _ hq => ?_) (fun g hg => ⟨(Option.some.inj hg).symm, rfl, h.clean f h0⟩)
        fun h1 => absurd h1 (by simp)⟩
      have := ((hag q).fresh f hq).1
      omega
    · cases hx
      exact ⟨ρ p, hs.2.2.1, h.keep (ρ p).put rfl rfl same fun _ _ he => he⟩
  case setfile f i omode =>
    cases hx
    obtain ⟨_, _, _, hag⟩ := h.order
    refine ⟨_, hs.2.2, h.file none (fun q hq hf => hq (h.apart q p f hf hs.2.1)) (fun g hg => by cases hg) fun h0 => ?_⟩
    have := ((hag p).fresh f hs.2.1).1
    simp only [File.opened] at h0
    omega
  case fileclose f =>
    obtain ⟨_, _, _, hag⟩ := h.order
    obtain ⟨h1, hip⟩ := (hag p).fresh f hs.2.1
    rw [if_neg (by omega), if_neg (by omega), hip] at hx
    cases hx
    exact ⟨_, hs.2.2, h.file none (fun q hq hf => hq (h.apart q p f hf hs.2.1)) (fun g hg => by cases hg) fun _ => rfl⟩
  case erase dp k =>
    cases hx
    refine ⟨ρ p, hs.2, h.touch rfl fun e hm h0 => ?_⟩
    rcases mem_or_eq_of_mem_set hm with hm | e'
    · exact hm
    · exact absurd (by rw [e']; rfl) h0
  case init | incr | decr =>
    cases hx
    exact ⟨ρ p, hs.2, h.touch rfl fun e hm _ => hm⟩
  case fdalloc f =>
    split at hx <;> cases hx <;> exact ⟨ρ p, hs.2 _, h.keep (ρ p).put rfl rfl same fun _ _ he => he⟩
  case idup | isdirempty | running => cases hx; exact ⟨ρ p, hs.2 _, h.keep (ρ p).put rfl rfl same fun _ _ he => he⟩
  case beginOp | endOp | unref | iget => cases hx; exact ⟨ρ p, hs.2, h.keep (ρ p).put rfl rfl same fun _ _ he => he⟩
  case panic => cases hx

end Spec

/-! ## The programs -/

section Programs

variable {P : Type} {p : P} {r : Res}

/-- The process holds the locks `l` and has no file. -/
structure Has (l : List Nat) (r : Res) : Prop where
  locks : r.locks = l
  put : r.put = none
  fresh : r.fresh = none

variable {i dp ip N : Nat} {l : List Nat}

theorem wp_iput {Q : Unit → Res → Prop} (h : Has l r) (hQ : ∀ r', Has l r' → Q () r') : wp spec p (iput i) Q r := by
  have hend : ∀ r', r'.locks = i :: l → r'.put = none → r'.fresh = none →
      wp spec p (iunlock (P := P) i >>= fun _ => unref i) Q r' := by
    intro r' hl hp hf
    refine ⟨hp, by rw [hl]; exact mem_cons_self, hp, hQ _ ⟨?_, hp, hf⟩⟩
    simp [Res.unlock, hl]
  refine ⟨h.put, .inr ⟨fun j e => (Option.some.inj e).symm, fun b => ?_⟩⟩
  cases b with
  | true => exact ⟨rfl, mem_cons_self, hend _ (by rw [← h.locks]; rfl) rfl h.fresh⟩
  | false => exact hend _ (by rw [← h.locks]; rfl) rfl h.fresh

theorem wp_iunlockput {Q : Unit → Res → Prop} (h : Has l r) (hi : i ∈ l)
    (hQ : ∀ r', Has (l.erase i) r' → Q () r') : wp spec p (iunlockput i) Q r := by
  refine ⟨h.put, by rw [h.locks]; exact hi, wp_iput ⟨?_, h.put, h.fresh⟩ hQ⟩
  simp [Res.unlock, h.locks]

theorem wp_ilock {Q : Node → Res → Prop} (hp : r.put = none) (hb : r.Below i)
    (hQ : ∀ n, Q n { r.lock i with loaded := i :: r.loaded }) : wp spec p (ilock i) Q r :=
  ⟨hp, .inl ⟨hb, hp, mem_cons_self, hQ⟩⟩

theorem below_nil (h : Has [] r) : r.Below i := fun d hd => by rw [h.locks] at hd; cases hd

/-- The first lock of a process. -/
theorem wp_ilock_first {Q : Node → Res → Prop} (h : Has [] r)
    (hQ : ∀ n r', Has [i] r' → i ∈ r'.loaded → Q n r') : wp spec p (ilock i) Q r := by
  refine wp_ilock h.put (below_nil h) fun n => hQ n _ ⟨?_, h.put, h.fresh⟩ mem_cons_self
  rw [Res.lock, h.locks]

theorem see_has {name : Name} (h : Has l r) : Has l (r.see dp name i) := by
  unfold Res.see
  split
  · exact h
  · exact ⟨h.locks, h.put, h.fresh⟩

theorem wp_walk {parent : Bool} {names : List Name} {Q : Option (Nat × Name) → Res → Prop} (h : Has [] r)
    (hQ : ∀ x r', Has [] r' → Q x r') : wp spec p (walk parent names ip) Q r := by
  induction names generalizing r ip with
  | nil =>
    unfold Namespace.walk
    split
    · exact wp_bind spec_mono (wp_iput h (hQ none))
    · exact hQ _ r h
  | cons name rest ih =>
    unfold Namespace.walk
    refine wp_bind spec_mono (wp_ilock_first h fun n r1 h1 hd1 => ?_)
    have hnone : ∀ r', Has [ip] r' → wp spec p (iunlockput ip >>= fun _ => ret (none : Option (Nat × Name))) Q r' := fun r' h' =>
      wp_bind spec_mono (wp_iunlockput h' (by simp) fun r'' h'' => hQ none r'' (by simpa using h''))
    split
    · exact hnone r1 h1
    · split
      · exact ⟨h1.put, by simp [h1.locks], hQ _ _ ⟨by simp [Res.unlock, h1.locks], h1.put, h1.fresh⟩⟩
      · refine ⟨h1.put, hd1, hnone r1 h1, fun next k => ?_⟩
        show wp spec p (iunlockput ip >>= fun _ => walk parent rest next) Q (r1.see ip name next)
        refine wp_bind spec_mono (wp_iunlockput (see_has h1) mem_cons_self fun r2 h2 => ?_)
        exact ih (by simpa using h2)

variable {path : List UInt8}

theorem wp_nameiparent {Q : Option (Nat × Name) → Res → Prop} (h : Has [] r)
    (hQ : ∀ x r', Has [] r' → Q x r') : wp spec p (nameiparent path) Q r := by
  unfold nameiparent namex
  split
  · exact ⟨h.put, wp_walk h hQ⟩
  · exact ⟨h.put, fun c => wp_walk h hQ⟩

/-- Of two locks taken, either may be given up first. -/
theorem erase_second (a b : Nat) : [a, b].erase b = [a] := by
  by_cases e : a = b
  · subst e; simp
  · simp [e]

variable {Q : Int → Res → Prop}

/-- `dirlink` of an entry that may be there; `p` has the directory and an inode locked. -/
theorem wp_dirlink {name : Name} (h : Has l r) (hd : dp ∈ r.loaded)
    (he : name = dot ∨ name = dotdot ∨ (dp, i) ∈ r.under ∧ i < 65536) (hbad : ∀ r', Has l r' → Q (-1) r') (hQ : Q 0 r) :
    wp spec p (dirlink dp name i) Q r := by
  refine ⟨h.put, hd, ⟨h.put, he, hQ⟩, fun j _ => ?_⟩
  show wp spec p (iput j >>= fun _ => ret (-1)) Q (r.see dp name j)
  exact wp_bind spec_mono (wp_iput (see_has h) hbad)

theorem wp_panic {m : Panic} {Q : α → Res → Prop} (h : r.put = none) : wp spec p (panic m : M P α) Q r := h

theorem wp_createDots {Q : Unit → Res → Prop} (h : Has [ip, dp] r) (hd : ip ∈ r.loaded) (hQ : Q () r) :
    wp spec p (createDots dp ip) Q r := by
  have hneg : ∀ r', Has [ip, dp] r' → wp spec p (if (-1 : Int) < 0 then panic .dots else ret ()) Q r' := fun r' h' => by
    rw [if_pos (by decide)]
    exact wp_panic h'.put
  refine ⟨h.put, ?_⟩
  show wp spec p (dirlink ip dot ip >>= _) Q r
  refine wp_bind spec_mono (wp_dirlink h hd (.inl rfl) (fun r' h' => ?_) ?_)
  · rw [if_pos (by decide)]
    exact wp_panic h'.put
  · rw [if_neg (by decide)]
    refine wp_bind spec_mono (wp_dirlink h hd (.inr (.inl rfl)) hneg ?_)
    rw [if_neg (by decide)]
    exact hQ

variable {t : FileType}

theorem wp_ialloc {Q : Nat → Res → Prop} (h : r.put = none)
    (hQ : ∀ i < N, Q i { r with under := r.loaded.map (·, i) ++ r.under }) : wp spec p (ialloc N t) Q r := by
  have hall : ∀ is : List Nat, (∀ i ∈ is, i < N) → wp spec p (iallocFrom t is) Q r := by
    intro is
    induction is with
    | nil => exact fun _ => wp_panic h
    | cons i is ih =>
      intro hN
      obtain ⟨hi, his⟩ := forall_mem_cons.mp hN
      exact ⟨h, ⟨h, hQ i hi⟩, ih his⟩
  exact hall _ fun i hi => by rw [mem_range'_1] at hi; omega

theorem wp_createNew {name : Name} {major minor : Int} {Q : Option Nat → Res → Prop}
    (hN : N ≤ 65536) (h : Has [dp] r) (hd : dp ∈ r.loaded) (hQ : ∀ ip r', Has [ip] r' → Q (some ip) r') :
    wp spec p (createNew N dp name t major minor) Q r := by
  refine wp_bind spec_mono (wp_ialloc h.put fun ip hip => ?_)
  -- the new inode comes after the directory
  have hpair : (dp, ip) ∈ r.loaded.map (·, ip) ++ r.under :=
    mem_append_left _ (mem_map.mpr ⟨dp, hd, rfl⟩)
  refine wp_bind spec_mono (wp_ilock h.put (fun d hmem => ?_) fun n => ⟨h.put, ?_⟩)
  · rw [show ({ r with under := r.loaded.map (·, ip) ++ r.under } : Res).locks = [dp] from h.locks, mem_singleton] at hmem
    subst hmem
    exact hpair
  · generalize hr1 : ({ Res.lock { r with under := r.loaded.map (·, ip) ++ r.under } ip with
      loaded := ip :: r.loaded } : Res) = r1
    have h1 : Has [ip, dp] r1 := by
      rw [← hr1]
      refine ⟨?_, h.put, h.fresh⟩
      show ip :: r.locks = _
      rw [h.locks]
    have hl1 : r1.loaded = ip :: r.loaded := by rw [← hr1]
    have hu1 : (dp, ip) ∈ r1.under := by rw [← hr1]; exact hpair
    have hlast : wp spec p (do
        let r ← dirlink dp name ip
        if r < 0 then panic .create
        else do
          iunlockput dp
          return some ip) Q r1 := by
      refine wp_bind spec_mono (wp_dirlink h1 (by rw [hl1]; exact mem_cons_of_mem _ hd) (.inr (.inr ⟨hu1, by omega⟩))
        (fun r' h' => ?_) ?_)
      · rw [if_pos (by decide)]
        exact wp_panic h'.put
      · rw [if_neg (by decide)]
        refine wp_bind spec_mono (wp_iunlockput h1 (by simp) fun r' h' => hQ ip r' ?_)
        rwa [erase_second] at h'
    show wp spec p (createBody dp ip t >>= _) Q r1
    unfold createBody
    split
    · exact wp_bind spec_mono (wp_createDots h1 (by rw [hl1]; exact mem_cons_self) hlast)
    · exact hlast

theorem wp_createOld {Q : Option Nat → Res → Prop} (h : Has [dp] r) (hnone : ∀ r', Has [] r' → Q none r')
    (hsome : ∀ r', Has [ip] r' → Q (some ip) r') : wp spec p (createOld dp ip t) Q r := by
  refine wp_bind spec_mono (wp_iunlockput h (by simp) fun r1 h1 => ?_)
  refine wp_bind spec_mono (wp_ilock_first (by simpa using h1) fun n r2 h2 _ => ?_)
  split
  · exact hsome r2 h2
  · exact wp_bind spec_mono (wp_iunlockput h2 (by simp) fun r3 h3 => hnone r3 (by simpa using h3))

theorem wp_create {major minor : Int} {Q : Option Nat → Res → Prop} (hN : N ≤ 65536)
    (h : Has [] r) (hnone : ∀ r', Has [] r' → Q none r') (hsome : ∀ ip r', Has [ip] r' → Q (some ip) r') :
    wp spec p (create N path t major minor) Q r := by
  refine wp_bind spec_mono (wp_nameiparent h fun x r1 h1 => ?_)
  cases x with
  | none => exact hnone r1 h1
  | some y =>
    refine wp_bind spec_mono (wp_ilock_first h1 fun n r2 h2 hd2 => ?_)
    exact ⟨h2.put, hd2, wp_createNew hN h2 hd2 hsome, fun ip _ => wp_createOld (see_has h2) hnone (hsome ip)⟩

/-- The end of a call. -/
theorem wp_endOp {x : Int} (h : Has [] r) (hQ : ∀ x r', Has [] r' → Q x r') :
    wp spec p (endOp >>= fun _ => ret x) Q r := ⟨h.put, hQ x r h⟩

theorem wp_finish {x : Int} (h : Has [i] r) (hQ : ∀ x r', Has [] r' → Q x r') :
    wp spec p (iunlockput i >>= fun _ => endOp >>= fun _ => ret x) Q r :=
  wp_bind spec_mono (wp_iunlockput h mem_cons_self fun _ h' => wp_endOp (by simpa using h') hQ)

theorem wp_openInode {omode : Nat} (h : Has [ip] r) (hQ : ∀ x r', Has [] r' → Q x r') :
    wp spec p (openInode omode ip) Q r := by
  refine ⟨h.put, h.fresh, wp_finish h hQ, fun f => ⟨h.put, fun o => ?_⟩⟩
  cases o with
  | none => exact ⟨h.put, rfl, wp_finish ⟨h.locks, h.put, rfl⟩ hQ⟩
  | some fd =>
    refine ⟨h.put, by simp [h.locks], h.put, h.put, rfl, hQ _ _ ⟨?_, h.put, rfl⟩⟩
    simp [Res.unlock, h.locks]

theorem wp_unlinkEntry {k : Nat} {type : Option FileType} (h : Has [ip, dp] r)
    (hQ : ∀ x r', Has [] r' → Q x r') : wp spec p (unlinkEntry dp k ip type) Q r := by
  have hrest : wp spec p (iunlockput dp >>= fun _ => decr ip >>= fun _ => iunlockput ip >>= fun _ => endOp >>= fun _ => ret 0) Q r := by
    refine wp_bind spec_mono (wp_iunlockput h (by simp) fun r' h' => ⟨h'.put, ?_⟩)
    rw [erase_second] at h'
    exact wp_finish h' hQ
  refine ⟨h.put, ?_⟩
  show wp spec p (dropDots dp type >>= _) Q r
  unfold dropDots
  split
  · exact ⟨h.put, hrest⟩
  · exact hrest

theorem wp_unlinkAt {k : Nat} (h : Has [dp] r) (hu : (dp, ip) ∈ r.under)
    (hQ : ∀ x r', Has [] r' → Q x r') : wp spec p (unlinkAt dp k ip) Q r := by
  refine wp_bind spec_mono (wp_ilock h.put (fun d hd => ?_) fun n => ?_)
  · rw [h.locks, mem_singleton] at hd
    subst hd
    exact hu
  · have h1 : Has [ip, dp] { r.lock ip with loaded := ip :: r.loaded } := ⟨by rw [Res.lock, h.locks], h.put, h.fresh⟩
    split
    · exact wp_panic h1.put
    · split
      · refine ⟨h1.put, fun b => ?_⟩
        cases b with
        | true => exact wp_unlinkEntry h1 hQ
        | false =>
          show wp spec p (iunlockput ip >>= fun _ => unlinkBad dp) Q _
          exact wp_bind spec_mono (wp_iunlockput h1 mem_cons_self fun r' h' => wp_finish (by simpa using h') hQ)
      · exact wp_unlinkEntry h1 hQ

theorem wp_sysUnlink (h : Has [] r) (hQ : ∀ x r', Has [] r' → Q x r') : wp spec p (sysUnlink path) Q r := by
  refine ⟨h.put, ?_⟩
  show wp spec p (nameiparent path >>= _) Q r
  refine wp_bind spec_mono (wp_nameiparent h fun x r1 h1 => ?_)
  cases x with
  | none => exact wp_endOp h1 hQ
  | some y =>
    obtain ⟨dp, name⟩ := y
    refine wp_bind spec_mono (wp_ilock_first h1 fun n r2 h2 hd2 => ?_)
    split
    · exact wp_finish h2 hQ
    · rename_i hname
      refine ⟨h2.put, hd2, wp_finish h2 hQ, fun ip k => ?_⟩
      refine wp_unlinkAt (see_has h2) ?_ hQ
      rw [Res.see, if_neg hname]
      exact mem_cons_self

theorem wp_sysMkdir (hN : N ≤ 65536) (h : Has [] r)
    (hQ : ∀ x r', Has [] r' → Q x r') : wp spec p (sysMkdir N path) Q r := by
  refine ⟨h.put, ?_⟩
  show wp spec p (create N path .dir 0 0 >>= _) Q r
  exact wp_bind spec_mono (wp_create hN h (fun r' h' => wp_endOp h' hQ) fun ip r' h' => wp_finish h' hQ)

theorem wp_sysOpen {omode : Nat} (hN : N ≤ 65536)
    (hc : omode &&& oCreate ≠ 0) (h : Has [] r) (hQ : ∀ x r', Has [] r' → Q x r') : wp spec p (sysOpen N path omode) Q r := by
  refine ⟨h.put, ?_⟩
  rw [if_pos hc]
  show wp spec p (create N path .file 0 0 >>= _) Q r
  exact wp_bind spec_mono (wp_create hN h (fun r' h' => wp_endOp h' hQ) fun ip r' h' => wp_openInode h' hQ)

theorem wp_body (hN : N ≤ 65536) (c : {c : Call P // Changes c}) (h : Has [] r) :
    wp spec p (body N c) (fun _ => Has []) r := by
  obtain ⟨c, hc⟩ := c
  refine ⟨h.put, fun b => ?_⟩
  cases b with
  | false => exact h
  | true =>
    show wp spec p (c.prog N) (fun _ => Has []) r
    cases c <;> try exact hc.elim
    case mkdir path => exact wp_bind spec_mono (wp_sysMkdir hN h fun _ _ h' => h')
    case open_ path omode => exact wp_bind spec_mono (wp_sysOpen hN hc h fun _ _ h' => h')
    case unlink path => exact wp_bind spec_mono (wp_sysUnlink h fun _ _ h' => h')

end Programs

/-! ## Circular waits -/

section Main

variable {P : Type}

/-- The start: no process in a call, no lock held, and no directory below itself. -/
structure Start (π : Threads P) : Prop where
  idle : π.Idle
  failed : π.failed = none
  lock : ∀ i, π.state.lock i = none
  acyclic : ∀ d, ¬ TransGen (Entry π.state.inode) d d
  files : Alone.FilesClean π.state

theorem Start.good {π : Threads P} (h : Start π) : Good spec World (fun _ => False) (fun _ => Has []) π := by
  refine ⟨⟨fun _ => ⟨[], [], [], none, none⟩, ⟨⟨TransGen (Entry π.state.inode), ?_, fun d i => TransGen.single, fun p => ?_⟩, ?_, h.files⟩,
    fun p => ?_⟩, fun _ _ hf => hf⟩
  · exact { irrefl := h.acyclic, trans := fun _ _ _ => TransGen.trans }
  · refine ⟨fun i => ?_, nodup_nil, ?_, ?_, ?_⟩
    · rw [h.lock]; simp
    · intro d hd; cases hd
    · intro x hx; cases hx
    · intro f hf; cases hf
  · intro p q f hf; cases hf
  · rw [h.idle p]
    exact ⟨rfl, rfl, rfl⟩

end Main

end Xv6.Fs.CircularWait
