/-
  Xv6.Vm.Memory — physical pages, the page allocator (`kalloc.c`) and what the code of
  `vm.c`, `growproc`, `fork` and `exec` does to them.

  A page is named by its number, its physical address divided by `PGSIZE`; that is also how
  a kernel pointer to it is written, since `P2V` and `V2P` only add and subtract `KERNBASE`.
  Addresses are numbers below 2^32 with C's wrap-around. `kalloc` fails when the free list is
  empty and whenever `fails` says so.

  A process reasons about the pages it has: `kalloc` brings one it did not have, `kfree`
  takes one away, and it reads and writes no others (`spec`). `alone` says that this is
  what happens when the process runs by itself.
-/

import Xv6.Lib.Prog

namespace Xv6.Vm

open Lib Prog Function

/-! ## Addresses -/

abbrev KERNBASE : Nat := 0x80000000
abbrev EXTMEM : Nat := 0x100000
abbrev PHYSTOP : Nat := 0xE000000
abbrev DEVSPACE : Nat := 0xFE000000
abbrev KERNLINK : Nat := KERNBASE + EXTMEM

def uint (x : Nat) : Nat := x % 2 ^ 32

def PDX (va : Nat) : Nat := va / 2 ^ 22 % 1024

def PTX (va : Nat) : Nat := va / 2 ^ 12 % 1024

def PGADDR (d t o : Nat) : Nat := uint (d <<< 22 ||| t <<< 12 ||| o)

def PGROUNDUP (sz : Nat) : Nat := uint (sz + 4095) / 4096 * 4096

def PGROUNDDOWN (a : Nat) : Nat := a / 4096 * 4096

/-! ## Pages and entries -/

abbrev Page := Nat → UInt8

/-- `((uint*)page)[i]`. -/
def Page.word (x : Page) (i : Nat) : BitVec 32 :=
  (x (4 * i + 3)).toBitVec ++ (x (4 * i + 2)).toBitVec ++ (x (4 * i + 1)).toBitVec ++ (x (4 * i)).toBitVec

def Page.setWord (x : Page) (i : Nat) (w : BitVec 32) : Page :=
  fun j => if j / 4 = i then .ofBitVec (w.extractLsb' (8 * (j % 4)) 8) else x j

/-- The bytes `bs` at `off`. -/
def Page.setBytes (x : Page) (off : Nat) (bs : List UInt8) : Page :=
  fun j => if off ≤ j then (bs[j - off]?).getD (x j) else x j

theorem bytes_word (w : BitVec 32) :
    (w.extractLsb' 24 8 ++ w.extractLsb' 16 8 ++ w.extractLsb' 8 8 ++ w.extractLsb' 0 8 : BitVec 32) = w := by
  ext i hi
  simp only [BitVec.getElem_append, BitVec.getElem_extractLsb']
  grind

theorem word_setWord (x : Page) (i : Nat) (w : BitVec 32) (j : Nat) : (x.setWord i w).word j = if j = i then w else x.word j := by
  simp only [Page.word, Page.setWord, show (4 * j + 3) / 4 = j by omega, show (4 * j + 2) / 4 = j by omega, show (4 * j + 1) / 4 = j by omega,
    show 4 * j / 4 = j by omega, show (4 * j + 3) % 4 = 3 by omega, show (4 * j + 2) % 4 = 2 by omega, show (4 * j + 1) % 4 = 1 by omega,
    show 4 * j % 4 = 0 by omega]
  split
  · exact bytes_word w
  · rfl

theorem word_zero (i : Nat) : Page.word (fun _ => 0) i = 0 := by
  simp only [Page.word]
  decide

def PTE_P : BitVec 32 := 0x001
def PTE_W : BitVec 32 := 0x002
def PTE_U : BitVec 32 := 0x004

/-- The entry has `PTE_P`. -/
abbrev Present (e : BitVec 32) : Prop := e &&& PTE_P ≠ 0

/-- `P2V(PTE_ADDR(e))`. -/
def pageOf (e : BitVec 32) : Nat := e.toNat / 4096

def PTE_FLAGS (e : BitVec 32) : BitVec 32 := e &&& 0xFFF

/-- `pa | perm | PTE_P`. -/
def pte (pa : Nat) (perm : BitVec 32) : BitVec 32 := BitVec.ofNat 32 pa ||| perm ||| PTE_P

theorem pte_toNat {f : Nat} {perm : BitVec 32} (hf : f < 2 ^ 20) (hp : perm.toNat < 4096) :
    (pte (4096 * f) perm).toNat = 4096 * f + (perm ||| PTE_P).toNat ∧ (perm ||| PTE_P).toNat < 4096 := by
  have h1 : (perm ||| PTE_P).toNat < 2 ^ 12 := by
    rw [BitVec.toNat_or]
    exact Nat.or_lt_two_pow (by omega) (by decide)
  refine ⟨?_, h1⟩
  rw [pte, BitVec.or_assoc, BitVec.toNat_or, BitVec.toNat_ofNat, Nat.mod_eq_of_lt (by omega), show 4096 * f = 2 ^ 12 * f from rfl,
    ← Nat.two_pow_add_eq_or_of_lt h1]

theorem pageOf_pte {f : Nat} {perm : BitVec 32} (hf : f < 2 ^ 20) (hp : perm.toNat < 4096) : pageOf (pte (4096 * f) perm) = f := by
  obtain ⟨h1, h2⟩ := pte_toNat hf hp
  rw [pageOf, h1]
  omega

theorem flags_pte {f : Nat} {perm : BitVec 32} (hf : f < 2 ^ 20) (hp : perm.toNat < 4096) : PTE_FLAGS (pte (4096 * f) perm) = perm ||| PTE_P := by
  obtain ⟨h1, h2⟩ := pte_toNat hf hp
  apply BitVec.eq_of_toNat_eq
  rw [PTE_FLAGS, BitVec.toNat_and, h1, show BitVec.toNat (0xFFF : BitVec 32) = 2 ^ 12 - 1 from rfl, Nat.and_two_pow_sub_one_eq_mod]
  omega

theorem present_or (e : BitVec 32) : Present (e ||| PTE_P) := by
  intro h
  have := congrArg (BitVec.getLsbD · 0) h
  simp [PTE_P] at this

theorem present_pte (pa : Nat) (perm : BitVec 32) : Present (pte pa perm) := present_or _

theorem not_present_zero : ¬ Present 0 := by decide

theorem flags_lt (e : BitVec 32) : (PTE_FLAGS e).toNat < 4096 := by
  rw [PTE_FLAGS, BitVec.toNat_and]
  exact Nat.lt_of_le_of_lt Nat.and_le_right (by decide)

/-! ## The machine -/

/-- Where the linker has put `data` and `end`, in pages from physical address 0. -/
structure Image where
  data : Nat
  first : Nat
  text : 256 < data
  bss : data ≤ first
  fits : first < 0xE000

/-- The pages between `end` and `PHYSTOP`. -/
def Image.InPool (k : Image) (f : Nat) : Prop := k.first ≤ f ∧ f < 0xE000

theorem Image.InPool.lt {k : Image} {f : Nat} (h : k.InPool f) : 0 < f ∧ f < 2 ^ 20 := by
  have h1 := k.text
  have h2 := k.bss
  obtain ⟨h3, h4⟩ := h
  omega

structure Trapframe where
  eip : Nat
  esp : Nat
  eax : Nat
  deriving DecidableEq

structure Proc where
  sz : Nat
  pgdir : Nat
  kstack : Nat
  tf : Trapframe
  name : List UInt8
  deriving DecidableEq

structure St (P : Type) where
  mem : Nat → Page
  free : List Nat
  proc : P → Proc
  /-- Which calls of `kalloc` fail although there is a page. -/
  fails : Nat → Bool
  calls : Nat
  /-- How many have returned 0. -/
  denied : Nat

inductive Err where
  /-- "kfree" -/
  | kfree
  /-- `kfree` of a page that is free. -/
  | free
  /-- "remap" -/
  | remap
  /-- "PHYSTOP too high" -/
  | phystop
  /-- "loaduvm: addr must be page aligned" -/
  | loadAlign
  /-- "loaduvm: address should exist" -/
  | loadExist
  /-- "freevm: no pgdir" -/
  | freevm
  /-- "clearpteu" -/
  | clearpteu
  /-- "copyuvm: pte should exist" -/
  | copyExist
  /-- "copyuvm: page not present" -/
  | copyPresent
  /-- "switchuvm: no kstack" -/
  | noKstack
  /-- "switchuvm: no pgdir" -/
  | noPgdir
  /-- An entry is read through a page table that does not exist. -/
  | nullPte
  /-- A loop takes more steps than there are pages in the address space. -/
  | stuck
  deriving DecidableEq

inductive Act (P : Type) where
  | kalloc
  | kfree (f : Nat)
  | memset (f : Nat) (c : UInt8)
  /-- `memmove`, or `readi`, to the page. -/
  | memmove (f off : Nat) (bs : List UInt8)
  /-- `memmove(f, g, PGSIZE)`. -/
  | copy (f g : Nat)
  | read (f i : Nat)
  | write (f i : Nat) (w : BitVec 32)
  | proc (q : P)
  | setproc (q : P) (x : Proc)
  | panic (e : Err)

def Act.Res {P : Type} : Act P → Type
  | .kalloc => Option Nat
  | .read _ _ => BitVec 32
  | .proc _ => Proc
  | .panic _ => Empty
  | _ => Unit

section Effect

variable {P : Type} [DecidableEq P]

def St.store (s : St P) (f : Nat) (x : Page) : St P := { s with mem := Function.update s.mem f x }

def effect (k : Image) (_ : P) : (a : Act P) → St P → Out Err (a.Res × St P)
  | .kalloc, s => match s.fails s.calls, s.free with
    | false, f :: free => .ok (some f, { s with free, calls := s.calls + 1 })
    | _, _ => .ok (none, { s with calls := s.calls + 1, denied := s.denied + 1 })
  | .kfree f, s =>
    if f < k.first ∨ 0xE000 ≤ f then .fail .kfree
    else if f ∈ s.free then .fail .free
    else .ok ((), { s.store f (fun _ => 1) with free := f :: s.free })
  | .memset f c, s => .ok ((), s.store f fun _ => c)
  | .memmove f off bs, s => .ok ((), s.store f ((s.mem f).setBytes off bs))
  | .copy f g, s => .ok ((), s.store f (s.mem g))
  | .read f i, s => .ok ((s.mem f).word i, s)
  | .write f i w, s => .ok ((), s.store f ((s.mem f).setWord i w))
  | .proc q, s => .ok (s.proc q, s)
  | .setproc q x, s => .ok ((), { s with proc := Function.update s.proc q x })
  | .panic e, _ => .fail e

end Effect

/-! ## Local reasoning -/

/-- What a process has: pages and their contents, and the records of processes. Each time
    `kalloc` has returned 0, what pages there were. -/
structure Res (P : Type) where
  own : Set Nat
  mem : Nat → Page
  proc : P → Option Proc
  denied : List (Set Nat)

section Spec

variable {P : Type} [DecidableEq P]

def Res.store (r : Res P) (f : Nat) (x : Page) : Res P := { r with mem := Function.update r.mem f x }

def Res.alloc (r : Res P) (f : Nat) (x : Page) : Res P := { r.store f x with own := insert f r.own }

def Res.release (r : Res P) (f : Nat) : Res P := { r with own := r.own \ {f} }

def Res.deny (r : Res P) : Res P := { r with denied := r.own :: r.denied }

/-- `B` are the ways the code may fail. -/
def spec (k : Image) (B : Err → Prop) (_ : P) : (a : Act P) → Res P → (a.Res → Res P → Prop) → Prop
  | .kalloc, r, Q => Q none r.deny ∧ ∀ f x, f ∉ r.own → k.InPool f → Q (some f) (r.alloc f x)
  | .kfree f, r, Q => f ∈ r.own ∧ Q () (r.release f)
  | .memset f c, r, Q => f ∈ r.own ∧ Q () (r.store f fun _ => c)
  | .memmove f off bs, r, Q => f ∈ r.own ∧ Q () (r.store f ((r.mem f).setBytes off bs))
  | .copy f g, r, Q => f ∈ r.own ∧ g ∈ r.own ∧ Q () (r.store f (r.mem g))
  | .read f i, r, Q => f ∈ r.own ∧ Q ((r.mem f).word i) r
  | .write f i w, r, Q => f ∈ r.own ∧ Q () (r.store f ((r.mem f).setWord i w))
  | .proc q, r, Q => ∃ x, r.proc q = some x ∧ Q x r
  | .setproc q x, r, Q => r.proc q ≠ none ∧ Q () { r with proc := Function.update r.proc q (some x) }
  | .panic e, _, _ => B e

theorem spec_mono {k : Image} {B : Err → Prop} : Monotone (spec (P := P) k B) := by
  intro p a r Q Q' hQ h
  cases a with
  | kalloc => exact ⟨hQ _ _ h.1, fun f x h1 h2 => hQ _ _ (h.2 f x h1 h2)⟩
  | kfree f => exact ⟨h.1, hQ _ _ h.2⟩
  | memset f c => exact ⟨h.1, hQ _ _ h.2⟩
  | memmove f off bs => exact ⟨h.1, hQ _ _ h.2⟩
  | copy f g => exact ⟨h.1, h.2.1, hQ _ _ h.2.2⟩
  | read f i => exact ⟨h.1, hQ _ _ h.2⟩
  | write f i w => exact ⟨h.1, hQ _ _ h.2⟩
  | proc q =>
    obtain ⟨x, h1, h2⟩ := h
    exact ⟨x, h1, hQ _ _ h2⟩
  | setproc q x => exact ⟨h.1, hQ _ _ h.2⟩
  | panic e => exact h

end Spec

/-! ## Running alone -/

section Alone

variable {P : Type}

/-- The process has every page that is not free. Where `kalloc` has returned 0, it was told
    to or no page was left. -/
structure Alone (k : Image) (s₀ : St P) (r : Res P) (s : St P) : Prop where
  nodup : s.free.Nodup
  free : ∀ f ∈ s.free, k.InPool f
  own : ∀ f, f ∈ r.own ↔ k.InPool f ∧ f ∉ s.free
  mem : ∀ f ∈ r.own, s.mem f = r.mem f
  proc : ∀ q x, r.proc q = some x → s.proc q = x
  fails : s.fails = s₀.fails
  denied : s.denied = s₀.denied + r.denied.length
  full : ∀ o ∈ r.denied, (∃ i, s₀.fails i = true) ∨ ∀ f, k.InPool f → f ∈ o

variable {k : Image} {s₀ : St P} {r : Res P} {s : St P}

/-- A page the process has gets new contents. -/
theorem Alone.store (h : Alone k s₀ r s) (f : Nat) (x : Page) : Alone k s₀ (r.store f x) (s.store f x) := by
  refine ⟨h.nodup, h.free, h.own, fun g hg => ?_, h.proc, h.fails, h.denied, h.full⟩
  show update s.mem f x g = update r.mem f x g
  by_cases e : g = f
  · rw [e, update_self, update_self]
  · rw [update_of_ne e, update_of_ne e]
    exact h.mem g hg

theorem Alone.kalloc (h : Alone k s₀ r s) {f : Nat} {free : List Nat} (hf : s.free = f :: free) :
    f ∉ r.own ∧ k.InPool f ∧ Alone k s₀ (r.alloc f (s.mem f)) { s with free, calls := s.calls + 1 } := by
  have hmem : f ∈ s.free := hf ▸ List.mem_cons_self
  obtain ⟨hnot, hnd⟩ := List.nodup_cons.1 (hf ▸ h.nodup)
  have hnew : f ∉ r.own := fun ho => ((h.own f).1 ho).2 hmem
  refine ⟨hnew, h.free f hmem, hnd, fun g hg => h.free g (hf ▸ List.mem_cons_of_mem f hg), fun g => ?_, fun g hg => ?_, h.proc, h.fails, h.denied, h.full⟩
  · show g ∈ insert f r.own ↔ k.InPool g ∧ g ∉ free
    rw [Set.mem_insert_iff, h.own g, hf, List.mem_cons, not_or]
    constructor
    · intro hg
      rcases hg with rfl | ⟨h1, _, h3⟩
      · exact ⟨h.free g hmem, hnot⟩
      · exact ⟨h1, h3⟩
    · intro ⟨h1, h2⟩
      by_cases e : g = f
      · exact .inl e
      · exact .inr ⟨h1, e, h2⟩
  · show s.mem g = update r.mem f (s.mem f) g
    by_cases e : g = f
    · rw [e, update_self]
    · rw [update_of_ne e]
      exact h.mem g (Set.mem_of_mem_insert_of_ne hg e)

theorem Alone.kfree (h : Alone k s₀ r s) {f : Nat} (hf : f ∈ r.own) :
    Alone k s₀ (r.release f) { s.store f (fun _ => 1) with free := f :: s.free } := by
  obtain ⟨hp, hnot⟩ := (h.own f).1 hf
  refine ⟨List.nodup_cons.2 ⟨hnot, h.nodup⟩, fun g hg => ?_, fun g => ?_, fun g hg => ?_, h.proc, h.fails, h.denied, h.full⟩
  · rcases List.mem_cons.1 hg with rfl | hg
    · exact hp
    · exact h.free g hg
  · show g ∈ r.own \ {f} ↔ k.InPool g ∧ g ∉ f :: s.free
    rw [Set.mem_sdiff, h.own g, Set.mem_singleton_iff, List.mem_cons, not_or, and_assoc, and_comm (a := g ∉ s.free)]
  · show update s.mem f (fun _ => 1) g = r.mem g
    rw [update_of_ne hg.2]
    exact h.mem g hg.1

theorem Alone.deny (h : Alone k s₀ r s) (hd : s.fails s.calls = true ∨ s.free = []) :
    Alone k s₀ r.deny { s with calls := s.calls + 1, denied := s.denied + 1 } := by
  refine ⟨h.nodup, h.free, h.own, h.mem, h.proc, h.fails, ?_, fun o ho => ?_⟩
  · show s.denied + 1 = s₀.denied + (r.denied.length + 1)
    have := h.denied
    omega
  · rcases List.mem_cons.1 ho with rfl | ho
    · rcases hd with hd | hd
      · exact .inl ⟨s.calls, h.fails ▸ hd⟩
      · refine .inr fun f hf => (h.own f).2 ⟨hf, ?_⟩
        rw [hd]
        exact List.not_mem_nil
    · exact h.full o ho

/-- The state of the allocator makes sense: the free list has pages of the pool, each once. -/
structure Sane (k : Image) (s : St P) : Prop where
  nodup : s.free.Nodup
  free : ∀ f ∈ s.free, k.InPool f

/-- The pages that are allocated. -/
def St.used (k : Image) (s : St P) : Set Nat := {f | k.InPool f ∧ f ∉ s.free}

/-- Alone, a process has whatever is allocated. -/
def St.res (k : Image) (s : St P) : Res P := ⟨s.used k, s.mem, fun q => some (s.proc q), []⟩

theorem Sane.alone (h : Sane k s) : Alone k s (s.res k) s :=
  ⟨h.nodup, h.free, fun _ => Iff.rfl, fun _ _ => rfl, fun _ _ e => Option.some.inj e, rfl, rfl, fun _ ho => by cases ho⟩

theorem Alone.sane (h : Alone k s₀ r s) : Sane k s := ⟨h.nodup, h.free⟩

/-- The pages of the process are those allocated, with their contents. -/
structure Agree (k : Image) (r : Res P) (s : St P) : Prop where
  used : s.used k = r.own
  mem : ∀ f ∈ r.own, s.mem f = r.mem f

theorem Alone.agree (h : Alone k s₀ r s) : Agree k r s := ⟨Set.ext fun f => (h.own f).symm, h.mem⟩

variable [DecidableEq P]

theorem alone_act {B : Err → Prop} {p : P} (a : Act P) (Q : a.Res → Res P → Prop) (h : Alone k s₀ r s) (hs : spec k B p a r Q) :
    Ends (effect k) p (perform a) s (fun x s' => ∃ r', Q x r' ∧ Alone k s₀ r' s') B False := by
  cases a with
  | kalloc =>
    cases hfail : s.fails s.calls with
    | true => exact Ends.act (r := none) (by simp only [effect, hfail]) (.ret ⟨_, hs.1, h.deny (.inl hfail)⟩)
    | false =>
      cases hf : s.free with
      | nil => exact Ends.act (r := none) (by simp only [effect, hfail, hf]) (.ret ⟨_, hs.1, h.deny (.inr hf)⟩)
      | cons f free =>
        obtain ⟨h1, h2, h3⟩ := h.kalloc hf
        exact Ends.act (r := some f) (by simp only [effect, hfail, hf]) (.ret ⟨_, hs.2 f _ h1 h2, h3⟩)
  | kfree f =>
    obtain ⟨⟨h1, h2⟩, h3⟩ := (h.own f).1 hs.1
    refine Ends.act (r := ()) ?_ (.ret ⟨_, hs.2, h.kfree hs.1⟩)
    simp only [effect, if_neg h3, if_neg (show ¬ (f < k.first ∨ 0xE000 ≤ f) by omega)]
  | memset f c => exact Ends.act (r := ()) rfl (.ret ⟨_, hs.2, h.store f _⟩)
  | memmove f off bs =>
    refine Ends.act (r := ()) rfl (.ret ⟨_, hs.2, ?_⟩)
    rw [← h.mem f hs.1]
    exact h.store f _
  | copy f g =>
    refine Ends.act (r := ()) rfl (.ret ⟨_, hs.2.2, ?_⟩)
    rw [← h.mem g hs.2.1]
    exact h.store f _
  | read f i =>
    refine Ends.act (r := (s.mem f).word i) rfl (.ret ⟨_, ?_, h⟩)
    rw [h.mem f hs.1]
    exact hs.2
  | write f i w =>
    refine Ends.act (r := ()) rfl (.ret ⟨_, hs.2, ?_⟩)
    rw [← h.mem f hs.1]
    exact h.store f _
  | proc q =>
    obtain ⟨x, hx, hq⟩ := hs
    refine Ends.act (r := s.proc q) rfl (.ret ⟨_, ?_, h⟩)
    rw [h.proc q x hx]
    exact hq
  | setproc q x =>
    refine Ends.act (r := ()) rfl (.ret ⟨_, hs.2, h.nodup, h.free, h.own, h.mem, fun q' y hy => ?_, h.fails, h.denied, h.full⟩)
    have hy : update r.proc q (some x) q' = some y := hy
    show update s.proc q x q' = y
    by_cases e : q' = q
    · rw [e, update_self] at hy ⊢
      exact Option.some.inj hy
    · rw [update_of_ne e] at hy ⊢
      exact h.proc q' y hy
  | panic e => exact Ends.fail rfl hs

/-- What is shown of a program with `wp` holds of its runs alone. -/
theorem alone {α : Type} {B : Err → Prop} {p : P} {c : Prog (Act P) Act.Res α} {Q : α → Res P → Prop} (hs : Sane k s)
    (h : wp (spec k B) p c Q (s.res k)) :
    Ends (effect k) p c s (fun x s' => ∃ r, Q x r ∧ Alone k s r s') B False :=
  wp_ends (fun a _ _ Q hw => alone_act a Q hw) hs.alone h

end Alone

/-! ## A machine -/

/-- A kernel of 300 pages. -/
def smallKernel : Image := ⟨280, 300, by decide, by decide, by decide⟩

/-- Memory of zeros, with the pages `free` on the free list and the process `x`. -/
def zeroed (free : List Nat) (x : Proc) : St Unit := ⟨fun _ _ => 0, free, fun _ => x, fun _ => false, 0, 0⟩

end Xv6.Vm
