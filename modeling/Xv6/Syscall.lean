/-
  Xv6.Syscall — arguments of system calls (`syscall.c`: `fetchint`, `fetchstr`, `argint`,
  `argptr`, `argstr`).

  What a process gives is an address on its stack and what stands there: any 32-bit words.
  The kernel compares them with `sz` in unsigned sums; only the bound `sz < KERNBASE` keeps
  these from going past 2^32, a size of an argument being a nonnegative `int`.

    • `arguments_in_memory`: all that is read and all that is handed out lies below `sz`, and
      each function succeeds exactly when it should.
-/

import Xv6.Vm.Memory

namespace Xv6.Syscall

open Lib Prog
open Vm (KERNBASE)

abbrev Word := BitVec 32

/-- The caller: `curproc->sz` and `curproc->tf->esp`. -/
structure Proc where
  sz : Word
  esp : Word

inductive Act where
  | load (a : Word)

def Act.Res : Act → Type
  | .load _ => UInt8

abbrev M := Prog Act Act.Res

/-- The memory the kernel sees. -/
abbrev Mem := Word → UInt8

def exec (_ : Unit) : (a : Act) → Mem → Out Empty (a.Res × Mem)
  | .load a, m => .ok (m a, m)

def load (a : Word) : M UInt8 := perform (Act.load a)

/-! ## The code -/

/-- `*(int*)addr`. -/
def loadInt (addr : Word) : M Word := do
  let b0 ← load addr
  let b1 ← load (addr + 1)
  let b2 ← load (addr + 2)
  let b3 ← load (addr + 3)
  return b3.toBitVec ++ b2.toBitVec ++ b1.toBitVec ++ b0.toBitVec

/-- `none` is -1. -/
def fetchint (c : Proc) (addr : Word) : M (Option Word) := do
  if c.sz ≤ addr ∨ c.sz < addr + 4 then return none
  else
    let i ← loadInt addr
    return some i

/-- `for(s = *pp; s < ep; s++)` in `fetchstr`. -/
def scan (pp ep s : Word) : M Int :=
  if _h : s < ep then do
    let b ← load s
    if b = 0 then return (s - pp).toInt else scan pp ep (s + 1)
  else return -1
termination_by ep.toNat - s.toNat
decreasing_by
  have h : s.toNat < ep.toNat := _h
  have := ep.isLt
  have hnext : (s + 1).toNat = s.toNat + 1 := by
    rw [BitVec.toNat_add]
    exact Nat.mod_eq_of_lt (show s.toNat + 1 < 2 ^ 32 by omega)
  omega

/-- What is returned, and `*pp` if it is set. -/
def fetchstr (c : Proc) (addr : Word) : M (Int × Option Word) := do
  if c.sz ≤ addr then return (-1, none)
  else
    let r ← scan addr c.sz addr
    return (r, some addr)

/-- The address of argument `n`. -/
def argAddr (c : Proc) (n : Word) : Word := c.esp + 4 + 4 * n

def argint (c : Proc) (n : Word) : M (Option Word) := fetchint c (argAddr c n)

/-- `*pp`; `none` is -1. -/
def argptr (c : Proc) (n size : Word) : M (Option Word) := do
  match ← argint c n with
  | none => return none
  | some i => if size.toInt < 0 ∨ c.sz ≤ i ∨ c.sz < i + size then return none else return some i

def argstr (c : Proc) (n : Word) : M (Int × Option Word) := do
  match ← argint c n with
  | none => return (-1, none)
  | some addr => fetchstr c addr

/-! ## What is read -/

/-- The program ends in `Q`, and loads only from below `sz`. -/
def Within (m : Mem) (sz : Word) (c : M α) (Q : α → Prop) : Prop :=
  ∃ x, run exec () c m = .ok (x, m) ∧ Upholds exec () (fun a _ => ∃ b, a = .load b ∧ b < sz) c m ∧ Q x

section Within

variable {m : Mem} {sz : Word} {Q : α → Prop}

theorem Within.ret {x : α} (h : Q x) : Within m sz (ret x) Q := ⟨x, rfl, trivial, h⟩

theorem Within.load {a : Word} {k : UInt8 → M α} (ha : a < sz) (h : Within m sz (k (m a)) Q) : Within m sz (load a >>= k) Q := by
  obtain ⟨x, hrun, hup, hx⟩ := h
  exact ⟨x, hrun, ⟨⟨a, rfl, ha⟩, hup⟩, hx⟩

theorem Within.bind {R : β → Prop} {c : M α} {f : α → M β} (h : Within m sz c fun x => Within m sz (f x) R) :
    Within m sz (c >>= f) R := by
  obtain ⟨x, hrun, hup, y, hrun', hup', hy⟩ := h
  refine ⟨y, (run_bind_ok _ hrun).trans hrun', hup.bind fun x' m' hx' => ?_, hy⟩
  rw [hrun] at hx'
  cases hx'
  exact hup'

theorem Within.mono {Q' : α → Prop} {c : M α} (h : Within m sz c Q) (hQ : ∀ x, Q x → Q' x) : Within m sz c Q' := by
  obtain ⟨x, hrun, hup, hx⟩ := h
  exact ⟨x, hrun, hup, hQ x hx⟩

end Within

/-! ## What the checks say -/

/-- The word at `a`. -/
def wordAt (m : Mem) (a : Word) : Word :=
  (m (a + 3)).toBitVec ++ (m (a + 2)).toBitVec ++ (m (a + 1)).toBitVec ++ (m a).toBitVec

section Specs

variable {m : Mem} {c : Proc} (hsz : c.sz.toNat < KERNBASE)

include hsz

theorem add_toNat {a b : Word} (ha : a < c.sz) (hb : b.toNat ≤ KERNBASE) : (a + b).toNat = a.toNat + b.toNat := by
  have ha' : a.toNat < c.sz.toNat := ha
  unfold KERNBASE at *
  rw [BitVec.toNat_add, Nat.mod_eq_of_lt (by omega)]

theorem word_inside {a : Word} : ¬ (c.sz ≤ a ∨ c.sz < a + 4) ↔ a.toNat + 4 ≤ c.sz.toNat := by
  have h4 : (4 : Word).toNat = 4 := rfl
  rw [not_or]
  constructor
  · intro ⟨h1, h2⟩
    have ha : a < c.sz := BitVec.not_le.mp h1
    have hsum := add_toNat hsz ha (b := 4) (by decide)
    have h2' : (a + 4).toNat ≤ c.sz.toNat := BitVec.not_lt.mp h2
    omega
  · intro h
    have ha : a < c.sz := show a.toNat < c.sz.toNat by omega
    have hsum := add_toNat hsz ha (b := 4) (by decide)
    exact ⟨BitVec.not_le.mpr ha, BitVec.not_lt.mpr (show (a + 4).toNat ≤ c.sz.toNat by omega)⟩

theorem within_fetchint (a : Word) :
    Within m c.sz (fetchint c a) (· = if a.toNat + 4 ≤ c.sz.toNat then some (wordAt m a) else none) := by
  unfold fetchint
  split
  · rename_i h
    exact .ret (if_neg fun e => (word_inside hsz).mpr e h).symm
  · rename_i h
    have hin := (word_inside hsz).mp h
    have ha : a < c.sz := show a.toNat < c.sz.toNat by omega
    have hb : ∀ b : Word, b.toNat < 4 → a + b < c.sz := fun b hb => by
      have hsum := add_toNat hsz ha (b := b) (by unfold KERNBASE; omega)
      exact show (a + b).toNat < c.sz.toNat by omega
    refine .bind ?_
    unfold loadInt
    exact .load ha (.load (hb 1 (by decide)) (.load (hb 2 (by decide)) (.load (hb 3 (by decide)) (.ret (.ret (if_pos hin).symm)))))

/-- No NUL from `s` up to `sz`. -/
def NoNul (m : Mem) (s ep : Word) : Prop := ∀ b, s ≤ b → b < ep → m b ≠ 0

/-- A string of length `l` at `p`, below `sz`. -/
def IsString (m : Mem) (sz p : Word) (l : Nat) : Prop :=
  p.toNat + l < sz.toNat ∧ m (p + BitVec.ofNat 32 l) = 0 ∧ ∀ j < l, m (p + BitVec.ofNat 32 j) ≠ 0

theorem off_toNat {p : Word} {j : Nat} (h : p.toNat + j ≤ c.sz.toNat) : (p + BitVec.ofNat 32 j).toNat = p.toNat + j := by
  unfold KERNBASE at hsz
  rw [BitVec.toNat_add, BitVec.toNat_ofNat, Nat.mod_eq_of_lt (show j < 2 ^ 32 by omega), Nat.mod_eq_of_lt (by omega)]

theorem eq_off {p b : Word} (hpb : p ≤ b) (hb : b < c.sz) : b = p + BitVec.ofNat 32 (b.toNat - p.toNat) := by
  have h1 : p.toNat ≤ b.toNat := hpb
  have h2 : b.toNat < c.sz.toNat := hb
  refine BitVec.eq_of_toNat_eq ?_
  rw [off_toNat hsz (by omega)]
  omega

/-- The loop at `p + k`, after `k` bytes that are not NUL. -/
theorem within_scan {p : Word} (hp : p < c.sz) (k : Nat) (hk : p.toNat + k ≤ c.sz.toNat) (hno : ∀ j < k, m (p + BitVec.ofNat 32 j) ≠ 0) :
    Within m c.sz (scan p c.sz (p + BitVec.ofNat 32 k)) fun r => (∃ l : Nat, r = l ∧ IsString m c.sz p l) ∨ r = -1 ∧ NoNul m p c.sz := by
  have hp' : p.toNat < c.sz.toNat := hp
  induction hn : c.sz.toNat - (p.toNat + k) generalizing k with
  | zero =>
    have hs := off_toNat hsz hk
    unfold scan
    rw [dif_neg (BitVec.not_lt.mpr (show c.sz.toNat ≤ _ by omega))]
    refine .ret (.inr ⟨rfl, fun b hpb hb => ?_⟩)
    have h2 : b.toNat < c.sz.toNat := hb
    rw [eq_off hsz hpb hb]
    exact hno _ (by omega)
  | succ n ih =>
    have hs := off_toNat hsz hk
    have hlt : p + BitVec.ofNat 32 k < c.sz := show _ < c.sz.toNat by omega
    unfold scan
    rw [dif_pos hlt]
    refine .load hlt ?_
    split
    · rename_i hz
      refine .ret (.inl ⟨k, ?_, by omega, hz, hno⟩)
      have hdiff : p + BitVec.ofNat 32 k - p = BitVec.ofNat 32 k := by rw [BitVec.add_comm, BitVec.add_sub_cancel]
      unfold KERNBASE at hsz
      rw [hdiff, BitVec.toInt_eq_toNat_of_lt] <;> rw [BitVec.toNat_ofNat, Nat.mod_eq_of_lt (show k < 2 ^ 32 by omega)]
      omega
    · rename_i hz
      rw [BitVec.add_assoc, show BitVec.ofNat 32 k + 1 = BitVec.ofNat 32 (k + 1) from (BitVec.ofNat_add k 1).symm]
      refine ih (k + 1) (by omega) (fun j hj => ?_) (by omega)
      rcases Nat.lt_succ_iff_lt_or_eq.mp hj with h | rfl
      · exact hno j h
      · exact hz

/-- `fetchstr` returns the length of the string, or -1 if there is none. -/
theorem within_fetchstr (a : Word) : Within m c.sz (fetchstr c a) fun r => (∀ p, r.2 = some p → p = a ∧ p < c.sz) ∧
    ((∃ l : Nat, r = ((l : Int), some a) ∧ IsString m c.sz a l) ∨ r.1 = -1 ∧ NoNul m a c.sz) := by
  unfold fetchstr
  split
  · rename_i h
    refine .ret ⟨nofun, .inr ⟨rfl, fun b hab hb => ?_⟩⟩
    have h1 : c.sz.toNat ≤ a.toNat := h
    have h2 : a.toNat ≤ b.toNat := hab
    have h3 : b.toNat < c.sz.toNat := hb
    omega
  · rename_i h
    have ha : a < c.sz := BitVec.not_le.mp h
    have ha' : a.toNat < c.sz.toNat := ha
    have hscan := within_scan (m := m) hsz ha 0 (by omega) nofun
    rw [show a + BitVec.ofNat 32 0 = a from BitVec.add_zero a] at hscan
    refine .bind (hscan.mono fun r hr => .ret ⟨fun p hp => ?_, ?_⟩)
    · cases hp
      exact ⟨rfl, ha⟩
    · rcases hr with ⟨l, rfl, hl⟩ | hr
      · exact .inl ⟨l, rfl, hl⟩
      · exact .inr hr

/-- The size of an argument is a nonnegative `int`, so the sum does not wrap. -/
theorem within_argptr (n size : Word) : Within m c.sz (argptr c n size) fun r => ∀ p, r = some p →
    p < c.sz ∧ 0 ≤ size.toInt ∧ (p.toNat : Int) + size.toInt ≤ c.sz.toNat := by
  refine .bind ((within_fetchint hsz (argAddr c n)).mono fun r _ => ?_)
  cases r with
  | none => exact .ret nofun
  | some i =>
    dsimp only
    split
    · exact .ret nofun
    · rename_i h
      refine .ret fun p hp => ?_
      cases hp
      rw [not_or, not_or] at h
      obtain ⟨h0, h1, h2⟩ := h
      have hi : i < c.sz := BitVec.not_le.mp h1
      have hpos : 0 ≤ size.toInt := by omega
      have hsmall : 2 * size.toNat < 2 ^ 32 := by
        by_contra hge
        rw [BitVec.toInt_eq_toNat_cond, if_neg hge] at hpos
        have := size.isLt
        omega
      have hint : size.toInt = size.toNat := BitVec.toInt_eq_toNat_of_lt hsmall
      have hsum := add_toNat hsz hi (b := size) (by unfold KERNBASE; omega)
      have h2' : (i + size).toNat ≤ c.sz.toNat := BitVec.not_lt.mp h2
      exact ⟨hi, hpos, by omega⟩

theorem within_argstr (n : Word) : Within m c.sz (argstr c n) fun r => (∀ p, r.2 = some p → p < c.sz) ∧
    ((∃ (p : Word) (l : Nat), r = ((l : Int), some p) ∧ IsString m c.sz p l) ∨ r.1 = -1) ∧
    (r.1 = -1 ↔ ¬ (argAddr c n).toNat + 4 ≤ c.sz.toNat ∨ NoNul m (wordAt m (argAddr c n)) c.sz) := by
  refine .bind ((within_fetchint hsz (argAddr c n)).mono fun r hr => ?_)
  subst hr
  split
  · rename_i h
    split at h
    · cases h
    · rename_i hout
      exact .ret ⟨nofun, .inr rfl, iff_of_true rfl (.inl hout)⟩
  · rename_i addr h
    split at h
    · rename_i hin
      cases h
      refine (within_fetchstr hsz _).mono fun r hr => ⟨fun p hp => (hr.1 p hp).2, ?_, ?_⟩
      · rcases hr.2 with ⟨l, hl, hs⟩ | ⟨h, _⟩
        · exact .inl ⟨_, l, hl, hs⟩
        · exact .inr h
      · rcases hr.2 with ⟨l, hl, hlt, hz, _⟩ | ⟨h, hno⟩
        · refine iff_of_false (by rw [hl]; dsimp only; omega) fun hbad => hbad.elim (fun e => e hin) fun hno => ?_
          have hend := off_toNat hsz (p := wordAt m (argAddr c n)) (j := l) (by omega)
          exact hno _ (show (wordAt m (argAddr c n)).toNat ≤ _ by omega) (show _ < c.sz.toNat by omega) hz
        · exact iff_of_true h (.inr hno)
    · cases h

end Specs

/-- The argument checks admit only the process's own memory: every word that is read and every
    pointer that is handed out lies below `sz`; a string ends at its first NUL, below `sz`, and
    there is none exactly if `argstr` fails after its argument could be read. -/
theorem arguments_in_memory (c : Proc) (m : Mem) (hsz : c.sz.toNat < KERNBASE) (n a size : Word) :
    Within m c.sz (fetchint c a) (fun r => ∀ i, r = some i → a.toNat + 4 ≤ c.sz.toNat ∧ i = wordAt m a) ∧
    Within m c.sz (argptr c n size) (fun r => ∀ p, r = some p →
      p < c.sz ∧ 0 ≤ size.toInt ∧ (p.toNat : Int) + size.toInt ≤ c.sz.toNat) ∧
    Within m c.sz (argstr c n) (fun r => (∀ p, r.2 = some p → p < c.sz) ∧
      ((∃ (p : Word) (l : Nat), r = ((l : Int), some p) ∧ IsString m c.sz p l) ∨ r.1 = -1) ∧
      (r.1 = -1 ↔ ¬ (argAddr c n).toNat + 4 ≤ c.sz.toNat ∨ NoNul m (wordAt m (argAddr c n)) c.sz)) := by
  refine ⟨(within_fetchint hsz a).mono fun r hr i hi => ?_, within_argptr hsz n size, within_argstr hsz n⟩
  rw [hr] at hi
  split at hi
  · rename_i hin
    exact ⟨hin, (Option.some.inj hi).symm⟩
  · cases hi

/-- A process of a page full of zeros reads its argument 0 as an empty string at 0. -/
theorem arguments_in_memory_zeros : ∃ r, run exec () (argstr ⟨4096, 100⟩ 0) (fun _ => 0) = .ok (r, fun _ => 0) ∧ r.1 ≠ -1 := by
  obtain ⟨_, _, r, hrun, _, _, _, hfail⟩ := arguments_in_memory ⟨4096, 100⟩ (fun _ => 0) (by decide) 0 0 0
  refine ⟨r, hrun, fun h => (hfail.mp h).elim (fun e => e (by decide)) fun hno => ?_⟩
  exact hno 0 (by decide) (by decide) rfl

end Xv6.Syscall
