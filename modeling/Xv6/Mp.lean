/-
  Xv6.Mp — the search for processors at boot (`mp.c`: `mpsearch`, `mpconfig`, `mpinit`).

  Memory is a function of physical addresses. The loop of `mpinit` over the table's entries is
  run for a number of rounds; it may still be running after them (`none`).

  The `break` for an unknown entry leaves the `switch` and not the loop, and the entry is looked
  at again for ever. So the loop ends exactly on the tables that divide into entries of the five
  known types (`mpinit_ends_iff`), and then it has taken at most `NCPU` processors; on a table
  with another entry it does not end, and the panic after it is never reached
  (`unknown_entry_loops`).
-/

import Mathlib

namespace Xv6.Mp

def ncpuMax : Nat := 8

abbrev Mem := Nat → UInt8

def short (mem : Mem) (a : Nat) : Nat := (mem a).toNat + 256 * (mem (a + 1)).toNat

def long (mem : Mem) (a : Nat) : Nat := short mem a + 65536 * short mem (a + 2)

/-- `memcmp(p, s, n) == 0`. -/
def isAt (mem : Mem) (s : List UInt8) (p : Nat) : Bool := (List.range s.length).map (fun i => mem (p + i)) == s

/-! ## The tables -/

def sum (mem : Mem) (addr len : Nat) : UInt8 := UInt8.ofNat ((List.range len).map fun i => (mem (addr + i)).toNat).sum

/-- `sizeof(struct mp)`. -/
def mpSize : Nat := 16

/-- `sizeof(struct mpconf)`. -/
def confSize : Nat := 44

/-- "_MP_" -/
def mpSignature : List UInt8 := [95, 77, 80, 95]

/-- "PCMP" -/
def confSignature : List UInt8 := [80, 67, 77, 80]

def mpsearch1 (mem : Mem) (a len : Nat) : Option Nat :=
  ((List.range ((len + mpSize - 1) / mpSize)).map (a + mpSize * ·)).find? fun p => isAt mem mpSignature p && sum mem p mpSize == 0

def mpsearch (mem : Mem) : Option Nat :=
  let ebda := short mem 0x40E * 16
  -- `p - 1024` is a `uint`
  let first := if ebda ≠ 0 then mpsearch1 mem ebda 1024 else mpsearch1 mem ((short mem 0x413 * 1024 + 2 ^ 32 - 1024) % 2 ^ 32) 1024
  match first with
  | some mp => some mp
  | none => mpsearch1 mem 0xF0000 0x10000

/-- `mp->physaddr`. -/
def physaddr (mem : Mem) (mp : Nat) : Nat := long mem (mp + 4)

/-- `conf->length`. -/
def length (mem : Mem) (conf : Nat) : Nat := short mem (conf + 4)

/-- `conf->version`. -/
def version (mem : Mem) (conf : Nat) : UInt8 := mem (conf + 6)

/-- The two structures. -/
def mpconfig (mem : Mem) : Option (Nat × Nat) :=
  match mpsearch mem with
  | none => none
  | some mp =>
    let conf := physaddr mem mp
    if conf = 0 then none
    else if !isAt mem confSignature conf then none
    else if version mem conf ≠ 1 ∧ version mem conf ≠ 4 then none
    else if sum mem conf (length mem conf) ≠ 0 then none
    else some (mp, conf)

/-! ## The scan -/

/-- The entry types of `mp.h`. -/
inductive Kind where
  | proc
  | bus
  | ioapic
  | iointr
  | lintr
  deriving DecidableEq

def kind (t : UInt8) : Option Kind :=
  match t.toNat with
  | 0 => some .proc
  | 1 => some .bus
  | 2 => some .ioapic
  | 3 => some .iointr
  | 4 => some .lintr
  | _ => none

structure Scan where
  p : Nat
  ismp : Bool
  ncpu : Nat
  apicid : Fin ncpuMax → UInt8
  ioapicid : UInt8

/-- `case MPPROC`. -/
def Scan.proc (mem : Mem) (s : Scan) : Scan :=
  if h : s.ncpu < ncpuMax then
    { s with apicid := Function.update s.apicid ⟨s.ncpu, h⟩ (mem (s.p + 1)), ncpu := s.ncpu + 1, p := s.p + 20 }
  else { s with p := s.p + 20 }

/-- One round of the loop. -/
def Scan.entry (mem : Mem) (s : Scan) : Scan :=
  match kind (mem s.p) with
  | some .proc => s.proc mem
  | some .ioapic => { s with ioapicid := mem (s.p + 1), p := s.p + 8 }
  | some .bus | some .iointr | some .lintr => { s with p := s.p + 8 }
  -- `break` is the switch's
  | none => { s with ismp := false }

/-- The loop, for so many rounds. -/
def scan (mem : Mem) (e : Nat) : Nat → Scan → Option Scan
  | 0, s => if s.p < e then none else some s
  | n + 1, s => if s.p < e then scan mem e n (s.entry mem) else some s

inductive Panic where
  /-- "Expect to run on an SMP" -/
  | notSmp
  /-- "Didn't find a suitable machine" -/
  | unsuitable
  deriving DecidableEq

inductive Outcome where
  | panic (m : Panic)
  /-- `imcr`: the IMCR is set to mask external interrupts; `lapic` is `conf->lapicaddr`. -/
  | done (s : Scan) (lapic : Nat) (imcr : Bool)

/-- `mpinit` with so many rounds of its loop. -/
def mpinit (mem : Mem) (rounds : Nat) : Option Outcome :=
  match mpconfig mem with
  | none => some (.panic .notSmp)
  | some (mp, conf) =>
    (scan mem (conf + length mem conf) rounds ⟨conf + confSize, true, 0, fun _ => 0, 0⟩).map fun s =>
      if s.ismp then .done s (long mem (conf + 36)) (mem (mp + 12) ≠ 0) else .panic .unsuitable

/-! ## Tables of known entries -/

def Kind.size : Kind → Nat
  | .proc => 20
  | _ => 8

/-- What is between `p` and `e` divides into entries of known types; the last may go beyond `e`. -/
inductive Entries (mem : Mem) (e : Nat) : Nat → Prop
  | done {p : Nat} : e ≤ p → Entries mem e p
  | next {p : Nat} {t : Kind} : p < e → kind (mem p) = some t → Entries mem e (p + t.size) → Entries mem e p

variable {mem : Mem} {s : Scan}

/-- A known entry is passed, and a processor is taken only if there is room. -/
theorem entry_known {t : Kind} (h : kind (mem s.p) = some t) :
    (s.entry mem).p = s.p + t.size ∧ (s.entry mem).ismp = s.ismp ∧ (s.ncpu ≤ ncpuMax → (s.entry mem).ncpu ≤ ncpuMax) := by
  unfold Scan.entry
  rw [h]
  cases t with
  | proc =>
    show (s.proc mem).p = _ ∧ (s.proc mem).ismp = _ ∧ (_ → (s.proc mem).ncpu ≤ ncpuMax)
    unfold Scan.proc
    split
    · rename_i hlt
      exact ⟨rfl, rfl, fun _ => hlt⟩
    · exact ⟨rfl, rfl, id⟩
  | bus => exact ⟨rfl, rfl, id⟩
  | ioapic => exact ⟨rfl, rfl, id⟩
  | iointr => exact ⟨rfl, rfl, id⟩
  | lintr => exact ⟨rfl, rfl, id⟩

/-- An unknown entry is not passed. -/
theorem entry_unknown (h : kind (mem s.p) = none) : (s.entry mem).p = s.p := by
  unfold Scan.entry
  rw [h]

/-- At an unknown entry the loop stays for ever. -/
theorem scan_unknown {e : Nat} (n : Nat) (hlt : s.p < e) (h : kind (mem s.p) = none) : scan mem e n s = none := by
  induction n generalizing s with
  | zero => exact if_pos hlt
  | succ n ih =>
    have hp := entry_unknown h
    rw [scan, if_pos hlt]
    exact ih (hp.symm ▸ hlt) (hp.symm ▸ h)

/-- The loop passes known entries one by one. -/
theorem scan_entries {e : Nat} {p : Nat} (h : Entries mem e p) (hp : s.p = p) (hn : s.ncpu ≤ ncpuMax) :
    ∃ n s', scan mem e n s = some s' ∧ e ≤ s'.p ∧ s'.ismp = s.ismp ∧ s'.ncpu ≤ ncpuMax := by
  induction h generalizing s with
  | done hle =>
    subst hp
    exact ⟨0, s, if_neg (by omega), hle, rfl, hn⟩
  | next hlt hk _ ih =>
    subst hp
    obtain ⟨hp', hismp, hncpu⟩ := entry_known hk
    obtain ⟨n, s', hs, hle, hi, hc⟩ := ih hp' (hncpu hn)
    refine ⟨n + 1, s', ?_, hle, hi.trans hismp, hc⟩
    rw [scan, if_pos hlt, hs]

/-- If the loop ends, it has passed known entries. -/
theorem entries_of_scan {e n : Nat} {s' : Scan} (h : scan mem e n s = some s') : Entries mem e s.p := by
  induction n generalizing s with
  | zero =>
    unfold scan at h
    split at h
    · cases h
    · exact .done (by omega)
  | succ n ih =>
    by_cases hlt : s.p < e
    · cases hk : kind (mem s.p) with
      | none =>
        rw [scan_unknown _ hlt hk] at h
        cases h
      | some t =>
        rw [scan, if_pos hlt] at h
        have hrest := ih h
        rw [(entry_known hk).1] at hrest
        exact .next hlt hk hrest
    · exact .done (by omega)

/-- Whatever the table, `mpinit` comes to its end, with the table consumed and at most `NCPU`
    processors recorded or in a panic, exactly if the table has no entry of an unknown type. -/
theorem mpinit_ends_iff (mem : Mem) (mp conf : Nat) (h : mpconfig mem = some (mp, conf)) :
    (∃ rounds o, mpinit mem rounds = some o ∧
      ((∃ m, o = .panic m) ∨ ∃ s lapic imcr, o = .done s lapic imcr ∧ conf + length mem conf ≤ s.p ∧ s.ncpu ≤ ncpuMax)) ↔
    Entries mem (conf + length mem conf) (conf + confSize) := by
  unfold mpinit
  rw [h]
  constructor
  · intro ⟨rounds, o, ho, _⟩
    obtain ⟨s, hs, _⟩ := Option.map_eq_some_iff.mp ho
    exact entries_of_scan hs
  · intro he
    obtain ⟨n, s, hs, hle, hi, hc⟩ :=
      scan_entries he (s := ⟨conf + confSize, true, 0, fun _ => 0, 0⟩) rfl (Nat.zero_le _)
    refine ⟨n, .done s (long mem (conf + 36)) (mem (mp + 12) ≠ 0), ?_, Or.inr ⟨s, _, _, rfl, hle, hc⟩⟩
    simp only [hs, Option.map_some, hi, if_true]

/-! ## Two tables -/

/-- A floating pointer structure at 0xF0000 and a table of one entry of type `t` at 0x1000; the
    checksum bytes are such that the sums are 0. -/
def oneEntry (t : UInt8) : Mem := fun a =>
  if a < 0x1000 then 0
  else if a < 0x1040 then ([80, 67, 77, 80, 64, 0, 4, 140 - t] ++ List.replicate 36 0 ++ [t]).getD (a - 0x1000) 0
  else if a < 0xF0000 then 0
  else ([95, 77, 80, 95, 0, 16, 0, 0, 1, 4, 144, 0, 0, 0, 0, 0] : List UInt8).getD (a - 0xF0000) 0

/-- A table of one processor. -/
theorem mpinit_ends_iff_oneProc : ∃ rounds o, mpinit (oneEntry 0) rounds = some o := by
  have hc : mpconfig (oneEntry 0) = some (0xF0000, 0x1000) := by decide +kernel
  have hentry : Entries (oneEntry 0) (0x1000 + length (oneEntry 0) 0x1000) (0x1000 + confSize) :=
    .next (t := .proc) (by decide) (by decide) (.done (by decide))
  obtain ⟨rounds, o, h, _⟩ := (mpinit_ends_iff (oneEntry 0) 0xF0000 0x1000 hc).mpr hentry
  exact ⟨rounds, o, h⟩

/-- A table of one entry of type 9: it passes the tests, and `mpinit` is never done with it. -/
theorem unknown_entry_loops : mpconfig (oneEntry 9) = some (0xF0000, 0x1000) ∧ ∀ rounds, mpinit (oneEntry 9) rounds = none := by
  have hc : mpconfig (oneEntry 9) = some (0xF0000, 0x1000) := by decide +kernel
  refine ⟨hc, fun rounds => ?_⟩
  unfold mpinit
  rw [hc]
  exact Option.map_eq_none_iff.mpr (scan_unknown rounds (by decide) (by decide))

end Xv6.Mp
