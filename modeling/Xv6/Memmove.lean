/-
  Xv6.Memmove — the two functions called `memmove` (`string.c` in the kernel, `ulib.c` in
  the user library).

  Memory is a function of 32-bit addresses and pointers wrap around. The kernel's version
  copies from the end when the destination begins inside the source; the library's always
  copies from the beginning.

  - `copyUp_above`, `copyUp_below`, `copyDown_above`: what the two loops leave, at every address.
  - The kernel's version moves the bytes; the library's does, and so agrees with it, exactly
    when the destination is not above the source, or the source repeats itself with the
    distance as its period as far as it is copied (`memmoves_agree_iff`).
-/

import Mathlib

namespace Xv6.Memmove

open Function

abbrev Mem := BitVec 32 → UInt8

/-- `while(n-- > 0) *d++ = *s++;` -/
def copyUp (m : Mem) (d s : BitVec 32) : Nat → Mem
  | 0 => m
  | n + 1 => copyUp (Function.update m d (m s)) (d + 1) (s + 1) n

/-- `while(n-- > 0) *--d = *--s;` -/
def copyDown (m : Mem) (d s : BitVec 32) : Nat → Mem
  | 0 => m
  | n + 1 => copyDown (Function.update m (d - 1) (m (s - 1))) (d - 1) (s - 1) n

/-- The kernel's: what it returns, and the memory. -/
def memmove (dst src n : BitVec 32) (m : Mem) : BitVec 32 × Mem :=
  if src < dst ∧ dst < src + n then (dst, copyDown m (dst + n) (src + n) n.toNat)
  else (dst, copyUp m dst src n.toNat)

/-- The user library's; `n` is an `int`. -/
def umemmove (dst src n : BitVec 32) (m : Mem) : BitVec 32 × Mem := (dst, copyUp m dst src n.toInt.toNat)

/-- The `n` bytes at `dst` are those that were at `src`, and the others are as they were. -/
def Moved (dst src : BitVec 32) (n : Nat) (m m' : Mem) : Prop :=
  ∀ a, m' a = if (a - dst).toNat < n then m (src + (a - dst)) else m a

/-! ## The loops -/

/-- The loop's last round. -/
theorem copyUp_succ (m : Mem) (d s : BitVec 32) (n : Nat) :
    copyUp m d s (n + 1) = update (copyUp m d s n) (d + BitVec.ofNat 32 n) (copyUp m d s n (s + BitVec.ofNat 32 n)) := by
  induction n generalizing m d s with
  | zero => simp [copyUp]
  | succ n ih =>
    have hshift : ∀ x : BitVec 32, x + 1 + BitVec.ofNat 32 n = x + BitVec.ofNat 32 (n + 1) := by
      intro x
      rw [BitVec.add_assoc, BitVec.add_comm 1, BitVec.ofNat_add]
      rfl
    rw [copyUp, ih, hshift, hshift]
    rfl

variable {d s dst src : BitVec 32} {n : Nat}

theorem sub_toNat_eq {a : BitVec 32} (hn : n < 2 ^ 32) : (a - d).toNat = n ↔ a = d + BitVec.ofNat 32 n := by
  constructor
  · intro h
    have : a - d = BitVec.ofNat 32 n := by rw [← h, BitVec.ofNat_toNat, BitVec.setWidth_eq]
    rw [← this]
    bv_omega
  · intro h
    subst h
    bv_omega

/-- Copied upwards to above the source, its first bytes repeat. -/
theorem copyUp_above (m : Mem) (h : s < d) (hn : n ≤ 2 ^ 32) (a : BitVec 32) :
    copyUp m d s n a = if (a - d).toNat < n then m (s + BitVec.ofNat 32 ((a - d).toNat % (d.toNat - s.toNat))) else m a := by
  have hlt : s.toNat < d.toNat := h
  induction n generalizing a with
  | zero => simp [copyUp]
  | succ n ih =>
    have hn' : n < 2 ^ 32 := by omega
    rw [copyUp_succ]
    by_cases e : a = d + BitVec.ofNat 32 n
    · have hi : (a - d).toNat = n := (sub_toNat_eq hn').mpr e
      subst e
      rw [update_self, ih (by omega), hi, if_pos (Nat.lt_succ_self n)]
      -- the byte just read: copied already, or still the source's
      by_cases hk : n < d.toNat - s.toNat
      · have hfar : (s + BitVec.ofNat 32 n - d).toNat = 2 ^ 32 - (d.toNat - s.toNat - n) := by
          bv_omega
        rw [hfar, if_neg (by omega), Nat.mod_eq_of_lt hk]
      · have hnear : (s + BitVec.ofNat 32 n - d).toNat = n - (d.toNat - s.toNat) := by
          bv_omega
        rw [hnear, if_pos (by omega), ← Nat.mod_eq_sub_mod (by omega)]
    · have hi : (a - d).toNat ≠ n := fun hi => e ((sub_toNat_eq hn').mp hi)
      rw [update_of_ne e, ih (by omega)]
      by_cases hlt' : (a - d).toNat < n
      · rw [if_pos hlt', if_pos (by omega)]
      · rw [if_neg hlt', if_neg (by omega)]

/-- Copied upwards to below the source, a byte is read before it is written. -/
theorem copyUp_below (m : Mem) (h : ¬ s < d) (hs : s.toNat + n ≤ 2 ^ 32) : Moved d s n m (copyUp m d s n) := by
  have hle : d.toNat ≤ s.toNat := Nat.le_of_not_lt h
  induction n with
  | zero => intro a; simp [copyUp]
  | succ n ih =>
    intro a
    have hn' : n < 2 ^ 32 := by omega
    rw [copyUp_succ]
    by_cases e : a = d + BitVec.ofNat 32 n
    · have hi : (a - d).toNat = n := (sub_toNat_eq hn').mpr e
      have hsub : a - d = BitVec.ofNat 32 n := by rw [← hi, BitVec.ofNat_toNat, BitVec.setWidth_eq]
      have hfar : (s + BitVec.ofNat 32 n - d).toNat = n + (s.toNat - d.toNat) := by bv_omega
      rw [hi, if_pos (Nat.lt_succ_self n), hsub]
      subst e
      rw [update_self, ih (by omega), hfar, if_neg (by omega)]
    · have hi : (a - d).toNat ≠ n := fun hi => e ((sub_toNat_eq hn').mp hi)
      rw [update_of_ne e, ih (by omega)]
      by_cases hlt' : (a - d).toNat < n
      · rw [if_pos hlt', if_pos (by omega)]
      · rw [if_neg hlt', if_neg (by omega)]

theorem copyDown_above (m : Mem) (h : s < d) (hd : d.toNat + n ≤ 2 ^ 32) :
    Moved d s n m (copyDown m (d + BitVec.ofNat 32 n) (s + BitVec.ofNat 32 n) n) := by
  have hlt : s.toNat < d.toNat := h
  induction n generalizing m with
  | zero => intro a; simp [copyDown]
  | succ n ih =>
    intro a
    have hn' : n < 2 ^ 32 := by omega
    have hshift : ∀ x : BitVec 32, x + BitVec.ofNat 32 (n + 1) - 1 = x + BitVec.ofNat 32 n := by
      intro x
      rw [BitVec.ofNat_add, ← BitVec.add_assoc]
      bv_omega
    rw [copyDown, hshift, hshift, ih _ (by omega)]
    by_cases hi : (a - d).toNat = n
    · have hsub : a - d = BitVec.ofNat 32 n := by rw [← hi, BitVec.ofNat_toNat, BitVec.setWidth_eq]
      rw [if_neg (by omega), if_pos (by omega), hsub, (sub_toNat_eq hn').mp hi, update_self]
    · by_cases hlt' : (a - d).toNat < n
      · rw [if_pos hlt', if_pos (by omega), update_of_ne]
        intro e
        bv_omega
      · rw [if_neg hlt', if_neg (by omega), update_of_ne fun e => hi ((sub_toNat_eq hn').mpr e)]

/-! ## The functions -/

theorem Moved.unique {m m₁ m₂ : Mem} (h₁ : Moved dst src n m m₁) (h₂ : Moved dst src n m m₂) : m₁ = m₂ := by
  funext a
  rw [h₁ a, h₂ a]

theorem copyUp_moved_iff (m : Mem) (h : src < dst) (hn : n ≤ 2 ^ 32) : Moved dst src n m (copyUp m dst src n) ↔
      ∀ i < n, m (src + BitVec.ofNat 32 i) = m (src + BitVec.ofNat 32 (i % (dst.toNat - src.toNat))) := by
  constructor
  · intro hm i hi
    have hsub : dst + BitVec.ofNat 32 i - dst = BitVec.ofNat 32 i := by bv_omega
    have hto : (BitVec.ofNat 32 i).toNat = i := by
      rw [BitVec.toNat_ofNat, Nat.mod_eq_of_lt (by omega)]
    have hat := hm (dst + BitVec.ofNat 32 i)
    rw [copyUp_above m h hn, hsub, hto, if_pos hi, if_pos hi] at hat
    exact hat.symm
  · intro hp a
    rw [copyUp_above m h hn]
    split
    · rename_i hi
      rw [← hp _ hi, BitVec.ofNat_toNat, BitVec.setWidth_eq]
    · rfl

theorem memmove_moved (m : Mem) {n : BitVec 32} (hs : src.toNat + n.toNat ≤ 2 ^ 32) (hd : dst.toNat + n.toNat ≤ 2 ^ 32) :
    Moved dst src n.toNat m (memmove dst src n m).2 := by
  have hn : BitVec.ofNat 32 n.toNat = n := by rw [BitVec.ofNat_toNat, BitVec.setWidth_eq]
  unfold memmove
  by_cases hlt : src < dst
  · by_cases hin : dst < src + n
    · rw [if_pos ⟨hlt, hin⟩]
      have h := copyDown_above m hlt hd
      rwa [hn] at h
    · -- the source ends before the destination begins
      rw [if_neg fun h => hin h.2]
      have hlt' : src.toNat < dst.toNat := hlt
      have hend : src.toNat + n.toNat ≤ dst.toNat := by
        have hle : (src + n).toNat ≤ dst.toNat := Nat.le_of_not_lt hin
        rwa [BitVec.toNat_add, Nat.mod_eq_of_lt (by omega)] at hle
      refine (copyUp_moved_iff m hlt (by omega)).mpr fun i hi => ?_
      rw [Nat.mod_eq_of_lt (by omega)]
  · rw [if_neg fun h => hlt h.1]
    exact copyUp_below m hlt hs

/-- For `n ≥ 0` and ranges that do not wrap around: the kernel's function moves the bytes, and the
    library's leaves the same memory exactly when the source is not below the destination, or the
    bytes copied repeat with the distance between the two. -/
theorem memmoves_agree_iff (m : Mem) (dst src n : BitVec 32) (hn : 0 ≤ n.toInt) (hs : src.toNat + n.toNat ≤ 2 ^ 32)
    (hd : dst.toNat + n.toNat ≤ 2 ^ 32) :
    Moved dst src n.toNat m (memmove dst src n m).2 ∧
    (umemmove dst src n m = memmove dst src n m ↔
      (src < dst → ∀ i < n.toNat, m (src + BitVec.ofNat 32 i) = m (src + BitVec.ofNat 32 (i % (dst.toNat - src.toNat))))) := by
  have hcount : n.toInt.toNat = n.toNat := by
    rw [BitVec.toInt_eq_toNat_cond] at hn ⊢
    split at hn <;> omega
  have hk := memmove_moved m hs hd
  have hret : (memmove dst src n m).1 = dst := by
    unfold memmove
    split <;> rfl
  have hsame : umemmove dst src n m = memmove dst src n m ↔ Moved dst src n.toNat m (copyUp m dst src n.toNat) := by
    rw [umemmove, hcount]
    constructor
    · intro h
      rwa [← h] at hk
    · intro h
      exact Prod.ext hret.symm (h.unique hk)
  refine ⟨hk, hsame.trans ?_⟩
  by_cases hlt : src < dst
  · rw [copyUp_moved_iff m hlt (by omega)]
    exact ⟨fun h _ => h, fun h => h hlt⟩
  · exact iff_of_true (copyUp_below m hlt hs) fun h => absurd h hlt

/-- The bytes `1 2` moved two up, next to each other. -/
theorem memmoves_agree_iff_apart : umemmove 102 100 2 (fun a => if a = 100 then 1 else if a = 101 then 2 else 0) =
    memmove 102 100 2 (fun a => if a = 100 then 1 else if a = 101 then 2 else 0) := by
  refine ((memmoves_agree_iff _ 102 100 2 (by decide) (by decide) (by decide)).2).mpr fun _ i hi => ?_
  have h2 : i = 0 ∨ i = 1 := by
    change i < 2 at hi
    omega
  rcases h2 with rfl | rfl <;> rfl

/-- The bytes `1 2` moved one up: the library's function writes `1 1`. -/
theorem overlap_upwards_differs : ∃ m : Mem, (0 : Int) ≤ (2 : BitVec 32).toInt ∧ (100 : BitVec 32).toNat + (2 : BitVec 32).toNat ≤ 2 ^ 32 ∧
    (101 : BitVec 32).toNat + (2 : BitVec 32).toNat ≤ 2 ^ 32 ∧
    (memmove 101 100 2 m).2 102 = m 101 ∧ (umemmove 101 100 2 m).2 102 ≠ m 101 := by
  refine ⟨fun a => if a = 100 then 1 else if a = 101 then 2 else 0, ?_⟩
  decide

end Xv6.Memmove
