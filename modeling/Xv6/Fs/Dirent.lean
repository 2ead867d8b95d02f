/-
  Xv6.Fs.Dirent — the names in directory entries (`string.c`: `strncmp`, `strncpy`;
  `fs.c`: `namecmp`).

  What counts of a name are its first `DIRSIZ` bytes, up to a NUL (`key`): `namecmp` says
  that two names are the same exactly if their keys are (`namecmp_eq_zero`), and the name
  `strncpy` stores has the key of the name it was given (`key_strncpy`).
-/

import Xv6.Fs.Store

namespace Xv6.Fs

open List

/-- The first `n` bytes, up to a NUL. -/
def keyUpTo (n : Nat) (s : List UInt8) : List UInt8 := (s.take n).takeWhile (· ≠ 0)

def key (s : List UInt8) : List UInt8 := keyUpTo dirSiz s

theorem keyUpTo_cons {n : Nat} {a : UInt8} {s : List UInt8} (h : (a :: s).headD 0 ≠ 0) :
    keyUpTo (n + 1) (a :: s) = a :: keyUpTo n s := by
  have : a ≠ 0 := h
  simp [keyUpTo, this]

theorem keyUpTo_nil {n : Nat} {s : List UInt8} (h : s.headD 0 = 0) : keyUpTo n s = [] := by
  cases s with
  | nil => simp [keyUpTo]
  | cons a s =>
    have : a = 0 := h
    subst this
    cases n <;> simp [keyUpTo]

theorem strncmp_eq_zero {n : Nat} {p q : List UInt8} : strncmp n p q = 0 ↔ keyUpTo n p = keyUpTo n q := by
  induction n generalizing p q with
  | zero => simp [strncmp, keyUpTo]
  | succ n ih =>
    unfold strncmp
    split
    · rename_i h
      obtain ⟨h0, he⟩ := h
      cases p with
      | nil => exact absurd rfl h0
      | cons a p =>
        cases q with
        | nil => exact absurd he h0
        | cons b q =>
          have hab : a = b := he
          subst hab
          rw [keyUpTo_cons h0, keyUpTo_cons (show (a :: q).headD 0 ≠ 0 from h0), cons.injEq]
          simp only [tail_cons, true_and]
          exact ih
    · rename_i h
      -- the first bytes differ, or both names end here
      have hnat : ((p.headD 0).toNat : Int) - (q.headD 0).toNat = 0 ↔ p.headD 0 = q.headD 0 := by
        rw [sub_eq_zero, Nat.cast_inj, UInt8.toNat_inj]
      rw [hnat]
      by_cases hp : p.headD 0 = 0
      · rw [keyUpTo_nil hp, hp]
        by_cases hq : q.headD 0 = 0
        · rw [keyUpTo_nil hq, hq]; simp
        · cases q with
          | nil => exact absurd rfl hq
          | cons b q =>
            rw [keyUpTo_cons hq]
            exact iff_of_false (fun e => hq e.symm) (fun e => by cases e)
      · have hne : p.headD 0 ≠ q.headD 0 := fun e => h ⟨hp, e⟩
        refine iff_of_false hne fun e => hne ?_
        cases p with
        | nil => exact absurd rfl hp
        | cons a p =>
          rw [keyUpTo_cons hp] at e
          by_cases hq : q.headD 0 = 0
          · rw [keyUpTo_nil hq] at e; cases e
          · cases q with
            | nil => exact absurd rfl hq
            | cons b q =>
              rw [keyUpTo_cons hq] at e
              exact (cons.inj e).1

theorem namecmp_eq_zero {s t : List UInt8} : namecmp s t = 0 ↔ key s = key t := strncmp_eq_zero

theorem keyUpTo_length (n : Nat) (s : List UInt8) : (keyUpTo n s).length ≤ n :=
  (( takeWhile_prefix _).length_le).trans (by rw [length_take]; omega)

theorem keyUpTo_pad {n j : Nat} {u : List UInt8} (h0 : ∀ a ∈ u, a ≠ 0) (hn : u.length ≤ n) :
    keyUpTo n (u ++ replicate j 0) = u := by
  induction u generalizing n with
  | nil => exact keyUpTo_nil (by cases j <;> rfl)
  | cons a u ih =>
    obtain ⟨ha, hu⟩ := forall_mem_cons.mp h0
    cases n with
    | zero => exact absurd hn (by simp)
    | succ n => rw [cons_append, keyUpTo_cons (show (a :: _).headD 0 ≠ 0 from ha), ih hu (by simpa using hn)]

theorem keyUpTo_ne_zero {n : Nat} {s : List UInt8} : ∀ a ∈ keyUpTo n s, a ≠ 0 := fun a ha => by
  simpa using mem_takeWhile_imp ha

theorem key_strncpy (s : List UInt8) : key (strncpy s dirSiz) = key s := keyUpTo_pad keyUpTo_ne_zero (keyUpTo_length _ _)

theorem key_key (s : List UInt8) : key (key s) = key s := by
  have h := keyUpTo_pad (j := 0) (keyUpTo_ne_zero (n := dirSiz) (s := s)) (keyUpTo_length _ _)
  rwa [replicate_zero, append_nil] at h

theorem strncpy_length (s : List UInt8) (n : Nat) : (strncpy s n).length = n := by
  have := keyUpTo_length n s
  unfold keyUpTo at this
  simp only [strncpy, length_append, length_replicate]
  omega

/-- The inode number of a `struct dirent` is a `ushort`. -/
theorem deInum_bytes (inum : Nat) (rest : List UInt8) :
    deInum (UInt8.ofNat inum :: UInt8.ofNat (inum / 256) :: rest) = inum % 65536 := by
  simp only [deInum, getD_cons_zero, getD_cons_succ, UInt8.toNat_ofNat']
  omega

end Xv6.Fs
