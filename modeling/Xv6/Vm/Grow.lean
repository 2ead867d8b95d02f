/-
  Xv6.Vm.Grow — `growproc` of `proc.c`.

  `allocuvm` and `deallocuvm` return 0 when they fail, and `growproc` takes a 0 for a
  failure. But `deallocuvm` never fails, and 0 is the size of a process without pages; and
  shrinking by more than the size wraps around to a new size above the old one, for which
  `deallocuvm` returns the old size.

    • `growproc_exact_iff`: `growproc(n)` changes everything as it should or nothing at all
      if and only if it does not take from a process all it has, or more.
-/

import Xv6.Vm.Uvm

namespace Xv6.Vm

open Lib Prog Function

variable {P : Type}

def myproc (p : P) : M P Proc := perform (Act.proc p)
def setproc (p : P) (x : Proc) : M P Unit := perform (Act.setproc p x)

def switchuvm (x : Proc) : M P Unit :=
  if x.kstack = 0 then panic .noKstack
  else if x.pgdir = 0 then panic .noPgdir
  else pure ()

/-- `sz + n`, a `uint` and an `int`. -/
def plus (sz : Nat) (n : Int) : Nat := ((sz + n) % 2 ^ 32).toNat

/-- The end of `growproc`. -/
def setSize (p : P) (x : Proc) (sz : Nat) : M P Int := do
  setproc p { x with sz }
  switchuvm { x with sz }
  return 0

def growproc (p : P) (n : Int) : M P Int := do
  let x ← myproc p
  if 0 < n then
    let sz ← allocuvm x.pgdir x.sz (plus x.sz n)
    if sz = 0 then return -1 else setSize p x sz
  else if n < 0 then
    let sz ← deallocuvm x.pgdir x.sz (plus x.sz n)
    if sz = 0 then return -1 else setSize p x sz
  else setSize p x x.sz

/-! ## What it does -/

variable [DecidableEq P] {k : Image} {B : Err → Prop} {p : P} {r : Res P} {R : Set Nat} {x : Proc}

def Res.setproc (r : Res P) (p : P) (x : Proc) : Res P := { r with proc := Function.update r.proc p (some x) }

theorem w_setSize {sz : Nat} {Q : Int → Res P → Prop} (hx : r.proc p ≠ none) (hk : x.kstack ≠ 0) (hd : x.pgdir ≠ 0)
    (h : Q 0 (r.setproc p { x with sz })) : W k B p (setSize p x sz) Q r := by
  refine ⟨hx, w_bind (c := switchuvm _) ?_⟩
  exact w_if (fun e => absurd e hk) fun _ => w_if (fun e => absurd e hd) fun _ => h

theorem plus_eq {sz : Nat} {n : Int} (hsz : sz ≤ 2 ^ 31) (h1 : -2 ^ 31 ≤ n) (h2 : n < 2 ^ 31) :
    (0 ≤ sz + n → (plus sz n : Int) = sz + n) ∧ (sz + n < 0 → 2 ^ 31 ≤ plus sz n) := by
  unfold plus
  omega

theorem w_growproc {n : Int} (hn : -2 ^ 31 ≤ n) (hn' : n < 2 ^ 31) (hx : r.proc p = some x) (hk : x.kstack ≠ 0) (h : Space k r x.pgdir R)
    (hsz : x.sz ≤ KERNBASE) (hfree : ∀ w, w < 2 ^ 19 → x.sz ≤ 4096 * w → pres r.mem x.pgdir w = none) {Q : Int → Res P → Prop}
    (hbig : 0 < n → Q (-1) r) (hno : 0 < n → ∀ r', Refused k x.pgdir R r r' → Q (-1) r')
    (hgrow : 0 < n → ∀ (sz : Nat) r', (sz : Int) = x.sz + n → sz < KERNBASE → Grown k x.pgdir R ((x.sz + 4095) / 4096) ((sz + 4095) / 4096) r r' →
      Q 0 (r'.setproc p { x with sz }))
    (hshrink : n < 0 → ∀ r', Freed k x.pgdir R (plus x.sz n) x.sz r r' →
      (min x.sz (plus x.sz n) = 0 → Q (-1) r') ∧ (min x.sz (plus x.sz n) ≠ 0 → Q 0 (r'.setproc p { x with sz := min x.sz (plus x.sz n) })))
    (hzero : n = 0 → Q 0 (r.setproc p x)) : W k B p (growproc p n) Q r := by
  have hd : x.pgdir ≠ 0 := (h.tree.pool _ h.tree.dir_mem).lt.1.ne'
  have hsz' : x.sz ≤ 2 ^ 31 := hsz
  obtain ⟨hplus, _⟩ := plus_eq hsz' hn hn'
  refine ⟨x, hx, w_if (fun hpos => w_bind ?_) fun hpos => w_if (fun hneg => w_bind ?_) fun hneg => ?_⟩
  · have hp : (plus x.sz n : Int) = x.sz + n := hplus (by omega)
    refine w_allocuvm h (fun w hw h1 _ => hfree w hw h1) (fun hb => w_if (fun _ => hbig hpos) fun e => absurd rfl e) (fun hlt => by omega)
      (fun hle hlt r' hg => w_if (fun e => by omega) fun _ => ?_) fun r' hr => w_if (fun _ => hno hpos r' hr) fun e => absurd rfl e
    refine w_setSize ?_ hk hd (hgrow hpos _ r' hp hlt hg)
    rw [hg.proc, hx]
    nofun
  · refine w_deallocuvm h hsz fun r' hf => w_if (fun e => (hshrink hneg r' hf).1 e) fun e => ?_
    refine w_setSize ?_ hk hd ((hshrink hneg r' hf).2 e)
    rw [hf.proc, hx]
    nofun
  · refine w_setSize ?_ hk hd (hzero (by omega))
    rw [hx]
    nofun

/-! ## All or nothing -/

/-- -1 and nothing has changed, or 0 and the size and the mapped pages are those asked for. -/
def Grew (s : St P) (p : P) (n x : Int) (s' : St P) : Prop :=
  (x = -1 ∧ s'.proc p = s.proc p ∧ (∀ v, v < 2 ^ 19 → pres s'.mem (s.proc p).pgdir v = pres s.mem (s.proc p).pgdir v) ∧
    ∀ v f, v < 2 ^ 19 → page s.mem (s.proc p).pgdir v = some f → s'.mem f = s.mem f) ∨
  (x = 0 ∧ ∃ sz : Nat, (sz : Int) = (s.proc p).sz + n ∧ sz ≤ KERNBASE ∧ s'.proc p = { s.proc p with sz } ∧ MapsBelow s'.mem (s.proc p).pgdir sz)

section Iff

variable {s s' : St P} {n : Int}

omit [DecidableEq P] in
/-- The mappings and the pages are what they were. -/
theorem Space.same (h : Space k r (s.proc p).pgdir R) (ha : Alone k s r s') (hp : r.proc p = some (s.proc p))
    (hpres : ∀ v, v < 2 ^ 20 → pres r.mem (s.proc p).pgdir v = pres s.mem (s.proc p).pgdir v)
    (hmem : ∀ f ∈ Data s.mem (s.proc p).pgdir, r.mem f = s.mem f) : Grew s p n (-1) s' := by
  refine .inl ⟨rfl, ha.proc p _ hp, fun v hv => ?_, fun v f hv hf => ?_⟩
  · rw [(h.agrees ha.agree).2.pres (by omega), hpres v (by omega)]
  · have hd : f ∈ Data r.mem (s.proc p).pgdir := ⟨v, hv, (page_congr (hpres v (by omega))).trans hf⟩
    rw [ha.mem f (h.data_mem hd), hmem f ⟨v, hv, hf⟩]

/-- Whatever the run comes to, it is as it should be exactly in these cases. -/
theorem ends_growproc (hs : Sane k s) (hd : Dir k s (s.proc p).pgdir) (hk : (s.proc p).kstack ≠ 0) (hsz : (s.proc p).sz < KERNBASE)
    (hm : MapsBelow s.mem (s.proc p).pgdir (s.proc p).sz) (hn : -2 ^ 31 ≤ n) (hn' : n < 2 ^ 31) :
    Ends (effect k) p (growproc p n) s (fun x s' => Grew s p n x s' ↔ 0 ≤ n ∨ (s.proc p).sz = 0 ∨ 0 < (s.proc p).sz + n) (fun _ => False) False := by
  obtain ⟨R, hsp⟩ := hd
  have hsz' : (s.proc p).sz < 2 ^ 31 := hsz
  have hround : PGROUNDUP (s.proc p).sz = 4096 * (((s.proc p).sz + 4095) / 4096) := PGROUNDUP_eq (Nat.le_of_lt hsz)
  have hfree : ∀ w, w < 2 ^ 19 → (s.proc p).sz ≤ 4096 * w → pres (s.res k).mem (s.proc p).pgdir w = none := fun w hw h1 => by
    by_contra hne
    have := (hm w hw).1 hne
    omega
  obtain ⟨hplus, hwrap⟩ := plus_eq (Nat.le_of_lt hsz') hn hn'
  refine (alone (Q := fun x r => ∀ s', Alone k s r s' → (Grew s p n x s' ↔ 0 ≤ n ∨ (s.proc p).sz = 0 ∨ 0 < (s.proc p).sz + n)) hs
    (w_growproc hn hn' rfl hk hsp (Nat.le_of_lt hsz) hfree (fun hpos s' ha => ?_) (fun hpos r hr s' ha => ?_) (fun hpos sz r he hlt hg s' ha => ?_)
      (fun hneg r hf => ⟨fun e s' ha => ?_, fun e s' ha => ?_⟩) fun h0 s' ha => ?_)).mono (fun x s' _ ⟨r, h, ha⟩ => h s' ha) (fun _ h => h) id
  · exact iff_of_true (hsp.same ha rfl (fun _ _ => rfl) fun _ _ => rfl) (.inl (by omega))
  · exact iff_of_true (hr.space.same ha (by rw [hr.proc]; rfl) hr.pres fun f hf => hr.mem f (.inr hf)) (.inl (by omega))
  · refine iff_of_true (.inr ⟨rfl, sz, he, Nat.le_of_lt hlt, ha.proc p _ (update_self p _ _), ?_⟩) (.inl (by omega))
    exact (hg.extended hsz hlt (by omega) hm ⟨ha.agree.used, ha.agree.mem⟩).maps
  · by_cases h0 : (s.proc p).sz = 0
    · refine iff_of_true (hf.space.same ha (by rw [hf.proc]; rfl) (fun v hv => ?_) fun f ⟨v, hv, hpv⟩ => ?_) (.inr (.inl h0))
      · rw [hf.pres v hv, if_neg (by omega)]
        rfl
      · refine hf.mem f (.inr ⟨v, hv, ?_⟩)
        rw [page, hf.pres v (by omega), if_neg (by omega)]
        exact hpv
    · -- the last page goes, and -1 is returned
      refine iff_of_false (fun hg => ?_) (by omega)
      rcases hg with ⟨_, _, hp, _⟩ | ⟨he, _⟩
      · refine (hm 0 (by omega)).2 (by omega) ((hp 0 (by omega)).symm.trans ?_)
        rw [(hf.space.agrees ha.agree).2.pres (by omega), hf.pres 0 (by omega), if_pos (by omega)]
      · cases he
  · have hpr : s'.proc p = _ := ha.proc p _ (update_self p _ _)
    by_cases hpos : 0 ≤ (s.proc p).sz + n
    · have hp := hplus hpos
      refine iff_of_true (.inr ⟨rfl, plus (s.proc p).sz n, hp, by omega, ?_, ?_⟩) (by omega)
      · rw [hpr, Nat.min_eq_right (by omega)]
      · rw [MapsBelow, PGROUNDUP_eq (by omega)]
        intro v hv
        rw [(hf.space.agrees ⟨ha.agree.used, ha.agree.mem⟩).2.pres (by omega), hf.pres v (by omega)]
        by_cases hin : plus (s.proc p).sz n ≤ 4096 * v ∧ 4096 * v < (s.proc p).sz
        · rw [if_pos hin]
          exact ⟨fun h => absurd rfl h, fun h => by omega⟩
        · rw [if_neg hin]
          exact (hm v hv).trans (by omega)
    · -- the new size has wrapped around
      refine iff_of_false (fun hg => ?_) (by omega)
      rcases hg with ⟨he, _⟩ | ⟨_, sz, he, _⟩
      · cases he
      · omega
  · refine iff_of_true (.inr ⟨rfl, (s.proc p).sz, by omega, Nat.le_of_lt hsz, ha.proc p _ (update_self p _ _), fun v hv => ?_⟩) (.inl (by omega))
    rw [(hsp.agrees ⟨ha.agree.used, ha.agree.mem⟩).2.pres (by omega)]
    exact hm v hv

theorem growproc_exact_iff (hs : Sane k s) (hd : Dir k s (s.proc p).pgdir) (hk : (s.proc p).kstack ≠ 0) (hsz : (s.proc p).sz < KERNBASE)
    (hm : MapsBelow s.mem (s.proc p).pgdir (s.proc p).sz) (hn : -2 ^ 31 ≤ n) (hn' : n < 2 ^ 31) :
    Ends (effect k) p (growproc p n) s (fun x s' => Grew s p n x s') (fun _ => False) False ↔ 0 ≤ n ∨ (s.proc p).sz = 0 ∨ 0 < (s.proc p).sz + n := by
  have key := ends_growproc hs hd hk hsz hm hn hn'
  constructor
  · intro h
    obtain ⟨x, s', hrun, hg⟩ := h.result
    exact (key.of_run hrun).1 hg
  · intro h
    exact key.mono (fun x s' _ hi => hi.2 h) (fun _ h => h) id

end Iff

theorem growproc_exact_iff_zeroed :
    Ends (effect smallKernel) () (growproc () 4096) (zeroed [400, 401, 402, 403] ⟨0, 300, 301, ⟨0, 0, 0⟩, []⟩)
      (fun x s' => Grew (zeroed [400, 401, 402, 403] ⟨0, 300, 301, ⟨0, 0, 0⟩, []⟩) () 4096 x s') (fun _ => False) False := by
  have h := growproc_exact_iff (p := ()) (n := 4096) (sane_zeroed ⟨0, 300, 301, ⟨0, 0, 0⟩, []⟩) (dir_zeroed _) (show 301 ≠ 0 by decide)
    (show 0 < KERNBASE by decide) (mapsBelow_zeroed _) (by decide) (by decide)
  exact h.2 (.inl (by decide))

/-- Giving back its only page, it loses the page and keeps the size. -/
theorem growproc_loses_page :
    Sane smallKernel onePage ∧ Dir smallKernel onePage 300 ∧ MapsBelow onePage.mem 300 4096 ∧ onePage.proc () = ⟨4096, 300, 303, ⟨0, 0, 0⟩, []⟩ ∧
    ¬ Ends (effect smallKernel) () (growproc () (-4096)) onePage (fun x s' => Grew onePage () (-4096) x s') (fun _ => False) False := by
  refine ⟨onePage_sane, onePage_dir.1, onePage_dir.2, rfl, fun h => ?_⟩
  obtain ⟨x, s', hrun, hg⟩ := h.result
  have hcheck : Ends (effect smallKernel) () (growproc () (-4096)) onePage (fun x s' => x = -1 ∧ pres s'.mem 300 0 = none)
      (fun _ => False) False := by decide +kernel
  obtain ⟨hx, hp⟩ := hcheck.of_run hrun
  rcases hg with ⟨_, _, hsame, _⟩ | ⟨e, _⟩
  · refine (onePage_dir.2 0 (by decide)).2 (by decide) ?_
    exact (hsame 0 (by decide)).symm.trans hp
  · rw [hx] at e
    cases e

end Xv6.Vm
