/-
  Xv6.Umalloc.Sbrk — `malloc` with the system call `sbrk` (`umalloc.c`: `morecore`,
  `malloc`; `sysproc.c`: `sys_sbrk`; `proc.c`: `growproc`).

  A request goes through three conversions of 32 bits. `nbytes` is rounded up to headers,
  and the sum wraps around for the last seven sizes; the headers are multiplied back to
  bytes; and `sys_sbrk` takes these for an `int`. From 2 GB on the `int` is not positive, so
  that `growproc` gives nothing or takes memory away, and returns 0 all the same.

  The program runs in the process that makes the calls: the heap is its memory, and a block
  is good for something only where the process has memory.

    • `malloc_serves_iff`: `malloc` returns 0 or a block as large as asked for, in memory that
      the process has from `sbrk`, exactly for `nbytes` up to `2 ^ 31 - 16`, and for the last
      seven sizes where there is no block and no memory at all.
    • `two_gigabytes_granted`: a block of 2 GB in a process of one page.
-/

import Xv6.Umalloc.Malloc
import Xv6.Vm.Grow

namespace Xv6.Umalloc

open Lib Prog Vm

/-! ## The system call -/

variable {P : Type}

/-- `sys_sbrk`, with the argument that `argint` has fetched. -/
def sysSbrk (p : P) (n : Int) : M P Int := do
  let x ← myproc p
  let r ← growproc p n
  if r < 0 then return -1 else return x.sz

/-- `sbrk(nu * sizeof(Header))`: the `uint` becomes an `int`, the result a `char *`. -/
def sbrk (p : P) (nu : Nat) : M P (Option Nat) := do
  let a ← sysSbrk p ((8 * nu : Int).bmod (2 ^ 32))
  return if a = -1 then none else some (a % 2 ^ 32).toNat

/-- The size that `morecore` asks for. -/
def core (nu : Nat) : Nat := if nu < 4096 then 4096 else nu

/-- The loop of `malloc`, as `search`, with the calls of `sbrk`. -/
def searchIn (me : P) (nunits : Nat) : Nat → Heap → Nat → Nat → M P (Option (Heap × Option Nat))
  | 0, _, _, _ => return none
  | fuel + 1, h, prevp, p =>
    if nunits ≤ h.size p then return some ((take h prevp p nunits).1, some (take h prevp p nunits).2)
    else if p = h.freep then do
      let a ← sbrk me (core nunits)
      match morecore fuel h nunits a with
      | none => return none
      | some none => return some (h, none)
      | some (some h') => searchIn me nunits fuel h' h'.freep (h'.ptr h'.freep)
    else searchIn me nunits fuel h p (h.ptr p)

def mallocIn (me : P) (base fuel : Nat) (h : Heap) (nbytes : Nat) : M P (Option (Heap × Option Nat)) :=
  let h := initBase base h
  searchIn me (nunits nbytes) fuel h h.freep (h.ptr h.freep)

/-- The process still has what it had, so that the program is there to return to; and a block
    that is returned has room for `nbytes`, all of it from `sbrk` and in the process. -/
structure Served (me : P) (nbytes : Nat) (s s' : St P) (h' : Heap) (r : Option Nat) : Prop where
  kept : (s.proc me).sz ≤ (s'.proc me).sz ∧ MapsBelow s'.mem (s.proc me).pgdir (s'.proc me).sz
  block : ∀ q, r = some q → ∃ b, q = b + 8 ∧ nbytes + 8 ≤ 8 * h'.size b ∧
    ∀ x, b ≤ x → x < b + 8 * h'.size b → (∃ g ∈ h'.mem, g.1 ≤ x ∧ x < g.1 + 8 * g.2) ∧ x < (s'.proc me).sz

/-! ## The search and the calls -/

variable [DecidableEq P] {k : Image} {me : P} {nu fuel prevp p : Nat} {h h' : Heap} {s s' : St P} {r : Option Nat}

/-- With a block large enough no call is made. -/
theorem searchIn_found (hs : search nu fuel h prevp p [] = some (h', r)) (hr : r ≠ none) :
    run (effect k) me (searchIn me nu fuel h prevp p) s = .ok (some (h', r), s) := by
  induction fuel generalizing prevp p with
  | zero => cases hs
  | succ fuel ih =>
    unfold search at hs
    unfold searchIn
    split
    · rw [if_pos ‹_›] at hs
      rw [← hs]
      rfl
    rw [if_neg ‹_›] at hs
    split
    · rw [if_pos ‹_›] at hs
      cases hs
      exact absurd rfl hr
    · rw [if_neg ‹_›] at hs
      exact ih hs

theorem mem_free {fuel ap : Nat} (hf : free fuel h ap = some h') : h'.mem = h.mem := by
  obtain ⟨p, -, rfl⟩ := Option.map_eq_some_iff.1 hf
  show (joinLower (joinUpper h (ap - 8) p) (ap - 8) p).mem = h.mem
  unfold joinLower joinUpper
  split <;> split <;> rfl

theorem mem_search (hs : search nu fuel h prevp p [] = some (h', r)) : h'.mem = h.mem := by
  induction fuel generalizing prevp p with
  | zero => cases hs
  | succ fuel ih =>
    unfold search at hs
    split at hs
    · cases hs
      unfold take
      split <;> rfl
    split at hs
    · cases hs
      rfl
    · exact ih hs

/-- One call at the most: the search either finds a block without it, or goes on from its answer. -/
theorem searchIn_once {a : Option Nat} (hs : search nu fuel h prevp p [a] = some (h', r)) (hr : r = none → a = none)
    (hcall : run (effect k) me (sbrk me (core nu)) s = .ok (a, s')) :
    ∃ t, run (effect k) me (searchIn me nu fuel h prevp p) s = .ok (some (h', r), t) ∧
      (t = s ∧ r ≠ none ∧ h'.mem = h.mem ∨ t = s' ∧ (a = none ∧ h'.mem = h.mem ∨ ∃ hp, a = some hp ∧ h'.mem = (hp, core nu) :: h.mem)) := by
  induction fuel generalizing prevp p with
  | zero => cases hs
  | succ fuel ih =>
    unfold search at hs
    unfold searchIn
    split
    · rw [if_pos ‹_›] at hs
      cases hs
      refine ⟨s, rfl, .inl ⟨rfl, by simp, ?_⟩⟩
      unfold take
      split <;> rfl
    rw [if_neg ‹_›] at hs
    split
    · rw [if_pos ‹_›] at hs
      rw [run_bind_ok (effect k) hcall]
      change (match morecore fuel h nu a with
        | none => none
        | some none => some (h, none)
        | some (some h') => search nu fuel h' h'.freep (h'.ptr h'.freep) []) = _ at hs
      cases a with
      | none =>
        cases hs
        exact ⟨s', rfl, .inr ⟨rfl, .inl ⟨rfl, rfl⟩⟩⟩
      | some hp =>
        have hr : r ≠ none := fun e => by cases hr e
        cases hm : morecore fuel h nu (some hp) with
        | none => rw [hm] at hs; cases hs
        | some o =>
          obtain ⟨h₁, hf, rfl⟩ := Option.map_eq_some_iff.1 hm
          rw [hm] at hs
          refine ⟨s', searchIn_found hs hr, .inr ⟨rfl, .inr ⟨hp, rfl, ?_⟩⟩⟩
          rw [mem_search hs, mem_free hf]
          rfl
    · rw [if_neg ‹_›] at hs
      exact ih hs

/-! ## A request below 2 GB -/

theorem run_sbrk {nu : Nat} {x : Int} (hsz : (s.proc me).sz < KERNBASE)
    (hg : run (effect k) me (growproc me ((8 * nu : Int).bmod (2 ^ 32))) s = .ok (x, s')) :
    run (effect k) me (sbrk me nu) s = .ok (if x < 0 then none else some (s.proc me).sz, s') := by
  have hsz : (s.proc me).sz < 2 ^ 31 := hsz
  have hsys : run (effect k) me (sysSbrk me ((8 * nu : Int).bmod (2 ^ 32))) s = .ok (if x < 0 then -1 else ((s.proc me).sz : Int), s') := by
    unfold sysSbrk
    rw [run_bind_ok (effect k) (show run (effect k) me (myproc me) s = .ok (s.proc me, s) from rfl), run_bind_ok (effect k) hg]
    split <;> rfl
  unfold sbrk
  rw [run_bind_ok (effect k) hsys]
  refine congrArg (fun a => Out.ok (a, s')) ?_
  by_cases hx : x < 0
  · rw [if_pos hx, if_pos hx, if_pos rfl]
  · have hmod : ((s.proc me).sz % 2 ^ 32 : Int).toNat = (s.proc me).sz := by omega
    rw [if_neg hx, if_neg hx, if_neg (by omega), hmod]

/-- The process and its heap before the call. -/
structure Ready (k : Image) (me : P) (base : Nat) (s : St P) (h : Heap) (live : List Nat) : Prop where
  sane : Sane k s
  dir : Dir k s (s.proc me).pgdir
  kstack : (s.proc me).kstack ≠ 0
  size : (s.proc me).sz < KERNBASE
  maps : MapsBelow s.mem (s.proc me).pgdir (s.proc me).sz
  heap : Inv base ⟨h, live⟩
  base : 0 < base ∧ base + 8 < (s.proc me).sz
  granted : ∀ g ∈ h.mem, g.1 + 8 * g.2 ≤ (s.proc me).sz

/-- What `sbrk` does for less than 2 GB: nothing, or the process has so much more. -/
structure Granted (me : P) (nu : Nat) (s : St P) (a : Option Nat) (s' : St P) : Prop where
  size : (s'.proc me).sz = (s.proc me).sz + (if a = none then 0 else 8 * nu)
  at_end : ∀ hp, a = some hp → hp = (s.proc me).sz
  below : (s'.proc me).sz ≤ KERNBASE
  maps : MapsBelow s'.mem (s.proc me).pgdir (s'.proc me).sz

variable {base nbytes d : Nat} {live L : List Nat}

theorem Ready.sbrk {nu : Nat} (hr : Ready k me base s h live) (hlt : 8 * nu < 2 ^ 31) :
    ∃ a s', run (effect k) me (sbrk me nu) s = .ok (a, s') ∧ Granted me nu s a s' := by
  have hn : (8 * nu : Int).bmod (2 ^ 32) = 8 * nu := by
    rw [Int.bmod_def]
    omega
  have hsz : (s.proc me).sz < 2 ^ 31 := hr.size
  obtain ⟨x, s', hrun, hx⟩ :=
    (ends_growproc (n := 8 * nu) hr.sane hr.dir hr.kstack hr.size hr.maps (by omega) (by omega)).result
  have hg := hx.2 (.inl (by omega))
  rw [← hn] at hrun
  refine ⟨_, s', run_sbrk hr.size hrun, ?_⟩
  rcases hg with ⟨rfl, hproc, hpres, -⟩ | ⟨rfl, sz, he, hle, hproc, hmaps⟩
  · rw [if_pos (by decide)]
    refine ⟨by rw [hproc, if_pos rfl, Nat.add_zero], nofun, ?_, fun v hv => ?_⟩
    · rw [hproc]
      exact Nat.le_of_lt hr.size
    · rw [hpres v hv, hproc]
      exact hr.maps v hv
  · have hsize : (s'.proc me).sz = sz := by rw [hproc]
    rw [if_neg (by decide)]
    refine ⟨?_, fun hp e => (Option.some.inj e).symm, by rw [hsize]; exact hle, by rw [hsize]; exact hmaps⟩
    rw [hsize, if_neg nofun]
    omega

/-- The process has at least what it had, and all of the heap's memory. -/
structure Holds (me : P) (s t : St P) (h : Heap) : Prop where
  size : (s.proc me).sz ≤ (t.proc me).sz ∧ (t.proc me).sz ≤ KERNBASE
  maps : MapsBelow t.mem (s.proc me).pgdir (t.proc me).sz
  mem : ∀ g ∈ h.mem, g.1 + 8 * g.2 ≤ (t.proc me).sz

/-- `malloc` runs to its end with one call of `sbrk` at the most, and gives 0 only if no block
    is large enough and the call fails. -/
theorem Ready.malloc (hr : Ready k me base s h live)
    (ht : Tiled base (initBase base h) live L) (hlt : 8 * core (nunits nbytes) < 2 ^ 31) :
    ∃ h' r F, Got base (initBase base h) live (nunits nbytes) h' r ∧
      (r = none ↔ (∀ q ∈ base :: L, (initBase base h).size q < nunits nbytes) ∧
        ∃ s', run (effect k) me (Umalloc.sbrk me (core (nunits nbytes))) s = .ok (none, s')) ∧
      ∀ fuel, F ≤ fuel → ∃ t, run (effect k) me (mallocIn me base fuel h nbytes) s = .ok (some (h', r), t) ∧ Holds me s t h' := by
  obtain ⟨a, s', hcall, hg⟩ := hr.sbrk hlt
  obtain ⟨hmem, -⟩ := hr.heap.initBase hr.base.1
  have hsz : (s.proc me).sz < 2 ^ 31 := hr.size
  have hfresh : ∀ x, [a].headD none = some x → Fresh base (initBase base h).mem x (core (nunits nbytes)) := fun x e => by
    obtain rfl : a = some x := e
    obtain rfl := hg.at_end x rfl
    refine ⟨hr.base.2, by omega, fun g hg => .inr ?_⟩
    rw [hmem] at hg
    exact hr.granted g hg
  have hnu : 0 < nunits nbytes := Nat.succ_pos _
  obtain ⟨h', r, hgot, hnone, F, hs⟩ := ht.malloc [a] hnu hfresh
  refine ⟨h', r, F, hgot, hnone.trans (and_congr_right fun _ => ?_), fun fuel hF => ?_⟩
  · rw [hcall]
    exact ⟨fun e => ⟨s', by rw [show a = none from e]⟩, fun ⟨_, e⟩ => by cases e; rfl⟩
  · obtain ⟨t, hrun, ht⟩ := searchIn_once (hs fuel hF) (fun e => (hnone.1 e).2) hcall
    refine ⟨t, hrun, ?_⟩
    rw [hmem] at ht
    rcases ht with ⟨rfl, -, hm⟩ | ⟨rfl, ⟨rfl, hm⟩ | ⟨hp, rfl, hm⟩⟩
    · refine ⟨⟨le_rfl, Nat.le_of_lt hr.size⟩, hr.maps, ?_⟩
      rw [hm]
      exact hr.granted
    · have hsize := hg.size
      rw [if_pos rfl, Nat.add_zero] at hsize
      refine ⟨⟨hsize.ge, hg.below⟩, hg.maps, ?_⟩
      rw [hm, hsize]
      exact hr.granted
    · have hsize := hg.size
      rw [if_neg nofun] at hsize
      refine ⟨⟨by omega, hg.below⟩, hg.maps, fun g hgm => ?_⟩
      rw [hm] at hgm
      rcases List.mem_cons.1 hgm with rfl | hgm
      · rw [hg.at_end hp rfl, hsize]
      · have := hr.granted g hgm
        omega

omit [DecidableEq P] in
/-- A block in the heap is in memory from `sbrk` that the process has. -/
theorem Tiled.served {b : Nat} {t : St P} (ht : Tiled base h (b :: live) L) (hh : Holds me s t h)
    (hsize : nbytes + 8 ≤ 8 * h.size b) : Served me nbytes s t h (some (b + 8)) := by
  refine ⟨⟨hh.size.1, hh.maps⟩, fun q hq => ⟨b, (Option.some.inj hq).symm, hsize, fun x h1 h2 => ?_⟩⟩
  have hcov : 0 < given h.mem x := by
    rw [← ht.tiles x]
    exact List.countP_pos_iff.2 ⟨b, by simp, by simp [h1, h2]⟩
  obtain ⟨g, hg, hx⟩ := List.countP_pos_iff.1 hcov
  have hx : g.1 ≤ x ∧ x < g.1 + 8 * g.2 := by simpa using hx
  exact ⟨⟨g, hg, hx⟩, by have := hh.mem g hg; omega⟩

omit [DecidableEq P] in
/-- A block larger than the process is not in it. -/
theorem Served.null {t : St P} (hs : Served me nbytes s t h r) (hlt : (t.proc me).sz < (nbytes + 15) / 8 * 8) : r = none := by
  cases r with
  | none => rfl
  | some q =>
    obtain ⟨b, -, hsize, hin⟩ := hs.block q rfl
    have := (hin (b + 8 * h.size b - 1) (by omega) (by omega)).2
    omega

/-! ## From 2 GB on -/

/-- The process has its directory, with nothing mapped above its size. -/
structure Owns (k : Image) (me : P) (d : Nat) (R : Set Nat) (r : Res P) (x : Proc) : Prop where
  proc : r.proc me = some x
  dir : x.pgdir = d
  kstack : x.kstack ≠ 0
  space : Space k r d R
  size : x.sz ≤ KERNBASE
  above : ∀ w, w < 2 ^ 19 → x.sz ≤ 4096 * w → pres r.mem d w = none

variable {R : Set Nat}

theorem Owns.setproc {r : Res P} {x y : Proc} (h : Owns k me d R r x) (hd : y.pgdir = d) (hk : y.kstack ≠ 0)
    (hsz : y.sz ≤ KERNBASE) (ha : ∀ w, w < 2 ^ 19 → y.sz ≤ 4096 * w → pres r.mem d w = none) : Owns k me d R (r.setproc me y) y :=
  ⟨Function.update_self .., hd, hk, ⟨⟨h.space.tree.own, h.space.tree.pool, h.space.tree.dir, h.space.tree.table, h.space.tree.inj⟩, h.space.apart,
    h.space.inj⟩, hsz, ha⟩

/-- For an `int` that is not positive `growproc` returns 0 and the process has no more than
    it had; or it has lost its pages. -/
theorem w_growproc_nonpos {B : Err → Prop} {r : Res P} {x : Proc} {n : Int} (hn : -2 ^ 31 ≤ n) (hn' : n ≤ 0)
    (h : Owns k me d R r x) {Q : Int → Res P → Prop}
    (hq : ∀ a r' x', Owns k me d R r' x' → x'.sz ≤ x.sz → (a < 0 → x.sz = 0 ∨ pres r'.mem d 0 = none) → Q a r') :
    W k B me (growproc me n) Q r := by
  have hdir := h.dir
  subst hdir
  have hfreed : ∀ (r' : Res P) (sz : Nat), Freed k x.pgdir R (Vm.plus x.sz n) x.sz r r' → min x.sz (Vm.plus x.sz n) ≤ sz →
      ∀ w, w < 2 ^ 19 → sz ≤ 4096 * w → pres r'.mem x.pgdir w = none := fun r' sz hf hle w hw hsz => by
    rw [hf.pres w (by omega)]
    split
    · rfl
    · exact h.above w hw (by omega)
  refine w_growproc hn (by omega) h.proc h.kstack h.space h.size h.above (fun h0 => absurd h0 (by omega)) (fun h0 => absurd h0 (by omega))
    (fun h0 => absurd h0 (by omega)) (fun _ r' hf => ⟨fun e => ?_, fun e => ?_⟩) fun _ => ?_
  · refine hq (-1) r' x ⟨by rw [hf.proc]; exact h.proc, rfl, h.kstack, hf.space, h.size, hfreed r' x.sz hf (Nat.min_le_left _ _)⟩ le_rfl fun _ => ?_
    by_cases h0 : x.sz = 0
    · exact .inl h0
    · exact .inr (hfreed r' 0 hf (by omega) 0 (by omega) le_rfl)
  · have ho : Owns k me x.pgdir R r' x := ⟨by rw [hf.proc]; exact h.proc, rfl, h.kstack, hf.space, h.size, hfreed r' x.sz hf (Nat.min_le_left _ _)⟩
    refine hq 0 _ _ (ho.setproc rfl h.kstack ?_ ?_) (Nat.min_le_left _ _) fun h0 => absurd h0 (by decide)
    · exact (Nat.min_le_left _ _).trans h.size
    · exact hfreed r' _ hf le_rfl
  · exact hq 0 _ _ (h.setproc rfl h.kstack h.size h.above) le_rfl fun h0 => absurd h0 (by decide)

theorem w_sbrk_nonpos {B : Err → Prop} {r : Res P} {x : Proc} (hn : 2 ^ 31 ≤ 8 * nu) (hn' : 8 * nu ≤ 2 ^ 32)
    (h : Owns k me d R r x) {Q : Option Nat → Res P → Prop}
    (hq : ∀ a r' x', Owns k me d R r' x' → x'.sz ≤ x.sz → (a = none → x.sz = 0 ∨ pres r'.mem d 0 = none) → Q a r') :
    W k B me (sbrk me nu) Q r := by
  have hb : -2 ^ 31 ≤ (8 * nu : Int).bmod (2 ^ 32) ∧ (8 * nu : Int).bmod (2 ^ 32) ≤ 0 := by
    rw [Int.bmod_def]
    omega
  refine w_bind (w_bind ⟨x, h.proc, w_bind (w_growproc_nonpos hb.1 hb.2 h fun a r' x' ho hle hlost => ?_)⟩)
  refine w_if (fun ha => ?_) fun ha => ?_
  · exact hq none r' x' ho hle fun _ => hlost ha
  · refine hq _ r' x' ho hle fun e => ?_
    rw [if_neg (by omega)] at e
    cases e

/-- Then `malloc` gives 0 only when the process has lost memory. -/
theorem w_searchIn {B : Err → Prop} {sz : Nat} {r : Res P} {x : Proc} (hn : 2 ^ 31 ≤ 8 * core nu) (hn' : 8 * core nu ≤ 2 ^ 32)
    (h : Owns k me d R r x) (hsz : x.sz ≤ sz) (hpos : 0 < sz) :
    W k B me (searchIn me nu fuel h₀ prevp p) (fun o r' => ∃ x', Owns k me d R r' x' ∧ x'.sz ≤ sz ∧
      ∀ h', o = some (h', none) → x'.sz < sz ∨ pres r'.mem d 0 = none) r := by
  induction fuel generalizing h₀ prevp p r x with
  | zero => exact ⟨x, h, hsz, fun _ e => by cases e⟩
  | succ fuel ih =>
    unfold searchIn
    refine w_if (fun _ => ⟨x, h, hsz, fun _ e => by cases e⟩) fun _ => w_if (fun _ => w_bind ?_) fun _ => ih h hsz
    refine w_sbrk_nonpos hn hn' h fun a r' x' ho hle' hlost => ?_
    have hle := hle'.trans hsz
    cases hm : morecore fuel h₀ nu a with
    | none => exact ⟨x', ho, hle, fun _ e => by cases e⟩
    | some o =>
      cases o with
      | none =>
        -- only a call that failed gives the null pointer
        have ha : a = none := by
          cases a with
          | none => rfl
          | some hp =>
            obtain ⟨_, _, e⟩ := Option.map_eq_some_iff.1 hm
            cases e
        refine ⟨x', ho, hle, fun _ _ => (hlost ha).imp_left fun h0 => ?_⟩
        omega
      | some h' => exact ih ho hle

/-- `malloc` of 2 GB or more, short of the sizes that wrap around, never serves. -/
theorem Ready.not_served {fuel : Nat} {t : St P} (hr : Ready k me base s h live) (hn : 2 ^ 31 - 16 < nbytes)
    (hn' : nbytes ≤ 2 ^ 32 - 8) (hrun : run (effect k) me (mallocIn me base fuel h nbytes) s = .ok (some (h', r), t)) :
    ¬ Served me nbytes s t h' r := by
  intro hserved
  obtain ⟨R, hsp⟩ := hr.dir
  have hsz : (s.proc me).sz < 2 ^ 31 := hr.size
  have hpos : 0 < (s.proc me).sz := by have := hr.base.2; omega
  have hround : PGROUNDUP (s.proc me).sz = 4096 * (((s.proc me).sz + 4095) / 4096) := PGROUNDUP_eq (Nat.le_of_lt hr.size)
  have howns : Owns k me (s.proc me).pgdir R (s.res k) (s.proc me) := by
    refine ⟨rfl, rfl, hr.kstack, hsp, Nat.le_of_lt hr.size, fun w hw h1 => ?_⟩
    by_contra hne
    have := (hr.maps w hw).1 hne
    omega
  have hnu : nunits nbytes = (nbytes + 7) / 8 + 1 := by
    rw [nunits, Nat.mod_eq_of_lt (by omega)]
    rfl
  have hcore : core (nunits nbytes) = nunits nbytes := if_neg (by omega)
  have hw : W k (fun _ => False) me (mallocIn me base fuel h nbytes) _ (s.res k) :=
    w_searchIn (by rw [hcore]; omega) (by rw [hcore]; omega) howns le_rfl hpos
  obtain ⟨r', ⟨x', ho, hle, hlost⟩, ha⟩ := (alone hr.sane hw).of_run hrun
  have hproc : t.proc me = x' := ha.proc me x' ho.proc
  have hnull : r = none := hserved.null (by rw [hproc]; omega)
  subst hnull
  rcases hlost h' rfl with hlt | hp
  · have := hserved.kept.1
    rw [hproc] at this
    omega
  · refine (hserved.kept.2 0 (by omega)).2 ?_ ?_
    · have := hserved.kept.1
      rw [hproc] at this ⊢
      rw [PGROUNDUP_eq ho.size]
      omega
    · rw [(ho.space.agrees ha.agree).2.pres (by omega), hp]

theorem nunits_wrap (h : nbytes < 2 ^ 32) (hn : 2 ^ 32 - 8 < nbytes) : nunits nbytes = 1 := by
  unfold nunits
  omega

theorem Tiled.empty_iff (ht : Tiled base h live L) : h.ptr base = base ↔ L = [] := by
  have hring := ht.ring
  cases L with
  | nil => exact iff_of_true (Option.some.inj hring.2) rfl
  | cons b L =>
    refine iff_of_false (fun e => ?_) nofun
    have hb : h.ptr base = b := Option.some.inj hring.2.1
    have := (ht.bounds (List.mem_append_left live List.mem_cons_self)).1
    omega

/-- `malloc(nbytes)` runs to its end, and returns 0 or serves, exactly for `nbytes` up to
    `2 ^ 31 - 16`, and for the sizes that wrap around when the list has no block and `sbrk`
    gives no memory. -/
theorem malloc_serves_iff {base nbytes : Nat} {live : List Nat} (hr : Ready k me base s h live) (hn : nbytes < 2 ^ 32) :
    (∃ F, ∀ fuel, F ≤ fuel → Ends (effect k) me (mallocIn me base fuel h nbytes) s
        (fun o t => ∃ h' r, o = some (h', r) ∧ Served me nbytes s t h' r) (fun _ => False) False) ↔
      nbytes ≤ 2 ^ 31 - 16 ∨ 2 ^ 32 - 8 < nbytes ∧ (initBase base h).ptr base = base ∧
        ∃ s', run (effect k) me (sbrk me 4096) s = .ok (none, s') := by
  obtain ⟨L, ht⟩ : ∃ L, Tiled base (initBase base h) live L := (hr.heap.initBase hr.base.1).2.2
  have hK : KERNBASE = 2 ^ 31 := rfl
  by_cases hlarge : 2 ^ 31 - 16 < nbytes ∧ nbytes ≤ 2 ^ 32 - 8
  · refine iff_of_false (fun ⟨F, hF⟩ => ?_) (by omega)
    obtain ⟨o, t, hrun, h', r, rfl, hserved⟩ := (hF F le_rfl).result
    exact hr.not_served hlarge.1 hlarge.2 hrun hserved
  have hsmall : 8 * core (nunits nbytes) < 2 ^ 31 := by
    unfold core nunits
    split <;> omega
  obtain ⟨h', r, F, hgot, hnone, hrun⟩ := hr.malloc ht hsmall
  by_cases hwrap : 2 ^ 32 - 8 < nbytes
  · have h1 := nunits_wrap hn hwrap
    have hcore : core (nunits nbytes) = 4096 := by rw [h1]; rfl
    have hlist : (∀ q ∈ base :: L, (initBase base h).size q < nunits nbytes) ↔ (initBase base h).ptr base = base := by
      rw [ht.empty_iff, h1]
      constructor
      · intro hq
        refine List.eq_nil_iff_forall_not_mem.2 fun b hb => ?_
        have := hq b (List.mem_cons_of_mem base hb)
        have := ht.pos b (List.mem_append_left live hb)
        omega
      · intro hL q hq
        rw [hL, List.mem_singleton] at hq
        rw [hq, ht.zero]
        exact Nat.one_pos
    rw [hlist, hcore] at hnone
    have hright : (nbytes ≤ 2 ^ 31 - 16 ∨ 2 ^ 32 - 8 < nbytes ∧ (initBase base h).ptr base = base ∧
        ∃ s', run (effect k) me (sbrk me 4096) s = .ok (none, s')) ↔ r = none := by
      rw [hnone]
      exact ⟨fun h => (h.resolve_left (by omega)).2, fun h => .inr ⟨hwrap, h⟩⟩
    rw [hright]
    constructor
    · intro ⟨F', hF'⟩
      obtain ⟨t, hrun, hh⟩ := hrun (max F F') (Nat.le_max_left F F')
      obtain ⟨_, _, e, hserved⟩ := (hF' _ (Nat.le_max_right F F')).of_run hrun
      cases e
      have := hh.size.2
      exact hserved.null (by omega)
    · intro hnull
      refine ⟨F, fun fuel hF => ?_⟩
      obtain ⟨t, hrun, hh⟩ := hrun fuel hF
      rw [Ends, hrun]
      exact ⟨h', r, rfl, ⟨hh.size.1, hh.maps⟩, fun q hq => by rw [hnull] at hq; cases hq⟩
  · refine iff_of_true ⟨F, fun fuel hF => ?_⟩ (.inl (by omega))
    obtain ⟨t, hrun, hh⟩ := hrun fuel hF
    rw [Ends, hrun]
    refine ⟨h', r, rfl, ?_⟩
    cases r with
    | none => exact ⟨⟨hh.size.1, hh.maps⟩, nofun⟩
    | some q =>
      obtain ⟨b, L', rfl, ht', hsize⟩ := hgot.block q rfl
      refine ht'.served hh ?_
      rw [hsize, nunits, Nat.mod_eq_of_lt (by omega)]
      omega

/-- Before the first `malloc`. -/
def unused : Heap := ⟨fun _ => 0, fun _ => 0, 0, []⟩

/-- A program of one page with `base` at 1024. -/
theorem ready_onePage : Ready smallKernel () 1024 onePage unused [] :=
  ⟨onePage_sane, onePage_dir.1, (show 303 ≠ 0 by decide), (show 4096 < KERNBASE by decide), onePage_dir.2, .inl ⟨rfl, rfl, rfl⟩,
    ⟨by decide, show 1032 < 4096 by decide⟩, nofun⟩

theorem malloc_serves_iff_onePage : ∃ F, ∀ fuel, F ≤ fuel → Ends (effect smallKernel) () (mallocIn () 1024 fuel unused 100) onePage
    (fun o t => ∃ h' r, o = some (h', r) ∧ Served () 100 onePage t h' r) (fun _ => False) False :=
  (malloc_serves_iff ready_onePage (by decide)).2 (.inl (by decide))

/-- The program asks for `2 ^ 31 - 15` bytes. It gets the block at 4096, after its end, of
    `2 ^ 28` headers, and still has one page. -/
theorem two_gigabytes_granted : Ready smallKernel () 1024 onePage unused [] ∧
    ∃ h' t, run (effect smallKernel) () (mallocIn () 1024 10 unused (2 ^ 31 - 15)) onePage = .ok (some (h', some 4104), t) ∧
      h'.size 4096 = 2 ^ 28 ∧ (t.proc ()).sz = 4096 ∧ ¬ Served () (2 ^ 31 - 15) onePage t h' (some 4104) := by
  refine ⟨ready_onePage, ?_⟩
  have hcheck : Ends (effect smallKernel) () (mallocIn () 1024 10 unused (2 ^ 31 - 15)) onePage
      (fun x t => (x.map fun y => (y.2, y.1.size 4096)) = some (some 4104, 2 ^ 28) ∧ (t.proc ()).sz = 4096) (fun _ => False) False := by
    decide +kernel
  obtain ⟨x, t, hrun, hx, hsz⟩ := hcheck.result
  obtain ⟨⟨h', q⟩, rfl, hy⟩ := Option.map_eq_some_iff.1 hx
  obtain ⟨rfl, hsize⟩ := Prod.mk.inj hy
  exact ⟨h', t, hrun, hsize, hsz, ready_onePage.not_served (by decide) (by decide) hrun⟩

end Xv6.Umalloc
