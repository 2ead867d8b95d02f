/-
  Xv6.Ftable.Tokens — who holds which references, pipe ends and pages.

  The file table gives out tokens: one for each reference to a file (`file f`), one for a
  file that `filealloc` has returned and that has no type yet (`new f`), one for each open
  end of a pipe (`side g w`), which the file of that end keeps while it has references, and
  one for a page that is not, or no longer, a pipe (`page g`). A process between calls holds
  one `file` token for each of its descriptors; a process in a call may hold others.

  `World` says that the tokens given out are the tokens held. Each section of code that
  changes the file table trades tokens with the process that runs it (`Trade`), so the books
  stay balanced whatever the other processes do (`ftable_sound`).
-/

import Xv6.Ftable.Calls
import Xv6.Lib.Sums

namespace Xv6.Ftable

open Lib Prog Function
open Fs.Namespace (nofile nfile)

/-! ## Tokens -/

inductive Token (G : Type) where
  | file (f : Fin nfile)
  | new (f : Fin nfile)
  | side (g : G) (writable : Bool)
  | page (g : G)
  deriving DecidableEq

variable {P G : Type} [DecidableEq G]

/-- What the file says of the ends of pipes. -/
def File.holds (x : File G) (g : G) (w : Bool) : Nat := if x.type = .pipe g ∧ x.writable = w then 1 else 0

/-- How many of the token there are. -/
def supply (s : St P G) : Token G → Nat
  | .file f => if (s.file f).type = .none then 0 else (s.file f).ref
  | .new f => if (s.file f).type = .none then (s.file f).ref else 0
  | .side g w => match s.pipe g with
    | some x => (x.isOpen w).toNat
    | none => 0
  | .page g => if s.pipe g = some ⟨false, false⟩ then 1 else 0

/-- How many of them the files keep. -/
def stored (s : St P G) : Token G → Nat
  | .side g w => ∑ f, (s.file f).holds g w
  | _ => 0

/-- The step from `s` to `s'` takes the tokens `give` and hands out `get`. -/
def Trade (s s' : St P G) (give get : Multiset (Token G)) : Prop :=
  ∀ t, supply s' t + stored s t + give.count t = supply s t + stored s' t + get.count t

/-- The token of a descriptor. -/
def token : Option (Fin nfile) → Multiset (Token G)
  | some f => {.file f}
  | none => 0

/-- The tokens of a table of descriptors. -/
def tokens (t : Fds) : Multiset (Token G) := ∑ fd, token (t fd)

omit [DecidableEq G] in
theorem tokens_update (t : Fds) (fd : Fin nofile) (x : Option (Fin nfile)) :
    tokens (update t fd x) + token (t fd) = (tokens t + token x : Multiset (Token G)) := by
  have hrest : ∑ c ∈ Finset.univ.erase fd, token (update t fd x c) = (∑ c ∈ Finset.univ.erase fd, token (t c) : Multiset (Token G)) :=
    Finset.sum_congr rfl fun c hc => by rw [update_of_ne (Finset.ne_of_mem_erase hc)]
  have h1 := Finset.add_sum_erase Finset.univ (fun c => (token (update t fd x c) : Multiset (Token G))) (Finset.mem_univ fd)
  have h2 := Finset.add_sum_erase Finset.univ (fun c => (token (t c) : Multiset (Token G))) (Finset.mem_univ fd)
  rw [tokens, tokens, ← h1, ← h2, hrest, update_self]
  exact (add_right_comm _ _ _).trans ((congrArg (· + _) (add_comm _ _)).trans (add_right_comm _ _ _))

omit [DecidableEq G] in
theorem tokens_set {t : Fds} {fd : Fin nofile} (h : t fd = none) (f : Fin nfile) :
    tokens (update t fd (some f)) = (tokens t + {.file f} : Multiset (Token G)) := by
  have := tokens_update (G := G) t fd (some f)
  rw [h] at this
  exact (add_zero _).symm.trans this

omit [DecidableEq G] in
theorem tokens_clear {t : Fds} {fd : Fin nofile} {f : Fin nfile} (h : t fd = some f) :
    (tokens t : Multiset (Token G)) = tokens (update t fd none) + {.file f} := by
  have := tokens_update (G := G) t fd none
  rw [h] at this
  exact (add_zero _).symm.trans this.symm

omit [DecidableEq G] in
theorem tokens_empty : tokens (fun _ => none) = (0 : Multiset (Token G)) := Finset.sum_const_zero

/-! ## What the sections of code trade -/

section Trades

variable {s s' : St P G} {f : Fin nfile} {g : G} {w : Bool}

/-- A file is changed. -/
theorem trade_setFile {x : File G} {give get : Multiset (Token G)}
    (hf : (if x.type = .none then 0 else x.ref) + give.count (.file f) =
      (if (s.file f).type = .none then 0 else (s.file f).ref) + get.count (.file f))
    (hn : (if x.type = .none then x.ref else 0) + give.count (.new f) =
      (if (s.file f).type = .none then (s.file f).ref else 0) + get.count (.new f))
    (hs : ∀ g w, (s.file f).holds g w + give.count (.side g w) = x.holds g w + get.count (.side g w))
    (hp : ∀ g, give.count (.page g) = get.count (.page g))
    (hr : ∀ f', f' ≠ f → give.count (.file f') = get.count (.file f') ∧ give.count (.new f') = get.count (.new f')) :
    Trade s (setFile s f x) give get := by
  intro t
  cases t with
  | file f' => by_cases e : f' = f <;> simp_all [supply, stored, setFile]
  | new f' => by_cases e : f' = f <;> simp_all [supply, stored, setFile]
  | side g w =>
    have hsum := sum_change (p := f) (F := fun f' => (update s.file f x f').holds g w) (G := fun f' => (s.file f').holds g w)
      fun f' e => by rw [update_of_ne e]
    have := hs g w
    simp only [update_self] at hsum
    simp only [supply, stored, setFile]
    omega
  | page g => exact congrArg (supply s (.page g) + 0 + ·) (hp g)

/-- A page is changed. -/
theorem trade_setPipe {x : Option Pipe} {give get : Multiset (Token G)}
    (hs : ∀ w, supply (setPipe s g x) (.side g w) + give.count (.side g w) = supply s (.side g w) + get.count (.side g w))
    (hp : supply (setPipe s g x) (.page g) + give.count (.page g) = supply s (.page g) + get.count (.page g))
    (hr : ∀ t, (∀ w, t ≠ .side g w) → t ≠ .page g → give.count t = get.count t) : Trade s (setPipe s g x) give get := by
  intro t
  cases t with
  | file f => rw [hr (.file f) (fun _ e => nomatch e) fun e => nomatch e]; rfl
  | new f => rw [hr (.new f) (fun _ e => nomatch e) fun e => nomatch e]; rfl
  | side g' w =>
    have hst : stored (setPipe s g x) (.side g' w) = stored s (.side g' w) := rfl
    have := hs w
    by_cases e : g' = g
    · subst e; omega
    · simp_all [supply, setPipe]
  | page g' =>
    have hst : stored (setPipe s g x) (.page g') = stored s (.page g') := rfl
    by_cases e : g' = g
    · subst e; omega
    · simp_all [supply, setPipe]

theorem trade_filealloc (hr : (s.file f).ref = 0) (ht : (s.file f).type = .none) :
    Trade s (setFile s f { s.file f with ref := 1 }) 0 {.new f} := by
  apply trade_setFile <;> simp_all [File.holds]

theorem trade_filedup (ht : (s.file f).type ≠ .none) :
    Trade s (setFile s f { s.file f with ref := (s.file f).ref + 1 }) 0 {.file f} := by
  apply trade_setFile <;> simp_all [File.holds]

theorem trade_unref (ht : (s.file f).type ≠ .none) (hr : 0 < (s.file f).ref) :
    Trade s (setFile s f { s.file f with ref := (s.file f).ref - 1 }) {.file f} 0 := by
  apply trade_setFile <;> simp_all [File.holds]
  omega

/-- The last reference goes: the file gives back the end of the pipe that it had. -/
def File.sides (x : File G) : Multiset (Token G) :=
  match x.type with
  | .pipe g => {.side g x.writable}
  | _ => 0

theorem File.count_sides (x : File G) (g : G) (w : Bool) : x.sides.count (.side g w) = x.holds g w := by
  unfold File.sides File.holds
  cases x.type with
  | none => simp
  | inode i => simp
  | pipe g' =>
    simp only [Multiset.count_singleton, Token.side.injEq, Kind.pipe.injEq, eq_comm]

theorem File.count_sides_of_ne (x : File G) {t : Token G} (h : ∀ g w, t ≠ .side g w) : x.sides.count t = 0 := by
  unfold File.sides
  cases x.type with
  | none => rfl
  | inode i => rfl
  | pipe g' => exact Multiset.count_eq_zero_of_notMem fun hm => h _ _ (Multiset.mem_singleton.1 hm)

theorem trade_close (ht : (s.file f).type ≠ .none) (hr : (s.file f).ref = 1) :
    Trade s (setFile s f { s.file f with ref := 0, type := .none }) {.file f} (s.file f).sides := by
  apply trade_setFile <;> simp_all [File.count_sides, File.count_sides_of_ne, File.holds]

theorem trade_closeNew (ht : (s.file f).type = .none) (hr : (s.file f).ref = 1) :
    Trade s (setFile s f { s.file f with ref := 0, type := .none }) {.new f} 0 := by
  apply trade_setFile <;> simp_all [File.holds]

theorem trade_setfile (ht : (s.file f).type = .none) (hr : (s.file f).ref = 1) {type : Kind G} (hn : type ≠ .none) (readable : Bool) :
    Trade s (setFile s f { s.file f with type := type, readable := readable, writable := w })
      ({.new f} + File.sides ⟨1, type, readable, w⟩) {.file f} := by
  apply trade_setFile <;> simp_all [File.count_sides, File.count_sides_of_ne, File.holds]

theorem trade_pipeclose {x : Pipe} (hx : s.pipe g = some x) (ho : x.isOpen w = true) :
    Trade s (setPipe s g (some (x.close w))) {.side g w} (if x.close w == ⟨false, false⟩ then {.page g} else 0) := by
  have hpage : supply s (.page g) = 0 := by
    have hne : x ≠ ⟨false, false⟩ := fun e => by subst e; cases w <;> cases ho
    simp [supply, hx, hne]
  refine trade_setPipe (fun v => ?_) ?_ fun t h1 h2 => ?_
  · have hget : (if x.close w == ⟨false, false⟩ then {.page g} else 0 : Multiset (Token G)).count (.side g v) = 0 := by
      split <;> simp
    rw [hget]
    cases v <;> cases w <;> simp_all [supply, setPipe, Pipe.close, Pipe.isOpen]
  · rw [hpage]
    simp only [supply, setPipe, update_self, Option.some.injEq, beq_iff_eq]
    split <;> simp
  · rw [Multiset.count_eq_zero_of_notMem fun hm => h1 w (Multiset.mem_singleton.1 hm)]
    split
    · exact (Multiset.count_eq_zero_of_notMem fun hm => h2 (Multiset.mem_singleton.1 hm)).symm
    · rfl

theorem trade_kalloc (hg : s.pipe g = none) : Trade s (setPipe s g (some ⟨false, false⟩)) 0 {.page g} := by
  refine trade_setPipe (fun v => ?_) ?_ fun t h1 h2 => ?_
  · cases v <;> simp [supply, setPipe, hg, Pipe.isOpen]
  · simp [supply, setPipe, hg]
  · exact (Multiset.count_eq_zero_of_notMem fun hm => h2 (Multiset.mem_singleton.1 hm)).symm

theorem trade_kfree (hg : s.pipe g = some ⟨false, false⟩) : Trade s (setPipe s g none) {.page g} 0 := by
  refine trade_setPipe (fun v => ?_) ?_ fun t h1 h2 => ?_
  · cases v <;> simp [supply, setPipe, hg, Pipe.isOpen]
  · simp [supply, setPipe, hg]
  · exact Multiset.count_eq_zero_of_notMem fun hm => h2 (Multiset.mem_singleton.1 hm)

theorem trade_initpipe (hg : s.pipe g = some ⟨false, false⟩) :
    Trade s (setPipe s g (some ⟨true, true⟩)) {.page g} ({.side g false} + {.side g true}) := by
  refine trade_setPipe (fun v => ?_) ?_ fun t h1 h2 => ?_
  · cases v <;> simp [supply, setPipe, hg, Pipe.isOpen]
  · simp [supply, setPipe, hg]
  · rw [Multiset.count_eq_zero_of_notMem fun hm => h2 (Multiset.mem_singleton.1 hm), Multiset.count_add,
      Multiset.count_eq_zero_of_notMem fun hm => h1 false (Multiset.mem_singleton.1 hm),
      Multiset.count_eq_zero_of_notMem fun hm => h1 true (Multiset.mem_singleton.1 hm)]

end Trades

/-! ## The books -/

/-- A process in a call: its tokens, its descriptors now and at the start of the call, and the
    child it is making with the child's descriptors. -/
structure Res (P G : Type) where
  bag : Multiset (Token G)
  ofile : Fds
  before : Fds
  child : Option (P × Fds)

def Res.start (t : Fds) : Res P G := ⟨tokens t, t, t, none⟩

def Res.trade (r : Res P G) (give get : Multiset (Token G)) : Res P G := { r with bag := r.bag - give + get }

/-- The tokens of a process; one between calls has those of its descriptors. -/
def bagOf (s : St P G) (q : P) : Option (Res P G) → Multiset (Token G)
  | some r => r.bag
  | none => match s.slot q with
    | .running => tokens (s.ofile q)
    | _ => 0

omit [DecidableEq G] in
theorem bagOf_some (s : St P G) (q : P) (r : Res P G) : bagOf s q (some r) = r.bag := rfl

/-- What a process in a call knows of the state. -/
structure Agrees (s : St P G) (q : P) (r : Res P G) : Prop where
  slot : s.slot q = .running
  ofile : s.ofile q = r.ofile
  before : s.before q = r.before
  result : s.result q = none
  child : ∀ c t, r.child = some (c, t) → s.slot c = .embryo q ∧ s.ofile c = t

/-- What holds of a process between calls, and of a slot without one. -/
structure Rests (s : St P G) (q : P) : Prop where
  failed : s.slot q = .running → s.result q = some (-1) → s.ofile q = s.before q
  empty : s.slot q = .unused ∨ s.slot q = .zombie → s.ofile q = fun _ => none

def Knows (s : St P G) (q : P) : Option (Res P G) → Prop
  | some r => Agrees s q r
  | none => Rests s q

structure World [Fintype P] (ρ : P → Option (Res P G)) (s : St P G) : Prop where
  balance : ∀ t, supply s t = stored s t + ∑ q, (bagOf s q (ρ q)).count t
  new : ∀ f, (s.file f).type = .none → (s.file f).ref ≤ 1
  typed : ∀ f, (s.file f).type ≠ .none → 0 < (s.file f).ref
  knows : ∀ q, Knows s q (ρ q)
  embryo : ∀ c q, s.slot c = .embryo q → ∃ r t, ρ q = some r ∧ r.child = some (c, t)

variable [Fintype P] [DecidableEq P] {ρ : P → Option (Res P G)} {s s' : St P G} {p : P} {r : Res P G}

omit [DecidableEq G] [Fintype P] [DecidableEq P] in
theorem bagOf_congr {q : P} (hsl : s'.slot q = s.slot q) (hof : s'.ofile q = s.ofile q) (o : Option (Res P G)) :
    bagOf s' q o = bagOf s q o := by
  cases o <;> simp only [bagOf, hsl, hof]

omit [DecidableEq P] in
theorem World.agrees (h : World ρ s) (hr : ρ p = some r) : Agrees s p r := by
  have := h.knows p
  rwa [hr] at this

omit [DecidableEq P] in
/-- A token that a process holds has been given out. -/
theorem World.supplied (h : World ρ s) (hr : ρ p = some r) {t : Token G} (ht : t ∈ r.bag) : 0 < supply s t := by
  have hle : (bagOf s p (ρ p)).count t ≤ ∑ q, (bagOf s q (ρ q)).count t :=
    Finset.single_le_sum (f := fun q => (bagOf s q (ρ q)).count t) (fun _ _ => Nat.zero_le _) (Finset.mem_univ p)
  have hb : bagOf s p (ρ p) = r.bag := by rw [hr]; rfl
  have hpos := Multiset.count_pos.2 ht
  rw [hb] at hle
  rw [h.balance t]
  omega

omit [DecidableEq G] [Fintype P] [DecidableEq P] in
/-- The state of the slot `x` changes, which is the process itself, its child or nobody's child:
    the others do not notice. -/
theorem Knows.keep {q x : P} (h : Knows s q (ρ q)) (hqx : q ≠ x) (hx : s.slot x ≠ .embryo q)
    (hsl : ∀ y, y ≠ x → s'.slot y = s.slot y) (hof : ∀ y, y ≠ x → s'.ofile y = s.ofile y)
    (hbe : ∀ y, y ≠ x → s'.before y = s.before y) (hre : ∀ y, y ≠ x → s'.result y = s.result y) : Knows s' q (ρ q) := by
  cases ho : ρ q with
  | some r =>
    rw [ho] at h
    refine ⟨by rw [hsl q hqx]; exact h.slot, by rw [hof q hqx]; exact h.ofile, by rw [hbe q hqx]; exact h.before,
      by rw [hre q hqx]; exact h.result, fun c t hc => ?_⟩
    have hcx : c ≠ x := fun e => hx (e ▸ (h.child c t hc).1)
    rw [hsl c hcx, hof c hcx]
    exact h.child c t hc
  | none =>
    rw [ho] at h
    exact ⟨by rw [hsl q hqx, hof q hqx, hbe q hqx, hre q hqx]; exact h.failed, by rw [hsl q hqx, hof q hqx]; exact h.empty⟩

variable {o : Option (Res P G)}

omit [DecidableEq G] [Fintype P] [DecidableEq P] in
theorem Knows.congr {q : P} (h : Knows s q o) (hsl : s'.slot = s.slot) (hof : s'.ofile = s.ofile)
    (hbe : s'.before = s.before) (hre : s'.result = s.result) : Knows s' q o := by
  cases o with
  | some r => exact ⟨hsl ▸ h.slot, hof ▸ h.ofile, hbe ▸ h.before, hre ▸ h.result, hsl ▸ hof ▸ h.child⟩
  | none => exact ⟨by rw [hsl, hof, hbe, hre]; exact h.failed, by rw [hsl, hof]; exact h.empty⟩

omit [DecidableEq P] in
theorem World.embryo_of (h : World ρ s) (hr : ρ p = some r) (c : P) (hc : s.slot c = .embryo p) : ∃ t, r.child = some (c, t) := by
  obtain ⟨r', t, hr', ht⟩ := h.embryo c p hc
  obtain rfl : r = r' := Option.some.inj (hr.symm.trans hr')
  exact ⟨t, ht⟩

/-- A section of code trades tokens with the process that runs it; the tables of descriptors
    and the slots stay. -/
theorem World.trade (h : World ρ s) (hr : ρ p = some r) {give get : Multiset (Token G)} (ht : Trade s s' give get) (hg : give ≤ r.bag)
    (hnew : ∀ f, (s'.file f).type = .none → (s'.file f).ref ≤ 1) (htyped : ∀ f, (s'.file f).type ≠ .none → 0 < (s'.file f).ref)
    (hof : s'.ofile = s.ofile) (hsl : s'.slot = s.slot) (hbe : s'.before = s.before) (hre : s'.result = s.result) :
    World (update ρ p (some (r.trade give get))) s' := by
  refine ⟨fun t => ?_, hnew, htyped, fun q => ?_, fun c q hc => ?_⟩
  · have hsum := sum_change (p := p) (F := fun q => (bagOf s' q (update ρ p (some (r.trade give get)) q)).count t)
      (G := fun q => (bagOf s q (ρ q)).count t) fun q hne => by
        rw [update_of_ne hne, bagOf_congr (congrFun hsl q) (congrFun hof q)]
    have hp : (bagOf s p (ρ p)).count t = r.bag.count t := by rw [hr]; rfl
    have hp' : (r.trade give get).bag.count t + give.count t = r.bag.count t + get.count t := by
      have := Multiset.count_le_of_le t hg
      simp only [Res.trade, Multiset.count_add, Multiset.count_sub]
      omega
    have h1 := ht t
    have h2 := h.balance t
    simp only [update_self, bagOf_some] at hsum
    omega
  · by_cases e : q = p
    · subst e
      have ha := h.agrees hr
      rw [update_self]
      exact Knows.congr (o := some (r.trade give get)) ⟨ha.slot, ha.ofile, ha.before, ha.result, ha.child⟩ hsl hof hbe hre
    · rw [update_of_ne e]
      exact (h.knows q).congr hsl hof hbe hre
  · rw [hsl] at hc
    by_cases e : q = p
    · subst e
      obtain ⟨t, ht⟩ := h.embryo_of hr c hc
      exact ⟨_, t, update_self .., ht⟩
    · rw [update_of_ne e]
      exact h.embryo c q hc

/-- Only tables of descriptors and slots change. -/
theorem World.move (h : World ρ s) (hf : s'.file = s.file) (hp : s'.pipe = s.pipe)
    (hsum : ∀ t, ∑ q, (bagOf s' q (update ρ p o q)).count t = ∑ q, (bagOf s q (ρ q)).count t)
    (hk : Knows s' p o) (hks : ∀ q, q ≠ p → Knows s' q (ρ q))
    (he : ∀ c, s'.slot c = .embryo p → ∃ r t, o = some r ∧ r.child = some (c, t))
    (heq : ∀ c q, q ≠ p → s'.slot c = .embryo q → s.slot c = .embryo q) : World (update ρ p o) s' := by
  refine ⟨fun t => ?_, by rw [hf]; exact h.new, by rw [hf]; exact h.typed, fun q => ?_, fun c q hc => ?_⟩
  · have hsu : supply s' t = supply s t := by cases t <;> simp only [supply, hf, hp]
    have hst : stored s' t = stored s t := by cases t <;> simp only [stored, hf]
    rw [hsu, hst, hsum]
    exact h.balance t
  · by_cases e : q = p
    · subst e; rw [update_self]; exact hk
    · rw [update_of_ne e]; exact hks q e
  · by_cases e : q = p
    · subst e; rw [update_self]; exact he c hc
    · rw [update_of_ne e]; exact h.embryo c q (heq c q e hc)

/-- Only what belongs to the process itself changes. -/
theorem World.own (h : World ρ s) (hf : s'.file = s.file) (hp : s'.pipe = s.pipe) (hs : s.slot p = .running)
    (hsl : ∀ y, y ≠ p → s'.slot y = s.slot y) (hof : ∀ y, y ≠ p → s'.ofile y = s.ofile y)
    (hbe : ∀ y, y ≠ p → s'.before y = s.before y) (hre : ∀ y, y ≠ p → s'.result y = s.result y)
    (hs' : ∀ q, s'.slot p ≠ .embryo q) (hb : bagOf s' p o = bagOf s p (ρ p)) (hk : Knows s' p o)
    (he : ∀ c, s.slot c = .embryo p → ∃ r t, o = some r ∧ r.child = some (c, t)) : World (update ρ p o) s' := by
  have hemb : ∀ c q, s'.slot c = .embryo q → s.slot c = .embryo q := fun c q hc => by
    rwa [← hsl c fun e => hs' q (e ▸ hc)]
  refine h.move hf hp (fun t => Finset.sum_congr rfl fun q _ => ?_) hk (fun q e => ?_) (fun c hc => he c (hemb c p hc))
    fun c q _ => hemb c q
  · by_cases e : q = p
    · subst e; rw [update_self, hb]
    · rw [update_of_ne e, bagOf_congr (hsl q e) (hof q e)]
  · exact (h.knows q).keep e (by simp [hs]) hsl hof hbe hre

/-- The descriptors of the process change. -/
theorem World.setFd (h : World ρ s) (hr : ρ p = some r) (fd : Fin nofile) (x : Option (Fin nfile)) :
    World (update ρ p (some { r with ofile := update r.ofile fd x })) (setFd s p fd x) := by
  have ha := h.agrees hr
  have hof : ∀ y, y ≠ p → (Ftable.setFd s p fd x).ofile y = s.ofile y := fun y hy => update_of_ne hy _ _
  refine h.own rfl rfl ha.slot (fun _ _ => rfl) hof (fun _ _ => rfl) (fun _ _ => rfl) (fun q => by simp [Ftable.setFd, ha.slot])
    (by rw [hr]; rfl) ⟨ha.slot, ?_, ha.before, ha.result, fun c t hc => ?_⟩ fun c hc => ?_
  · simp only [Ftable.setFd, update_self, ha.ofile]
  · obtain ⟨h1, h2⟩ := ha.child c t hc
    rw [hof c fun e => by rw [e, ha.slot] at h1; cases h1]
    exact ⟨h1, h2⟩
  · obtain ⟨t, ht⟩ := h.embryo_of hr c hc
    exact ⟨_, t, rfl, ht⟩

theorem World.enter (h : World ρ s) (hr : ρ p = none) (hs : s.slot p = .running) :
    World (update ρ p (some (Res.start (s.ofile p))))
      { s with before := update s.before p (s.ofile p), result := update s.result p none } := by
  refine h.own rfl rfl hs (fun _ _ => rfl) (fun _ _ => rfl) (fun y hy => update_of_ne hy _ _)
    (fun y hy => update_of_ne hy _ _) (by simp [hs]) (by rw [hr]; simp only [bagOf, Res.start, hs])
    ⟨hs, rfl, update_self .., update_self .., fun _ _ hc => nomatch hc⟩ fun c hc => ?_
  obtain ⟨r, t, hr', _⟩ := h.embryo c p hc
  rw [hr] at hr'
  cases hr'

theorem World.leave (h : World ρ s) (hr : ρ p = some r) (v : Int) (hb : r.bag = tokens r.ofile) (hch : r.child = none)
    (hv : v = -1 → r.ofile = r.before) :
    World (update ρ p none) { s with result := update s.result p (some v) } := by
  have ha := h.agrees hr
  refine h.own rfl rfl ha.slot (fun _ _ => rfl) (fun _ _ => rfl) (fun _ _ => rfl) (fun y hy => update_of_ne hy _ _)
    (by simp [ha.slot]) (by rw [hr]; simp only [bagOf, ha.slot, hb, ha.ofile]) ⟨fun _ hm => ?_, fun hm => ?_⟩ fun c hc => ?_
  · simp only [update_self, Option.some.injEq] at hm
    show s.ofile p = s.before p
    rw [ha.ofile, ha.before]
    exact hv hm
  · rcases hm with hm | hm <;> exact nomatch ha.slot.symm.trans hm
  · obtain ⟨t, ht⟩ := h.embryo_of hr c hc
    rw [hch] at ht
    cases ht

theorem World.zombie (h : World ρ s) (hr : ρ p = some r) (hb : r.bag = 0) (hch : r.child = none) (ho : r.ofile = fun _ => none) :
    World (update ρ p none) (setSlot s p .zombie) := by
  have ha := h.agrees hr
  refine h.own rfl rfl ha.slot (fun y hy => update_of_ne hy _ _) (fun _ _ => rfl) (fun _ _ => rfl) (fun _ _ => rfl)
    (by simp [setSlot]) (by rw [hr]; simp only [bagOf, hb, setSlot, update_self])
    ⟨fun hm => by simp [setSlot] at hm, fun _ => ha.ofile.trans ho⟩ fun c hc => ?_
  obtain ⟨t, ht⟩ := h.embryo_of hr c hc
  rw [hch] at ht
  cases ht

omit [DecidableEq P] in
theorem World.between (h : World ρ s) {c : P} (hs : s.slot c ≠ .running) : ρ c = none := by
  have hk := h.knows c
  cases ho : ρ c with
  | none => rfl
  | some r => rw [ho] at hk; exact absurd hk.slot hs

omit [DecidableEq G] [Fintype P] [DecidableEq P] in
theorem bagOf_idle {q : P} (h : s.slot q ≠ .running) : bagOf s q none = 0 := by
  grind [bagOf]

/-- A slot without a process changes, the child of the process or nobody's. -/
theorem World.child (h : World ρ s) (hr : ρ p = some r) {c : P} {ch : Option (P × Fds)} (hs : s.slot c ≠ .running)
    (hs' : s'.slot c ≠ .running) (hx : ∀ q, s.slot c = .embryo q → q = p) (hf : s'.file = s.file) (hpi : s'.pipe = s.pipe)
    (hsl : ∀ y, y ≠ c → s'.slot y = s.slot y) (hof : ∀ y, y ≠ c → s'.ofile y = s.ofile y)
    (hbe : s'.before = s.before) (hre : s'.result = s.result)
    (hx' : ∀ q, s'.slot c = .embryo q → q = p) (hch : ∀ c' t, ch = some (c', t) → s'.slot c' = .embryo p ∧ s'.ofile c' = t)
    (hch' : ∀ c', s'.slot c' = .embryo p → ∃ t, ch = some (c', t)) (he : s'.slot c = .unused ∨ s'.slot c = .zombie → s'.ofile c = fun _ => none) :
    World (update ρ p (some { r with child := ch })) s' := by
  have ha := h.agrees hr
  have hc := h.between hs
  have hpc : p ≠ c := fun e => hs (e ▸ ha.slot)
  refine h.move hf hpi (fun t => Finset.sum_congr rfl fun q _ => ?_)
    ⟨(hsl p hpc).trans ha.slot, (hof p hpc).trans ha.ofile, hbe ▸ ha.before, hre ▸ ha.result, hch⟩ (fun q e => ?_) (fun c' hc' => ?_)
    fun c' q hq hc' => ?_
  · by_cases e : q = p
    · subst e; rw [update_self, hr]; rfl
    · rw [update_of_ne e]
      by_cases ec : q = c
      · subst ec; rw [hc, bagOf_idle hs', bagOf_idle hs]
      · rw [bagOf_congr (hsl q ec) (hof q ec)]
  · by_cases ec : q = c
    · subst ec
      rw [hc]
      exact ⟨fun hm => absurd hm hs', he⟩
    · exact (h.knows q).keep ec (fun hq => e (hx q hq)) hsl hof (fun _ _ => by rw [hbe]) fun _ _ => by rw [hre]
  · obtain ⟨t, ht⟩ := hch' c' hc'
    exact ⟨_, t, rfl, ht⟩
  · grind

theorem World.reslot (h : World ρ s) (hr : ρ p = some r) {c : P} {ch : Option (P × Fds)} {x : Slot P} (hs : s.slot c ≠ .running)
    (hne : x ≠ .running) (hx : ∀ q, s.slot c = .embryo q → q = p) (hx' : ∀ q, x = .embryo q → q = p)
    (hch : ∀ c' t, ch = some (c', t) → (if c' = c then x else s.slot c') = .embryo p ∧ s.ofile c' = t)
    (hch' : ∀ c', (if c' = c then x else s.slot c') = .embryo p → ∃ t, ch = some (c', t))
    (he : x = .unused ∨ x = .zombie → s.ofile c = fun _ => none) :
    World (update ρ p (some { r with child := ch })) (setSlot s c x) := by
  have hself : (setSlot s c x).slot c = x := update_self ..
  have hslot : ∀ c', (setSlot s c x).slot c' = if c' = c then x else s.slot c' := fun c' => update_apply ..
  exact h.child hr hs (by rw [hself]; exact hne) hx rfl rfl (fun y hy => update_of_ne hy _ _) (fun _ _ => rfl) rfl rfl
    (by rw [hself]; exact hx') (fun c' t hc => by rw [hslot]; exact hch c' t hc) (fun c' hc => hch' c' (by rwa [hslot] at hc))
    (by rw [hself]; exact he)

theorem World.childFd (h : World ρ s) (hr : ρ p = some r) {c : P} {t : Fds} (hc : r.child = some (c, t)) {fd : Fin nofile}
    {f : Fin nfile} :
    World (update ρ p (some { r with child := some (c, update t fd (some f)) })) (Ftable.setFd s c fd (some f)) := by
  obtain ⟨hq, hof⟩ := (h.agrees hr).child c t hc
  have hq' : (Ftable.setFd s c fd (some f)).slot c = .embryo p := hq
  refine h.child hr (by simp [hq]) (by simp [hq']) (by simp [hq]) rfl rfl (fun _ _ => rfl)
    (fun y hy => update_of_ne hy _ _) rfl rfl (by simp [hq']) (fun c' t' hc' => ?_) (fun c' hc' => ?_) (by simp [hq'])
  · cases hc'
    refine ⟨hq, ?_⟩
    simp only [Ftable.setFd, update_self, hof]
  · obtain ⟨t', ht⟩ := h.embryo_of hr c' hc'
    rw [hc] at ht
    cases ht
    exact ⟨_, rfl⟩

/-- The child gets the tokens of its descriptors and runs. -/
theorem World.spawn (h : World ρ s) (hr : ρ p = some r) {c : P} {t : Fds} {r' : Res P G} (hc : r.child = some (c, t)) (hb : tokens t ≤ r.bag)
    (hf : s'.file = s.file) (hpi : s'.pipe = s.pipe) (hs : s'.slot = update s.slot c .running) (hof : s'.ofile = s.ofile)
    (hbe : s'.before = s.before) (hre : s'.result = update s.result c none)
    (hr' : r'.bag = r.bag - tokens t ∧ r'.ofile = r.ofile ∧ r'.before = r.before ∧ r'.child = none) :
    World (update ρ p (some r')) s' := by
  have ha := h.agrees hr
  obtain ⟨hslot, hfds⟩ := ha.child c t hc
  have hrun : s.slot c ≠ .running := by simp [hslot]
  have hnone := h.between hrun
  have hpc : p ≠ c := fun e => hrun (e ▸ ha.slot)
  have hsl : ∀ y, y ≠ c → s'.slot y = s.slot y := fun y hy => by rw [hs, update_of_ne hy]
  have hrun' : s'.slot c = .running := by rw [hs, update_self]
  have hres : ∀ y, y ≠ c → s'.result y = s.result y := fun y hy => by rw [hre, update_of_ne hy]
  have hemb : ∀ c' q, s'.slot c' = .embryo q → s.slot c' = .embryo q := fun c' q hc' => by
    rwa [← hsl c' fun e => by rw [e, hrun'] at hc'; cases hc']
  refine h.move hf hpi (fun k => ?_)
    ⟨(hsl p hpc).trans ha.slot, by rw [hof, hr'.2.1]; exact ha.ofile, by rw [hbe, hr'.2.2.1]; exact ha.before,
      (hres p hpc).trans ha.result, fun c t hc => by rw [hr'.2.2.2] at hc; cases hc⟩
    (fun q e => ?_) (fun c' hc' => ?_) fun c' q _ hc' => hemb c' q hc'
  · have hsum := sum_change₂ (F := fun q => (bagOf s' q (update ρ p (some r') q)).count k)
      (G := fun q => (bagOf s q (ρ q)).count k) hpc fun q hp hq => by
        rw [update_of_ne hp, bagOf_congr (hsl q hq) (congrFun hof q)]
    have h1 : (bagOf s p (ρ p)).count k = r.bag.count k := by rw [hr]; rfl
    have h2 : (bagOf s c (ρ c)).count k = 0 := by rw [hnone, bagOf_idle hrun]; rfl
    have h3 : (bagOf s' c (ρ c)).count k = (tokens t).count k := by
      rw [hnone]
      simp only [bagOf, hrun', hof, hfds]
    have h4 : r'.bag.count k + (tokens t).count k = r.bag.count k := by
      have := Multiset.count_le_of_le k hb
      rw [hr'.1, Multiset.count_sub]
      omega
    simp only [update_self, update_of_ne hpc.symm, bagOf_some, h1, h2, h3] at hsum
    omega
  · by_cases ec : q = c
    · subst ec
      rw [hnone]
      exact ⟨fun _ hm => by simp [hre] at hm, fun hm => by simp [hrun'] at hm⟩
    · exact (h.knows q).keep ec (by rw [hslot]; exact fun e' => e (Slot.embryo.inj e').symm) hsl (fun _ _ => by rw [hof])
        (fun _ _ => by rw [hbe]) hres
  · obtain ⟨t', ht⟩ := h.embryo_of hr c' (hemb c' p hc')
    rw [hc] at ht
    cases ht
    rw [hrun'] at hc'
    cases hc'

/-! ## What each action needs and makes of a process -/

def needs (r : Res P G) : (a : Act P G) → (a.Res → Option (Res P G) → Prop) → Prop
  | .enter, _ => False
  | .leave v, Q => r.bag = tokens r.ofile ∧ r.child = none ∧ (v = -1 → r.ofile = r.before) ∧ Q () none
  | .filealloc, Q => Q none (some r) ∧ ∀ f, Q (some f) (some (r.trade 0 {.new f}))
  | .filedup f, Q => .file f ∈ r.bag ∧ Q () (some (r.trade 0 {.file f}))
  | .fileclose f, Q =>
    (.file f ∈ r.bag ∧ Q none (some (r.trade {.file f} 0)) ∧ ∀ ff, Q (some ff) (some (r.trade {.file f} ff.sides))) ∨
    (.new f ∈ r.bag ∧ ∀ ff, ff.type = .none → Q (some ff) (some (r.trade {.new f} 0)))
  | .pipeclose g w, Q => .side g w ∈ r.bag ∧ Q false (some (r.trade {.side g w} 0)) ∧ Q true (some (r.trade {.side g w} {.page g}))
  | .kalloc _, Q => Q none (some r) ∧ ∀ g, Q (some g) (some (r.trade 0 {.page g}))
  | .kfree g, Q => .page g ∈ r.bag ∧ Q () (some (r.trade {.page g} 0))
  | .initpipe g, Q => .page g ∈ r.bag ∧ Q () (some (r.trade {.page g} ({.side g false} + {.side g true})))
  | .setfile f type readable w, Q => type ≠ .none ∧ {.new f} + File.sides ⟨1, type, readable, w⟩ ≤ r.bag ∧
      Q () (some (r.trade ({.new f} + File.sides ⟨1, type, readable, w⟩) {.file f}))
  | .ofile fd, Q => Q (r.ofile fd) (some r)
  | .fdalloc f, Q => Q none (some r) ∧ ∀ fd, r.ofile fd = none → Q (some fd) (some { r with ofile := Function.update r.ofile fd (some f) })
  | .clearfd fd, Q => Q () (some { r with ofile := Function.update r.ofile fd none })
  | .allocproc q, Q => r.child = none ∧ Q false (some r) ∧ Q true (some { r with child := some (q, fun _ => none) })
  | .freeproc q, Q => r.child = some (q, fun _ => none) ∧ Q () (some { r with child := none })
  | .childfd q fd f, Q => ∃ t, r.child = some (q, t) ∧ Q () (some { r with child := some (q, Function.update t fd (some f)) })
  | .spawn q, Q => ∃ t, r.child = some (q, t) ∧ tokens t ≤ r.bag ∧ Q () (some { r.trade (tokens t) 0 with child := none })
  | .isInit, Q => Q false (some r) ∧ Q true (some r)
  | .zombie, Q => r.bag = 0 ∧ r.child = none ∧ r.ofile = (fun _ => none) ∧ Q () none
  | .reap _, Q => Q false (some r) ∧ Q true (some r)
  | .panic m, _ => m = .initExiting

def spec (_ : P) (a : Act P G) (o : Option (Res P G)) (Q : a.Res → Option (Res P G) → Prop) : Prop :=
  match o, a, Q with
  | some r, a, Q => needs r a Q
  | none, .enter, Q => Q false none ∧ ∀ t, Q true (some (Res.start t))
  | none, _, _ => False

/-- What does not happen: a reference that nobody holds is used, or a free page. -/
def Bad (m : Panic) : Prop := m ≠ .initExiting

omit [Fintype P] [DecidableEq P] in
theorem spec_mono : Monotone (spec (P := P) (G := G)) := by
  intro p a o Q Q' h hs
  cases o with
  | none => cases a <;> simp only [spec] at hs ⊢; grind
  | some r =>
    have hs : needs r a Q := hs
    show needs r a Q'
    cases a <;> simp only [needs] at hs ⊢ <;> grind

/-! ## The actions keep the books -/

section Holding

variable {f : Fin nfile} {g : G} {w : Bool}

omit [DecidableEq P] in
theorem World.of_file (h : World ρ s) (hr : ρ p = some r) (ht : .file f ∈ r.bag) : (s.file f).type ≠ .none ∧ 0 < (s.file f).ref := by
  have := h.supplied hr ht
  simp only [supply] at this
  split at this
  · cases this
  · exact ⟨‹_›, this⟩

omit [DecidableEq P] in
theorem World.of_new (h : World ρ s) (hr : ρ p = some r) (ht : .new f ∈ r.bag) : (s.file f).type = .none ∧ (s.file f).ref = 1 := by
  have := h.supplied hr ht
  simp only [supply] at this
  split at this
  · exact ⟨‹_›, Nat.le_antisymm (h.new f ‹_›) this⟩
  · cases this

omit [DecidableEq P] in
theorem World.of_side (h : World ρ s) (hr : ρ p = some r) (ht : .side g w ∈ r.bag) : ∃ x, s.pipe g = some x ∧ x.isOpen w = true := by
  have := h.supplied hr ht
  simp only [supply] at this
  split at this
  · rename_i x hx
    refine ⟨x, hx, ?_⟩
    cases ho : x.isOpen w with
    | true => rfl
    | false => rw [ho] at this; cases this
  · cases this

omit [DecidableEq P] in
theorem World.of_page (h : World ρ s) (hr : ρ p = some r) (ht : .page g ∈ r.bag) : s.pipe g = some ⟨false, false⟩ := by
  have := h.supplied hr ht
  simp only [supply] at this
  split at this
  · assumption
  · cases this

/-- Nothing changes. -/
theorem World.same (h : World ρ s) (hr : ρ p = some r) : World (update ρ p (some r)) s := by
  rw [← hr, update_eq_self]
  exact h

/-- A section that changes one file. -/
theorem World.setFile (h : World ρ s) (hr : ρ p = some r) {x : File G} {give get : Multiset (Token G)}
    (ht : Trade s (setFile s f x) give get) (hg : give ≤ r.bag) (hn : x.type = .none → x.ref ≤ 1) (hty : x.type ≠ .none → 0 < x.ref) :
    World (update ρ p (some (r.trade give get))) (setFile s f x) := by
  refine h.trade hr ht hg (fun f' => ?_) (fun f' => ?_) rfl rfl rfl rfl
  · by_cases e : f' = f <;> simp_all [Ftable.setFile, h.new f']
  · by_cases e : f' = f <;> simp_all [Ftable.setFile, h.typed f']

end Holding

/-- What a process knows of the result, whatever the others do. -/
def Keeps (ρ : P → Option (Res P G)) (p : P) (a : Act P G) (s : St P G) (Q : a.Res → Option (Res P G) → Prop) : Prop :=
  (∀ x s', exec p a s = .ok (x, s') → ∃ o, Q x o ∧ World (Function.update ρ p o) s') ∧ ∀ e, exec p a s = .fail e → ¬ Bad e

theorem Keeps.ok {a : Act P G} {Q : a.Res → Option (Res P G) → Prop} {x : a.Res} (he : exec p a s = .ok (x, s'))
    (hq : Q x o) (hw : World (update ρ p o) s') : Keeps ρ p a s Q := by
  refine ⟨fun y t hy => ?_, fun e hf => ?_⟩
  · rw [he] at hy
    cases hy
    exact ⟨o, hq, hw⟩
  · rw [he] at hf
    cases hf

theorem keeps_fileclose (h : World ρ s) (hr : ρ p = some r) {f : Fin nfile} {Q : (Act.fileclose (P := P) (G := G) f).Res → Option (Res P G) → Prop}
    (hs : needs r (.fileclose f) Q) : Keeps ρ p (.fileclose f) s Q := by
  rcases hs with ⟨hf, h1, h2⟩ | ⟨hf, h2⟩
  · obtain ⟨hty, hpos⟩ := h.of_file hr hf
    by_cases hl : 0 < (s.file f).ref - 1
    · exact .ok (by rw [exec, if_neg (by omega), if_pos hl]) h1
        (h.setFile hr (trade_unref hty hpos) (Multiset.singleton_le.2 hf) (fun e => absurd e hty) fun _ => hl)
    · exact .ok (by rw [exec, if_neg (by omega), if_neg hl]) (h2 _)
        (h.setFile hr (trade_close hty (by omega)) (Multiset.singleton_le.2 hf) (fun _ => Nat.zero_le 1) fun e => absurd rfl e)
  · obtain ⟨hty, hone⟩ := h.of_new hr hf
    exact .ok (by rw [exec, if_neg (by omega), if_neg (by omega)]) (h2 _ hty)
      (h.setFile hr (trade_closeNew hty hone) (Multiset.singleton_le.2 hf) (fun _ => Nat.zero_le 1) fun e => absurd rfl e)

theorem keeps_of_needs (h : World ρ s) (hr : ρ p = some r) (a : Act P G) {Q : a.Res → Option (Res P G) → Prop} (hs : needs r a Q) :
    Keeps ρ p a s Q := by
  have ha := h.agrees hr
  cases a with
  | enter => exact hs.elim
  | leave v => exact .ok rfl hs.2.2.2 (h.leave hr v hs.1 hs.2.1 hs.2.2.1)
  | filealloc =>
    cases hfind : (List.finRange nfile).find? fun f => (s.file f).ref = 0 with
    | none => exact .ok (by simp only [exec, hfind]) hs.1 (h.same hr)
    | some f =>
      have h0 : (s.file f).ref = 0 := by simpa using List.find?_some hfind
      have hty : (s.file f).type = .none := by
        by_contra e
        have := h.typed f e
        omega
      exact .ok (by simp only [exec, hfind]) (hs.2 f)
        (h.setFile hr (trade_filealloc h0 hty) (Multiset.zero_le _) (fun _ => Nat.le_refl 1) fun e => absurd hty e)
  | filedup f =>
    obtain ⟨hty, hpos⟩ := h.of_file hr hs.1
    exact .ok (by rw [exec, if_neg (by omega)]) hs.2
      (h.setFile hr (trade_filedup hty) (Multiset.zero_le _) (fun e => absurd e hty) fun _ => Nat.succ_pos _)
  | fileclose f => exact keeps_fileclose h hr hs
  | pipeclose g w =>
    obtain ⟨x, hx, ho⟩ := h.of_side hr hs.1
    have hw := h.trade hr (trade_pipeclose hx ho) (Multiset.singleton_le.2 hs.1) h.new h.typed rfl rfl rfl rfl
    cases hc : x.close w == ⟨false, false⟩ with
    | true => rw [hc] at hw; exact .ok (by simp only [exec, hx, hc]) hs.2.2 hw
    | false => rw [hc] at hw; exact .ok (by simp only [exec, hx, hc]) hs.2.1 hw
  | kalloc g =>
    cases g with
    | none => exact .ok rfl hs.1 (h.same hr)
    | some g =>
      by_cases hg : s.pipe g = none
      · exact .ok (by simp only [exec, hg, if_true]) (hs.2 g)
          (h.trade hr (trade_kalloc hg) (Multiset.zero_le _) h.new h.typed rfl rfl rfl rfl)
      · exact .ok (by simp only [exec, hg, if_false]) hs.1 (h.same hr)
  | kfree g =>
    have hg := h.of_page hr hs.1
    exact .ok (by simp only [exec, hg]) hs.2 (h.trade hr (trade_kfree hg) (Multiset.singleton_le.2 hs.1) h.new h.typed rfl rfl rfl rfl)
  | initpipe g =>
    have hg := h.of_page hr hs.1
    exact .ok rfl hs.2 (h.trade hr (trade_initpipe hg) (Multiset.singleton_le.2 hs.1) h.new h.typed rfl rfl rfl rfl)
  | setfile f type readable w =>
    obtain ⟨hn, hle, hq⟩ := hs
    obtain ⟨hty, hone⟩ := h.of_new hr (f := f) (Multiset.mem_of_le hle (by simp))
    exact .ok rfl hq (h.setFile hr (trade_setfile hty hone hn readable) hle (fun e => absurd e hn) fun _ => by rw [hone]; exact Nat.one_pos)
  | ofile fd => exact .ok rfl (by rw [ha.ofile]; exact hs) (h.same hr)
  | fdalloc f =>
    cases hfind : (List.finRange nofile).find? fun fd => (s.ofile p fd).isNone with
    | none => exact .ok (by simp only [exec, hfind]) hs.1 (h.same hr)
    | some fd =>
      have h0 : s.ofile p fd = none := by simpa using List.find?_some hfind
      exact .ok (by simp only [exec, hfind]) (hs.2 fd (by rw [← ha.ofile]; exact h0)) (h.setFd hr fd (some f))
  | clearfd fd => exact .ok rfl hs (h.setFd hr fd none)
  | allocproc q =>
    cases hq : s.slot q with
    | unused =>
      have hk := h.knows q
      rw [h.between (by simp [hq])] at hk
      refine .ok (by simp only [exec, hq]) hs.2.2
        (h.reslot hr (c := q) (x := .embryo p) (by simp [hq]) (fun e => nomatch e) (by simp [hq])
          (fun _ e => (Slot.embryo.inj e).symm) (fun c' t hc => by cases hc; exact ⟨if_pos rfl, hk.empty (.inl hq)⟩) (fun c' hc => ?_) (by simp))
      have := h.embryo_of hr c'
      have := hs.1
      exact ⟨fun _ => none, by grind⟩
    | _ => exact .ok (by simp only [exec, hq]) hs.2.1 (h.same hr)
  | freeproc q =>
    obtain ⟨hq, hof⟩ := ha.child q _ hs.1
    refine .ok rfl hs.2
      (h.reslot hr (c := q) (x := .unused) (by simp [hq]) (fun e => nomatch e)
        (by simp [hq]) (fun _ e => nomatch e) (fun _ _ hc => nomatch hc) (fun c' hc => ?_) fun _ => hof)
    have := h.embryo_of hr c'
    have := hs.1
    grind
  | childfd q fd f =>
    obtain ⟨t, hc, hs⟩ := hs
    obtain ⟨hq, hof⟩ := ha.child q t hc
    exact .ok rfl hs (h.childFd hr hc)
  | spawn q =>
    obtain ⟨t, hc, hb, hq⟩ := hs
    exact .ok rfl hq (h.spawn hr hc hb rfl rfl rfl rfl rfl rfl ⟨by rw [Res.trade, add_zero], rfl, rfl, rfl⟩)
  | isInit =>
    by_cases e : p = s.initproc
    · exact .ok (by rw [exec, decide_eq_true e]) hs.2 (h.same hr)
    · exact .ok (by rw [exec, decide_eq_false e]) hs.1 (h.same hr)
  | zombie => exact .ok rfl hs.2.2.2 (h.zombie hr hs.1 hs.2.1 hs.2.2.1)
  | reap q =>
    cases hq : s.slot q with
    | zombie =>
      have hk := h.knows q
      rw [h.between (by simp [hq])] at hk
      have hch : ∀ c t, r.child = some (c, t) → c ≠ q := fun c t hc e => by
        rw [← e, (ha.child c t hc).1] at hq
        cases hq
      refine .ok (by simp only [exec, hq]) hs.2
        (h.reslot hr (c := q) (x := .unused) (by simp [hq]) (fun e => nomatch e) (by simp [hq])
          (fun _ e => nomatch e) (fun c t hc => ⟨by rw [if_neg (hch c t hc)]; exact (ha.child c t hc).1, (ha.child c t hc).2⟩) (fun c' hc => ?_)
          fun _ => hk.empty (.inr hq))
      have := h.embryo_of hr c'
      grind
    | _ => exact .ok (by simp only [exec, hq]) hs.1 (h.same hr)
  | panic m => exact ⟨(fun x s' hx => nomatch hx), fun e he hb => by cases he; exact hb hs⟩

theorem ftable_sound : Sound (exec (P := P) (G := G)) spec World (fun _ _ _ => True) Bad := by
  refine ⟨spec_mono, fun ρ s p a Q hw _ hs => ?_⟩
  cases ho : ρ p with
  | some r => rw [ho] at hs; exact keeps_of_needs hw ho a hs
  | none =>
    rw [ho] at hs
    cases a with
    | enter =>
      by_cases hrun : s.slot p = .running
      · exact Keeps.ok (by simp only [exec, hrun]) (hs.2 _) (hw.enter ho hrun)
      · have he : exec p (.enter : Act P G) s = .ok (false, s) := by
          cases hq : s.slot p with
          | running => exact absurd hq hrun
          | _ => simp only [exec, hq]
        exact Keeps.ok he hs.1 (by rw [← ho, update_eq_self]; exact hw)
    | _ => exact hs.elim

end Xv6.Ftable
