/-
  Xv6.Umalloc.Heap — `umalloc.c`: `malloc` and `free` of user programs.

  The free blocks are linked through the headers in front of them into a circular list that
  also has the static header `base`. `free` looks, from the roving pointer `freep`, for the
  place of the block in address order and merges it with its neighbours; `malloc` goes round
  the list for a block that is large enough, and asks `sbrk` for more when it is back at
  `freep`. Addresses are bytes and 32 bits wide, sizes are in headers of 8 bytes.

  `sbrk` fails or gives memory that it has not given before, above `base` and below the end
  of the address space. `Tiled` is the invariant: the list is the free blocks in address
  order, no two of them adjacent, and these and the blocks in use are all of the memory from
  `sbrk`, each byte of it once.
-/

import Xv6.Lib.Seg

namespace Xv6.Umalloc

open Lib List

/-! ## `umalloc.c` -/

/-- The headers by their addresses; `mem` is the memory obtained from `sbrk`: starts and sizes. -/
structure Heap where
  ptr : Nat → Nat
  size : Nat → Nat
  freep : Nat
  mem : List (Nat × Nat)

/-- `p + n` for `Header *p`. -/
def plus (p n : Nat) : Nat := (p + 8 * n) % 2 ^ 32

/-- The loop of `free` ends at `p`, by its condition or by the `break`. -/
def stops (h : Heap) (bp p : Nat) : Bool :=
  (p < bp && bp < h.ptr p) || (h.ptr p ≤ p && (p < bp || bp < h.ptr p))

/-- `free` up to `bp + bp->s.size == p->s.ptr`: the block takes over the one above it. -/
def joinUpper (h : Heap) (bp p : Nat) : Heap :=
  if plus bp (h.size bp) = h.ptr p then
    { h with size := Function.update h.size bp ((h.size bp + h.size (h.ptr p)) % 2 ^ 32)
             ptr := Function.update h.ptr bp (h.ptr (h.ptr p)) }
  else { h with ptr := Function.update h.ptr bp (h.ptr p) }

/-- `p + p->s.size == bp`: the block below takes it over. -/
def joinLower (h : Heap) (bp p : Nat) : Heap :=
  if plus p (h.size p) = bp then
    { h with size := Function.update h.size p ((h.size p + h.size bp) % 2 ^ 32)
             ptr := Function.update h.ptr p (h.ptr bp) }
  else { h with ptr := Function.update h.ptr p bp }

def free (fuel : Nat) (h : Heap) (ap : Nat) : Option Heap :=
  let bp := ap - 8
  (walk h.ptr (stops h bp) fuel h.freep).map fun p => { joinLower (joinUpper h bp p) bp p with freep := p }

/-- `morecore`, with what `sbrk` returns; `some none` is the null pointer. -/
def morecore (fuel : Nat) (h : Heap) (nu : Nat) (sbrk : Option Nat) : Option (Option Heap) :=
  let nu := if nu < 4096 then 4096 else nu
  match sbrk with
  | none => some none
  | some hp =>
    (free fuel { h with size := Function.update h.size hp nu, mem := (hp, nu) :: h.mem } (plus hp 1)).map some

/-- `malloc` has found `p`, after `prevp`. -/
def take (h : Heap) (prevp p nunits : Nat) : Heap × Nat :=
  if h.size p = nunits then ({ h with ptr := Function.update h.ptr prevp (h.ptr p), freep := prevp }, plus p 1)
  else
    let rest := h.size p - nunits
    let q := plus p rest
    ({ h with size := Function.update (Function.update h.size p rest) q nunits, freep := prevp }, plus q 1)

/-- The loop of `malloc`; `sbrk` are the results of the calls of `sbrk` it makes. -/
def search (nunits : Nat) : Nat → Heap → Nat → Nat → List (Option Nat) → Option (Heap × Option Nat)
  | 0, _, _, _, _ => none
  | fuel + 1, h, prevp, p, sbrk =>
    if nunits ≤ h.size p then some ((take h prevp p nunits).1, some (take h prevp p nunits).2)
    else if p = h.freep then
      match morecore fuel h nunits (sbrk.headD none) with
      | none => none
      | some none => some (h, none)
      | some (some h') => search nunits fuel h' h'.freep (h'.ptr h'.freep) sbrk.tail
    else search nunits fuel h p (h.ptr p) sbrk

def nunits (nbytes : Nat) : Nat := (nbytes + 8 - 1) % 2 ^ 32 / 8 + 1

def initBase (base : Nat) (h : Heap) : Heap :=
  if h.freep = 0 then
    { h with ptr := Function.update h.ptr base base, freep := base, size := Function.update h.size base 0 }
  else h

def malloc (base fuel : Nat) (h : Heap) (nbytes : Nat) (sbrk : List (Option Nat)) : Option (Heap × Option Nat) :=
  let h := initBase base h
  search (nunits nbytes) fuel h h.freep (h.ptr h.freep) sbrk

/-! ## Runs -/

/-- The heap and the headers of the blocks in use. -/
structure State where
  heap : Heap
  live : List Nat

inductive Op where
  | malloc (nbytes : Nat) (sbrk : List (Option Nat))
  | free (ap : Nat)

def call (base fuel : Nat) (s : State) : Op → Option (State × Option Nat)
  | .malloc nbytes sbrk => (malloc base fuel s.heap nbytes sbrk).map fun (h, r) =>
      (⟨h, match r with | some p => (p - 8) :: s.live | none => s.live⟩, r)
  | .free ap => (free fuel s.heap ap).map fun h => (⟨h, s.live.erase (ap - 8)⟩, none)

/-- `nu` headers from `a` are memory that `sbrk` can give. -/
structure Fresh (base : Nat) (mem : List (Nat × Nat)) (a nu : Nat) : Prop where
  above : base + 8 < a
  below : a + 8 * nu < 2 ^ 32
  new : ∀ r ∈ mem, a + 8 * nu ≤ r.1 ∨ r.1 + 8 * r.2 ≤ a

def Allowed (base : Nat) (s : State) : Op → Prop
  | .malloc nbytes sbrk => nbytes ≤ 2 ^ 30 ∧
      ∀ a, sbrk.headD none = some a → Fresh base s.heap.mem a (if nunits nbytes < 4096 then 4096 else nunits nbytes)
  | .free ap => ∃ b ∈ s.live, ap = b + 8

inductive Reach (base : Nat) : State → Prop where
  | boot (ptr size : Nat → Nat) : Reach base ⟨⟨ptr, size, 0, []⟩, []⟩
  | call {s s' : State} {op : Op} {fuel : Nat} {r : Option Nat} :
      Reach base s → Allowed base s op → call base fuel s op = some (s', r) → Reach base s'

/-! ## Blocks -/

/-- How many of the blocks the byte `x` is in. -/
def cover (size : Nat → Nat) (l : List Nat) (x : Nat) : Nat := l.countP fun b => b ≤ x && x < b + 8 * size b

/-- How many of the pieces from `sbrk` the byte `x` is in. -/
def given (mem : List (Nat × Nat)) (x : Nat) : Nat := mem.countP fun r => r.1 ≤ x && x < r.1 + 8 * r.2

/-- The memory from `sbrk` is apart from `base`, the end of the address space and itself. -/
structure Memory (base : Nat) (mem : List (Nat × Nat)) : Prop where
  above : ∀ r ∈ mem, base + 8 < r.1
  below : ∀ r ∈ mem, r.1 + 8 * r.2 < 2 ^ 32
  once : ∀ x, given mem x ≤ 1

/-- The free blocks are those of the list, in address order with room between them, and with
    the blocks in use they are all of the memory. -/
structure Tiled (base : Nat) (h : Heap) (live L : List Nat) : Prop where
  mem : Memory base h.mem
  ring : Seg (link h.ptr) (some base) (base :: L) (some base)
  gaps : (base :: L).Pairwise fun a b => a + 8 * h.size a < b
  zero : h.size base = 0
  pos : ∀ b ∈ L ++ live, 0 < h.size b
  tiles : ∀ x, cover h.size (L ++ live) x = given h.mem x
  freep : h.freep ∈ base :: L

theorem cover_congr {size size' : Nat → Nat} {l : List Nat} (h : ∀ b ∈ l, size' b = size b) (x : Nat) : cover size' l x = cover size l x :=
  countP_congr fun b hb => by rw [h b hb]

theorem cover_append (size : Nat → Nat) (l m : List Nat) (x : Nat) : cover size (l ++ m) x = cover size l x + cover size m x :=
  countP_append ..

theorem cover_nil (size : Nat → Nat) (x : Nat) : cover size [] x = 0 := rfl

theorem cover_cons (size : Nat → Nat) (b : Nat) (l : List Nat) (x : Nat) :
    cover size (b :: l) x = cover size l x + if b ≤ x ∧ x < b + 8 * size b then 1 else 0 := by
  rw [cover, countP_cons]
  simp [cover]

theorem cover_perm {size : Nat → Nat} {l m : List Nat} (h : l.Perm m) (x : Nat) : cover size l x = cover size m x := h.countP_eq _

section Tiled

variable {base : Nat} {h : Heap} {live L : List Nat} {a b : Nat}

theorem Tiled.cover_le (ht : Tiled base h live L) (x : Nat) : cover h.size (L ++ live) x ≤ 1 := by
  rw [ht.tiles]
  exact ht.mem.once x

/-- A block lies within the memory. -/
theorem Tiled.bounds (ht : Tiled base h live L) (hb : b ∈ L ++ live) : base + 8 < b ∧ b + 8 * h.size b < 2 ^ 32 := by
  have hpos := ht.pos b hb
  have hin : ∀ x, b ≤ x → x < b + 8 * h.size b → ∃ r ∈ h.mem, r.1 ≤ x ∧ x < r.1 + 8 * r.2 := by
    intro x h1 h2
    have : 0 < given h.mem x := by
      rw [← ht.tiles]
      exact countP_pos_iff.2 ⟨b, hb, by simp [h1, h2]⟩
    obtain ⟨r, hr, hx⟩ := countP_pos_iff.1 this
    exact ⟨r, hr, by simpa using hx⟩
  obtain ⟨r, hr, h1, _⟩ := hin b (Nat.le_refl b) (by omega)
  obtain ⟨r', hr', _, h2⟩ := hin (b + 8 * h.size b - 1) (by omega) (by omega)
  have := ht.mem.above r hr
  have := ht.mem.below r' hr'
  omega

theorem Tiled.nodup (ht : Tiled base h live L) : (L ++ live).Nodup := by
  rw [nodup_iff_count_le_one]
  intro b
  by_cases hb : b ∈ L ++ live
  · have hpos := ht.pos b hb
    refine Nat.le_trans ?_ (ht.cover_le b)
    rw [count, cover]
    refine countP_mono_left fun c _ hc => ?_
    have : c = b := by simpa using hc
    subst this
    simp
    omega
  · rw [count_eq_zero_of_not_mem hb]
    exact Nat.zero_le 1

/-- Of two blocks one ends before the other starts. -/
theorem Tiled.apart (ht : Tiled base h live L) (ha : a ∈ L ++ live) (hb : b ∈ L ++ live) (hlt : a < b) : a + 8 * h.size a ≤ b := by
  by_contra hn
  have hpos := ht.pos b hb
  have hle := ht.cover_le b
  obtain ⟨l₁, l₂, he⟩ := append_of_mem ha
  have hp : (L ++ live).Perm (a :: (l₁ ++ l₂)) := by rw [he]; exact perm_middle
  have hb' : b ∈ l₁ ++ l₂ := by
    have := hp.subset hb
    exact (mem_cons.1 this).resolve_left (by omega)
  have h1 : 0 < cover h.size (l₁ ++ l₂) b := countP_pos_iff.2 ⟨b, hb', by simp; omega⟩
  rw [cover_perm hp, cover_cons, if_pos ⟨by omega, by omega⟩] at hle
  omega

end Tiled

end Xv6.Umalloc
