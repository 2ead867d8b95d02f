/-
  Xv6.Lib.Seg — singly linked lists.

  `next` is the link field of all nodes, `none` the null pointer. `Seg next o l e` says that
  from the pointer `o` the links visit exactly the nodes of `l`, in order, and end at `e`: the
  whole list for `e = none`, one round of a circular list for `e = o`. `last next fuel a` is
  the loop that follows the links from `a` to the node whose link is null.

  A circular list has no null links: its links are `link next` for a total `next`. It can be
  read from any of its nodes (`Seg.rotate`), no two nodes have the same successor
  (`Seg.next_inj`), and `walk next stop fuel p` is the loop that goes round it until `stop`.
-/

import Mathlib

namespace Xv6.Lib

open List

variable {N : Type} {next : N → Option N}

def Seg (next : N → Option N) : Option N → List N → Option N → Prop
  | o, [], e => o = e
  | o, a :: l, e => o = some a ∧ Seg next (next a) l e

namespace Seg

variable {e o : Option N}

@[simp]
theorem nil_iff : Seg next o [] e ↔ o = e := Iff.rfl

@[simp]
theorem cons_iff {a : N} {l : List N} : Seg next o (a :: l) e ↔ o = some a ∧ Seg next (next a) l e := Iff.rfl

theorem congr {next' : N → Option N} {l : List N} (h : ∀ a ∈ l, next' a = next a) :
    Seg next' o l e ↔ Seg next o l e := by
  induction l generalizing o with
  | nil => exact Iff.rfl
  | cons a l ih =>
    rw [cons_iff, cons_iff, h a mem_cons_self, ih fun b hb => h b (mem_cons_of_mem a hb)]

theorem update [DecidableEq N] {x : Option N} {l : List N} {a : N} (h : a ∉ l) :
    Seg (Function.update next a x) o l e ↔ Seg next o l e :=
  congr fun b hb => Function.update_of_ne (fun e : b = a => h (e ▸ hb)) _ _

theorem append_iff {l l' : List N} : Seg next o (l ++ l') e ↔ ∃ m, Seg next o l m ∧ Seg next m l' e := by
  induction l generalizing o with
  | nil => simp only [nil_append, nil_iff, exists_eq_left']
  | cons a l ih => simp only [cons_append, cons_iff, ih, and_assoc, exists_and_left]

end Seg

/-- The node at the end of the list that starts with `a`, if the links end within `fuel` nodes. -/
def last (next : N → Option N) : Nat → N → Option N
  | 0, _ => none
  | fuel + 1, a => match next a with
    | none => some a
    | some b => last next fuel b

/-- The loop ends at the list's last node. -/
theorem last_of_seg {fuel : Nat} {a : N} {l : List N} (h : Seg next (some a) l none) (hf : l.length ≤ fuel) :
    ∃ l' b, l = l' ++ [b] ∧ last next fuel a = some b := by
  induction l generalizing a fuel with
  | nil => cases h
  | cons x l ih =>
    obtain rfl : a = x := Option.some.inj h.1
    obtain ⟨fuel, rfl⟩ : ∃ f, fuel = f + 1 := ⟨fuel - 1, by rw [length_cons] at hf; omega⟩
    have ha := h.2
    cases l with
    | nil =>
      have hn : next a = none := ha
      exact ⟨[], a, rfl, by rw [last, hn]⟩
    | cons y l =>
      obtain ⟨l', b, hl, hb⟩ := ih (a := y) ⟨rfl, ha.2⟩ (Nat.le_of_succ_le_succ hf)
      exact ⟨a :: l', b, by rw [hl]; rfl, by rw [last, ha.1]; exact hb⟩

/-- Linking a node with a null link behind the last one. -/
theorem Seg.snoc [DecidableEq N] {o : Option N} {l : List N} {b c : N} (h : Seg next o (l ++ [b]) none) (hd : (l ++ [b]).Nodup)
    (hc : c ∉ l ++ [b]) (hn : next c = none) : Seg (Function.update next b (some c)) o (l ++ [b] ++ [c]) none := by
  obtain ⟨m, hl, hm⟩ := Seg.append_iff.1 h
  have hb : b ∉ l := fun hb => (nodup_append.1 hd).2.2 b hb b (by simp) rfl
  have hcb : c ≠ b := fun e => hc (by simp [e])
  rw [append_assoc, Seg.append_iff]
  refine ⟨m, (Seg.update hb).2 hl, hm.1, ?_⟩
  rw [Function.update_self]
  exact ⟨rfl, (Function.update_of_ne hcb _ _).trans hn⟩

/-! ## Circular lists -/

section Circular

variable {next : N → N}

def link (next : N → N) (a : N) : Option N := some (next a)

theorem link_update [DecidableEq N] (next : N → N) (a b : N) :
    link (Function.update next a b) = Function.update (link next) a (some b) := by
  funext x
  by_cases e : x = a
  · subst e; simp [link]
  · simp [link, e]

theorem Seg.rotate {next : N → Option N} {o : Option N} {x : N} {l m : List N} (h : Seg next o (l ++ x :: m) o) :
    Seg next (some x) (x :: (m ++ l)) (some x) := by
  obtain ⟨y, hl, hy, hm⟩ := Seg.append_iff.1 h
  exact ⟨rfl, Seg.append_iff.2 ⟨o, hm, hy ▸ hl⟩⟩

/-- The successor of a node is the next one of the list, or where the list ends. -/
theorem Seg.next_eq {next : N → Option N} {o e : Option N} {x : N} {l m : List N} (h : Seg next o (l ++ x :: m) e) :
    next x = (m.head?).or e := by
  obtain ⟨_, _, _, hm⟩ := Seg.append_iff.1 h
  cases m with
  | nil => exact hm
  | cons y m => exact hm.1

theorem Seg.next_inj {a x y : N} {l : List N} (h : Seg (link next) (some a) l (some a)) (hd : l.Nodup) (hx : x ∈ l) (hy : y ∈ l)
    (he : next x = next y) : x = y := by
  by_contra hne
  obtain ⟨l₁, l₂, rfl⟩ := append_of_mem hx
  have hr := h.rotate
  have hperm : (l₁ ++ x :: l₂).Perm (x :: (l₂ ++ l₁)) := perm_middle.trans (perm_append_comm.cons x)
  have hd' : (x :: (l₂ ++ l₁)).Nodup := hperm.nodup_iff.1 hd
  have hy' : y ∈ l₂ ++ l₁ := by
    rcases mem_append.1 hy with hy | hy
    · exact mem_append_right _ hy
    · rcases mem_cons.1 hy with e | hy
      · exact absurd e.symm hne
      · exact mem_append_left _ hy
  obtain ⟨m₁, m₂, hm⟩ := append_of_mem hy'
  rw [hm] at hr hd'
  -- the successor of `x` comes before `y` or is `y`; that of `y` comes after it or is `x`
  have h1 : link next x = ((m₁ ++ y :: m₂).head?).or (some x) := Seg.next_eq (l := []) hr
  have h2 : link next y = (m₂.head?).or (some x) := Seg.next_eq (l := x :: m₁) hr
  obtain ⟨hx', hd'⟩ := nodup_cons.1 hd'
  rw [nodup_append] at hd'
  obtain ⟨_, hd2, hd3⟩ := hd'
  have hz : next x ∈ m₁ ++ [y] := by
    cases m₁ with
    | nil => simp only [link, nil_append, head?_cons, Option.some_or, Option.some.injEq] at h1; simp [h1]
    | cons z m₁ => simp only [link, cons_append, head?_cons, Option.some_or, Option.some.injEq] at h1; simp [h1]
  have hw : next y ∈ m₂ ∨ next y = x := by
    cases m₂ with
    | nil => simp only [link, head?_nil, Option.none_or, Option.some.injEq] at h2; exact .inr h2
    | cons z m₂ => simp only [link, head?_cons, Option.some_or, Option.some.injEq] at h2; exact .inl (by simp [h2])
  rw [he] at hz
  rcases hw with hw | hw
  · rcases mem_append.1 hz with hz | hz
    · exact hd3 _ hz _ (mem_cons_of_mem y hw) rfl
    · rw [mem_singleton.1 hz] at hw
      exact (nodup_cons.1 hd2).1 hw
  · rw [hw] at hz
    refine hx' ?_
    rcases mem_append.1 hz with hz | hz
    · exact mem_append_left _ hz
    · exact mem_append_right _ (by rw [mem_singleton.1 hz]; exact mem_cons_self)

/-- `for(; !stop(p); p = next(p));` -/
def walk (next : N → N) (stop : N → Bool) : Nat → N → Option N
  | 0, _ => none
  | fuel + 1, p => if stop p then some p else walk next stop fuel (next p)

theorem walk_mono {stop : N → Bool} {fuel fuel' : Nat} {p z : N} (hle : fuel ≤ fuel') (h : walk next stop fuel p = some z) :
    walk next stop fuel' p = some z := by
  induction fuel generalizing fuel' p with
  | zero => cases h
  | succ fuel ih =>
    obtain ⟨fuel', rfl⟩ : ∃ k, fuel' = k + 1 := ⟨fuel' - 1, by omega⟩
    rw [walk] at h ⊢
    split
    · rwa [if_pos ‹_›] at h
    · rw [if_neg ‹_›] at h
      exact ih (by omega) h

/-- Round a circular list there is one node to stop at: the loop finds it from anywhere. -/
theorem walk_of_seg {stop : N → Bool} {fuel : Nat} {p z : N} {e : Option N} {l : List N} (h : Seg (link next) (some p) l e)
    (hz : z ∈ l) (hs : ∀ x ∈ l, stop x = true ↔ x = z) (hf : l.length ≤ fuel) : walk next stop fuel p = some z := by
  induction l generalizing p fuel with
  | nil => cases hz
  | cons x l ih =>
    obtain rfl : p = x := Option.some.inj h.1
    obtain ⟨fuel, rfl⟩ : ∃ f, fuel = f + 1 := ⟨fuel - 1, by rw [length_cons] at hf; omega⟩
    by_cases e : p = z
    · rw [walk, if_pos ((hs p mem_cons_self).2 e), e]
    · rw [walk, if_neg fun hp => e ((hs p mem_cons_self).1 hp)]
      refine ih h.2 ((mem_cons.1 hz).resolve_left fun e' => e e'.symm) (fun x hx => hs x (mem_cons_of_mem p hx)) ?_
      exact Nat.le_of_succ_le_succ hf

end Circular

end Xv6.Lib
