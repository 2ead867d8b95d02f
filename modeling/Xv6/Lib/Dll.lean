/-
  Xv6.Lib.Dll — circular doubly linked lists through a head node.

  `Links` are the `next` and `prev` fields of all nodes. `Circle r h l` says that from
  the head `h` the `next` pointers visit exactly the nodes of `l`, in order, and return
  to `h`, with every `prev` pointer the reverse, and no node twice. Taking a node out
  (`unlink`) and putting one in behind the head (`pushFront`) are the usual pointer
  assignments; on a circle they are removal and `cons`. A search along `next` (or
  `prev`) that stops at the head (`walk`) is `find?` on the list (or on its reverse).
-/

import Mathlib

namespace Xv6.Lib.Dll

open Function List

structure Links (N : Type) where
  next : N → N
  prev : N → N

section

variable {N : Type}

def Adj (r : Links N) (x y : N) : Prop := r.next x = y ∧ r.prev y = x

structure Circle (r : Links N) (h : N) (l : List N) : Prop where
  chain : List.IsChain (Adj r) (h :: (l ++ [h]))
  nodup : (h :: l).Nodup

/-- A head alone. -/
def single (h : N) : Links N := ⟨fun _ => h, fun _ => h⟩

theorem circle_single (h : N) : Circle (single h) h [] := ⟨by simp [single, Adj], by simp⟩

/-- A chain does not depend on the `next` of its last node and the `prev` of its first. -/
theorem chain_congr {r r' : Links N} {L : List N} (hc : List.IsChain (Adj r) L)
    (hn : ∀ x ∈ L.dropLast, r'.next x = r.next x) (hp : ∀ y ∈ L.tail, r'.prev y = r.prev y) :
    List.IsChain (Adj r') L := by
  induction L with
  | nil => exact isChain_nil
  | cons x L ih =>
    cases L with
    | nil => exact isChain_singleton _
    | cons y L =>
      rw [isChain_cons_cons] at hc ⊢
      refine ⟨⟨?_, ?_⟩, ih hc.2 (fun z hz => hn z ?_) (fun z hz => hp z ?_)⟩
      · rw [hn x (by simp)]; exact hc.1.1
      · rw [hp y (by simp)]; exact hc.1.2
      · rw [dropLast_cons_cons]; exact mem_cons_of_mem _ hz
      · exact mem_cons_of_mem _ hz

/-- The neighbours of a node `b` on a circle, and the chains on either side of it. -/
theorem circle_split {r : Links N} {h b : N} {l₁ l₂ : List N} (hr : Circle r h (l₁ ++ b :: l₂)) :
    ∃ A u v B, h :: l₁ = A ++ [u] ∧ l₂ ++ [h] = v :: B ∧ Adj r u b ∧ Adj r b v ∧
      List.IsChain (Adj r) (A ++ [u]) ∧ List.IsChain (Adj r) (v :: B) := by
  obtain ⟨A, u, hA⟩ : ∃ A u, h :: l₁ = A ++ [u] :=
    ⟨(h :: l₁).dropLast, (h :: l₁).getLast (by simp), (dropLast_append_getLast (by simp)).symm⟩
  obtain ⟨v, B, hB⟩ : ∃ v B, l₂ ++ [h] = v :: B := by
    cases hl : l₂ ++ [h] with
    | nil => simp at hl
    | cons v B => exact ⟨v, B, rfl⟩
  have hc := hr.chain
  have e : h :: ((l₁ ++ b :: l₂) ++ [h]) = A ++ u :: b :: v :: B := by
    rw [← cons_append, ← cons_append, hA]; simp [hB]
  rw [e, isChain_append_cons_cons, isChain_cons_cons] at hc
  exact ⟨A, u, v, B, hA, hB, hc.2.1, hc.2.2.1, hc.1, hc.2.2.2⟩

end

variable {N : Type} [DecidableEq N]

/-- `b->next->prev = b->prev; b->prev->next = b->next`. -/
def unlink (r : Links N) (b : N) : Links N :=
  let r := { r with prev := Function.update r.prev (r.next b) (r.prev b) }
  { r with next := Function.update r.next (r.prev b) (r.next b) }

/-- `b->next = h->next; b->prev = h; h->next->prev = b; h->next = b`. -/
def pushFront (r : Links N) (h b : N) : Links N :=
  let r := { r with next := Function.update r.next b (r.next h) }
  let r := { r with prev := Function.update r.prev b h }
  let r := { r with prev := Function.update r.prev (r.next h) b }
  { r with next := Function.update r.next h b }

/-- `for(; b != h; b = adv(b)) if(P(b)) return b`, at most `fuel` rounds. -/
def walk (adv : N → N) (h : N) (P : N → Bool) : Nat → N → Option N
  | 0, _ => none
  | fuel + 1, b => if b = h then none else if P b then some b else walk adv h P fuel (adv b)

variable {r : Links N}

theorem circle_unlink {h b : N} {l₁ l₂ : List N} (hr : Circle r h (l₁ ++ b :: l₂)) :
    Circle (unlink r b) h (l₁ ++ l₂) := by
  obtain ⟨A, u, v, B, hA, hB, hub, hbv, hcA, hcB⟩ := circle_split hr
  have hnd := hr.nodup
  have hu : u ∈ h :: l₁ := by rw [hA]; simp
  have hv : v ∈ l₂ ++ [h] := by rw [hB]; simp
  have hndA : (A ++ [u]).Nodup := by
    rw [← hA]
    exact hnd.sublist ((sublist_append_left l₁ _).cons_cons h)
  have hndB : (v :: B).Nodup := by
    rw [← hB]
    rw [nodup_cons, nodup_append] at hnd
    rw [nodup_append]
    exact ⟨(nodup_cons.mp hnd.2.2.1 |>.2), by simp, by
      intro x hx y hy e
      obtain rfl := mem_singleton.mp hy
      subst e
      exact hnd.1 (by simp [hx])⟩
  have disj : ∀ x ∈ l₁, x ∉ b :: l₂ := by
    rw [nodup_cons, nodup_append] at hnd
    intro x hx hx'
    exact hnd.2.2.2 x hx x hx' rfl
  have hh : h ∉ l₁ ∧ h ∉ b :: l₂ := by
    rw [nodup_cons, mem_append, not_or] at hnd
    exact hnd.1
  have hvb : b ≠ v := by
    intro e
    subst e
    rcases mem_append.mp hv with hv | hv
    · rw [nodup_cons, nodup_append, nodup_cons] at hnd
      exact hnd.2.2.1.1 hv
    · exact hh.2 (by rw [mem_singleton.mp hv]; simp)
  have e : unlink r b = ⟨update r.next u v, update r.prev v u⟩ := by
    simp only [unlink, hbv.1, hub.2, update_of_ne hvb]
  refine ⟨?_, ?_⟩
  · have e' : h :: ((l₁ ++ l₂) ++ [h]) = A ++ u :: v :: B := by
      rw [← cons_append, ← cons_append, hA]; simp [hB]
    rw [e, e', isChain_append_cons_cons]
    refine ⟨chain_congr hcA ?_ ?_, ⟨by simp, by simp⟩, chain_congr hcB ?_ ?_⟩
    · intro x hx
      rw [dropLast_concat] at hx
      have : x ≠ u := by
        intro e
        rw [nodup_append] at hndA
        exact hndA.2.2 x hx u (by simp) e
      simp [this]
    · intro y hy
      rw [← hA, tail_cons] at hy
      have : y ≠ v := by
        intro e
        subst e
        rcases mem_append.mp hv with hv | hv
        · exact disj y hy (mem_cons_of_mem _ hv)
        · exact hh.1 (mem_singleton.mp hv ▸ hy)
      simp [this]
    · intro x hx
      rw [← hB, dropLast_concat] at hx
      have : x ≠ u := by
        intro e
        subst e
        rcases mem_cons.mp hu with hu | hu
        · exact hh.2 (mem_cons_of_mem _ (hu ▸ hx))
        · exact disj x hu (mem_cons_of_mem _ hx)
      simp [this]
    · intro y hy
      have : y ≠ v := by
        intro e
        subst e
        exact (nodup_cons.mp hndB).1 hy
      simp [this]
  · rw [← cons_append] at hnd ⊢
    exact hnd.sublist (List.Sublist.append_left (sublist_cons_self b l₂) _)

theorem circle_pushFront {h b : N} {l : List N} (hr : Circle r h l) (hb : b ∉ h :: l) :
    Circle (pushFront r h b) h (b :: l) := by
  obtain ⟨v, B, hB⟩ : ∃ v B, l ++ [h] = v :: B := by
    cases hl : l ++ [h] with
    | nil => simp at hl
    | cons v B => exact ⟨v, B, rfl⟩
  have hc := hr.chain
  rw [hB, isChain_cons_cons] at hc
  rw [mem_cons, not_or] at hb
  have hh := nodup_cons.mp hr.nodup
  have hbB : b ∉ v :: B := by rw [← hB]; simp [hb.1, hb.2]
  have hvb : v ≠ b := fun e => hbB (by simp [e])
  have hnd : (v :: B).Nodup := by
    rw [← hB, nodup_append]
    exact ⟨hh.2, by simp, fun x hx y hy e => hh.1 (mem_singleton.mp hy ▸ e ▸ hx)⟩
  have e : pushFront r h b = ⟨update (update r.next b v) h b,
      update (update r.prev b h) v b⟩ := by
    simp only [pushFront, update_of_ne (Ne.symm hb.1), hc.1.1]
  refine ⟨?_, nodup_cons.mpr ⟨by simp [Ne.symm hb.1, hh.1], nodup_cons.mpr ⟨hb.2, hh.2⟩⟩⟩
  rw [e, cons_append, hB, isChain_cons_cons, isChain_cons_cons]
  refine ⟨⟨by simp, by simp [Ne.symm hvb]⟩, ⟨by simp [hb.1], by simp⟩, chain_congr hc.2 ?_ ?_⟩
  · intro x hx
    rw [← hB, dropLast_concat] at hx
    have h1 : x ≠ h := fun e => hh.1 (e ▸ hx)
    have h2 : x ≠ b := fun e => hb.2 (e ▸ hx)
    simp [h1, h2]
  · intro y hy
    have h1 : y ≠ v := fun e => (nodup_cons.mp hnd).1 (e ▸ hy)
    have h2 : y ≠ b := fun e => hbB (mem_cons_of_mem _ (e ▸ hy))
    simp [h1, h2]

/-! ## Searches -/

theorem walk_chain {h a : N} {l : List N} (P : N → Bool)
    (hc : List.IsChain (Adj r) (a :: (l ++ [h]))) (hh : h ∉ l) {fuel : Nat} (hf : l.length < fuel) :
    walk r.next h P fuel (r.next a) = l.find? P := by
  induction l generalizing a fuel with
  | nil =>
    obtain ⟨fuel, rfl⟩ : ∃ k, fuel = k + 1 := ⟨fuel - 1, by simp at hf; omega⟩
    rw [nil_append, isChain_cons_cons] at hc
    simp [walk, hc.1.1]
  | cons x l ih =>
    obtain ⟨fuel, rfl⟩ : ∃ k, fuel = k + 1 := ⟨fuel - 1, by simp at hf; omega⟩
    rw [cons_append, isChain_cons_cons] at hc
    rw [mem_cons, not_or] at hh
    rw [walk, hc.1.1, if_neg (Ne.symm hh.1), find?_cons]
    cases P x with
    | true => rfl
    | false => simp only [Bool.false_eq_true, if_false]; exact ih hc.2 hh.2 (by simp at hf; omega)

theorem walk_next {h : N} {l : List N} (hr : Circle r h l) (P : N → Bool) {fuel : Nat}
    (hf : l.length < fuel) : walk r.next h P fuel (r.next h) = l.find? P :=
  walk_chain P hr.chain (nodup_cons.mp hr.nodup).1 hf

theorem walk_prev {h : N} {l : List N} (hr : Circle r h l) (P : N → Bool) {fuel : Nat}
    (hf : l.length < fuel) : walk r.prev h P fuel (r.prev h) = l.reverse.find? P := by
  have hc : List.IsChain (Adj ⟨r.prev, r.next⟩) (h :: (l.reverse ++ [h])) := by
    have e : h :: (l.reverse ++ [h]) = (h :: (l ++ [h])).reverse := by simp
    rw [e, isChain_reverse]
    exact hr.chain.imp fun _ _ hxy => ⟨hxy.2, hxy.1⟩
  exact walk_chain P hc (by simpa using (nodup_cons.mp hr.nodup).1) (by simpa using hf)

end Xv6.Lib.Dll
