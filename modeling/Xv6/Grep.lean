/-
  Xv6.Grep — `grep.c`: `match`, `matchhere`, `matchstar`, and the loop that reads lines.

  A pointer to a character is the list of the bytes from there on; the string it points to
  ends at the first NUL (`cstr`), and so does the memory's list, if it has none.

  - The matcher decides the regular expressions as they are read from left to right
    (`match_decides`).
  - The loop keeps the beginning of a line that is not complete only if what it has read
    holds a newline. It writes the matching lines of the input, whatever the pattern, exactly
    when no read without a newline comes before one with a newline (`grep_lines_iff`);
    otherwise lines lose their beginnings (`split_line_lost`).
-/

import Mathlib

namespace Xv6.Grep

open List

def caret : UInt8 := 94
def dollar : UInt8 := 36
def star : UInt8 := 42
def dot : UInt8 := 46
def nl : UInt8 := 10

/-- The string at a pointer. -/
def cstr (s : List UInt8) : List UInt8 := s.takeWhile (· ≠ 0)

/-! ## The matcher -/

/-- The loop of `matchstar`; `here` is `matchhere` of what follows the star. -/
def matchstar (here : List UInt8 → Bool) (c : UInt8) : List UInt8 → Bool
  | [] => here []
  | t :: text => here (t :: text) || (t ≠ 0 && (t = c || c = dot) && matchstar here c text)

/-- `matchhere` when no star follows the first character; `last`: nothing does. -/
def matchone (r : UInt8) (last : Bool) (here : List UInt8 → Bool) (text : List UInt8) : Bool :=
  if r = dollar ∧ last then text.headD 0 = 0
  else if text.headD 0 ≠ 0 ∧ (r = dot ∨ r = text.headD 0) then here text.tail
  else false

def matchhere : List UInt8 → List UInt8 → Bool
  | [], _ => true
  | r :: re, text =>
    if r = 0 then true
    else match re with
      | [] => matchone r true (matchhere []) text
      | s :: re' =>
        if s = star then matchstar (matchhere re') r text
        else matchone r (s = 0) (matchhere (s :: re')) text

/-- The loop of `match`. -/
def matchLoop (here : List UInt8 → Bool) : List UInt8 → Bool
  | [] => here []
  | t :: text => here (t :: text) || (t ≠ 0 && matchLoop here text)

def match_ (re text : List UInt8) : Bool :=
  if re.headD 0 = caret then matchhere re.tail text else matchLoop (matchhere re) text

/-! ## Regular expressions -/

inductive Item where
  /-- Any run of the character, or any run at all if it is `.`. -/
  | run (c : UInt8)
  /-- The end of the text. -/
  | eol
  | any
  | char (c : UInt8)
  deriving DecidableEq

def Item.single (c : UInt8) : Item := if c = dot then .any else .char c

/-- A pattern read from left to right. -/
def items : List UInt8 → List Item
  | [] => []
  | [c] => if c = dollar then [.eol] else [.single c]
  | c :: d :: re => if d = star then .run c :: items re else .single c :: items (d :: re)

/-- The item matches `seg` where `rest` follows. -/
def Item.Matches : Item → List UInt8 → List UInt8 → Prop
  | .run c, seg, _ => ∀ x ∈ seg, x = c ∨ c = dot
  | .eol, seg, rest => seg = [] ∧ rest = []
  | .any, seg, _ => ∃ x, seg = [x]
  | .char c, seg, _ => seg = [c]

/-- The items match `seg`, one after the other, where `rest` follows. -/
def Matches : List Item → List UInt8 → List UInt8 → Prop
  | [], seg, _ => seg = []
  | i :: is, seg, rest => ∃ a b, seg = a ++ b ∧ i.Matches a (b ++ rest) ∧ Matches is b rest

/-- A prefix of the text is matched. -/
def Begins (is : List Item) (text : List UInt8) : Prop := ∃ seg rest, text = seg ++ rest ∧ Matches is seg rest

/-- Some substring of the text is matched, or a prefix if the pattern starts with `^`. -/
def Found (re text : List UInt8) : Prop :=
  if re.head? = some caret then Begins (items re.tail) text
  else ∃ pre seg rest, text = pre ++ seg ++ rest ∧ Matches (items re) seg rest

/-! ## Strings -/

@[simp] theorem cstr_nil : cstr [] = [] := rfl

@[simp] theorem cstr_zero (s : List UInt8) : cstr (0 :: s) = [] := rfl

theorem cstr_cons {c : UInt8} (h : c ≠ 0) (s : List UInt8) : cstr (c :: s) = c :: cstr s :=
  takeWhile_cons_of_pos (by simpa using h)

theorem cstr_append {a : List UInt8} (h : ∀ x ∈ a, x ≠ 0) (b : List UInt8) : cstr (a ++ b) = a ++ cstr b :=
  takeWhile_append_of_pos fun x hx => by simpa using h x hx

variable {s text l c buf : List UInt8}

theorem cstr_ne_zero : ∀ x ∈ cstr s, x ≠ 0 := fun x hx => by simpa using mem_takeWhile_imp hx

/-- What a string begins with, the memory begins with. -/
theorem cstr_split {a b : List UInt8} (h : cstr s = a ++ b) : ∃ t, s = a ++ t ∧ cstr t = b ∧ ∀ x ∈ a, x ≠ 0 := by
  have ha : ∀ x ∈ a, x ≠ 0 := fun x hx => cstr_ne_zero x (h ▸ mem_append_left b hx)
  obtain ⟨t, ht⟩ := takeWhile_prefix (l := s) (· ≠ (0 : UInt8))
  have hs : s = a ++ (b ++ t) := by
    rw [← append_assoc, ← h]
    exact ht.symm
  refine ⟨b ++ t, hs, ?_, ha⟩
  rw [hs, cstr_append ha] at h
  exact append_cancel_left h

theorem headD_eq_zero : s.headD 0 = 0 ↔ cstr s = [] := by
  cases s with
  | nil => simp
  | cons c s =>
    by_cases h : c = 0
    · simp [h]
    · simp [cstr_cons h, h]

/-! ## What the matcher decides -/

theorem begins_nil (text : List UInt8) : Begins [] text := ⟨[], text, rfl, rfl⟩

theorem begins_cons {i : Item} {is : List Item} :
    Begins (i :: is) text ↔ ∃ a s, text = a ++ s ∧ i.Matches a s ∧ Begins is s := by
  constructor
  · intro ⟨seg, rest, htext, a, b, hseg, hi, his⟩
    refine ⟨a, b ++ rest, ?_, hi, b, rest, rfl, his⟩
    rw [htext, hseg, append_assoc]
  · intro ⟨a, s, htext, hi, b, rest, hs, his⟩
    subst hs
    refine ⟨a ++ b, rest, ?_, a, b, rfl, hi, his⟩
    rw [htext, append_assoc]

variable {here : List UInt8 → Bool}

theorem matchstar_iff {c : UInt8} : matchstar here c text = true ↔
    ∃ a b, text = a ++ b ∧ (∀ x ∈ a, x ≠ 0 ∧ (x = c ∨ c = dot)) ∧ here b = true := by
  induction text with
  | nil =>
    simp only [matchstar]
    constructor
    · intro h
      exact ⟨[], [], rfl, by simp, h⟩
    · intro ⟨a, b, hab, _, h⟩
      obtain ⟨rfl, rfl⟩ := append_eq_nil_iff.mp hab.symm
      exact h
  | cons t text ih =>
    simp only [matchstar, Bool.or_eq_true, Bool.and_eq_true, decide_eq_true_eq, ih]
    constructor
    · intro h
      rcases h with h | ⟨ht, a, b, rfl, ha, hb⟩
      · exact ⟨[], t :: text, rfl, by simp, h⟩
      · exact ⟨t :: a, b, rfl, forall_mem_cons.mpr ⟨ht, ha⟩, hb⟩
    · intro ⟨a, b, hab, ha, hb⟩
      cases a with
      | nil =>
        left
        rw [hab]
        exact hb
      | cons x a =>
        obtain ⟨rfl, rfl⟩ := cons.inj hab
        obtain ⟨hx, ha⟩ := forall_mem_cons.mp ha
        exact Or.inr ⟨hx, a, b, rfl, ha, hb⟩

theorem matchLoop_iff : matchLoop here text = true ↔ ∃ a b, text = a ++ b ∧ (∀ x ∈ a, x ≠ 0) ∧ here b = true := by
  -- `matchstar` of a dot
  have h : ∀ text, matchLoop here text = matchstar here dot text := by
    intro text
    induction text with
    | nil => rfl
    | cons t text ih => simp [matchLoop, matchstar, ih]
  rw [h, matchstar_iff]
  simp

theorem matchone_iff {r : UInt8} {last : Bool} {is : List Item}
    (hhere : ∀ s, here s = true ↔ Begins is (cstr s)) : matchone r last here text = true ↔
      Begins (if r = dollar ∧ last = true then [.eol] else .single r :: is) (cstr text) := by
  unfold matchone
  by_cases h : r = dollar ∧ last = true
  · rw [if_pos h, if_pos h, decide_eq_true_eq, headD_eq_zero, begins_cons]
    constructor
    · intro ht
      exact ⟨[], [], ht, ⟨rfl, rfl⟩, begins_nil []⟩
    · intro ⟨a, s, ht, ⟨ha, hs⟩, _⟩
      rw [ht, ha, hs]
      rfl
  · rw [if_neg h, if_neg h, begins_cons]
    constructor
    · intro hm
      split at hm
      · rename_i ht
        cases text with
        | nil => exact absurd rfl ht.1
        | cons t text =>
          refine ⟨[t], cstr text, cstr_cons ht.1 text, ?_, (hhere text).mp hm⟩
          unfold Item.single
          split
          · exact ⟨t, rfl⟩
          · rename_i hdot
            rw [ht.2.resolve_left hdot]
            rfl
      · cases hm
    · intro ⟨a, s, ht, hi, hb⟩
      obtain ⟨t, rfl, hr⟩ : ∃ t, a = [t] ∧ (r = dot ∨ r = t) := by
        unfold Item.single at hi
        split at hi
        · rename_i hdot
          obtain ⟨t, rfl⟩ := hi
          exact ⟨t, rfl, Or.inl hdot⟩
        · exact ⟨r, hi, Or.inr rfl⟩
      obtain ⟨text', rfl, rfl, ht0⟩ := cstr_split ht
      rw [if_pos ⟨ht0 t (mem_singleton_self t), hr⟩]
      exact (hhere text').mpr hb

theorem matchhere_iff (re text : List UInt8) : matchhere re text = true ↔ Begins (items (cstr re)) (cstr text) := by
  -- by the length of the pattern: a star takes two characters of it
  induction hn : re.length using Nat.strong_induction_on generalizing re text with
  | _ n ih =>
    cases re with
    | nil => exact iff_of_true rfl (begins_nil _)
    | cons r re =>
      unfold matchhere
      by_cases hr : r = 0
      · rw [if_pos hr, hr, cstr_zero]
        exact iff_of_true rfl (begins_nil _)
      · rw [if_neg hr, cstr_cons hr]
        cases re with
        | nil =>
          refine (matchone_iff fun s => ih 0 (by rw [← hn]; simp) [] s rfl).trans ?_
          simp [items]
        | cons s re =>
          have hlen : re.length + 1 + 1 = n := hn
          by_cases hs : s = star
          · simp only [if_pos hs]
            have hs0 : s ≠ 0 := by
              rw [hs]
              decide
            rw [cstr_cons hs0, items, if_pos hs, begins_cons, matchstar_iff]
            constructor
            · intro ⟨a, b, hab, ha, hb⟩
              refine ⟨a, cstr b, ?_, fun x hx => (ha x hx).2, (ih re.length (by omega) re b rfl).mp hb⟩
              rw [hab, cstr_append fun x hx => (ha x hx).1]
            · intro ⟨a, s', ht, hi, hb⟩
              obtain ⟨b, hab, rfl, ha⟩ := cstr_split ht
              exact ⟨a, b, hab, fun x hx => ⟨ha x hx, hi x hx⟩, (ih re.length (by omega) re b rfl).mpr hb⟩
          · simp only [if_neg hs]
            refine (matchone_iff fun t => ih (re.length + 1) (by omega) (s :: re) t rfl).trans ?_
            by_cases hs0 : s = 0
            · simp [hs0, items]
            · simp [hs0, cstr_cons hs0, items, hs]

theorem match_iff (re text : List UInt8) : match_ re text = true ↔ Found (cstr re) (cstr text) := by
  have hhead : re.headD 0 = caret ↔ (cstr re).head? = some caret := by
    cases re with
    | nil => decide
    | cons r re =>
      by_cases hr : r = 0
      · subst hr
        exact iff_of_false (fun e : (0 : UInt8) = caret => absurd e (by decide)) (by simp)
      · simp [cstr_cons hr]
  unfold match_ Found
  by_cases h : re.headD 0 = caret
  · rw [if_pos h, if_pos (hhead.mp h), matchhere_iff]
    cases re with
    | nil => cases h
    | cons r re =>
      have hr : r ≠ 0 := by
        rw [show r = caret from h]
        decide
      rw [cstr_cons hr]
      rfl
  · rw [if_neg h, if_neg fun e => h (hhead.mpr e), matchLoop_iff]
    constructor
    · intro ⟨a, b, hab, ha, hb⟩
      obtain ⟨seg, rest, hs, hm⟩ := (matchhere_iff re b).mp hb
      refine ⟨a, seg, rest, ?_, hm⟩
      rw [hab, cstr_append ha, hs, append_assoc]
    · intro ⟨pre, seg, rest, ht, hm⟩
      rw [append_assoc] at ht
      obtain ⟨b, hab, hb, ha⟩ := cstr_split ht
      exact ⟨pre, b, hab, ha, (matchhere_iff re b).mpr ⟨seg, rest, hb, hm⟩⟩

theorem cstr_of_nul (h : 0 ∉ s) (t : List UInt8) : cstr (s ++ 0 :: t) = s := by
  rw [cstr_append fun x hx e => h (e ▸ hx), cstr_zero, append_nil]

/-- `match` of a pattern and a text, whatever is in memory after their NULs: it returns 1 exactly if
    some part of the text is matched as the pattern says. -/
theorem match_decides (re text x y : List UInt8) (hre : 0 ∉ re) (htext : 0 ∉ text) :
    match_ (re ++ 0 :: x) (text ++ 0 :: y) = true ↔ Found re text := by
  rw [match_iff, cstr_of_nul hre, cstr_of_nul htext]

/-- `^a*b$` in `aab`. -/
theorem match_decides_aab : Found [94, 97, 42, 98, 36] [97, 97, 98] :=
  (match_decides [94, 97, 42, 98, 36] [97, 97, 98] [] [] (by decide) (by decide)).mp (by decide)

/-! ## The loop -/

/-- `sizeof(buf)`. -/
def bufSize : Nat := 1024

/-- `strchr`: how far the character is. -/
def strchr (c : UInt8) : List UInt8 → Option Nat
  | [] => none
  | x :: s => if x = 0 then none else if x = c then some 0 else (strchr c s).map (· + 1)

theorem strchr_lt {c : UInt8} {k : Nat} (h : strchr c s = some k) : k < s.length := by
  induction s generalizing k with
  | nil => cases h
  | cons x s ih =>
    unfold strchr at h
    split at h
    · cases h
    · split at h
      · cases h
        exact Nat.succ_pos _
      · obtain ⟨j, hj, rfl⟩ := Option.map_eq_some_iff.mp h
        exact Nat.succ_lt_succ (ih hj)

/-- The inner loop from `p` on: what it writes, the buffer and `p` after it. -/
def lineLoop (pattern buf : List UInt8) (p : Nat) : List (List UInt8) × List UInt8 × Nat :=
  match _h : strchr nl (buf.drop p) with
  | none => ([], buf, p)
  | some k =>
    if match_ pattern ((buf.set (p + k) 0).drop p) then
      let r := lineLoop pattern ((buf.set (p + k) 0).set (p + k) nl) (p + k + 1)
      ((((buf.set (p + k) 0).set (p + k) nl).drop p).take (p + k + 1 - p) :: r.1, r.2)
    else lineLoop pattern (buf.set (p + k) 0) (p + k + 1)
termination_by buf.length - p
decreasing_by
  all_goals
    have := strchr_lt _h
    simp only [List.length_set, List.length_drop] at this ⊢
    omega

/-- `memmove(buf, p, m)`. -/
def memmove (buf : List UInt8) (p m : Nat) : List UInt8 := (buf.drop p).take m ++ buf.drop m

structure Round where
  out : List (List UInt8)
  buf : List UInt8
  m : Nat

/-- What the outer loop does after `read` has returned `chunk`. -/
def round (pattern buf : List UInt8) (m : Nat) (chunk : List UInt8) : Round :=
  let m := m + chunk.length
  let buf := (buf.take (m - chunk.length) ++ chunk ++ buf.drop m).set m 0
  let (out, buf, p) := lineLoop pattern buf 0
  let m := if p = 0 then 0 else m
  if 0 < m then ⟨out, memmove buf p (m - p), m - p⟩ else ⟨out, buf, m⟩

/-- `grep`, when `read` returns these chunks and then 0: the writes. -/
def grep (pattern : List UInt8) : List (List UInt8) → List UInt8 → Nat → List (List UInt8)
  | [], _, _ => []
  | chunk :: chunks, buf, m =>
    let r := round pattern buf m chunk
    r.out ++ grep pattern chunks r.buf r.m

/-- Every chunk holds something, and no more than was asked for. -/
def Served (pattern : List UInt8) : List (List UInt8) → List UInt8 → Nat → Prop
  | [], _, _ => True
  | chunk :: chunks, buf, m =>
    chunk ≠ [] ∧ chunk.length ≤ bufSize - m - 1 ∧
      Served pattern chunks (round pattern buf m chunk).buf (round pattern buf m chunk).m

/-! ## Lines -/

/-- The lines that a newline ends, without it. -/
def lines (s : List UInt8) : List (List UInt8) := (s.splitOn nl).dropLast

/-- What follows the last newline. -/
def rest (s : List UInt8) : List UInt8 := (s.splitOn nl).getLastD []

theorem beq_nl (h : nl ∉ l) : ∀ x ∈ l, (x == nl) = false := fun _ hx =>
  beq_eq_false_iff_ne.mpr fun e => h (e ▸ hx)

theorem lines_of_notMem (h : nl ∉ s) : lines s = [] ∧ rest s = s := by
  have hs : s.splitOn nl = [s] := splitOnP_eq_singleton (beq_nl h)
  unfold lines rest
  rw [hs]
  exact ⟨rfl, rfl⟩

theorem lines_cons (h : nl ∉ l) (s : List UInt8) :
    lines (l ++ nl :: s) = l :: lines s ∧ rest (l ++ nl :: s) = rest s := by
  have hs : (l ++ nl :: s).splitOn nl = l :: s.splitOn nl :=
    splitOnP_append_cons_of_forall_mem (beq_nl h) nl (beq_self_eq_true nl) s
  have hne : s.splitOn nl ≠ [] := splitOnP_ne_nil _ _
  unfold lines rest
  rw [hs]
  exact ⟨dropLast_cons_of_ne_nil hne, by cases hx : s.splitOn nl <;> simp_all⟩

/-- By the newlines of `s`: the first line, or none. -/
theorem line_induction {motive : List UInt8 → Prop} (none : ∀ s, nl ∉ s → motive s)
    (cons : ∀ l s, nl ∉ l → motive s → motive (l ++ nl :: s)) (s : List UInt8) : motive s := by
  induction hn : s.length using Nat.strong_induction_on generalizing s with
  | _ n ih =>
    by_cases h : nl ∈ s
    · obtain ⟨l, t, rfl, hl⟩ := eq_append_cons_of_mem h
      refine cons l t hl (ih t.length ?_ t rfl)
      rw [← hn]
      simp
      omega
    · exact none s h

theorem lines_append (s t : List UInt8) : lines (s ++ t) = lines s ++ lines (rest s ++ t) := by
  induction s using line_induction with
  | none s h =>
    obtain ⟨h1, h2⟩ := lines_of_notMem h
    rw [h1, h2, nil_append]
  | cons l s h ih =>
    obtain ⟨h1, h2⟩ := lines_cons h s
    rw [h1, h2, append_assoc, cons_append, (lines_cons h _).1, ih, cons_append]

theorem mem_of_mem_rest {x : UInt8} (hx : x ∈ rest s) : x ∈ s := by
  induction s using line_induction with
  | none s h => rwa [(lines_of_notMem h).2] at hx
  | cons l s h ih =>
    rw [(lines_cons h s).2] at hx
    exact mem_append_right l (mem_cons_of_mem nl (ih hx))

theorem nl_notMem_rest (s : List UInt8) : nl ∉ rest s := by
  induction s using line_induction with
  | none s h => rwa [(lines_of_notMem h).2]
  | cons l s h ih => rwa [(lines_cons h s).2]

theorem rest_lt (h : nl ∈ s) : (rest s).length < s.length := by
  induction s using line_induction with
  | none s h' => exact absurd h h'
  | cons l s hl ih =>
    rw [(lines_cons hl s).2, length_append, length_cons]
    by_cases hs : nl ∈ s
    · have := ih hs
      omega
    · rw [(lines_of_notMem hs).2]
      omega

/-! ## What the loop writes -/

/-- The writes for these lines. -/
def writes (pattern : List UInt8) (ls : List (List UInt8)) : List (List UInt8) := (ls.filter (match_ pattern)).map (· ++ [nl])

theorem writes_append (pattern : List UInt8) (ls ls' : List (List UInt8)) :
    writes pattern (ls ++ ls') = writes pattern ls ++ writes pattern ls' := by
  unfold writes
  rw [filter_append, map_append]

theorem strchr_of_notMem {r : List UInt8} (h0 : 0 ∉ r) (h : nl ∉ r) (t : List UInt8) : strchr nl (r ++ 0 :: t) = none := by
  induction r with
  | nil => rfl
  | cons x r ih =>
    simp only [mem_cons, not_or] at h0 h
    rw [cons_append, strchr, if_neg (Ne.symm h0.1), if_neg (Ne.symm h.1), ih h0.2 h.2]
    rfl

theorem strchr_line (h0 : 0 ∉ l) (h : nl ∉ l) (t : List UInt8) : strchr nl (l ++ nl :: t) = some l.length := by
  induction l with
  | nil => rfl
  | cons x l ih =>
    simp only [mem_cons, not_or] at h0 h
    rw [cons_append, strchr, if_neg (Ne.symm h0.1), if_neg (Ne.symm h.1), ih h0.2 h.2]
    rfl

/-- Of a text, only the string counts. -/
theorem match_cstr {pattern : List UInt8} (h0 : 0 ∉ l) (t : List UInt8) : match_ pattern (l ++ 0 :: t) = match_ pattern l := by
  have hl : cstr l = l := takeWhile_eq_self_iff.mpr fun x hx => decide_eq_true fun e : x = 0 => h0 (e ▸ hx)
  rw [Bool.eq_iff_iff, match_iff, match_iff, cstr_of_nul h0, hl]

/-- The inner loop writes the lines of what is left of the input and stops behind the last. -/
theorem lineLoop_eq (pattern : List UInt8) (r : List UInt8) (h0 : 0 ∉ r) (a t : List UInt8) : ∃ a',
    lineLoop pattern (a ++ (r ++ 0 :: t)) a.length = (writes pattern (lines r), a' ++ (rest r ++ 0 :: t), a'.length) ∧
    a'.length + (rest r).length = a.length + r.length := by
  induction r using line_induction generalizing a with
  | none r h =>
    obtain ⟨h1, h2⟩ := lines_of_notMem h
    refine ⟨a, ?_, by rw [h2]⟩
    unfold lineLoop
    rw [h1, h2]
    split
    · rfl
    · rename_i k hk
      rw [drop_left, strchr_of_notMem h0 h] at hk
      cases hk
  | cons l r hl ih =>
    obtain ⟨h1, h2⟩ := lines_cons hl r
    simp only [mem_append, mem_cons, not_or] at h0
    have hstr : strchr nl ((a ++ ((l ++ nl :: r) ++ 0 :: t)).drop a.length) = some l.length := by
      rw [drop_left, append_assoc]
      exact strchr_line h0.1 hl _
    have hset : ∀ x y : UInt8, (a ++ ((l ++ x :: r) ++ 0 :: t)).set (a.length + l.length) y = a ++ ((l ++ y :: r) ++ 0 :: t) := by
      intro x y
      simp
    have hnext : ∀ x : UInt8, a ++ ((l ++ x :: r) ++ 0 :: t) = (a ++ l ++ [x]) ++ (r ++ 0 :: t) := fun x => by simp
    have hlen : ∀ x : UInt8, a.length + l.length + 1 = (a ++ l ++ [x]).length := fun x => by
      simp only [length_append, length_singleton]
    have hmatch : match_ pattern ((a ++ ((l ++ (0 : UInt8) :: r) ++ 0 :: t)).drop a.length) = match_ pattern l := by
      rw [drop_left, append_assoc]
      exact match_cstr h0.1 _
    unfold lineLoop
    rw [h1, h2]
    split
    · rename_i hk
      rw [hstr] at hk
      cases hk
    · rename_i k hk
      rw [hstr] at hk
      cases hk
      rw [hset, hmatch, hset]
      have hwrites : writes pattern (l :: lines r) = if match_ pattern l = true then (l ++ [nl]) :: writes pattern (lines r)
          else writes pattern (lines r) := by
        unfold writes
        rw [filter_cons]
        split <;> rfl
      by_cases hm : match_ pattern l = true
      · obtain ⟨a', ha, hlen'⟩ := ih h0.2.2 (a ++ l ++ [nl])
        have hline : ((a ++ ((l ++ nl :: r) ++ 0 :: t)).drop a.length).take (a.length + l.length + 1 - a.length) = l ++ [nl] := by
          rw [drop_left, show a.length + l.length + 1 - a.length = (l ++ [nl]).length by simp; omega,
            show (l ++ nl :: r) ++ 0 :: t = (l ++ [nl]) ++ (r ++ 0 :: t) by simp, take_left]
        refine ⟨a', ?_, ?_⟩
        · rw [if_pos hm, hwrites, if_pos hm]
          simp only
          rw [hline, hnext, hlen nl, ha]
        · simp only [length_append, length_cons, length_nil] at hlen' ⊢
          omega
      · obtain ⟨a', ha, hlen'⟩ := ih h0.2.2 (a ++ l ++ [0])
        refine ⟨a', ?_, ?_⟩
        · rw [if_neg hm, hwrites, if_neg hm, hnext, hlen 0, ha]
        · simp only [length_append, length_cons, length_nil] at hlen' ⊢
          omega

/-- The buffer begins with `c`, which is `m` long. -/
structure Carries (buf : List UInt8) (m : Nat) (c : List UInt8) : Prop where
  size : buf.length = bufSize
  len : c.length = m
  begins : buf.take m = c

/-- What is kept for the next read. -/
def kept (s : List UInt8) : List UInt8 := if nl ∈ s then rest s else []

theorem round_eq (pattern : List UInt8) {chunk : List UInt8} {m : Nat} (hc : Carries buf m c) (h0 : 0 ∉ c) (hx : 0 ∉ chunk)
    (hfit : chunk.length ≤ bufSize - m - 1) (hne : chunk ≠ []) :
    (round pattern buf m chunk).out = writes pattern (lines (c ++ chunk)) ∧
    Carries (round pattern buf m chunk).buf (round pattern buf m chunk).m (kept (c ++ chunk)) := by
  have hpos : 0 < chunk.length := length_pos_iff.mpr hne
  have hlen := hc.len
  have hsize := hc.size
  -- the buffer after the NUL is written
  obtain ⟨t, ht⟩ : ∃ t, (buf.take (m + chunk.length - chunk.length) ++ chunk ++ buf.drop (m + chunk.length)).set (m + chunk.length) 0 =
      (c ++ chunk) ++ 0 :: t := by
    rw [Nat.add_sub_cancel, hc.begins]
    have hdrop : buf.drop (m + chunk.length) ≠ [] := by
      rw [Ne, drop_eq_nil_iff]
      omega
    obtain ⟨y, t, hy⟩ := exists_cons_of_ne_nil hdrop
    refine ⟨t, ?_⟩
    rw [hy, show m + chunk.length = (c ++ chunk).length by rw [length_append, hlen]]
    simp
  have htlen : (c ++ chunk).length + t.length + 1 = bufSize := by
    have := congrArg length ht
    simp only [length_set, length_append, length_take, length_drop, length_cons] at this ⊢
    omega
  obtain ⟨a, ha, halen⟩ := lineLoop_eq pattern (c ++ chunk) (by simp [h0, hx]) [] t
  simp only [nil_append, length_nil, Nat.zero_add] at ha halen
  unfold round
  simp only [ht, ha]
  have htotal : (c ++ chunk).length = m + chunk.length := by rw [length_append, hlen]
  by_cases hn : nl ∈ c ++ chunk
  · have hlt := rest_lt hn
    have hrest : m + chunk.length - a.length = (rest (c ++ chunk)).length := by omega
    rw [if_neg (show a.length ≠ 0 by omega), if_pos (show 0 < m + chunk.length by omega), kept, if_pos hn, hrest]
    refine ⟨rfl, ?_, rfl, ?_⟩
    · simp only [memmove, length_append, length_take, length_drop, length_cons]
      omega
    · simp only [memmove, drop_left, take_left]
  · obtain ⟨_, hr⟩ := lines_of_notMem hn
    rw [hr] at halen ⊢
    rw [if_pos (show a.length = 0 by omega), if_neg (lt_irrefl 0), kept, if_neg hn]
    refine ⟨rfl, ?_, rfl, rfl⟩
    simp only [length_append, length_cons] at htlen ⊢
    omega

theorem zero_notMem_kept {chunk : List UInt8} (h0 : 0 ∉ c) (hx : 0 ∉ chunk) : 0 ∉ kept (c ++ chunk) := by
  unfold kept
  split
  · intro h
    rcases mem_append.mp (mem_of_mem_rest h) with h | h
    · exact h0 h
    · exact hx h
  · simp

/-- The lines the loop sees, with `c` kept from before. -/
def seen : List UInt8 → List (List UInt8) → List (List UInt8)
  | _, [] => []
  | c, chunk :: chunks => lines (c ++ chunk) ++ seen (kept (c ++ chunk)) chunks

variable {chunks : List (List UInt8)}

theorem grep_eq (pattern : List UInt8) {m : Nat} (hc : Carries buf m c)
    (h0 : 0 ∉ c) (hx : ∀ x ∈ chunks, 0 ∉ x) (hs : Served pattern chunks buf m) :
    grep pattern chunks buf m = writes pattern (seen c chunks) := by
  induction chunks generalizing buf c m with
  | nil => rfl
  | cons chunk chunks ih =>
    obtain ⟨hne, hfit, hs⟩ := hs
    obtain ⟨hchunk, hx⟩ := forall_mem_cons.mp hx
    obtain ⟨hout, hnext⟩ := round_eq pattern hc h0 hchunk hfit hne
    rw [grep, seen, writes_append, ← hout, ← ih hnext (zero_notMem_kept h0 hchunk) hx hs]

/-- `Served`, said of what is kept; the pattern is of no account. -/
def Fits : List UInt8 → List (List UInt8) → Prop
  | _, [] => True
  | c, chunk :: chunks => chunk ≠ [] ∧ chunk.length ≤ bufSize - c.length - 1 ∧ Fits (kept (c ++ chunk)) chunks

theorem Fits.ne_nil (h : Fits c chunks) : ∀ x ∈ chunks, x ≠ [] := by
  induction chunks generalizing c with
  | nil => simp
  | cons chunk chunks ih => exact forall_mem_cons.mpr ⟨h.1, ih h.2.2⟩

theorem served_iff (pattern : List UInt8) {m : Nat} (hc : Carries buf m c)
    (h0 : 0 ∉ c) (hx : ∀ x ∈ chunks, 0 ∉ x) : Served pattern chunks buf m ↔ Fits c chunks := by
  induction chunks generalizing buf c m with
  | nil => exact Iff.rfl
  | cons chunk chunks ih =>
    obtain ⟨hchunk, hx⟩ := forall_mem_cons.mp hx
    unfold Served Fits
    rw [hc.len]
    refine and_congr_right fun hne => and_congr_right fun hfit => ?_
    exact ih (round_eq pattern hc h0 hchunk hfit hne).2 (zero_notMem_kept h0 hchunk) hx

/-! ## Whole lines -/

/-- No read without a newline comes before one with a newline. -/
def Whole : List (List UInt8) → Prop
  | [] => True
  | chunk :: chunks => if nl ∈ chunk then Whole chunks else ∀ x ∈ chunks, nl ∉ x

instance Whole.decidable : (chunks : List (List UInt8)) → Decidable (Whole chunks)
  | [] => inferInstanceAs (Decidable True)
  | chunk :: chunks =>
    have := Whole.decidable chunks
    inferInstanceAs (Decidable (if nl ∈ chunk then Whole chunks else ∀ x ∈ chunks, nl ∉ x))

/-- The bytes of lines. -/
def total (ls : List (List UInt8)) : Nat := (ls.map fun l => l.length + 1).sum

theorem total_append (ls ls' : List (List UInt8)) : total (ls ++ ls') = total ls + total ls' := by
  unfold total
  rw [map_append, sum_append]

/-- What is in front of a text is in its first line. -/
theorem total_lines_append (hc : nl ∉ c) (hs : nl ∈ s) : total (lines (c ++ s)) = c.length + total (lines s) := by
  obtain ⟨l, t, rfl, hl⟩ := eq_append_cons_of_mem hs
  have hcl : nl ∉ c ++ l := by simp [hc, hl]
  rw [← append_assoc, (lines_cons hcl t).1, (lines_cons hl t).1]
  simp only [total, map_cons, sum_cons, length_append]
  omega

theorem seen_of_notMem (h : ∀ x ∈ chunks, nl ∉ x) (hc : nl ∉ c) : seen c chunks = [] := by
  induction chunks generalizing c with
  | nil => rfl
  | cons chunk chunks ih =>
    obtain ⟨hchunk, h⟩ := forall_mem_cons.mp h
    have hn : nl ∉ c ++ chunk := by simp [hc, hchunk]
    rw [seen, (lines_of_notMem hn).1, kept, if_neg hn, ih h (by simp), append_nil]

/-- The loop sees no more than there is. -/
theorem total_seen_le (chunks : List (List UInt8)) (hc : nl ∉ c) :
    total (seen c chunks) ≤ total (lines (c ++ chunks.flatten)) := by
  induction chunks generalizing c with
  | nil => exact Nat.zero_le _
  | cons chunk chunks ih =>
    rw [seen, flatten_cons, ← append_assoc, kept]
    split
    · rw [lines_append (c ++ chunk), total_append, total_append]
      exact Nat.add_le_add_left (ih (nl_notMem_rest _)) _
    · rename_i hn
      rw [(lines_of_notMem hn).1, nil_append]
      by_cases hs : nl ∈ chunks.flatten
      · rw [total_lines_append hn hs]
        have := ih (c := []) (by simp)
        rw [nil_append] at this
        omega
      · have hx : ∀ x ∈ chunks, nl ∉ x := fun x hx h => hs (mem_flatten_of_mem hx h)
        rw [seen_of_notMem hx (by simp)]
        exact Nat.zero_le _

theorem seen_eq_lines_iff (hne : ∀ x ∈ chunks, x ≠ []) (hc : nl ∉ c) :
    seen c chunks = lines (c ++ chunks.flatten) ↔ Whole chunks := by
  induction chunks generalizing c with
  | nil =>
    rw [flatten_nil, append_nil, (lines_of_notMem hc).1]
    exact iff_of_true rfl trivial
  | cons chunk chunks ih =>
    obtain ⟨hchunk, hne⟩ := forall_mem_cons.mp hne
    rw [seen, flatten_cons, ← append_assoc, kept, Whole]
    by_cases hx : nl ∈ chunk
    · rw [if_pos (mem_append_right c hx), if_pos hx, lines_append (c ++ chunk), append_cancel_left_eq]
      exact ih hne (nl_notMem_rest _)
    · have hn : nl ∉ c ++ chunk := by simp [hc, hx]
      rw [if_neg hn, if_neg hx, (lines_of_notMem hn).1, nil_append]
      constructor
      · intro h x hmem hnl
        -- a line that lost its beginning
        have hs : nl ∈ chunks.flatten := mem_flatten_of_mem hmem hnl
        have hle := total_seen_le chunks (c := []) (by simp)
        rw [h, total_lines_append hn hs, nil_append, length_append] at hle
        have := length_pos_iff.mpr hchunk
        omega
      · intro h
        have hs : nl ∉ chunks.flatten := fun hm => by
          obtain ⟨x, hx, hm⟩ := mem_flatten.mp hm
          exact h x hx hm
        rw [seen_of_notMem h (by simp), (lines_of_notMem (by simp [hc, hx, hs])).1]

/-- Every line matches the empty pattern. -/
theorem writes_nil (ls : List (List UInt8)) : writes [] ls = ls.map (· ++ [nl]) := by
  have h : ∀ l, match_ [] l = true := fun l => by
    rw [match_iff]
    exact ⟨[], [], cstr l, rfl, rfl⟩
  unfold writes
  rw [filter_eq_self.mpr fun l _ => h l]

/-- For every input without NULs and every way to read it: `grep` writes the lines that match, each
    once and in order, whatever the pattern, exactly when no chunk without a newline comes before
    one with a newline. -/
theorem grep_lines_iff (chunks : List (List UInt8)) (buf : List UInt8) (hbuf : buf.length = bufSize)
    (h0 : 0 ∉ chunks.flatten) (hs : ∀ pattern, Served pattern chunks buf 0) :
    (∀ pattern, grep pattern chunks buf 0 = ((lines chunks.flatten).filter (match_ pattern)).map (· ++ [nl])) ↔ Whole chunks := by
  have hc : Carries buf 0 [] := ⟨hbuf, rfl, rfl⟩
  have hx : ∀ x ∈ chunks, 0 ∉ x := fun x hx h => h0 (List.mem_flatten_of_mem hx h)
  have hgrep : ∀ pattern, grep pattern chunks buf 0 = writes pattern (seen [] chunks) := fun pattern =>
    grep_eq pattern hc (by simp) hx (hs pattern)
  have hfits := (served_iff [] hc (by simp) hx).mp (hs [])
  rw [← seen_eq_lines_iff hfits.ne_nil (c := []) (by simp), List.nil_append]
  constructor
  · intro h
    have h := h []
    rw [hgrep] at h
    change writes [] _ = writes [] _ at h
    rw [writes_nil, writes_nil] at h
    exact List.map_injective_iff.mpr (List.append_left_injective [nl]) h
  · intro h pattern
    rw [hgrep, h]
    rfl

theorem fits_split : Fits [] [[97, 98], [99, 10]] :=
  ⟨by decide, by decide, by decide, by decide, trivial⟩

theorem fits_whole : Fits [] [[97, 10, 98], [99, 10]] :=
  ⟨by decide, by decide, by decide, by decide, trivial⟩

/-- `grep b` of `a`, `bc`, with the second line in two reads. -/
theorem grep_lines_iff_whole : grep [98] [[97, 10, 98], [99, 10]] (List.replicate bufSize 0) 0 = [[98, 99, 10]] := by
  have hc : Carries (List.replicate bufSize 0) 0 [] := ⟨List.length_replicate, rfl, rfl⟩
  have hs : ∀ pattern, Served pattern [[97, 10, 98], [99, 10]] (List.replicate bufSize 0) 0 := fun pattern =>
    (served_iff pattern hc (by simp) (by decide)).mpr fits_whole
  rw [(grep_lines_iff _ _ List.length_replicate (by decide) hs).mpr (by decide)]
  decide

/-- `grep` with the empty pattern of the line `abc` in two reads: `c`. -/
theorem split_line_lost : 0 ∉ ([[97, 98], [99, 10]] : List (List UInt8)).flatten ∧
    (∀ pattern, Served pattern [[97, 98], [99, 10]] (List.replicate bufSize 0) 0) ∧
    lines ([[97, 98], [99, 10]] : List (List UInt8)).flatten = [[97, 98, 99]] ∧ match_ [] [97, 98, 99] = true ∧
    grep [] [[97, 98], [99, 10]] (List.replicate bufSize 0) 0 = [[99, 10]] := by
  have hc : Carries (List.replicate bufSize 0) 0 [] := ⟨List.length_replicate, rfl, rfl⟩
  have hs : ∀ pattern, Served pattern [[97, 98], [99, 10]] (List.replicate bufSize 0) 0 := fun pattern =>
    (served_iff pattern hc (by simp) (by decide)).mpr fits_split
  refine ⟨by decide, hs, by decide, by decide, ?_⟩
  rw [grep_eq [] hc (by simp) (by decide) (hs [])]
  decide

end Xv6.Grep
