/-
  Xv6.Sh.Accepts — `parsecmd` accepts the shell's grammar.

  `Cursor buf s ts`: the tokens from the offset `s` on are `ts`. `peek` and `gettoken` look
  at and take the first of them, so the routines of `sh.c` do on the characters what the
  descent of `Sh.Grammar` does on the tokens (`Sim`).

  `parsecmd_accepts`: on a line without NULs `parsecmd` ends; it returns a command exactly if
  the tokens of the line have a derivation with less than `MAXARGS` words in each command,
  and then it is that derivation's; derivations are unique; and in the line that
  `nulterminate` leaves every word and file name is the string at its offset.

  `nulterminate_keeps_words`: for every accepted line, each word and file name of the command
  is a token, reads as the token's text afterwards, and no byte but the tokens' ends changes.
-/

import Xv6.Sh.Grammar

namespace Xv6.Sh

open List

/-! ## Characters -/

section Lexer

variable {buf : List Char} {s e : Nat} {c : Char} {l : List Char} {ts : List Tok}

theorem drop_eq_cons (h : s < buf.length) : buf.drop s = char buf s :: buf.drop (s + 1) := by
  rw [drop_eq_getElem_cons h, char, getD_eq_getElem _ _ h]

theorem char_of_le (h : buf.length ≤ s) : char buf s = '\x00' := by
  rw [char, getD_eq_getElem?_getD, getElem?_eq_none h]
  rfl

theorem char_mem (h : s < buf.length) : char buf s ∈ buf := by
  rw [char, getD_eq_getElem _ _ h]
  exact getElem_mem h

/-- Where the loop of `skip` ends. -/
theorem skip_spec (p : Char → Bool) (buf : List Char) (k s : Nat) : s ≤ skip p buf k s ∧ skip p buf k s ≤ s + k ∧
    (∀ i, s ≤ i → i < skip p buf k s → p (char buf i) = true) ∧ (skip p buf k s < s + k → p (char buf (skip p buf k s)) = false) := by
  induction k generalizing s with
  | zero => exact ⟨Nat.le_refl s, Nat.le_refl s, fun i h1 h2 => absurd h2 (Nat.not_lt.2 h1), fun h => absurd h (Nat.lt_irrefl s)⟩
  | succ k ih =>
    rw [skip]
    split
    · rename_i hp
      obtain ⟨h1, h2, h3, h4⟩ := ih (s + 1)
      refine ⟨by omega, by omega, fun i hi hlt => ?_, fun h => h4 (by omega)⟩
      rcases Nat.eq_or_lt_of_le hi with rfl | hi
      · exact hp
      · exact h3 i hi hlt
    · rename_i hp
      exact ⟨Nat.le_refl s, by omega, fun i h1 h2 => absurd h2 (Nat.not_lt.2 h1), fun _ => by simpa using hp⟩

/-! ## The first token -/

theorem isWord_ne_gt (h : isWord c = true) : c ≠ '>' := fun e => by
  rw [e] at h
  exact absurd h (by decide)

theorem tokens_word (q : Option Nat) (h : isWord c = true) : tokens q s (c :: l) = tokens (some (q.getD s)) (s + 1) l := by
  rw [tokens.eq_3 _ _ _ _ fun _ e => absurd e (isWord_ne_gt h), if_pos h]

/-- A word ends before what is not part of a word. -/
theorem tokens_close {q : Nat} (h : ∀ c l', l = c :: l' → isWord c = false) : tokens (some q) s l = .word q s :: tokens none s l := by
  unfold tokens
  split
  · rfl
  · rfl
  · rename_i c l _
    rw [h c l rfl]
    rfl

theorem symbol_of_blank (h : strchr whitespace c = true) : symbol c = [] ∧ isWord c = false ∧ c ≠ '>' := by
  simp only [strchr, whitespace, contains_eq_mem, mem_cons, not_mem_nil, or_false, decide_eq_true_eq] at h
  rcases h with rfl | rfl | rfl | rfl | rfl <;> decide

theorem tokens_blank (h : strchr whitespace c = true) : tokens none s (c :: l) = tokens none (s + 1) l := by
  obtain ⟨h1, h2, h3⟩ := symbol_of_blank h
  rw [tokens.eq_3 _ _ _ _ fun _ e => absurd e h3, h2, h1]
  rfl

theorem tokens_append : tokens none s ('>' :: '>' :: l) = .redir .append :: tokens none (s + 2) l := rfl

theorem tokens_symbol (hw : isWord c = false) (hg : c = '>' → ∀ l', l ≠ '>' :: l') : tokens none s (c :: l) = symbol c ++ tokens none (s + 1) l := by
  rw [tokens.eq_3 _ _ _ _ fun l' e => hg e l', hw]
  rfl

/-- A run of characters of a word. -/
theorem tokens_run {q k : Nat} (hk : s + k ≤ buf.length) (h : ∀ i, s ≤ i → i < s + k → isWord (char buf i) = true) :
    tokens (some q) s (buf.drop s) = tokens (some q) (s + k) (buf.drop (s + k)) := by
  induction k generalizing s with
  | zero => rfl
  | succ k ih =>
    rw [drop_eq_cons (by omega), tokens_word _ (h s (Nat.le_refl s) (by omega)), show s + (k + 1) = s + 1 + k by omega]
    exact ih (by omega) fun i h1 h2 => h i (by omega) (by omega)

/-- A run of blanks. -/
theorem tokens_blanks {k : Nat} (hk : s + k ≤ buf.length) (h : ∀ i, s ≤ i → i < s + k → strchr whitespace (char buf i) = true) :
    tokens none s (buf.drop s) = tokens none (s + k) (buf.drop (s + k)) := by
  induction k generalizing s with
  | zero => rfl
  | succ k ih =>
    rw [drop_eq_cons (by omega), tokens_blank (h s (Nat.le_refl s) (by omega)), show s + (k + 1) = s + 1 + k by omega]
    exact ih (by omega) fun i h1 h2 => h i (by omega) (by omega)

/-- The tokens from the offset `s` on are `ts`. -/
structure Cursor (buf : List Char) (s : Nat) (ts : List Tok) : Prop where
  le : s ≤ buf.length
  toks : tokens none s (buf.drop s) = ts

theorem Cursor.skipBlanks (hc : Cursor buf s ts) :
    Cursor buf (skipBlanks buf s) ts ∧ strchr whitespace (char buf (Sh.skipBlanks buf s)) = false := by
  obtain ⟨h1, h2, h3, h4⟩ := skip_spec (strchr whitespace) buf (buf.length - s) s
  have hle := hc.le
  change s ≤ Sh.skipBlanks buf s at h1
  change Sh.skipBlanks buf s ≤ s + (buf.length - s) at h2
  change ∀ i, s ≤ i → i < Sh.skipBlanks buf s → _ at h3
  change Sh.skipBlanks buf s < s + (buf.length - s) → strchr whitespace (char buf (Sh.skipBlanks buf s)) = false at h4
  generalize Sh.skipBlanks buf s = e at *
  obtain ⟨k, rfl⟩ : ∃ k, e = s + k := ⟨e - s, by omega⟩
  refine ⟨⟨by omega, ?_⟩, ?_⟩
  · rw [← tokens_blanks (by omega) h3]
    exact hc.toks
  · rcases Nat.lt_or_ge (s + k) buf.length with hlt | hge
    · exact h4 (by omega)
    · rw [char_of_le hge]
      decide

/-- What the character under the cursor is the first of. -/
inductive First (buf : List Char) (s : Nat) : List Tok → Prop where
  | done (he : s = buf.length) : First buf s []
  | append {ts : List Tok} (hc : char buf s = '>') (hn : char buf (s + 1) = '>') (ht : Cursor buf (s + 2) ts) : First buf s (.redir .append :: ts)
  | symbol {t : Tok} {ts : List Tok} (ht : symbol (char buf s) = [t]) (hn : char buf s = '>' → char buf (s + 1) ≠ '>') (hs : Cursor buf (s + 1) ts) :
      First buf s (t :: ts)
  | word {ts : List Tok} (hlt : s < buf.length) (hw : isWord (char buf s) = true) (ht : Cursor buf (skip isWord buf (buf.length - s) s) ts) :
      First buf s (.word s (skip isWord buf (buf.length - s) s) :: ts)

theorem symbol_of_symbol (hb : strchr whitespace c = false) (hw : isWord c = false) : ∃ t, symbol c = [t] := by
  have h : strchr symbols c = true := by simpa [isWord, hb] using hw
  simp only [strchr, symbols, contains_eq_mem, mem_cons, not_mem_nil, or_false, decide_eq_true_eq] at h
  rcases h with rfl | rfl | rfl | rfl | rfl | rfl | rfl
  all_goals exact ⟨_, rfl⟩

theorem Cursor.first (hc : Cursor buf s ts) (hb : strchr whitespace (char buf s) = false) : First buf s ts := by
  rcases Nat.eq_or_lt_of_le hc.le with rfl | hlt
  · have := hc.toks
    rw [drop_length] at this
    rw [← this]
    exact .done rfl
  have htoks := hc.toks
  rw [drop_eq_cons hlt] at htoks
  cases hw : isWord (char buf s) with
  | true =>
    obtain ⟨h1, h2, h3, h4⟩ := skip_spec isWord buf (buf.length - s) s
    have hs : skip isWord buf (buf.length - s) s ≠ s := fun e => by
      rw [e, hw] at h4
      exact absurd (h4 (by omega)) (by decide)
    rw [tokens_word none hw] at htoks
    have hword : ts = .word s (skip isWord buf (buf.length - s) s) :: tokens none (skip isWord buf (buf.length - s) s)
        (buf.drop (skip isWord buf (buf.length - s) s)) := by
      generalize skip isWord buf (buf.length - s) s = e at *
      obtain ⟨k, rfl⟩ : ∃ k, e = s + 1 + k := ⟨e - (s + 1), by omega⟩
      rw [← htoks, Option.getD_none, tokens_run (by omega) fun i hi1 hi2 => h3 i (by omega) hi2]
      refine tokens_close fun c l' e => ?_
      have hlt : s + 1 + k < buf.length := by
        by_contra hn
        rw [drop_eq_nil_of_le (by omega)] at e
        cases e
      rw [drop_eq_cons hlt] at e
      rw [← (cons.inj e).1]
      exact h4 (by omega)
    rw [hword]
    exact .word hlt hw ⟨by omega, rfl⟩
  | false =>
    by_cases hg : char buf s = '>' ∧ char buf (s + 1) = '>'
    · obtain ⟨hg, hn⟩ := hg
      have hlt1 : s + 1 < buf.length := by
        by_contra h
        rw [char_of_le (by omega)] at hn
        exact absurd hn (by decide)
      rw [hg, drop_eq_cons hlt1, hn, tokens_append] at htoks
      rw [← htoks]
      exact .append hg hn ⟨by omega, rfl⟩
    · obtain ⟨t, ht⟩ := symbol_of_symbol hb hw
      have hn : char buf s = '>' → char buf (s + 1) ≠ '>' := fun h1 h2 => hg ⟨h1, h2⟩
      rw [tokens_symbol hw fun h1 l' e => ?_, ht] at htoks
      · rw [← htoks]
        exact .symbol ht hn ⟨hlt, rfl⟩
      · have hlt1 : s + 1 < buf.length := by
          by_contra h
          rw [drop_eq_nil_of_le (by omega)] at e
          cases e
        rw [drop_eq_cons hlt1] at e
        exact hn h1 (cons.inj e).1

/-- The character a token starts with, `a` for a word. -/
def Tok.first : Tok → Char
  | .word _ _ => 'a'
  | .redir .input => '<'
  | .redir .output => '>'
  | .redir .append => '>'
  | .bar => '|'
  | .amp => '&'
  | .semi => ';'
  | .lparen => '('
  | .rparen => ')'

/-- What `gettoken` returns for it. -/
def Tok.ret : Tok → Char
  | .redir .append => '+'
  | t => t.first

theorem first_of_symbol {t : Tok} (h : symbol c = [t]) : t.first = c ∧ t.ret = c ∧ c ∈ symbols ∧ ∀ q eq, t ≠ .word q eq := by
  unfold symbol at h
  split at h
  all_goals first
    | cases h
      exact ⟨rfl, rfl, by decide, nofun⟩
    | cases h

theorem isWord_not_symbol (h : isWord c = true) : strchr symbols c = false := by
  simp only [isWord, Bool.and_eq_true, Bool.not_eq_true'] at h
  exact h.2

/-- The first token is one that starts with one of `toks`. -/
def starts (toks : List Char) : List Tok → Bool
  | [] => false
  | t :: _ => strchr toks t.first

/-- The symbols that are tokens by themselves. -/
theorem starts_iff {t : Tok} (ht : t ∈ [.bar, .amp, .semi, .lparen, .rparen]) : starts [t.first] ts = true ↔ ∃ l, ts = t :: l := by
  cases ts with
  | nil => exact ⟨nofun, fun ⟨_, e⟩ => nomatch e⟩
  | cons t' l =>
    have h : starts [t.first] (t' :: l) = true ↔ t'.first = t.first := by simp [starts, strchr]
    rw [h]
    refine ⟨fun hf => ⟨l, ?_⟩, fun ⟨_, e⟩ => by rw [(cons.inj e).1]⟩
    simp only [mem_cons, not_mem_nil, or_false] at ht
    rcases ht with rfl | rfl | rfl | rfl | rfl
    all_goals
      cases t' with
      | redir op => cases op <;> exact absurd hf (by decide)
      | word => exact absurd hf (by simp [Tok.first])
      | bar | amp | semi | lparen | rparen =>
        first
          | rfl
          | exact absurd hf (by decide)

theorem peek_spec (hc : Cursor buf s ts) (toks : List Char) (ht : toks ⊆ symbols) :
    ∃ s', peek buf s toks = (starts toks ts, s') ∧ Cursor buf s' ts := by
  obtain ⟨hc, hb⟩ := hc.skipBlanks
  refine ⟨_, ?_, hc⟩
  have hword : ∀ c, strchr symbols c = false → strchr toks c = false := fun c hn => by
    simp only [strchr, contains_eq_mem, decide_eq_false_iff_not] at hn ⊢
    exact fun hm => hn (ht hm)
  simp only [peek]
  generalize Sh.skipBlanks buf s = s at *
  cases hc.first hb with
  | done he =>
    rw [char_of_le (Nat.le_of_eq he.symm)]
    rfl
  | append hg hn _ =>
    rw [hg]
    rfl
  | symbol hsym _ _ =>
    obtain ⟨hf, _, hm, _⟩ := first_of_symbol hsym
    have hne : char buf s ≠ '\x00' := fun e => by
      rw [e] at hm
      exact absurd hm (by decide)
    rw [starts, hf, bne_iff_ne.2 hne, Bool.true_and]
  | word _ hw _ =>
    rw [hword _ (isWord_not_symbol hw), Bool.and_false, starts]
    exact congrArg (·, s) (hword 'a' (by decide)).symm

theorem gettoken_nil (hc : Cursor buf s []) : (gettoken buf s).ret = '\x00' ∧ Cursor buf (gettoken buf s).s [] := by
  obtain ⟨hc, hb⟩ := hc.skipBlanks
  have hf := hc.first hb
  simp only [gettoken]
  generalize Sh.skipBlanks buf s = s at *
  cases hf with
  | done he =>
    rw [char_of_le (Nat.le_of_eq he.symm), if_pos rfl]
    exact ⟨rfl, hc.skipBlanks.1⟩

theorem gettoken_cons {t : Tok} (hz : '\x00' ∉ buf) (hc : Cursor buf s (t :: ts)) : (gettoken buf s).ret = t.ret ∧ Cursor buf (gettoken buf s).s ts ∧
    ∀ q eq, t = .word q eq → (gettoken buf s).q = q ∧ (gettoken buf s).eq = eq := by
  obtain ⟨hc, hb⟩ := hc.skipBlanks
  have hf := hc.first hb
  simp only [gettoken]
  generalize Sh.skipBlanks buf s = s at *
  cases hf with
  | append hg hn ht =>
    rw [hg, hn]
    exact ⟨rfl, ht.skipBlanks.1, nofun⟩
  | symbol hsym hn hs =>
    obtain ⟨_, hr, hm, hnw⟩ := first_of_symbol hsym
    rw [hr]
    refine ⟨?_, ?_, fun q eq e => absurd e (hnw q eq)⟩
    all_goals
      generalize char buf s = c at hm hn ⊢
      simp only [symbols, mem_cons, not_mem_nil, or_false] at hm
      rcases hm with rfl | rfl | rfl | rfl | rfl | rfl | rfl
    all_goals first
      | rfl
      | exact hs.skipBlanks.1
      | rw [if_neg (hn rfl)]
        first
          | rfl
          | exact hs.skipBlanks.1
  | word hlt hw ht =>
    have h0 : char buf s ≠ '\x00' := fun e => hz (e ▸ char_mem hlt)
    have hns : char buf s ∉ symbols := by
      have := isWord_not_symbol hw
      simpa [strchr] using this
    simp only [symbols, mem_cons, not_mem_nil, or_false, not_or] at hns
    simp only [h0, hns, if_false, decide_false, Bool.or_self, Bool.false_eq_true]
    refine ⟨rfl, ht.skipBlanks.1, fun q eq e => ?_⟩
    cases e
    exact ⟨rfl, rfl⟩

end Lexer

/-! ## The routines on tokens -/

/-- `x` ends as `y` does; where `y` returns `a`, `x` returns the command that is for `a`. -/
def Sim (buf : List Char) {α : Type} (cmd : α → Cmd) (x : Except Stop (Cmd × Nat)) (y : Except Stop (α × List Tok)) : Prop :=
  (∀ e, y = .error e → x = .error e) ∧ ∀ a ts, y = .ok (a, ts) → ∃ s, x = .ok (cmd a, s) ∧ Cursor buf s ts

section Sim

variable {buf : List Char} {s : Nat} {ts : List Tok} {α β : Type} {cmd : α → Cmd} {cmd' : β → Cmd}

theorem Sim.error {e : Stop} : Sim buf cmd (.error e) (.error e) :=
  ⟨fun e' h => by cases h; rfl, nofun⟩

theorem Sim.ok (cmd : α → Cmd) {a : α} (h : Cursor buf s ts) : Sim buf cmd (.ok (cmd a, s)) (.ok (a, ts)) :=
  ⟨nofun, fun a' ts' e => by cases e; exact ⟨s, rfl, h⟩⟩

theorem Sim.bind {x : Except Stop (Cmd × Nat)} {y : Except Stop (α × List Tok)} {f : Cmd × Nat → Except Stop (Cmd × Nat)}
    {g : α × List Tok → Except Stop (β × List Tok)} (h : Sim buf cmd x y)
    (hf : ∀ a ts s, Cursor buf s ts → Sim buf cmd' (f (cmd a, s)) (g (a, ts))) : Sim buf cmd' (x >>= f) (y >>= g) := by
  cases y with
  | error e =>
    rw [h.1 e rfl]
    exact .error
  | ok r =>
    obtain ⟨s, hx, hc⟩ := h.2 r.1 r.2 rfl
    rw [hx]
    exact hf r.1 r.2 s hc

/-- What is done with the result on the tokens does not matter to the command. -/
theorem Sim.map {x : Except Stop (Cmd × Nat)} {y : Except Stop (α × List Tok)} {f : α → β} (h : Sim buf cmd x y) (hf : ∀ a, cmd' (f a) = cmd a) :
    Sim buf cmd' x (y >>= fun r => .ok (f r.1, r.2)) := by
  cases y with
  | error e =>
    rw [h.1 e rfl]
    exact .error
  | ok r =>
    obtain ⟨s, hx, hc⟩ := h.2 r.1 r.2 rfl
    rw [hx, ← hf]
    exact .ok cmd' hc

variable (hz : '\x00' ∉ buf)
include hz

theorem parseredirs_sim (fuel : Nat) (cmd : Cmd) (hc : Cursor buf s ts) :
    Sim buf (redirect · cmd) (parseredirs buf fuel cmd s) (redirs fuel ts) := by
  induction fuel generalizing cmd s ts with
  | zero => exact .error
  | succ fuel ih =>
    obtain ⟨s, hp, hc⟩ := peek_spec hc ['<', '>'] (by decide)
    unfold parseredirs
    rw [hp]
    have hother : (∀ op l, ts ≠ .redir op :: l) → Sim buf (redirect · cmd) (.ok (cmd, s)) (redirs (fuel + 1) ts) := fun hr => by
      unfold redirs
      split
      · exact absurd rfl (hr _ _)
      · exact absurd rfl (hr _ _)
      · exact Sim.ok (redirect · cmd) (a := []) hc
    cases ts with
    | nil => exact hother nofun
    | cons t ts =>
      cases t with
      | redir op =>
        obtain ⟨hret, hc, _⟩ := gettoken_cons hz hc
        have hs : starts ['<', '>'] (.redir op :: ts) = true := by cases op <;> rfl
        simp only [hs, if_true]
        cases ts with
        | nil =>
          obtain ⟨hret', _⟩ := gettoken_nil hc
          rw [if_pos (by rw [hret']; decide)]
          exact .error
        | cons f ts =>
          obtain ⟨hret', hc', hq⟩ := gettoken_cons hz hc
          cases f with
          | word q eq =>
            obtain ⟨h1, h2⟩ := hq q eq rfl
            have hcmd : redircmd (Tok.redir op).ret cmd q eq = .redir cmd q eq op.mode op.fd := by cases op <;> rfl
            rw [if_neg fun h => h hret', h1, h2, hret, hcmd]
            show Sim buf _ _ (redirs fuel ts >>= fun r => .ok (⟨op, q, eq⟩ :: r.1, r.2))
            exact (ih _ hc').map fun rs => rfl
          | redir op' =>
            rw [if_pos (by rw [hret']; cases op' <;> decide)]
            exact .error
          | bar | amp | semi | lparen | rparen =>
            rw [if_pos (by rw [hret']; decide)]
            exact .error
      | word | bar | amp | semi | lparen | rparen => exact hother nofun

/-- The words, each with the redirections after it, as the loop of `parseexec` adds them. -/
def applyArgs (as : List ((Nat × Nat) × List Redir)) (ret : Cmd) : Cmd := as.foldl (fun ret a => redirect a.2 (addArg a.1.1 a.1.2 ret)) ret

theorem parseargs_sim (fuel argc : Nat) (ret : Cmd) (hc : Cursor buf s ts) :
    Sim buf (applyArgs · ret) (parseargs buf fuel argc ret s) (args MAXARGS argc fuel ts) := by
  induction fuel generalizing argc ret s ts with
  | zero => exact .error
  | succ fuel ih =>
    obtain ⟨s, hp, hc⟩ := peek_spec hc ['|', ')', '&', ';'] (by decide)
    unfold parseargs
    rw [hp]
    cases ts with
    | nil =>
      obtain ⟨hret, hc⟩ := gettoken_nil hc
      have hs : starts ['|', ')', '&', ';'] [] = false := rfl
      simp only [hs, hret, Bool.false_eq_true, if_false, if_true]
      exact Sim.ok (applyArgs · ret) (a := []) hc
    | cons t ts =>
      obtain ⟨hret, hc', hq⟩ := gettoken_cons hz hc
      cases t with
      | bar | amp | semi | rparen => exact Sim.ok (applyArgs · ret) (a := []) hc
      | lparen =>
        have hs : starts ['|', ')', '&', ';'] (.lparen :: ts) = false := rfl
        simp only [hs, hret, Bool.false_eq_true, if_false]
        exact .error
      | redir op =>
        have hs : starts ['|', ')', '&', ';'] (.redir op :: ts) = false := by cases op <;> rfl
        have hr : (Tok.redir op).ret ≠ '\x00' ∧ (Tok.redir op).ret ≠ 'a' := by cases op <;> decide
        simp only [hs, hret, hr.1, hr.2, Bool.false_eq_true, if_false, ne_eq, not_false_eq_true, if_true]
        exact .error
      | word q eq =>
        obtain ⟨h1, h2⟩ := hq q eq rfl
        have hs : starts ['|', ')', '&', ';'] (.word q eq :: ts) = false := rfl
        have hr : (Tok.word q eq).ret = 'a' := rfl
        simp only [hs, hret, hr, h1, h2, Bool.false_eq_true, if_false, ne_eq, not_true_eq_false, show ('a' : Char) ≠ '\x00' by decide]
        unfold args
        simp only
        split
        · exact .error
        · refine (parseredirs_sim hz fuel (addArg q eq ret) hc').bind fun rs ts s hc => ?_
          exact (ih (argc + 1) _ hc).map fun as => rfl

theorem parseback_sim (fuel : Nat) (cmd : Cmd) (hc : Cursor buf s ts) : Sim buf (Cmd.back^[·] cmd) (parseback buf fuel cmd s) (amps fuel ts) := by
  induction fuel generalizing cmd s ts with
  | zero => exact .error
  | succ fuel ih =>
    obtain ⟨s, hp, hc⟩ := peek_spec hc ['&'] (by decide)
    unfold parseback
    rw [hp]
    cases ts with
    | nil => exact Sim.ok (Cmd.back^[·] cmd) (a := 0) hc
    | cons t ts =>
      cases t with
      | amp =>
        obtain ⟨_, hc, _⟩ := gettoken_cons hz hc
        exact (ih (.back cmd) hc).map fun k => rfl
      | redir op =>
        have hs : starts ['&'] (.redir op :: ts) = false := by cases op <;> rfl
        rw [hs]
        exact Sim.ok (Cmd.back^[·] cmd) (a := 0) hc
      | word | bar | semi | lparen | rparen => exact Sim.ok (Cmd.back^[·] cmd) (a := 0) hc

omit hz in
/-- Redirections around an `execcmd` do not come between it and its words. -/
theorem addArg_redirect (rs : List Redir) (q eq : Nat) (cmd : Cmd) : addArg q eq (redirect rs cmd) = redirect rs (addArg q eq cmd) := by
  induction rs generalizing cmd with
  | nil => rfl
  | cons r rs ih => exact ih _

omit hz in
theorem redirect_append (rs rs' : List Redir) (cmd : Cmd) : redirect (rs ++ rs') cmd = redirect rs' (redirect rs cmd) := foldl_append ..

omit hz in
theorem applyArgs_exec (rs : List Redir) (as : List ((Nat × Nat) × List Redir)) (ws : List (Nat × Nat)) :
    applyArgs as (redirect rs (.exec ws)) = redirect (rs ++ as.flatMap (·.2)) (.exec (ws ++ as.map (·.1))) := by
  induction as generalizing rs ws with
  | nil => simp [applyArgs]
  | cons a as ih =>
    show applyArgs as (redirect a.2 (addArg a.1.1 a.1.2 (redirect rs (.exec ws)))) = _
    rw [addArg_redirect, ← redirect_append]
    show applyArgs as (redirect (rs ++ a.2) (.exec (ws ++ [a.1]))) = _
    rw [ih]
    simp

/-- The routines of `sh.c` are the descent over the tokens. -/
theorem parse_sim (fuel : Nat) :
    (∀ {s ts}, Cursor buf s ts → Sim buf Deriv.cmd (parseline buf fuel s) (line MAXARGS fuel ts)) ∧
    (∀ {s ts}, Cursor buf s ts → Sim buf Deriv.cmd (parsepipe buf fuel s) (pipe MAXARGS fuel ts)) ∧
    (∀ {s ts}, Cursor buf s ts → Sim buf Deriv.cmd (parseblock buf fuel s) (block MAXARGS fuel ts)) ∧
    ∀ {s ts}, Cursor buf s ts → Sim buf Deriv.cmd (parseexec buf fuel s) (exec MAXARGS fuel ts) := by
  induction fuel with
  | zero =>
    unfold parseline parsepipe parseblock parseexec line pipe block exec
    exact ⟨fun _ => .error, fun _ => .error, fun _ => .error, fun _ => .error⟩
  | succ fuel ih =>
    obtain ⟨hline, hpipe, hblock, hexec⟩ := ih
    refine ⟨fun hc => ?_, fun hc => ?_, fun hc => ?_, fun hc => ?_⟩
    · unfold parseline line
      refine (hpipe hc).bind fun p ts s hc => (parseback_sim hz fuel p.cmd hc).bind fun k ts s hc => ?_
      obtain ⟨s, hp, hc⟩ := peek_spec hc [Tok.semi.first] (by decide)
      simp only [show [';'] = [Tok.semi.first] from rfl, hp]
      split
      · rename_i hs
        obtain ⟨l, rfl⟩ := (starts_iff (by decide)).1 hs
        obtain ⟨_, hc, _⟩ := gettoken_cons hz hc
        exact (hline hc).bind fun l ts s hc => .ok Deriv.cmd (a := .seq p k l) hc
      · rename_i hs
        split
        · exact absurd ((starts_iff (by decide)).2 ⟨_, rfl⟩) hs
        · exact .ok Deriv.cmd (a := .last p k) hc
    · unfold parsepipe pipe
      refine (hexec hc).bind fun e ts s hc => ?_
      obtain ⟨s, hp, hc⟩ := peek_spec hc [Tok.bar.first] (by decide)
      simp only [show ['|'] = [Tok.bar.first] from rfl, hp]
      split
      · rename_i hs
        obtain ⟨l, rfl⟩ := (starts_iff (by decide)).1 hs
        obtain ⟨_, hc, _⟩ := gettoken_cons hz hc
        exact (hpipe hc).bind fun p ts s hc => .ok Deriv.cmd (a := .piped e p) hc
      · rename_i hs
        split
        · exact absurd ((starts_iff (by decide)).2 ⟨_, rfl⟩) hs
        · exact .ok Deriv.cmd (a := .single e) hc
    · unfold parseblock block
      obtain ⟨s, hp, hc⟩ := peek_spec hc [Tok.lparen.first] (by decide)
      simp only [show ['('] = [Tok.lparen.first] from rfl, hp]
      cases hs : starts [Tok.lparen.first] _ with
      | false =>
        rw [if_pos (show (!false) = true from rfl)]
        split
        · rw [(starts_iff (by decide)).2 ⟨_, rfl⟩] at hs
          cases hs
        · exact .error
      | true =>
        obtain ⟨l, rfl⟩ := (starts_iff (by decide)).1 hs
        obtain ⟨_, hc, _⟩ := gettoken_cons hz hc
        refine (hline hc).bind fun l ts s hc => ?_
        obtain ⟨s, hp, hc⟩ := peek_spec hc [Tok.rparen.first] (by decide)
        simp only [show [')'] = [Tok.rparen.first] from rfl, hp]
        cases hs : starts [Tok.rparen.first] ts with
        | false =>
          rw [if_pos (show (!false) = true from rfl)]
          split
          · rw [(starts_iff (by decide)).2 ⟨_, rfl⟩] at hs
            cases hs
          · exact .error
        | true =>
          obtain ⟨_, rfl⟩ := (starts_iff (by decide)).1 hs
          obtain ⟨_, hc, _⟩ := gettoken_cons hz hc
          exact (parseredirs_sim hz fuel l.cmd hc).map fun rs => rfl
    · unfold parseexec exec
      obtain ⟨s, hp, hc⟩ := peek_spec hc [Tok.lparen.first] (by decide)
      simp only [show ['('] = [Tok.lparen.first] from rfl, hp]
      split
      · rename_i hs
        obtain ⟨l, rfl⟩ := (starts_iff (by decide)).1 hs
        exact hblock hc
      · rename_i hs
        split
        · exact absurd ((starts_iff (by decide)).2 ⟨_, rfl⟩) hs
        · refine (parseredirs_sim hz fuel (.exec []) hc).bind fun rs ts s hc => ?_
          exact (parseargs_sim hz fuel 0 _ hc).map fun as => (applyArgs_exec rs as []).symm

end Sim

/-! ## Words -/

def Cmd.words : Cmd → List (Nat × Nat)
  | .exec argv => argv
  | .redir cmd file efile _ _ => (file, efile) :: cmd.words
  | .pipe left right => left.words ++ right.words
  | .list left right => left.words ++ right.words
  | .back cmd => cmd.words

theorem words_redirect {w : Nat × Nat} (rs : List Redir) (cmd : Cmd) (h : w ∈ (redirect rs cmd).words) :
    w ∈ cmd.words ∨ .word w.1 w.2 ∈ yieldRedirs rs := by
  induction rs generalizing cmd with
  | nil => exact .inl h
  | cons r rs ih =>
    have hy : yieldRedirs (r :: rs) = .redir r.op :: .word r.file.1 r.file.2 :: yieldRedirs rs := rfl
    rw [hy]
    rcases ih _ h with h | h
    · rcases mem_cons.1 h with rfl | h
      · exact .inr (by simp)
      · exact .inl h
    · exact .inr (mem_cons_of_mem _ (mem_cons_of_mem _ h))

theorem words_back (k : Nat) (cmd : Cmd) : (Cmd.back^[k] cmd).words = cmd.words := by
  induction k generalizing cmd with
  | zero => rfl
  | succ k ih => exact ih (.back cmd)

theorem yieldRedirs_append (rs rs' : List Redir) : yieldRedirs (rs ++ rs') = yieldRedirs rs ++ yieldRedirs rs' := flatMap_append

theorem mem_yieldArgs {t : Tok} {as : List ((Nat × Nat) × List Redir)} (h : t ∈ yieldRedirs (as.flatMap (·.2))) : t ∈ yieldArgs as := by
  induction as with
  | nil => exact h
  | cons a as ih =>
    rw [flatMap_cons, yieldRedirs_append] at h
    rw [yieldArgs, flatMap_cons]
    rcases mem_append.1 h with h | h
    · exact mem_append_left _ (mem_cons_of_mem _ h)
    · exact mem_append_right _ (ih h)

/-- The words of a command are word tokens. -/
theorem Deriv.word_mem {n : Nonterminal} (d : Deriv n) {w : Nat × Nat} (h : w ∈ d.cmd.words) : .word w.1 w.2 ∈ d.yield := by
  induction d with
  | last p k ih =>
    rw [Deriv.cmd, words_back] at h
    exact mem_append_left _ (ih h)
  | seq p k l ihp ihl =>
    rw [Deriv.cmd, Cmd.words, words_back] at h
    rcases mem_append.1 h with h | h
    · exact mem_append_left _ (ihp h)
    · exact mem_append_right _ (mem_append_right _ (mem_cons_of_mem _ (ihl h)))
  | single e ih => exact ih h
  | piped e p ihe ihp =>
    rcases mem_append.1 h with h | h
    · exact mem_append_left _ (ihe h)
    · exact mem_append_right _ (mem_cons_of_mem _ (ihp h))
  | block l rs ih =>
    refine mem_cons_of_mem _ ?_
    rcases words_redirect rs _ h with h | h
    · exact mem_append_left _ (ih h)
    · exact mem_append_right _ (mem_cons_of_mem _ h)
  | simple rs as =>
    rcases words_redirect _ _ h with h | h
    · obtain ⟨a, ha, rfl⟩ := mem_map.1 h
      refine mem_append_right _ (mem_flatMap.2 ⟨a, ha, mem_cons_self⟩)
    · rw [yieldRedirs_append] at h
      rcases mem_append.1 h with h | h
      · exact mem_append_left _ h
      · exact mem_append_right _ (mem_yieldArgs h)

/-- A word token is a maximal run of word characters. -/
structure Run (buf : List Char) (q eq : Nat) : Prop where
  lt : q < eq
  le : eq ≤ buf.length
  inside : ∀ i, q ≤ i → i < eq → isWord (char buf i) = true
  after : eq = buf.length ∨ isWord (char buf eq) = false

variable {buf : List Char}

theorem Cursor.run {s q eq : Nat} {ts : List Tok} (hc : Cursor buf s ts) (h : .word q eq ∈ ts) : Run buf q eq := by
  induction ts generalizing s with
  | nil => cases h
  | cons t ts ih =>
    obtain ⟨hc, hb⟩ := hc.skipBlanks
    generalize Sh.skipBlanks buf s = s at *
    cases hc.first hb with
    | append _ _ ht => exact ih ht ((mem_cons.1 h).resolve_left nofun)
    | symbol hsym _ hs =>
      obtain ⟨_, _, _, hnw⟩ := first_of_symbol hsym
      exact ih hs ((mem_cons.1 h).resolve_left fun e => hnw q eq e.symm)
    | word hlt hw ht =>
      rcases mem_cons.1 h with h | h
      · cases h
        obtain ⟨h1, h2, h3, h4⟩ := skip_spec isWord buf (buf.length - q) q
        refine ⟨?_, by omega, h3, ?_⟩
        · refine Nat.lt_of_le_of_ne h1 fun e => ?_
          rw [← e, hw] at h4
          exact absurd (h4 (by omega)) (by decide)
        · rcases Nat.lt_or_ge (skip isWord buf (buf.length - q) q) buf.length with hlt | hge
          · exact .inr (h4 (by omega))
          · exact .inl (by omega)
      · exact ih ht h

/-! ## `nulterminate` -/

theorem char_set (mem : List Char) (e i : Nat) : char (mem.set e '\x00') i = if i = e then '\x00' else char mem i := by
  simp only [char, getD_eq_getElem?_getD, getElem?_set]
  split
  · rename_i he
    subst he
    rw [if_pos rfl]
    split <;> rfl
  · rename_i he
    rw [if_neg fun e => he e.symm]

theorem char_nulterminate (cmd : Cmd) (mem : List Char) (i : Nat) :
    char (nulterminate cmd mem) i = if i ∈ cmd.words.map (·.2) then '\x00' else char mem i := by
  induction cmd generalizing mem with
  | exec argv =>
    rw [nulterminate, Cmd.words]
    induction argv generalizing mem with
    | nil => rfl
    | cons w argv ih =>
      rw [foldl_cons, ih, char_set, map_cons]
      by_cases h1 : i = w.2
      · rw [if_pos h1, ite_self, if_pos (mem_cons.2 (.inl h1))]
      · simp only [mem_cons, h1, false_or, if_false]
  | redir cmd file efile mode fd ih =>
    rw [nulterminate, char_set, ih, Cmd.words, map_cons]
    by_cases h1 : i = efile
    · rw [if_pos h1, if_pos (mem_cons.2 (.inl h1))]
    · simp only [mem_cons, h1, false_or, if_false]
  | pipe left right ihl ihr | list left right ihl ihr =>
    rw [nulterminate, ihr, ihl, Cmd.words, map_append]
    by_cases h1 : i ∈ right.words.map (·.2)
    · rw [if_pos h1, if_pos (mem_append_right _ h1)]
    · rw [if_neg h1]
      by_cases h2 : i ∈ left.words.map (·.2)
      · rw [if_pos h2, if_pos (mem_append_left _ h2)]
      · rw [if_neg h2, if_neg fun h => (mem_append.1 h).elim h2 h1]
  | back cmd ih => exact ih mem

/-- The string at `q`. -/
def cstr (mem : List Char) (q : Nat) : List Char := (mem.drop q).takeWhile (· ≠ '\x00')

/-- The characters from `q` up to `eq`. -/
def slice (buf : List Char) (w : Nat × Nat) : List Char := (buf.drop w.1).take (w.2 - w.1)

theorem cstr_eq_slice {mem : List Char} {q k : Nat} (hk : q + k ≤ buf.length) (h : ∀ i, q ≤ i → i < q + k → char mem i ≠ '\x00' ∧ char mem i = char buf i)
    (he : char mem (q + k) = '\x00') : cstr mem q = slice buf (q, q + k) := by
  induction k generalizing q with
  | zero =>
    rw [slice, Nat.add_sub_cancel_left, take_zero, cstr]
    rcases Nat.lt_or_ge q mem.length with hlt | hge
    · rw [drop_eq_cons hlt, takeWhile_cons_of_neg]
      simpa using he
    · rw [drop_eq_nil_of_le hge, takeWhile_nil]
  | succ k ih =>
    obtain ⟨h1, h2⟩ := h q (Nat.le_refl q) (by omega)
    have hlt : q < mem.length := by
      by_contra hn
      exact h1 (char_of_le (by omega))
    have hrec := ih (q := q + 1) (by omega) (fun i hi1 hi2 => h i (by omega) (by omega)) (by rw [← he]; congr 1; omega)
    rw [cstr, slice, Nat.add_sub_cancel_left] at hrec ⊢
    rw [drop_eq_cons hlt, takeWhile_cons_of_pos (by simpa using h1), hrec, drop_eq_cons (s := q) (by omega), take_succ_cons, h2]

/-! ## `parsecmd` -/

theorem Cursor.start (buf : List Char) : Cursor buf 0 (tokenize buf) := ⟨Nat.zero_le _, rfl⟩

/-- `s != es` after the blanks: there are tokens left. -/
theorem peek_end {s : Nat} {ts : List Tok} (hc : Cursor buf s ts) : (peek buf s []).2 = buf.length ↔ ts = [] := by
  obtain ⟨hc, hb⟩ := hc.skipBlanks
  show Sh.skipBlanks buf s = _ ↔ _
  generalize Sh.skipBlanks buf s = s at *
  constructor
  · intro e
    have := hc.toks
    rw [e, drop_length] at this
    exact this.symm
  · intro e
    subst e
    cases hc.first hb with
    | done he => exact he

/-- The outcome of `parsecmd` in terms of the descent. -/
theorem parsecmd_eq (hz : '\x00' ∉ buf) (fuel : Nat) :
    (∀ e, line MAXARGS fuel (tokenize buf) = .error e → parsecmd fuel buf = .error e) ∧
    (∀ d t ts, line MAXARGS fuel (tokenize buf) = .ok (d, t :: ts) → parsecmd fuel buf = .error (.panic "syntax")) ∧
    ∀ d, line MAXARGS fuel (tokenize buf) = .ok (d, []) → parsecmd fuel buf = .ok (d.cmd, nulterminate d.cmd (buf ++ ['\x00'])) := by
  obtain ⟨herr, hok⟩ := (parse_sim hz fuel).1 (.start buf)
  have hrun : ∀ d ts, line MAXARGS fuel (tokenize buf) = .ok (d, ts) → ∃ s, Cursor buf s ts ∧ parsecmd fuel buf =
      if (peek buf s []).2 ≠ buf.length then .error (.panic "syntax") else .ok (d.cmd, nulterminate d.cmd (buf ++ ['\x00'])) := fun d ts h => by
    obtain ⟨s, hs, hc⟩ := hok d ts h
    refine ⟨s, hc, ?_⟩
    rw [parsecmd, hs]
    rfl
  refine ⟨fun e h => ?_, fun d t ts h => ?_, fun d h => ?_⟩
  · rw [parsecmd, herr e h]
    rfl
  · obtain ⟨s, hc, hp⟩ := hrun d _ h
    rw [hp, if_pos fun e => nomatch (peek_end hc).1 e]
  · obtain ⟨s, hc, hp⟩ := hrun d _ h
    rw [hp, if_neg (not_not.2 ((peek_end hc).2 rfl))]

/-- What `parsecmd` returns is the command of a derivation of all tokens. -/
theorem parsecmd_sound (hz : '\x00' ∉ buf) {fuel : Nat} {r : Cmd × List Char} (hr : parsecmd fuel buf = .ok r) :
    ∃ d : Deriv .line, d.yield = tokenize buf ∧ d.Short MAXARGS ∧ r = (d.cmd, nulterminate d.cmd (buf ++ ['\x00'])) := by
  obtain ⟨herr, hleft, hdone⟩ := parsecmd_eq hz fuel
  cases hl : line MAXARGS fuel (tokenize buf) with
  | error e =>
    rw [herr e hl] at hr
    cases hr
  | ok a =>
    obtain ⟨d, ts⟩ := a
    cases ts with
    | cons t ts =>
      rw [hleft d t ts hl] at hr
      cases hr
    | nil =>
      obtain ⟨hy, hs⟩ := (sound (m := MAXARGS) (by decide) fuel).1 _ _ _ hl
      rw [append_nil] at hy
      rw [hdone d hl] at hr
      exact ⟨d, hy.symm, hs, (Except.ok.inj hr).symm⟩

theorem char_snoc (buf : List Char) (i : Nat) : char (buf ++ ['\x00']) i = char buf i := by
  by_cases h : i < buf.length
  · simp only [char, getD_eq_getElem?_getD, getElem?_append_left h]
  · rw [char_of_le (show buf.length ≤ i by omega)]
    by_cases e : i = buf.length
    · simp [char, e]
    · refine char_of_le ?_
      rw [length_append, length_singleton]
      omega

/-- The NULs at the ends of all words leave every word of the command as it was. -/
theorem cstr_word (hz : '\x00' ∉ buf) {fuel : Nat} {cmd : Cmd} {mem : List Char} (hr : parsecmd fuel buf = .ok (cmd, mem))
    {w : Nat × Nat} (hw : w ∈ cmd.words) : .word w.1 w.2 ∈ tokenize buf ∧ cstr mem w.1 = slice buf w := by
  obtain ⟨d, hd, _, he⟩ := parsecmd_sound hz hr
  obtain ⟨rfl, rfl⟩ := Prod.mk.inj he
  have hmem : ∀ w ∈ d.cmd.words, .word w.1 w.2 ∈ tokenize buf := fun w hw => by
    rw [← hd]
    exact d.word_mem hw
  have hrun : ∀ w ∈ d.cmd.words, Run buf w.1 w.2 := fun w hw => (Cursor.start buf).run (hmem w hw)
  refine ⟨hmem w hw, ?_⟩
  obtain ⟨hlt, hle, hin, _⟩ := hrun w hw
  obtain ⟨k, hk⟩ : ∃ k, w.2 = w.1 + k := ⟨w.2 - w.1, by omega⟩
  have hw' : w = (w.1, w.1 + k) := by rw [← hk]
  rw [hw']
  refine cstr_eq_slice (by omega) (fun i h1 h2 => ?_) ?_
  · -- the ends of words are not inside words
    have hi : i ∉ d.cmd.words.map (·.2) := fun hm => by
      obtain ⟨v, hv, rfl⟩ := mem_map.1 hm
      have h3 := hin v.2 h1 (by omega)
      rcases (hrun v hv).after with h | h
      · omega
      · rw [h3] at h
        cases h
    rw [char_nulterminate, if_neg hi, char_snoc]
    exact ⟨fun e => hz (e ▸ char_mem (by omega)), rfl⟩
  · rw [char_nulterminate, if_pos (mem_map.2 ⟨w, hw, hk⟩)]

/-- `parsecmd` ends, and returns a command exactly for the lines of the grammar. -/
theorem parsecmd_accepts (buf : List Char) (hz : '\x00' ∉ buf) :
    (∀ d d' : Deriv .line, d.yield = d'.yield → d = d') ∧
    ∃ F, ∀ fuel, F ≤ fuel → parsecmd fuel buf ≠ .error .fuel ∧
      (∀ cmd, (∃ mem, parsecmd fuel buf = .ok (cmd, mem)) ↔ ∃ d : Deriv .line, d.yield = tokenize buf ∧ d.Short MAXARGS ∧ d.cmd = cmd) ∧
      ∀ cmd mem, parsecmd fuel buf = .ok (cmd, mem) → ∀ w ∈ cmd.words, cstr mem w.1 = slice buf w := by
  refine ⟨fun d d' => yield_injective, 4 * (tokenize buf).length + 4, fun fuel hf => ?_⟩
  obtain ⟨herr, hleft, hdone⟩ := parsecmd_eq hz fuel
  have hends := (ends (m := MAXARGS) (by decide) fuel (tokenize buf)).1 hf
  have hcomplete : ∀ d : Deriv .line, d.yield = tokenize buf → d.Short MAXARGS → line MAXARGS fuel (tokenize buf) = .ok (d, []) := fun d hd hs => by
    have := complete d [] hs .nil fuel (by rw [List.append_nil, hd]; exact hf)
    rw [List.append_nil, hd] at this
    exact this
  refine ⟨fun hfuel => ?_, fun cmd => ⟨fun ⟨mem, hr⟩ => ?_, fun ⟨d, hd, hs, hcmd⟩ => ?_⟩, fun cmd mem hr w hw => ?_⟩
  · cases hl : line MAXARGS fuel (tokenize buf) with
    | error e =>
      rw [herr e hl] at hfuel
      exact hends (hl.trans (congrArg _ (Except.error.inj hfuel)))
    | ok a =>
      obtain ⟨d, ts⟩ := a
      cases ts with
      | cons t ts =>
        rw [hleft d t ts hl] at hfuel
        cases hfuel
      | nil =>
        rw [hdone d hl] at hfuel
        cases hfuel
  · obtain ⟨d, hd, hs, he⟩ := parsecmd_sound hz hr
    exact ⟨d, hd, hs, (Prod.mk.inj he).1.symm⟩
  · rw [← hcmd]
    exact ⟨_, hdone d (hcomplete d hd hs)⟩
  · exact (cstr_word hz hr hw).2

/-- `parsecmd_accepts` at `(ls;x >f)&`. -/
theorem parsecmd_accepts_block : '\x00' ∉ "(ls;x >f)&".toList ∧ ∃ F, ∀ fuel, F ≤ fuel →
    ∃ mem, parsecmd fuel "(ls;x >f)&".toList = .ok (.back (.list (.exec [(1, 3)]) (.redir (.exec [(4, 5)]) 7 8 0x201 1)), mem) := by
  have hz : '\x00' ∉ "(ls;x >f)&".toList := by decide
  obtain ⟨_, F, hF⟩ := parsecmd_accepts "(ls;x >f)&".toList hz
  refine ⟨hz, F, fun fuel hf => ((hF fuel hf).2.1 _).2 ⟨.last (.single (.block
    (.seq (.single (.simple [] [((1, 3), [])])) 0 (.last (.single (.simple [] [((4, 5), [⟨.output, 7, 8⟩])])) 0)) [])) 1, ?_, ?_, rfl⟩⟩
  · decide
  · exact ⟨show 1 < 10 by decide, show 1 < 10 by decide⟩

/-- After `nulterminate`, every `argv[i]` and every file name of a command that `parsecmd`
    accepts is a token of the line and reads as its text; only the ends of tokens change. -/
theorem nulterminate_keeps_words (buf : List Char) (hz : '\x00' ∉ buf) (fuel : Nat) (cmd : Cmd) (mem : List Char)
    (hr : parsecmd fuel buf = .ok (cmd, mem)) :
    (∀ w ∈ cmd.words, .word w.1 w.2 ∈ tokenize buf ∧ cstr mem w.1 = slice buf w) ∧
      ∀ i, (∀ w ∈ cmd.words, w.2 ≠ i) → char mem i = char buf i := by
  refine ⟨fun w hw => cstr_word hz hr hw, fun i hi => ?_⟩
  obtain ⟨d, _, _, he⟩ := parsecmd_sound hz hr
  obtain ⟨rfl, rfl⟩ := Prod.mk.inj he
  rw [char_nulterminate, if_neg fun hm => ?_, char_snoc]
  obtain ⟨w, hw, e⟩ := List.mem_map.1 hm
  exact hi w hw e

/-- In `a>b|(c&)<d` every NUL falls on a symbol of another construct. -/
theorem nulterminate_keeps_words_dense : ∃ cmd mem, parsecmd 40 "a>b|(c&)<d".toList = .ok (cmd, mem) ∧ cmd.words.length = 4 ∧
    ∀ w ∈ cmd.words, .word w.1 w.2 ∈ tokenize "a>b|(c&)<d".toList ∧ cstr mem w.1 = slice "a>b|(c&)<d".toList w := by
  have hz : '\x00' ∉ "a>b|(c&)<d".toList := by decide
  have hr : parsecmd 40 "a>b|(c&)<d".toList = .ok (.pipe (.redir (.exec [(0, 1)]) 2 3 0x201 1) (.redir (.back (.exec [(5, 6)])) 9 10 0 0),
      ['a', '\x00', 'b', '\x00', '(', 'c', '\x00', ')', '<', 'd', '\x00']) := by decide +kernel
  exact ⟨_, _, hr, rfl, (nulterminate_keeps_words _ hz 40 _ _ hr).1⟩

end Xv6.Sh
