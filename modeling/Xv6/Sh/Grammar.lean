/-
  Xv6.Sh.Grammar — the shell's grammar.

      line   ::= pipe '&'* (';' line)?
      pipe   ::= exec ('|' pipe)?
      exec   ::= '(' line ')' redirs | redirs (word redirs)*
      redirs ::= (('<' | '>' | '>>') word)*

  `tokens` splits a line into tokens: words are maximal runs of characters that are neither
  blanks nor symbols, and a word is its two ends. A derivation from a nonterminal is a value
  of `Deriv`; `yield` is the tokens it derives and `cmd` the command it stands for.

  `line` is recursive descent over tokens, one token ahead, that returns the derivation. It
  is sound (`line_sound`) and complete (`complete`) for derivations with less than `m` words
  in each command, whatever `m` is, so the grammar is unambiguous (`yield_injective`).
-/

import Xv6.Sh.Parse

namespace Xv6.Sh

open List

/-! ## Tokens -/

inductive RedirOp where
  | input
  | output
  | append
deriving DecidableEq

inductive Tok where
  | word (q eq : Nat)
  | redir (op : RedirOp)
  | bar
  | amp
  | semi
  | lparen
  | rparen
deriving DecidableEq

/-- The token of a symbol; blanks have none. -/
def symbol : Char → List Tok
  | '<' => [.redir .input]
  | '>' => [.redir .output]
  | '|' => [.bar]
  | '&' => [.amp]
  | ';' => [.semi]
  | '(' => [.lparen]
  | ')' => [.rparen]
  | _ => []

/-- The word that started at `q`, if there is one, ends at `eq`. -/
def close (q : Option Nat) (eq : Nat) : List Tok := (q.map fun q => Tok.word q eq).toList

/-- The tokens of the characters from offset `s` on, within the word that starts at `q`. -/
def tokens : Option Nat → Nat → List Char → List Tok
  | q, s, [] => close q s
  | q, s, '>' :: '>' :: l => close q s ++ .redir .append :: tokens none (s + 2) l
  | q, s, c :: l =>
    if isWord c then tokens (some (q.getD s)) (s + 1) l
    else close q s ++ (symbol c ++ tokens none (s + 1) l)

def tokenize (input : List Char) : List Tok := tokens none 0 input

/-! ## Derivations -/

structure Redir where
  op : RedirOp
  file : Nat × Nat

inductive Nonterminal where
  | line
  | pipe
  | exec

inductive Deriv : Nonterminal → Type where
  | last (pipe : Deriv .pipe) (amps : Nat) : Deriv .line
  | seq (pipe : Deriv .pipe) (amps : Nat) (line : Deriv .line) : Deriv .line
  | single (exec : Deriv .exec) : Deriv .pipe
  | piped (exec : Deriv .exec) (pipe : Deriv .pipe) : Deriv .pipe
  | block (line : Deriv .line) (redirs : List Redir) : Deriv .exec
  | simple (redirs : List Redir) (args : List ((Nat × Nat) × List Redir)) : Deriv .exec

def yieldRedirs (rs : List Redir) : List Tok := rs.flatMap fun r => [.redir r.op, .word r.file.1 r.file.2]

def yieldArgs (args : List ((Nat × Nat) × List Redir)) : List Tok := args.flatMap fun a => .word a.1.1 a.1.2 :: yieldRedirs a.2

def Deriv.yield : {n : Nonterminal} → Deriv n → List Tok
  | _, .last pipe amps => pipe.yield ++ List.replicate amps .amp
  | _, .seq pipe amps line => pipe.yield ++ (List.replicate amps .amp ++ .semi :: line.yield)
  | _, .single exec => exec.yield
  | _, .piped exec pipe => exec.yield ++ .bar :: pipe.yield
  | _, .block line redirs => .lparen :: (line.yield ++ .rparen :: yieldRedirs redirs)
  | _, .simple redirs args => yieldRedirs redirs ++ yieldArgs args

/-- Less than `m` words in each command. -/
def Deriv.Short (m : Nat) : {n : Nonterminal} → Deriv n → Prop
  | _, .last pipe _ => pipe.Short m
  | _, .seq pipe _ line => pipe.Short m ∧ line.Short m
  | _, .single exec => exec.Short m
  | _, .piped exec pipe => exec.Short m ∧ pipe.Short m
  | _, .block line _ => line.Short m
  | _, .simple _ args => args.length < m

/-! ## Commands -/

def RedirOp.mode : RedirOp → Nat
  | .input => O_RDONLY
  | .output => O_WRONLY ||| O_CREATE
  | .append => O_WRONLY ||| O_CREATE

def RedirOp.fd : RedirOp → Nat
  | .input => 0
  | .output => 1
  | .append => 1

/-- The first redirection is the innermost. -/
def redirect (rs : List Redir) (cmd : Cmd) : Cmd := rs.foldl (fun cmd r => .redir cmd r.file.1 r.file.2 r.op.mode r.op.fd) cmd

def Deriv.cmd : {n : Nonterminal} → Deriv n → Cmd
  | _, .last pipe amps => Cmd.back^[amps] pipe.cmd
  | _, .seq pipe amps line => .list (Cmd.back^[amps] pipe.cmd) line.cmd
  | _, .single exec => exec.cmd
  | _, .piped exec pipe => .pipe exec.cmd pipe.cmd
  | _, .block line redirs => redirect redirs line.cmd
  | _, .simple redirs args => redirect (redirs ++ args.flatMap (·.2)) (.exec (args.map (·.1)))

/-! ## Recursive descent over tokens -/

abbrev Parser (α : Type) := Nat → List Tok → Except Stop (α × List Tok)

def redirs : Parser (List Redir)
  | 0, _ => .error .fuel
  | fuel + 1, ts => match ts with
    | .redir op :: .word q eq :: ts => do
      let (rs, ts) ← redirs fuel ts
      .ok (⟨op, q, eq⟩ :: rs, ts)
    | .redir _ :: _ => .error (.panic "missing file for redirection")
    | ts => .ok ([], ts)

/-- The words after the first `argc`, less than `m` in all. -/
def args (m : Nat) : Nat → Parser (List ((Nat × Nat) × List Redir))
  | _, 0, _ => .error .fuel
  | argc, fuel + 1, ts => match ts with
    | .word q eq :: ts =>
      if argc + 1 ≥ m then .error (.panic "too many args")
      else do
        let (rs, ts) ← redirs fuel ts
        let (as, ts) ← args m (argc + 1) fuel ts
        .ok (((q, eq), rs) :: as, ts)
    | .redir _ :: _ => .error (.panic "syntax")
    | .lparen :: _ => .error (.panic "syntax")
    | ts => .ok ([], ts)

def amps : Parser Nat
  | 0, _ => .error .fuel
  | fuel + 1, ts => match ts with
    | .amp :: ts => do
      let (k, ts) ← amps fuel ts
      .ok (k + 1, ts)
    | ts => .ok (0, ts)

mutual

def line (m : Nat) : Parser (Deriv .line)
  | 0, _ => .error .fuel
  | fuel + 1, ts => do
    let (p, ts) ← pipe m fuel ts
    let (k, ts) ← amps fuel ts
    match ts with
    | .semi :: ts =>
      let (l, ts) ← line m fuel ts
      .ok (.seq p k l, ts)
    | ts => .ok (.last p k, ts)

def pipe (m : Nat) : Parser (Deriv .pipe)
  | 0, _ => .error .fuel
  | fuel + 1, ts => do
    let (e, ts) ← exec m fuel ts
    match ts with
    | .bar :: ts =>
      let (p, ts) ← pipe m fuel ts
      .ok (.piped e p, ts)
    | ts => .ok (.single e, ts)

def block (m : Nat) : Parser (Deriv .exec)
  | 0, _ => .error .fuel
  | fuel + 1, ts => match ts with
    | .lparen :: ts => do
      let (l, ts) ← line m fuel ts
      match ts with
      | .rparen :: ts =>
        let (rs, ts) ← redirs fuel ts
        .ok (.block l rs, ts)
      | _ => .error (.panic "syntax - missing )")
    | _ => .error (.panic "parseblock")

def exec (m : Nat) : Parser (Deriv .exec)
  | 0, _ => .error .fuel
  | fuel + 1, ts => match ts with
    | .lparen :: _ => block m fuel ts
    | _ => do
      let (rs, ts) ← redirs fuel ts
      let (as, ts) ← args m 0 fuel ts
      .ok (.simple rs as, ts)

end

/-! ## Soundness -/

theorem bind_eq_ok {α β : Type} {x : Except Stop α} {f : α → Except Stop β} {b : β} (h : x >>= f = .ok b) : ∃ a, x = .ok a ∧ f a = .ok b := by
  cases x with
  | error e => cases h
  | ok a => exact ⟨a, rfl, h⟩

variable {fuel m argc k : Nat} {ts rest : List Tok}

theorem redirs_sound {rs : List Redir} (h : redirs fuel ts = .ok (rs, rest)) : ts = yieldRedirs rs ++ rest := by
  induction fuel generalizing ts rs with
  | zero => cases h
  | succ fuel ih =>
    unfold redirs at h
    split at h
    · obtain ⟨⟨rs, ts⟩, h1, h2⟩ := bind_eq_ok h
      cases h2
      rw [ih h1]
      rfl
    · cases h
    · cases h
      rfl

variable {as : List ((Nat × Nat) × List Redir)}

theorem args_sound (hm : argc < m)
    (h : args m argc fuel ts = .ok (as, rest)) : ts = yieldArgs as ++ rest ∧ argc + as.length < m := by
  induction fuel generalizing argc ts as with
  | zero => cases h
  | succ fuel ih =>
    unfold args at h
    split at h
    · split at h
      · cases h
      · obtain ⟨⟨rs, ts⟩, h1, h⟩ := bind_eq_ok h
        obtain ⟨⟨as, ts⟩, h2, h3⟩ := bind_eq_ok h
        cases h3
        obtain ⟨rfl, hlen⟩ := ih (by omega) h2
        rw [redirs_sound h1]
        refine ⟨?_, by rw [length_cons]; omega⟩
        simp [yieldArgs]
    · cases h
    · cases h
    · cases h
      exact ⟨rfl, hm⟩

theorem amps_sound (h : amps fuel ts = .ok (k, rest)) : ts = replicate k .amp ++ rest := by
  induction fuel generalizing ts k with
  | zero => cases h
  | succ fuel ih =>
    unfold amps at h
    split at h
    · obtain ⟨⟨k, ts⟩, h1, h2⟩ := bind_eq_ok h
      cases h2
      rw [ih h1]
      rfl
    · cases h
      rfl

/-- What a routine returns is a derivation of the tokens it has consumed. -/
def Sound (m : Nat) {n : Nonterminal} (p : List Tok → Except Stop (Deriv n × List Tok)) : Prop :=
  ∀ ts d rest, p ts = .ok (d, rest) → ts = d.yield ++ rest ∧ d.Short m

theorem sound (hm : 0 < m) (fuel : Nat) :
    Sound m (line m fuel) ∧ Sound m (pipe m fuel) ∧ Sound m (block m fuel) ∧ Sound m (exec m fuel) := by
  induction fuel with
  | zero => exact ⟨(fun _ _ _ h => nomatch h), (fun _ _ _ h => nomatch h), (fun _ _ _ h => nomatch h), fun _ _ _ h => nomatch h⟩
  | succ fuel ih =>
    obtain ⟨hline, hpipe, hblock, hexec⟩ := ih
    refine ⟨fun ts d rest h => ?_, fun ts d rest h => ?_, fun ts d rest h => ?_, fun ts d rest h => ?_⟩
    · unfold line at h
      obtain ⟨⟨p, ts₁⟩, h1, h⟩ := bind_eq_ok h
      obtain ⟨⟨k, ts₂⟩, h2, h⟩ := bind_eq_ok h
      obtain ⟨ep, hp⟩ := hpipe _ _ _ h1
      have ek := amps_sound h2
      simp only at h
      split at h
      · obtain ⟨⟨l, ts₃⟩, h3, h⟩ := bind_eq_ok h
        cases h
        obtain ⟨el, hl⟩ := hline _ _ _ h3
        exact ⟨by simp [Deriv.yield, ep, ek, el], hp, hl⟩
      · cases h
        exact ⟨by simp [Deriv.yield, ep, ek], hp⟩
    · unfold pipe at h
      obtain ⟨⟨e, ts₁⟩, h1, h⟩ := bind_eq_ok h
      obtain ⟨ee, he⟩ := hexec _ _ _ h1
      simp only at h
      split at h
      · obtain ⟨⟨p, ts₂⟩, h2, h⟩ := bind_eq_ok h
        cases h
        obtain ⟨ep, hp⟩ := hpipe _ _ _ h2
        exact ⟨by simp [Deriv.yield, ee, ep], he, hp⟩
      · cases h
        exact ⟨ee, he⟩
    · unfold block at h
      split at h
      · obtain ⟨⟨l, ts₁⟩, h1, h⟩ := bind_eq_ok h
        obtain ⟨el, hl⟩ := hline _ _ _ h1
        simp only at h
        split at h
        · obtain ⟨⟨rs, ts₂⟩, h2, h⟩ := bind_eq_ok h
          cases h
          exact ⟨by simp [Deriv.yield, el, redirs_sound h2], hl⟩
        · cases h
      · cases h
    · unfold exec at h
      split at h
      · exact hblock _ _ _ h
      · obtain ⟨⟨rs, ts₁⟩, h1, h⟩ := bind_eq_ok h
        obtain ⟨⟨as, ts₂⟩, h2, h⟩ := bind_eq_ok h
        cases h
        obtain ⟨rfl, hlen⟩ := args_sound hm h2
        rw [redirs_sound h1]
        exact ⟨by simp [Deriv.yield], by simpa [Deriv.Short] using hlen⟩

/-! ## Termination -/

theorem bind_ends {α β : Type} {x : Except Stop α} {f : α → Except Stop β} (hx : x ≠ .error .fuel)
    (hf : ∀ a, x = .ok a → f a ≠ .error .fuel) : x >>= f ≠ .error .fuel := by
  cases x with
  | error e => exact fun h => hx (congrArg Except.error (Except.error.inj h))
  | ok a => exact hf a rfl

theorem redirs_ends (hf : ts.length < fuel) : redirs fuel ts ≠ .error .fuel := by
  induction fuel generalizing ts with
  | zero => omega
  | succ fuel ih =>
    unfold redirs
    split
    · refine bind_ends (ih ?_) fun _ _ => nofun
      simp only [length_cons] at hf
      omega
    · exact nofun
    · exact nofun

theorem args_ends (hf : ts.length < fuel) : args m argc fuel ts ≠ .error .fuel := by
  induction fuel generalizing argc ts with
  | zero => omega
  | succ fuel ih =>
    unfold args
    split
    · rw [length_cons] at hf
      split
      · exact nofun
      · refine bind_ends (redirs_ends (by omega)) fun a h => bind_ends (ih ?_) fun _ _ => nofun
        have := congrArg length (redirs_sound h)
        rw [length_append] at this
        omega
    · exact nofun
    · exact nofun
    · exact nofun

theorem amps_ends (hf : ts.length < fuel) : amps fuel ts ≠ .error .fuel := by
  induction fuel generalizing ts with
  | zero => omega
  | succ fuel ih =>
    unfold amps
    split
    · refine bind_ends (ih ?_) fun _ _ => nofun
      rw [length_cons] at hf
      omega
    · exact nofun

variable {n : Nonterminal}

theorem Sound.length_le {p : List Tok → Except Stop (Deriv n × List Tok)} (h : Sound m p)
    {a : Deriv n × List Tok} (ha : p ts = .ok a) : a.2.length ≤ ts.length := by
  rw [(h ts a.1 a.2 ha).1, length_append]
  exact Nat.le_add_left ..

/-- A block is four calls deep and has at least one token. -/
theorem ends (hm : 0 < m) (fuel : Nat) (ts : List Tok) :
    (4 * ts.length + 4 ≤ fuel → line m fuel ts ≠ .error .fuel) ∧ (4 * ts.length + 3 ≤ fuel → pipe m fuel ts ≠ .error .fuel) ∧
    (4 * ts.length + 2 ≤ fuel → exec m fuel ts ≠ .error .fuel) ∧ (4 * ts.length + 1 ≤ fuel → block m fuel ts ≠ .error .fuel) := by
  induction fuel generalizing ts with
  | zero => exact ⟨(fun h => by omega), (fun h => by omega), (fun h => by omega), fun h => by omega⟩
  | succ fuel ih =>
    obtain ⟨sline, spipe, _, sexec⟩ := sound hm fuel
    refine ⟨fun hf => ?_, fun hf => ?_, fun hf => ?_, fun hf => ?_⟩
    · unfold line
      refine bind_ends ((ih ts).2.1 (by omega)) fun a ha => ?_
      have h1 := spipe.length_le ha
      refine bind_ends (amps_ends (by omega)) fun b hb => ?_
      have h2 := congrArg length (amps_sound hb)
      rw [length_append] at h2
      simp only
      split
      · rename_i hts
        rw [hts, length_cons] at h2
        exact bind_ends ((ih _).1 (by omega)) fun _ _ => nofun
      · exact nofun
    · unfold pipe
      refine bind_ends ((ih ts).2.2.1 (by omega)) fun a ha => ?_
      have h1 := sexec.length_le ha
      simp only
      split
      · rename_i hts
        rw [hts, length_cons] at h1
        exact bind_ends ((ih _).2.1 (by omega)) fun _ _ => nofun
      · exact nofun
    · unfold exec
      split
      · exact (ih _).2.2.2 (by omega)
      · refine bind_ends (redirs_ends (by omega)) fun a ha => bind_ends (args_ends ?_) fun _ _ => nofun
        have h1 := congrArg length (redirs_sound ha)
        rw [length_append] at h1
        omega
    · unfold block
      split
      · rw [length_cons] at hf
        refine bind_ends ((ih _).1 (by omega)) fun a ha => ?_
        have h1 := sline.length_le ha
        simp only
        split
        · rename_i hts
          rw [hts, length_cons] at h1
          exact bind_ends (redirs_ends (by omega)) fun _ _ => nofun
        · exact nofun
      · exact nofun

/-! ## Completeness -/

/-- What can come after a nonterminal. -/
def follow : Nonterminal → List Tok
  | .line => [.rparen]
  | .pipe => [.rparen, .amp, .semi]
  | .exec => [.rparen, .amp, .semi, .bar]

def Follows (n : Nonterminal) (rest : List Tok) : Prop := ∀ t l, rest = t :: l → t ∈ follow n

theorem Follows.nil : Follows n [] := nofun

theorem Follows.cons {t : Tok} {l : List Tok} (h : t ∈ follow n) : Follows n (t :: l) := fun t' l' e => by
  cases e
  exact h

/-- The redirections before a word, or at the end of a command, are all there are. -/
theorem Follows.after_redirs (h : Follows .exec rest) (op : RedirOp) (l : List Tok) :
    yieldArgs as ++ rest ≠ .redir op :: l := fun e => by
  cases as with
  | nil => exact absurd (h _ _ e) (by simp [follow])
  | cons a as => simp [yieldArgs] at e

theorem redirs_complete {rs : List Redir} (hr : ∀ op l, rest ≠ .redir op :: l)
    (hf : (yieldRedirs rs ++ rest).length < fuel) : redirs fuel (yieldRedirs rs ++ rest) = .ok (rs, rest) := by
  induction rs generalizing fuel with
  | nil =>
    obtain ⟨fuel, rfl⟩ : ∃ k, fuel = k + 1 := ⟨fuel - 1, by omega⟩
    show redirs (fuel + 1) rest = .ok ([], rest)
    unfold redirs
    split
    · exact absurd rfl (hr _ _)
    · exact absurd rfl (hr _ _)
    · rfl
  | cons r rs ih =>
    obtain ⟨fuel, rfl⟩ : ∃ k, fuel = k + 1 := ⟨fuel - 1, by omega⟩
    have he : yieldRedirs (r :: rs) ++ rest = .redir r.op :: .word r.file.1 r.file.2 :: (yieldRedirs rs ++ rest) := by simp [yieldRedirs]
    rw [he] at hf ⊢
    simp only [length_cons] at hf
    show (redirs fuel (yieldRedirs rs ++ rest) >>= _) = _
    rw [ih (by omega)]
    rfl

theorem args_complete (hr : Follows .exec rest)
    (hm : argc + as.length < m) (hf : (yieldArgs as ++ rest).length < fuel) : args m argc fuel (yieldArgs as ++ rest) = .ok (as, rest) := by
  induction as generalizing argc fuel with
  | nil =>
    obtain ⟨fuel, rfl⟩ : ∃ k, fuel = k + 1 := ⟨fuel - 1, by omega⟩
    show args m argc (fuel + 1) rest = .ok ([], rest)
    unfold args
    split
    · exact absurd (hr _ _ rfl) (by simp [follow])
    · exact absurd (hr _ _ rfl) (by simp [follow])
    · exact absurd (hr _ _ rfl) (by simp [follow])
    · rfl
  | cons a as ih =>
    obtain ⟨fuel, rfl⟩ : ∃ k, fuel = k + 1 := ⟨fuel - 1, by omega⟩
    have he : yieldArgs (a :: as) ++ rest = .word a.1.1 a.1.2 :: (yieldRedirs a.2 ++ (yieldArgs as ++ rest)) := by simp [yieldArgs]
    rw [length_cons] at hm
    rw [he] at hf ⊢
    simp only [length_cons] at hf
    show (if argc + 1 ≥ m then _ else redirs fuel (yieldRedirs a.2 ++ (yieldArgs as ++ rest)) >>= _) = _
    rw [if_neg (by omega), redirs_complete hr.after_redirs (by omega)]
    show (args m (argc + 1) fuel (yieldArgs as ++ rest) >>= _) = _
    rw [ih (by omega) (by rw [length_append] at hf; omega)]
    rfl

theorem amps_complete (hr : ∀ l, rest ≠ .amp :: l) (hf : k + rest.length < fuel) :
    amps fuel (replicate k .amp ++ rest) = .ok (k, rest) := by
  induction k generalizing fuel with
  | zero =>
    obtain ⟨fuel, rfl⟩ : ∃ k, fuel = k + 1 := ⟨fuel - 1, by omega⟩
    show amps (fuel + 1) rest = .ok (0, rest)
    unfold amps
    split
    · exact absurd rfl (hr _)
    · rfl
  | succ k ih =>
    obtain ⟨fuel, rfl⟩ : ∃ k, fuel = k + 1 := ⟨fuel - 1, by omega⟩
    show (amps fuel (replicate k .amp ++ rest) >>= _) = _
    rw [ih (by omega)]
    rfl

/-- The routine for a nonterminal, and the depth that is enough for `k` tokens. -/
def parse (m : Nat) : (n : Nonterminal) → Parser (Deriv n)
  | .line => line m
  | .pipe => pipe m
  | .exec => exec m

def depth : Nonterminal → Nat → Nat
  | .line, k => 4 * k + 4
  | .pipe, k => 4 * k + 3
  | .exec, k => 4 * k + 2

/-- What follows a pipe in a line. -/
theorem Follows.amps (h : Follows .pipe rest) : Follows .pipe (replicate k .amp ++ rest) := by
  cases k with
  | zero => exact h
  | succ k => exact .cons (by simp [follow])

theorem Follows.mono {n' : Nonterminal} (h : Follows n rest) (hs : follow n ⊆ follow n') : Follows n' rest :=
  fun t l e => hs (h t l e)

theorem complete (d : Deriv n) (rest : List Tok) (hd : d.Short m) (hr : Follows n rest) (fuel : Nat)
    (hf : depth n (d.yield ++ rest).length ≤ fuel) : parse m n fuel (d.yield ++ rest) = .ok (d, rest) := by
  induction d generalizing rest fuel with
  | last p k ihp =>
    obtain ⟨fuel, rfl⟩ : ∃ k, fuel = k + 1 := ⟨fuel - 1, by simp only [depth] at hf; omega⟩
    simp only [Deriv.yield, append_assoc, depth, length_append, length_replicate] at hf ⊢
    have hp := ihp (replicate k .amp ++ rest) hd (hr.mono (by simp [follow])).amps fuel
      (by simp only [depth, length_append, length_replicate]; omega)
    simp only [parse] at hp ⊢
    unfold line
    rw [hp]
    show (amps fuel (replicate k .amp ++ rest) >>= _) = _
    rw [amps_complete (fun l e => absurd (hr _ _ e) (by simp [follow])) (by omega)]
    simp only [bind, Except.bind]
    split
    · exact absurd (hr _ _ rfl) (by simp [follow])
    · rfl
  | seq p k l ihp ihl =>
    obtain ⟨fuel, rfl⟩ : ∃ k, fuel = k + 1 := ⟨fuel - 1, by simp only [depth] at hf; omega⟩
    simp only [Deriv.yield, append_assoc, cons_append, depth, length_append, length_replicate, length_cons] at hf ⊢
    have hp := ihp (replicate k .amp ++ .semi :: (l.yield ++ rest)) hd.1 (Follows.cons (by simp [follow])).amps fuel
      (by simp only [depth, length_append, length_replicate, length_cons]; omega)
    have hl := ihl rest hd.2 hr fuel (by simp only [depth, length_append]; omega)
    simp only [parse] at hp hl ⊢
    unfold line
    rw [hp]
    show (amps fuel (replicate k .amp ++ .semi :: (l.yield ++ rest)) >>= _) = _
    rw [amps_complete (by intro l e; cases e) (by simp only [length_cons, length_append]; omega)]
    show (line m fuel (l.yield ++ rest) >>= _) = _
    rw [hl]
    rfl
  | single e ihe =>
    obtain ⟨fuel, rfl⟩ : ∃ k, fuel = k + 1 := ⟨fuel - 1, by simp only [depth] at hf; omega⟩
    simp only [Deriv.yield, depth] at hf ⊢
    have he := ihe rest hd (hr.mono (by simp [follow])) fuel (by simp only [depth]; omega)
    simp only [parse] at he ⊢
    unfold pipe
    rw [he]
    simp only [bind, Except.bind]
    split
    · exact absurd (hr _ _ rfl) (by simp [follow])
    · rfl
  | piped e p ihe ihp =>
    obtain ⟨fuel, rfl⟩ : ∃ k, fuel = k + 1 := ⟨fuel - 1, by simp only [depth] at hf; omega⟩
    simp only [Deriv.yield, append_assoc, cons_append, depth, length_append, length_cons] at hf ⊢
    have he := ihe (.bar :: (p.yield ++ rest)) hd.1 (Follows.cons (by simp [follow])) fuel
      (by simp only [depth, length_append, length_cons]; omega)
    have hp := ihp rest hd.2 hr fuel (by simp only [depth, length_append]; omega)
    simp only [parse] at he hp ⊢
    unfold pipe
    rw [he]
    show (pipe m fuel (p.yield ++ rest) >>= _) = _
    rw [hp]
    rfl
  | block l rs ihl =>
    obtain ⟨fuel, rfl⟩ : ∃ k, fuel = k + 2 := ⟨fuel - 2, by simp only [depth] at hf; omega⟩
    simp only [Deriv.yield, append_assoc, cons_append, depth, length_append, length_cons] at hf ⊢
    have hl := ihl (.rparen :: (yieldRedirs rs ++ rest)) hd (Follows.cons (by simp [follow])) fuel
      (by simp only [depth, length_append, length_cons]; omega)
    simp only [parse] at hl ⊢
    unfold exec
    show block m (fuel + 1) _ = _
    unfold block
    simp only
    rw [hl]
    show (redirs fuel (yieldRedirs rs ++ rest) >>= _) = _
    rw [redirs_complete (fun op l e => absurd (hr _ _ e) (by simp [follow])) (by rw [length_append]; omega)]
    rfl
  | simple rs as =>
    obtain ⟨fuel, rfl⟩ : ∃ k, fuel = k + 1 := ⟨fuel - 1, by simp only [depth] at hf; omega⟩
    simp only [Deriv.yield, append_assoc, depth, length_append] at hf ⊢
    simp only [parse]
    unfold exec
    split
    · rename_i ts he
      cases rs with
      | cons r rs => simp [yieldRedirs] at he
      | nil =>
        cases as with
        | nil => exact absurd (hr _ _ he) (by simp [follow])
        | cons a as => simp [yieldRedirs, yieldArgs] at he
    · rw [redirs_complete hr.after_redirs (by simp only [length_append]; omega)]
      show (args m 0 fuel (yieldArgs as ++ rest) >>= _) = _
      rw [args_complete hr (by rw [Nat.zero_add]; exact hd) (by rw [length_append]; omega)]
      rfl

/-- More words than any command has. -/
def Deriv.words : {n : Nonterminal} → Deriv n → Nat
  | _, .last pipe _ => pipe.words
  | _, .seq pipe _ line => pipe.words + line.words
  | _, .single exec => exec.words
  | _, .piped exec pipe => exec.words + pipe.words
  | _, .block line _ => line.words
  | _, .simple _ args => args.length + 1

theorem Deriv.short_of_words (d : Deriv n) (h : d.words ≤ m) : d.Short m := by
  induction d with
  | last p k ih => exact ih h
  | seq p k l ihp ihl =>
    simp only [Deriv.words] at h
    exact ⟨ihp (by omega), ihl (by omega)⟩
  | single e ih => exact ih h
  | piped e p ihe ihp =>
    simp only [Deriv.words] at h
    exact ⟨ihe (by omega), ihp (by omega)⟩
  | block l rs ih => exact ih h
  | simple rs as => exact h

/-- The grammar is unambiguous: the descent with enough words allowed finds the derivation. -/
theorem yield_injective {d d' : Deriv n} (h : d.yield = d'.yield) : d = d' := by
  have hd : d.Short (d.words + d'.words) := d.short_of_words (by omega)
  have hd' : d'.Short (d.words + d'.words) := d'.short_of_words (by omega)
  have h1 := complete d [] hd .nil _ (Nat.le_refl _)
  have h2 := complete d' [] hd' .nil _ (Nat.le_refl _)
  rw [h] at h1
  exact (Prod.mk.inj (Except.ok.inj (h1.symm.trans h2))).1

end Xv6.Sh
