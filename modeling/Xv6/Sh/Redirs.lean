/-
  Xv6.Sh.Redirs — the order in which `runcmd` carries out the redirections of a command.

  A table says of every descriptor whether it is one that the shell had or what `open` made of a
  name and a mode. `parseredirs` puts each redirection around the command it has so far, so the
  last one written is the outermost, and `runcmd` carries out the outermost first.

  The table with which a simple command or a block starts is therefore that of the redirections
  from right to left. It is the one from left to right exactly if the first and the last
  redirection of each descriptor name the same file and `open` gets the descriptors that were
  closed for it (`redirs_in_order_iff`), as it does when 0 is open; in `a >x >y` the output goes to
  `x` (`first_output_wins`).
-/

import Xv6.Sh.Runcmd

namespace Xv6.Sh

open Function List

/-! ## Tables -/

inductive Desc (α : Type) where
  | inherited (x : α)
  | opened (name : List Char) (mode : Nat)
deriving DecidableEq

abbrev Table (α : Type) := Nat → Option (Desc α)

variable {α : Type}

/-- `fdalloc`. -/
def Table.lowest (t : Table α) : Option Nat := (List.range NOFILE).find? fun fd => (t fd).isNone

/-- The case REDIR of `runcmd` up to its call of `runcmd`, when `open` succeeds; `nulterminate` has
    ended the name. -/
def enter (buf : List Char) : Cmd × Table α → Option (Cmd × Table α)
  | (.redir cmd file efile mode fd, t) =>
    let t : Table α := Function.update t fd none
    (Table.lowest t).map fun fd' => (cmd, Function.update t fd' (some (.opened (slice buf (file, efile)) mode)))
  | _ => none

/-- So many redirections. -/
def enterAll (buf : List Char) : Nat → Cmd × Table α → Option (Cmd × Table α)
  | 0, x => some x
  | n + 1, x => (enter buf x).bind (enterAll buf n)

/-! ## Redirections as they are written -/

def Redir.apply (buf : List Char) (t : Table α) (r : Redir) : Table α :=
  Function.update t r.op.fd (some (.opened (slice buf r.file) r.op.mode))

/-- The redirections of a simple command or a block, from left to right. -/
def Deriv.redirs : Deriv .exec → List Redir
  | .block _ rs => rs
  | .simple rs as => rs ++ as.flatMap (·.2)

/-- The command without its redirections. -/
def Deriv.body : Deriv .exec → Cmd
  | .block line _ => line.cmd
  | .simple _ as => .exec (as.map (·.1))

theorem Deriv.cmd_eq (d : Deriv .exec) : d.cmd = redirect d.redirs d.body := by
  cases d with
  | block line rs => rfl
  | simple rs as => rfl

/-- The files that the first redirection of each descriptor names are those that the last one names. -/
def Agree (buf : List Char) (rs : List Redir) : Prop :=
  ∀ fd, (rs.find? (·.op.fd = fd)).map (fun r => slice buf r.file) = (rs.reverse.find? (·.op.fd = fd)).map fun r => slice buf r.file

/-! ## The order -/

theorem fd_lt_two (r : Redir) : r.op.fd < 2 := by cases r.op <;> decide

/-- Of the redirections of a descriptor, the one carried out last is in force. -/
theorem foldr_apply (buf : List Char) (rs : List Redir) (t : Table α) (fd : Nat) :
    (rs.foldr (fun r t => r.apply buf t) t) fd =
      match rs.find? (·.op.fd = fd) with
      | some r => some (.opened (slice buf r.file) r.op.mode)
      | none => t fd := by
  induction rs with
  | nil => rfl
  | cons r rs ih =>
    rw [foldr_cons, Redir.apply]
    by_cases e : r.op.fd = fd
    · rw [find?_cons_of_pos (by simpa using e), e, update_self]
    · rw [find?_cons_of_neg (by simpa using e), update_of_ne (Ne.symm e), ih]

theorem foldl_apply (buf : List Char) (rs : List Redir) (t : Table α) (fd : Nat) :
    (rs.foldl (Redir.apply buf) t) fd =
      match rs.reverse.find? (·.op.fd = fd) with
      | some r => some (.opened (slice buf r.file) r.op.mode)
      | none => t fd := by
  rw [foldl_eq_foldr_reverse]
  exact foldr_apply buf rs.reverse t fd

variable {r : Redir}

/-- The modes of two redirections of one descriptor are the same. -/
theorem mode_eq {r' : Redir} (h : r.op.fd = r'.op.fd) : r.op.mode = r'.op.mode := by
  revert h
  cases r.op <;> cases r'.op <;> decide

theorem orders_agree_iff (buf : List Char) (rs : List Redir) (t : Table α) :
    rs.foldr (fun r t => r.apply buf t) t = rs.foldl (Redir.apply buf) t ↔ Agree buf rs := by
  rw [funext_iff]
  refine forall_congr' fun fd => ?_
  rw [foldr_apply, foldl_apply]
  cases hf : rs.find? (·.op.fd = fd) with
  | none =>
    have hl : rs.reverse.find? (·.op.fd = fd) = none := by
      rw [find?_eq_none] at hf ⊢
      exact fun r hr => hf r (mem_reverse.mp hr)
    rw [hl]
    exact iff_of_true rfl rfl
  | some r =>
    cases hl : rs.reverse.find? (·.op.fd = fd) with
    | none =>
      have hno := find?_eq_none.mp hl r (mem_reverse.mpr (mem_of_find?_eq_some hf))
      exact absurd (find?_some hf) hno
    | some r' =>
      have h1 : r.op.fd = fd := by simpa using find?_some hf
      have h2 : r'.op.fd = fd := by simpa using find?_some hl
      simp only [Option.map_some, Option.some.injEq, Desc.opened.injEq, mode_eq (h1.trans h2.symm), and_true]

variable {t : Table α}

/-- The descriptor that was closed is the one that `open` gets, if 0 is open or is the one. -/
theorem enter_redir (buf : List Char) (h0 : r.op.fd = 0 ∨ (t 0).isSome) (cmd : Cmd) :
    enter buf (.redir cmd r.file.1 r.file.2 r.op.mode r.op.fd, t) = some (cmd, r.apply buf t) := by
  have hlow : Table.lowest (update t r.op.fd none) = some r.op.fd := by
    unfold Table.lowest
    rw [find?_range_eq_some]
    have hlt := fd_lt_two r
    refine ⟨by rw [update_self]; rfl, mem_range.mpr (by unfold NOFILE; omega), fun m hm => ?_⟩
    obtain rfl : m = 0 := by omega
    rw [update_of_ne (by omega)]
    simpa using h0.resolve_left (by omega)
  simp only [enter, hlow, Option.map_some, Redir.apply, update_idem]

/-- Otherwise it is 0 that `open` gets. -/
theorem enter_redir_zero (buf : List Char) (h : r.op.fd = 1) (h0 : t 0 = none) (cmd : Cmd) :
    enter buf (.redir cmd r.file.1 r.file.2 r.op.mode r.op.fd, t) =
      some (cmd, update (update t 1 none) 0 (some (.opened (slice buf r.file) r.op.mode))) := by
  have hlow : Table.lowest (update t 1 none) = some 0 := by
    unfold Table.lowest
    rw [find?_range_eq_some]
    refine ⟨?_, by decide, fun m hm => absurd hm (Nat.not_lt_zero m)⟩
    rw [update_of_ne Nat.zero_ne_one, h0]
    rfl
  simp only [enter, h, hlow, Option.map_some]

theorem redirect_concat (rs : List Redir) (r : Redir) (cmd : Cmd) :
    redirect (rs ++ [r]) cmd = .redir (redirect rs cmd) r.file.1 r.file.2 r.op.mode r.op.fd := by
  unfold redirect
  rw [foldl_append]
  rfl

theorem isSome_apply (buf : List Char) (h : r.op.fd = 0 ∨ (t 0).isSome) : (r.apply buf t 0).isSome := by
  unfold Redir.apply
  rw [update_apply]
  split
  · rfl
  case isFalse e => exact h.resolve_left (Ne.symm e)

theorem enterAll_redirect (buf : List Char) (rs : List Redir) (cmd : Cmd) (h0 : (t 0).isSome) :
    enterAll buf rs.length (redirect rs cmd, t) = some (cmd, rs.foldr (fun r t => r.apply buf t) t) := by
  -- the last redirection is the outermost
  induction rs using reverseRecOn generalizing t with
  | nil => rfl
  | append_singleton rs r ih =>
    rw [length_append, length_singleton, enterAll, redirect_concat, enter_redir buf (Or.inr h0), foldr_append]
    exact ih (isSome_apply buf (Or.inr h0))

/-- Every redirection that counts gets the descriptor it is for: 0 is open, or the first one carried
    out is of 0, or others of both descriptors come after it. -/
def Placed (t : Table α) (rs : List Redir) : Prop :=
  (t 0).isSome ∨ ∀ r ∈ rs.getLast?, r.op.fd = 0 ∨ ∀ fd < 2, ∃ r' ∈ rs.dropLast, r'.op.fd = fd

theorem find_redir_none {rs : List Redir} {fd : Nat} (h : ¬ ∃ r ∈ rs, r.op.fd = fd) :
    rs.find? (·.op.fd = fd) = none := by
  apply find?_eq_none.mpr
  intro r hr e
  exact h ⟨r, hr, by simpa using e⟩

/-- A table that differs at 0 and 1 only makes no difference to redirections of both. -/
theorem foldr_congr (buf : List Char) {rs : List Redir} (hboth : ∀ fd < 2, ∃ r ∈ rs, r.op.fd = fd) {t' : Table α}
    (ht : ∀ fd, 2 ≤ fd → t fd = t' fd) :
    rs.foldr (fun r t => r.apply buf t) t = rs.foldr (fun r t => r.apply buf t) t' := by
  funext fd
  rw [foldr_apply, foldr_apply]
  by_cases hfd : fd < 2
  · obtain ⟨r, hr, e⟩ := hboth fd hfd
    have hsome : (rs.find? (·.op.fd = fd)).isSome := find?_isSome.mpr ⟨r, hr, by simpa using e⟩
    obtain ⟨r', hr'⟩ := Option.isSome_iff_exists.mp hsome
    rw [hr']
  · rw [ht fd (by omega)]

/-- When the first redirection carried out has got 0 in place of 1. -/
theorem misplaced_iff (buf : List Char) (rs : List Redir) (h : r.op.fd = 1) (h0 : t 0 = none) :
    rs.foldr (fun r t => r.apply buf t)
        (update (update t 1 none) 0 (some (.opened (slice buf r.file) r.op.mode))) =
      (rs ++ [r]).foldl (Redir.apply buf) t ↔ Agree buf (rs ++ [r]) ∧ ∀ fd < 2, ∃ r' ∈ rs, r'.op.fd = fd := by
  by_cases hboth : ∀ fd < 2, ∃ r' ∈ rs, r'.op.fd = fd
  · rw [and_iff_left hboth, ← orders_agree_iff buf _ t, foldr_append]
    apply Eq.congr_left
    apply foldr_congr buf hboth
    intro fd hfd
    show _ = r.apply buf t fd
    rw [Redir.apply, update_of_ne (by omega), update_of_ne (by omega), update_of_ne (by omega)]
  · refine iff_of_false (fun heq => ?_) fun h => hboth h.2
    push Not at hboth
    obtain ⟨fd, hfd, hno⟩ := hboth
    have hat := congrFun heq fd
    rw [foldr_apply, foldl_apply, find_redir_none (fun ⟨r', hr', e⟩ => hno r' hr' e), reverse_append,
      reverse_singleton, singleton_append] at hat
    rcases (by omega : fd = 0 ∨ fd = 1) with rfl | rfl
    · rw [find?_cons_of_neg (by simp [h]),
        find_redir_none (fun ⟨r', hr', e⟩ => hno r' (mem_reverse.mp hr') e)] at hat
      simp [h0] at hat
    · rw [find?_cons_of_pos (by simpa using h)] at hat
      simp at hat

/-- The table with which a command starts, and when it is that of its redirections from left to right. -/
theorem starts_with (buf : List Char) (rs : List Redir) (cmd : Cmd) (t : Table α) :
    ∃ t', enterAll buf rs.length (redirect rs cmd, t) = some (cmd, t') ∧
      (t' = rs.foldl (Redir.apply buf) t ↔ Agree buf rs ∧ Placed t rs) := by
  by_cases h0 : (t 0).isSome
  · refine ⟨_, enterAll_redirect buf rs cmd h0, ?_⟩
    rw [orders_agree_iff, and_iff_left (show Placed t rs from Or.inl h0)]
  induction rs using reverseRecOn with
  | nil => exact ⟨t, rfl, iff_of_true rfl ⟨fun _ => rfl, Or.inr (by simp)⟩⟩
  | append_singleton rs r =>
    have hplaced : Placed t (rs ++ [r]) ↔ r.op.fd = 0 ∨ ∀ fd < 2, ∃ r' ∈ rs, r'.op.fd = fd := by
      simp [Placed, h0]
    rw [length_append, length_singleton, enterAll, redirect_concat, hplaced]
    by_cases hr : r.op.fd = 0
    · rw [enter_redir buf (Or.inl hr)]
      refine ⟨_, enterAll_redirect buf rs cmd (isSome_apply buf (Or.inl hr)), ?_⟩
      rw [and_iff_left (Or.inl hr), ← orders_agree_iff buf _ t, foldr_append]
      rfl
    · have h1 : r.op.fd = 1 := by
        have := fd_lt_two r
        omega
      have hclosed : t 0 = none := by simpa using h0
      rw [enter_redir_zero buf h1 hclosed]
      refine ⟨_, enterAll_redirect buf rs cmd (by rw [update_self]; rfl), ?_⟩
      rw [misplaced_iff buf rs h1 hclosed, or_iff_right hr]

theorem parsed_exec {buf : List Char} (hz : '\x00' ∉ buf) {fuel s s' : Nat} (hs : s ≤ buf.length) {cmd : Cmd}
    (hp : parseexec buf fuel s = .ok (cmd, s') ∨ parseblock buf fuel s = .ok (cmd, s')) :
    ∃ (d : Deriv .exec) (rest : List Tok), tokens none s (buf.drop s) = d.yield ++ rest ∧ cmd = d.cmd := by
  have hc : Cursor buf s (tokens none s (buf.drop s)) := ⟨hs, rfl⟩
  obtain ⟨_, _, hblock, hexec⟩ := parse_sim hz fuel
  obtain ⟨_, _, hsblock, hsexec⟩ := sound (m := MAXARGS) (by decide) fuel
  -- of a routine that simulates a sound one
  have key : ∀ {x : Except Stop (Cmd × Nat)} {y : List Tok → Except Stop (Deriv .exec × List Tok)}, Sound MAXARGS y →
      Sim buf Deriv.cmd x (y (tokens none s (buf.drop s))) → x = .ok (cmd, s') →
      ∃ (d : Deriv .exec) (rest : List Tok), tokens none s (buf.drop s) = d.yield ++ rest ∧ cmd = d.cmd := by
    intro x y hsound ⟨herr, hok⟩ hx
    cases hy : y (tokens none s (buf.drop s)) with
    | error e =>
      rw [herr e hy] at hx
      cases hx
    | ok a =>
      obtain ⟨s'', hx', _⟩ := hok a.1 a.2 hy
      rw [hx'] at hx
      cases hx
      exact ⟨a.1, a.2, (hsound _ _ _ hy).1, rfl⟩
  rcases hp with hp | hp
  · exact key hsexec (hexec hc) hp
  · exact key hsblock (hblock hc) hp

/-- What `parseexec` or `parseblock` returns starts with the table of its redirections from left to
    right exactly if the first and the last one of each descriptor name the same file, and each gets
    the descriptor it is for. -/
theorem redirs_in_order_iff (buf : List Char) (hz : '\x00' ∉ buf) (fuel s s' : Nat) (hs : s ≤ buf.length) (cmd : Cmd)
    (hp : parseexec buf fuel s = .ok (cmd, s') ∨ parseblock buf fuel s = .ok (cmd, s')) :
    ∃ (d : Deriv .exec) (rest : List Tok), tokens none s (buf.drop s) = d.yield ++ rest ∧ cmd = d.cmd ∧
      ∀ (α : Type) (t : Table α), ∃ t', enterAll buf d.redirs.length (cmd, t) = some (d.body, t') ∧
        (t' = d.redirs.foldl (Redir.apply buf) t ↔ Agree buf d.redirs ∧ Placed t d.redirs) := by
  obtain ⟨d, rest, hd, rfl⟩ := parsed_exec hz hs hp
  refine ⟨d, rest, hd, rfl, fun α t => ?_⟩
  rw [d.cmd_eq]
  exact starts_with buf d.redirs d.body t

/-- The shell's three descriptors. -/
def console : Table Unit := fun fd => if fd < 3 then some (.inherited ()) else none

/-- `a <x >y`. -/
theorem redirs_in_order_iff_apart : ∃ d : Deriv .exec,
    d.cmd = .redir (.redir (.exec [(0, 1)]) 3 4 0 0) 6 7 0x201 1 ∧
    ∃ t', enterAll "a <x >y".toList d.redirs.length (d.cmd, console) = some (d.body, t') ∧
      (t' = d.redirs.foldl (Redir.apply "a <x >y".toList) console ↔
        Agree "a <x >y".toList d.redirs ∧ Placed console d.redirs) := by
  have hp : parseexec "a <x >y".toList 10 0 = .ok (.redir (.redir (.exec [(0, 1)]) 3 4 0 0) 6 7 0x201 1, 7) := by
    decide +kernel
  obtain ⟨d, _, _, hcmd, h⟩ := redirs_in_order_iff "a <x >y".toList (by decide) 10 0 7 (by decide) _ (Or.inl hp)
  refine ⟨d, hcmd.symm, ?_⟩
  rw [← hcmd]
  exact h Unit console

/-- `a >x >y`: the command starts with its output going to `x`. -/
theorem first_output_wins : ∃ cmd s t', parseexec "a >x >y".toList 10 0 = .ok (cmd, s) ∧
    enterAll "a >x >y".toList 2 (cmd, console) = some (.exec [(0, 1)], t') ∧ t' 1 = some (.opened ['x'] 0x201) ∧
    ([⟨.output, 3, 4⟩, ⟨.output, 6, 7⟩].foldl (Redir.apply "a >x >y".toList) console) 1 = some (.opened ['y'] 0x201) := by
  refine ⟨.redir (.redir (.exec [(0, 1)]) 3 4 0x201 1) 6 7 0x201 1, 7, _, ?_, rfl, ?_, ?_⟩
  · decide +kernel
  · decide +kernel
  · decide +kernel

end Xv6.Sh
