/-
  Xv6.Ftable.Refs — the references of the file table are exact.

  Every call ends with the tokens of its process's descriptors and no others, and one that
  fails leaves the descriptors as it found them. So whenever no call is under way, the
  count of every file is the number of descriptors that point to it, and the pipes are
  those that some file is an end of (`file_refs_exact`). That holds however the calls have
  interleaved; a failing call that runs by itself leaves the files and pipes as they were.
-/

import Xv6.Ftable.Tokens

namespace Xv6.Ftable

open Lib Prog Function List
open Fs.Namespace (nofile nfile)

/-! ## The calls -/

section Calls

variable {P G : Type} [DecidableEq G] {p : P} {r : Res P G} {α β : Type}

abbrev W (p : P) (c : M P G α) (Q : α → Option (Res P G) → Prop) (o : Option (Res P G)) : Prop := wp spec p c Q o

theorem w_bind {c : M P G α} {k : α → M P G β} {Q : β → Option (Res P G) → Prop} {o : Option (Res P G)}
    (h : W p c (fun x o' => W p (k x) Q o') o) : W p (c >>= k) Q o := wp_bind spec_mono h

def Res.with (r : Res P G) (b : Multiset (Token G)) : Res P G := { r with bag := b }

theorem trade_eq {b give get : Multiset (Token G)} (h : r.bag = b + give) : r.trade give get = r.with (b + get) := by
  simp only [Res.trade, Res.with, h, add_tsub_cancel_right]

omit [DecidableEq G] in
theorem mem_bag {b : Multiset (Token G)} {t : Token G} (h : r.bag = b + {t}) : t ∈ r.bag := by rw [h]; simp

variable {b : Multiset (Token G)}

variable {Q : Unit → Option (Res P G) → Prop}

theorem w_pipeclose {g : G} {w : Bool} (hb : r.bag = b + {.side g w})
    (hq : Q () (some (r.with b))) : W p (pipeclose g w) Q (some r) := by
  refine ⟨mem_bag hb, ?_, ?_⟩ <;> rw [trade_eq hb]
  · rw [add_zero]
    exact hq
  · refine ⟨mem_bag (b := b) rfl, ?_⟩
    rw [trade_eq (b := b) rfl, add_zero]
    exact hq

theorem w_fileclose {f : Fin nfile} (hb : r.bag = b + {.file f})
    (hq : Q () (some (r.with b))) : W p (fileclose f) Q (some r) := by
  refine .inl ⟨mem_bag hb, by rw [trade_eq hb, add_zero]; exact hq, fun ff => ?_⟩
  show W p (closeLast ff) Q _
  rw [trade_eq hb]
  cases hty : ff.type with
  | none => rw [closeLast, File.sides, hty, add_zero]; exact hq
  | inode i => rw [closeLast, File.sides, hty, add_zero]; exact hq
  | pipe g =>
    rw [closeLast, File.sides, hty]
    exact w_pipeclose rfl hq

theorem w_closeNew {f : Fin nfile} (hb : r.bag = b + {.new f})
    (hq : Q () (some (r.with b))) : W p (fileclose f) Q (some r) := by
  refine .inr ⟨mem_bag hb, fun ff hty => ?_⟩
  show W p (closeLast ff) Q _
  rw [closeLast, hty, trade_eq hb, add_zero]
  exact hq

theorem w_filealloc {Q : Option (Fin nfile) → Option (Res P G) → Prop} (hn : Q none (some r))
    (hs : ∀ f, Q (some f) (some (r.with (r.bag + {.new f})))) : W p filealloc Q (some r) := by
  refine ⟨hn, fun f => ?_⟩
  rw [trade_eq (b := r.bag) (add_zero _).symm]
  exact hs f

/-- A new file gets its type, and its end of a pipe. -/
theorem w_setfile {f : Fin nfile} {type : Kind G} {readable writable : Bool} (ht : type ≠ .none)
    (hb : r.bag = b + ({.new f} + File.sides ⟨1, type, readable, writable⟩)) (hq : Q () (some (r.with (b + {.file f})))) :
    W p (setfile f type readable writable) Q (some r) := by
  refine ⟨ht, ?_, ?_⟩
  · rw [hb]
    exact le_add_self
  · rw [trade_eq hb]
    exact hq

/-- Reading the descriptor table. -/
theorem w_ofile {fd : Fin nofile} {Q : Option (Fin nfile) → Option (Res P G) → Prop} (h : ∀ o, r.ofile fd = o → Q o (some r)) :
    W p (ofile fd) Q (some r) := h _ rfl

theorem w_argfd {n : Int} {Q : Option (Fin nofile × Fin nfile) → Option (Res P G) → Prop} (hn : Q none (some r))
    (hs : ∀ fd f, r.ofile fd = some f → Q (some (fd, f)) (some r)) : W p (argfd n) Q (some r) := by
  unfold argfd
  split
  · refine w_bind (w_ofile fun o hf => ?_)
    cases o with
    | none => exact hn
    | some f => exact hs _ f hf
  · exact hn

/-- At the start of a call. -/
structure Starts (r : Res P G) : Prop where
  bag : r.bag = tokens r.ofile
  same : r.ofile = r.before
  child : r.child = none

/-- At its end, with the value `v`. -/
def Ends (v : Int) (o : Option (Res P G)) : Prop :=
  ∃ r, o = some r ∧ r.bag = tokens r.ofile ∧ r.child = none ∧ (v = -1 → r.ofile = r.before)

omit [DecidableEq G] in
theorem Starts.fails (h : Starts r) (v : Int) : Ends v (some r) := ⟨r, rfl, h.bag, h.child, fun _ => h.same⟩

theorem natCast_ne (n : Nat) : (n : Int) ≠ -1 := by omega

theorem w_sysDup (h : Starts r) (n : Int) : W p (sysDup n) Ends (some r) := by
  refine w_bind (w_argfd (h.fails _) fun fd f hf => ⟨h.fails _, fun fd' hfd => ?_⟩)
  refine ⟨mem_bag (h.bag.trans (tokens_clear hf)), _, rfl, ?_, h.child, fun e => absurd e (natCast_ne _)⟩
  simp only [Res.trade, tsub_zero, h.bag, tokens_set hfd]

theorem w_sysClose (h : Starts r) (n : Int) : W p (sysClose n) Ends (some r) := by
  refine w_bind (w_argfd (h.fails _) fun fd f hf => ?_)
  show W p (fileclose f >>= fun _ => ret 0) Ends (some { r with ofile := update r.ofile fd none })
  exact w_bind (w_fileclose (h.bag.trans (tokens_clear hf)) ⟨_, rfl, rfl, h.child, (fun e => nomatch e)⟩)

theorem w_sysOpen (h : Starts r) (ip : Option Nat) (omode : Nat) : W p (sysOpen ip omode) Ends (some r) := by
  cases ip with
  | none => exact h.fails _
  | some i =>
    refine w_bind (w_filealloc (h.fails _) fun f => w_bind ⟨?_, fun fd hfd => ?_⟩)
    · show W p (fileclose f >>= fun _ => ret (-1)) Ends _
      exact w_bind (w_closeNew rfl ⟨_, rfl, h.bag, h.child, fun _ => h.same⟩)
    · show W p (setfile f (.inode i) _ _ >>= fun _ => ret _) Ends _
      refine w_bind (w_setfile (b := r.bag) (fun e => nomatch e) rfl ⟨_, rfl, ?_, h.child, fun e => absurd e (natCast_ne _)⟩)
      show r.bag + {.file f} = tokens (update r.ofile fd (some f))
      rw [h.bag, tokens_set (show r.ofile fd = none from hfd)]

/-- Two new files, or none. -/
theorem w_pipealloc (page : Option G) {Q : Option (Fin nfile × Fin nfile) → Option (Res P G) → Prop} (hn : Q none (some r))
    (hs : ∀ f0 f1, Q (some (f0, f1)) (some (r.with (r.bag + {.file f0} + {.file f1})))) : W p (pipealloc page) Q (some r) := by
  refine w_bind (w_filealloc hn fun f0 => w_bind (w_filealloc ?_ fun f1 => ⟨?_, fun g => ?_⟩))
  · show W p (fileclose f0 >>= fun _ => ret none) Q _
    exact w_bind (w_closeNew rfl hn)
  · show W p (fileclose f0 >>= fun _ => fileclose f1 >>= fun _ => ret none) Q _
    exact w_bind (w_closeNew (b := r.bag + {.new f1}) (add_right_comm _ _ _) (w_bind (w_closeNew rfl hn)))
  · rw [trade_eq (b := r.bag + {.new f0} + {.new f1}) (add_zero _).symm]
    refine ⟨mem_bag (b := r.bag + {.new f0} + {.new f1}) rfl, ?_⟩
    rw [trade_eq (b := r.bag + {.new f0} + {.new f1}) rfl]
    show W p (setfile f0 (.pipe g) true false >>= fun _ => setfile f1 (.pipe g) false true >>= fun _ => ret (some (f0, f1))) Q _
    refine w_bind (w_setfile (b := r.bag + {.new f1} + {.side g true}) (fun e => nomatch e) ?_
      (w_bind (w_setfile (b := r.bag + {.file f0}) (fun e => nomatch e) ?_ (hs f0 f1))))
    · show r.bag + {.new f0} + {.new f1} + ({.side g false} + {.side g true}) = r.bag + {.new f1} + {.side g true} + ({.new f0} + {.side g false})
      abel
    · show r.bag + {.new f1} + {.side g true} + {.file f0} = r.bag + {.file f0} + ({.new f1} + {.side g true})
      abel

theorem w_sysPipe (h : Starts r) (arg : Bool) (page : Option G) : W p (sysPipe arg page) Ends (some r) := by
  cases arg with
  | false => exact h.fails _
  | true =>
    refine w_bind (w_pipealloc page (h.fails _) fun rf wf => ⟨?_, fun fd0 (hfd0 : r.ofile fd0 = none) => ⟨?_, fun fd1 hfd1 => ?_⟩⟩)
    · show W p (fileclose rf >>= fun _ => fileclose wf >>= fun _ => ret (-1)) Ends _
      exact w_bind (w_fileclose (b := r.bag + {.file wf}) (add_right_comm _ _ _)
        (w_bind (w_fileclose rfl ⟨_, rfl, h.bag, h.child, fun _ => h.same⟩)))
    · show W p (fileclose rf >>= fun _ => fileclose wf >>= fun _ => ret (-1)) Ends
        (some { r.with (r.bag + {.file rf} + {.file wf}) with ofile := update (update r.ofile fd0 (some rf)) fd0 none })
      have hof : update (update r.ofile fd0 (some rf)) fd0 none = r.ofile := by
        rw [update_idem, ← hfd0, update_eq_self]
      rw [hof]
      exact w_bind (w_fileclose (b := r.bag + {.file wf}) (add_right_comm _ _ _)
        (w_bind (w_fileclose rfl ⟨_, rfl, h.bag, h.child, fun _ => h.same⟩)))
    · refine ⟨_, rfl, ?_, h.child, (fun e => nomatch e)⟩
      show r.bag + {.file rf} + {.file wf} = tokens (update (update r.ofile fd0 (some rf)) fd1 (some wf))
      rw [tokens_set (show update r.ofile fd0 (some rf) fd1 = none from hfd1), tokens_set hfd0, h.bag]

/-- The child gets a reference for each descriptor. -/
theorem w_forkFiles {q : P} {fds : List (Fin nofile)} {t : Fds} (hc : r.child = some (q, t)) (hb : r.bag = tokens r.ofile + tokens t)
    (hn : fds.Nodup) (ht : ∀ fd ∈ fds, t fd = none)
    (hq : ∀ t', Q () (some ⟨tokens r.ofile + tokens t', r.ofile, r.before, some (q, t')⟩)) : W p (forkFiles q fds) Q (some r) := by
  induction fds generalizing r t with
  | nil =>
    have := hq t
    rw [← hb, ← hc] at this
    exact this
  | cons fd fds ih =>
    obtain ⟨hfd, hn⟩ := nodup_cons.1 hn
    have hrest : ∀ c ∈ fds, t c = none := fun c hc => ht c (mem_cons_of_mem fd hc)
    refine w_bind (w_ofile fun o hf => ?_)
    cases o with
    | none => exact ih hc hb hn hrest hq
    | some f =>
      have hfd0 : t fd = none := ht fd mem_cons_self
      have hmem : .file f ∈ r.bag := by rw [hb, tokens_clear hf]; simp
      refine ⟨hmem, t, hc, ?_⟩
      rw [trade_eq (b := r.bag) (add_zero _).symm]
      refine ih (t := update t fd (some f)) rfl ?_ hn (fun c hc => ?_) hq
      · show r.bag + {.file f} = tokens r.ofile + tokens (update t fd (some f))
        rw [tokens_set hfd0, hb, add_assoc]
      · rw [update_of_ne (fun e : c = fd => hfd (e ▸ hc))]
        exact hrest c hc

theorem w_fork (h : Starts r) (np : Option P) (mem : Bool) (pid : Nat) : W p (fork np mem pid) Ends (some r) := by
  cases np with
  | none => exact h.fails _
  | some q =>
    refine ⟨h.child, h.fails _, ?_⟩
    cases mem with
    | false => exact ⟨rfl, _, rfl, h.bag, rfl, fun _ => h.same⟩
    | true =>
      show W p (forkFiles q (finRange nofile) >>= fun _ => perform (Act.spawn q) >>= fun _ => ret (pid : Int)) Ends _
      refine w_bind (w_forkFiles rfl ?_ (nodup_finRange _) (fun _ _ => rfl) fun t => ?_)
      · show r.bag = tokens r.ofile + tokens (fun _ => none)
        rw [tokens_empty, add_zero, h.bag]
      · refine ⟨t, rfl, le_add_self, _, rfl, ?_, rfl, fun e => absurd e (natCast_ne _)⟩
        show tokens r.ofile + tokens t - tokens t + 0 = tokens r.ofile
        rw [add_tsub_cancel_right, add_zero]

theorem w_exitFiles {fds : List (Fin nofile)} (hb : r.bag = tokens r.ofile) (hn : ∀ fd, r.ofile fd ≠ none → fd ∈ fds)
    (hq : Q () (some ⟨0, fun _ => none, r.before, r.child⟩)) : W p (exitFiles fds) Q (some r) := by
  induction fds generalizing r with
  | nil =>
    have he : r.ofile = fun _ => none := funext fun fd => by
      by_contra e
      cases hn fd e
    rw [he, tokens_empty] at hb
    rw [← hb, ← he] at hq
    exact hq
  | cons fd fds ih =>
    refine w_bind (w_ofile fun o hf => ?_)
    cases o with
    | none =>
      refine ih hb (fun c hc => ?_) hq
      rcases mem_cons.1 (hn c hc) with e | e
      · rw [e] at hc; exact absurd hf hc
      · exact e
    | some f =>
      refine w_bind (w_fileclose (hb.trans (tokens_clear hf)) (ih rfl (fun c hc => ?_) hq))
      by_cases e : c = fd
      · rw [e] at hc; exact absurd (update_self ..) hc
      · have hc' : update r.ofile fd none c ≠ none := hc
        rw [update_of_ne e] at hc'
        exact (mem_cons.1 (hn c hc')).resolve_left e

theorem w_code (h : Starts r) (c : Call P G) :
    W p c.code (fun v o => match v with | some v => Ends v o | none => o = none) (some r) := by
  cases c with
  | «open» ip omode => exact w_bind (w_sysOpen h ip omode)
  | dup n => exact w_bind (w_sysDup h n)
  | close n => exact w_bind (w_sysClose h n)
  | pipe arg page => exact w_bind (w_sysPipe h arg page)
  | fork np mem pid => exact w_bind (w_fork h np mem pid)
  | wait q => exact ⟨h.fails _, h.fails _⟩
  | exit =>
    refine w_bind ⟨?_, rfl⟩
    show W p (exitFiles (finRange nofile) >>= fun _ => perform Act.zombie) _ _
    exact w_bind (w_exitFiles h.bag (fun fd _ => mem_finRange fd) ⟨rfl, h.child, rfl, rfl⟩)

theorem w_body (c : Call P G) : W p c.body (fun _ o => o = none) none := by
  refine ⟨rfl, fun t => ?_⟩
  show W p (c.code >>= _) _ (some (Res.start t))
  refine w_bind (wp_mono spec_mono (w_code ⟨rfl, rfl, rfl⟩ c) fun v o hv => ?_)
  cases v with
  | none => exact hv
  | some v =>
    obtain ⟨r, rfl, hb, hc, hf⟩ := hv
    exact ⟨hb, hc, hf, rfl⟩

end Calls

/-! ## A failing call by itself -/

section Alone

variable {P G : Type} [DecidableEq P] [DecidableEq G] {p : P} {s s' : St P G}

/-- The descriptors, the counts and types of the files, the pipes and the slots are the same. -/
structure Same (s s' : St P G) : Prop where
  ofile : s'.ofile = s.ofile
  ref : ∀ f, (s'.file f).ref = (s.file f).ref
  type : ∀ f, (s'.file f).type = (s.file f).type
  pipe : s'.pipe = s.pipe
  slot : s'.slot = s.slot

variable {t : St P G} {α β : Type}

/-- What the program comes to if it is run alone and returns. -/
def Gives (p : P) (c : M P G α) (s : St P G) (Q : α → St P G → Prop) : Prop := ∀ x s', run exec p c s = .ok (x, s') → Q x s'

variable {Q : α → St P G → Prop}

theorem Gives.ret {x : α} (h : Q x s) : Gives p (ret x) s Q := by
  intro y s' hy
  cases hy
  exact h

theorem Gives.act {a : Act P G} {k : a.Res → M P G α}
    (h : ∀ x s', exec p a s = .ok (x, s') → Gives p (k x) s' Q) : Gives p (Prog.act a k) s Q := by
  intro y s'' hy
  obtain ⟨x, s', hx, hy⟩ := run_act_inv exec hy
  exact h x s' hx y s'' hy

theorem Gives.bind {c : M P G α} {k : α → M P G β} {Q : β → St P G → Prop}
    (h : Gives p c s fun x s' => Gives p (k x) s' Q) : Gives p (c >>= k) s Q := by
  intro y s'' hy
  obtain ⟨x, s', hx, hy⟩ := run_bind_inv exec hy
  exact h x s' hx y s'' hy

theorem Gives.always {c : M P G α} (h : ∀ x s', Q x s') : Gives p c s Q := fun x s' _ => h x s'

theorem gives_argfd (n : Int) : Gives p (argfd n) s fun _ s' => s' = s := by
  unfold argfd
  split
  · refine .act fun x s' hx => ?_
    have hs : s' = s := by cases hx; rfl
    cases x <;> exact .ret hs
  · exact .ret rfl

theorem gives_fdalloc {f : Fin nfile} {k : Option (Fin nofile) → M P G α} (hn : Gives p (k none) s Q)
    (hs : ∀ fd, s.ofile p fd = none → Gives p (k (some fd)) (setFd s p fd (some f)) Q) : Gives p (Prog.act (.fdalloc f) k) s Q := by
  refine .act fun x s' hx => ?_
  simp only [exec] at hx
  split at hx
  · rename_i fd hfd
    cases hx
    exact hs fd (by simpa using find?_some hfd)
  · cases hx
    exact hn

theorem gives_filealloc {k : Option (Fin nfile) → M P G α} (hn : Gives p (k none) s Q)
    (hs : ∀ f, (s.file f).ref = 0 → Gives p (k (some f)) (setFile s f { s.file f with ref := 1 }) Q) :
    Gives p (Prog.act .filealloc k) s Q := by
  refine .act fun x s' hx => ?_
  simp only [exec] at hx
  split at hx
  · rename_i f hf
    cases hx
    exact hs f (by simpa using find?_some hf)
  · cases hx
    exact hn

/-- The only reference goes. -/
theorem gives_fileclose {f : Fin nfile} (hr : (t.file f).ref = 1) {Q : Unit → St P G → Prop}
    (hq : Gives p (closeLast (t.file f)) (setFile t f { t.file f with ref := 0, type := .none }) Q) : Gives p (fileclose f) t Q := by
  refine .act fun x s' hx => ?_
  rw [exec, if_neg (by omega), if_neg (by omega)] at hx
  cases hx
  exact hq

theorem gives_closeNew {f : Fin nfile} (hr : (t.file f).ref = 1) (hty : (t.file f).type = .none) {Q : Unit → St P G → Prop}
    (hq : Q () (setFile t f { t.file f with ref := 0, type := .none })) : Gives p (fileclose f) t Q := by
  refine gives_fileclose hr ?_
  rw [closeLast, hty]
  exact .ret hq

/-- An end of a pipe is closed; with both, the page is free. -/
theorem gives_pipeclose {g : G} {w : Bool} {x : Pipe} (hx : t.pipe g = some x) {Q : Unit → St P G → Prop}
    (hq : Q () (setPipe t g (if x.close w = ⟨false, false⟩ then none else some (x.close w)))) : Gives p (pipeclose g w) t Q := by
  refine .act fun y s' hy => ?_
  simp only [exec, hx] at hy
  cases hy
  by_cases e : x.close w = ⟨false, false⟩
  · rw [if_pos e] at hq
    rw [e]
    refine .act fun y s' hy => ?_
    simp only [exec, setPipe, update_self, update_idem] at hy
    cases hy
    exact .ret hq
  · rw [if_neg e] at hq
    rw [beq_false_of_ne e]
    exact .ret hq

/-- A call that fails changes nothing. -/
def Unchanged (s : St P G) (v : Int) (s' : St P G) : Prop := v = -1 → Same s s'

omit [DecidableEq P] [DecidableEq G] in
theorem Same.refl (s : St P G) : Same s s := ⟨rfl, fun _ => rfl, fun _ => rfl, rfl, rfl⟩

omit [DecidableEq P] [DecidableEq G] in
theorem unchanged_refl (s : St P G) (v : Int) : Unchanged s v s := fun _ => .refl s

theorem gives_sysDup (n : Int) : Gives p (sysDup n) s (Unchanged s) := by
  refine .bind fun x s' hx => ?_
  obtain rfl := gives_argfd n x s' hx
  cases x with
  | none => exact .ret (unchanged_refl s' _)
  | some x => exact gives_fdalloc (.ret (unchanged_refl s' _)) fun fd _ => .act fun _ _ _ => .ret fun e => absurd e (natCast_ne _)

theorem gives_sysClose (n : Int) : Gives p (sysClose n) s (Unchanged s) := by
  refine .bind fun x s' hx => ?_
  obtain rfl := gives_argfd n x s' hx
  cases x with
  | none => exact .ret (unchanged_refl s' _)
  | some x => exact .bind (.always fun _ _ => .bind (.always fun _ _ => .ret fun e => nomatch e))

omit [DecidableEq P] [DecidableEq G] in
/-- Files that were free are free again. -/
theorem Same.of_files (hc : ∀ f, (s.file f).ref = 0 → (s.file f).type = .none) (hof : t.ofile = s.ofile) (hpi : t.pipe = s.pipe)
    (hsl : t.slot = s.slot)
    (hf : ∀ f, t.file f = s.file f ∨ (s.file f).ref = 0 ∧ (t.file f).ref = 0 ∧ (t.file f).type = .none) : Same s t := by
  refine ⟨hof, fun f => ?_, fun f => ?_, hpi, hsl⟩ <;> grind

theorem gives_sysOpen (hc : ∀ f, (s.file f).ref = 0 → (s.file f).type = .none) (ip : Option Nat) (omode : Nat) :
    Gives p (sysOpen ip omode) s (Unchanged s) := by
  cases ip with
  | none => exact .ret (unchanged_refl s _)
  | some i =>
    refine gives_filealloc (.ret (unchanged_refl s _)) fun f h0 => gives_fdalloc ?_ fun fd _ => ?_
    · show Gives p (fileclose f >>= fun _ => ret (-1)) _ _
      refine .bind (gives_closeNew (by simp [setFile]) (by simp [setFile, hc f h0]) (.ret fun _ => .of_files hc rfl rfl rfl fun f' => ?_))
      by_cases e : f' = f <;> simp_all [setFile]
    · show Gives p (setfile f _ _ _ >>= fun _ => ret (fd : Int)) _ _
      exact .bind (.always fun _ _ => .ret fun e => absurd e (natCast_ne _))

/-- The files `f0` and `f1` and the page `g` have become a pipe. -/
structure Ends2 (s t : St P G) (f0 f1 : Fin nfile) (g : G) : Prop where
  ne : f0 ≠ f1
  old : ∀ f, f ≠ f0 → f ≠ f1 → t.file f = s.file f
  ref0 : (s.file f0).ref = 0
  ref1 : (s.file f1).ref = 0
  file0 : t.file f0 = ⟨1, .pipe g, true, false⟩
  file1 : t.file f1 = ⟨1, .pipe g, false, true⟩
  page : s.pipe g = none
  pipe : t.pipe = Function.update s.pipe g (some ⟨true, true⟩)
  ofile : t.ofile = s.ofile
  slot : t.slot = s.slot

/-- `pipealloc` by itself: nothing, or both ends of a new pipe. -/
theorem gives_pipealloc (hc : ∀ f, (s.file f).ref = 0 → (s.file f).type = .none) (page : Option G)
    {Q : Option (Fin nfile × Fin nfile) → St P G → Prop} (hn : ∀ t, Same s t → Q none t)
    (hs : ∀ t f0 f1 g, Ends2 s t f0 f1 g → Q (some (f0, f1)) t) : Gives p (pipealloc page) s Q := by
  refine gives_filealloc (.ret (hn _ (.refl s))) fun f0 h0 => gives_filealloc ?_ fun f1 h1 => ?_
  · show Gives p (fileclose f0 >>= fun _ => ret none) _ _
    refine .bind (gives_closeNew (by simp [setFile]) (by simp [setFile, hc f0 h0]) (.ret (hn _ (.of_files hc rfl rfl rfl fun f => ?_))))
    by_cases e : f = f0 <;> simp_all [setFile]
  have hf : f0 ≠ f1 := fun e => by simp [e, setFile] at h1
  have h1 : (s.file f1).ref = 0 := by simpa [setFile, hf.symm] using h1
  have hbad : Gives p (pipeallocBad none (some f0) (some f1))
      (setFile (setFile s f0 { s.file f0 with ref := 1 }) f1 { s.file f1 with ref := 1 }) Q := by
    show Gives p (fileclose f0 >>= fun _ => fileclose f1 >>= fun _ => ret none) _ Q
    refine .bind (gives_closeNew (by simp [setFile, hf]) (by simp [setFile, hf, hc f0 h0]) (.bind (gives_closeNew
      (by simp [setFile, hf.symm]) (by simp [setFile, hf.symm, hc f1 h1]) (.ret (hn _ (.of_files hc rfl rfl rfl fun f => ?_))))))
    by_cases e0 : f = f0 <;> by_cases e1 : f = f1 <;> simp_all [setFile]
  rw [show (setFile s f0 { s.file f0 with ref := 1 }).file f1 = s.file f1 from update_of_ne hf.symm _ _]
  refine .act fun x t hx => ?_
  simp only [exec] at hx
  split at hx
  · split at hx
    · rename_i g hg
      cases hx
      refine .act fun _ u hu => ?_
      cases hu
      refine .act fun _ u hu => ?_
      cases hu
      refine .act fun _ u hu => ?_
      cases hu
      refine .ret (hs _ f0 f1 g ⟨hf, fun f e0 e1 => ?_, h0, h1, ?_, ?_, hg, ?_, rfl, rfl⟩) <;> simp_all [setFile, setPipe, hf.symm]
    · cases hx
      exact hbad
  · cases hx
    exact hbad

theorem Ends2.close {f0 f1 : Fin nfile} {g : G} (hc : ∀ f, (s.file f).ref = 0 → (s.file f).type = .none) (h : Ends2 s t f0 f1 g) :
    Gives p (fileclose f0 >>= fun _ => fileclose f1 >>= fun _ => ret (-1)) t (Unchanged s) := by
  have hne := h.ne.symm
  refine .bind (gives_fileclose (by rw [h.file0]) ?_)
  rw [closeLast, h.file0]
  refine gives_pipeclose (x := ⟨true, true⟩) (by simp [setFile, h.pipe]) (.bind (gives_fileclose (by simp [setFile, setPipe, hne, h.file1]) ?_))
  simp only [closeLast, setFile, setPipe, update_of_ne hne, h.file1]
  refine gives_pipeclose (x := ⟨false, true⟩) (by simp [Pipe.close]) (.ret fun _ => .of_files hc h.ofile ?_ h.slot fun f => ?_)
  · simp [setPipe, Pipe.close, h.pipe, ← h.page]
  · have := h.old f
    by_cases e0 : f = f0 <;> by_cases e1 : f = f1 <;> simp_all [setPipe, h.ref0, h.ref1]

omit [DecidableEq G] in
theorem setFd_setFd {fd : Fin nofile} (h : t.ofile p fd = none) (x : Option (Fin nfile)) : setFd (setFd t p fd x) p fd none = t := by
  simp only [setFd, update_self, update_idem, ← h, update_eq_self]

theorem gives_sysPipe (hc : ∀ f, (s.file f).ref = 0 → (s.file f).type = .none) (arg : Bool) (page : Option G) :
    Gives p (sysPipe arg page) s (Unchanged s) := by
  cases arg with
  | false => exact .ret (unchanged_refl s _)
  | true =>
    refine .bind (gives_pipealloc hc page (fun t ht => .ret fun _ => ht) fun t f0 f1 g h => ?_)
    refine gives_fdalloc (h.close hc) fun fd0 hfd0 => gives_fdalloc ?_ fun fd1 _ => .ret fun e => nomatch e
    refine .act fun _ u hu => ?_
    cases hu
    rw [setFd_setFd hfd0]
    exact h.close hc

theorem gives_fork (np : Option P) (mem : Bool) (pid : Nat) : Gives p (fork np mem pid) s (Unchanged s) := by
  cases np with
  | none => exact .ret (unchanged_refl s _)
  | some q =>
    refine .act fun x t hx => ?_
    simp only [exec] at hx
    split at hx
    · rename_i hq
      cases hx
      cases mem with
      | true =>
        show Gives p (forkFiles q (finRange nofile) >>= fun _ => perform (Act.spawn q) >>= fun _ => ret (pid : Int)) _ _
        exact .bind (.always fun _ _ => .bind (.always fun _ _ => .ret fun e => absurd e (natCast_ne _)))
      | false =>
        refine .act fun _ u hu => ?_
        cases hu
        refine .ret fun _ => ⟨rfl, fun _ => rfl, fun _ => rfl, rfl, ?_⟩
        simp only [setSlot, update_idem, ← hq, update_eq_self]
    · cases hx
      exact .ret (unchanged_refl s _)

/-- Run alone, a call that fails changes nothing. -/
theorem gives_code (hc : ∀ f, (s.file f).ref = 0 → (s.file f).type = .none) (c : Call P G) :
    Gives p c.code s fun v s' => v = some (-1) → Same s s' := by
  have hlift : ∀ {c : M P G Int}, Gives p c s (Unchanged s) →
      Gives p (c >>= fun v => ret (some v)) s fun v s' => v = some (-1) → Same s s' :=
    fun h => .bind fun v s' hv => .ret fun e => h v s' hv (Option.some.inj e)
  cases c with
  | «open» ip omode => exact hlift (gives_sysOpen hc ip omode)
  | dup n => exact hlift (gives_sysDup n)
  | close n => exact hlift (gives_sysClose n)
  | pipe arg page => exact hlift (gives_sysPipe hc arg page)
  | fork np mem pid => exact hlift (gives_fork np mem pid)
  | wait q =>
    refine .act fun x t hx => ?_
    simp only [exec] at hx
    split at hx <;> cases hx
    · exact .ret fun e => by cases e
    · exact .ret fun _ => Same.refl s
  | exit => exact .bind (.always fun _ _ => .ret fun e => by cases e)

end Alone

/-! ## Every run -/

section Runs

variable {P G : Type} [Fintype P] [DecidableEq P] [DecidableEq G]

/-- No file is open; only `initproc` runs. -/
def boot (initproc : P) : St P G where
  file _ := ⟨0, .none, false, false⟩
  ofile _ _ := none
  pipe _ := none
  slot q := if q = initproc then .running else .unused
  initproc
  before _ _ := none
  result _ := none

/-- The counts of the files are those of the descriptors, and the pipes are those of the files. -/
structure Exact (s : St P G) : Prop where
  ref : ∀ f, (s.file f).ref = ∑ q, (Finset.univ.filter fun fd => s.ofile q fd = some f).card
  ends : ∀ g x, s.pipe g = some x → ∀ w, x.isOpen w = true ↔ ∃ f, 0 < (s.file f).ref ∧ (s.file f).type = .pipe g ∧ (s.file f).writable = w
  live : ∀ g, s.pipe g ≠ none ↔ ∃ f, 0 < (s.file f).ref ∧ (s.file f).type = .pipe g

omit [DecidableEq P] in
theorem world_boot (initproc : P) [DecidableEq P] : World (fun _ => none) (boot initproc : St P G) := by
  refine ⟨fun t => ?_, fun f _ => Nat.zero_le 1, fun f h => absurd rfl h, fun q => ⟨(fun _ e => nomatch e), fun _ => rfl⟩, fun c q hc => ?_⟩
  · have hb : ∀ q, (bagOf (boot initproc : St P G) q none).count t = 0 := fun q => by
      simp only [bagOf, boot]
      split
      · rw [tokens_empty]; rfl
      · rfl
    rw [Finset.sum_eq_zero fun q _ => hb q]
    cases t <;> simp [supply, stored, boot, File.holds]
  · simp only [boot] at hc
    split at hc <;> cases hc

omit [DecidableEq G] in
theorem count_token [DecidableEq G] (x : Option (Fin nfile)) (t : Token G) :
    (token x).count t = if ∃ f, x = some f ∧ t = .file f then 1 else 0 := by
  cases x with
  | none => simp [token]
  | some f => simp [token, Multiset.count_singleton]

theorem count_tokens (fds : Fds) (f : Fin nfile) :
    (tokens fds : Multiset (Token G)).count (.file f) = (Finset.univ.filter fun fd => fds fd = some f).card := by
  rw [tokens, Multiset.count_sum', Finset.card_filter]
  refine Finset.sum_congr rfl fun fd _ => ?_
  rw [count_token]
  congr 1
  refine propext ⟨fun h => ?_, fun h => ⟨f, h, rfl⟩⟩
  obtain ⟨g, hg, e⟩ := h
  cases e
  exact hg

theorem count_tokens_other (fds : Fds) {t : Token G} (h : ∀ f, t ≠ .file f) : (tokens fds).count t = 0 := by
  rw [tokens, Multiset.count_sum']
  refine Finset.sum_eq_zero fun fd _ => ?_
  rw [count_token, if_neg fun hf => hf.elim fun f hf => h f hf.2]

/-- No process is in a call. -/
theorem World.exact {s : St P G} (h : World (fun _ => none) s) : Exact s := by
  have hbag : ∀ q, bagOf s q none = (tokens (s.ofile q) : Multiset (Token G)) := by
    intro q
    by_cases hq : s.slot q = .running
    · simp only [bagOf, hq]
    · have hk : Rests s q := h.knows q
      rw [bagOf_idle hq, hk.empty, tokens_empty]
      cases hs : s.slot q with
      | unused => exact .inl rfl
      | zombie => exact .inr rfl
      | running => exact absurd hs hq
      | embryo p =>
        obtain ⟨r, t, hr, _⟩ := h.embryo q p hs
        cases hr
  have hother : ∀ t : Token G, (∀ f, t ≠ .file f) → supply s t = stored s t := fun t ht => by
    rw [h.balance t, Finset.sum_eq_zero fun q _ => by rw [hbag, count_tokens_other _ ht], add_zero]
  have hside : ∀ g w, supply s (.side g w) = ∑ f, (s.file f).holds g w := fun g w => hother _ (by simp)
  have hholds : ∀ g w, 0 < supply s (.side g w) ↔ ∃ f, 0 < (s.file f).ref ∧ (s.file f).type = .pipe g ∧ (s.file f).writable = w := by
    intro g w
    rw [hside, Finset.sum_pos_iff]
    constructor
    · intro hf
      obtain ⟨f, _, hf⟩ := hf
      simp only [File.holds] at hf
      split at hf
      · rename_i hx
        exact ⟨f, h.typed f (by rw [hx.1]; simp), hx⟩
      · cases hf
    · intro hx
      obtain ⟨f, _, hx⟩ := hx
      exact ⟨f, Finset.mem_univ f, by rw [File.holds, if_pos hx]; exact Nat.one_pos⟩
  refine ⟨fun f => ?_, fun g x hx w => ?_, fun g => ?_⟩
  · have hf := h.balance (.file f)
    have hn := hother (.new f) (by simp)
    simp only [stored, hbag, count_tokens, zero_add] at hf
    rw [← hf]
    simp only [supply, stored] at hn ⊢
    split
    · rename_i e
      rw [if_pos e] at hn
      exact hn
    · rfl
  · rw [← hholds]
    simp only [supply, hx]
    cases x.isOpen w <;> simp
  · constructor
    · intro hg
      obtain ⟨x, hx⟩ := Option.ne_none_iff_exists'.1 hg
      have hp := hother (.page g) (by simp)
      have hne : x ≠ ⟨false, false⟩ := fun e => by
        simp [supply, stored, hx, e] at hp
      obtain ⟨w, hw⟩ : ∃ w, x.isOpen w = true := by
        obtain ⟨a, b⟩ := x
        cases a
        · cases b
          · exact absurd rfl hne
          · exact ⟨true, rfl⟩
        · exact ⟨false, rfl⟩
      obtain ⟨f, h1, h2, _⟩ := (hholds g w).1 (by simp only [supply, hx, hw]; exact Nat.one_pos)
      exact ⟨f, h1, h2⟩
    · intro hf hg
      obtain ⟨f, h1, h2⟩ := hf
      have := (hholds g (s.file f).writable).2 ⟨f, h1, h2, rfl⟩
      simp [supply, hg] at this

theorem file_refs_exact (initproc : P) (es : List (Ev P (Call P G))) :
    let π := Pool.runs exec Call.body ⟨boot initproc, fun _ => .ret (), none⟩ es
    (π.Idle → Exact π.state) ∧
    (∀ f, (π.state.file f).ref = 0 → (π.state.file f).type = .none) ∧
    (∀ e, π.failed = some e → e = .initExiting) ∧
    (∀ p, π.threads p = .ret () → π.state.slot p = .running → π.state.result p = some (-1) → π.state.ofile p = π.state.before p) ∧
    ∀ p c s', run exec p (Call.code c) π.state = .ok (some (-1), s') → Same π.state s' := by
  intro π
  have h0 : Good spec World Bad (fun _ o => o = none) (⟨boot initproc, fun _ => .ret (), none⟩ : Pool (Act P G) Act.Res P (St P G) Panic) :=
    ⟨⟨fun _ => none, world_boot initproc, fun _ => rfl⟩, (fun _ e => nomatch e)⟩
  have hg : Good spec World Bad (fun _ o => o = none) π :=
    h0.runs ftable_sound (fun p c r hr => by rw [show r = none from hr]; exact w_body c) es (Pool.along_acts _ _ (fun _ _ _ => trivial) _ es)
  obtain ⟨ρ, hw, ht⟩ := hg.threads
  have hrest : ∀ p, π.threads p = .ret () → ρ p = none := fun p hp => by
    have := ht p
    rw [hp] at this
    exact this
  have hclean : ∀ f, (π.state.file f).ref = 0 → (π.state.file f).type = .none := fun f hf => by
    by_contra e
    have := hw.typed f e
    omega
  refine ⟨fun hi => ?_, hclean, fun e he => ?_, fun p hp hrun hres => ?_, fun p c s' hs => gives_code hclean c _ _ hs rfl⟩
  · obtain rfl : ρ = fun _ => none := funext fun p => hrest p (hi p)
    exact hw.exact
  · exact not_not.1 (hg.failed e he)
  · have hk := hw.knows p
    rw [hrest p hp] at hk
    exact hk.failed hrun hres

def steps (p : Bool) (k : Nat) : List (Ev Bool (Call Bool Nat)) := List.replicate k (.step p)

def calls (p : Bool) (c : Call Bool Nat) (k : Nat) : List (Ev Bool (Call Bool Nat)) := .start p c :: steps p k

/-- `init` opens a file, makes a pipe and forks; the child closes its writing end. -/
def openPipeFork : List (Ev Bool (Call Bool Nat)) :=
  calls false (.open (some 3) 2) 5 ++ calls false (.pipe true (some 7)) 10 ++ calls false (.fork (some true) true 2) 26 ++ calls true (.close 2) 5

def start : Pool (Act Bool Nat) Act.Res Bool (St Bool Nat) Panic := ⟨boot false, fun _ => .ret (), none⟩

theorem file_refs_exact_openPipeFork :
    let π := Pool.runs exec Call.body start openPipeFork
    (π.state.file ⟨1, by decide⟩).ref = 2 ∧ (π.state.file ⟨2, by decide⟩).ref = 1 ∧ Exact π.state := by
  refine ⟨by decide +kernel, by decide +kernel, (file_refs_exact false openPipeFork).1 fun p => ?_⟩
  cases p <;> rfl

end Runs

end Xv6.Ftable
