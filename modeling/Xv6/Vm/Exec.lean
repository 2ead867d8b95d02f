/-
  Xv6.Vm.Exec — `loaduvm` and `exec`.

  The fields of an ELF file are 32-bit numbers from outside. `allocuvm` maps every page from
  0 up to the largest end of a segment, so that `loaduvm` finds a page wherever the checks of
  `exec` let it go, in whatever order the segments come. The arguments are written with
  `copyout`, which stops at the page below the stack; whatever fails, `freevm` gives back all
  that was built.

    • `exec_loads`: `exec` of any file ends with 0 or -1, or with the fault of `copyout`. With
      -1 nothing has changed. With 0, segments in ascending order on disjoint pages are in
      memory as the file has them, followed by zeros.
    • `exec_passes_args`: with fewer than `MAXARG` arguments of less than 2^25 bytes there is
      no fault. With 0 the arguments are on the stack page as `main` expects them; if there is
      memory and the file is in order, -1 means that they take more than a page.
-/

import Xv6.Vm.Copyout
import Xv6.Vm.Grow

namespace Xv6.Vm

open Lib Prog

/-! ## The file -/

/-- The contents of a regular file; its size is a `uint`. -/
structure File where
  data : List UInt8
  fits : data.length < 2 ^ 32

/-- `readi` of a regular file: -1, or the bytes that it has copied. -/
def File.readi (c : File) (off n : Nat) : Option (List UInt8) :=
  if c.data.length < off ∨ uint (off + n) < off then none else some ((c.data.drop off).take n)

/-- A little-endian number of `n` bytes at `i`. -/
def number (bs : List UInt8) (n i : Nat) : Nat := ((bs.drop i).take n).foldr (fun b x => b.toNat + 256 * x) 0

def ELF_MAGIC : Nat := 0x464C457F
def ELF_PROG_LOAD : Nat := 1

structure Elfhdr where
  magic : Nat
  entry : Nat
  phoff : Nat
  phnum : Nat

structure Proghdr where
  type : Nat
  off : Nat
  vaddr : Nat
  filesz : Nat
  memsz : Nat

/-- `readi(ip, (char*)&elf, 0, sizeof(elf))`, if all of it could be read. -/
def File.elfhdr (c : File) : Option Elfhdr :=
  (c.readi 0 52).bind fun bs => if bs.length ≠ 52 then none else some ⟨number bs 4 0, number bs 4 24, number bs 4 28, number bs 2 44⟩

/-- `readi(ip, (char*)&ph, off, sizeof(ph))`, if all of it could be read. -/
def File.proghdr (c : File) (off : Nat) : Option Proghdr :=
  (c.readi off 32).bind fun bs => if bs.length ≠ 32 then none else some ⟨number bs 4 0, number bs 4 4, number bs 4 8, number bs 4 16, number bs 4 20⟩

/-! ## The code -/

section Programs

variable {P : Type}

/-- `for(i = 0; i < sz; i += PGSIZE)` in `loaduvm`. -/
def loadLoop (pgdir addr : Nat) (ip : File) (offset sz : Nat) : Nat → Nat → M P Int
  | 0, _ => panic .stuck
  | fuel + 1, i => do
    if i < sz then
      match ← walkpgdir pgdir (uint (addr + i)) false with
      | none => panic .loadExist
      | some (pgtab, j) =>
        let e ← read pgtab j
        let n := if sz - i < 4096 then sz - i else 4096
        match ip.readi (uint (offset + i)) n with
        | none => return -1
        | some bs =>
          memmove (pageOf e) 0 bs
          if bs.length ≠ n then return -1 else loadLoop pgdir addr ip offset sz fuel (uint (i + 4096))
    else return 0

def loaduvm (pgdir addr : Nat) (ip : File) (offset sz : Nat) : M P Int :=
  if addr % 4096 ≠ 0 then panic .loadAlign else loadLoop pgdir addr ip offset sz steps 0

/-- `for(i=0, off=elf.phoff; i<elf.phnum; i++, off+=sizeof(ph))` in `exec`: the new `sz`. -/
def loadSegments (pgdir : Nat) (ip : File) : Nat → Nat → Nat → M P (Option Nat)
  | 0, _, sz => return some sz
  | n + 1, off, sz => do
    match ip.proghdr off with
    | none => return none
    | some ph =>
      if ph.type ≠ ELF_PROG_LOAD then loadSegments pgdir ip n (uint (off + 32)) sz
      else if ph.memsz < ph.filesz then return none
      else if uint (ph.vaddr + ph.memsz) < ph.vaddr then return none
      else
        let sz ← allocuvm pgdir sz (uint (ph.vaddr + ph.memsz))
        if sz = 0 then return none
        else if ph.vaddr % 4096 ≠ 0 then return none
        else if (← loaduvm pgdir ph.vaddr ip ph.off ph.filesz) < 0 then return none
        else loadSegments pgdir ip n (uint (off + 32)) sz

/-- `a - b`, both `uint`. -/
def minus (a b : Nat) : Nat := uint (a + 2 ^ 32 - uint b)

def MAXARG : Nat := 32

/-- `for(argc = 0; argv[argc]; argc++)` in `exec`: the stack pointer and `ustack[3..]`. -/
def pushArgs (pgdir : Nat) : List (List UInt8) → Nat → List Nat → M P (Option (Nat × List Nat))
  | [], sp, ustack => return some (sp, ustack)
  | arg :: argv, sp, ustack => do
    if MAXARG ≤ ustack.length then return none
    else
      let sp := minus sp (arg.length + 1) / 4 * 4
      if (← copyout pgdir sp (arg ++ [0])) < 0 then return none
      else pushArgs pgdir argv sp (ustack ++ [sp])

/-- A `uint` as it stands in memory. -/
def bytes (x : Nat) : List UInt8 := [.ofNat x, .ofNat (x / 2 ^ 8), .ofNat (x / 2 ^ 16), .ofNat (x / 2 ^ 24)]

/-- The whole of `ustack`, for the stack pointer `sp` below the strings. -/
def stackFrame (sp : Nat) (args : List Nat) : List Nat := [0xFFFFFFFF, args.length, minus sp ((args.length + 1) * 4)] ++ args ++ [0]

/-- `for(last=s=path; *s; s++) if(*s == '/') last = s+1;` -/
def lastElem (last : List UInt8) : List UInt8 → List UInt8
  | [] => last
  | c :: s => lastElem (if c = 47 then s else last) s

/-- From "Commit to the user image" on. -/
def commit (p : P) (path : List UInt8) (pgdir sz entry sp : Nat) : M P Int := do
  let x ← myproc p
  let y : Proc := { x with name := (lastElem path path).take 15, pgdir, sz, tf := { x.tf with eip := entry, esp := sp } }
  setproc p y
  switchuvm y
  freevm x.pgdir
  return 0

/-- `bad:` with a page directory. -/
def bad (pgdir : Nat) : M P Int := do
  freevm pgdir
  return -1

/-- The user stack and what follows. -/
@[irreducible] def execStack (p : P) (path : List UInt8) (pgdir sz entry : Nat) (argv : List (List UInt8)) : M P Int := do
  let sz ← allocuvm pgdir (PGROUNDUP sz) (uint (PGROUNDUP sz + 2 * 4096))
  if sz = 0 then bad pgdir
  else
    clearpteu pgdir (minus sz (2 * 4096))
    match ← pushArgs pgdir argv sz [] with
    | none => bad pgdir
    | some (sp, args) =>
      let ustack := stackFrame sp args
      let sp := minus sp (4 * ustack.length)
      if (← copyout pgdir sp (ustack.flatMap bytes)) < 0 then bad pgdir
      else commit p path pgdir sz entry sp

/-- `exec`, for what `namei(path)` has found. -/
def exec (k : Image) (p : P) (path : List UInt8) (ip : Option File) (argv : List (List UInt8)) : M P Int := do
  match ip with
  | none => return -1
  | some c =>
    match c.elfhdr with
    | none => return -1
    | some elf =>
      if elf.magic ≠ ELF_MAGIC then return -1
      else
        match ← setupkvm k with
        | none => return -1
        | some pgdir =>
          match ← loadSegments pgdir c elf.phnum elf.phoff 0 with
          | none => bad pgdir
          | some sz => execStack p path pgdir sz elf.entry argv

end Programs

theorem number_lt (bs : List UInt8) (n i : Nat) : number bs n i < 256 ^ n := by
  have h : ∀ l : List UInt8, l.foldr (fun b x => b.toNat + 256 * x) 0 < 256 ^ l.length := by
    intro l
    induction l with
    | nil => decide
    | cons b l ih =>
      have := b.toNat_lt
      rw [List.foldr_cons, List.length_cons, Nat.pow_succ]
      omega
  exact Nat.lt_of_lt_of_le (h _) (Nat.pow_le_pow_right (by decide) (List.length_take_le n _))

theorem File.proghdr_lt {c : File} {off : Nat} {ph : Proghdr} (h : c.proghdr off = some ph) :
    ph.off < 2 ^ 32 ∧ ph.vaddr < 2 ^ 32 ∧ ph.filesz < 2 ^ 32 ∧ ph.memsz < 2 ^ 32 := by
  obtain ⟨bs, _, h⟩ := Option.bind_eq_some_iff.1 h
  split at h
  · cases h
  · cases h
    exact ⟨number_lt bs 4 4, number_lt bs 4 8, number_lt bs 4 16, number_lt bs 4 20⟩

/-! ## `loaduvm` -/

section Load

variable {P : Type} [DecidableEq P] {k : Image} {B : Err → Prop} {p : P} {r r' : Res P} {d v : Nat} {R : Set Nat} {c : File}

variable {sz off n : Nat}

theorem w_loadLoop {q fuel : Nat} (h : Space k r d R) (hend : 4096 * v + sz ≤ KERNBASE)
    (hp : ∀ w, v ≤ w → 4096 * w < 4096 * v + sz → pres r.mem d w ≠ none) (hoff : off + 4096 * q < 2 ^ 32 ∨ sz ≤ 4096 * q) (hfuel : 2 ^ 19 - q < fuel)
    {Q : Int → Res P → Prop} (hno : ∀ r', Filled k d R r r' → ¬ (sz = 0 ∨ off + sz ≤ c.data.length) → Q (-1) r')
    (hok : ∀ r', Filled k d R r r' → (off + sz ≤ c.data.length ∨ sz ≤ 4096 * q) →
      Written r.mem r'.mem d (4096 * (v + q)) ((c.data.drop (off + 4096 * q)).take (sz - 4096 * q)) → Q 0 r') :
    W k B p (loadLoop d (4096 * v) c off sz fuel (4096 * q)) Q r := by
  have hend' : 4096 * v + sz ≤ 0x80000000 := hend
  induction fuel generalizing q r with
  | zero => omega
  | succ fuel ih =>
    refine w_if (fun hlt => ?_) fun hge => ?_
    · have hoff' : off + 4096 * q < 2 ^ 32 := hoff.resolve_right (by omega)
      obtain ⟨e, he⟩ := Option.ne_none_iff_exists'.1 (hp (v + q) (by omega) (by omega))
      obtain ⟨t, ht, hw, _⟩ := tab_of_pres he
      rw [show uint (4096 * v + 4096 * q) = 4096 * (v + q) by unfold uint; omega]
      refine w_bind (w_walk h.tree.dir_mem (by omega) (fun hn => by rw [ht] at hn; cases hn) fun t' ht' => ?_)
      obtain rfl : t = t' := Option.some.inj (ht.symm.trans ht')
      refine w_read (h.tree.table_mem (by omega) ht) ?_
      rw [hw]
      have hpg : page r.mem d (v + q) = some (pageOf e) := page_of_pres he
      generalize pageOf e = f at hpg
      have hfd : f ∈ Data r.mem d := ⟨v + q, by omega, hpg⟩
      dsimp only
      generalize hn : (if sz - 4096 * q < 4096 then sz - 4096 * q else 4096) = n
      have hn : n = min 4096 (sz - 4096 * q) := by
        rw [← hn]
        split <;> omega
      rw [show uint (off + 4096 * q) = off + 4096 * q by unfold uint; omega]
      have hfits := c.fits
      cases hr : c.readi (off + 4096 * q) n with
      | none =>
        refine hno r (.refl h) ?_
        unfold File.readi uint at hr
        split at hr
        · omega
        · cases hr
      | some bs =>
        have hbs : (c.data.drop (off + 4096 * q)).take n = bs := by
          unfold File.readi at hr
          split at hr
          · cases hr
          · exact Option.some.inj hr
        have hfill := h.fill hfd ((r.mem f).setBytes 0 bs)
        refine w_memmove (h.data_mem hfd) (w_if (fun hshort => hno _ hfill ?_) fun hfull => ?_)
        · rw [← hbs, List.length_take, List.length_drop] at hshort
          omega
        have hlen : off + 4096 * q + n ≤ c.data.length := by
          have hlen := not_not.1 hfull
          rw [← hbs, List.length_take, List.length_drop] at hlen
          omega
        rw [show uint (4096 * q + 4096) = 4096 * (q + 1) by unfold uint; omega]
        refine ih hfill.space (fun w h1 h2 => by rw [hfill.same.pres (by omega)]; exact hp w h1 h2) (by omega) (by omega)
          (fun r' hf hlt => hno r' (hfill.trans hf) hlt) fun r' hf hread hw => hok r' (hfill.trans hf) (.inl (by omega)) ?_
        -- the rest of the bytes after this page
        have hva : 4096 * (v + q) / 4096 = v + q := by omega
        refine Written.chunk (n := n) r'.mem h (by omega) (by rw [hva]; exact hpg) ?_ ?_
        · rw [List.length_take, List.length_drop]
          omega
        · rw [show 4096 * (v + q) % 4096 = 0 by omega, List.take_take, List.drop_take, List.drop_drop, hva,
            show min n (sz - 4096 * q) = n by omega, hbs]
          rw [show v + (q + 1) = v + q + 1 by omega, show sz - 4096 * (q + 1) = sz - 4096 * q - n by omega] at hw
          by_cases hlast : sz - 4096 * q - n = 0
          · rw [hlast, List.take_zero] at hw ⊢
            exact hw
          · rw [show off + 4096 * (q + 1) = off + 4096 * q + n by omega] at hw
            exact hw
    · refine hok r (.refl h) (.inr (by omega)) fun v f j _ _ _ => ?_
      rw [show sz - 4096 * q = 0 by omega, List.take_zero, List.getElem?_nil]
      split <;> rfl

/-! ## Segments -/

/-- The program headers of the table that are to be loaded. -/
def File.segments (c : File) : Nat → Nat → List Proghdr
  | 0, _ => []
  | n + 1, off => match c.proghdr off with
    | none => []
    | some ph => if ph.type ≠ ELF_PROG_LOAD then c.segments n (uint (off + 32)) else ph :: c.segments n (uint (off + 32))

theorem File.segments_succ {c : File} {ph : Proghdr} (h : c.proghdr off = some ph) :
    c.segments (n + 1) off = if ph.type ≠ ELF_PROG_LOAD then c.segments n (uint (off + 32)) else ph :: c.segments n (uint (off + 32)) := by
  rw [File.segments, h]

/-- The segment passes the checks of `exec`, and the file has its bytes. -/
def Proghdr.Ok (c : File) (x : Proghdr) : Prop :=
  x.filesz ≤ x.memsz ∧ x.vaddr + x.memsz < KERNBASE ∧ x.vaddr % 4096 = 0 ∧ (x.filesz = 0 ∨ x.off + x.filesz ≤ c.data.length)

instance (c : File) (x : Proghdr) : Decidable (x.Ok c) := inferInstanceAs (Decidable (_ ∧ _))

/-- The size to which the headers of the table bring an image of size `sz`, if all are in order. -/
def File.plan (c : File) : Nat → Nat → Nat → Option Nat
  | 0, _, sz => some sz
  | n + 1, off, sz => match c.proghdr off with
    | none => none
    | some ph =>
      if ph.type ≠ ELF_PROG_LOAD then c.plan n (uint (off + 32)) sz
      else if ph.Ok c ∧ 0 < max sz (ph.vaddr + ph.memsz) then c.plan n (uint (off + 32)) (max sz (ph.vaddr + ph.memsz))
      else none

theorem File.plan_succ {c : File} {ph : Proghdr} (h : c.proghdr off = some ph) :
    c.plan (n + 1) off sz = if ph.type ≠ ELF_PROG_LOAD then c.plan n (uint (off + 32)) sz
      else if ph.Ok c ∧ 0 < max sz (ph.vaddr + ph.memsz) then c.plan n (uint (off + 32)) (max sz (ph.vaddr + ph.memsz)) else none := by
  rw [File.plan, h]

theorem File.plan_bad {c : File} {ph : Proghdr} (h : c.proghdr off = some ph) (ht : ph.type = ELF_PROG_LOAD)
    (hbad : ¬ (ph.Ok c ∧ 0 < max sz (ph.vaddr + ph.memsz))) : c.plan (n + 1) off sz = none := by
  rw [File.plan_succ h, if_neg (fun e => e ht), if_neg hbad]

/-- The segment has a byte on the page `v`. -/
def Proghdr.Covers (x : Proghdr) (v : Nat) : Prop := ∃ j < x.memsz, (x.vaddr + j) / 4096 = v

/-- In ascending order, on disjoint pages. -/
def Ascending (xs : List Proghdr) : Prop := xs.Pairwise fun x y => x.vaddr ≤ y.vaddr ∧ ∀ v, x.Covers v → ¬ y.Covers v

/-- The byte at the user address `a`. -/
def userByte (m : Nat → Page) (d a : Nat) : Option UInt8 := (page m d (a / 4096)).map fun f => m f (a % 4096)

/-- The segment is in memory: bytes of the file, then zeros. -/
structure Holds (m : Nat → Page) (d : Nat) (c : File) (x : Proghdr) : Prop where
  file : ∀ j < x.filesz, ∃ b, c.data[x.off + j]? = some b ∧ userByte m d (x.vaddr + j) = some b
  zero : ∀ j, x.filesz ≤ j → j < x.memsz → userByte m d (x.vaddr + j) = some 0

/-- A new directory with user pages below `sz`, beside what there was. -/
structure Loading (k : Image) (d sz : Nat) (r₀ r : Res P) : Prop where
  space : Space k r d r₀.own
  user : UserOnly r.mem d
  size : sz < KERNBASE
  low : ∀ v, 4096 * v < sz → UserPage r.mem d v
  above : ∀ v, v < 2 ^ 19 → sz ≤ 4096 * v → pres r.mem d v = none
  dev : ∀ v, v < 2 ^ 20 → DEVSPACE ≤ 4096 * v → pres r.mem d v ≠ none
  mem : ∀ f ∈ r₀.own, r.mem f = r₀.mem f
  proc : r.proc = r₀.proc

section Steps

variable {r₀ : Res P} {sz newsz : Nat} {m m' : Nat → Page}

omit [DecidableEq P] in
theorem kernelPte_dev (k : Image) {v : Nat} (hv : v < 2 ^ 20) (hd : DEVSPACE ≤ 4096 * v) : kernelPte k v ≠ none := by
  have hholds : (⟨DEVSPACE, DEVSPACE, 0, PTE_W⟩ : Kmap).Holds v := by
    simp only [Kmap.Holds, Kmap.size, uint, DEVSPACE] at hd ⊢
    omega
  have hfind : ((kmap k).find? fun x => decide (x.Holds v)).isSome = true :=
    List.find?_isSome.2 ⟨⟨DEVSPACE, DEVSPACE, 0, PTE_W⟩, by simp [kmap], decide_eq_true hholds⟩
  intro h
  have hnone : (kmap k).find? (fun x => decide (x.Holds v)) = none := Option.map_eq_none_iff.1 h
  rw [hnone] at hfind
  cases hfind

omit [DecidableEq P] in
theorem Loading.start (h : KernelDir k d r₀ r) : Loading k d 0 r₀ r :=
  ⟨h.space, fun v hv ⟨_, he, hu⟩ => absurd (kernelPte_not_user ((h.pres v hv).symm.trans he)) hu, by decide, fun v hv => absurd hv (Nat.not_lt_zero _),
    fun v hv _ => by rw [h.pres v (by omega), kernelPte_user k hv], fun v hv hdev => by rw [h.pres v hv]; exact kernelPte_dev k hv hdev, h.mem, h.proc⟩

omit [DecidableEq P] in
theorem Loading.grow (h : Loading k d sz r₀ r) (hle : sz ≤ newsz) (hk : newsz < KERNBASE)
    (hg : Grown k d r₀.own ((sz + 4095) / 4096) ((newsz + 4095) / 4096) r r') : Loading k d newsz r₀ r' := by
  have hk' : newsz < 0x80000000 := hk
  refine ⟨hg.space, fun v hv hu => ?_, hk, fun v hv => ?_, fun v hv hge => ?_, fun v hv hdev => ?_,
    fun f hf => (hg.mem f (.inl hf)).trans (h.mem f hf), hg.proc.trans h.proc⟩
  · by_contra hge
    exact hge (h.user v hv ((userPage_congr (hg.old v hv (by omega))).1 hu))
  · by_cases hin : (sz + 4095) / 4096 ≤ v ∧ v < (newsz + 4095) / 4096
    · obtain ⟨f, hp, _, hpr, _⟩ := hg.new v hin.1 hin.2
      refine ⟨_, hpr, ?_⟩
      rw [pte_user hp.lt.2 (by decide)]
      decide
    · exact (userPage_congr (hg.old v (by omega) hin)).2 (h.low v (by omega))
  · rw [hg.old v (by omega) (by omega)]
    exact h.above v hv (by omega)
  · have hdev' : 0xFE000000 ≤ 4096 * v := hdev
    rw [hg.old v hv (by omega)]
    exact h.dev v hv hdev

omit [DecidableEq P] in
theorem Loading.fill (h : Loading k d sz r₀ r) (hf : Filled k d r₀.own r r') : Loading k d sz r₀ r' := by
  have hsz : sz < 0x80000000 := h.size
  refine ⟨hf.space, fun v hv hu => h.user v hv ((hf.userPage hv).1 hu), h.size, fun v hv => (hf.userPage (by omega)).2 (h.low v hv),
    fun v hv hge => (hf.same.pres (by omega)).trans (h.above v hv hge), fun v hv hdev => by rw [hf.same.pres hv]; exact h.dev v hv hdev, fun f hfo => ?_,
    hf.proc.trans h.proc⟩
  exact (hf.mem f fun hd => h.space.apart f hd hfo).trans (h.mem f hfo)

omit [DecidableEq P] in
theorem Loading.present (h : Loading k d sz r₀ r) (hv : 4096 * v < sz) : pres r.mem d v ≠ none := by
  obtain ⟨e, he, _⟩ := h.low v hv
  rw [he]
  nofun

theorem userByte_written (hs : SameDir m m' d) {va a : Nat} {buf : List UInt8} (hw : Written m m' d va buf) (ha : a < KERNBASE) :
    userByte m' d a = if va ≤ a then (userByte m d a).map fun b => (buf[a - va]?).getD b else userByte m d a := by
  have ha' : a < 0x80000000 := ha
  have hpage : page m' d (a / 4096) = page m d (a / 4096) := page_congr (hs.pres (by omega))
  unfold userByte
  rw [hpage]
  cases hf : page m d (a / 4096) with
  | none => split <;> rfl
  | some f =>
    have := hw (a / 4096) f (a % 4096) (by omega) hf (by omega)
    rw [show 4096 * (a / 4096) + a % 4096 = a by omega] at this
    simp only [Option.map_some, this]
    split <;> rfl

omit [DecidableEq P] in
theorem userByte_grown {v₀ : Nat} (hg : Grown k d R v₀ v r r') (hfree : ∀ w, v₀ ≤ w → w < v → pres r.mem d w = none) {a : Nat} (ha : a < KERNBASE) :
    (∀ b, userByte r.mem d a = some b → userByte r'.mem d a = some b) ∧ (v₀ ≤ a / 4096 → a / 4096 < v → userByte r'.mem d a = some 0) := by
  have ha' : a < 0x80000000 := ha
  refine ⟨fun b hb => ?_, fun h1 h2 => ?_⟩
  · obtain ⟨f, hf, hb⟩ := Option.map_eq_some_iff.1 hb
    have hout : ¬ (v₀ ≤ a / 4096 ∧ a / 4096 < v) := fun hin => by
      rw [page, hfree _ hin.1 hin.2] at hf
      cases hf
    have hp : page r'.mem d (a / 4096) = some f := (page_congr (hg.old _ (by omega) hout)).trans hf
    rw [userByte, hp, ← hb, Option.map_some, hg.mem f (.inr ⟨_, by omega, hf⟩)]
  · obtain ⟨f, hp, _, hpr, hz⟩ := hg.new _ h1 h2
    rw [userByte, page_of_pres hpr, pageOf_pte hp.lt.2 (by decide), Option.map_some, hz]

/-- The segments `xs` have been loaded, and `sz` is the largest end of one. -/
structure Placed (c : File) (m : Nat → Page) (d sz : Nat) (xs : List Proghdr) : Prop where
  ends : ∀ x ∈ xs, x.filesz ≤ x.memsz ∧ x.vaddr + x.memsz ≤ sz
  least : ∀ a, (∀ x ∈ xs, x.vaddr + x.memsz ≤ a) → sz ≤ a
  holds : Ascending xs → ∀ x ∈ xs, Holds m d c x

/-- If it comes after the others and on other pages, a segment starts above their pages. -/
theorem Placed.below {xs : List Proghdr} {x : Proghdr} (h : Placed c m d sz xs) (hasc : ∀ y ∈ xs, y.vaddr ≤ x.vaddr ∧ ∀ v, y.Covers v → ¬ x.Covers v)
    (hpos : 0 < x.memsz) : sz ≤ x.vaddr := by
  refine h.least _ fun y hy => ?_
  by_contra hlt
  obtain ⟨hle, hdis⟩ := hasc y hy
  exact hdis (x.vaddr / 4096) ⟨x.vaddr - y.vaddr, by omega, by rw [show y.vaddr + (x.vaddr - y.vaddr) = x.vaddr by omega]⟩ ⟨0, hpos, rfl⟩

/-- One more segment: first `allocuvm`, from `m` to `m₁`, then `loaduvm`. -/
theorem Placed.snoc {m₁ : Nat → Page} {xs : List Proghdr} {x : Proghdr} (h : Placed c m d sz xs) (hsz : sz < KERNBASE) (hfile : x.filesz ≤ x.memsz)
    (hend : x.vaddr + x.memsz < KERNBASE) (hread : x.off + x.filesz ≤ c.data.length ∨ x.filesz = 0)
    (hold : ∀ a b, a < KERNBASE → userByte m d a = some b → userByte m₁ d a = some b) (hpres : ∀ j < x.memsz, userByte m₁ d (x.vaddr + j) ≠ none)
    (hzero : sz ≤ x.vaddr → ∀ j < x.memsz, userByte m₁ d (x.vaddr + j) = some 0)
    (hs : SameDir m₁ m' d) (hw : Written m₁ m' d x.vaddr ((c.data.drop x.off).take x.filesz)) :
    Placed c m' d (max sz (x.vaddr + x.memsz)) (xs ++ [x]) := by
  have hlen : ((c.data.drop x.off).take x.filesz).length = x.filesz := by
    rw [List.length_take, List.length_drop]
    omega
  refine ⟨fun y hy => ?_, fun a ha => ?_, fun hasc y hy => ?_⟩
  · rcases List.mem_append.1 hy with hy | hy
    · obtain ⟨h1, h2⟩ := h.ends y hy
      exact ⟨h1, by omega⟩
    · rw [List.mem_singleton.1 hy]
      exact ⟨hfile, by omega⟩
  · have h1 := h.least a fun y hy => ha y (List.mem_append_left _ hy)
    have h2 := ha x (List.mem_append_right _ List.mem_cons_self)
    omega
  · obtain ⟨hasc, _, hcross⟩ := List.pairwise_append.1 hasc
    have hcross : ∀ y ∈ xs, y.vaddr ≤ x.vaddr ∧ ∀ v, y.Covers v → ¬ x.Covers v := fun y hy => hcross y hy x List.mem_cons_self
    rcases List.mem_append.1 hy with hy | hy
    · -- an older segment has no byte where the file is read to
      obtain ⟨hy1, hy2⟩ := h.ends y hy
      have hkeep : ∀ j b, j < y.memsz → userByte m d (y.vaddr + j) = some b → userByte m' d (y.vaddr + j) = some b := fun j b hj hb => by
        rw [userByte_written hs hw (by omega), hold _ b (by omega) hb]
        by_cases hlow : x.vaddr ≤ y.vaddr + j
        · rw [if_pos hlow, List.getElem?_eq_none, Option.map_some, Option.getD_none]
          rw [hlen]
          by_contra hin
          exact (hcross y hy).2 ((y.vaddr + j) / 4096) ⟨j, hj, rfl⟩ ⟨y.vaddr + j - x.vaddr, by omega, by rw [show x.vaddr + (y.vaddr + j - x.vaddr) = y.vaddr + j by omega]⟩
        · rw [if_neg hlow]
      have hy' := h.holds hasc y hy
      refine ⟨fun j hj => ?_, fun j h1 h2 => hkeep j 0 h2 (hy'.zero j h1 h2)⟩
      obtain ⟨b, hb, hu⟩ := hy'.file j hj
      exact ⟨b, hb, hkeep j b (by omega) hu⟩
    · rw [List.mem_singleton.1 hy]
      refine ⟨fun j hj => ?_, fun j h1 h2 => ?_⟩
      · have hlt : x.off + j < c.data.length := by omega
        obtain ⟨b, hb⟩ := Option.ne_none_iff_exists'.1 (hpres j (by omega))
        refine ⟨c.data[x.off + j], List.getElem?_eq_getElem hlt, ?_⟩
        rw [userByte_written hs hw (by omega), if_pos (by omega), hb, show x.vaddr + j - x.vaddr = j by omega, List.getElem?_take_of_lt hj,
          List.getElem?_drop, List.getElem?_eq_getElem hlt]
        rfl
      · rw [userByte_written hs hw (by omega), if_pos (by omega), hzero (h.below hcross (by omega)) j h2, List.getElem?_eq_none (by omega)]
        rfl

omit [DecidableEq P] in
theorem Loading.userByte_ne_none (h : Loading k d sz r₀ r) {a : Nat} (ha : a < sz) : userByte r.mem d a ≠ none := by
  obtain ⟨e, he, _⟩ := h.low (a / 4096) (by omega)
  rw [userByte, page_of_pres he]
  nofun

end Steps

/-- What is left to be freed. -/
structure Begun (k : Image) (d : Nat) (r₀ r : Res P) : Prop where
  space : Space k r d r₀.own
  mem : ∀ f ∈ r₀.own, r.mem f = r₀.mem f
  proc : r.proc = r₀.proc

omit [DecidableEq P] in
theorem Loading.begun {r₀ : Res P} (h : Loading k d sz r₀ r) : Begun k d r₀ r := ⟨h.space, h.mem, h.proc⟩

omit [DecidableEq P] in
theorem Loading.refused {r₀ : Res P} (h : Loading k d sz r₀ r) (hr : Refused k d r₀.own r r') : Begun k d r₀ r' :=
  ⟨hr.space, fun f hf => (hr.mem f (.inl hf)).trans (h.mem f hf), hr.proc.trans h.proc⟩

theorem w_loadSegments {r₀ : Res P} {xs : List Proghdr} (h : Loading k d sz r₀ r) (hx : Placed c r.mem d sz xs) {Q : Option Nat → Res P → Prop}
    (hno : ∀ r', Begun k d r₀ r' → (r'.denied = r.denied → c.plan n off sz = none) → Q none r')
    (hok : ∀ r' sz', Loading k d sz' r₀ r' → Placed c r'.mem d sz' (xs ++ c.segments n off) → r'.denied = r.denied → c.plan n off sz = some sz' →
      Q (some sz') r') : W k B p (loadSegments d c n off sz) Q r := by
  induction n generalizing off sz xs r with
  | zero => exact hok r sz h (by rw [File.segments, List.append_nil]; exact hx) rfl rfl
  | succ n ih =>
    unfold loadSegments
    cases hph : c.proghdr off with
    | none => exact hno r h.begun fun _ => by rw [File.plan, hph]
    | some ph =>
      rw [File.segments_succ hph] at hok
      obtain ⟨hoff, hvaddr, hfilesz, hmemsz⟩ := File.proghdr_lt hph
      refine w_if (fun ht => ?_) fun ht => ?_
      · rw [if_pos ht] at hok
        rw [File.plan_succ hph, if_pos ht] at hno hok
        exact ih h hx hno hok
      rw [if_neg ht] at hok
      have hno' : ¬ (ph.Ok c ∧ 0 < max sz (ph.vaddr + ph.memsz)) → ∀ r', Begun k d r₀ r' → Q none r' := fun hbad r' hb =>
        hno r' hb fun _ => File.plan_bad hph (not_not.1 ht) hbad
      refine w_if (fun hlt => hno' (fun hgood => by have := hgood.1.1; omega) r h.begun) fun hfile =>
        w_if (fun hwrap => hno' (fun hgood => ?_) r h.begun) fun hwrap => ?_
      · have hend : ph.vaddr + ph.memsz < 0x80000000 := hgood.1.2.1
        unfold uint at hwrap
        omega
      have hend : uint (ph.vaddr + ph.memsz) = ph.vaddr + ph.memsz := by
        unfold uint at hwrap ⊢
        omega
      rw [hend]
      -- once the pages are there
      have hload : ∀ r₁ sz₁, Loading k d sz₁ r₀ r₁ → sz₁ = max sz (ph.vaddr + ph.memsz) → r₁.denied = r.denied → ph.vaddr + ph.memsz < KERNBASE →
          (∀ a b, a < KERNBASE → userByte r.mem d a = some b → userByte r₁.mem d a = some b) →
          (ph.vaddr % 4096 = 0 → sz ≤ ph.vaddr → ∀ j < ph.memsz, userByte r₁.mem d (ph.vaddr + j) = some 0) →
          W k B p (if sz₁ = 0 then return none
            else if ph.vaddr % 4096 ≠ 0 then return none
            else do
              if (← loaduvm d ph.vaddr c ph.off ph.filesz) < 0 then return none
              else loadSegments d c n (uint (off + 32)) sz₁) Q r₁ := fun r₁ sz₁ h₁ hsz₁ hden hbase hold hzero => by
        have hlt : sz₁ < 0x80000000 := h₁.size
        refine w_if (fun h0 => hno' (fun hgood => by have := hgood.2; omega) r₁ h₁.begun) fun h0 =>
          w_if (fun hal => hno' (fun hgood => hal hgood.1.2.2.1) r₁ h₁.begun) fun hal => w_bind ?_
        unfold loaduvm
        rw [if_neg hal, show ph.vaddr = 4096 * (ph.vaddr / 4096) by omega]
        refine w_loadLoop (q := 0) h₁.space (show _ ≤ 0x80000000 by omega) (fun w _ h2 => h₁.present (by omega)) (.inl (by omega)) (by unfold steps; omega)
          (fun r₂ hf hshort => w_if (fun _ => hno' (fun hgood => ?_) r₂ (h₁.fill hf).begun) fun e => absurd (by decide) e)
          fun r₂ hf hread hw => w_if (fun e => nomatch e) fun _ => ?_
        · exact hshort hgood.1.2.2.2
        rw [Nat.mul_zero, Nat.add_zero, Nat.add_zero, Nat.sub_zero, show 4096 * (ph.vaddr / 4096) = ph.vaddr by omega] at hw
        have hpl : Placed c r₂.mem d sz₁ (xs ++ [ph]) := by
          rw [hsz₁]
          exact hx.snoc h.size (by omega) (show _ < 0x80000000 by omega) (by omega) hold (fun j hj => h₁.userByte_ne_none (by omega)) (hzero (by omega)) hf.same hw
        have hplan : c.plan (n + 1) off sz = c.plan n (uint (off + 32)) sz₁ := by
          rw [File.plan_succ hph, if_neg ht, if_pos ⟨⟨by omega, hbase, by omega, by omega⟩, by omega⟩, hsz₁]
        have hden₂ : r₂.denied = r.denied := hf.denied.trans hden
        rw [hplan, ← hden₂] at hno hok
        refine ih (h₁.fill hf) hpl hno fun r' sz' hl hp => hok r' sz' hl ?_
        rw [List.append_assoc] at hp
        exact hp
      refine w_bind (w_allocuvm h.space (fun w hw hle _ => h.above w hw hle) (fun hbig => w_if (fun _ => hno' (fun hgood => ?_) r h.begun) fun e => absurd rfl e)
        (fun hlt => ?_) (fun hle hk r₁ hg => ?_) fun r₁ hr => w_if (fun _ => hno r₁ (h.refused hr) fun hden => ?_) fun e => absurd rfl e)
      · exact absurd hgood.1.2.1 (Nat.not_lt.2 hbig)
      · have hsz : sz < 0x80000000 := h.size
        exact hload r sz h (by omega) rfl (show _ < 0x80000000 by omega) (fun _ _ _ hb => hb) fun _ hle => by omega
      · have hk' : ph.vaddr + ph.memsz < 0x80000000 := hk
        have hbyte := fun a ha => userByte_grown (a := a) hg (fun w h1 h2 => h.above w (by omega) (by omega)) ha
        refine hload r₁ _ (h.grow hle hk hg) (by omega) hg.denied hk (fun a b ha hb => (hbyte a ha).1 b hb) fun hal hle' j hj => ?_
        exact (hbyte _ (show _ < 0x80000000 by omega)).2 (by omega) (by omega)
      · obtain ⟨o, ho⟩ := hr.denied
        rw [ho] at hden
        exact absurd hden (List.cons_ne_self _ _)

/-! ## The stack -/

/-- The image with its two last pages, `m` that the user cannot reach and the stack `m + 1`. -/
structure Stacked (k : Image) (d m : Nat) (r₀ r : Res P) : Prop where
  begun : Begun k d r₀ r
  user : UserOnly r.mem d
  guard : ¬ UserPage r.mem d m
  stack : UserPage r.mem d (m + 1)
  size : 4096 * (m + 2) < KERNBASE
  low : ∀ v, v < m + 2 → pres r.mem d v ≠ none
  above : ∀ v, v < 2 ^ 19 → m + 2 ≤ v → pres r.mem d v = none
  dev : ∀ v, v < 2 ^ 20 → DEVSPACE ≤ 4096 * v → pres r.mem d v ≠ none

/-- The strings below `sp`, each at its address and with its terminator. -/
def pushed : Nat → List (List UInt8) → List (Nat × List UInt8)
  | _, [] => []
  | sp, arg :: argv => ((sp - (arg.length + 1)) / 4 * 4, arg ++ [0]) :: pushed ((sp - (arg.length + 1)) / 4 * 4) argv

/-- The bytes that the strings take, each rounded up to words. -/
def stringBytes (argv : List (List UInt8)) : Nat := (argv.map fun arg => (arg.length + 4) / 4 * 4).sum

/-- The bytes `bs` stand at the user address `a`. -/
def Stored (m : Nat → Page) (d a : Nat) (bs : List UInt8) : Prop := ∀ j b, bs[j]? = some b → userByte m d (a + j) = some b

theorem Stored.congr {m m' : Nat → Page} {a : Nat} {bs : List UInt8} (h : Stored m d a bs)
    (hb : ∀ j < bs.length, userByte m' d (a + j) = userByte m d (a + j)) : Stored m' d a bs := fun j b hj => by
  rw [hb j (List.getElem?_eq_some_iff.1 hj).1]
  exact h j b hj

/-- The strings lie between `sp` and what they take, from above to below. -/
theorem pushed_spec (argv : List (List UInt8)) {sp : Nat} (hal : sp % 4 = 0) (hroom : stringBytes argv ≤ sp) :
    (∀ x ∈ pushed sp argv, x.1 % 4 = 0 ∧ sp - stringBytes argv ≤ x.1 ∧ x.1 + x.2.length ≤ sp) ∧
      (pushed sp argv).Pairwise fun x y => y.1 + y.2.length ≤ x.1 := by
  induction argv generalizing sp with
  | nil => exact ⟨nofun, .nil⟩
  | cons arg argv ih =>
    have hsum : stringBytes (arg :: argv) = (arg.length + 4) / 4 * 4 + stringBytes argv := rfl
    rw [hsum] at hroom ⊢
    have hal' : (sp - (arg.length + 1)) / 4 * 4 % 4 = 0 := by omega
    obtain ⟨hin, hpair⟩ := ih hal' (by omega)
    refine ⟨fun x hx => ?_, List.pairwise_cons.2 ⟨fun x hx => (hin x hx).2.2, hpair⟩⟩
    rcases List.mem_cons.1 hx with rfl | hx
    · refine ⟨by dsimp only; omega, by dsimp only; omega, ?_⟩
      dsimp only
      rw [List.length_append, List.length_singleton]
      omega
    · have := hin x hx
      omega

section Stack

variable {r₀ : Res P} {m sz : Nat}

omit [DecidableEq P] in
theorem Loading.round (h : Loading k d sz r₀ r) (hk : 4096 * ((sz + 4095) / 4096) < KERNBASE) : Loading k d (4096 * ((sz + 4095) / 4096)) r₀ r :=
  ⟨h.space, h.user, hk, fun v hv => h.low v (by omega), fun v hv hle => h.above v hv (by omega), h.dev, h.mem, h.proc⟩

omit [DecidableEq P] in
theorem userByte_cleared (h : Cleared k d R v r r') {a : Nat} (ha : a < KERNBASE) : userByte r'.mem d a = userByte r.mem d a := by
  have ha' : a < 0x80000000 := ha
  have hpage : page r'.mem d (a / 4096) = page r.mem d (a / 4096) := by
    rw [page, h.pres _ (by omega), page]
    split
    · rw [Option.map_map]
      congr 1
      funext e
      exact pageOf_clear e
    · rfl
  unfold userByte
  rw [hpage]
  cases hf : page r.mem d (a / 4096) with
  | none => rfl
  | some f => rw [Option.map_some, Option.map_some, h.mem f (.inr ⟨_, by omega, hf⟩)]

omit [DecidableEq P] in
theorem Cleared.present (h : Cleared k d R m r r') (hv : v < 2 ^ 20) (hp : Vm.pres r.mem d v ≠ none) :
    Vm.pres r'.mem d v ≠ none := by
  rw [h.pres v hv]
  split
  · exact fun e => hp (Option.map_eq_none_iff.1 e)
  · exact hp

omit [DecidableEq P] in
theorem Loading.clear (h : Loading k d (4096 * (m + 2)) r₀ r) (hc : Cleared k d r₀.own m r r') : Stacked k d m r₀ r' := by
  have hsz : 4096 * (m + 2) < 0x80000000 := h.size
  refine ⟨⟨hc.space, fun f hf => (hc.mem f (.inl hf)).trans (h.mem f hf), hc.proc.trans h.proc⟩, fun v hv ⟨e, he, hu⟩ => ?_, fun ⟨e, he, hu⟩ => ?_,
    (userPage_congr ?_).2 (h.low (m + 1) (by omega)), h.size, fun v hv => hc.present (by omega) (h.present (by omega)), fun v hv hle => ?_,
    fun v hv hdev => hc.present hv (h.dev v hv hdev)⟩
  · rw [hc.pres v hv] at he
    by_cases ev : v = m
    · omega
    · rw [if_neg ev] at he
      exact h.user v hv ⟨e, he, hu⟩
  · rw [hc.pres m (by omega), if_pos rfl] at he
    obtain ⟨e', _, rfl⟩ := Option.map_eq_some_iff.1 he
    exact hu (by rw [BitVec.and_assoc, show ~~~PTE_U &&& PTE_U = 0#32 by decide, BitVec.and_zero]; rfl)
  · rw [hc.pres (m + 1) (by omega), if_neg (by omega)]
  · rw [hc.pres v (by omega), if_neg (by omega)]
    exact h.above v hv (by omega)

omit [DecidableEq P] in
theorem Stacked.fill (h : Stacked k d m r₀ r) (hf : Filled k d r₀.own r r') : Stacked k d m r₀ r' := by
  have hsz : 4096 * (m + 2) < 0x80000000 := h.size
  refine ⟨⟨hf.space, fun f hfo => ?_, hf.proc.trans h.begun.proc⟩, fun v hv hu => h.user v hv ((hf.userPage hv).1 hu), fun hu => h.guard ((hf.userPage (by omega)).1 hu),
    (hf.userPage (by omega)).2 h.stack, h.size, fun v hv => by rw [hf.same.pres (by omega)]; exact h.low v hv,
    fun v hv hle => (hf.same.pres (by omega)).trans (h.above v hv hle), fun v hv hdev => by rw [hf.same.pres hv]; exact h.dev v hv hdev⟩
  exact (hf.mem f fun hd => h.begun.space.apart f hd hfo).trans (h.begun.mem f hfo)

omit [DecidableEq P] in
theorem Stacked.userByte_ne_none (h : Stacked k d m r₀ r) {a : Nat} (ha : a < 4096 * (m + 2)) : userByte r.mem d a ≠ none := by
  obtain ⟨e, he⟩ := Option.ne_none_iff_exists'.1 (h.low (a / 4096) (by omega))
  rw [userByte, page_of_pres he]
  nofun

omit [DecidableEq P] in
theorem tab_ne_none_of_pres {m : Nat → Page} (h : pres m d v ≠ none) : tab m d (v / 1024) ≠ none := by
  obtain ⟨e, he⟩ := Option.ne_none_iff_exists'.1 h
  obtain ⟨t, ht, _⟩ := tab_of_pres he
  rw [ht]
  nofun

/-- `copyout` right below `sp`: it succeeds if and only if there is room on the stack. A buffer
    that goes around past 0 begins among the devices, if it is not too long. -/
theorem w_copyStack (pad : Nat) {sp sp' : Nat} {buf : List UInt8} (h : Stacked k d m r₀ r) (h1 : 4096 * (m + 1) ≤ sp) (h2 : sp ≤ 4096 * (m + 2)) (hpad : pad ≤ 3)
    (he : (sp' + buf.length + pad) % 2 ^ 32 = sp) (hsp : sp' < 2 ^ 32) (hlen : 0 < buf.length) {Q : Int → Res P → Prop} (hnull : 2 ^ 25 < buf.length → B .nullPte)
    (hno : sp < 4096 * (m + 1) + buf.length + pad → ∀ r', Stacked k d m r₀ r' → r'.denied = r.denied → Q (-1) r')
    (hok : ∀ r', Stacked k d m r₀ r' → r'.denied = r.denied → 4096 * (m + 1) ≤ sp' → sp' + buf.length + pad = sp → SameDir r.mem r'.mem d →
      Written r.mem r'.mem d sp' buf → Q 0 r') :
    W k B p (copyout d sp' buf) Q r := by
  have hsz : 4096 * (m + 2) < 0x80000000 := h.size
  refine w_copyoutLoop h.begun.space h.user hsp (by unfold steps; omega) (fun hall r' hf hw => ?_) (fun i hi _ hu _ r' hf => ?_) fun i hi hprev ht => ?_
  · -- a byte below the stack would be on the page that the user cannot reach
    have hpage : ∀ i < buf.length, pageAt sp' i ≠ m := fun i hi e => h.guard (e ▸ hall i hi)
    have hlow : 4096 * (m + 1) ≤ sp' ∧ sp' ≤ sp := by
      by_contra hnot
      by_cases hb : 4096 * (m + 1) + pad ≤ sp
      · refine hpage (buf.length - (sp - pad - 4096 * (m + 1) + 1)) (by omega) ?_
        unfold pageAt uint
        omega
      · refine hpage (buf.length - 1) (by omega) ?_
        unfold pageAt uint
        omega
    -- and one above it would be on a page of the kernel
    have hfit : sp' + buf.length + pad < 2 ^ 32 := by
      by_contra hge
      have hup : pageAt sp' (2 ^ 31 - sp') = 2 ^ 19 := by
        unfold pageAt uint
        omega
      have hlt := h.user _ (pageAt_lt _ _) (hall (2 ^ 31 - sp') (by omega))
      omega
    exact hok r' (h.fill hf) hf.denied hlow.1 (by omega) hf.same hw
  · refine hno ?_ r' (h.fill hf) hf.denied
    by_contra hge
    have hpage : pageAt sp' i = m + 1 := by
      unfold pageAt uint
      omega
    exact hu (hpage ▸ h.stack)
  · by_contra hB
    have hshort : buf.length ≤ 2 ^ 25 := Nat.le_of_not_lt fun e => hB (hnull e)
    by_cases hwrap : sp' ≤ sp
    · refine tab_ne_none_of_pres (h.low (pageAt sp' i) ?_) ht
      unfold pageAt uint
      omega
    · have hfirst : DEVSPACE ≤ 4096 * pageAt sp' 0 := by
        show 0xFE000000 ≤ _
        unfold pageAt uint
        omega
      cases i with
      | zero => exact tab_ne_none_of_pres (h.dev _ (pageAt_lt _ _) hfirst) ht
      | succ i =>
        have := h.user _ (pageAt_lt sp' 0) (hprev 0 (by omega))
        have hfirst' : 0xFE000000 ≤ 4096 * pageAt sp' 0 := hfirst
        omega

omit [DecidableEq P] in
/-- What `copyout` has written is there, and the other bytes are as they were. -/
theorem Stacked.stored {r' : Res P} {sp : Nat} {buf : List UInt8} (h : Stacked k d m r₀ r) (hs : SameDir r.mem r'.mem d) (hw : Written r.mem r'.mem d sp buf)
    (hle : sp + buf.length ≤ 4096 * (m + 2)) : Stored r'.mem d sp buf ∧
      ∀ a < KERNBASE, (a < sp ∨ sp + buf.length ≤ a) → userByte r'.mem d a = userByte r.mem d a := by
  have hsz : 4096 * (m + 2) < 0x80000000 := h.size
  refine ⟨fun j b hj => ?_, fun a ha hout => ?_⟩
  · have hlt := (List.getElem?_eq_some_iff.1 hj).1
    obtain ⟨b', hb'⟩ := Option.ne_none_iff_exists'.1 (h.userByte_ne_none (a := sp + j) (by omega))
    rw [userByte_written hs hw (show _ < 0x80000000 by omega), if_pos (by omega), hb', show sp + j - sp = j by omega, hj]
    rfl
  · rw [userByte_written hs hw ha]
    split
    · rw [List.getElem?_eq_none (by omega)]
      cases userByte r.mem d a <;> rfl
    · rfl

/-- The strings are pushed if and only if there is room for them, and not more than `MAXARG`. -/
theorem w_pushArgs {argv : List (List UInt8)} {sp : Nat} {ustack : List Nat} (h : Stacked k d m r₀ r) (h1 : 4096 * (m + 1) ≤ sp) (h2 : sp ≤ 4096 * (m + 2)) (hal : sp % 4 = 0)
    {Q : Option (Nat × List Nat) → Res P → Prop} (hnull : (∃ arg ∈ argv, 2 ^ 25 ≤ arg.length) → B .nullPte)
    (hno : (sp < 4096 * (m + 1) + stringBytes argv ∨ MAXARG < ustack.length + argv.length) → ∀ r', Stacked k d m r₀ r' → r'.denied = r.denied → Q none r')
    (hok : 4096 * (m + 1) + stringBytes argv ≤ sp → ustack.length + argv.length ≤ max MAXARG ustack.length → ∀ r', Stacked k d m r₀ r' → r'.denied = r.denied →
      (∀ x ∈ pushed sp argv, Stored r'.mem d x.1 x.2) → (∀ a < KERNBASE, (a < sp - stringBytes argv ∨ sp ≤ a) → userByte r'.mem d a = userByte r.mem d a) →
      Q (some (sp - stringBytes argv, ustack ++ (pushed sp argv).map Prod.fst)) r') : W k B p (pushArgs d argv sp ustack) Q r := by
  have hsz : 4096 * (m + 2) < 0x80000000 := h.size
  induction argv generalizing sp ustack r with
  | nil =>
    have hr := hok h1 (by simp) r h rfl nofun fun _ _ _ => rfl
    rwa [pushed, List.map_nil, List.append_nil] at hr
  | cons arg argv ih =>
    have hsum : stringBytes (arg :: argv) = (arg.length + 4) / 4 * 4 + stringBytes argv := rfl
    rw [List.length_cons, hsum] at hno hok
    refine w_if (fun hmax => hno (.inr (by omega)) r h rfl) fun hmax => w_bind ?_
    have hlen : (arg ++ [0]).length = arg.length + 1 := by rw [List.length_append, List.length_singleton]
    generalize hsp : minus sp (arg.length + 1) / 4 * 4 = sp'
    refine w_copyStack (minus sp (arg.length + 1) % 4) h h1 h2 (by omega) ?_ ?_ (by omega) (fun hlong => hnull ⟨arg, List.mem_cons_self, by omega⟩)
      (fun hlt r' hs hden => w_if (fun _ => hno (.inl ?_) r' hs hden) fun e => absurd (by decide) e)
      fun r' hs hden hlo hend hsame hw => w_if (fun e => nomatch e) fun _ => ?_
    · rw [hlen]
      unfold minus uint at *
      omega
    · unfold minus uint at hsp
      omega
    · rw [hlen] at hlt
      unfold minus uint at hlt
      omega
    · rw [hlen] at hend
      have hsp' : sp' = (sp - (arg.length + 1)) / 4 * 4 := by
        unfold minus uint at hsp hend
        omega
      have hround : sp' + (arg.length + 4) / 4 * 4 = sp := by omega
      obtain ⟨hstr, hkeep⟩ := h.stored hsame hw (by rw [hlen]; omega)
      rw [hlen] at hkeep
      rw [pushed, ← hsp', List.map_cons] at hok
      have hmem : ∀ arg', arg' ∈ argv → arg' ∈ arg :: argv := fun _ => List.mem_cons_of_mem _
      refine ih hs hlo (by omega) (by omega) (fun ⟨arg', ha, hl⟩ => hnull ⟨arg', hmem _ ha, hl⟩)
        (fun hbad r'' hs'' hden'' => hno ?_ r'' hs'' (hden''.trans hden)) fun hroom hcount r'' hs'' hden'' hstr'' hkeep'' => ?_
      · rw [List.length_append, List.length_singleton] at hbad
        omega
      · rw [List.length_append, List.length_singleton] at hcount
        have hfirst : Stored r''.mem d sp' (arg ++ [0]) := hstr.congr fun j hj => hkeep'' _ (show _ < 0x80000000 by omega) (by omega)
        rw [show sp' - stringBytes argv = sp - ((arg.length + 4) / 4 * 4 + stringBytes argv) by omega] at hkeep'' ⊢
        rw [List.append_assoc, List.singleton_append]
        refine hok (by omega) (by omega) r'' hs'' (hden''.trans hden) (fun x hx => ?_) fun a ha hout => ?_
        · rcases List.mem_cons.1 hx with rfl | hx
          · exact hfirst
          · exact hstr'' x hx
        · rw [hkeep'' a ha (by omega), hkeep a ha (by omega)]

end Stack

/-! ## `exec` -/

/-- The end of an image with `sz` bytes of program. -/
def imageEnd (sz : Nat) : Nat := PGROUNDUP sz + 2 * 4096

/-- The size of the image, if the file is in order. -/
def File.imageSize (c : File) : Option Nat :=
  c.elfhdr.bind fun elf => if elf.magic ≠ ELF_MAGIC then none
    else (c.plan elf.phnum elf.phoff 0).bind fun sz => if KERNBASE ≤ imageEnd sz then none else some (imageEnd sz)

/-- The strings and the words below them take not more than a page. -/
def Fits (argv : List (List UInt8)) : Prop := stringBytes argv + 4 * (argv.length + 4) ≤ 4096 ∧ argv.length ≤ MAXARG

/-- The words at `esp`, for strings at the addresses `xs`. -/
def frame (esp : Nat) (xs : List (Nat × List UInt8)) : Nat × List UInt8 :=
  (esp, ([0xFFFFFFFF, xs.length, esp + 12] ++ xs.map Prod.fst ++ [0]).flatMap bytes)

/-- What a program finds on its stack: at `esp` the words, and the strings `xs` elsewhere. -/
structure ArgStack (m : Nat → Page) (d sz esp : Nat) (argv : List (List UInt8)) (xs : List (Nat × List UInt8)) : Prop where
  strings : xs.map Prod.snd = argv.map (· ++ [0])
  aligned : ∀ x ∈ xs, x.1 % 4 = 0
  user : ∃ v, sz = 4096 * (v + 1) ∧ UserPage m d v
  stored : ∀ x ∈ frame esp xs :: xs, Stored m d x.1 x.2
  inside : ∀ x ∈ frame esp xs :: xs, sz - 4096 ≤ x.1 ∧ x.1 + x.2.length ≤ sz
  disjoint : (frame esp xs :: xs).Pairwise fun x y => x.1 + x.2.length ≤ y.1 ∨ y.1 + y.2.length ≤ x.1

theorem pushed_length (sp : Nat) (argv : List (List UInt8)) : (pushed sp argv).length = argv.length := by
  induction argv generalizing sp with
  | nil => rfl
  | cons arg argv ih => rw [pushed, List.length_cons, List.length_cons, ih]

theorem pushed_snd (sp : Nat) (argv : List (List UInt8)) : (pushed sp argv).map Prod.snd = argv.map (· ++ [0]) := by
  induction argv generalizing sp with
  | nil => rfl
  | cons arg argv ih => rw [pushed, List.map_cons, List.map_cons, ih]

theorem words_length (xs : List Nat) : (xs.flatMap bytes).length = 4 * xs.length := by
  rw [List.length_flatMap, show (fun a => (bytes a).length) = fun _ => 4 from rfl, List.map_const', List.sum_replicate, smul_eq_mul, Nat.mul_comm]

theorem frame_length (esp : Nat) (xs : List (Nat × List UInt8)) : (frame esp xs).2.length = 4 * (xs.length + 4) := by
  rw [frame, words_length, List.length_append, List.length_append, List.length_map, List.length_singleton, List.length_cons, List.length_cons, List.length_singleton]
  omega

/-- The strings from the end of the image down, and the words below them. -/
theorem ArgStack.of_pushed {m : Nat → Page} {argv : List (List UInt8)} {esp : Nat} (hsz : sz = 4096 * (v + 1)) (hfit : stringBytes argv + 4 * (argv.length + 4) ≤ 4096)
    (hesp : esp + 4 * (argv.length + 4) + stringBytes argv = sz) (huser : UserPage m d v) (hstr : ∀ x ∈ pushed sz argv, Stored m d x.1 x.2)
    (hframe : Stored m d esp (frame esp (pushed sz argv)).2) : ArgStack m d sz esp argv (pushed sz argv) := by
  obtain ⟨hin, hpair⟩ := pushed_spec argv (show sz % 4 = 0 by omega) (by omega)
  have hlen : (frame esp (pushed sz argv)).2.length = 4 * (argv.length + 4) := by rw [frame_length, pushed_length]
  refine ⟨pushed_snd sz argv, fun x hx => (hin x hx).1, ⟨v, hsz, huser⟩, fun x hx => ?_, fun x hx => ?_, List.pairwise_cons.2 ⟨fun x hx => .inl ?_, hpair.imp fun h => .inr h⟩⟩
  · rcases List.mem_cons.1 hx with rfl | hx
    · exact hframe
    · exact hstr x hx
  · rcases List.mem_cons.1 hx with rfl | hx
    · rw [hlen]
      show _ ≤ esp ∧ esp + _ ≤ sz
      omega
    · have := hin x hx
      omega
  · have := hin x hx
    rw [hlen]
    show esp + _ ≤ _
    omega

/-- Nothing has changed. -/
structure Undone (r r' : Res P) : Prop where
  own : r'.own = r.own
  mem : ∀ f ∈ r.own, r'.mem f = r.mem f
  proc : r'.proc = r.proc

/-- The process has the new directory in place of the old one. -/
structure Executed (k : Image) (p : P) (d : Nat) (R : Set Nat) (x y : Proc) (r r' : Res P) : Prop where
  space : Space k r' d R
  above : ∀ v, v < 2 ^ 19 → y.sz ≤ 4096 * v → pres r'.mem d v = none
  mem : ∀ f ∈ R, r'.mem f = r.mem f
  proc : r'.proc = Function.update r.proc p (some y)
  pgdir : y.pgdir = d
  kstack : y.kstack = x.kstack
  size : y.sz < KERNBASE

/-- The segments `xs` are loaded. -/
structure Loaded (m : Nat → Page) (d : Nat) (c : File) (xs : List Proghdr) : Prop where
  ends : ∀ x ∈ xs, x.filesz ≤ x.memsz ∧ x.vaddr + x.memsz < KERNBASE
  holds : Ascending xs → ∀ x ∈ xs, Holds m d c x

theorem Loaded.congr {m m' : Nat → Page} {xs : List Proghdr} (h : Loaded m d c xs)
    (hb : ∀ x ∈ xs, ∀ j < x.memsz, userByte m' d (x.vaddr + j) = userByte m d (x.vaddr + j)) : Loaded m' d c xs := by
  refine ⟨h.ends, fun hasc x hx => ⟨fun j hj => ?_, fun j h1 h2 => ?_⟩⟩
  · rw [hb x hx j (by have := (h.ends x hx).1; omega)]
    exact (h.holds hasc x hx).file j hj
  · rw [hb x hx j h2]
    exact (h.holds hasc x hx).zero j h1 h2

section Exec

variable {r₀ : Res P} {m sz d₀ : Nat} {x : Proc}

omit [DecidableEq P] in
/-- Pages beside the directory are given back. -/
theorem Space.shrink {R' : Set Nat} (h : Space k r d R) (hR : R' ⊆ R) (hown : r'.own = R' ∪ (r.own \ R)) (hmem : ∀ f ∈ r.own, f ∉ R → r'.mem f = r.mem f) :
    Space k r' d R' ∧ SameDir r.mem r'.mem d := by
  have hown' : ∀ f, f ∈ r'.own ↔ f ∈ R' ∪ Data r.mem d ∨ f ∈ r.own ∧ f ∉ R ∪ Data r.mem d := fun f => by
    rw [hown]
    constructor
    · intro hf
      rcases hf with hf | ⟨hf, hn⟩
      · exact .inl (.inl hf)
      · by_cases hd : f ∈ Data r.mem d
        · exact .inl (.inr hd)
        · exact .inr ⟨hf, fun h => h.elim hn hd⟩
    · intro hf
      rcases hf with (hf | hf) | ⟨hf, hn⟩
      · exact .inl hf
      · exact .inr ⟨h.data_mem hf, h.apart f hf⟩
      · exact .inr ⟨hf, fun h => hn (.inl h)⟩
  obtain ⟨ht, hs⟩ := h.tree.change hown' (fun f hf hn => hmem f hf fun h => hn (.inl h)) (fun f hf _ => hf.elim (fun h => .inl (hR h)) .inr) fun f hf =>
    h.tree.pool f (h.tree.rest_mem (hf.elim (fun h => .inl (hR h)) .inr))
  exact ⟨h.of_tree ht (fun v hv => hs.pres hv) fun f hf hR' => h.apart f hf (hR hR'), hs⟩

variable {Q : Int → Res P → Prop}

theorem w_bad (h : Begun k d r₀ r) (hno : ∀ r', Undone r₀ r' → r'.denied = r.denied → Q (-1) r') : W k B p (bad d) Q r :=
  w_bind (w_freevm h.space fun r' ho hm hp hden => hno r' ⟨ho, fun f hf => (hm f hf).trans (h.mem f hf), hp.trans h.proc⟩ hden)

theorem w_commit {path : List UInt8} {entry sp : Nat} (h₀ : Space k r₀ x.pgdir R) (hx : r₀.proc p = some x) (hk : x.kstack ≠ 0) (h : Stacked k d m r₀ r)
    (hok : ∀ y r', Executed k p d R x y r₀ r' → y.sz = 4096 * (m + 2) → y.tf.esp = sp → (∀ f ∈ r₀.own, f ∈ r'.own → r'.mem f = r₀.mem f) →
      r'.denied = r.denied → SameDir r.mem r'.mem d → (∀ a < KERNBASE, userByte r'.mem d a = userByte r.mem d a) → Q 0 r') :
    W k B p (commit p path d (4096 * (m + 2)) entry sp) Q r := by
  have hd : d ≠ 0 := (h.begun.space.tree.pool d h.begun.space.tree.dir_mem).lt.1.ne'
  have hsz : 4096 * (m + 2) < 0x80000000 := h.size
  refine ⟨x, h.begun.proc ▸ hx, ?_, w_bind (c := switchuvm _) (w_if (fun e => absurd e hk) fun _ => w_if (fun e => absurd e hd) fun _ => w_bind ?_)⟩
  · rw [h.begun.proc, hx]
    nofun
  have hsub : r₀.own ⊆ r.own := fun f hf => h.begun.space.tree.rest_mem (.inl hf)
  obtain ⟨hold, _⟩ := h₀.beside hsub h.begun.space.tree.pool fun f hf => h.begun.mem f (hf.elim (fun e => e ▸ h₀.tree.dir_mem) fun ⟨i, hi, ht⟩ => h₀.tree.table_mem hi ht)
  generalize hy : ({ x with name := (lastElem path path).take 15, pgdir := d, sz := 4096 * (m + 2), tf := { x.tf with eip := entry, esp := sp } } : Proc) = y
  have hold' : Space k (r.setproc p y) x.pgdir (R ∪ (r.own \ r₀.own)) := hold.of_tree ⟨hold.tree.own, hold.tree.pool, hold.tree.dir, hold.tree.table, hold.tree.inj⟩ (fun _ _ => rfl) hold.apart
  refine w_freevm hold' fun r' ho hm hp hden => ?_
  have hR : R ⊆ r₀.own := fun f hf => h₀.tree.rest_mem (.inl hf)
  obtain ⟨hnew, hsame⟩ := h.begun.space.shrink hR ho fun f hf hn => hm f (.inr ⟨hf, hn⟩)
  have hysz : y.sz = 4096 * (m + 2) := by rw [← hy]
  have hkeep : ∀ f ∈ R, r'.mem f = r₀.mem f := fun f hf => (hm f (.inl hf)).trans (h.begun.mem f (hR hf))
  refine hok y r' ⟨hnew, fun v hv hle => ?_, hkeep, ?_, by rw [← hy], by rw [← hy], by rw [hysz]; exact h.size⟩ hysz (by rw [← hy]) (fun f hf hf' => ?_)
    hden hsame fun a ha => ?_
  · rw [hsame.pres (by omega)]
    exact h.above v hv (by omega)
  · rw [hp, ← h.begun.proc]
    rfl
  · rw [ho] at hf'
    exact hf'.elim (hkeep f) fun hn => absurd hf hn.2
  · have ha' : a < 0x80000000 := ha
    have hpage : page r'.mem d (a / 4096) = page r.mem d (a / 4096) := page_congr (hsame.pres (by omega))
    unfold userByte
    rw [hpage]
    cases hf : page r.mem d (a / 4096) with
    | none => rfl
    | some f =>
      have hfd : f ∈ Data r.mem d := ⟨_, by omega, hf⟩
      rw [Option.map_some, Option.map_some, hm f (.inr ⟨h.begun.space.data_mem hfd, h.begun.space.apart f hfd⟩)]
      rfl

omit [DecidableEq P] in
theorem minus_eq {a b : Nat} (hb : b ≤ a) (ha : a < 2 ^ 32) : minus a b = a - b := by
  unfold minus uint
  omega

theorem w_execStack {path : List UInt8} {entry : Nat} {argv : List (List UInt8)} (h₀ : Space k r₀ x.pgdir R) (hx : r₀.proc p = some x) (hk : x.kstack ≠ 0)
    (h : Loading k d sz r₀ r) (hnull : (∃ arg ∈ argv, 2 ^ 25 ≤ arg.length) → B .nullPte)
    (hno : ∀ r', Undone r₀ r' → (r'.denied = r.denied → KERNBASE ≤ imageEnd sz ∨ ¬ Fits argv) → Q (-1) r')
    (hok : ∀ y r', Executed k p d R x y r₀ r' → (∀ a < sz, userByte r'.mem d a = userByte r.mem d a) → y.sz = imageEnd sz → Fits argv →
      ArgStack r'.mem d y.sz y.tf.esp argv (pushed y.sz argv) → (∀ f ∈ r₀.own, f ∈ r'.own → r'.mem f = r₀.mem f) → r'.denied = r.denied → Q 0 r') :
    W k B p (execStack p path d sz entry argv) Q r := by
  have hsz : sz < 0x80000000 := h.size
  unfold execStack
  unfold imageEnd at hno hok
  rw [PGROUNDUP_eq (by omega)] at hno hok ⊢
  generalize hm : (sz + 4095) / 4096 = m at hno hok ⊢
  rw [show uint (4096 * m + 2 * 4096) = 4096 * (m + 2) by unfold uint; omega]
  rw [show 4096 * m + 2 * 4096 = 4096 * (m + 2) by omega] at hno hok
  generalize hM : 4096 * m = M
  generalize hN : 4096 * (m + 2) = N at hno hok ⊢
  have hfits : ∀ r', Undone r₀ r' → (r'.denied = r.denied → ¬ Fits argv) → Q (-1) r' := fun r' hu he => hno r' hu fun hden => .inr (he hden)
  refine w_bind (w_allocuvm h.space (fun w hw hle _ => h.above w hw (by omega))
    (fun hbig => w_if (fun _ => w_bad h.begun fun r' hu _ => hno r' hu fun _ => .inl hbig) fun e => absurd rfl e)
    (fun hlt => by omega) (fun hle hlt r₁ hg => w_if (fun e => by omega) fun _ => ?_)
    fun r₁ hr => w_if (fun _ => w_bad (h.refused hr) fun r' hu hden => hno r' hu fun hsame => ?_) fun e => absurd rfl e)
  · have hlt' : N < 0x80000000 := hlt
    have h₁ : Loading k d (4096 * (m + 2)) r₀ r₁ := by
      have hr := h.round (show _ < 0x80000000 by omega)
      rw [hm, hM] at hr
      rw [hN]
      exact hr.grow hle hlt hg
    rw [minus_eq (by omega) (by omega), show N - 2 * 4096 = M by omega]
    have hdiv : M / 4096 = m := by omega
    refine w_bind (w_clearpteu h₁.space (by omega) (fun ht => ?_) fun r₂ hc => w_bind ?_)
    · rw [hdiv] at ht
      exact absurd ht (h₁.low m (by omega)).tab
    rw [hdiv] at hc
    have h₂ : Stacked k d m r₀ r₂ := h₁.clear hc
    have hden₂ : r₂.denied = r.denied := hc.denied.trans hg.denied
    have hbyte : ∀ a < sz, userByte r₂.mem d a = userByte r.mem d a := fun a ha => by
      obtain ⟨b, hb⟩ := Option.ne_none_iff_exists'.1 (h.userByte_ne_none ha)
      rw [userByte_cleared hc (show a < 0x80000000 by omega), hb]
      exact (userByte_grown hg (fun w h1 h2 => h.above w (by omega) (by omega)) (show a < 0x80000000 by omega)).1 b hb
    refine w_pushArgs h₂ (by omega) (by omega) (by omega) hnull (fun hbad r₃ h₃ hden₃ => w_bad h₃.begun fun r' hu hden => hfits r' hu fun _ hf => ?_)
      fun hroom hcount r₃ h₃ hden₃ hstr hkeep => ?_
    · obtain ⟨hf1, hf2⟩ := hf
      rw [List.length_nil] at hbad
      omega
    rw [List.nil_append]
    have hargc : ((pushed N argv).map Prod.fst).length = argv.length := by rw [List.length_map, pushed_length]
    generalize hsp : N - stringBytes argv = sp at hkeep ⊢
    have hlen : (stackFrame sp ((pushed N argv).map Prod.fst)).length = argv.length + 4 := by
      rw [stackFrame, List.length_append, List.length_append, hargc, List.length_singleton, List.length_cons, List.length_cons, List.length_singleton]
      omega
    have hwords := words_length (stackFrame sp ((pushed N argv).map Prod.fst))
    dsimp only
    rw [hlen] at hwords ⊢
    have hle32 : argv.length ≤ 32 := by
      rw [List.length_nil] at hcount
      unfold MAXARG at hcount
      omega
    have hsp1 : 4096 * (m + 1) ≤ sp := by omega
    have hsp2 : sp ≤ 4096 * (m + 2) := by omega
    refine w_bind (w_copyStack 0 h₃ hsp1 hsp2 (by omega) ?_ ?_ (by omega) (fun hlong => by omega)
      (fun hbad r₄ h₄ hden₄ => w_if (fun _ => w_bad h₄.begun fun r' hu hden => hfits r' hu fun _ hf => ?_) fun e => absurd (by decide) e)
      fun r₄ h₄ hden₄ hlo hend hsame₄ hw => w_if (fun e => nomatch e) fun _ => ?_)
    · rw [hwords]
      unfold minus uint
      omega
    · unfold minus uint
      omega
    · have := hf.1
      omega
    · rw [← hN]
      refine w_commit h₀ hx hk h₄ fun y r₅ he hysz hesp hold hden₅ hsame₅ hbyte₅ => ?_
      rw [hN] at hysz
      rw [hwords] at hend
      obtain ⟨hblock, hrest⟩ := h₃.stored hsame₄ hw (by rw [hwords]; omega)
      rw [hwords] at hrest
      have hfit : stringBytes argv + 4 * (argv.length + 4) ≤ 4096 := by omega
      have hframe : (stackFrame sp ((pushed N argv).map Prod.fst)).flatMap bytes = (frame y.tf.esp (pushed N argv)).2 := by
        have hptr : minus sp ((argv.length + 1) * 4) = y.tf.esp + 12 := by
          rw [minus_eq (by omega) (by omega), hesp]
          omega
        rw [stackFrame, frame, hargc, pushed_length, hptr]
      have hstored : ∀ {a bs}, Stored r₄.mem d a bs → a + bs.length ≤ N → Stored r₅.mem d a bs := fun hs hle =>
        hs.congr fun j hj => hbyte₅ _ (show _ < 0x80000000 by omega)
      refine hok y r₅ he (fun a ha => ?_) hysz ⟨hfit, hle32⟩ ?_ hold (hden₅.trans (hden₄.trans (hden₃.trans hden₂)))
      · rw [hbyte₅ a (show a < 0x80000000 by omega), hrest a (show a < 0x80000000 by omega) (by omega), hkeep a (show a < 0x80000000 by omega) (by omega), hbyte a ha]
      · rw [hysz]
        refine .of_pushed (v := m + 1) (by omega) hfit (by omega) ((userPage_congr (hsame₅.pres (by omega))).2 h₄.stack) (fun z hz => ?_) ?_
        · obtain ⟨hin, _⟩ := pushed_spec argv (show N % 4 = 0 by omega) (by omega)
          have hz' := hin z hz
          refine hstored ((hstr z hz).congr fun j hj => hrest _ (show _ < 0x80000000 by omega) (by omega)) (by omega)
        · rw [← hframe]
          rw [hesp]
          exact hstored hblock (by rw [hwords]; omega)
  · obtain ⟨o, ho⟩ := hr.denied
    rw [hden, ho] at hsame
    exact absurd hsame (List.cons_ne_self _ _)

theorem w_exec {path : List UInt8} {ip : Option File} {argv : List (List UInt8)} (h : Space k r x.pgdir R) (hx : r.proc p = some x) (hk : x.kstack ≠ 0)
    (hnull : (∃ arg ∈ argv, 2 ^ 25 ≤ arg.length) → B .nullPte)
    (hno : ∀ r', Undone r r' → (r'.denied = r.denied → ip.bind File.imageSize = none ∨ ¬ Fits argv) → Q (-1) r')
    (hok : ∀ c elf d y r', ip = some c → c.elfhdr = some elf → Executed k p d R x y r r' → Loaded r'.mem d c (c.segments elf.phnum elf.phoff) →
      c.imageSize = some y.sz → Fits argv → ArgStack r'.mem d y.sz y.tf.esp argv (pushed y.sz argv) → (∀ f ∈ r.own, f ∈ r'.own → r'.mem f = r.mem f) →
      r'.denied = r.denied → Q 0 r') : W k B p (exec k p path ip argv) Q r := by
  have hsame : Undone r r := ⟨rfl, fun _ _ => rfl, rfl⟩
  unfold exec
  cases ip with
  | none => exact hno r hsame fun _ => .inl rfl
  | some c =>
    rw [Option.bind_some] at hno
    dsimp only
    cases helf : c.elfhdr with
    | none => exact hno r hsame fun _ => .inl (by rw [File.imageSize, helf]; rfl)
    | some elf =>
      have himage : elf.magic = ELF_MAGIC → c.imageSize = (c.plan elf.phnum elf.phoff 0).bind fun sz => if KERNBASE ≤ imageEnd sz then none else some (imageEnd sz) :=
        fun hm => by rw [File.imageSize, helf, Option.bind_some, if_neg (fun e => e hm)]
      refine w_if (fun hm => hno r hsame fun _ => .inl (by rw [File.imageSize, helf, Option.bind_some, if_pos hm])) fun hm =>
        w_bind (w_setupkvm h.tree.pool (fun r' o hr hden _ => hno r' ⟨hr.own, hr.mem, hr.proc⟩ fun e => ?_) fun d r₁ hd => w_bind ?_)
      · rw [hden] at e
        exact absurd e (List.cons_ne_self _ _)
      rw [himage (not_not.1 hm)] at hno
      have hnil : Placed c r₁.mem d 0 [] := ⟨nofun, fun _ _ => Nat.zero_le _, nofun⟩
      refine w_loadSegments (.start hd) hnil (fun r₂ hb hplan => w_bad hb fun r' hu hden => hno r' hu fun e => .inl ?_) fun r₂ sz hl hp hden₂ hplan => ?_
      · rw [hplan (by rw [← hden, e, hd.denied]), Option.bind_none]
      rw [List.nil_append] at hp
      rw [hplan, Option.bind_some] at hno
      have hden : r₂.denied = r.denied := hden₂.trans hd.denied
      refine w_execStack h hx hk hl hnull (fun r' hu hwhy => hno r' hu fun e => ?_) fun y r₃ he hbyte hysz hfit hargs hkeep hden₃ =>
        hok c elf d y r₃ rfl helf he ?_ ?_ hfit hargs hkeep (hden₃.trans hden)
      · exact (hwhy (by rw [e, hden])).imp_left fun hbig => if_pos hbig
      · have hld : Loaded r₂.mem d c (c.segments elf.phnum elf.phoff) :=
          ⟨fun ph hph => ⟨(hp.ends ph hph).1, Nat.lt_of_le_of_lt (hp.ends ph hph).2 hl.size⟩, hp.holds⟩
        exact hld.congr fun ph hph j hj => hbyte _ (Nat.lt_of_lt_of_le (Nat.add_lt_add_left hj _) (hp.ends ph hph).2)
      · rw [himage (not_not.1 hm), hplan, Option.bind_some, if_neg (by rw [← hysz]; exact Nat.not_le.2 he.size), hysz]

end Exec

end Load

/-! ## Runs -/

variable {P : Type} [DecidableEq P] {k : Image} {p : P} {s s' : St P}

/-- As it was before the call. -/
structure Unchanged (k : Image) (s s' : St P) : Prop where
  proc : s'.proc = s.proc
  mem : ∀ f ∈ s.used k, s'.mem f = s.mem f
  free : ∀ f, f ∈ s'.free ↔ f ∈ s.free

omit [DecidableEq P] in
theorem Undone.unchanged {r : Res P} (h : Undone (s.res k) r) (hs : Sane k s) (ha : Alone k s r s') : Unchanged k s s' := by
  have hown : r.own = s.used k := h.own
  have hused : s'.used k = s.used k := ha.agree.used.trans hown
  refine ⟨funext fun q => ha.proc q _ (by rw [h.proc]; rfl), fun f hf => (ha.mem f (by rw [hown]; exact hf)).trans (h.mem f hf), fun f => ?_⟩
  by_cases hp : k.InPool f
  · have hiff : f ∈ s'.used k ↔ f ∈ s.used k := by rw [hused]
    exact not_iff_not.1 ⟨fun hf => (hiff.1 ⟨hp, hf⟩).2, fun hf => (hiff.2 ⟨hp, hf⟩).2⟩
  · exact iff_of_false (fun hf => hp (ha.free f hf)) fun hf => hp (hs.free f hf)

omit [DecidableEq P] in
/-- A process sees in the machine what it sees in its own pages. -/
theorem Space.userByte_agrees {r : Res P} {d : Nat} {R : Set Nat} (h : Space k r d R) (ha : Alone k s r s') {a : Nat} (hlt : a < KERNBASE) :
    userByte s'.mem d a = userByte r.mem d a := by
  have hlt' : a < 0x80000000 := hlt
  obtain ⟨_, hsame⟩ := h.agrees ha.agree
  have hpage : page s'.mem d (a / 4096) = page r.mem d (a / 4096) := page_congr (hsame.pres (by omega))
  unfold userByte
  rw [hpage]
  cases hf : page r.mem d (a / 4096) with
  | none => rfl
  | some f => rw [Option.map_some, Option.map_some, ha.mem f (h.data_mem ⟨_, by omega, hf⟩)]

omit [DecidableEq P] in
theorem ArgStack.agrees {r : Res P} {d sz esp : Nat} {R : Set Nat} {argv : List (List UInt8)} {xs : List (Nat × List UInt8)} (h : Space k r d R) (ha : Alone k s r s')
    (hsz : sz < KERNBASE) (hx : ArgStack r.mem d sz esp argv xs) : ArgStack s'.mem d sz esp argv xs := by
  have hsz' : sz < 0x80000000 := hsz
  obtain ⟨_, hsame⟩ := h.agrees ha.agree
  obtain ⟨v, hv, hu⟩ := hx.user
  refine ⟨hx.strings, hx.aligned, ⟨v, hv, (userPage_congr (hsame.pres (by omega))).2 hu⟩, fun x hm => ?_, hx.inside, hx.disjoint⟩
  have hin := hx.inside x hm
  exact (hx.stored x hm).congr fun j hj => h.userByte_agrees ha (show _ < 0x80000000 by omega)

theorem exec_loads (hs : Sane k s) (hd : Dir k s (s.proc p).pgdir) (hk : (s.proc p).kstack ≠ 0) (path : List UInt8) (ip : Option File) (argv : List (List UInt8)) :
    Ends (effect k) p (exec k p path ip argv) s (fun x s' => Sane k s' ∧ (x = -1 ∧ Unchanged k s s' ∨ x = 0 ∧ Dir k s' (s'.proc p).pgdir ∧
      ∃ c elf, ip = some c ∧ c.elfhdr = some elf ∧ Loaded s'.mem (s'.proc p).pgdir c (c.segments elf.phnum elf.phoff))) (fun e => e = .nullPte) False := by
  obtain ⟨R, hsp⟩ := hd
  refine (alone (Q := fun x r => ∀ s', Alone k s r s' → Sane k s' ∧ (x = -1 ∧ Unchanged k s s' ∨ x = 0 ∧ Dir k s' (s'.proc p).pgdir ∧
      ∃ c elf, ip = some c ∧ c.elfhdr = some elf ∧ Loaded s'.mem (s'.proc p).pgdir c (c.segments elf.phnum elf.phoff))) hs
    (w_exec (B := fun e => e = .nullPte) hsp rfl hk (fun _ => rfl) (fun r hu _ s' ha => ⟨ha.sane, .inl ⟨rfl, hu.unchanged hs ha⟩⟩)
      fun c elf d y r hip helf he hl _ _ _ _ _ s' ha => ⟨ha.sane, .inr ⟨rfl, ?_⟩⟩)).mono
    (fun x s' _ ⟨r, h, ha⟩ => h s' ha) (fun _ h => h) id
  have hproc : s'.proc p = y := ha.proc p y (by rw [he.proc, Function.update_self])
  obtain ⟨hsp', _⟩ := he.space.agrees ha.agree
  rw [hproc, he.pgdir]
  refine ⟨⟨R, hsp'⟩, c, elf, hip, helf, hl.congr fun ph hph j hj => ?_⟩
  have hlt : ph.vaddr + ph.memsz < 0x80000000 := (hl.ends ph hph).2
  exact he.space.userByte_agrees ha (show _ < 0x80000000 by omega)

/-- A file that is only the beginning of an ELF header. -/
theorem exec_loads_magic :
    ∃ s : St Unit, ∃ c : File, c.data = [0x7F, 0x45, 0x4C, 0x46] ∧ (s.proc ()).kstack = 301 ∧
      Ends (effect smallKernel) () (exec smallKernel () [47, 120] (some c) [[120]]) s (fun x s' => Sane smallKernel s' ∧ (x = -1 ∧ Unchanged smallKernel s s' ∨
        x = 0 ∧ Dir smallKernel s' (s'.proc ()).pgdir ∧ ∃ c' elf, some c = some c' ∧ c'.elfhdr = some elf ∧
          Loaded s'.mem (s'.proc ()).pgdir c' (c'.segments elf.phnum elf.phoff))) (fun e => e = .nullPte) False := by
  obtain ⟨s, hs, hd, hk⟩ : ∃ s : St Unit, Sane smallKernel s ∧ Dir smallKernel s (s.proc ()).pgdir ∧ (s.proc ()).kstack = 301 :=
    ⟨zeroed [400, 401, 402, 403] ⟨0, 300, 301, ⟨0, 0, 0⟩, []⟩, sane_zeroed _, dir_zeroed _, rfl⟩
  exact ⟨s, ⟨[0x7F, 0x45, 0x4C, 0x46], by decide⟩, rfl, hk, exec_loads hs hd (by rw [hk]; decide) [47, 120] _ [[120]]⟩

/-! ## Arguments -/

/-- What `exec` does about the arguments: with 0 they are on the stack, and nothing outside of
    the new image has been written; with -1 nothing has changed; and if there is memory and the
    file is in order, the result is -1 if and only if they do not fit in a page. -/
structure Passed (k : Image) (p : P) (ip : Option File) (argv : List (List UInt8)) (s : St P) (x : Int) (s' : St P) : Prop where
  result : x = 0 ∨ x = -1
  args : x = 0 → ∃ xs, ArgStack s'.mem (s'.proc p).pgdir (s'.proc p).sz (s'.proc p).tf.esp argv xs
  outside : x = 0 → ∀ f ∈ s.used k, f ∈ s'.used k → s'.mem f = s.mem f
  failed : x = -1 → Unchanged k s s'
  exact : s'.denied = s.denied → ip.bind File.imageSize ≠ none → (x = -1 ↔ 4096 < stringBytes argv + 4 * (argv.length + 4))

theorem exec_passes_args (hs : Sane k s) (hd : Dir k s (s.proc p).pgdir) (hk : (s.proc p).kstack ≠ 0) (path : List UInt8) (ip : Option File) (argv : List (List UInt8))
    (hargc : argv.length < MAXARG) (hlen : (argv.map List.length).sum < 2 ^ 25) :
    Ends (effect k) p (exec k p path ip argv) s (fun x s' => Passed k p ip argv s x s') (fun _ => False) False := by
  obtain ⟨R, hsp⟩ := hd
  have hshort : ¬ ∃ arg ∈ argv, 2 ^ 25 ≤ arg.length := fun ⟨arg, hm, hle⟩ => by
    have := List.le_sum_of_mem (List.mem_map_of_mem (f := List.length) hm)
    omega
  have hfits : Fits argv ↔ ¬ 4096 < stringBytes argv + 4 * (argv.length + 4) := by
    unfold Fits
    omega
  refine (alone (Q := fun x r => ∀ s', Alone k s r s' → Passed k p ip argv s x s') (B := fun _ => False) hs
    (w_exec hsp rfl hk hshort (fun r hu hwhy s' ha => ?_) fun c elf d y r hip helf he hl himage hfit hargs hkeep hden s' ha => ?_)).mono
    (fun x s' _ ⟨r, h, ha⟩ => h s' ha) (fun _ h => h) id
  · refine ⟨.inr rfl, nofun, nofun, fun _ => hu.unchanged hs ha, fun hden hok => iff_of_true rfl ?_⟩
    have hnone : r.denied = [] := List.length_eq_zero_iff.1 (by have := ha.denied; omega)
    have hnot : ¬ Fits argv := (hwhy hnone).resolve_left hok
    rw [hfits] at hnot
    exact not_not.1 hnot
  · have hproc : s'.proc p = y := ha.proc p y (by rw [he.proc, Function.update_self])
    refine ⟨.inl rfl, fun _ => ⟨pushed y.sz argv, ?_⟩, fun _ f hf hf' => ?_, nofun, fun _ _ => iff_of_false (by decide) (hfits.1 hfit)⟩
    · rw [hproc, he.pgdir]
      exact hargs.agrees he.space ha he.size
    · have hf'' : f ∈ r.own := ha.agree.used ▸ hf'
      exact (ha.mem f hf'').trans (hkeep f hf hf'')

/-- An ELF header and no program headers. -/
def headerOnly : File := ⟨[0x7F, 0x45, 0x4C, 0x46] ++ List.replicate 48 0, by decide⟩

theorem exec_passes_args_headerOnly : headerOnly.imageSize = some 8192 ∧ ∃ s : St Unit, Ends (effect smallKernel) ()
    (exec smallKernel () [47, 120] (some headerOnly) [[120], [45, 108]]) s
    (fun x s' => Passed smallKernel () (some headerOnly) [[120], [45, 108]] s x s') (fun _ => False) False := by
  obtain ⟨s, hs, hd, hk⟩ : ∃ s : St Unit, Sane smallKernel s ∧ Dir smallKernel s (s.proc ()).pgdir ∧ (s.proc ()).kstack = 301 :=
    ⟨zeroed [400, 401, 402, 403] ⟨0, 300, 301, ⟨0, 0, 0⟩, []⟩, sane_zeroed _, dir_zeroed _, rfl⟩
  exact ⟨by decide, s, exec_passes_args hs hd (by rw [hk]; decide) [47, 120] _ [[120], [45, 108]] (by decide) (by decide)⟩

end Xv6.Vm
