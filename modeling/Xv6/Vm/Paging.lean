/-
  Xv6.Vm.Paging — `vm.c`: page directories and page tables.

  A pointer to an entry is a page and an index. Loops over addresses are given as many
  steps as the address space has pages, and one more.
-/

import Xv6.Vm.Memory

namespace Xv6.Vm

open Lib Prog

abbrev M (P : Type) := Prog (Act P) Act.Res

section Programs

variable {P : Type}

def kalloc : M P (Option Nat) := perform Act.kalloc
def kfree (f : Nat) : M P Unit := perform (Act.kfree f)
def memset (f : Nat) (c : UInt8) : M P Unit := perform (Act.memset f c)
def memmove (f off : Nat) (bs : List UInt8) : M P Unit := perform (Act.memmove f off bs)
def copy (f g : Nat) : M P Unit := perform (Act.copy f g)
def read (f i : Nat) : M P (BitVec 32) := perform (Act.read f i)
def write (f i : Nat) (w : BitVec 32) : M P Unit := perform (Act.write f i w)
def panic {α : Type} (e : Err) : M P α := act (.panic e) fun x => nomatch x

def steps : Nat := 2 ^ 20 + 1

def walkpgdir (pgdir va : Nat) (alloc : Bool) : M P (Option (Nat × Nat)) := do
  let pde ← read pgdir (PDX va)
  if Present pde then return some (pageOf pde, PTX va)
  else if alloc then
    let some pgtab ← kalloc | return none
    memset pgtab 0
    write pgdir (PDX va) (pte (4096 * pgtab) (PTE_W ||| PTE_U))
    return some (pgtab, PTX va)
  else return none

/-- `for(;;)` in `mappages`. -/
def mapLoop (pgdir last : Nat) (perm : BitVec 32) : Nat → Nat → Nat → M P Int
  | 0, _, _ => panic .stuck
  | n + 1, a, pa => do
    let some (pgtab, i) ← walkpgdir pgdir a true | return -1
    let e ← read pgtab i
    if Present e then panic .remap
    else
      write pgtab i (pte pa perm)
      if a = last then return 0
      else mapLoop pgdir last perm n (uint (a + 4096)) (uint (pa + 4096))

def mappages (pgdir va size pa : Nat) (perm : BitVec 32) : M P Int :=
  mapLoop pgdir (PGROUNDDOWN (uint (va + size + (2 ^ 32 - 1)))) perm steps (PGROUNDDOWN va) pa

/-- `for(; a < oldsz; a += PGSIZE)` in `deallocuvm`. -/
def deallocLoop (pgdir oldsz : Nat) : Nat → Nat → M P Unit
  | 0, _ => panic .stuck
  | n + 1, a => do
    if a < oldsz then
      match ← walkpgdir pgdir a false with
      | none => deallocLoop pgdir oldsz n (uint (uint (PGADDR (PDX a + 1) 0 0 + (2 ^ 32 - 4096)) + 4096))
      | some (pgtab, i) =>
        let e ← read pgtab i
        if Present e then
          if pageOf e = 0 then panic .kfree
          else
            kfree (pageOf e)
            write pgtab i 0
            deallocLoop pgdir oldsz n (uint (a + 4096))
        else deallocLoop pgdir oldsz n (uint (a + 4096))
    else return ()

def deallocuvm (pgdir oldsz newsz : Nat) : M P Nat := do
  if oldsz ≤ newsz then return oldsz
  else
    deallocLoop pgdir oldsz steps (PGROUNDUP newsz)
    return newsz

/-- `for(i = 0; i < NPDENTRIES; i++)` in `freevm`: the tables from `i` on. -/
def freeTables (pgdir : Nat) : List Nat → M P Unit
  | [] => pure ()
  | i :: is => do
    let pde ← read pgdir i
    if Present pde then
      kfree (pageOf pde)
      freeTables pgdir is
    else freeTables pgdir is

def freevm (pgdir : Nat) : M P Unit := do
  if pgdir = 0 then panic .freevm
  else
    let _ ← deallocuvm pgdir KERNBASE 0
    freeTables pgdir (List.range 1024)
    kfree pgdir

structure Kmap where
  virt : Nat
  phys_start : Nat
  phys_end : Nat
  perm : BitVec 32

def kmap (k : Image) : List Kmap :=
  [⟨KERNBASE, 0, EXTMEM, PTE_W⟩,
   ⟨KERNLINK, EXTMEM, 4096 * k.data, 0⟩,
   ⟨KERNBASE + 4096 * k.data, 4096 * k.data, PHYSTOP, PTE_W⟩,
   ⟨DEVSPACE, DEVSPACE, 0, PTE_W⟩]

/-- `for(k = kmap; …; k++)` in `setupkvm`: whether all could be mapped. -/
def mapKernel (pgdir : Nat) : List Kmap → M P Bool
  | [] => return true
  | x :: xs => do
    if (← mappages pgdir x.virt (uint (x.phys_end + 2 ^ 32 - x.phys_start)) x.phys_start x.perm) < 0 then return false
    else mapKernel pgdir xs

def setupkvm (k : Image) : M P (Option Nat) := do
  let some pgdir ← kalloc | return none
  memset pgdir 0
  if DEVSPACE < KERNBASE + PHYSTOP then panic .phystop
  else if ← mapKernel pgdir (kmap k) then return some pgdir
  else
    freevm pgdir
    return none

/-- `for(; a < newsz; a += PGSIZE)` in `allocuvm`: whether there was memory. -/
def allocLoop (pgdir oldsz newsz : Nat) : Nat → Nat → M P Bool
  | 0, _ => panic .stuck
  | n + 1, a => do
    if a < newsz then
      match ← kalloc with
      | none =>
        let _ ← deallocuvm pgdir newsz oldsz
        return false
      | some mem =>
        memset mem 0
        if (← mappages pgdir a 4096 (4096 * mem) (PTE_W ||| PTE_U)) < 0 then
          let _ ← deallocuvm pgdir newsz oldsz
          kfree mem
          return false
        else allocLoop pgdir oldsz newsz n (uint (a + 4096))
    else return true

def allocuvm (pgdir oldsz newsz : Nat) : M P Nat := do
  if KERNBASE ≤ newsz then return 0
  else if newsz < oldsz then return oldsz
  else if ← allocLoop pgdir oldsz newsz steps (PGROUNDUP oldsz) then return newsz
  else return 0

def clearpteu (pgdir uva : Nat) : M P Unit := do
  match ← walkpgdir pgdir uva false with
  | none => panic .clearpteu
  | some (pgtab, i) =>
    let e ← read pgtab i
    write pgtab i (e &&& ~~~PTE_U)

/-- `for(i = 0; i < sz; i += PGSIZE)` in `copyuvm`: whether there was memory. -/
def copyLoop (pgdir d sz : Nat) : Nat → Nat → M P Bool
  | 0, _ => panic .stuck
  | n + 1, i => do
    if i < sz then
      match ← walkpgdir pgdir i false with
      | none => panic .copyExist
      | some (pgtab, j) =>
        let e ← read pgtab j
        if Present e then
          let some mem ← kalloc | return false
          copy mem (pageOf e)
          if (← mappages d i 4096 (4096 * mem) (PTE_FLAGS e)) < 0 then
            kfree mem
            return false
          else copyLoop pgdir d sz n (uint (i + 4096))
        else panic .copyPresent
    else return true

def copyuvm (k : Image) (pgdir sz : Nat) : M P (Option Nat) := do
  let some d ← setupkvm k | return none
  if ← copyLoop pgdir d sz steps 0 then return some d
  else
    freevm d
    return none

/-- Without a page table there is no entry to look at. -/
def uva2ka (pgdir uva : Nat) : M P (Option Nat) := do
  match ← walkpgdir pgdir uva false with
  | none => panic .nullPte
  | some (pgtab, i) =>
    let e ← read pgtab i
    if ¬ Present e then return none
    else if e &&& PTE_U = 0 then return none
    else return some (pageOf e)

/-- `while(len > 0)` in `copyout`. -/
def copyoutLoop (pgdir : Nat) : Nat → Nat → List UInt8 → M P Int
  | 0, _, _ => panic .stuck
  | fuel + 1, va, buf => do
    if 0 < buf.length then
      let va0 := PGROUNDDOWN va
      match ← uva2ka pgdir va0 with
      | none => return -1
      | some pa0 =>
        let n := min (4096 - (va - va0)) buf.length
        memmove pa0 (va - va0) (buf.take n)
        copyoutLoop pgdir fuel (uint (va0 + 4096)) (buf.drop n)
    else return 0

def copyout (pgdir va : Nat) (p : List UInt8) : M P Int := copyoutLoop pgdir steps va p

end Programs

end Xv6.Vm
