import Xv6Container.Vm.Bytes

/-! # Loading a program, with its bytes -/

namespace Xv6Container.Vm

open Prog

/-- `struct proghdr` with what `readi` stores for each page of the segment, and whether that is all
of it. -/
structure Seg where
  load : Bool
  vaddr : UInt32
  filesz : UInt32
  memsz : UInt32
  stored : ℕ → Bool
  chunk : ℕ → List UInt8
  fits : ∀ k, (chunk k).length ≤ PGSIZE

/-- `memmove(f + o, bytes, |bytes|)`. -/
def Ram.store (r : Ram) (f o : ℕ) (bytes : List UInt8) : Ram :=
  { r with data := Function.update r.data f ((r.data f).patch o bytes) }

theorem Ram.store_mem (r : Ram) (f o : ℕ) (bytes : List UInt8) :
    (r.store f o bytes).mem = r.mem := rfl

def store (f o : ℕ) (bytes : List UInt8) : B Unit := modify fun r => r.store f o bytes

/-- The loop of `loaduvm`, `n` more pages from page `k` of the segment at `a` on. -/
def loadLoop (d a : ℕ) (sg : Seg) : (n k : ℕ) → B Bool
  | 0, _ => pure true
  | n + 1, k => do
    match ← low (walkpgdir d (a + k) false) with
    | none => stop (.panic "loaduvm: address should exist")
    | some (t, i) => do
      let pte ← low (read fun m => m.tab t i)
      store pte.frame 0 (sg.chunk k)
      if sg.stored k then loadLoop d a sg n (k + 1) else pure false

def loaduvm (d : ℕ) (sg : Seg) : B Bool := do
  if sg.vaddr.toNat % PGSIZE ≠ 0 then stop (.panic "loaduvm: addr must be page aligned")
  loadLoop d (sg.vaddr.toNat / PGSIZE) sg (pgup sg.filesz.toNat) 0

/-- `copyout` of the bytes `buf`. Where there is no page table, `uva2ka` reads through a null
pointer. -/
def copyout (d : ℕ) : (fuel va : ℕ) → List UInt8 → B Bool
  | 0, _, _ => pure true
  | n + 1, va, buf => do
    if buf.length = 0 then pure true
    else
      match ← low (walkpgdir d (va / PGSIZE) false) with
      | none => stop .wild
      | some (t, i) => do
        let pte ← low (read fun m => m.tab t i)
        if !pte.present || !pte.user then pure false
        else do
          let m := min (PGSIZE - va % PGSIZE) buf.length
          store pte.frame (va % PGSIZE) (buf.take m)
          copyout d n ((va / PGSIZE + 1) * PGSIZE % 2 ^ 32) (buf.drop m)

/-- The loop of `exec` over its argument strings; `ptrs` are their addresses so far. -/
def pushArgs (d : ℕ) : List (List UInt8) → (sp : ℕ) → (ptrs : List ℕ) → B (Option (ℕ × List ℕ))
  | [], sp, ptrs => pure (some (sp, ptrs))
  | arg :: args, sp, ptrs => do
    if MAXARG ≤ ptrs.length then pure none
    else if ← copyout d (arg.length + 1) (pushDown sp (arg.length + 1)) (arg ++ [0]) then
      pushArgs d args (pushDown sp (arg.length + 1)) (ptrs ++ [pushDown sp (arg.length + 1)])
    else pure none

def wordBytes (v : ℕ) : List UInt8 := (List.range 4).map (Block.wordByte v)

/-- `ustack`: the fake return address, `argc`, `argv` and its array. -/
def ustack (sp : ℕ) (ptrs : List ℕ) : List UInt8 :=
  (0xffffffff :: ptrs.length :: (sp + 2 ^ 32 - (ptrs.length + 1) * 4) % 2 ^ 32 ::
    (ptrs ++ [0])).flatMap wordBytes

/-- The arguments and `ustack` are pushed below `sp`; the new stack pointer. -/
def pushStack (d : ℕ) (argv : List (List UInt8)) (sp : ℕ) : B (Option ℕ) := do
  match ← pushArgs d argv sp [] with
  | none => pure none
  | some (sp, ptrs) => do
    let sp' := (sp + 2 ^ 32 - (3 + ptrs.length + 1) * 4) % 2 ^ 32
    let ok ← copyout d ((3 + ptrs.length + 1) * 4) sp' (ustack sp ptrs)
    pure (if ok then some sp' else none)

variable (L : Layout)

/-- The loop of `exec` over the program headers; the size of the image so far. -/
def loadSegs (d : ℕ) : List (Option Seg) → (sz : ℕ) → B (Option ℕ)
  | [], sz => pure (some sz)
  | none :: _, _ => pure none
  | some sg :: sgs, sz => do
    if !sg.load then loadSegs d sgs sz
    else if sg.memsz < sg.filesz then pure none
    else if sg.vaddr + sg.memsz < sg.vaddr then pure none
    else
      let sz' ← allocuvm L d sz (sg.vaddr + sg.memsz).toNat
      if sz' = 0 then pure none
      else if sg.vaddr.toNat % PGSIZE ≠ 0 then pure none
      else if ← loaduvm d sg then loadSegs d sgs sz'
      else pure none

/-- What `exec` does between `setupkvm` and the commit: the new size and stack pointer. -/
def buildImage (d : ℕ) (sgs : List (Option Seg)) (argv : List (List UInt8)) :
    B (Option (ℕ × ℕ)) := do
  match ← loadSegs L d sgs 0 with
  | none => pure none
  | some sz => do
    let sz ← allocuvm L d (pgup sz * PGSIZE) (pgup sz * PGSIZE + 2 * PGSIZE)
    if sz = 0 then pure none
    else do
      low (clearpteu d (sz / PGSIZE - 2))
      let sp ← pushStack d argv sz
      pure (sp.map fun sp => (sz, sp))

/-- `exec` up to the commit: the new page directory, size and stack pointer. -/
def execImage (good : Bool) (sgs : List (Option Seg)) (argv : List (List UInt8)) :
    B (Option (ℕ × ℕ × ℕ)) := do
  if !good then pure none
  else
    match ← low (setupkvm L) with
    | none => pure none
    | some d => do
      match ← buildImage L d sgs argv with
      | none => do
        low (freevm L d)
        pure none
      | some (sz, sp) => pure (some (d, sz, sp))

theorem length_ustack (sp : ℕ) (ptrs : List ℕ) :
    (ustack sp ptrs).length = (3 + ptrs.length + 1) * 4 := by
  simp [ustack,wordBytes,List.length_flatMap]
  omega

end Xv6Container.Vm
