import Xv6Container.Params
import Xv6Container.Lib.Prog

/-!
# Physical pages and page tables

`kalloc.c` and `vm.c`. Addresses are page numbers; sizes of address spaces stay in bytes. The
content of a page is kept as 1024 entries. The list `deny` says which of the coming calls of
`kalloc` fail although the free list is not empty: other CPUs may hold every free page.
-/

namespace Xv6Container.Vm

open Prog Function

abbrev KERNPAGE : ℕ := 0x80000
abbrev KERNBASE : ℕ := KERNPAGE * PGSIZE
abbrev NPDENTRIES : ℕ := 1024
abbrev NPTENTRIES : ℕ := 1024
abbrev NPAGES : ℕ := NPDENTRIES * NPTENTRIES
abbrev MAXARG : ℕ := 32

/-- The addresses of `memlayout.h`, `main.c` and the linker, in pages: `V2P(end)` rounded up, the
end of what `kinit1` frees, `EXTMEM`, `V2P(data)`, `PHYSTOP`, `DEVSPACE`. -/
structure Layout where
  kend : ℕ
  early : ℕ
  extmem : ℕ
  data : ℕ
  phystop : ℕ
  devspace : ℕ
  extmem_pos : 0 < extmem
  extmem_lt : extmem < data
  data_le : data ≤ kend
  kend_le : kend ≤ early
  early_le : early ≤ phystop
  data_lt : data < phystop
  phystop_le : KERNPAGE + phystop ≤ devspace
  devspace_lt : devspace < NPAGES

/-- The layout of the source; the linker places `data` and `end`. -/
def Layout.xv6 (data kend : ℕ) (hdata : 0x100 < data) (hend : data ≤ kend)
    (hearly : kend ≤ 1024) : Layout :=
  ⟨kend, 1024, 0x100, data, 0xE000, 0xFE000, by decide, hdata, hend, hearly, by decide, by omega,
    by decide, by decide⟩

/-- An entry of a page directory or page table, with `PTE_P`, `PTE_W` and `PTE_U`. -/
structure Pte where
  frame : ℕ
  present : Bool
  write : Bool
  user : Bool
  deriving DecidableEq

def Pte.zero : Pte := ⟨0, false, false, false⟩

/-- The entry 0x01010101, which `kfree` leaves everywhere. -/
def Pte.junk : Pte := ⟨0x1010, true, false, false⟩

/-- Physical memory. -/
structure Mem where
  freelist : List ℕ
  tab : ℕ → ℕ → Pte
  deny : List Bool

/-- Every entry of page `f` becomes `e`. -/
def Mem.wipe (m : Mem) (f : ℕ) (e : Pte) : Mem :=
  { m with tab := update m.tab f fun _ => e }

/-- Entry `i` of page `f` becomes `e`. -/
def Mem.poke (m : Mem) (f i : ℕ) (e : Pte) : Mem :=
  { m with tab := update m.tab f (update (m.tab f) i e) }

def Mem.copy (m : Mem) (f g : ℕ) : Mem := { m with tab := update m.tab g (m.tab f) }

abbrev V := Prog Mem Stop

/-- `PGROUNDUP(sz) / PGSIZE`. -/
def pgup (sz : ℕ) : ℕ := (sz + PGSIZE - 1) / PGSIZE

variable (L : Layout)

def kfree (f : ℕ) : V Unit := do
  if f < L.kend ∨ L.phystop ≤ f then stop (.panic "kfree")
  modify (·.wipe f .junk)
  modify fun m => { m with freelist := f :: m.freelist }

def kalloc : V (Option ℕ) := fun m =>
  match m.deny, m.freelist with
  | true :: ds, _ => .ok (none, { m with deny := ds })
  | ds, [] => .ok (none, { m with deny := ds.tail })
  | ds, f :: fs => .ok (some f, { m with deny := ds.tail, freelist := fs })

/-- `walkpgdir`: the page table and the index in it of the entry for page `a`. -/
def walkpgdir (d a : ℕ) (alloc : Bool) : V (Option (ℕ × ℕ)) := do
  let pde ← read fun m => m.tab d (a / NPTENTRIES)
  if pde.present then pure (some (pde.frame, a % NPTENTRIES))
  else if !alloc then pure none
  else
    match ← kalloc with
    | none => pure none
    | some t => do
      modify (·.wipe t .zero)
      modify (·.poke d (a / NPTENTRIES) ⟨t, true, true, true⟩)
      pure (some (t, a % NPTENTRIES))

/-- The body of the loop of `mappages`. -/
def mapPage (d a : ℕ) (e : Pte) : V Bool := do
  match ← walkpgdir d a true with
  | none => pure false
  | some (t, i) => do
    let pte ← read fun m => m.tab t i
    if pte.present then stop (.panic "remap")
    modify (·.poke t i e)
    pure true

/-- `mappages` of `n` pages from `a` on, to the frames from `pa` on. -/
def mappages (d a : ℕ) : (n pa : ℕ) → (write user : Bool) → V Bool
  | 0, _, _, _ => pure true
  | n + 1, pa, write, user => do
    if ← mapPage d a ⟨pa, true, write, user⟩ then mappages d (a + 1) n (pa + 1) write user
    else pure false

/-- The loop of `deallocuvm` from page `a` on, in at most `n` rounds. -/
def deallocLoop (d oldsz : ℕ) : (n a : ℕ) → V Unit
  | 0, _ => pure ()
  | n + 1, a => do
    if a * PGSIZE < oldsz then
      match ← walkpgdir d a false with
      -- on to the first page of the next directory entry
      | none => deallocLoop d oldsz n ((a / NPTENTRIES + 1) * NPTENTRIES)
      | some (t, i) => do
        let pte ← read fun m => m.tab t i
        if pte.present then
          if pte.frame = 0 then stop (.panic "kfree")
          kfree L pte.frame
          modify (·.poke t i .zero)
        deallocLoop d oldsz n (a + 1)

@[irreducible] def deallocuvm (d oldsz newsz : ℕ) : V ℕ := do
  if oldsz ≤ newsz then pure oldsz
  else do
    deallocLoop L d oldsz (pgup oldsz - pgup newsz) (pgup newsz)
    pure newsz

/-- The loop of `freevm` over the directory entries `is`. -/
@[irreducible] def freeTables (d : ℕ) (is : List ℕ) : V Unit :=
  is.forM fun i => do
    let pde ← read fun m => m.tab d i
    if pde.present then kfree L pde.frame

def freevm (d : ℕ) : V Unit := do
  let _ ← deallocuvm L d KERNBASE 0
  freeTables L d (List.range NPDENTRIES)
  kfree L d

/-- `kmap`: first page, first frame, number of pages, `PTE_W`. -/
def kmap : List (ℕ × ℕ × ℕ × Bool) :=
  [(KERNPAGE, 0, L.extmem, true),
    (KERNPAGE + L.extmem, L.extmem, L.data - L.extmem, false),
    (KERNPAGE + L.data, L.data, L.phystop - L.data, true),
    (L.devspace, L.devspace, NPAGES - L.devspace, true)]

/-- The loop of `setupkvm`. -/
def mapAll (d : ℕ) : List (ℕ × ℕ × ℕ × Bool) → V Bool
  | [] => pure true
  | (virt, phys, n, write) :: ks => do
    if ← mappages d virt n phys write false then mapAll d ks else pure false

def setupkvm : V (Option ℕ) := do
  match ← kalloc with
  | none => pure none
  | some d => do
    modify (·.wipe d .zero)
    if L.devspace < KERNPAGE + L.phystop then stop (.panic "PHYSTOP too high")
    if ← mapAll d (kmap L) then pure (some d)
    else do
      freevm L d
      pure none

def clearpteu (d a : ℕ) : V Unit := do
  match ← walkpgdir d a false with
  | none => stop (.panic "clearpteu")
  | some (t, i) => do
    let pte ← read fun m => m.tab t i
    modify (·.poke t i { pte with user := false })

/-- `(sp - n) & ~3` in `uint`s. -/
def pushDown (sp n : ℕ) : ℕ := (sp + 2 ^ 32 - n) % 2 ^ 32 / 4 * 4

end Xv6Container.Vm
