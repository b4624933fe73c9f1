import Xv6Container.Lib.Loop
import Xv6Container.Lib.Run
import Xv6Container.Vm.Pages

/-!
# malloc and free

The allocator of `umalloc.c`; sizes are in units of one header, and `base` is a block of size 0.
What the source does not keep is kept here: which blocks the program has, and for how many bytes
it has asked.
-/

namespace Xv6Container.Malloc

open Function

open Vm (KERNBASE)

/-- The headers, by their addresses, the variable `freep`, which may be null, and the size of the
process. -/
structure Heap where
  ptr : ℕ → ℕ
  size : ℕ → ℕ
  freep : ℕ
  brk : ℕ

/-- `sizeof(Header)`. -/
abbrev HEADER : ℕ := 8

/-- `p + n` for a pointer to a header. -/
def plus (p n : ℕ) : ℕ := (p + HEADER * n) % 2 ^ 32

/-- The loop of `free` stops at `p`. -/
def stopsAt (h : Heap) (bp p : ℕ) : Bool :=
  (bp > p && bp < h.ptr p) || (p ≥ h.ptr p && (bp > p || bp < h.ptr p))

/-- More nodes than there can be in the free list. -/
def Heap.fuel (h : Heap) : ℕ := h.brk / HEADER + 1

/-- The first `if` of `free`. -/
def joinUpper (h : Heap) (bp p : ℕ) : Heap :=
  if plus bp (h.size bp) = h.ptr p then
    { h with
      size := update h.size bp ((h.size bp + h.size (h.ptr p)) % 2 ^ 32)
      ptr := update h.ptr bp (h.ptr (h.ptr p)) }
  else { h with ptr := update h.ptr bp (h.ptr p) }

/-- The second `if` of `free`. -/
def joinLower (h : Heap) (bp p : ℕ) : Heap :=
  if plus p (h.size p) = bp then
    { h with
      size := update h.size p ((h.size p + h.size bp) % 2 ^ 32)
      ptr := update h.ptr p (h.ptr bp) }
  else { h with ptr := update h.ptr p bp }

/-- `free`; there is no result if the loop goes on for too long. -/
def free (h : Heap) (ap : ℕ) : Option Heap := do
  let bp := ap - HEADER
  let p ← seek h.ptr (stopsAt h bp) h.fuel h.freep
  let h := joinLower (joinUpper h bp p) bp p
  pure { h with freep := p }

/-- `sbrk` for a number of bytes that is positive as an `int`. Whether there is memory for the
process to grow depends on what is going on elsewhere. -/
def sbrk (grant : ℕ → Bool) (h : Heap) (n : ℕ) : Option (ℕ × Heap) :=
  if grant h.brk && h.brk + n < KERNBASE then some (h.brk, { h with brk := h.brk + n }) else none

/-- `morecore`, with its result; the outer `none` is a loop that goes on for too long. -/
def morecore (grant : ℕ → Bool) (h : Heap) (nu : ℕ) : Option (Heap × Option ℕ) :=
  let nu := if nu < 4096 then 4096 else nu
  match sbrk grant h (nu * HEADER % 2 ^ 32) with
  | none => some (h, none)
  | some (hp, h) => do
    let h ← free { h with size := update h.size hp nu } (hp + HEADER)
    pure (h, some h.freep)

/-- The block `p` behind `prevp` is big enough: take it, or its end. -/
def take (h : Heap) (nunits prevp p : ℕ) : Heap × ℕ :=
  if h.size p = nunits then
    ({ h with ptr := update h.ptr prevp (h.ptr p), freep := prevp }, p)
  else
    let q := plus p (h.size p - nunits)
    ({ h with
       size := update (update h.size p (h.size p - nunits)) q nunits
       freep := prevp }, q)

/-- The loop of `malloc`; its result is the header of the block. -/
def mallocLoop (grant : ℕ → Bool) (nunits : ℕ) : ℕ → Heap → ℕ → ℕ → Option (Heap × Option ℕ)
  | 0, _, _, _ => none
  | n + 1, h, prevp, p =>
    if h.size p ≥ nunits then
      some ((take h nunits prevp p).1, some (take h nunits prevp p).2)
    else if p = h.freep then do
      let r ← morecore grant h nunits
      match r.2 with
      | none => pure (r.1, none)
      | some p => mallocLoop grant nunits n r.1 p (r.1.ptr p)
    else mallocLoop grant nunits n h p (h.ptr p)

/-- `nunits`. -/
def unitsFor (nbytes : ℕ) : ℕ := (nbytes + HEADER - 1) % 2 ^ 32 / HEADER + 1

/-- The first call of `malloc` makes a list of `base` alone. -/
def initList (base : ℕ) (h : Heap) : Heap :=
  if h.freep = 0 then
    { h with
      ptr := update h.ptr base base
      size := update h.size base 0
      freep := base }
  else h

/-- `malloc`. The loop goes round the list twice at most. -/
def malloc (base : ℕ) (grant : ℕ → Bool) (h : Heap) (nbytes : ℕ) : Option (Heap × Option ℕ) :=
  let h := initList base h
  mallocLoop grant (unitsFor nbytes) (2 * h.fuel + 3) h h.freep (h.ptr h.freep)

/-- The heap, and the blocks of the program: the header, and the number of bytes that it has asked
for. -/
structure State where
  heap : Heap
  live : List (ℕ × ℕ)

inductive Event
  | malloc (nbytes : ℕ) (grant : ℕ → Bool)
  | free (block : ℕ)
  -- what is in the memory of the program may be anything
  | write (ptr size : ℕ → ℕ)

/-- The address is behind the header of a block of the program. -/
def State.owns (s : State) (x : ℕ) : Prop :=
  ∃ b ∈ s.live, b.1 < x ∧ x < b.1 + HEADER * s.heap.size b.1

instance (s : State) : DecidablePred s.owns := fun x =>
  inferInstanceAs (Decidable (∃ b ∈ s.live, b.1 < x ∧ x < b.1 + HEADER * s.heap.size b.1))

/-- What the program may do: ask for memory that has less than 2^31 bytes with its header, and free
a block that it has. -/
def Allowed (s : State) : Event → Prop
  | .malloc nbytes _ => HEADER * ((nbytes + HEADER - 1) / HEADER + 1) < 2 ^ 31
  | .free block => block ∈ s.live.map Prod.fst
  | .write _ _ => True

instance (s : State) : DecidablePred (Allowed s)
  | .malloc nbytes _ =>
    inferInstanceAs (Decidable (HEADER * ((nbytes + HEADER - 1) / HEADER + 1) < 2 ^ 31))
  | .free block => inferInstanceAs (Decidable (block ∈ s.live.map Prod.fst))
  | .write _ _ => inferInstanceAs (Decidable True)

def run (base : ℕ) (s : State) : Event → Option State
  | .malloc nbytes grant => do
    let r ← malloc base grant s.heap nbytes
    pure ⟨r.1, match r.2 with
      | none => s.live
      | some p => (p, nbytes) :: s.live⟩
  | .free block => do
    let h ← free s.heap (block + HEADER)
    pure ⟨h, s.live.filter fun b => b.1 ≠ block⟩
  | .write ptr size =>
    some ⟨{ s.heap with
      ptr := fun x => if s.owns x then ptr x else s.heap.ptr x
      size := fun x => if s.owns x then size x else s.heap.size x }, s.live⟩

/-- One call of the program, or a write to its memory. -/
def step (base : ℕ) (s : State) (e : Event) : Option State :=
  if Allowed s e then run base s e else none

def boot (start : ℕ) : State := ⟨⟨fun _ => 0, fun _ => 0, 0, start⟩, []⟩

end Xv6Container.Malloc
