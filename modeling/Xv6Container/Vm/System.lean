import Xv6Container.Vm.Exec
import Xv6Container.Proc.Table

/-!
# Processes and the pages they use

A call runs as a whole; of the states of a process that lives only `RUNNABLE` occurs, and of the
types of open files only pipes and `FD_NONE`. What uses no pages is left out. The message queues
that the first system call sets up belong to the boot here.
-/

namespace Xv6Container.Vm

open Prog Function

abbrev FSlot := Fin NFILE

/-- `struct file`; `pipe` is the page of the pipe, if it is one. -/
structure File where
  ref : ℕ
  pipe : Option ℕ
  writable : Bool

/-- `readopen` and `writeopen` of a pipe. -/
structure Ends where
  readopen : Bool
  writeopen : Bool

/-- `struct proc`. -/
structure MProc extends Kin NPROC where
  kstack : Option ℕ
  pgdir : Option ℕ
  sz : ℕ
  ofile : Fin NOFILE → Option FSlot

structure Sys where
  ram : Ram
  proc : PSlot → MProc
  file : FSlot → File
  /-- the pipe that a page contains -/
  ends : ℕ → Ends
  kpgdir : ℕ
  /-- stacks of the CPUs and pages of the message queues -/
  kept : List ℕ

abbrev Sys.mem (s : Sys) : Mem := s.ram.mem

def Sys.kin (s : Sys) : PSlot → Kin NPROC := fun q => (s.proc q).toKin

abbrev K := Prog Sys Stop

/-- A function that works on memory. -/
def onRam {α : Type} (x : B α) : K α := zoom Sys.ram (fun s r => { s with ram := r }) x

/-- A function that stores no bytes in user pages. -/
def onMem {α : Type} (x : V α) : K α := onRam (low x)

def setProc (p : PSlot) (f : MProc → MProc) : K Unit :=
  modify fun s => { s with proc := update s.proc p (f (s.proc p)) }

def setFile (i : FSlot) (f : File) : K Unit :=
  modify fun s => { s with file := update s.file i f }

def setOfile (p : PSlot) (fd : Fin NOFILE) (o : Option FSlot) : K Unit :=
  setProc p fun x => { x with ofile := update x.ofile fd o }

variable (L : Layout)

def filealloc : K (Option FSlot) := do
  match ← read fun s => (List.finRange NFILE).find? fun i => (s.file i).ref = 0 with
  | none => pure none
  | some i => do
    modify fun s => { s with file := update s.file i { s.file i with ref := 1 } }
    pure (some i)

def filedup (i : FSlot) : K Unit := do
  let f ← read fun s => s.file i
  if f.ref < 1 then stop (.panic "filedup")
  setFile i { f with ref := f.ref + 1 }

def pipeclose (pg : ℕ) (writable : Bool) : K Unit := do
  modify fun s => { s with
    ends := update s.ends pg
      (if writable then { s.ends pg with writeopen := false }
        else { s.ends pg with readopen := false }) }
  let e ← read fun s => s.ends pg
  if !e.readopen && !e.writeopen then onMem (kfree L pg)

def fileclose (i : FSlot) : K Unit := do
  let f ← read fun s => s.file i
  if f.ref < 1 then stop (.panic "fileclose")
  if 1 < f.ref then setFile i { f with ref := f.ref - 1 }
  else do
    setFile i { f with ref := 0, pipe := none }
    match f.pipe with
    | some pg => pipeclose L pg f.writable
    | none => pure ()

def pipealloc : K (Option (FSlot × FSlot)) := do
  match ← filealloc with
  | none => pure none
  | some f0 => do
    match ← filealloc with
    | none => do
      fileclose L f0
      pure none
    | some f1 => do
      match ← onMem kalloc with
      | none => do
        fileclose L f0
        fileclose L f1
        pure none
      | some pg => do
        modify fun s => { s with ends := update s.ends pg ⟨true, true⟩ }
        modify fun s => { s with
          file := update s.file f0 { s.file f0 with pipe := some pg, writable := false } }
        modify fun s => { s with
          file := update s.file f1 { s.file f1 with pipe := some pg, writable := true } }
        pure (some (f0, f1))

def fdalloc (p : PSlot) (i : FSlot) : K (Option (Fin NOFILE)) := do
  match ← read fun s => (List.finRange NOFILE).find? fun fd => (s.proc p).ofile fd = none with
  | none => pure none
  | some fd => do
    setOfile p fd (some i)
    pure (some fd)

def sysPipe (p : PSlot) : K Unit := do
  match ← pipealloc L with
  | none => pure ()
  | some (rf, wf) => do
    match ← fdalloc p rf with
    | none => do
      fileclose L rf
      fileclose L wf
    | some fd0 => do
      match ← fdalloc p wf with
      | none => do
        setOfile p fd0 none
        fileclose L rf
        fileclose L wf
      | some _ => pure ()

def sysClose (p : PSlot) (fd : Fin NOFILE) : K Unit := do
  match ← read fun s => (s.proc p).ofile fd with
  | none => pure ()
  | some i => do
    setOfile p fd none
    fileclose L i

/-- The page directory of a process; a null pointer stops the kernel. -/
def pgdirOf (p : PSlot) : K ℕ := do
  match ← read fun s => (s.proc p).pgdir with
  | some d => pure d
  | none => stop (.panic "freevm: no pgdir")

/-- The end of `growproc`: size 0 means that there was no memory. -/
def resize (p : PSlot) (sz : ℕ) : K Int32 := do
  if sz = 0 then pure (-1)
  else do
    setProc p fun x => { x with sz := sz }
    pure 0

/-- `growproc`; the sum of `sz` and `n` is a `uint`. -/
def growproc (p : PSlot) (n : Int32) : K Int32 := do
  let d ← pgdirOf p
  let sz ← read fun s => (s.proc p).sz
  let newsz := (((sz : ℤ) + n.toInt) % 2 ^ 32).toNat
  if 0 < n.toInt then do
    let r ← onRam (allocuvm L d sz newsz)
    resize p r
  else if n.toInt < 0 then do
    let r ← onMem (deallocuvm L d sz newsz)
    resize p r
  -- the size is stored back as it is
  else pure 0

/-- `sys_sbrk` after `argint`. -/
def sysSbrk (p : PSlot) (n : Int32) : K Int32 := do
  let addr ← read fun s => (s.proc p).sz
  let r ← growproc L p n
  if r < 0 then pure (-1) else pure (Int32.ofNat addr)

/-- The loop of `fork` over the open files. -/
def dupFiles (p q : PSlot) (fds : List (Fin NOFILE)) : K Unit :=
  fds.forM fun fd => do
    match ← read fun s => (s.proc p).ofile fd with
    | none => pure ()
    | some i => do
      filedup i
      setOfile q fd (some i)

def fork (p : PSlot) : K Unit := do
  match ← read fun s => Slot.firstUnused s.kin with
  | none => pure ()
  | some q => do
    setProc q fun x => { x with state := .EMBRYO }
    let k ← onMem kalloc
    setProc q fun x => { x with kstack := k }
    match k with
    | none => setProc q fun x => { x with state := .UNUSED }
    | some k => do
      let d ← pgdirOf p
      let sz ← read fun s => (s.proc p).sz
      let nd ← onRam (copyuvm L d sz)
      setProc q fun x => { x with pgdir := nd }
      match nd with
      | none => do
        onMem (kfree L k)
        setProc q fun x => { x with kstack := none, state := .UNUSED }
      | some _ => do
        setProc q fun x => { x with sz := sz, parent := some p }
        dupFiles p q (List.finRange NOFILE)
        setProc q fun x => { x with state := .RUNNABLE }

def exec (p : PSlot) (good : Bool) (sgs : List (Option Seg)) (argv : List (List UInt8)) :
    K Unit := do
  match ← onRam (execImage L good sgs argv) with
  | none => pure ()
  | some (d, sz, _) => do
    let old ← pgdirOf p
    setProc p fun x => { x with pgdir := some d, sz := sz }
    onMem (freevm L old)

/-- The loop of `exit` over the open files. -/
def closeFiles (p : PSlot) (fds : List (Fin NOFILE)) : K Unit :=
  fds.forM fun fd => do
    match ← read fun s => (s.proc p).ofile fd with
    | none => pure ()
    | some i => do
      fileclose L i
      setOfile p fd none

def exit (p : PSlot) : K Unit := do
  if p = initproc then stop (.panic "init exiting")
  closeFiles L p (List.finRange NOFILE)
  modify fun s => { s with
    proc := fun q => { s.proc q with toKin := Slot.reparent initproc p (s.proc q).toKin } }
  setProc p fun x => { x with state := .ZOMBIE }

def wait (p : PSlot) : K Unit := do
  match ← read fun s => Slot.zombieChild s.kin p with
  | none => pure ()
  | some q => do
    match ← read fun s => (s.proc q).kstack with
    | none => stop (.panic "kfree")
    | some k => do
      onMem (kfree L k)
      setProc q fun x => { x with kstack := none }
      let d ← pgdirOf q
      onMem (freevm L d)
      setProc q fun x => { x with parent := none, state := .UNUSED }

/-- What a process asks for. -/
inductive Call
  | fork | exec (good : Bool) (sgs : List (Option Seg)) (argv : List (List UInt8))
  | sbrk (n : Int32) | exit | wait | pipe | close (fd : Fin NOFILE)

def call (p : PSlot) : Call → K Unit
  | .fork => fork L p
  | .exec good sgs argv => exec L p good sgs argv
  | .sbrk n => do let _ ← sysSbrk L p n
  | .exit => exit L p
  | .wait => wait L p
  | .pipe => sysPipe L p
  | .close fd => sysClose L p fd

/-- A call, by whom, and which allocations fail although pages are free. -/
structure Act where
  proc : PSlot
  call : Call
  deny : List Bool

def step (s : Sys) (a : Act) : Option Sys :=
  if (s.proc a.proc).state = .RUNNABLE then
    match call L a.proc a.call { s with ram.mem.deny := a.deny } with
    | .ok (_, t) => some t
    | .error _ => none
  else none

/-- `freerange` of `n` pages from `f` on. -/
def freerange (f : ℕ) : ℕ → V Unit
  | 0 => pure ()
  | n + 1 => do
    kfree L f
    freerange (f + 1) n

/-- `startothers`: a stack for each of `n` CPUs. -/
def startothers : ℕ → K Unit
  | 0 => pure ()
  | n + 1 => do
    match ← onMem kalloc with
    | none => pure ()
    | some f => modify fun s => { s with kept := f :: s.kept }
    startothers n

/-- `inituvm` of the program `init`; its caller does not look at the result of `mappages`. -/
def inituvm (d : ℕ) (init : List UInt8) : B Unit := do
  match ← low kalloc with
  | none => stop .wild
  | some mem => do
    clear mem
    if ← low (mappages d 0 1 mem true true) then store mem 0 init else stop .wild

def userinit (init : List UInt8) : K Unit := do
  match ← onMem kalloc with
  | none => stop .wild
  | some k => do
    match ← onMem (setupkvm L) with
    | none => stop (.panic "userinit: out of memory?")
    | some d => do
      onRam (inituvm d init)
      setProc initproc fun x =>
        { x with state := .RUNNABLE, kstack := some k, pgdir := some d, sz := PGSIZE }

/-- `createIntQueue` and `createWaitQueue`: a structure, which is written to at once, and its
array. -/
def createQueue : K Unit := do
  match ← onMem kalloc with
  | none => stop .wild
  | some mq => do
    modify fun s => { s with kept := mq :: s.kept }
    match ← onMem kalloc with
    | none => pure ()
    | some arr => modify fun s => { s with kept := arr :: s.kept }

/-- `init_queues`: two queues for each of `n` processes. -/
def initQueues : ℕ → K Unit
  | 0 => pure ()
  | n + 1 => do
    createQueue
    createQueue
    initQueues n

/-- `main` with `ncpu` more CPUs and the first program `init`, and the message queues. -/
def boot (ncpu : ℕ) (init : List UInt8) : K Unit := do
  onMem (freerange L L.kend (L.early - L.kend))
  match ← onMem (setupkvm L) with
  | none => stop .wild
  | some d => do
    modify fun s => { s with kpgdir := d }
    startothers ncpu
    onMem (freerange L L.early (L.phystop - L.early))
    userinit L init
    initQueues NPROC

/-- The machine when `main` begins, with anything in its pages. -/
def powerOn (tab : ℕ → ℕ → Pte) (data : ℕ → Block PGSIZE) (ends : ℕ → Ends) : Sys where
  ram := ⟨⟨[], tab, []⟩, data⟩
  proc := fun _ => ⟨⟨.UNUSED, none⟩, none, none, 0, fun _ => none⟩
  file := fun _ => ⟨0, none, false⟩
  ends := ends
  kpgdir := 0
  kept := []

section Specs

variable {α : Type} {s : Sys} {E : Stop → Prop} {Q : α → Sys → Prop}

theorem wp_onRam {x : B α} :
    wp E (onRam x) s Q ↔ wp E x s.ram fun a r => Q a { s with ram := r } :=
  wp_zoom

theorem wp_onMem {x : V α} :
    wp E (onMem x) s Q ↔ wp E x s.mem fun a m => Q a { s with ram := ⟨m, s.ram.data⟩ } := by
  rw [onMem,wp_onRam,low,wp_zoom]

theorem wp_resize {Q : Int32 → Sys → Prop} {p : PSlot} {sz : ℕ} (hzero : sz = 0 → Q (-1) s)
    (hpos : sz ≠ 0 → Q 0 { s with proc := update s.proc p { s.proc p with sz := sz } }) :
    wp E (resize p sz) s Q :=
  wp_ite hzero hpos

end Specs

end Xv6Container.Vm
