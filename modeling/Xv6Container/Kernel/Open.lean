import Xv6Container.Kernel.Files

/-!
# open, and the other calls that need the whole state

A process of container `c` that opens `path` gets `path$c`. A file that is not in the registry
of the container is created, or copied from the host's file. `sys_open` is written once, over the
operations on its strings.
-/

namespace Xv6Container

open Prog Fs

namespace Kernel

variable (sb : Superblock)

/-- The digits that `my_itoa` stores for `n`, at most `fuel` of them. -/
def digits (digit : ℕ → UInt8) : ℕ → ℕ → Path
  | 0, _ => []
  | fuel + 1, n =>
    if n / 10 = 0 then [digit (n % 10)] else digits digit fuel (n / 10) ++ [digit (n % 10)]

/-- `digit[d]`. -/
def digit (d : ℕ) : UInt8 := UInt8.ofNat (48 + d)

/-- `my_itoa` for a number that is not negative. -/
def decimal (n : ℕ) : Path := dollar :: digits digit (n + 1) n

/-- `my_itoa`, with `stray n` for `digit[-n]`. The remainder of a negative number is not positive:
the string has bytes from in front of the table, and ends at the first NUL among them. -/
def myItoa (stray : ℕ → UInt8) (i : ℤ) : Path :=
  if 0 ≤ i then decimal i.toNat
  else (dollar :: digits (fun d => if d = 0 then digit 0 else stray d) (i.natAbs + 1) i.natAbs).takeWhile
    (· ≠ 0)

/-- `strcat`, into a new page. -/
def strcat (s1 s2 : Path) : KM Path :=
  if s1.length + s2.length < PGSIZE then pure (s1 ++ s2) else stop .wild

/-- `mystrcmp`: the loop compares the bytes `a, a - 1, .., 1` of two strings of length `a`. -/
def mystrcmp (s1 s2 : Path) : Bool :=
  s1.length = s2.length &&
    (List.range s1.length).all fun n =>
      s1.getD (s1.length - n) 0 = s2.getD (s2.length - n) 0

/-- `strcat(path, sind)` for the suffix of the caller, `my_itoa(curproc->cid, ...)`. -/
def redirect (p : PSlot) (path : Path) : KM Path := do
  let sind ← read fun k => myItoa k.stack (k.tables.proc p).cid
  strcat path sind

def creates (omode : UInt32) : Bool := omode &&& O_CREATE ≠ 0

def mayRead (omode : UInt32) : Bool := omode &&& O_WRONLY = 0

def mayWrite (omode : UInt32) : Bool := omode &&& O_WRONLY ≠ 0 || omode &&& O_RDWR ≠ 0

/-- The inode to open, locked. -/
def openInode (cwd : Option ISlot) (path : Path) (omode : UInt32) : Fs.M (Option ISlot) :=
  if creates omode then create sb cwd path .file 0 0
  else do
    let ip ← namei sb cwd path
    match ip with
    | none => pure none
    | some ip => do
      ilock ip
      let type ← read fun s => (s.inode ip).din.type
      if type = .dir ∧ omode ≠ O_RDONLY then do
        iunlockput ip
        pure none
      else pure (some ip)

/-- `filealloc` and `fdalloc`; if there is no descriptor the file is closed again. -/
def allocFd (p : PSlot) : KM (Option (Fd × FSlot)) := do
  let f ← filealloc
  match f with
  | none => pure none
  | some f => do
    let fd ← fdalloc p f
    match fd with
    | none => do
      fileclose f
      pure none
    | some fd => pure (some (fd, f))

/-- A descriptor for the locked inode `ip`. -/
def install (p : PSlot) (ip : ISlot) (readable writable : Bool) : KM (Option (Fd × FSlot)) := do
  let slot ← allocFd p
  match slot with
  | none => do
    onFs (iunlockput ip)
    pure none
  | some (fd, f) => do
    onFs (iunlock ip)
    setFile f fun ff =>
      { ff with type := .inode, ip := ip, off := 0, readable := readable, writable := writable }
    pure (some (fd, f))

def openFile (p : PSlot) (path : Path) (omode : UInt32) : KM (Option (Fd × FSlot)) := do
  let cwd ← read fun k => k.cwd p
  let ip ← onFs (openInode sb cwd path omode)
  match ip with
  | none => pure none
  | some ip => install p ip (mayRead omode) (mayWrite omode)

/-- `"./"`. -/
def dotSlash : Path := [46, 47]

/-- The slots in whose registry a file of container `cid` is entered. -/
def registers (k : Kernel) (cid : ℤ) (i : CSlot) : Bool :=
  k.tables.location i && (k.tables.container i).cid = cid

/-- Enter a path into the registry of container `cid` and into `all_files`. -/
def register (cid : ℤ) (path : Path) : KM Unit := do
  let room ← read fun k => k.allFiles.length < NCONT &&
    (List.finRange NCONT).all fun i => !k.registers cid i || (k.files i).length < NCONT
  if room then modify fun k => { k with
    files := fun i => if k.registers cid i then k.files i ++ [path] else k.files i
    allFiles := k.allFiles ++ [(path, cid)] }
  else stop .wild

/-- `while(1)`: copy byte by byte until a read gives nothing; at most `fuel` rounds. A write that
fails is only reported. -/
def copyLoop (f f2 : FSlot) : ℕ → KM Unit
  | 0 => stop .blocked
  | fuel + 1 => do
    let r ← fileread sb f 1
    match r with
    | none => pure ()
    | some [] => pure ()
    | some c => do
      let _ ← filewrite sb f2 c
      copyLoop f f2 fuel

/-- `f->cid` of a file that belongs to container `cid`. -/
def tag (f : FSlot) (cid : ℤ) : KM Unit :=
  setFile f fun ff => if ff.cid = 0 ∨ ff.cid = -1 then { ff with cid := cid } else ff

/-- `ofile[fd] = 0; fileclose(f)`. -/
def closeFd (p : PSlot) (fd : Fd) (f : FSlot) : KM Unit := do
  setOfile p fd none
  fileclose f

/-- The rounds that the copy can take: one for each byte of a file, or for each thing that the
console still has to offer. -/
def copyFuel (k : Kernel) : ℕ := MAXFILE * BSIZE + k.fs.input.length + 1

/-- What `sys_open` does with its strings. The state `σ` contains the kernel, and may keep a record
of the strings beside it. -/
structure PathOps (σ Str : Type) where
  lift : {α : Type} → KM α → Prog σ Stop α
  text : Str → Path
  /-- `strcat(path, sind)` for the suffix of the caller -/
  redirect : PSlot → Str → Prog σ Stop Str
  /-- `strcat(dot_slash, all_files[i])` -/
  dotted : Path → Prog σ Stop Path
  /-- `f->path = path` -/
  setPath : FSlot → Str → Prog σ Stop Unit
  /-- the entries in the registry of a container and in `all_files` -/
  register : ℤ → Str → Prog σ Stop Unit

namespace PathOps

variable {σ Str : Type} (S : PathOps σ Str)

/-- The search of the registry of container `cid`: the path to use from here on, and
`pehle_se_hai_conatiner_me`. -/
def lookupRegistry (p : PSlot) (cid : ℤ) (path : Str) : Prog σ Stop (Str × Bool) := do
  let slot ← S.lift (read fun k => k.tables.findLive cid)
  match slot with
  | none => pure (path, false)
  | some i => do
    let path4 ← S.redirect p path
    let there ← S.lift (read fun k => (k.files i).any fun g => mystrcmp g (S.text path4))
    pure (if there then (path4, true) else (path, false))

/-- The loop over `all_files` that finds the owner of a path. -/
def ownerOf (path : Path) : List (Path × ℤ) → Prog σ Stop ℤ
  | [] => pure (-1)
  | (g, c) :: rest => do
    let newPath ← S.dotted g
    if mystrcmp path newPath then pure c else ownerOf path rest

/-- `OPEN F2 AGAIN AS F3`, and its registration. -/
def reopen (p : PSlot) (path3 : Str) (omode : UInt32) (cid : ℤ) : Prog σ Stop (Option Fd) := do
  let r ← S.lift (openFile sb p (S.text path3) omode)
  match r with
  | none => pure none
  | some (fd3, f3) => do
    S.setPath f3 path3
    S.lift (tag f3 cid)
    S.register cid path3
    pure (some fd3)

/-- The first open of a host file in a container: `fd` and `f` are the host's file, whose content
goes into the copy `path2`. -/
def copyTo (p : PSlot) (path2 : Str) (omode : UInt32) (cid : ℤ) (fd : Fd) (f : FSlot) :
    Prog σ Stop (Option Fd) := do
  let cwd ← S.lift (read fun k => k.cwd p)
  let ip2 ← S.lift (onFs (create sb cwd (S.text path2) .file 0 0))
  match ip2 with
  | none => pure none
  | some ip2 => do
    let r ← S.lift (install p ip2 (mayRead omode) true)
    match r with
    | none => pure none
    | some (fd2, f2) => do
      S.setPath f2 path2
      S.lift (tag f2 cid)
      let fuel ← S.lift (read copyFuel)
      S.lift (copyLoop sb f f2 fuel)
      S.lift (setFile f2 fun ff => { ff with off := 0 })
      S.lift (setFile f fun ff => { ff with off := 0 })
      S.lift (closeFd p fd f)
      S.lift (closeFd p fd2 f2)
      S.reopen sb p path2 omode cid

/-- The path of the first `create` or `namei`: `path5` when a container creates. -/
def openPath (p : PSlot) (host : Bool) (path : Str) (omode : UInt32) : Prog σ Stop Str :=
  if creates omode && !host then S.redirect p path else pure path

/-- `sys_open` after the first descriptor is there and the owner of the path has been found. -/
def settle (p : PSlot) (path : Str) (omode : UInt32) (cid : ℤ) (host registered : Bool)
    (fd : Fd) (f : FSlot) (owner : ℤ) : Prog σ Stop (Option Fd) := do
  S.lift (setFile f fun ff => { ff with cid := owner })
  if host then pure (some fd)
  else if registered then pure (some fd)
  else if creates omode then do
    let path6 ← S.redirect p path
    S.register cid path6
    S.setPath f path6
    S.lift (setFile f fun ff => if ff.cid = 0 then { ff with cid := cid } else ff)
    pure (some fd)
  else do
    let path2 ← S.redirect p path
    S.copyTo sb p path2 omode cid fd f

def openRest (p : PSlot) (path : Str) (omode : UInt32) (cid : ℤ) (host registered : Bool)
    (fd : Fd) (f : FSlot) : Prog σ Stop (Option Fd) := do
  S.setPath f path
  let all ← S.lift (read fun k => k.allFiles)
  let owner ← S.ownerOf (S.text path) all
  S.settle sb p path omode cid host registered fd f owner

end PathOps

/-- The container that `sys_open` takes its caller to be in. -/
def callerCid (k : Kernel) (p : PSlot) : ℤ := if k.lsCalled p then -1 else (k.tables.proc p).cid

/-- `sys_open`; `none` is the return value -1. -/
def PathOps.sysOpen {σ Str : Type} (S : PathOps σ Str) (p : PSlot) (path : Str) (omode : UInt32) :
    Prog σ Stop (Option Fd) := do
  let cid ← S.lift (read fun k => k.callerCid p)
  let found ← S.lookupRegistry p cid path
  let host ← S.lift (read fun k => cid = -1 || !k.createContainerCalled)
  let first ← S.openPath p host found.1 omode
  let r ← S.lift (openFile sb p (S.text first) omode)
  match r with
  | none => pure none
  | some (fd, f) => S.openRest sb p found.1 omode cid host found.2 fd f

/-- The strings alone. -/
def plain : PathOps Kernel Path where
  lift m := m
  text path := path
  redirect := redirect
  dotted := strcat dotSlash
  setPath _ _ := pure ()
  register := register

def sysOpen (p : PSlot) (path : Path) (omode : UInt32) : KM (Option Fd) :=
  plain.sysOpen sb p path omode

end Kernel

end Xv6Container
