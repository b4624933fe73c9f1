import Xv6Container.Fs.Dir

/-!
# Calls on names

The system calls of `sysfile.c` that change directories, and `create`, which
`open` uses too. Each is one transaction, from `begin_op` to `end_op`. A call
returns 0 or -1.
-/

namespace Xv6Container.Fs

open Prog

variable (sb : Superblock)

/-- `ip->nlink += n; iupdate(ip)`. -/
def addLinks (c : ISlot) (n : Int16) : M Unit := do
  setDin c fun d => { d with nlink := d.nlink + n }
  iupdate c

/-- The entries `.` and `..` of a new directory. -/
def linkDots (ip dp : ISlot) : M Unit := do
  let inum ← read fun s => (s.inode ip).inum
  let parent ← read fun s => (s.inode dp).inum
  let dot ← dirlink sb ip Name.dot inum
  if dot then do
    let dotdot ← dirlink sb ip Name.dotdot parent
    if dotdot then pure () else stop (.panic "create dots")
  else stop (.panic "create dots")

/-- `if(type == T_DIR)` of `create`: the link and the entries of a new directory. -/
def createDots (type : FType) (ip dp : ISlot) : M Unit :=
  if type = .dir then do
    addLinks dp 1
    linkDots sb ip dp
  else pure ()

/-- The part of `create` that makes a new inode and enters it into `dp`. -/
def createNew (dp : ISlot) (name : Name) (type : FType) (major minor : Int16) : M ISlot := do
  let ip ← ialloc sb type
  ilock ip
  setDin ip fun d => { d with major := major, minor := minor, nlink := 1 }
  iupdate ip
  createDots sb type ip dp
  let inum ← read fun s => (s.inode ip).inum
  let ok ← dirlink sb dp name inum
  if ok then do
    iunlockput dp
    pure ip
  else stop (.panic "create: dirlink")

/-- `create`: a locked inode, new or the file that was there. -/
def create (cwd : Option ISlot) (path : Path) (type : FType) (major minor : Int16) :
    M (Option ISlot) := do
  let parent ← nameiparent sb cwd path
  match parent with
  | none => pure none
  | some (dp, name) => do
    ilock dp
    let found ← dirlookup sb dp name
    match found with
    | some (ip, _) => do
      iunlockput dp
      ilock ip
      let there ← read fun s => (s.inode ip).din.type
      if type = .file ∧ there = .file then pure (some ip)
      else do
        iunlockput ip
        pure none
    | none => do
      let ip ← createNew sb dp name type major minor
      pure (some ip)

/-- `sys_mkdir` and `sys_mknod`: an inode of the given type. -/
def sysMake (cwd : Option ISlot) (path : Path) (type : FType) (major minor : Int16) : M ℤ := do
  let ip ← create sb cwd path type major minor
  match ip with
  | none => pure (-1)
  | some ip => do
    iunlockput ip
    pure 0

def sysMkdir (cwd : Option ISlot) (path : Path) : M ℤ := sysMake sb cwd path .dir 0 0

def sysMknod (cwd : Option ISlot) (path : Path) (major minor : Int16) : M ℤ :=
  sysMake sb cwd path .dev major minor

/-- The label `bad` of `sys_link`. -/
def linkBad (ip : ISlot) : M ℤ := do
  ilock ip
  addLinks ip (-1)
  iunlockput ip
  pure (-1)

def sysLink (cwd : Option ISlot) (old new : Path) : M ℤ := do
  let ip ← namei sb cwd old
  match ip with
  | none => pure (-1)
  | some ip => do
    ilock ip
    let type ← read fun s => (s.inode ip).din.type
    if type = .dir then do
      iunlockput ip
      pure (-1)
    else do
      addLinks ip 1
      iunlock ip
      let parent ← nameiparent sb cwd new
      match parent with
      | none => linkBad ip
      | some (dp, name) => do
        ilock dp
        let inum ← read fun s => (s.inode ip).inum
        let ok ← dirlink sb dp name inum
        iunlockput dp
        if ok then do
          iput ip
          pure 0
        else linkBad ip

def isdirempty (dp : ISlot) : M Bool := do
  let size ← read fun s => (s.inode dp).din.size
  let found ← dirScan sb "isdirempty: readi" dp (fun e => e.inum ≠ 0) (dirOffsets 2 size)
  pure found.isNone

/-- A directory may be unlinked if it is empty, anything else always. -/
def mayUnlink (ip : ISlot) (type : FType) : M Bool :=
  if type = .dir then isdirempty sb ip else pure true

/-- A directory that loses a subdirectory loses the link of its `..`. -/
def dropParentLink (dp : ISlot) (type : FType) : M Unit :=
  if type = .dir then addLinks dp (-1) else pure ()

/-- The end of `sys_unlink`: both inodes are locked, and the entry may go. -/
def unlinkEntry (dp ip : ISlot) (off : ℕ) : M ℤ := do
  let r ← writei sb dp Dirent.zero.encode off
  if r = some 16 then do
    let type ← read fun s => (s.inode ip).din.type
    dropParentLink dp type
    iunlockput dp
    addLinks ip (-1)
    iunlockput ip
    pure 0
  else stop (.panic "unlink: writei")

def sysUnlink (cwd : Option ISlot) (path : Path) : M ℤ := do
  let parent ← nameiparent sb cwd path
  match parent with
  | none => pure (-1)
  | some (dp, name) => do
    ilock dp
    if name = Name.dot ∨ name = Name.dotdot then do
      iunlockput dp
      pure (-1)
    else do
      let found ← dirlookup sb dp name
      match found with
      | none => do
        iunlockput dp
        pure (-1)
      | some (ip, off) => do
        ilock ip
        let d ← read fun s => (s.inode ip).din
        if d.nlink < 1 then stop (.panic "unlink: nlink < 1")
        else do
          let may ← mayUnlink sb ip d.type
          if may then unlinkEntry sb dp ip off
          else do
            iunlockput ip
            iunlockput dp
            pure (-1)

end Xv6Container.Fs
