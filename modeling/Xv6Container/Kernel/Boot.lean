import Xv6Container.Fs.Image
import Xv6Container.Kernel.System

/-!
# The kernel when the first process is about to run

`userinit` has made the process table, and the first process has the root directory
for its current one. No file is open, and there is no container.
-/

namespace Xv6Container.Kernel

open Fs

/-- The slot of the inode cache that `namei("/")` gets in `userinit`. -/
def rootSlot : ISlot := ⟨0, ninode_pos⟩

def boot (s : Fs.State) : Kernel where
  fs := { s with
    inode := fun c => ⟨if c = rootSlot then ROOTINO else 0, if c = rootSlot then 1 else 0,
      false, false, Dinode.fresh .free⟩ }
  tables := .boot
  file := fun _ => ⟨.none, 0, false, false, rootSlot, 0, 0⟩
  ofile := fun _ => none
  cwd := fun p => if p = initproc then some rootSlot else none
  files := fun _ => []
  allFiles := []
  createContainerCalled := false
  lsCalled := fun _ => false
  stack := fun _ => 0

end Xv6Container.Kernel
