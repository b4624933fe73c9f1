import Xv6Container.Kernel.Disk
import Xv6Container.Kernel.Outcome

/-!
# The owner of an open file

`sys_open` looks for the owner by name, in a list from which nothing is ever taken out, and with
`"./"` in front of the listed names. The inode that it opens plays no part in that.
-/

namespace Xv6Container.Kernel

open Prog Fs Run Function Option

variable {sb : Superblock} {k k' : Kernel} {s : Fs.State} {i : ℕ} {fd : Fd} {p : PSlot}
  {path : Path} {omode : UInt32}

/-- `g` names the file that an open of `t` gives. If `t` is yet to be made, these are the names with
its directory and last element, and those that already lead to the inode that `ialloc` takes. -/
def SameFile (sb : Superblock) (N : ℕ → Node) (w : ℕ) (t g : Path) : Prop :=
  match resolve N w t with
  | some i => resolve N w g = some i
  | none => (∃ i ∈ freeInode sb N, resolve N w g = some i) ∨
      resolveParent N w g = resolveParent N w t

theorem Opens.resolve_iff {T T' : Tree} {w : ℕ} {b : Bool} (h : Opens sb T w path b i T')
    (g : Path) : Fs.resolve T'.node w g = some i ↔ SameFile sb T.node w path g := by
  rw [SameFile]
  cases h with
  | plain hr hal =>
    rw [hr]
    exact Iff.rfl
  | there hp hk hfile =>
    rw [show Fs.resolve T.node w path = _ from walk_of_walkParent hp hk]
    exact Iff.rfl
  | made hp hk h0 hlt hfree hfirst =>
    rw [show Fs.resolve T.node w path = none from walk_of_walkParent hp hk,hp,hfirst]
    simp only [mem_some_iff,exists_eq_left',Tree.get_node]
    exact Tree.create_walk_iff h0 (hlt.trans_le sb.ninodes_le) hfree (walkParent_dir hp) hk

section Registered

variable {c : ℤ} {w : ℕ}

end Registered

end Xv6Container.Kernel
