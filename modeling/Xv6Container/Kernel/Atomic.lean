import Xv6Container.Kernel.Bounds
import Xv6Container.Kernel.Disk

namespace Xv6Container.Kernel

open Prog Fs Run

variable {sb : Superblock} {s : Fs.State} {k k' : Kernel} {as : List Call} {a : Call} {p : PSlot}

/-- Every count is the number of the pointers that it stands for, nothing is locked, and every pointer
leads to an inode in the cache that has not been freed. A process that has exited has none. -/
structure Balanced (k : Kernel) : Prop where
  file : ∀ f, (k.file f).ref = tally k.ofile f
  inode : ∀ i, (cached k.fs i).refs = tally k.viewOf.file i + tally k.viewOf.cwd i
  uniq : ∀ c c', 0 < (k.fs.inode c).ref → 0 < (k.fs.inode c').ref →
    (k.fs.inode c).inum = (k.fs.inode c').inum → c = c'
  unlocked : ∀ i, (cached k.fs i).locked = false
  opened : ∀ f i, k.viewOf.file f = some i → 0 < (k.file f).ref ∧
    0 < (k.fs.inode (k.file f).ip).ref ∧ (node k.fs i).type ≠ .free
  cwd : ∀ p c i, k.cwd p = some c → k.viewOf.cwd p = some i →
    0 < (k.fs.inode c).ref ∧ (node k.fs i).type = .dir
  gone : k.Idle

theorem KInv.balanced {J : Tree → Prop} (h : KInv sb J k) : Balanced k := by
  have hrep := h.rep.rep
  refine ⟨h.rep.fdrefs,h.rep.refs,hrep.wf.uniq,fun i => ?_,fun f i hf => ⟨?_,?_,?_⟩,
    fun p c i hc hp => ⟨?_,h.rep.cwd_dir p i hp⟩,h.idle⟩
  · simpa using hrep.locked i
  · refine Nat.pos_of_ne_zero fun hz => ?_
    rw [h.rep.closed f hz] at hf
    cases hf
  · exact (hrep.slot (KRep.file_mem hf)).ref_pos
  · exact (h.rep.file_type f i hf).1
  · exact (hrep.slot (.inr (.inr ⟨p,hp,hc⟩))).ref_pos

/-- After every run from a good disk the counts are exact. -/
theorem counts_exact (h : GoodDisk sb s) (hrun : exec (step sb) (boot s) as = some k) :
    Balanced k := (h.exec hrun).balanced

theorem counts_exact_makeAndRemove :
    ∃ k, exec (step .mkfs) (boot mkfs) makeAndRemove = some k ∧ Balanced k := by
  have hrun : (exec (step .mkfs) (boot mkfs) makeAndRemove).isSome = true := by decide +kernel
  obtain ⟨k,hk⟩ := Option.isSome_iff_exists.mp hrun
  exact ⟨k,hk,counts_exact goodDisk_mkfs hk⟩

/-- `create` of a new name, with the references that the call takes and gives back. -/
def Made (sb : Superblock) (T : Tree) (w : ℕ) (path : Path) (type : FType) (major minor : Int16)
    (B : Tree) : Prop :=
  ∃ d name i, resolveParent T.node w path = some (d, name) ∧ (T.node d).find name = none ∧
    0 < i ∧ i < sb.ninodes ∧ (T.node i).type = .free ∧
    B = ((((T.get d).create d name i type major minor).get i).put d).put i

/-- The change of the tree that a call on names can make from directory `w`. -/
def Changes (sb : Superblock) (T : Tree) (w : ℕ) (B : Tree) : Call → Prop
  | .mkdir _ path => Made sb T w path .dir 0 0 B
  | .mknod _ path major minor => Made sb T w path .dev major minor B
  | .link _ old new => ∃ i d name, resolve T.node w old = some i ∧ (T.node i).type ≠ .free ∧
      (T.node i).type ≠ .dir ∧ resolveParent T.node w new = some (d, name) ∧
      (T.node d).find name = none ∧ B = ((((T.get i).get d).link d name i).put d).put i
  | .unlink _ path => ∃ d name n i, resolveParent T.node w path = some (d, name) ∧
      name ≠ Name.dot ∧ name ≠ Name.dotdot ∧ (T.node d).find name = some n ∧
      i = ((T.node d).dirent n).inum ∧ i ≠ d ∧ (T.node i).type ≠ .free ∧
      ¬ (T.node i).nlink < 1 ∧ ((T.node i).type = .dir → (T.node i).Empty) ∧
      B = ((((T.get d).get i).unlink d n i).put d).put i
  | _ => False

def Call.onNames : Call → Bool
  | .mkdir .. | .mknod .. | .link .. | .unlink .. => true
  | _ => false

theorem treeOf_eq {T : Tree} {L : Finset ℕ} {H : Set (ISlot × ℕ)} (h : Rep sb s T L H) :
    treeOf s = T := Tree.ext h.node (funext h.refs)

theorem KInv.run_onNames (h : KInv sb (fun _ => True) k) (ha : a.onNames = true)
    (hp : a.caller = some p) : wp (fun _ => True) (Call.run sb a) k fun _ k' =>
      (∃ t, k' = { k with fs := t }) ∧ (treeOf k'.fs = treeOf k.fs ∨
        Changes sb (treeOf k.fs) (k.viewOf.dir p) (treeOf k'.fs) a) := by
  have hE : Lax fun _ => True := fun _ _ _ => trivial
  have hcl : ¬ True → (treeOf k.fs).Closed := fun hno => absurd trivial hno
  cases a with
  | mkdir q path | mknod q path major minor =>
    obtain rfl := Option.some.inj hp
    rw [Call.run,wp_bind,inCwd,wp_bind,wp_read,wp_onFs]
    refine (h.rep.rep.sysMake hE h.rep.cwd_mem hcl path (by decide) (by decide)).mono ?_
    rintro - t (ht | ⟨d,name,i,hd,hnone,hpos,hlt,hfree,ht⟩)
    · exact ⟨⟨t,rfl⟩,.inl (treeOf_eq ht)⟩
    · exact ⟨⟨t,rfl⟩,.inr ⟨d,name,i,hd,hnone,hpos,hlt,hfree,treeOf_eq ht⟩⟩
  | link q old new =>
    obtain rfl := Option.some.inj hp
    rw [Call.run,wp_bind,inCwd,wp_bind,wp_read,wp_onFs]
    refine (h.rep.rep.sysLink hE h.rep.cwd_mem hcl (fun hno => absurd trivial hno) old new).mono ?_
    rintro - t (ht | ⟨i,d,name,hi,hal,hdir,hd,hnone,ht⟩)
    · exact ⟨⟨t,rfl⟩,.inl (treeOf_eq ht)⟩
    · exact ⟨⟨t,rfl⟩,.inr ⟨i,d,name,hi,hal,hdir,hd,hnone,treeOf_eq ht⟩⟩
  | unlink q path =>
    obtain rfl := Option.some.inj hp
    rw [Call.run,wp_bind,inCwd,wp_bind,wp_read,wp_onFs]
    refine (h.rep.rep.sysUnlink hE h.rep.cwd_mem hcl path).mono ?_
    rintro - t (ht | ⟨d,name,n,i,hd,hdot,hdotdot,hn,hi,hid,hal,hlinks,hempty,ht⟩)
    · exact ⟨⟨t,rfl⟩,.inl (treeOf_eq ht)⟩
    · exact ⟨⟨t,rfl⟩,.inr ⟨d,name,n,i,hd,hdot,hdotdot,hn,hi,hid,hal,hlinks,hempty,treeOf_eq ht⟩⟩
  | _ => cases ha

/-- In every reachable state a call on names makes one whole change of the tree or none, and
touches nothing of the kernel beside the file system. -/
theorem name_calls_atomic (h : GoodDisk sb s) (hrun : exec (step sb) (boot s) as = some k)
    (ha : a.onNames = true) (hp : a.caller = some p) (hs : step sb k a = some k') :
    (∃ t, k' = { k with fs := t }) ∧ (treeOf k'.fs = treeOf k.fs ∨
      Changes sb (treeOf k.fs) (k.viewOf.dir p) (treeOf k'.fs) a) := by
  obtain ⟨-,_,hok⟩ := Bounds.ok_of_step hs
  exact ((h.exec hrun).run_onNames ha hp).of_ok hok

theorem name_calls_atomic_mkdir : ∃ k k', step .mkfs k (.mkdir initproc [97]) = some k' ∧
    (∃ t, k' = { k with fs := t }) ∧ (treeOf k'.fs = treeOf k.fs ∨
      Changes .mkfs (treeOf k.fs) (k.viewOf.dir initproc) (treeOf k'.fs) (.mkdir initproc [97])) := by
  have hrun : (exec (step .mkfs) (boot mkfs)
      [.table (.schedule initproc), .mkdir initproc [97]]).isSome = true := by decide +kernel
  obtain ⟨k',hk'⟩ := Option.isSome_iff_exists.mp hrun
  obtain ⟨k,h1,h2⟩ := exec_cons.mp hk'
  obtain ⟨_,hs,-⟩ := exec_cons.mp h2
  exact ⟨k,_,hs,name_calls_atomic goodDisk_mkfs (exec_cons.mpr ⟨k,h1,exec_nil k⟩) rfl rfl hs⟩

end Xv6Container.Kernel
