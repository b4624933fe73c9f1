import Xv6Container.Kernel.Boot
import Xv6Container.Kernel.Reach

/-!
# Runs from a good disk

A disk is good for the kernel if its blocks are in order, the root is a directory, and every
allocated inode has a link.
-/

namespace Xv6Container.Kernel

open Prog Fs Run

/-- The disk of `s` is in order, its root is a directory, and there are no inodes without links. -/
structure GoodDisk (sb : Superblock) (s : Fs.State) : Prop where
  disk : DiskOk sb s.dinode s.block s.bitmap
  root : (s.dinode ROOTINO).type = .dir
  linked : ∀ i, (s.dinode i).type ≠ .free → (s.dinode i).nlink ≠ 0

variable {sb : Superblock} {s : Fs.State} {J : Tree → Prop} {c : ISlot} {i : ℕ}

theorem at_boot : At (boot s).fs c i ↔ c = rootSlot ∧ i = ROOTINO := by
  constructor
  · intro h
    have hc : c = rootSlot := by
      by_contra hne
      have hz : ((boot s).fs.inode c).ref = 0 := if_neg hne
      have := h.ref_pos
      omega
    subst hc
    exact ⟨rfl,h.inum.symm⟩
  · intro h
    obtain ⟨rfl,rfl⟩ := h
    exact ⟨Nat.one_pos,rfl⟩

theorem GoodDisk.wf (h : GoodDisk sb s) : Wf sb (boot s).fs := by
  refine ⟨h.disk,?_,nofun,nofun,fun _ _ => rfl⟩
  intro c c' hc hc' _
  exact (at_boot.mp ⟨hc,rfl⟩).1.trans (at_boot.mp ⟨hc',rfl⟩).1.symm

theorem cached_boot (h : GoodDisk sb s) (i : ℕ) :
    cached (boot s).fs i = ⟨if i = ROOTINO then 1 else 0, false, false⟩ := by
  by_cases hi : i = ROOTINO
  · rw [if_pos hi,h.wf.cached_eq (at_boot.mpr ⟨rfl,hi⟩)]
    rfl
  · rw [if_neg hi]
    exact cached_of_not_at fun c hc => hi (at_boot.mp hc).2

def bootView : View :=
  ⟨fun _ => none, fun p => if p = initproc then some ROOTINO else none⟩

theorem viewOf_boot : (boot s).viewOf = bootView := by
  refine View.ext rfl (funext fun p => ?_)
  change ((boot s).cwd p).map (fun c => ((boot s).fs.inode c).inum) = bootView.cwd p
  by_cases hp : p = initproc
  · subst hp
    rfl
  · rw [show (boot s).cwd p = none from if_neg hp,show bootView.cwd p = none from if_neg hp]
    rfl

theorem bootView_cwd {p : PSlot} (hp : bootView.cwd p = some i) : p = initproc ∧ i = ROOTINO := by
  by_cases hinit : p = initproc
  · rw [show bootView.cwd p = some ROOTINO from if_pos hinit] at hp
    exact ⟨hinit,(Option.some.inj hp).symm⟩
  · rw [show bootView.cwd p = none from if_neg hinit] at hp
    cases hp

theorem tally_none {ι α : Type} [Fintype ι] [DecidableEq α] (a : α) :
    tally (fun _ : ι => (none : Option α)) a = 0 := by
  apply Nat.eq_zero_of_not_pos
  intro hpos
  obtain ⟨x,hx⟩ := tally_pos.mp hpos
  cases hx

theorem tally_bootView (i : ℕ) : tally bootView.cwd i = if ROOTINO = i then 1 else 0 := by
  have hfun : bootView.cwd =
      Function.update (fun _ => none) initproc (some ROOTINO) := by
    funext p
    by_cases hp : p = initproc
    · rw [hp,Function.update_self]
      rfl
    · rw [Function.update_of_ne hp]
      exact if_neg hp
  rw [hfun,tally_fill rfl,tally_none,Nat.zero_add]

theorem GoodDisk.krep (h : GoodDisk sb s) :
    KRep sb (boot s) (treeOf (boot s).fs) (boot s).viewOf ∅ [] [] := by
  rw [viewOf_boot]
  refine ⟨⟨h.wf,rfl,fun _ => rfl,?_,?_,?_⟩,?_,?_,fun _ _ => rfl,?_,nofun,?_,?_,?_⟩
  · intro i
    rw [cached_boot h]
    simp
  · intro i hi
    rcases hi with hi | ⟨hal,hlink⟩
    · cases hi
    · have hal' : (s.dinode i).type ≠ .free := by
        rw [← node_type]
        exact hal
      have hnode : (node s i).nlink = (s.dinode i).nlink := by rw [node_of_alloc hal']
      exact absurd (hnode.symm.trans hlink) (h.linked i hal')
  · intro c i hc
    rcases hc with hc | ⟨f,hf,-⟩ | ⟨p,hp,hcwd⟩
    · cases hc
    · cases hf
    · obtain ⟨rfl,hi⟩ := bootView_cwd hp
      exact at_boot.mpr ⟨(Option.some.inj hcwd).symm,hi⟩
  · intro i
    have hrefs : (treeOf (boot s).fs).refs i = if i = ROOTINO then 1 else 0 := by
      change (cached (boot s).fs i).refs = _
      rw [cached_boot h]
    rw [hrefs,tally_bootView,show tally bootView.file i = 0 from tally_none i]
    simp only [eq_comm (a := i),List.countP_nil,Nat.zero_add,Nat.add_zero]
  · exact fun f => ⟨nofun,fun hne => absurd rfl hne⟩
  · exact fun _ => Nat.two_pow_pos 32
  · intro p
    by_cases hp : p = initproc
    · subst hp
      exact ⟨nofun,nofun⟩
    · exact ⟨fun _ => if_neg hp,fun _ => if_neg hp⟩
  · intro p i hp
    obtain ⟨-,rfl⟩ := bootView_cwd hp
    change (node s ROOTINO).type = .dir
    rw [node_type]
    exact h.root
  · intro f
    change 0 = tally (fun _ => none) f + _
    rw [tally_none]
    rfl

theorem idle_boot : (boot s).Idle := by
  intro p hgone
  have hne : p ≠ initproc := by
    rintro rfl
    rcases hgone with hg | hg
    · cases hg
    · cases hg
  exact ⟨if_neg hne,fun _ => rfl⟩

theorem GoodDisk.kinv (h : GoodDisk sb s) (hJ : J (treeOf (boot s).fs)) : KInv sb J (boot s) :=
  ⟨h.krep,idle_boot,hJ⟩

theorem ok_all (k : Kernel) (a : Call) : Ok .all k a := by
  cases a with
  | «open» p path omode => exact ⟨fun _ _ _ => trivial,fun _ _ _ => trivial⟩
  | write p fd src | link p old new => exact fun _ _ _ _ => trivial
  | mkdir p path | mknod p path major minor | unlink p path => exact fun _ _ => trivial
  | read | close | dup | chdir | fork | exit | createContainer | store | stack | table => trivial

theorem GoodDisk.exec (h : GoodDisk sb s) {as : List Call} {k : Kernel}
    (hrun : exec (step sb) (boot s) as = some k) : KInv sb (fun _ => True) k := by
  exact (h.kinv trivial).exec (law_all sb) trivial (meets_of_forall ok_all _ _) hrun

theorem KInv.free_of_unused {k : Kernel} (h : KInv sb J k) (hnlink : (node k.fs i).nlink = 0)
    (hfd : ∀ p fd f, k.ofile (p, fd) = some f → k.viewOf.file f ≠ some i)
    (hcwd : ∀ p, k.viewOf.cwd p ≠ some i) : (node k.fs i).type = .free := by
  by_contra hal
  have hrefs := h.rep.rep.orphan_refs (i := i) ⟨hal,hnlink⟩
  rw [h.rep.refs,List.countP_nil,Nat.add_zero] at hrefs
  have hcases : 0 < tally k.viewOf.file i ∨ 0 < tally k.viewOf.cwd i := by omega
  rcases hcases with hfile | hproc
  · obtain ⟨f,hf⟩ := tally_pos.mp hfile
    have hopen : 0 < tally k.ofile f := by
      by_contra hnone
      have href := h.rep.fdrefs f
      rw [List.count_nil,Nat.add_zero] at href
      have hclosed := h.rep.closed f (by omega)
      rw [hclosed] at hf
      cases hf
    obtain ⟨⟨p,fd⟩,hp⟩ := tally_pos.mp hopen
    exact hfd p fd f hp hf
  · obtain ⟨p,hp⟩ := tally_pos.mp hproc
    exact hcwd p hp

/-- After every run from a good disk, every block number of an allocated inode stands in one place,
in the data area, marked as used; the other blocks of the data area are marked as free; and no call
frees a free block. -/
theorem blocks_owned_once (h : GoodDisk sb s) {as : List Call} {k : Kernel}
    (hrun : exec (step sb) (boot s) as = some k) :
    Owns sb k.fs.dinode k.fs.block k.fs.bitmap ∧
      ∀ a, k.Enabled a → Call.run sb a k ≠ .error (.panic "freeing free block") := by
  have hinv := h.exec hrun
  refine ⟨hinv.rep.rep.wf.disk.owns,fun a hen hstop => ?_⟩
  have hwp := hinv.run (E := (· ≠ .panic "freeing free block")) (fun _ hne _ => hne) (law_all sb)
    trivial (fun _ _ hno => absurd (by decide) hno) hen (ok_all k a)
  exact hwp.of_error hstop rfl

theorem goodDisk_mkfs : GoodDisk .mkfs mkfs := by
  refine ⟨diskOk_mkfs,rfl,fun i hi => ?_⟩
  by_cases hroot : i = ROOTINO
  · subst hroot
    decide
  · exact absurd (congrArg Dinode.type (if_neg hroot : mkfs.dinode i = .fresh .free)) hi

/-- The first process makes a directory and a file, writes to the file, and removes the
directory. -/
def makeAndRemove : List Call :=
  [.table (.schedule initproc), .mkdir initproc [97],
    .open initproc [98] (O_CREATE ||| O_RDWR), .write initproc 0 [1, 2, 3],
    .unlink initproc [97]]

theorem blocks_owned_once_makeAndRemove :
    ∃ k, exec (step .mkfs) (boot mkfs) makeAndRemove = some k ∧
      Owns .mkfs k.fs.dinode k.fs.block k.fs.bitmap ∧ k.fs.bitmap (nmeta + 2) = true := by
  have hrun : (exec (step .mkfs) (boot mkfs) makeAndRemove).map
      (fun k => k.fs.bitmap (nmeta + 2)) = some true := by decide +kernel
  obtain ⟨k,hk,hbit⟩ := Option.map_eq_some_iff.mp hrun
  exact ⟨k,hk,(blocks_owned_once goodDisk_mkfs hk).1,hbit⟩

end Xv6Container.Kernel
