import Xv6Container.Fs.Counts
import Xv6Container.Kernel.Disk

/-! # Files without names -/

namespace Xv6Container.Kernel

open Prog Fs Run

variable {sb : Superblock} {s : Fs.State} {k : Kernel} {T : Tree} {as : List Call} {i : ℕ} {x : Node}

/-- Inode `i` is in use, and nothing is written to it. -/
def Guards.sparing (i : ℕ) : Guards where
  create N d _ := (N i).type ≠ .free ∧ d ≠ i
  link _ d _ := d ≠ i
  unlink _ d _ _ := d ≠ i
  write j := j ≠ i
  free := True

/-- Inode `i` is freed, or it is node `x` with any link count. -/
def Lasts (x : Node) (i : ℕ) (T : Tree) : Prop :=
  (T.node i).type = .free ∨ ∃ n, T.node i = { x with nlink := n }

theorem Lasts.addLinks {n : Int16} (h : Lasts x i T) :
    Lasts x i (T.setNode i ((T.node i).addLinks n)) := by
  refine h.imp (fun hfree => ?_) fun hsame => ?_
  · rw [Tree.setNode_self,Node.addLinks_type]
    exact hfree
  · obtain ⟨m,hm⟩ := hsame
    rw [Tree.setNode_self,hm]
    exact ⟨m+n,rfl⟩

theorem Lasts.setNode {j : ℕ} (h : Lasts x i T) (y : Node) (hj : j ≠ i) :
    Lasts x i (T.setNode j y) := by
  rw [Lasts,Tree.setNode_of_ne y hj.symm]
  exact h

theorem law_lasts (sb : Superblock) (x : Node) (i : ℕ) : Law sb (.sparing i) (Lasts x i) where
  get _ _ h _ := h
  drop _ _ h _ _ := h
  free T j _ h _ _ := by
    by_cases hj : j = i
    · subst hj
      left
      rw [Tree.setNode_self]
      rfl
    · exact Lasts.setNode (T := T.drop j) h _ hj
  write T j off src hG h _ _ := h.setNode _ hG
  create T d name j type major minor hG h _ _ _ _ hfree _ := by
    have hj : j ≠ i := by
      intro hji
      exact hG.1 (hji ▸ hfree)
    exact (h.setNode _ hj).setNode _ hG.2
  link T d name j hG h _ _ _ _ _ := by
    rw [Tree.link]
    by_cases hj : j = i
    · subst hj
      exact h.addLinks.setNode _ hG
    · exact (h.setNode _ hj).setNode _ hG
  unlink T d name m j hG h _ _ _ _ _ hjd _ _ _ := by
    rw [Tree.unlink]
    by_cases hj : j = i
    · subst hj
      rw [Tree.setNode_comm _ _ hG]
      exact h.addLinks.setNode _ hG
    · exact (h.setNode _ hG).setNode _ hj

/-- The call writes to inode `i`: through a descriptor, as the copy that a container gets of a file,
or as the directory in which an entry is made or removed. -/
def WritesTo (k : Kernel) (i : ℕ) : Call → Prop
  | .open p path omode =>
    (creates omode || k.copies p path omode) ∧
      i ∈ entryAt (node k.fs) (k.viewOf.dir p) (k.target p path omode) ∨
    k.copies p path omode ∧
      resolve (node k.fs) (k.viewOf.dir p) (k.target p path omode) = some i
  | .write p fd _ => ∃ x ∈ k.argfd p fd, k.viewOf.file x.2 = some i
  | .mkdir p path | .mknod p path _ _ | .link p _ path =>
    i ∈ entryAt (node k.fs) (k.viewOf.dir p) path
  | .unlink p path => ∃ x ∈ unlinkAt (node k.fs) (k.viewOf.dir p) path, x.1 = i
  | _ => False

theorem ok_of_not_writesTo {a : Call} (hal : (node k.fs i).type ≠ .free) (h : ¬ WritesTo k i a) :
    Ok (.sparing i) k a := by
  cases a with
  | «open» p path omode =>
    refine ⟨fun hc d hd => ⟨hal,fun hdi => ?_⟩,fun hc j hj hji => ?_⟩
    · exact h (.inl ⟨hc,hdi ▸ hd⟩)
    · subst hji
      rcases hj with hj | hj
      · exact h (.inr ⟨hc,hj⟩)
      · exact hal hj
  | write p fd src =>
    intro y hy j hj hji
    exact h ⟨y,hy,hji ▸ hj⟩
  | mkdir p path | mknod p path => exact fun d hd => ⟨hal,fun hdi => h (hdi ▸ hd)⟩
  | link p old new => exact fun _ _ d hd hdi => h (hdi ▸ hd)
  | unlink p path => exact fun y hy hyi => h ⟨y,hy,hyi⟩
  | read | close | dup | chdir | fork | exit | createContainer | store | stack | table => trivial

/-- After every run, an inode with a descriptor is allocated, shares no block with another, and the
next call, if it does not write to the inode and leaves it a descriptor, changes at most its link
count. An inode with no links, no descriptor and no process in it is free, and blocks are in use
only for allocated inodes. -/
theorem unlinked_until_last_close (h : GoodDisk sb s)
    (hrun : exec (step sb) (boot s) as = some k) :
    (∀ p fd f i, k.ofile (p, fd) = some f → k.viewOf.file f = some i →
      (node k.fs i).type ≠ .free ∧
      (∀ m j n, placeAddr k.fs.dinode k.fs.block (i, m) ≠ 0 →
        placeAddr k.fs.dinode k.fs.block (i, m) = placeAddr k.fs.dinode k.fs.block (j, n) →
        i = j) ∧
      ∀ a k', step sb k a = some k' → ¬ WritesTo k i a →
        (∃ p fd f, k'.ofile (p, fd) = some f ∧ k'.viewOf.file f = some i) →
        ∃ n, node k'.fs i = { node k.fs i with nlink := n }) ∧
    (∀ i, (node k.fs i).nlink = 0 →
      (∀ p fd f, k.ofile (p, fd) = some f → k.viewOf.file f ≠ some i) →
      (∀ p, k.viewOf.cwd p ≠ some i) → (node k.fs i).type = .free) ∧
    ∀ b, sb.dataStart ≤ b → b < sb.size → k.fs.bitmap b = true →
      ∃ i m, (node k.fs i).type ≠ .free ∧ placeAddr k.fs.dinode k.fs.block (i, m) = b := by
  have hinv := h.exec hrun
  have howns := hinv.rep.rep.wf.disk.owns
  refine ⟨fun p fd f i hfd hf => ?_,fun i => hinv.free_of_unused,fun b hlo hhi hb => ?_⟩
  · have hal := hinv.rep.holds_alloc (.inl ⟨f,hf⟩)
    refine ⟨hal,fun m j n h0 heq => (Prod.mk.inj (howns.inj _ _ h0 heq)).1,?_⟩
    intro a k' hstep hno hopen
    obtain ⟨-,-,f',-,hf'⟩ := hopen
    have hlasts : KInv sb (Lasts (node k.fs i) i) k :=
      ⟨hinv.rep,hinv.idle,.inr ⟨(node k.fs i).nlink,rfl⟩⟩
    have hnext := hlasts.step (law_lasts sb _ i) trivial (ok_of_not_writesTo hal hno) hstep
    exact hnext.law.resolve_left (hnext.rep.holds_alloc (.inl ⟨f',hf'⟩))
  · obtain ⟨⟨i,m⟩,hm⟩ := howns.owned b hlo hhi hb
    refine ⟨i,m,?_,hm⟩
    rw [node_type]
    have hb0 : b ≠ 0 := (sb.dataStart_pos.trans_le hlo).ne'
    exact (alloc_of_placeAddr (hm ▸ hb0)).1

/-- The first process makes a file `b`, writes to it, and removes its only name. -/
def writesAndUnlinks : List Call :=
  [.table (.schedule initproc), .open initproc [98] (O_CREATE ||| O_RDWR),
    .write initproc 0 [1, 2, 3], .unlink initproc [98]]

theorem unlinked_until_last_close_reused :
    ∃ k k', exec (step .mkfs) (boot mkfs) writesAndUnlinks = some k ∧
      step .mkfs k (.mkdir initproc [98]) = some k' ∧ (node k.fs 2).nlink = 0 ∧
      ∃ n, node k'.fs 2 = { node k.fs 2 with nlink := n } := by
  have hrun : ((exec (step .mkfs) (boot mkfs) writesAndUnlinks).bind fun k =>
      (step .mkfs k (.mkdir initproc [98])).map fun k' =>
        ((k.ofile (initproc, 0)).map k.viewOf.file, (node k.fs 2).nlink,
          entryAt (node k.fs) (k.viewOf.dir initproc) [98],
          (k'.ofile (initproc, 0)).map k'.viewOf.file)) =
      some (some (some 2), 0, some ROOTINO, some (some 2)) := by decide +kernel
  obtain ⟨k,hk,hnext⟩ := Option.bind_eq_some_iff.mp hrun
  obtain ⟨k',hk',hval⟩ := Option.map_eq_some_iff.mp hnext
  simp only [Prod.mk.injEq] at hval
  obtain ⟨hfd,hnlink,hentry,hfd'⟩ := hval
  obtain ⟨f,hf,hi⟩ := Option.map_eq_some_iff.mp hfd
  obtain ⟨f',hf',hi'⟩ := Option.map_eq_some_iff.mp hfd'
  have hno : ¬ WritesTo k 2 (.mkdir initproc [98]) := by
    rw [WritesTo,hentry]
    decide
  have hlives := ((unlinked_until_last_close goodDisk_mkfs hk).1 _ _ f 2 hf hi).2.2
  exact ⟨k,k',hk,hk',hnlink,hlives _ k' hk' hno ⟨_,_,f',hf',hi'⟩⟩

end Xv6Container.Kernel
