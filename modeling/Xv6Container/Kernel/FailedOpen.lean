import Xv6Container.Kernel.Disk
import Xv6Container.Kernel.Outcome

/-! # An open that fails -/

namespace Xv6Container.Kernel

open Prog Fs Run Option

variable {sb : Superblock} {k k' : Kernel} {s : Fs.State} {T T' : Tree} {V : View} {i : ℕ}
  {p : PSlot} {path : Path} {omode : UInt32} {c : ISlot}

/-- The entries of all directories on the disk: the directory, the name and the inode. -/
def entries (s : Fs.State) : Set (ℕ × Name × ℕ) :=
  { x | (node s x.1).type = .dir ∧ x.2.2 ≠ 0 ∧
    ∃ n < (node s x.1).slots, (node s x.1).dirent n = ⟨x.2.2, x.2.1⟩ }

/-- The descriptors of `p`, all reference counts, the registries and the directories are as
before. -/
structure Unchanged (p : PSlot) (k k' : Kernel) : Prop where
  ofile : ∀ fd, k'.ofile (p, fd) = k.ofile (p, fd)
  fileRef : ∀ f, (k'.file f).ref = (k.file f).ref
  inodeRef : ∀ c, (k'.fs.inode c).ref = (k.fs.inode c).ref
  files : k'.files = k.files
  allFiles : k'.allFiles = k.allFiles
  entries : entries k'.fs = entries k.fs

/-- A call that creates finds no directory, or finds the name taken, and a call that is to copy a
file cannot open it or has no descriptor for it. -/
def Harmless (k : Kernel) (p : PSlot) (path : Path) (omode : UInt32) : Prop :=
  (creates omode = true →
    entryAt (treeOf k.fs).node (k.viewOf.dir p) (k.target p path omode) = none) ∧
  (k.copies p path omode = true →
    Misses (treeOf k.fs) (k.viewOf.dir p) path omode ∨ k.Full p)

theorem KRep.slot_ref_le (h : KRep sb k T V ∅ [] []) (h' : KRep sb { k with fs := s } T' V ∅ [] [])
    (hc : 0 < (k.fs.inode c).ref) : (s.inode c).ref = (k.fs.inode c).ref := by
  have hat : At k.fs c (k.fs.inode c).inum := ⟨hc,rfl⟩
  set i := (k.fs.inode c).inum
  have hrefs : T.refs i = (k.fs.inode c).ref := by
    rw [← h.rep.refs,h.rep.wf.cached_eq hat]
  have hcount := h.refs i
  rw [List.countP_nil,Nat.add_zero] at hcount
  have hpointer : ∃ c', (c', i) ∈ held k V [] := by
    by_cases hfile : 0 < tally V.file i
    · obtain ⟨f,hf⟩ := tally_pos.mp hfile
      exact ⟨_,KRep.file_mem hf⟩
    · have hcwd : 0 < tally V.cwd i := by omega
      obtain ⟨q,hq⟩ := tally_pos.mp hcwd
      obtain ⟨c',hc'⟩ : ∃ c', k.cwd q = some c' := by
        refine ne_none_iff_exists'.mp fun hn => ?_
        rw [(h.cwd_none q).mp hn] at hq
        cases hq
      exact ⟨c',.inr (.inr ⟨q,hq,hc'⟩)⟩
  obtain ⟨c',hmem⟩ := hpointer
  have hold := h.rep.slot hmem
  obtain rfl : c' = c := h.rep.wf.uniq c' c hold.ref_pos hc hold.inum
  have hnew : At s c' i := h'.rep.slot hmem
  have hrefs' : T'.refs i = (s.inode c').ref := by
    rw [← h'.rep.refs,h'.rep.wf.cached_eq hnew]
  have hcount' := h'.refs i
  rw [List.countP_nil,Nat.add_zero] at hcount'
  omega

theorem KRep.slot_ref_eq (h : KRep sb k T V ∅ [] []) (h' : KRep sb { k with fs := s } T' V ∅ [] [])
    (c : ISlot) : (s.inode c).ref = (k.fs.inode c).ref := by
  by_cases hc : 0 < (k.fs.inode c).ref
  · exact h.slot_ref_le h' hc
  · by_cases hc' : 0 < (s.inode c).ref
    · exact (h'.slot_ref_le (s := k.fs) h hc').symm
    · omega

theorem KRep.unchanged (h : KRep sb k T V ∅ [] []) (h' : KRep sb { k with fs := s } T' V ∅ [] [])
    (hnode : T'.node = T.node) : Unchanged p k { k with fs := s } where
  ofile _ := rfl
  fileRef _ := rfl
  inodeRef := h.slot_ref_eq h'
  files := rfl
  allFiles := rfl
  entries := by
    have hsame : node s = node k.fs := by
      rw [h.rep.node,← hnode]
      exact h'.rep.node
    rw [Kernel.entries,Kernel.entries,hsame]

theorem entryAt_eq_none_of_taken (h : Rep.Taken T i path .file) : entryAt T.node i path = none := by
  rw [entryAt]
  cases hp : resolveParent T.node i path with
  | none => rfl
  | some q =>
    obtain ⟨n,hn,-⟩ := h q.1 q.2 hp
    simp [hn]

theorem changed_of_created {d : ℕ} {name : Name} (h : KRep sb k T V ∅ [] [])
    (h' : KRep sb k' T' V ∅ [] []) (hnode : T'.node = (T.create d name i .file 0 0).node)
    (hdir : (T.node d).type = .dir) (hfind : (T.node d).find name = none) (h0 : 0 < i)
    (hi : i < 2 ^ 16) : ¬ Unchanged p k k' := by
  intro hsame
  have hparent : node k'.fs d = (T.node d).addEntry name i := by
    rw [h'.rep.node,hnode,Tree.create_node_parent,if_neg (by decide)]
  have hnew : (d, name, i) ∈ entries k'.fs := by
    obtain ⟨hlt,-⟩ := Node.find_eq_some.mp (Node.find_addEntry_self hi h0.ne' hfind)
    refine ⟨?_,h0.ne',(T.node d).freeSlot,?_⟩
    · rw [hparent]
      exact hdir
    · rw [hparent]
      exact ⟨hlt,Node.dirent_addEntry_self hi⟩
  rw [hsame.entries] at hnew
  obtain ⟨-,-,n,hn,hent⟩ := hnew
  rw [h.rep.node] at hn hent
  have hname := Node.find_eq_none.mp hfind n hn
  rw [hent] at hname
  exact hname h0.ne' rfl

theorem KInv.failed_open (h : KInv sb (fun _ => True) k)
    (hopen : sysOpen sb p path omode k = .ok (none, k')) :
    Unchanged p k k' ↔ Harmless k p path omode := by
  have hout := h.rep.sysOpen_outcome hopen
  have hcreates : creates omode = true → k.first p path omode = k.target p path omode := by
    intro hcr
    exact (target_of_not_copies (by simp [copies,hcr])).symm
  cases hout with
  | missed s hmiss hk =>
    refine iff_of_true (h.rep.unchanged hk rfl) ⟨fun hcr => ?_,fun hcopy => .inl ?_⟩
    · rw [Misses,if_pos hcr,hcreates hcr] at hmiss
      exact entryAt_eq_none_of_taken hmiss
    · rw [first_of_copies hcopy] at hmiss
      exact hmiss
  | full s hfull ho hk =>
    generalize hb : creates omode = b at ho
    cases ho with
    | plain hres hal =>
      refine iff_of_true (h.rep.unchanged hk rfl) ⟨fun hcr => ?_,fun _ => .inr hfull⟩
      rw [hb] at hcr
      cases hcr
    | there hp hk' hfile =>
      refine iff_of_true (h.rep.unchanged hk rfl) ⟨fun hcr => ?_,fun _ => .inr hfull⟩
      rw [entryAt,← hcreates hb,hp]
      simp [hk']
    | made hp hk' h0 hlt hfree =>
      refine iff_of_false (changed_of_created h.rep hk rfl (walkParent_dir hp) hk' h0
        (hlt.trans_le sb.ninodes_le)) fun hsafe => ?_
      have hnone := hsafe.1 hb
      rw [entryAt,← hcreates hb,hp] at hnone
      simp [hk'] at hnone
  | @stuck _ fd _ _ _ hcopy hfree hres hmode hg =>
    refine iff_of_false (fun hsame => ?_) fun hsafe => ?_
    · have hfd := hsame.ofile fd
      rw [hg.unused,hg.ofile,Function.update_self] at hfd
      cases hfd
    · rcases hsafe.2 hcopy with hmiss | hfull
      · obtain ⟨-,-,hcr,-,-⟩ := target_of_copies hcopy
        rw [Misses,hcr,if_neg Bool.false_ne_true] at hmiss
        exact (hmiss _ hres).2 (hmode (hmiss _ hres).1)
      · exact hfree hfull

/-- After every run from a good disk, an `open` that returns -1 has changed nothing if and only if
it failed before it had created a file or taken a descriptor. -/
theorem failed_open_unchanged_iff (hdisk : GoodDisk sb s) {as : List Call}
    (hrun : exec (step sb) (boot s) as = some k)
    (hopen : sysOpen sb p path omode k = .ok (none, k')) :
    Unchanged p k k' ↔ Harmless k p path omode :=
  (hdisk.exec hrun).failed_open hopen

/-- A host's file `f` is made, and the first process goes into container 1. -/
def joinsWithFile : List Call :=
  [.table (.schedule initproc), .open initproc [102] (O_CREATE ||| O_RDWR),
    .createContainer initproc 1, .table (.join initproc 1)]

/-- It opens a file that is not there, and nothing has changed. -/
theorem failed_open_unchanged_missing : ∃ k k', exec (step .mkfs) (boot mkfs) joinsWithFile = some k ∧
    sysOpen .mkfs initproc [103] O_RDONLY k = .ok (none, k') ∧ Unchanged initproc k k' := by
  have hrun : ((exec (step .mkfs) (boot mkfs) joinsWithFile).bind fun k =>
      (result (sysOpen .mkfs initproc [103] O_RDONLY) k).map fun r =>
        (r.1.isNone, (resolve (treeOf k.fs).node (k.viewOf.dir initproc) [103]).isNone)) =
      some (true, true) := by decide +kernel
  obtain ⟨k,hk,hopen⟩ := bind_eq_some_iff.mp hrun
  obtain ⟨⟨r,k'⟩,hr,hv⟩ := map_eq_some_iff.mp hopen
  obtain ⟨hnone,hres⟩ := Prod.mk.inj hv
  obtain rfl : r = none := isNone_iff_eq_none.mp hnone
  refine ⟨k,k',hk,ok_of_result hr,(failed_open_unchanged_iff goodDisk_mkfs hk
    (ok_of_result hr)).mpr ⟨fun hcr => absurd hcr (by decide),fun _ => .inl ?_⟩⟩
  rw [Misses,if_neg (by decide),isNone_iff_eq_none.mp hres]
  intro i hi
  cases hi

/-- It opens `f/`: that is `f` to `namei`, but there is no `f/$1`. -/
theorem failed_open_leaves_descriptor :
    ∃ k k', exec (step .mkfs) (boot mkfs) joinsWithFile = some k ∧
      sysOpen .mkfs initproc [102, 47] O_RDONLY k = .ok (none, k') ∧
      ¬ Unchanged initproc k k' := by
  have hrun : ((exec (step .mkfs) (boot mkfs) joinsWithFile).bind fun k =>
      (result (sysOpen .mkfs initproc [102,47] O_RDONLY) k).map fun r =>
        (r.1.isNone, (k.ofile (initproc, 1)).isNone,
          (r.2.ofile (initproc, 1)).isSome)) = some (true, true, true) := by decide +kernel
  obtain ⟨k,hk,hopen⟩ := bind_eq_some_iff.mp hrun
  obtain ⟨⟨r,k'⟩,hr,hv⟩ := map_eq_some_iff.mp hopen
  obtain ⟨hnone,hv⟩ := Prod.mk.inj hv
  obtain ⟨hbefore,hafter⟩ := Prod.mk.inj hv
  obtain rfl : r = none := isNone_iff_eq_none.mp hnone
  refine ⟨k,k',hk,ok_of_result hr,fun hsame => ?_⟩
  rw [hsame.ofile 1,isNone_iff_eq_none.mp hbefore] at hafter
  cases hafter

end Xv6Container.Kernel
