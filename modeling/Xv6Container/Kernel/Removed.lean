import Xv6Container.Fs.Counts
import Xv6Container.Kernel.Disk

/-!
# Removed directories

A file can be made in a directory that has been unlinked, and the directory above it can be
removed too. Where neither is done, link counts are exact and no path leads to a free inode.
-/

namespace Xv6Container.Kernel

open Prog Fs Run

variable {sb : Superblock} {s : Fs.State} {k : Kernel} {T : Tree} {as : List Call} {d e i j : ℕ}
  {name : Name} {type : FType} {major minor : Int16}

theorem creates_of (hd : (T.node d).type = .dir) (hk : (T.node d).find name = none) (h0 : 0 < i)
    (hlt : i < sb.ninodes) (hfree : (T.node i).type = .free) :
    Creates sb.ninodes T.node d name i := ⟨hd,hk,h0.ne',hlt,hfree⟩

theorem unlinks_of {m : ℕ} (h : Linked sb.ninodes T.node) (hd : (T.node d).type = .dir)
    (hdot : name ≠ Name.dot) (hdotdot : name ≠ Name.dotdot) (hk : (T.node d).find name = some m)
    (hi : i = ((T.node d).dirent m).inum) (hid : i ≠ d) (hal : (T.node i).type ≠ .free)
    (hlinks : ¬ (T.node i).nlink < 1) (hempty : (T.node i).type = .dir → (T.node i).Empty) :
    Unlinks T.node d m i := by
  have hname := (Node.find_eq_some.mp hk).2.2.1
  refine ⟨hasEntry_of_find hd hk,?_,hi.symm,hid,hal,Node.not_nlink_lt_one.mp hlinks,hempty⟩
  exact (h.dirs d hd).2.two_le (by rw [hname]; exact hdot) (by rw [hname]; exact hdotdot)

/-- Entries are made in directories that have links, and no count is exceeded. -/
def Guards.counts : Guards where
  create N d type := (N d).nlink ≠ 0 ∧ MayEnter (N d) type
  link N d i := (N d).nlink ≠ 0 ∧ (N i).nlink.toInt < 32767
  unlink _ _ _ _ := True
  write _ := True
  free := True

theorem law_counts (sb : Superblock) : Law sb .counts fun T =>
    Linked sb.ninodes T.node ∧ Exact sb.ninodes T.node where
  get _ _ h _ := h
  drop _ _ h _ _ := h
  free T i _ h ho _ := ⟨Linked.freed (T := T) h.1 ho,Exact.freed (T := T) h.1 ho h.2⟩
  write T i off src _ h hal hdir := ⟨h.1.write hal hdir,Exact.write h.1 hal hdir h.2⟩
  create T d name i type major minor hG h hd hk h0 hlt hfree htype := by
    have hc := creates_of hd hk h0 hlt hfree
    exact ⟨h.1.create sb.ninodes_le hc hG.2 htype,Exact.create h.1 sb.ninodes_le hc hG.2 h.2 hG.1⟩
  link T d name i hG h hd hk hal hdir _ := by
    have hl : AddsLink T.node d name i := ⟨hd,hk,hal,hdir,hG.2⟩
    exact ⟨h.1.link sb.ninodes_le hl,Exact.link h.1 sb.ninodes_le hl h.2 hG.1⟩
  unlink T d name m i _ h hd hdot hdotdot hk hi hid hal hlinks hempty := by
    have hu := unlinks_of h.1 hd hdot hdotdot hk hi hid hal hlinks hempty
    exact ⟨h.1.unlink hu,Exact.unlink h.1 hu h.2⟩

/-- The call makes no entry in a removed directory, and no count goes beyond 32767. -/
def EntersLinked (k : Kernel) : Call → Prop
  | .open p path omode => creates omode || k.copies p path omode →
      ∀ d ∈ entryAt (node k.fs) (k.viewOf.dir p) (k.target p path omode), (node k.fs d).nlink ≠ 0
  | .mkdir p path => ∀ d ∈ entryAt (node k.fs) (k.viewOf.dir p) path,
      (node k.fs d).nlink ≠ 0 ∧ (node k.fs d).nlink.toInt < 32767
  | .mknod p path _ _ => ∀ d ∈ entryAt (node k.fs) (k.viewOf.dir p) path,
      (node k.fs d).nlink ≠ 0
  | .link p old new => ∀ i ∈ resolve (node k.fs) (k.viewOf.dir p) old,
      ∀ d ∈ entryAt (node k.fs) (k.viewOf.dir p) new,
        (node k.fs d).nlink ≠ 0 ∧ (node k.fs i).nlink.toInt < 32767
  | _ => True

theorem EntersLinked.ok {a : Call} (h : EntersLinked k a) : Ok .counts k a := by
  cases a with
  | «open» p path omode =>
    exact ⟨fun hc d hd => ⟨h hc d hd,fun hdir => by cases hdir⟩,fun _ _ _ => trivial⟩
  | write => exact fun _ _ _ _ => trivial
  | mkdir p path => exact fun d hd => ⟨(h d hd).1,fun _ => h d hd⟩
  | mknod p path => exact fun d hd => ⟨h d hd,fun hdir => by cases hdir⟩
  | link p old new => exact fun i hi d hd => h i hi d hd
  | unlink => exact fun _ _ => trivial
  | read | close | dup | chdir | fork | exit | createContainer | store | stack | table => trivial

instance (k : Kernel) : ∀ a, Decidable (EntersLinked k a)
  | .open .. => inferInstanceAs (Decidable (_ → _))
  | .mkdir .. | .mknod .. | .link .. => inferInstanceAs (Decidable (∀ d ∈ (_ : Option ℕ), _))
  | .read .. | .write .. | .close .. | .dup .. | .unlink .. | .chdir .. | .fork .. | .exit ..
  | .createContainer .. | .store .. | .stack .. | .table .. => isTrue trivial

/-- After every run in which no entry is made in a removed directory, the link count of every
allocated inode is the number of links to it, and an inode that is neither linked nor in use is
free. -/
theorem link_counts_exact (h : GoodDisk sb s) (hl : Linked sb.ninodes (node s))
    (hx : Exact sb.ninodes (node s)) (hok : Meets (step sb) EntersLinked (boot s) as)
    (hrun : exec (step sb) (boot s) as = some k) :
    (∀ i, (node k.fs i).type ≠ .free →
      (node k.fs i).nlink.toInt = linksTo sb.ninodes (node k.fs) i) ∧
    ∀ i, linksTo sb.ninodes (node k.fs) i = 0 →
      (∀ p fd f, k.ofile (p, fd) = some f → k.viewOf.file f ≠ some i) →
      (∀ p, k.viewOf.cwd p ≠ some i) → (node k.fs i).type = .free := by
  have hinv : KInv sb (fun T => Linked sb.ninodes T.node ∧ Exact sb.ninodes T.node) k :=
    (h.kinv ⟨hl,hx⟩).exec (law_counts sb) trivial (hok.mono fun _ _ ha => ha.ok) hrun
  have hexact : ∀ i, (node k.fs i).type ≠ .free →
      (node k.fs i).nlink.toInt = linksTo sb.ninodes (node k.fs) i := hinv.law.2.count
  refine ⟨hexact,fun i hlinks hfd hcwd => ?_⟩
  by_contra hal
  have hnlink : (node k.fs i).nlink = 0 := by
    rw [Node.nlink_eq_zero,hexact i hal]
    exact_mod_cast hlinks
  exact hal (hinv.free_of_unused hnlink hfd hcwd)

theorem linked_mkfs : Linked Superblock.mkfs.ninodes (node mkfs) ∧
    Exact Superblock.mkfs.ninodes (node mkfs) := by
  have hroot : (node mkfs ROOTINO).slots = 32 := rfl
  have hrest : ∀ m < 32, 2 ≤ m → ((node mkfs ROOTINO).dirent m).inum = 0 := by decide +kernel
  have hup : (node mkfs ROOTINO).dirent 1 = ⟨ROOTINO,Name.dotdot⟩ :=
    Dirent.ext (by decide +kernel) (by decide +kernel)
  refine linked_of_root (by decide) rfl ⟨?_,?_,by rw [hup],?_,?_⟩ ?_ ?_ rfl ?_
  · rw [hroot]
    decide
  · exact Dirent.ext (by decide +kernel) (by decide +kernel)
  · rw [Node.parent,hup]
    decide
  · intro m h2 hm h0
    exact absurd (hrest m (hroot ▸ hm) h2) h0
  · intro m h2 hm
    exact hrest m (hroot ▸ hm) h2
  · rw [Node.parent,hup]
  · intro i hi
    rw [node_type,show mkfs.dinode i = .fresh .free from if_neg hi]
    rfl

/-- The first process makes a directory `a`, a file `f` in it and a second link `g` to the file,
goes to `a`, and removes the file there under its first name. -/
def linksAndUnlinks : List Call :=
  [.table (.schedule initproc), .mkdir initproc [97],
    .open initproc [97, 47, 102] (O_CREATE ||| O_RDWR),
    .link initproc [97, 47, 102] [103], .chdir initproc [97],
    .unlink initproc [102]]

theorem link_counts_exact_linksAndUnlinks :
    ∃ k, exec (step .mkfs) (boot mkfs) linksAndUnlinks = some k ∧
      (node k.fs 3).type = .file ∧ (node k.fs 3).nlink.toInt = linksTo NINODES (node k.fs) 3 := by
  have hok : Meets (step .mkfs) EntersLinked (boot mkfs) linksAndUnlinks := by decide +kernel
  have hrun : (exec (step .mkfs) (boot mkfs) linksAndUnlinks).map
      (fun k => (node k.fs 3).type) = some .file := by decide +kernel
  obtain ⟨k,hk,htype⟩ := Option.map_eq_some_iff.mp hrun
  have hcounts := link_counts_exact goodDisk_mkfs linked_mkfs.1 linked_mkfs.2 hok hk
  exact ⟨k,hk,htype,hcounts.1 3 (by rw [htype]; decide)⟩

/-- The first process removes the directory `a` it is in, makes a file there, closes it, and goes
back to the root. -/
def createsInRemoved : List Call :=
  [.table (.schedule initproc), .mkdir initproc [97], .chdir initproc [97],
    .unlink initproc [47, 97], .open initproc [102] (O_CREATE ||| O_RDWR),
    .close initproc 0, .chdir initproc [47]]

/-- The file has a link count of 1, no link, and nobody uses it. -/
theorem created_in_removed_counted : GoodDisk .mkfs mkfs ∧ Linked NINODES (node mkfs) ∧
    Exact NINODES (node mkfs) ∧ ∃ k, exec (step .mkfs) (boot mkfs) createsInRemoved = some k ∧
      (node k.fs 3).type = .file ∧ (node k.fs 3).nlink = 1 ∧ linksTo NINODES (node k.fs) 3 = 0 ∧
      (∀ f, k.viewOf.file f = none) ∧ ∀ p, k.viewOf.cwd p ≠ some 3 := by
  have hrun : (exec (step .mkfs) (boot mkfs) createsInRemoved).map (fun k =>
      (((node k.fs 3).type, (node k.fs 3).nlink, linksTo NINODES (node k.fs) 3),
        decide ((∀ f, k.viewOf.file f = none) ∧ ∀ p, k.viewOf.cwd p ≠ some 3))) =
      some ((.file, 1, 0), true) := by decide +kernel
  obtain ⟨k,hk,hval⟩ := Option.map_eq_some_iff.mp hrun
  obtain ⟨hcounts,hfree⟩ := Prod.mk.inj hval
  obtain ⟨htype,hrest⟩ := Prod.mk.inj hcounts
  obtain ⟨hnlink,hlinks⟩ := Prod.mk.inj hrest
  exact ⟨goodDisk_mkfs,linked_mkfs.1,linked_mkfs.2,k,hk,htype,hnlink,hlinks,
    of_decide_eq_true hfree⟩

/-- The inode is not what the `..` of a removed directory refers to. -/
def NotAbove (n : ℕ) (N : ℕ → Node) (i : ℕ) : Prop :=
  (N i).type = .dir → ∀ e < n, (N e).type = .dir → (N e).nlink = 0 → (N e).parent ≠ i

instance (n : ℕ) (N : ℕ → Node) (i : ℕ) : Decidable (NotAbove n N i) :=
  inferInstanceAs (Decidable (_ → ∀ e < n, _))

/-- Directories are made in directories that have links, none is removed that is above a removed
one, and no count is exceeded. -/
def Guards.lookups (sb : Superblock) : Guards where
  create N d type := MayEnter (N d) type
  link N _ i := (N i).nlink.toInt < 32767
  unlink T _ _ i := NotAbove sb.ninodes T.node i
  write _ := True
  free := True

/-- The tree is linked, nothing in use is free, and above a removed directory is one that has not
been removed. -/
structure Upheld (sb : Superblock) (T : Tree) : Prop where
  linked : Linked sb.ninodes T.node
  used : ∀ i, 0 < T.refs i → (T.node i).type ≠ .free
  above : ∀ e, (T.node e).type = .dir → (T.node e).nlink = 0 →
    (T.node (T.node e).parent).type = .dir ∧ (T.node (T.node e).parent).nlink ≠ 0

namespace Upheld

theorem closed (h : Upheld sb T) : T.Closed := by
  refine ⟨h.linked.sound fun e he h0 => ?_,?_,h.used⟩
  · rw [(h.above e he h0).1]
    decide
  · rw [h.linked.root]
    decide

theorem create (h : Upheld sb T) (hc : Creates sb.ninodes T.node d name i)
    (hmay : MayEnter (T.node d) type) (htype : type ≠ .free) :
    Upheld sb (T.create d name i type major minor) := by
  -- a directory that was there keeps its `..`, and keeps being linked
  have hsame : ∀ e, (T.node e).type = .dir →
      ((T.create d name i type major minor).node e).type = .dir ∧
      ((T.create d name i type major minor).node e).parent = (T.node e).parent ∧
      ((T.node e).nlink ≠ 0 → ((T.create d name i type major minor).node e).nlink ≠ 0) ∧
      (((T.create d name i type major minor).node e).nlink = 0 → (T.node e).nlink = 0) := by
    intro e he
    have hei : e ≠ i := by
      rintro rfl
      rw [hc.free] at he
      cases he
    refine ⟨(Tree.create_grows (hc.lt.trans_le sb.ninodes_le) hc.free hc.unnamed e he).1,?_⟩
    by_cases hed : e = d
    · subst hed
      obtain ⟨he0,hok⟩ := h.linked.dirs e he
      have hslot := hok.two_le_freeSlot he0
      rw [Tree.create_node_parent,Node.addEntry_nlink,Node.parent]
      by_cases hdir : type = .dir
      · simp only [if_pos hdir]
        have hslot' : 1 ≠ ((T.node e).addLinks 1).freeSlot := by
          change 1 ≠ (T.node e).freeSlot
          omega
        rw [Node.dirent_addEntry_of_ne hslot']
        have hlinked := (h.linked.nlink_addLinks_one he (hmay hdir).2).2
        exact ⟨rfl,fun _ => hlinked,fun h0 => absurd h0 hlinked⟩
      · simp only [if_neg hdir]
        rw [Node.dirent_addEntry_of_ne (by omega)]
        exact ⟨rfl,id,id⟩
    · rw [Tree.create_node_of_ne hed hei]
      exact ⟨rfl,id,id⟩
  refine ⟨h.linked.create sb.ninodes_le hc hmay htype,fun j hj => ?_,fun e he h0 => ?_⟩
  · have hal := h.used j hj
    have hji : j ≠ i := by
      rintro rfl
      exact hal hc.free
    by_cases hjd : j = d
    · rw [hjd,(hsame d hc.dir).1]
      decide
    · rw [Tree.create_node_of_ne hjd hji]
      exact hal
  have hei : e ≠ i := by
    rintro rfl
    rw [Tree.create_node_new hc.ne,Node.new_nlink] at h0
    cases h0
  have hdir : (T.node e).type = .dir := by
    by_cases hed : e = d
    · rw [hed]
      exact hc.dir
    · rwa [Tree.create_node_of_ne hed hei] at he
  obtain ⟨-,hparent,-,hzero⟩ := hsame e hdir
  obtain ⟨hup,hlink⟩ := h.above e hdir (hzero h0)
  rw [hparent]
  exact ⟨(hsame _ hup).1,(hsame _ hup).2.2.1 hlink⟩

theorem link (h : Upheld sb T) (hl : AddsLink T.node d name i) : Upheld sb (T.link d name i) := by
  have hsame : ∀ e, (T.node e).type = .dir →
      ((T.link d name i).node e).parent = (T.node e).parent ∧
      ((T.link d name i).node e).nlink = (T.node e).nlink := by
    intro e he
    by_cases hed : e = d
    · subst hed
      obtain ⟨he0,hok⟩ := h.linked.dirs e he
      have hslot := hok.two_le_freeSlot he0
      rw [Tree.link_node_parent,Node.parent,Node.dirent_addEntry_of_ne (by omega)]
      exact ⟨rfl,rfl⟩
    · have hei : e ≠ i := by
        rintro rfl
        exact hl.not_dir he
      rw [Tree.link_node_of_ne hed hei]
      exact ⟨rfl,rfl⟩
  refine ⟨h.linked.link sb.ninodes_le hl,fun j hj => ?_,fun e he h0 => ?_⟩
  · rw [hl.node_type]
    exact h.used j hj
  · rw [hl.node_type] at he
    obtain ⟨hparent,hnlink⟩ := hsame e he
    rw [hnlink] at h0
    obtain ⟨hup,hlink⟩ := h.above e he h0
    rw [hparent,hl.node_type,(hsame _ hup).2]
    exact ⟨hup,hlink⟩

theorem unlink {m : ℕ} (h : Upheld sb T) (hu : Unlinks T.node d m i)
    (hfree : NotAbove sb.ninodes T.node i) : Upheld sb (T.unlink d m i) := by
  have hparent : ∀ e, ((T.unlink d m i).node e).parent = (T.node e).parent := by
    intro e
    by_cases hei : e = i
    · subst hei
      rw [Tree.unlink_node_self,Node.addLinks_parent]
    by_cases hed : e = d
    · subst hed
      have htwo := hu.two_le
      rw [Tree.unlink_node_parent hu.ne,Tree.unlinked]
      split
      · rw [Node.addLinks_parent,Node.parent,Node.dirent_setDirent_of_ne (by omega),Node.parent]
      · rw [Node.parent,Node.dirent_setDirent_of_ne (by omega),Node.parent]
    · rw [Tree.unlink_node_of_ne hed hei]
  -- only the removed inode loses its last link
  have hlinked : ∀ e, (T.node e).type = .dir → ¬ (e = i) →
      (((T.unlink d m i).node e).nlink = 0 ↔ (T.node e).nlink = 0) := by
    intro e he hei
    by_cases hed : e = d
    · subst hed
      rw [Tree.unlink_node_parent hu.ne,Tree.unlinked]
      split
      · next hi =>
        obtain ⟨-,hn,hn'⟩ := h.linked.nlink_parent hu hi
        exact iff_of_false hn' hn
      · rw [Node.setDirent_nlink]
    · rw [Tree.unlink_node_of_ne hed hei]
  refine ⟨h.linked.unlink hu,fun j hj => ?_,fun e he h0 => ?_⟩
  · rw [hu.node_type]
    exact h.used j hj
  rw [hu.node_type] at he
  rw [hparent,hu.node_type]
  by_cases hei : e = i
  · subst hei
    rw [(h.linked.child d m e (hu.child he)).2.1]
    refine ⟨hu.entry.dir,fun hd0 => ?_⟩
    rw [hlinked d hu.entry.dir hu.ne.symm] at hd0
    exact (h.linked.nlink_parent hu he).2.1 hd0
  rw [hlinked e he hei] at h0
  obtain ⟨hup,hlink⟩ := h.above e he h0
  refine ⟨hup,fun hup0 => ?_⟩
  have hne : (T.node e).parent ≠ i := by
    intro hpi
    rw [hpi] at hup
    exact hfree hup e (h.linked.lt_of_dir he) he h0 hpi
  rw [hlinked _ hup hne] at hup0
  exact hlink hup0

theorem write {off : ℕ} {src : List UInt8} (h : Upheld sb T) (hal : (T.node i).type ≠ .free)
    (hdir : (T.node i).type ≠ .dir) : Upheld sb (T.setNode i ((T.node i).write off src)) := by
  refine ⟨h.linked.write hal hdir,fun j hj => ?_,fun e he h0 => ?_⟩
  · rw [write_same.1]
    exact h.used j hj
  have hei : e ≠ i := by
    rintro rfl
    rw [write_same.1] at he
    exact hdir he
  rw [write_same.1] at he
  rw [write_same.2] at h0
  rw [write_same.1,write_same.2,Tree.setNode_of_ne _ hei]
  exact h.above e he h0

theorem freed (h : Upheld sb T) (ho : T.Orphan i) (hlast : T.refs i = 1) :
    Upheld sb ((T.drop i).setNode i Node.none) := by
  have hother : ∀ e, e ≠ i → ((T.drop i).setNode i Node.none).node e = T.node e := fun e he =>
    Tree.setNode_of_ne _ he
  refine ⟨Linked.freed (T := T) h.linked ho,fun j hj => ?_,fun e he h0 => ?_⟩
  · have hji : j ≠ i := by
      rintro rfl
      have hdrop : (T.drop j).refs j = T.refs j - 1 := Function.update_self ..
      rw [Tree.setNode_refs,hdrop,hlast] at hj
      exact lt_irrefl 0 hj
    rw [hother j hji]
    have hdrop : (T.drop i).refs j = T.refs j := Function.update_of_ne hji _ _
    rw [Tree.setNode_refs,hdrop] at hj
    exact h.used j hj
  · have hei : e ≠ i := by
      rintro rfl
      rw [Tree.setNode_self] at he
      cases he
    rw [hother e hei] at he h0 ⊢
    obtain ⟨hup,hlink⟩ := h.above e he h0
    have hpi : (T.node e).parent ≠ i := fun hpi => hlink (hpi ▸ ho.2)
    rw [hother _ hpi]
    exact ⟨hup,hlink⟩

end Upheld

theorem law_lookups (sb : Superblock) : Law sb (.lookups sb) (Upheld sb) where
  get T i h hal := by
    refine ⟨h.linked,fun j hj => ?_,h.above⟩
    by_cases hji : j = i
    · rw [hji]
      exact hal
    · rw [Tree.get_refs_of_ne hji] at hj
      exact h.used j hj
  drop T i h hpos _ := by
    refine ⟨h.linked,fun j hj => ?_,h.above⟩
    by_cases hji : j = i
    · rw [hji]
      exact h.used i hpos
    · have hdrop : (T.drop i).refs j = T.refs j := Function.update_of_ne hji _ _
      rw [hdrop] at hj
      exact h.used j hj
  free T i _ h ho hlast := h.freed ho hlast
  write T i off src _ h hal hdir := h.write hal hdir
  create T d name i type major minor hG h hd hk h0 hlt hfree htype :=
    h.create (creates_of hd hk h0 hlt hfree) hG htype
  link T d name i hG h hd hk hal hdir _ := h.link ⟨hd,hk,hal,hdir,hG⟩
  unlink T d name m i hG h hd hdot hdotdot hk hi hid hal hlinks hempty :=
    h.unlink (unlinks_of h.linked hd hdot hdotdot hk hi hid hal hlinks hempty) hG

/-- The call makes no directory in a removed one, removes none that is above a removed one, and lets
no count go beyond 32767. -/
def LeavesAbove (sb : Superblock) (k : Kernel) : Call → Prop
  | .mkdir p path => ∀ d ∈ entryAt (node k.fs) (k.viewOf.dir p) path,
      (node k.fs d).nlink ≠ 0 ∧ (node k.fs d).nlink.toInt < 32767
  | .link p old _ => ∀ i ∈ resolve (node k.fs) (k.viewOf.dir p) old,
      (node k.fs i).nlink.toInt < 32767
  | .unlink p path => ∀ x ∈ unlinkAt (node k.fs) (k.viewOf.dir p) path,
      NotAbove sb.ninodes (node k.fs) x.2.2
  | _ => True

theorem LeavesAbove.ok {a : Call} (h : LeavesAbove sb k a) : Ok (.lookups sb) k a := by
  cases a with
  | «open» p path omode =>
    exact ⟨fun _ d _ hdir => absurd hdir (by decide),fun _ _ _ => trivial⟩
  | write => exact fun _ _ _ _ => trivial
  | mkdir p path => exact fun d hd _ => h d hd
  | mknod p path => exact fun d hd hdir => by cases hdir
  | link p old new => exact fun i hi d _ => h i hi
  | unlink p path => exact fun x hx => h x hx
  | read | close | dup | chdir | fork | exit | createContainer | store | stack | table => trivial

instance (sb : Superblock) (k : Kernel) : ∀ a, Decidable (LeavesAbove sb k a)
  | .mkdir .. | .link .. => inferInstanceAs (Decidable (∀ i ∈ (_ : Option ℕ), _))
  | .unlink .. => inferInstanceAs (Decidable (∀ x ∈ (_ : Option (ℕ × ℕ × ℕ)), _))
  | .open .. | .read .. | .write .. | .close .. | .dup .. | .mknod .. | .chdir .. | .fork ..
  | .exit .. | .createContainer .. | .store .. | .stack .. | .table .. => isTrue trivial

theorem kept_boot (h : GoodDisk sb s) (hl : Linked sb.ninodes (node s)) :
    Upheld sb (treeOf (boot s).fs) := by
  refine ⟨hl,fun i hi => ?_,fun e he h0 => ?_⟩
  · change 0 < (cached (boot s).fs i).refs at hi
    rw [cached_boot h] at hi
    have hroot : i = ROOTINO := by
      by_contra hne
      simp only [if_neg hne] at hi
      exact lt_irrefl 0 hi
    rw [hroot]
    change (node s ROOTINO).type ≠ .free
    rw [hl.root]
    decide
  · have hal : (s.dinode e).type ≠ .free := by
      rw [← node_type]
      change (node s e).type = .dir at he
      rw [he]
      decide
    have hnode : (node s e).nlink = (s.dinode e).nlink := by rw [node_of_alloc hal]
    exact absurd (hnode.symm.trans h0) (h.linked e hal)

/-- In every run in which directories above removed ones are kept, no entry of a directory, no
current directory and no open file refers to a free inode, and `ilock` does not find one. -/
theorem lookups_find_allocated (h : GoodDisk sb s) (hl : Linked sb.ninodes (node s))
    (hok : Meets (step sb) (LeavesAbove sb) (boot s) as)
    (hrun : exec (step sb) (boot s) as = some k) :
    (treeOf k.fs).Closed ∧ ∀ a, k.Enabled a → LeavesAbove sb k a →
      Call.run sb a k ≠ .error (.panic "ilock: no type") := by
  have hinv : KInv sb (Upheld sb) k :=
    (h.kinv (kept_boot h hl)).exec (law_lookups sb) trivial (hok.mono fun _ _ ha => ha.ok) hrun
  refine ⟨hinv.law.closed,fun a hen ha hstop => ?_⟩
  have hwp := hinv.run (E := (· ≠ .panic "ilock: no type")) (fun _ _ hne => hne) (law_lookups sb)
    trivial (fun _ hT _ => hT.closed) hen ha.ok
  exact hwp.of_error hstop rfl

/-- The first process makes `a` and `a/b`, goes there, and removes `a/b`. -/
def removesOwn : List Call :=
  [.table (.schedule initproc), .mkdir initproc [97],
    .mkdir initproc [97, 47, 98], .chdir initproc [97, 47, 98],
    .unlink initproc [47, 97, 47, 98]]

/-- It finds `a` as `..` still. -/
theorem lookups_find_allocated_removesOwn :
    ∃ k, exec (step .mkfs) (boot mkfs) removesOwn = some k ∧
      Call.run .mkfs (.open initproc [46, 46] O_RDONLY) k ≠
        .error (.panic "ilock: no type") ∧
      resolve (node k.fs) (k.viewOf.dir initproc) [46, 46] = some 2 := by
  have hok : Meets (step .mkfs) (LeavesAbove .mkfs) (boot mkfs) removesOwn := by decide +kernel
  have hrun : (exec (step .mkfs) (boot mkfs) removesOwn).map (fun k =>
      (decide (k.Enabled (.open initproc [46,46] O_RDONLY)),
        resolve (node k.fs) (k.viewOf.dir initproc) [46,46])) = some (true, some 2) := by
    decide +kernel
  obtain ⟨k,hk,hval⟩ := Option.map_eq_some_iff.mp hrun
  obtain ⟨hen,hpath⟩ := Prod.mk.inj hval
  have hfind := lookups_find_allocated goodDisk_mkfs linked_mkfs.1 hok hk
  exact ⟨k,hk,hfind.2 _ (of_decide_eq_true hen) trivial,hpath⟩

/-- With `a` removed too, `..` is a free inode. -/
theorem lookup_of_removed_parent_panics : GoodDisk .mkfs mkfs ∧ Linked NINODES (node mkfs) ∧
    ∃ k, exec (step .mkfs) (boot mkfs) (removesOwn ++ [.unlink initproc [47, 97]]) = some k ∧
      k.Enabled (.open initproc [46, 46] O_RDONLY) ∧
      Call.run .mkfs (.open initproc [46, 46] O_RDONLY) k =
        .error (.panic "ilock: no type") := by
  have hrun : (exec (step .mkfs) (boot mkfs)
      (removesOwn ++ [.unlink initproc [47,97]])).map (fun k =>
      (decide (k.Enabled (.open initproc [46,46] O_RDONLY)),
        reason (Call.run .mkfs (.open initproc [46,46] O_RDONLY)) k)) =
      some (true, some (.panic "ilock: no type")) := by decide +kernel
  obtain ⟨k,hk,hval⟩ := Option.map_eq_some_iff.mp hrun
  obtain ⟨hen,hpanic⟩ := Prod.mk.inj hval
  exact ⟨goodDisk_mkfs,linked_mkfs.1,k,hk,of_decide_eq_true hen,error_of_reason hpanic⟩

end Xv6Container.Kernel
