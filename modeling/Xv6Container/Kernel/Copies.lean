import Xv6Container.Kernel.Disk
import Xv6Container.Kernel.Outcome
import Xv6Container.Kernel.Shared

/-! # The copy of a host's file -/

namespace Xv6Container

open Prog Fs Run List

namespace Fs.Node

variable {x y : Node} {n : ℕ}

def SameContent (x y : Node) : Prop := x.size = y.size ∧ x.data = y.data

/-- There is nothing behind the end of the file. -/
def Tidy (x : Node) : Prop := ∀ o, x.size ≤ o → x.data o = 0

theorem tidy_node (s : State) (i : ℕ) : (node s i).Tidy := by
  intro o ho
  rw [node,nodeOf] at ho ⊢
  split
  · rfl
  · next hal =>
    rw [if_neg hal] at ho
    exact if_neg (Nat.not_lt.mpr ho)

theorem write_own (n m : ℕ) (h : n + m ≤ x.size) : x.write n (x.bytes n m) = x := by
  have hlen : (x.bytes n m).length = m := by rw [bytes,length_map,length_range]
  have hsize : max x.size (n+m) = x.size := max_eq_left h
  have hdata : (fun o => if n ≤ o ∧ o < n + m then (x.bytes n m).getD (o-n) 0 else x.data o) =
      x.data := by
    funext o
    split
    · next ho =>
      rw [getD_eq_getElem _ _ (by rw [hlen]; omega)]
      simp only [bytes,getElem_map,getElem_range]
      congr 1
      omega
    · rfl
  rw [write,hlen,hsize,hdata]

theorem bytes_succ (x : Node) (n m : ℕ) : x.bytes n (m+1) = x.data n :: x.bytes (n+1) m := by
  rw [bytes,bytes,range_succ_eq_map,map_cons,map_map,Nat.add_zero]
  congr 2
  funext o
  simp only [Function.comp_apply,Nat.succ_eq_add_one]
  congr 1
  omega

theorem write_content (hx : x.Tidy) (hy : y.Tidy) :
    SameContent (y.write 0 (x.bytes 0 x.size)) x ↔ y.size ≤ x.size := by
  have hlen : (x.bytes 0 x.size).length = x.size := by rw [bytes,length_map,length_range]
  rw [SameContent,write,hlen,Nat.zero_add]
  constructor
  · intro h
    exact le_of_max_le_left h.1.le
  intro h
  refine ⟨max_eq_right h,?_⟩
  funext o
  dsimp only
  split
  · next ho =>
    rw [getD_eq_getElem _ _ (by rw [hlen]; omega)]
    simp [bytes]
  · next ho =>
    rw [hx o (by omega),hy o (by omega)]

end Fs.Node

namespace Kernel

variable {sb : Superblock} {k k' : Kernel} {s : Fs.State} {T T' : Tree} {V : View} {i i2 j n : ℕ}
  {f f2 : FSlot} {fd : Fd} {p : PSlot} {path : Path} {omode : UInt32}

theorem KRep.shareable (h : KRep sb k T V ∅ [] []) (hV : V.file f = some i)
    (hfile : (T.node i).type = .file) (hw : (k.file f).writable = true)
    (hoff : (k.file f).off ≤ (T.node i).size) : Shareable sb f i k where
  wf := h.rep.wf
  at_ip := h.rep.slot (KRep.file_mem hV)
  regular := by
    rw [h.rep.node]
    exact hfile
  type := (h.typed f).mpr (by rw [hV]; exact Option.some_ne_none i)
  writable := hw
  off_le := by
    rw [h.rep.node]
    exact hoff

theorem wp_filewrite_byte (h : Shareable sb f i k) (hmax : (k.file f).off < MAXFILE*BSIZE)
    (b : UInt8) :
    wp (fun _ => True) (filewrite sb f [b]) k fun _ k' =>
      node k'.fs = Function.update (node k.fs) i ((node k.fs i).write (k.file f).off [b]) ∧
        (k'.file f).off = (k.file f).off + 1 := by
  rw [filewrite,wp_bind,wp_read,h.writable,h.type]
  simp only [Bool.not_true,Bool.false_eq_true,if_false]
  rw [wp_bind,length_singleton,filewriteLoop,if_neg (cons_ne_nil b [])]
  refine (wp_filewritePiece h (by exact hmax)).bind ?_
  rintro r k' ⟨rfl,-,hnode,hoff⟩
  refine wp_ite (fun _ => ?_) fun _ => trivial
  exact ⟨hnode,hoff⟩

theorem KRep.filewrite_byte (h : KRep sb k T V ∅ [] []) (hV : V.file f = some i)
    (hfile : (T.node i).type = .file) (hw : (k.file f).writable = true)
    (hoff : (k.file f).off ≤ (T.node i).size) (hmax : (k.file f).off < MAXFILE*BSIZE) (b : UInt8) :
    wp (fun _ => True) (Kernel.filewrite sb f [b]) k fun _ k' => Moved {f} k k' ∧
      KRep sb k' (T.setNode i ((T.node i).write (k.file f).off [b])) V ∅ [] [] ∧
      (k'.file f).off = (k.file f).off + 1 := by
  refine (h.filewrite (fun _ _ _ => trivial) (law_all sb) trivial fun _ _ => trivial).with_ok.mono ?_
  rintro r k' ⟨hrun,hm,T',hk',-,hT'⟩
  obtain ⟨hnode,hoff'⟩ := (wp_filewrite_byte (h.shareable hV hfile hw hoff) hmax b).of_ok hrun
  have hrefs : T'.refs = T.refs := by
    rcases hT' with rfl | ⟨j,-,-,hwr⟩
    · rfl
    · exact hwr.refs
  have htree : T' = T.setNode i ((T.node i).write (k.file f).off [b]) := by
    refine Tree.ext ?_ hrefs
    rw [← hk'.rep.node,hnode,h.rep.node]
    rfl
  rw [← htree]
  exact ⟨hm,hk',hoff'⟩

/-- The loop has come to byte `n` of both files. -/
structure Midway (sb : Superblock) (V : View) (f f2 : FSlot) (i i2 n : ℕ) (k : Kernel) (T : Tree) :
    Prop where
  rep : KRep sb k T V ∅ [] []
  ne : f ≠ f2
  file : V.file f = some i
  file2 : V.file f2 = some i2
  type : (T.node i).type = .file
  type2 : (T.node i2).type = .file
  readable : (k.file f).readable = true
  writable : (k.file f2).writable = true
  off : (k.file f).off = n
  off2 : (k.file f2).off = n
  le : n ≤ (T.node i).size
  le2 : n ≤ (T.node i2).size

namespace Midway

theorem size_le (h : Midway sb V f f2 i i2 n k T) : (T.node i).size ≤ MAXFILE*BSIZE :=
  h.rep.rep.size_le (by rw [h.type]; decide)

theorem fileread (h : Midway sb V f f2 i i2 n k T) :
    wp (fun _ => True) (Kernel.fileread sb f 1) k fun r k' => Moved {f} k k' ∧
      KRep sb k' T V ∅ [] [] ∧ r = some ((T.node i).bytes n (min 1 ((T.node i).size - n))) ∧
      (k'.file f).off = n + min 1 ((T.node i).size - n) := by
  have hsize := h.size_le
  have hlt : MAXFILE * BSIZE + 1 < 2 ^ 32 := by decide
  have hle := h.le
  refine (h.rep.fileread_bytes (fun _ _ _ => trivial) (by decide)).mono ?_
  rintro r k' ⟨hm,hk',-,hread⟩
  obtain ⟨hr,hoff⟩ := hread i h.file h.readable (by rw [h.type]; decide)
  rw [h.off,if_neg (by omega)] at hr
  rw [h.off,hr,Option.getD_some,Node.bytes,length_map,length_range,
    Nat.mod_eq_of_lt (by omega)] at hoff
  exact ⟨hm,hk',hr,hoff⟩

theorem round (h : Midway sb V f f2 i i2 n k T) (hlt : n < (T.node i).size) {k1 : Kernel}
    (hm : Moved {f} k k1) (hk1 : KRep sb k1 T V ∅ [] []) (hoff : (k1.file f).off = n+1) :
    wp (fun _ => True) (filewrite sb f2 [(T.node i).data n]) k1 fun _ k' =>
      Midway sb V f f2 i i2 (n+1) k' (T.setNode i2 ((T.node i2).write n [(T.node i).data n])) ∧
      (T.setNode i2 ((T.node i2).write n [(T.node i).data n])).node i = T.node i := by
  have hsize := h.size_le
  have hfile2 : k1.file f2 = k.file f2 := hm.other f2 h.ne.symm
  have hown : (T.setNode i2 ((T.node i2).write n [(T.node i).data n])).node i = T.node i := by
    by_cases hi : i = i2
    · subst hi
      have hone : [(T.node i).data n] = (T.node i).bytes n 1 := by rw [Node.bytes_succ]; rfl
      rw [Tree.setNode_self,hone,Node.write_own n 1 hlt]
    · exact Tree.setNode_of_ne _ hi
  refine (hk1.filewrite_byte h.file2 h.type2 (by rw [hfile2]; exact h.writable)
    (by rw [hfile2,h.off2]; exact h.le2) (by rw [hfile2,h.off2]; omega) _).mono ?_
  rintro - k2 ⟨hm2,hk2,hoff2⟩
  rw [hfile2,h.off2] at hk2 hoff2
  have hfile : k2.file f = k1.file f := hm2.other f h.ne
  obtain ⟨off,cid,hsame⟩ := hm.same f
  obtain ⟨off',cid',hsame2⟩ := hm2.same f2
  refine ⟨⟨hk2,h.ne,h.file,h.file2,?_,?_,?_,?_,?_,hoff2,?_,?_⟩,hown⟩
  · rw [hown]
    exact h.type
  · rw [Tree.setNode_self]
    exact h.type2
  · rw [hfile,hsame]
    exact h.readable
  · rw [hsame2,hfile2]
    exact h.writable
  · rw [hfile,hoff]
  · rw [hown]
    exact hlt
  · rw [Tree.setNode_self]
    exact Nat.le_max_right _ _

end Midway

theorem copyLoop_from (fuel : ℕ) (k : Kernel) (T : Tree) (n : ℕ) (h : Midway sb V f f2 i i2 n k T) :
    wp (fun _ => True) (copyLoop sb f f2 fuel) k fun _ k' => KRep sb k'
      (T.setNode i2 ((T.node i2).write n ((T.node i).bytes n ((T.node i).size - n)))) V ∅ [] [] := by
  -- the file has `fuel` more bytes at most, or the loop stops without an end
  induction fuel generalizing k T n with
  | zero => trivial
  | succ fuel ih =>
    rw [copyLoop]
    refine h.fileread.bind ?_
    rintro r k1 ⟨hm,hk1,rfl,hoff⟩
    by_cases hlt : n < (T.node i).size
    · have hmin : min 1 ((T.node i).size - n) = 1 := by omega
      rw [hmin] at hoff
      rw [hmin,Node.bytes_succ,show (T.node i).bytes (n + 1) 0 = [] from rfl]
      refine (h.round hlt hm hk1 hoff).bind ?_
      rintro - k2 ⟨hmid,hown⟩
      refine (ih k2 _ (n + 1) hmid).mono ?_
      rintro - k3 hk3
      have hrest : (T.node i).size - n = (T.node i).size - (n + 1) + 1 := by omega
      have hwrite := write_write (T.node i2) n [(T.node i).data n]
        ((T.node i).bytes (n + 1) ((T.node i).size - (n + 1)))
      rw [length_singleton,singleton_append] at hwrite
      rw [hown,Tree.setNode_self,Tree.setNode_setNode,hwrite] at hk3
      rw [hrest,Node.bytes_succ]
      exact hk3
    · have hdone : (T.node i).size - n = 0 := by omega
      have hnil : (T.node i).bytes n 0 = [] := rfl
      have hkeep : (T.node i2).write n [] = T.node i2 := Node.write_own n 0 h.le2
      rw [hdone,Nat.min_zero,hnil,wp_pure,hkeep,Tree.setNode_node_self]
      exact hk1

namespace Transfer

variable (h : Transfer sb omode V f f2 i i2 k k' T T')
include h

theorem node_of_readable (htype : (T.node i).type = .file) (htype2 : (T.node i2).type = .file)
    (hread : mayRead omode = true) : T'.node = (T.setNode i2
      ((T.node i2).write 0 ((T.node i).bytes 0 (T.node i).size))).node := by
  have hfile : ((V.withFile f i).withFile f2 i2).file f = some i := by
    simp [View.withFile,h.ne]
  have hfile2 : ((V.withFile f i).withFile f2 i2).file f2 = some i2 := by simp [View.withFile]
  have hstart : Midway sb ((V.withFile f i).withFile f2 i2) f f2 i i2 0 k T :=
    ⟨h.rep,h.ne,hfile,hfile2,htype,htype2,h.readable.trans hread,h.writable,h.off,h.off2,
      Nat.zero_le _,Nat.zero_le _⟩
  have hend := (copyLoop_from _ k T 0 hstart).of_ok h.loop
  rw [h.rep'.tree_eq,← hend.tree_eq,Nat.sub_zero]

theorem node_of_not_readable (hread : mayRead omode = false) : T'.node = T.node := by
  have hsame : wp (fun _ => True) (copyLoop sb f f2 (copyFuel k)) k fun _ l => l = k := by
    rw [copyFuel,copyLoop]
    refine (h.rep.fileread_bytes (fun _ _ _ => trivial) (by decide)).bind ?_
    rintro r l ⟨-,-,hno,-⟩
    obtain ⟨rfl,rfl⟩ := hno (h.readable.trans hread)
    rfl
  obtain rfl := hsame.of_ok h.loop
  rw [h.rep'.tree_eq,← h.rep.tree_eq]

end Transfer

/-- Descriptor `fd` is at the start of a file with the content that the host's file `i` had, and
has. -/
structure Faithful (p : PSlot) (k k' : Kernel) (fd : Fd) (i : ℕ) : Prop where
  copy : ∃ f j, k'.ofile (p, fd) = some f ∧ k'.viewOf.file f = some j ∧
    (node k'.fs j).SameContent (node k.fs i) ∧ (k'.file f).off = 0
  host : node k'.fs i = node k.fs i

/-- The file `i` is copied as it is: it can be read or is empty, and what is found in the place of
the copy is not longer. What is opened without a copy has the content already. -/
def CopyOk (k : Kernel) (p : PSlot) (path : Path) (omode : UInt32) (i : ℕ) : Prop :=
  match resolve (node k.fs) (k.viewOf.dir p) (k.target p path omode) with
  | none => mayRead omode = true ∨ (node k.fs i).size = 0
  | some j => (node k.fs j).SameContent (node k.fs i) ∨
      k.copies p path omode = true ∧ mayRead omode = true ∧ (node k.fs j).size ≤ (node k.fs i).size

theorem faithful_iff {wr : Bool} {c : ISlot} {r w : Bool} {cid : ℤ} (hg : Gains p k k' fd f wr)
    (hk : KRep sb k' T (V.withFile f j) ∅ [] []) (hfile : k'.file f = ⟨.inode, 1, r, w, c, 0, cid⟩)
    (hhost : T.node i = node k.fs i) :
    Faithful p k k' fd i ↔ (T.node j).SameContent (node k.fs i) := by
  have hnode : node k'.fs = T.node := hk.rep.node
  have hfd : k'.ofile (p, fd) = some f := by rw [hg.ofile,Function.update_self]
  have hview : k'.viewOf.file f = some j := by
    rw [← hk.view_eq,View.withFile]
    exact Function.update_self ..
  constructor
  · intro h
    obtain ⟨f',j',hf',hj',hsame,-⟩ := h.copy
    obtain rfl := Option.some.inj (hfd.symm.trans hf')
    obtain rfl := Option.some.inj (hview.symm.trans hj')
    rw [← hnode]
    exact hsame
  · intro hsame
    rw [← hnode] at hsame hhost
    exact ⟨⟨f,j,hfd,hview,hsame,by rw [hfile]⟩,hhost⟩

theorem sameContent_new {x : Node} (hx : x.Tidy) (d : ℕ) :
    (Node.new .file 0 0 j d).SameContent x ↔ x.size = 0 := by
  constructor
  · intro h
    exact h.1.symm
  · intro h
    refine ⟨h.symm,?_⟩
    funext o
    exact (hx o (by omega)).symm

theorem Transfer.faithful {k2 k3 : Kernel} {T1 T3 : Tree} (ht : Transfer sb omode V f f2 i i2 k2 k3 T1 T3)
    (htype : (T1.node i).type = .file) (htype2 : (T1.node i2).type = .file) :
    T3.node i = T1.node i ∧ ((T3.node i2).SameContent (T1.node i) ↔
      if mayRead omode then (T1.node i2).size ≤ (T1.node i).size
      else (T1.node i2).SameContent (T1.node i)) := by
  have htidy : ∀ j, (T1.node j).Tidy := by
    intro j
    rw [← ht.rep.rep.node]
    exact Node.tidy_node _ j
  cases hread : mayRead omode with
  | true =>
    have hnode := ht.node_of_readable htype htype2 hread
    rw [if_pos rfl,hnode,Tree.setNode_self]
    refine ⟨?_,Node.write_content (htidy i) (htidy i2)⟩
    by_cases hi : i = i2
    · subst hi
      rw [Tree.setNode_self]
      exact Node.write_own 0 _ (Nat.zero_add _).le
    · exact Tree.setNode_of_ne _ hi
  | false =>
    rw [ht.node_of_not_readable hread]
    exact ⟨rfl,Iff.rfl⟩

theorem KInv.copy_faithful (h : KInv sb (fun _ => True) k) (hcr : creates omode = false)
    (hres : resolve (node k.fs) (k.viewOf.dir p) path = some i) (hfile : (node k.fs i).type = .file)
    (hopen : sysOpen sb p path omode k = .ok (some fd, k')) :
    Faithful p k k' fd i ↔ CopyOk k p path omode i := by
  have hout := h.rep.sysOpen_outcome hopen
  rw [CopyOk]
  cases hout with
  | opened hcopy hg ho hk hf =>
    rw [hcr] at ho
    cases ho with
    | plain hr hal =>
      rw [faithful_iff hg hk hf rfl,show resolve (node k.fs) _ _ = _ from hr]
      simp [hcopy,treeOf]
  | @copied _ _ _ _ _ _ _ i' i2 T1 T3 hcopy hr ho ht hg hk hf =>
    obtain rfl : i = i' := Option.some.inj (hres.symm.trans hr)
    have hhost : T1.node i = node k.fs i := ho.node_of_file hfile
    obtain ⟨hsame,hcontent⟩ := ht.faithful (by rw [hhost]; exact hfile) ho.type
    rw [faithful_iff hg hk hf (hsame.trans hhost)]
    change (T3.node i2).SameContent (node k.fs i) ↔ _
    rw [← hhost,hcontent]
    cases ho with
    | there hp hk' htype2 =>
      have hr2 : resolve (node k.fs) (k.viewOf.dir p) (k.target p path omode) = some _ :=
        walk_of_walkParent hp hk'
      rw [hr2]
      cases hread : mayRead omode with
      | true =>
        simp only [if_true,hcopy,true_and]
        exact (or_iff_right_of_imp fun hc => hc.1.le).symm
      | false =>
        simp only [Bool.false_eq_true,if_false,false_and,and_false,or_false]
        rfl
    | made hp hk' h0 hlt hfree =>
      have hr2 : resolve (node k.fs) (k.viewOf.dir p) (k.target p path omode) = none :=
        walk_of_walkParent hp hk'
      rw [hr2,Tree.get_node,Tree.create_node_new (ne_of_resolveParent hp hfree)]
      cases hread : mayRead omode with
      | true => simp only [if_true,true_or,iff_true]; exact Nat.zero_le _
      | false =>
        simp only [Bool.false_eq_true,if_false,false_or]
        rw [Tree.get_node] at hhost
        rw [hhost]
        exact sameContent_new (Node.tidy_node _ i) _

/-- After every run from a good disk, an `open` without `O_CREATE` of a path that leads to a file
gives a descriptor at the start of a file with the same content, and leaves that file alone, if and
only if the copy finds what it needs. -/
theorem copy_faithful_iff (hdisk : GoodDisk sb s) {as : List Call}
    (hrun : exec (step sb) (boot s) as = some k) (hcr : creates omode = false)
    (hres : resolve (node k.fs) (k.viewOf.dir p) path = some i) (hfile : (node k.fs i).type = .file)
    (hopen : sysOpen sb p path omode k = .ok (some fd, k')) :
    Faithful p k k' fd i ↔ CopyOk k p path omode i :=
  (hdisk.exec hrun).copy_faithful hcr hres hfile hopen

/-- A host's file `f` gets three bytes, and the first process goes into the new container 1. -/
def joinsWithContent : List Call :=
  [.table (.schedule initproc), .open initproc [102] (O_CREATE ||| O_RDWR),
    .write initproc 0 [1, 2, 3], .createContainer initproc 1,
    .table (.join initproc 1)]

/-- It opens `f` for reading. -/
theorem copy_faithful_readOnly : ∃ k k' fd, exec (step .mkfs) (boot mkfs) joinsWithContent = some k ∧
    sysOpen .mkfs initproc [102] O_RDONLY k = .ok (some fd, k') ∧
    Faithful initproc k k' fd 2 := by
  have hrun : ((exec (step .mkfs) (boot mkfs) joinsWithContent).bind fun k =>
      (result (sysOpen .mkfs initproc [102] O_RDONLY) k).map fun r =>
        (r.1.isSome && decide ((node k.fs 2).type = .file),
          resolve (node k.fs) (k.viewOf.dir initproc) [102],
          resolve (node k.fs) (k.viewOf.dir initproc)
            (k.target initproc [102] O_RDONLY))) = some (true, some 2, none) := by
    decide +kernel
  obtain ⟨k,hk,hopen⟩ := Option.bind_eq_some_iff.mp hrun
  obtain ⟨⟨r,k'⟩,hr,hv⟩ := Option.map_eq_some_iff.mp hopen
  obtain ⟨hstate,hv⟩ := Prod.mk.inj hv
  obtain ⟨hres,htarget⟩ := Prod.mk.inj hv
  rw [Bool.and_eq_true,decide_eq_true_eq] at hstate
  obtain ⟨fd,rfl⟩ : ∃ fd, r = some fd := Option.isSome_iff_exists.mp hstate.1
  refine ⟨k,k',fd,hk,ok_of_result hr,?_⟩
  apply (copy_faithful_iff goodDisk_mkfs hk (by decide) hres hstate.2 (ok_of_result hr)).mpr
  rw [CopyOk,htarget]
  exact .inl rfl

/-- It opens `f` for writing: the container has not opened anything before, and gets an empty
file. -/
theorem copy_of_writeOnly_empty :
    ∃ k k' fd, exec (step .mkfs) (boot mkfs) joinsWithContent = some k ∧
      (k.tables.proc initproc).cid = 1 ∧ k.tables.findLive 1 ≠ none ∧
      (∀ i, k.files i = []) ∧
      resolve (node k.fs) (k.viewOf.dir initproc) [102] = some 2 ∧
      (node k.fs 2).type = .file ∧
      sysOpen .mkfs initproc [102] O_WRONLY k = .ok (some fd, k') ∧
      ¬ Faithful initproc k k' fd 2 := by
  have hrun : ((exec (step .mkfs) (boot mkfs) joinsWithContent).bind fun k =>
      (result (sysOpen .mkfs initproc [102] O_WRONLY) k).bind fun r => r.1.map fun fd =>
        (decide ((k.tables.proc initproc).cid = 1) && (k.tables.findLive 1).isSome &&
          ((List.finRange NCONT).all fun i => (k.files i).isEmpty) &&
          decide ((node k.fs 2).type = .file),
          resolve (node k.fs) (k.viewOf.dir initproc) [102], (node k.fs 2).size,
          ((r.2.ofile (initproc, fd)).bind r.2.viewOf.file).map fun j =>
            (node r.2.fs j).size)) = some (true, some 2, 3, some 0) := by decide +kernel
  obtain ⟨k,hk,hopen⟩ := Option.bind_eq_some_iff.mp hrun
  obtain ⟨⟨r,k'⟩,hr,hv⟩ := Option.bind_eq_some_iff.mp hopen
  obtain ⟨fd,hfd,hv⟩ := Option.map_eq_some_iff.mp hv
  obtain rfl : r = some fd := hfd
  obtain ⟨hstate,hv⟩ := Prod.mk.inj hv
  obtain ⟨hres,hv⟩ := Prod.mk.inj hv
  obtain ⟨hsize,hcopy⟩ := Prod.mk.inj hv
  simp only [Bool.and_eq_true,decide_eq_true_eq] at hstate
  obtain ⟨⟨⟨hcid,hlive⟩,hnone⟩,hfile⟩ := hstate
  have hfiles : ∀ i, k.files i = [] := by
    intro i
    exact List.isEmpty_iff.mp (List.all_eq_true.mp hnone i (mem_finRange i))
  refine ⟨k,k',fd,hk,hcid,Option.isSome_iff_ne_none.mp hlive,hfiles,hres,hfile,
    ok_of_result hr,fun h => ?_⟩
  obtain ⟨f,j,hf,hj,hsame,-⟩ := h.copy
  rw [hf,Option.bind_some,hj,Option.map_some] at hcopy
  have hzero : (node k'.fs j).size = 0 := Option.some.inj hcopy
  have heq := hsame.1
  omega

end Kernel

end Xv6Container
