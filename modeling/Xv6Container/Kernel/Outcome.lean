import Xv6Container.Kernel.Opening

/-! # The ways in which open can end -/

namespace Xv6Container

open Function Prog Fs

namespace Kernel

variable {sb : Superblock} {k k' k1 : Kernel} {s : Fs.State} {T T' T1 : Tree} {V : View}
  {i i2 j w : ℕ} {f f2 : FSlot} {fd fd2 : Fd} {r : Option Fd} {p : PSlot} {path : Path} {omode : UInt32} {g : File}
  {E : Stop → Prop} {cid : ℤ} {c : ISlot} {G : Guards} {J : Tree → Prop}

/-- The path of the first `create` or `namei`. -/
def first (k : Kernel) (p : PSlot) (path : Path) (omode : UInt32) : Path :=
  if creates omode && !k.isHost p then k.suffixed p (k.found p path) else k.found p path

theorem first_of_copies (h : k.copies p path omode = true) : k.first p path omode = path := by
  obtain ⟨-,hfound,hcr,-,-⟩ := target_of_copies h
  rw [first,hcr,Bool.false_and,if_neg Bool.false_ne_true,hfound]

/-- The owner that is noted in the file: what the list of all files says, unless a new file or a
copy gets the container of the caller. -/
def ownerTag (k : Kernel) (p : PSlot) (path : Path) (omode : UInt32) : ℤ :=
  let o := owner (k.found p path) k.allFiles
  if k.isHost p || k.registered p path then o
  else if creates omode then if o = 0 then k.callerCid p else o
  else if o = 0 ∨ o = -1 then k.callerCid p else o

/-- With `f` open on inode `i` and `f2` on inode `i2`, the copy loop has gone from `k` to `k'`. -/
structure Transfer (sb : Superblock) (omode : UInt32) (V : View) (f f2 : FSlot) (i i2 : ℕ)
    (k k' : Kernel) (T T' : Tree) : Prop where
  loop : copyLoop sb f f2 (copyFuel k) k = .ok ((), k')
  ne : f ≠ f2
  readable : (k.file f).readable = mayRead omode
  off : (k.file f).off = 0
  writable : (k.file f2).writable = true
  off2 : (k.file f2).off = 0
  rep : KRep sb k T ((V.withFile f i).withFile f2 i2) ∅ [] []
  rep' : KRep sb k' T' ((V.withFile f i).withFile f2 i2) ∅ [] []
  written : Written i2 T T'

/-- The ways in which `sys_open` can return. The tree that it leaves has the property `J`. -/
inductive Outcome (sb : Superblock) (J : Tree → Prop) (k : Kernel) (T : Tree) (V : View) (p : PSlot)
    (path : Path) (omode : UInt32) : Option Fd → Kernel → Prop
  -- the path cannot be opened
  | missed (s : Fs.State) (hmiss : Misses T (V.dir p) (k.first p path omode) omode)
    (hk : KRep sb { k with fs := s } T V ∅ [] []) (hJ : J T) :
    Outcome sb J k T V p path omode none { k with fs := s }
  -- there is no file or no descriptor for it
  | full (s : Fs.State) {i : ℕ} {T' : Tree} (hfull : k.Full p)
    (ho : Opens sb T (V.dir p) (k.first p path omode) (creates omode) i T')
    (hk : KRep sb { k with fs := s } (T'.drop i) V ∅ [] []) (hJ : J (T'.drop i)) :
    Outcome sb J k T V p path omode none { k with fs := s }
  | opened {k' : Kernel} {fd : Fd} {f : FSlot} {c : ISlot} {i : ℕ} {T' : Tree}
    (hcopy : k.copies p path omode = false) (hg : Gains p k k' fd f (mayWrite omode))
    (ho : Opens sb T (V.dir p) (k.target p path omode) (creates omode) i T')
    (hk : KRep sb k' T' (V.withFile f i) ∅ [] [])
    (hfile : k'.file f =
      ⟨.inode, 1, mayRead omode, mayWrite omode, c, 0, k.ownerTag p path omode⟩)
    (hfiles : k'.files = if k.isHost p || k.registered p path then k.files
      else k.entered (k.callerCid p) (k.target p path omode)) (hJ : J T') :
    Outcome sb J k T V p path omode (some fd) k'
  -- the copy has failed, and the host's file stays open
  | stuck {k' : Kernel} {fd : Fd} {f : FSlot} {i : ℕ} {T' : Tree}
    (hcopy : k.copies p path omode = true) (hfree : ¬ k.Full p)
    (hr : resolve T.node (V.dir p) path = some i)
    (hmode : (T.node i).type = .dir → omode = O_RDONLY) (hg : Gains p k k' fd f (mayWrite omode))
    (hk : KRep sb k' T' (V.withFile f i) ∅ [] []) (hJ : J T') : Outcome sb J k T V p path omode none k'
  | copied {k' k2 k3 : Kernel} {fd : Fd} {f f2 : FSlot} {c : ISlot} {i i2 : ℕ} {T1 T3 : Tree}
    (hcopy : k.copies p path omode = true) (hr : resolve T.node (V.dir p) path = some i)
    (ho : Opens sb (T.get i) (V.dir p) (k.target p path omode) true i2 T1)
    (ht : Transfer sb omode V f f2 i i2 k2 k3 T1 T3) (hg : Gains p k k' fd f (mayWrite omode))
    (hk : KRep sb k' (((T3.drop i).drop i2).get i2) (V.withFile f i2) ∅ [] [])
    (hfile : k'.file f =
      ⟨.inode, 1, mayRead omode, mayWrite omode, c, 0, k.ownerTag p path omode⟩)
    (hfiles : k'.files = k.entered (k.callerCid p) (k.target p path omode))
    (hJ : J (((T3.drop i).drop i2).get i2)) : Outcome sb J k T V p path omode (some fd) k'

@[simp] theorem added_file : (k.added s p fd f g).file f = g := update_self ..

theorem wp_setFile_added {u : File → File} {Q : Unit → Kernel → Prop} :
    wp E (setFile f u) (k.added s p fd f g) Q ↔ Q () (k.added s p fd f (u g)) := by
  rw [setFile,wp_modify,added_file]
  simp only [added,update_idem]

theorem wp_tag_added {Q : Unit → Kernel → Prop} : wp E (tag f cid) (k.added s p fd f g) Q ↔
    Q () (k.added s p fd f
      { g with cid := if g.cid = 0 ∨ g.cid = -1 then cid else g.cid }) := by
  rw [tag,wp_setFile_added]
  by_cases hz : g.cid = 0 ∨ g.cid = -1
  · rw [if_pos hz,if_pos hz]
  · rw [if_neg hz,if_neg hz]

theorem not_full (hf : k.freeFile = some f) (hfd : k.ofile (p, fd) = none) : ¬ k.Full p := by
  rintro (hall | hall)
  · exact hall f (ref_of_freeFile hf)
  · exact hall fd hfd

theorem Opens.not_misses (h : Opens sb T w path (creates omode) i T')
    (hmode : (T'.node i).type = .dir → omode = O_RDONLY) : ¬ Misses T w path omode := by
  intro hmiss
  rw [Misses] at hmiss
  generalize hb : creates omode = b at h
  rw [hb] at hmiss
  cases h with
  | plain hr hal =>
    obtain ⟨hdir,hne⟩ := hmiss i hr
    exact hne (hmode hdir)
  | there hp hk hfile =>
    obtain ⟨n,hn,hnot⟩ := hmiss _ _ hp
    obtain rfl := Option.some.inj (hk.symm.trans hn)
    exact hnot rfl hfile
  | made hp hk h0 hlt hfree =>
    obtain ⟨n,hn,-⟩ := hmiss _ _ hp
    cases hk.symm.trans hn

/-- The first stage of `sys_open` comes back without a descriptor if there is nothing to open or no
room. -/
theorem KRep.openFile_none_iff {r : Option (Fd × FSlot)} (h : KRep sb k T V ∅ [] [])
    (hopen : Kernel.openFile sb p path omode k = .ok (r, k')) :
    (r = none ↔ Misses T (V.dir p) path omode ∨ k.Full p) ∧ k'.allFiles = k.allFiles := by
  have hcases := (h.openFile_cases (E := fun _ => True) (fun _ _ _ => trivial)
    fun hno => absurd trivial hno).of_ok hopen
  rcases hcases with ⟨rfl,hmiss,t,rfl,-⟩ | ⟨rfl,hfull,t,i,T',rfl,-⟩ |
    ⟨fd,f,t,c,i,T',rfl,hf,hfd,rfl,ho,hmode,-⟩
  · exact ⟨iff_of_true rfl (.inl hmiss),rfl⟩
  · exact ⟨iff_of_true rfl (.inr hfull),rfl⟩
  · refine ⟨iff_of_false (by simp) ?_,rfl⟩
    rintro (hmiss | hfull)
    · exact ho.not_misses hmode hmiss
    · exact not_full hf hfd hfull

theorem KRep.added_cid (h : KRep sb (k.added s p fd f g) T V ∅ [] []) (cid : ℤ) :
    KRep sb (k.added s p fd f { g with cid := cid }) T V ∅ [] [] := by
  have hself : (k.added s p fd f g).file f = g := added_file
  have hset := h.touch_file f { g with cid := cid } (by rw [hself]) (by rw [hself])
    (by rw [← hself]; exact h.off_lt f) (by rw [hself]) (by rw [hself])
  simpa only [added,update_idem] using hset

section Counts

variable (h : KRep sb k T V ∅ [] []) (h' : KRep sb k' T' V ∅ [] []) (hst : Stays k k')
include h h' hst

theorem Stays.ref_eq (e : FSlot) : (k'.file e).ref = (k.file e).ref := by
  rw [h'.fdrefs e,h.fdrefs e,hst.ofile]

theorem Stays.freeFile_eq : k'.freeFile = k.freeFile := by
  rw [freeFile,freeFile]
  congr
  funext e
  rw [hst.ref_eq h h' e]

theorem Stays.full_iff : k'.Full p ↔ k.Full p := by
  rw [Full,Full,hst.ofile]
  simp only [hst.ref_eq h h']

end Counts

theorem Written.resolve_iff {T T' : Tree} {w : ℕ} (h : Written i T T')
    (hfile : (T.node i).type = .file) (g : Path) :
    Fs.resolve T'.node w g = some i ↔ Fs.resolve T.node w g = some i := by
  obtain ⟨size,data,rfl⟩ := h
  -- a directory of either tree is another inode
  have hne : ∀ d, (T.node d).type = .dir → d ≠ i := by
    rintro d hd rfl
    exact absurd (hfile.symm.trans hd) (by decide)
  have hne' : ∀ d, ((T.setNode i { T.node i with
      size := size, data := data }).node d).type = .dir → d ≠ i := by
    rintro d hd rfl
    rw [Tree.setNode_self] at hd
    exact absurd (hfile.symm.trans hd) (by decide)
  constructor
  · refine Grows.walk fun d hd => ?_
    have hdi := hne' d hd
    rw [Tree.setNode_of_ne _ hdi] at hd ⊢
    exact Grows.refl _ d hd
  · refine Grows.walk fun d hd => ?_
    rw [Tree.setNode_of_ne _ (hne d hd)]
    exact Grows.refl _ d hd

theorem KRep.reopen_ok (h : KRep sb k T V ∅ [] []) (hE : Lax E)
    (hcl : ¬ E (.panic "ilock: no type") → T.Closed) (hcr : creates omode = false)
    (hr : resolve T.node (V.dir p) path = some i) (htype : (T.node i).type = .file)
    (hroom : ¬ k.Full p) :
    wp E (plain.reopen sb p path omode cid) k fun r k' => ∃ fd f c,
      r = some fd ∧ k.freeFile = some f ∧ Gains p k k' fd f (mayWrite omode) ∧
      KRep sb k' (T.get i) (V.withFile f i) ∅ [] [] ∧
      k'.file f = ⟨.inode, 1, mayRead omode, mayWrite omode, c, 0,
        if (k.file f).cid = 0 ∨ (k.file f).cid = -1 then cid else (k.file f).cid⟩ ∧
      k'.files = k.entered cid path := by
  simp only [PathOps.reopen,plain_lift]
  refine (h.openFile_cases hE hcl).bind ?_
  rintro r k1 (⟨rfl,hmiss,-⟩ | ⟨rfl,hfull,-⟩ | ⟨fd,f,t,c,j,T',rfl,hf,hfd,rfl,ho,-,hk1⟩)
  · rw [Misses,hcr,if_neg Bool.false_ne_true] at hmiss
    have hdir := (hmiss i hr).1
    rw [htype] at hdir
    cases hdir
  · exact absurd hfull hroom
  rw [hcr] at ho
  cases ho with
  | plain hrj hal =>
    obtain rfl : i = j := Option.some.inj (hr.symm.trans hrj)
    rw [wp_bind,wp_plain_setPath,wp_bind,wp_tag_added]
    refine ((hk1.added_cid _).register hE).bind ?_
    rintro - k2 ⟨hst,hfiles,hk2⟩
    refine ⟨fd,f,c,rfl,hf,(Gains.of_added (ref_of_freeFile hf) hfd rfl).stays hst,hk2,?_,hfiles⟩
    rw [hst.file f (by rw [added_file]; exact Nat.one_ne_zero),added_file]

theorem Opens.law_drop {b : Bool} (ho : Opens sb T w path b i T') (law : Law sb G J) (hJ : J T')
    (hT : T.Orphan i → 0 < T.refs i) : J (T'.drop i) := by
  refine law.drop T' i hJ ?_ (ho.not_last hT)
  rw [ho.refs i,if_pos rfl]
  omega

section Law

variable (h : KRep sb k T V ∅ [] []) (hE : Lax E) (law : Law sb G J)
  (hcl : ∀ T, J T → ¬ E (.panic "ilock: no type") → T.Closed)
  (hC : creates omode || k.copies p path omode → ∀ d name,
    resolveParent T.node (V.dir p) (k.target p path omode) = some (d, name) →
    (T.node d).find name = none → G.create T.node d .file)
  (hW : k.copies p path omode → ∀ j,
    resolve T.node (V.dir p) (k.target p path omode) = some j ∨ (T.node j).type = .free → G.write j)

include h hE law hcl hC hW

theorem KRep.copyTo_outcome {o : ℤ} (hJ : J (T.get i)) (hf : k.freeFile = some f)
    (hfd : k.ofile (p, fd) = none) (hr : resolve T.node (V.dir p) path = some i)
    (hmode : (T.node i).type = .dir → omode = O_RDONLY) (hcopy : k.copies p path omode = true)
    (ho : o = owner path k.allFiles)
    (hk1 : KRep sb (k.added s p fd f ⟨.inode, 1, mayRead omode, mayWrite omode, c, 0, o⟩)
      (T.get i) (V.withFile f i) ∅ [] []) :
    wp E (plain.copyTo sb p (k.target p path omode) omode (k.callerCid p) fd f)
      (k.added s p fd f ⟨.inode, 1, mayRead omode, mayWrite omode, c, 0, o⟩)
      (Outcome sb J k T V p path omode) := by
  obtain ⟨htarget,hfound,hcr,hhost,hreg⟩ := target_of_copies hcopy
  have hgains : Gains p k (k.added s p fd f
      ⟨.inode,1,mayRead omode,mayWrite omode,c,0,o⟩) fd f (mayWrite omode) :=
    Gains.of_added (ref_of_freeFile hf) hfd rfl
  have hroom := not_full hf hfd
  set k1 := k.added s p fd f ⟨.inode,1,mayRead omode,mayWrite omode,c,0,o⟩ with hk1eq
  simp only [PathOps.copyTo,plain_lift]
  rw [wp_bind,wp_read,wp_bind,wp_onFs]
  refine (rep_create hk1.rep hE hk1.cwd_mem (hcl _ hJ) _).mono ?_
  rintro r t (⟨rfl,-,ht⟩ | ⟨c2,i2,T1,rfl,ho2,ht⟩)
  · exact .stuck hcopy hroom hr hmode (hgains.stays (Stays.of_fs t))
      (hk1.fs_step ht hk1.refs fun _ _ => rfl) hJ
  have hJ1 : J T1 := ho2.law law hJ fun _ => hC (by simp [hcopy])
  refine (hk1.install_cases hE ho2 ht _ _ fun _ => by rw [ho2.type]; decide).bind ?_
  rintro r k2 (⟨rfl,-,u,rfl,hk2⟩ | ⟨fd2,f2,u,rfl,hf2,hfd2,rfl,hk2⟩)
  · refine .stuck hcopy hroom hr hmode (hgains.stays (Stays.of_fs u)) hk2 ?_
    exact ho2.law_drop law hJ1 hk1.rep.orphan_refs
  have hne : f2 ≠ f := by
    rintro rfl
    have hzero := ref_of_freeFile hf2
    rw [hk1eq,added_file] at hzero
    cases hzero
  have hother : (T.get i).Orphan i → 1 < (T.get i).refs i := by
    intro horph
    have := h.rep.orphan_refs horph
    rw [Tree.get_refs_self]
    omega
  rw [wp_bind,wp_plain_setPath]
  refine copyOver hgains hk1 (h.closed f (ref_of_freeFile hf)) ho2
    (Gains.of_added (ref_of_freeFile hf2) hfd2 rfl) hk2 hE law hJ1
    (hW hcopy i2 ho2.resolve_or_free) hother ?_
  intro k3 k4 k5 T3 htag hloop hw _ hk4 hst hk5 hJ5 hcid hsame
  have hfree : k5.freeFile = some f := (hst.freeFile_eq h hk5).trans hf
  have htype : (T3.node i2).type = .file := hw.type.trans ho2.type
  refine (hk5.reopen_ok hE (hcl _ hJ5) hcr ((hw.resolve_iff ho2.type _).mpr ho2.resolve) htype
    fun hfull => hroom ((hst.full_iff h hk5).mp hfull)).mono ?_
  rintro r k6 ⟨fd3,f3,c3,rfl,hf3,hg3,hk6,hfile,hfiles⟩
  obtain rfl : f = f3 := Option.some.inj (hfree.symm.trans hf3)
  have hcid5 : (k5.file f).cid = o := by
    rw [hcid]
    change (update k1.file f2 _ f).cid = o
    rw [update_of_ne hne.symm,hk1eq,added_file]
  have hk3 := (hk2.tag (E := fun _ => True)).of_ok htag
  have htag' := wp.of_ok (E := fun _ => True) (wp_tag_added (Q := fun _ l => l = _).mpr rfl) htag
  have hfile1 : k3.file f = ⟨.inode,1,mayRead omode,mayWrite omode,c,0,o⟩ := by
    rw [hk3.1.other f hne.symm]
    change update k1.file f2 _ f = _
    rw [update_of_ne hne.symm,hk1eq,added_file]
  refine .copied (c := c3) hcopy hr ho2 ⟨hloop,hne.symm,?_,?_,?_,?_,hk3.2,hk4,hw⟩
    (hst.gains hg3) hk6 ?_ ?_ (law.get _ _ hJ5 (ne_of_eq_of_ne htype (by decide)))
  · rw [hfile1]
  · rw [hfile1]
  · rw [htag',added_file]
  · rw [htag',added_file]
  · rw [hfile,hcid5,ho,ownerTag,hhost,hreg,hcr,hfound]
    rfl
  · rw [hfiles]
    funext j
    simp only [entered,registers,hst.tables,hsame]
    rfl

theorem KRep.openRest_outcome {o : ℤ} {host there : Bool} (hJ : J T')
    (hf : k.freeFile = some f) (hfd : k.ofile (p, fd) = none) (hhost : host = k.isHost p)
    (hthere : there = k.registered p path)
    (ho : Opens sb T (V.dir p) (k.first p path omode) (creates omode) i T')
    (hmode : (T'.node i).type = .dir → omode = O_RDONLY)
    (hk1 : KRep sb (k.added s p fd f ⟨.inode, 1, mayRead omode, mayWrite omode, c, 0, o⟩)
      T' (V.withFile f i) ∅ [] []) :
    wp E (plain.openRest sb p (k.found p path) omode (k.callerCid p) host there fd f)
      (k.added s p fd f ⟨.inode, 1, mayRead omode, mayWrite omode, c, 0, o⟩)
      (Outcome sb J k T V p path omode) := by
  subst hhost hthere
  have hgains : ∀ o, Gains p k (k.added s p fd f
      ⟨.inode,1,mayRead omode,mayWrite omode,c,0,o⟩) fd f (mayWrite omode) :=
    fun o => Gains.of_added (ref_of_freeFile hf) hfd rfl
  simp only [PathOps.openRest,PathOps.settle,plain_lift]
  rw [wp_bind,wp_plain_setPath,wp_bind,wp_read]
  refine (wp_ownerOf hE _).bind ?_
  rintro owner' k1 ⟨rfl,rfl⟩
  rw [wp_bind,wp_setFile_added]
  have hk2 := hk1.added_cid (owner (k.found p path) k.allFiles)
  have htarget : k.copies p path omode = false →
      Opens sb T (V.dir p) (k.target p path omode) (creates omode) i T' := by
    intro hcopy
    rw [target_of_not_copies hcopy]
    exact ho
  refine wp_ite (fun hh => ?_) fun hh => wp_ite (fun ht => ?_) fun ht => wp_ite (fun hc => ?_)
    fun hc => ?_
  · have hcopy : k.copies p path omode = false := by simp [copies,hh]
    refine .opened (c := c) hcopy (hgains _) (htarget hcopy) hk2 ?_ (by rw [hh]; rfl) hJ
    rw [added_file,ownerTag,hh,Bool.true_or,if_pos rfl]
    rfl
  · have hcopy : k.copies p path omode = false := by simp [copies,ht]
    refine .opened (c := c) hcopy (hgains _) (htarget hcopy) hk2 ?_
      (by rw [ht,Bool.or_true]; rfl) hJ
    rw [added_file,ownerTag,ht,Bool.or_true,if_pos rfl]
    rfl
  · have hcopy : k.copies p path omode = false := by simp [copies,hc]
    rw [wp_bind]
    refine wp_redirect hE ((hk2.register hE).bind ?_)
    rintro - k2 ⟨hst,hfiles,hk3⟩
    have hfile2 := hst.file f (by rw [added_file]; exact Nat.one_ne_zero)
    rw [added_file] at hfile2
    rw [wp_bind,wp_plain_setPath]
    refine (hk3.setFile_moved ?_).with_ok.bind ?_
    · split
      · exact ⟨_,_,hk3.off_lt f,rfl⟩
      · exact ⟨_,_,hk3.off_lt f,rfl⟩
    rintro u k3 ⟨hset,hm,hk4⟩
    refine .opened (c := c) hcopy (((hgains _).stays hst).moved hm) (htarget hcopy) hk4 ?_ ?_ hJ
    swap
    · rw [hm.frame.files,hfiles,Bool.eq_false_iff.mpr hh,Bool.eq_false_iff.mpr ht,
        target_of_not_copies hcopy,hc,Bool.eq_false_iff.mpr hh]
      rfl
    cases hset
    change update k2.file f _ f = _
    rw [update_self,hfile2,ownerTag,Bool.eq_false_iff.mpr hh,Bool.eq_false_iff.mpr ht,hc]
    by_cases hz : owner (k.found p path) k.allFiles = 0
    · simp [hz]
    · simp [hz]
  · have hcopy : k.copies p path omode = true := by simp [copies,hh,ht,hc]
    have hfirst := first_of_copies hcopy
    obtain ⟨-,hfound,hcr,-,-⟩ := target_of_copies hcopy
    rw [hfirst,hcr] at ho
    cases ho with
    | plain hr hal =>
      rw [hfound] at hk2 ⊢
      rw [wp_bind]
      refine wp_redirect hE ?_
      have hsuffix : (k.added s p fd f ⟨.inode,1,mayRead omode,mayWrite omode,c,0,
          owner path k.allFiles⟩).suffixed p path = k.target p path omode :=
        (target_of_copies hcopy).1.symm
      have hout := h.copyTo_outcome hE law hcl hC hW hJ hf hfd hr hmode hcopy rfl hk2
      rw [← hsuffix] at hout
      exact hout

theorem KRep.sysOpen (hJ : J T) :
    wp E (Kernel.sysOpen sb p path omode) k (Outcome sb J k T V p path omode) := by
  simp only [Kernel.sysOpen,PathOps.sysOpen,plain_lift]
  rw [wp_bind,wp_read,wp_bind]
  refine wp_lookupRegistry hE ?_
  rw [wp_bind,wp_read,wp_bind]
  refine wp_openPath hE ?_
  -- a file that is created now is created under the target
  have hlaw : ∀ {i T'}, Opens sb T (V.dir p) (k.first p path omode) (creates omode) i T' → J T' := by
    intro i T' ho
    refine ho.law law hJ fun hcr => ?_
    rw [show k.first p path omode = _ from
      (target_of_not_copies (by simp [copies,hcr])).symm]
    exact hC (by simp [hcr])
  refine (h.openFile_cases hE (hcl T hJ)).bind ?_
  rintro r k1 (⟨rfl,hmiss,t,rfl,hk1⟩ | ⟨rfl,hfull,t,i,T',rfl,ho,hk1⟩ |
    ⟨fd,f,t,c,i,T',rfl,hf,hfd,rfl,ho,hmode,hk1⟩)
  · exact .missed t hmiss hk1 hJ
  · exact .full t hfull ho hk1 (ho.law_drop law (hlaw ho) h.rep.orphan_refs)
  · exact h.openRest_outcome hE law hcl hC hW (hlaw ho) hf hfd rfl rfl ho hmode hk1

end Law

theorem KRep.sysOpen_outcome (h : KRep sb k T V ∅ [] [])
    (hopen : Kernel.sysOpen sb p path omode k = .ok (r, k')) :
    Outcome sb (fun _ => True) k T V p path omode r k' :=
  (h.sysOpen (E := fun _ => True) (fun _ _ _ => trivial) (law_all sb)
    (fun _ _ hno => absurd trivial hno) (fun _ _ _ _ _ => trivial) (fun _ _ _ => trivial)
    trivial).of_ok hopen

end Kernel

end Xv6Container
