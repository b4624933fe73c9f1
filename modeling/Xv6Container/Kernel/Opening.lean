import Xv6Container.Fs.Grow
import Xv6Container.Kernel.Invariant
import Xv6Container.Kernel.Steady

/-! # What open does -/

namespace Xv6Container

open Function Prog Fs Set
open Option (some.inj)

namespace Kernel

variable {sb : Superblock} {k k' : Kernel} {s : Fs.State} {T T' : Tree} {V : View}
  {L : Finset ℕ} {H : Set (ISlot × ℕ)} {F : List FSlot} {E : Stop → Prop} {c : ISlot}
  {d i j w : ℕ} {f : FSlot} {fd : Fd} {p : PSlot} {path : Path} {omode : UInt32} {name : Name}
  {G : Guards} {J : Tree → Prop} {cwd : Option ISlot} {b : Bool}

/-- Opening `path` from directory `w` gives inode `i` and the tree `T'`; the flag says whether a
file may be created. -/
inductive Opens (sb : Superblock) (T : Tree) (w : ℕ) (path : Path) : Bool → ℕ → Tree → Prop
  | plain {i : ℕ} (hr : resolve T.node w path = some i) (hal : (T.node i).type ≠ .free) :
    Opens sb T w path false i (T.get i)
  | there {d k : ℕ} {name : Name} (hp : resolveParent T.node w path = some (d, name))
    (hk : (T.node d).find name = some k)
    (hfile : (T.node ((T.node d).dirent k).inum).type = .file) :
    Opens sb T w path true ((T.node d).dirent k).inum (T.get ((T.node d).dirent k).inum)
  | made {d i : ℕ} {name : Name} (hp : resolveParent T.node w path = some (d, name))
    (hk : (T.node d).find name = none) (h0 : 0 < i) (hlt : i < sb.ninodes)
    (hfree : (T.node i).type = .free) (hfirst : freeInode sb T.node = some i) :
    Opens sb T w path true i ((T.create d name i .file 0 0).get i)

theorem ne_of_resolveParent (hp : resolveParent T.node w path = some (d, name))
    (hfree : (T.node i).type = .free) : i ≠ d := by
  rintro rfl
  rw [show (T.node i).type = .dir from walkParent_dir hp] at hfree
  exact absurd hfree (by decide)

namespace Opens

theorem refs (h : Opens sb T w path b i T') (j : ℕ) :
    T'.refs j = T.refs j + if i = j then 1 else 0 := by
  have hget : ∀ {T : Tree} {i : ℕ}, (T.get i).refs j = T.refs j + if i = j then 1 else 0 := by
    intro T i
    split
    · next e => rw [← e,Tree.get_refs_self]
    · next e => rw [Tree.get_refs_of_ne (Ne.symm e),Nat.add_zero]
  cases h with
  | plain hr hal => exact hget
  | there hp hk hfile => exact hget
  | made hp hk h0 hlt hfree => exact hget

theorem node (h : Opens sb T w path b i T') (hj : (T.node j).type ≠ .free) :
    (T'.node j).type = (T.node j).type ∧ (T'.node j).nlink = (T.node j).nlink := by
  cases h with
  | plain hr hal | there hp hk hfile => exact ⟨rfl,rfl⟩
  | @made d i name hp hk h0 hlt hfree =>
    have hji : j ≠ i := by
      rintro rfl
      exact hj hfree
    rw [Tree.get_node]
    by_cases hjd : j = d
    · subst hjd
      rw [Tree.create_node_parent,if_neg (by decide)]
      exact ⟨rfl,rfl⟩
    · rw [Tree.create_node_of_ne hjd hji]
      exact ⟨rfl,rfl⟩

theorem node_of_file (h : Opens sb T w path b i T') (hj : (T.node j).type = .file) :
    T'.node j = T.node j := by
  cases h with
  | plain hr hal => rfl
  | there hp hk hfile => rfl
  | @made d i name hp hk h0 hlt hfree =>
    have hjd : j ≠ d := by
      rintro rfl
      rw [show (T.node j).type = .dir from walkParent_dir hp] at hj
      cases hj
    have hji : j ≠ i := by
      rintro rfl
      rw [hfree] at hj
      cases hj
    exact Tree.create_node_of_ne hjd hji

theorem alloc (h : Opens sb T w path b i T') : (T'.node i).type ≠ .free := by
  cases h with
  | plain hr hal => exact hal
  | there hp hk hfile =>
    rw [Tree.get_node,hfile]
    decide
  | made hp hk h0 hlt hfree =>
    rw [Tree.get_node,Tree.create_node_new (ne_of_resolveParent hp hfree),Node.new_type]
    decide

theorem type (h : Opens sb T w path true i T') : (T'.node i).type = .file := by
  cases h with
  | there hp hk hfile => exact hfile
  | made hp hk h0 hlt hfree =>
    rw [Tree.get_node,Tree.create_node_new (ne_of_resolveParent hp hfree),Node.new_type]

theorem orphan (h : Opens sb T w path b i T') (ho : T'.Orphan j) : T.Orphan j := by
  by_cases hj : (T.node j).type = .free
  · exfalso
    cases h with
    | plain hr hal | there hp hk hfile => exact ho.1 hj
    | @made d i name hp hk h0 hlt hfree =>
      have hnode := ho
      rw [Tree.Orphan,Tree.get_node] at hnode
      by_cases hji : j = i
      · subst hji
        rw [Tree.create_node_new (ne_of_resolveParent hp hfree)] at hnode
        have h1 : (1 : Int16) = 0 := hnode.2
        exact absurd h1 (by decide)
      · rw [Tree.create_node_of_ne (ne_of_resolveParent hp hj) hji] at hnode
        exact hnode.1 hj
  · obtain ⟨-,hn⟩ := h.node hj
    exact ⟨hj,by rw [← hn]; exact ho.2⟩

theorem resolve (h : Opens sb T w path b i T') : resolve T'.node w path = some i := by
  cases h with
  | plain hr hal => exact hr
  | there hp hk hfile => exact walk_of_walkParent hp hk
  | made hp hk h0 hlt hfree =>
    exact Tree.create_resolve h0 (hlt.trans_le sb.ninodes_le) hfree hp hk (by decide)

theorem resolve_or_free (h : Opens sb T w path b i T') :
    Fs.resolve T.node w path = some i ∨ (T.node i).type = .free := by
  cases h with
  | plain hr hal => exact .inl hr
  | there hp hk hfile => exact .inl (walk_of_walkParent hp hk)
  | made hp hk h0 hlt hfree => exact .inr hfree

theorem law (h : Opens sb T w path b i T') (law : Law sb G J) (hJ : J T)
    (hG : b = true → ∀ d name, resolveParent T.node w path = some (d, name) →
      (T.node d).find name = none → G.create T.node d .file) : J T' := by
  cases h with
  | plain hr hal => exact law.get T _ hJ hal
  | there hp hk hfile => exact law.get T _ hJ (by rw [hfile]; decide)
  | made hp hk h0 hlt hfree =>
    refine law.get _ _ (law.create T _ _ _ _ _ _ (hG rfl _ _ hp hk) hJ (walkParent_dir hp) hk h0 hlt
      hfree (by decide)) ?_
    rw [Tree.create_node_new (ne_of_resolveParent hp hfree),Node.new_type]
    decide

end Opens

theorem create_put (hT : T.Orphan d → 0 < T.refs d) :
    (((T.get d).create d name i .file 0 0).get i).put d = (T.create d name i .file 0 0).get i := by
  have hcomm : ((T.get d).create d name i .file 0 0).get i =
      ((T.create d name i .file 0 0).get i).get d :=
    Tree.get_comm (T := T.create d name i .file 0 0)
  rw [hcomm]
  refine Tree.get_put fun ho => lt_of_lt_of_le (hT ?_) Tree.le_get_refs
  rw [Tree.Orphan,Tree.get_node,Tree.create_node_parent,if_neg (by decide)] at ho
  exact ho

theorem rep_create (h : Rep sb s T ∅ H) (hE : Lax E) (hcwd : ∀ c, cwd = some c → (c, w) ∈ H)
    (hs : ¬ E (.panic "ilock: no type") → T.Closed) (path : Path) :
    wp E (create sb cwd path .file 0 0) s fun r t => (r = none ∧ Rep.Taken T w path .file ∧ Rep sb t T ∅ H) ∨
      ∃ c i T', r = some c ∧ Opens sb T w path true i T' ∧ Rep sb t T' {i} (insert (c, i) H) := by
  refine (h.create hE hcwd hs path (by decide)).mono ?_
  rintro r t (htaken | ⟨c,d,name,hp,rfl,⟨k,i,hk,rfl,-,hfile,ht⟩ | ⟨i,hk,h0,hlt,hfree,hfirst,ht⟩⟩)
  · exact .inl htaken
  · exact .inr ⟨c,_,_,rfl,Opens.there hp hk hfile,ht⟩
  · rw [create_put h.orphan_refs] at ht
    exact .inr ⟨c,i,_,rfl,Opens.made hp hk h0 hlt hfree hfirst,ht⟩

/-- The path cannot be opened: there is nothing to open, or it is a directory and the mode is not
for reading only. -/
def Misses (T : Tree) (w : ℕ) (path : Path) (omode : UInt32) : Prop :=
  if creates omode then Rep.Taken T w path .file
  else ∀ i, resolve T.node w path = some i → (T.node i).type = .dir ∧ omode ≠ O_RDONLY

theorem rep_openInode (h : Rep sb s T ∅ H) (hE : Lax E) (hcwd : ∀ c, cwd = some c → (c, w) ∈ H)
    (hs : ¬ E (.panic "ilock: no type") → T.Closed)
    (hw : ¬ E (.panic "ilock: no type") → (T.node w).type ≠ .free) :
    wp E (openInode sb cwd path omode) s fun r t =>
      (r = none ∧ Misses T w path omode ∧ Rep sb t T ∅ H) ∨
      ∃ c i T', r = some c ∧ Opens sb T w path (creates omode) i T' ∧
        ((T'.node i).type = .dir → omode = O_RDONLY) ∧ Rep sb t T' {i} (insert (c, i) H) := by
  rw [openInode,Misses]
  refine wp_ite (fun hcr => ?_) fun hcr => ?_
  · rw [if_pos hcr]
    refine (rep_create h hE hcwd hs path).mono ?_
    rintro r t (⟨hr,htaken,ht⟩ | ⟨c,i,T',rfl,ho,ht⟩)
    · exact .inl ⟨hr,htaken,ht⟩
    · rw [hcr]
      refine .inr ⟨c,i,T',rfl,ho,fun hdir => ?_,ht⟩
      rw [ho.type] at hdir
      exact absurd hdir (by decide)
  rw [if_neg hcr]
  refine (h.namei hE.calm (fun _ => hE.wild) hcwd hs path).bind ?_
  rintro r t (⟨rfl,hj,ht⟩ | ⟨c,i,rfl,hj,ht⟩)
  · exact .inl ⟨rfl,fun i hi => absurd (hj.symm.trans hi) (by simp),ht⟩
  have hc : (c, i) ∈ insert (c, i) H := mem_insert _ _
  refine (ht.ilock_first hE hc fun hno => (hs hno).resolve (hw hno) hj).bind ?_
  rintro - u ⟨hal,hu⟩
  rw [wp_bind,wp_read,(hu.copy hc (Finset.mem_singleton_self i)).1,Tree.get_node]
  refine wp_ite (fun hmode => ?_) fun hmode => ?_
  · refine (hu.leave hE h.orphan_refs fun _ hc' => h.refs_pos hc').bind ?_
    rintro - v hv
    exact .inl ⟨rfl,fun j hij => some.inj (hj.symm.trans hij) ▸ hmode,hv⟩
  · rw [Bool.not_eq_true _ |>.mp hcr]
    refine .inr ⟨c,i,_,rfl,Opens.plain hj hal,fun hdir => ?_,hu⟩
    by_contra hne
    exact hmode ⟨hdir,hne⟩

/-- Outside the file system and the registries, open files and all but the files are as before. -/
structure Base (k k' : Kernel) : Prop where
  tables : k'.tables = k.tables
  cwd : k'.cwd = k.cwd
  called : k'.createContainerCalled = k.createContainerCalled
  lsCalled : k'.lsCalled = k.lsCalled
  stack : k'.stack = k.stack
  file : ∀ e, (k.file e).ref ≠ 0 → k'.file e = k.file e

theorem Base.trans {k'' : Kernel} (h : Base k k') (h' : Base k' k'') : Base k k'' := by
  refine ⟨h'.tables.trans h.tables,h'.cwd.trans h.cwd,h'.called.trans h.called,
    h'.lsCalled.trans h.lsCalled,h'.stack.trans h.stack,fun e he => ?_⟩
  have hf := h.file e he
  rw [← hf]
  exact h'.file e (by rw [hf]; exact he)

theorem Base.closed (h : Base k k') (hf : (k'.file f).ref = 0) : (k.file f).ref = 0 := by
  by_contra hne
  rw [h.file f hne] at hf
  exact hne hf

/-- No descriptor has changed. -/
structure Stays (k k' : Kernel) : Prop extends Base k k' where
  ofile : k'.ofile = k.ofile

/-- Process `p` has got descriptor `fd` on a new file `f`. -/
structure Gains (p : PSlot) (k k' : Kernel) (fd : Fd) (f : FSlot) (writable : Bool) : Prop
    extends Base k k' where
  fresh : (k.file f).ref = 0
  unused : k.ofile (p, fd) = none
  ofile : k'.ofile = update k.ofile (p, fd) (some f)
  ref : (k'.file f).ref = 1
  writable : (k'.file f).writable = writable

theorem Stays.of_fs (s : Fs.State) : Stays k { k with fs := s } :=
  ⟨⟨rfl,rfl,rfl,rfl,rfl,fun _ _ => rfl⟩,rfl⟩

theorem Gains.of_added (hf : (k.file f).ref = 0) (hfd : k.ofile (p, fd) = none) {g : File}
    (hg : g.ref = 1) : Gains p k (k.added s p fd f g) fd f g.writable := by
  have hself : (k.added s p fd f g).file f = g := update_self ..
  refine ⟨⟨rfl,rfl,rfl,rfl,rfl,fun e he => update_of_ne ?_ _ _⟩,hf,hfd,rfl,?_,?_⟩
  · rintro rfl
    exact he hf
  · rw [hself,hg]
  · rw [hself]

section

variable {k'' : Kernel} {wr : Bool}

theorem Stays.gains (h : Stays k k') (h' : Gains p k' k'' fd f wr) : Gains p k k'' fd f wr := by
  refine ⟨h.toBase.trans h'.toBase,h.closed h'.fresh,?_,?_,h'.ref,h'.writable⟩
  · rw [← h.ofile]
    exact h'.unused
  · rw [← h.ofile]
    exact h'.ofile

theorem Gains.stays (h : Gains p k k' fd f wr) (h' : Stays k' k'') : Gains p k k'' fd f wr := by
  have hf : k''.file f = k'.file f := h'.file f (by rw [h.ref]; decide)
  refine ⟨h.toBase.trans h'.toBase,h.fresh,h.unused,h'.ofile.trans h.ofile,?_,?_⟩
  · rw [hf]
    exact h.ref
  · rw [hf]
    exact h.writable

theorem Gains.moved (h : Gains p k k' fd f wr) (h' : Moved {f} k' k'') : Gains p k k'' fd f wr := by
  obtain ⟨off,cid,hf⟩ := h'.same f
  refine ⟨⟨h'.frame.tables.trans h.tables,h'.frame.cwd.trans h.cwd,
    h'.frame.called.trans h.called,h'.frame.lsCalled.trans h.lsCalled,
    h'.frame.stack.trans h.stack,fun e he => ?_⟩,h.fresh,h.unused,h'.frame.ofile.trans h.ofile,?_,?_⟩
  · have hef : e ≠ f := by
      rintro rfl
      exact he h.fresh
    rw [h'.other e hef]
    exact h.file e he
  · rw [hf]
    exact h.ref
  · rw [hf]
    exact h.writable

end

theorem Opens.not_last (h : Opens sb T w path b i T') (hT : T.Orphan i → 0 < T.refs i) :
    ¬ (T'.Orphan i ∧ T'.refs i = 1) := by
  rintro ⟨ho,h1⟩
  have := hT (h.orphan ho)
  rw [h.refs i,if_pos rfl] at h1
  omega

namespace KRep

theorem opened (h : KRep sb k T V ∅ [] F) (ho : Opens sb T w path b i T')
    (hs : Rep sb s T' {i} (insert (c, i) (held k V []))) :
    KRep sb { k with fs := s } T' V {i} [(c, i)] F := by
  refine h.fs_step (by rw [held_cons]; exact hs) (fun j => ?_)
    fun j hj => (ho.node (h.holds_alloc hj)).1
  rw [ho.refs j,h.refs j]
  simp only [List.countP_cons,List.countP_nil,decide_eq_true_eq]
  omega

theorem install_cases (h : KRep sb k T V ∅ [] F) (hE : Lax E) (ho : Opens sb T w path b i T')
    (hs : Rep sb s T' {i} (insert (c, i) (held k V []))) (readable writable : Bool)
    (hw : writable = true → (T'.node i).type ≠ .dir) :
    wp E (Kernel.install p c readable writable) { k with fs := s } fun r k' =>
      (r = none ∧ k.Full p ∧ ∃ t, k' = { k with fs := t } ∧ KRep sb k' (T'.drop i) V ∅ [] F) ∨
      ∃ fd f t, r = some (fd, f) ∧ k.freeFile = some f ∧ k.ofile (p, fd) = none ∧
        k' = k.added t p fd f ⟨.inode, 1, readable, writable, c, 0, (k.file f).cid⟩ ∧
        KRep sb k' T' (V.withFile f i) ∅ [] F := by
  refine ((h.opened ho hs).install hE ho.alloc readable writable hw).mono ?_
  rintro r k' (⟨rfl,hfull,t,rfl,hk'⟩ | hsome)
  · rw [Tree.put_of_not_last (ho.not_last h.rep.orphan_refs)] at hk'
    exact .inl ⟨rfl,hfull,t,rfl,hk'⟩
  · exact .inr hsome

theorem openFile_cases (h : KRep sb k T V ∅ [] F) (hE : Lax E)
    (hcl : ¬ E (.panic "ilock: no type") → T.Closed) :
    wp E (Kernel.openFile sb p path omode) k fun r k' =>
      (r = none ∧ Misses T (V.dir p) path omode ∧ ∃ t, k' = { k with fs := t } ∧
        KRep sb k' T V ∅ [] F) ∨
      (r = none ∧ k.Full p ∧ ∃ t i T', k' = { k with fs := t } ∧
        Opens sb T (V.dir p) path (creates omode) i T' ∧ KRep sb k' (T'.drop i) V ∅ [] F) ∨
      ∃ fd f t c i T', r = some (fd, f) ∧ k.freeFile = some f ∧ k.ofile (p, fd) = none ∧
        k' = k.added t p fd f ⟨.inode, 1, mayRead omode, mayWrite omode, c, 0, (k.file f).cid⟩ ∧
        Opens sb T (V.dir p) path (creates omode) i T' ∧
        ((T'.node i).type = .dir → omode = O_RDONLY) ∧
        KRep sb k' T' (V.withFile f i) ∅ [] F := by
  rw [Kernel.openFile,wp_bind,wp_read,wp_bind,wp_onFs]
  refine (rep_openInode h.rep hE h.cwd_mem hcl fun hno => h.dir_alloc (hcl hno).root).mono ?_
  rintro r s (⟨rfl,hmiss,hs⟩ | ⟨c,i,T',rfl,ho,hmode,hs⟩)
  · exact .inl ⟨rfl,hmiss,s,rfl,h.fs_step hs h.refs fun _ _ => rfl⟩
  · refine (h.install_cases hE ho hs _ _ fun hw hdir => ?_).mono ?_
    · rw [hmode hdir] at hw
      exact absurd hw (by decide)
    · rintro r k' (⟨rfl,hfull,t,hk',hrep⟩ | ⟨fd,f,t,rfl,hf,hfd,hk',hrep⟩)
      · exact .inr (.inl ⟨rfl,hfull,t,i,T',hk',ho,hrep⟩)
      · exact .inr (.inr ⟨fd,f,t,c,i,T',rfl,hf,hfd,hk',ho,hmode,hrep⟩)

theorem copyLoop {f2 : FSlot} (hE : Lax E) (law : Law sb G J) (hG : G.write i) (fuel : ℕ)
    (k : Kernel) (T : Tree) (h : KRep sb k T V ∅ [] F) (hJ : J T) (hV : V.file f2 = some i) :
    wp E (Kernel.copyLoop sb f f2 fuel) k fun _ k' => Moved {f, f2} k k' ∧
      ∃ T', Written i T T' ∧ KRep sb k' T' V ∅ [] F ∧ J T' := by
  induction fuel generalizing k T with
  | zero => exact hE.blocked
  | succ fuel ih =>
    rw [Kernel.copyLoop]
    refine (h.fileread hE (by decide)).bind ?_
    rintro r k1 ⟨hm,hk1⟩
    have hm := hm.mono (singleton_subset_iff.mpr (mem_insert f {f2}))
    have hdone : Moved {f, f2} k k1 ∧ ∃ T', Written i T T' ∧ KRep sb k1 T' V ∅ [] F ∧ J T' :=
      ⟨hm,T,Written.refl i T,hk1,hJ⟩
    match r with
    | none => exact hdone
    | some [] => exact hdone
    | some (b :: bs) =>
      have hGf : ∀ j, V.file f2 = some j → G.write j := by
        intro j hj
        rw [hV] at hj
        exact some.inj hj ▸ hG
      refine (hk1.filewrite hE law hJ hGf).bind ?_
      rintro - k2 ⟨hm2,T2,hk2,hJ2,hT2⟩
      have hw : Written i T T2 := by
        rcases hT2 with rfl | ⟨j,hj,-,hw⟩
        · exact Written.refl i _
        · rw [hV] at hj
          exact some.inj hj ▸ hw
      refine (ih k2 T2 hk2 hJ2).mono ?_
      rintro - k3 ⟨hm3,T3,hw3,hk3,hJ3⟩
      have hm2 := hm2.mono (singleton_subset_iff.mpr (mem_insert_of_mem f (mem_singleton f2)))
      exact ⟨(hm.trans hm2).trans hm3,T3,hw.trans hw3,hk3,hJ3⟩

end KRep

/-- Descriptor `fd` of process `p` and the file `f` under it are closed. -/
structure Closes (p : PSlot) (fd : Fd) (f : FSlot) (k k' : Kernel) : Prop where
  tables : k'.tables = k.tables
  cwd : k'.cwd = k.cwd
  called : k'.createContainerCalled = k.createContainerCalled
  lsCalled : k'.lsCalled = k.lsCalled
  stack : k'.stack = k.stack
  ofile : k'.ofile = update k.ofile (p, fd) none
  file : ∀ e, e ≠ f → k'.file e = k.file e

namespace KRep

theorem closeFd (h : KRep sb k T V ∅ [] []) (hE : Lax E) (hfd : k.ofile (p, fd) = some f)
    (hV : V.file f = some i) (href : (k.file f).ref = 1) :
    wp E (Kernel.closeFd p fd f) k fun _ k' => Closes p fd f k k' ∧
      KRep sb k' (T.put i) (V.withoutFile f) ∅ [] [] := by
  rw [Kernel.closeFd,setOfile,wp_bind,wp_modify]
  refine ((h.clear_fd hfd).fileclose hE).mono ?_
  rintro - k' ⟨hfr,hfile,(⟨hne,-⟩ | ⟨j,hj,-,hk'⟩)⟩
  · rcases hne with hne | hne
    · exact absurd href hne
    · rw [hV] at hne
      exact absurd hne (by simp)
  · rw [hV] at hj
    obtain rfl := some.inj hj
    exact ⟨⟨hfr.tables,hfr.cwd,hfr.called,hfr.lsCalled,hfr.stack,hfr.ofile,hfile⟩,hk'⟩

end KRep

/-- The path with the number of the caller's container. -/
def suffixed (k : Kernel) (p : PSlot) (path : Path) : Path :=
  path ++ myItoa k.stack (k.tables.proc p).cid

theorem plain_lift {α : Type} (m : KM α) : plain.lift m = m := rfl

theorem wp_plain_setPath {Q : Unit → Kernel → Prop} :
    wp E (plain.setPath f path) k Q ↔ Q () k := Iff.rfl

/-- The registries with `path` entered for container `cid`. -/
def entered (k : Kernel) (cid : ℤ) (path : Path) : CSlot → List Path := fun i =>
  if k.registers cid i then k.files i ++ [path] else k.files i

theorem wp_redirect {Q : Path → Kernel → Prop} (hE : Lax E) (hQ : Q (k.suffixed p path) k) :
    wp E (plain.redirect p path) k Q := by
  change wp E (redirect p path) k Q
  rw [redirect,wp_bind,wp_read]
  exact wp_ite (fun _ => hQ) fun _ => hE.wild

namespace KRep

variable {X : List (ISlot × ℕ)} {cid : ℤ}

theorem setFile_moved {g : File → File} (h : KRep sb k T V L X F)
    (hg : ∃ off cid, off < 2 ^ 32 ∧ g (k.file f) = { k.file f with off := off, cid := cid }) :
    wp E (setFile f g) k fun _ k' => Moved {f} k k' ∧ KRep sb k' T V L X F := by
  obtain ⟨off,cid,hoff,hg⟩ := hg
  rw [setFile,wp_modify,hg]
  exact ⟨Moved.of_update k.fs f off cid,h.touch_file f _ rfl rfl hoff rfl rfl⟩

theorem tag (h : KRep sb k T V L X F) :
    wp E (Kernel.tag f cid) k fun _ k' => Moved {f} k k' ∧ KRep sb k' T V L X F := by
  refine h.setFile_moved ?_
  split
  · exact ⟨_,_,h.off_lt f,rfl⟩
  · exact ⟨_,_,h.off_lt f,rfl⟩

theorem register (h : KRep sb k T V L X F) (hE : Lax E) :
    wp E (plain.register cid path) k fun _ k' => Stays k k' ∧ k'.files = k.entered cid path ∧
      KRep sb k' T V L X F := by
  change wp E (Kernel.register cid path) k _
  rw [Kernel.register,wp_bind,wp_read]
  refine wp_ite (fun _ => ?_) fun _ => hE.wild
  exact ⟨⟨⟨rfl,rfl,rfl,rfl,rfl,fun _ _ => rfl⟩,rfl⟩,rfl,h.with_tables _ _ _ _ _ _⟩

end KRep

theorem stays_of_closes {k0 k1 k2 k3 k4 k5 : Kernel} {fd2 : Fd} {f2 : FSlot} {wr wr2 : Bool}
    (h₁ : Gains p k0 k1 fd f wr) (h₂ : Gains p k1 k2 fd2 f2 wr2) (h3 : Moved {f, f2} k2 k3)
    (h4 : Closes p fd f k3 k4) (h5 : Closes p fd2 f2 k4 k5) : Stays k0 k5 := by
  have hfr := h3.frame
  refine ⟨⟨?_,?_,?_,?_,?_,fun e he => ?_⟩,?_⟩
  · rw [h5.tables,h4.tables,hfr.tables,h₂.tables,h₁.tables]
  · rw [h5.cwd,h4.cwd,hfr.cwd,h₂.cwd,h₁.cwd]
  · rw [h5.called,h4.called,hfr.called,h₂.called,h₁.called]
  · rw [h5.lsCalled,h4.lsCalled,hfr.lsCalled,h₂.lsCalled,h₁.lsCalled]
  · rw [h5.stack,h4.stack,hfr.stack,h₂.stack,h₁.stack]
  · have hef : e ≠ f := by
      rintro rfl
      exact he h₁.fresh
    have hef2 : e ≠ f2 := by
      rintro rfl
      exact he (h₁.closed h₂.fresh)
    rw [h5.file e hef2,h4.file e hef,h3.other e (by simp [hef,hef2]),
      (h₁.toBase.trans h₂.toBase).file e he]
  have hunused : k0.ofile (p, fd2) = none := by
    have := h₂.unused
    rw [h₁.ofile,update_apply] at this
    split at this
    · exact absurd this (by simp)
    · exact this
  funext x
  rw [h5.ofile,h4.ofile,hfr.ofile,h₂.ofile,h₁.ofile]
  by_cases hx2 : x = (p, fd2)
  · rw [hx2,update_self,hunused]
  · rw [update_of_ne hx2]
    by_cases hx : x = (p, fd)
    · rw [hx,update_self,h₁.unused]
    · rw [update_of_ne hx,update_of_ne hx2,update_of_ne hx]

theorem withoutFile_both {f2 : FSlot} {i2 : ℕ} (h : V.file f = none) (h2 : V.file f2 = none) :
    (((V.withFile f i).withFile f2 i2).withoutFile f).withoutFile f2 = V := by
  have hfile : ((((V.withFile f i).withFile f2 i2).withoutFile f).withoutFile f2).file = V.file := by
    funext e
    simp only [View.withFile,View.withoutFile,update_apply]
    split
    · next e2 => rw [e2,h2]
    · split
      · next e1 => rw [e1,h]
      · rfl
  obtain ⟨file,cwd⟩ := V
  simp only [View.withFile,View.withoutFile] at hfile ⊢
  rw [hfile]

theorem Written.orphan (h : Written i T T') : T'.Orphan j ↔ T.Orphan j := by
  obtain ⟨size,data,rfl⟩ := h
  rw [Tree.Orphan,Tree.Orphan]
  by_cases hj : j = i
  · rw [hj,Tree.setNode_self]
  · rw [Tree.setNode_of_ne _ hj]

namespace KRep

variable {cid : ℤ} {k0 : Kernel} {wr : Bool}

/-- The end of a copy: both files are closed. An orphan that was opened has other references, so
nothing is freed. -/
theorem closeBoth {f2 : FSlot} {fd2 : Fd} {i2 : ℕ} {T2 : Tree} {wr2 : Bool}
    (hg : Gains p k0 k fd f wr) (hg2 : Gains p k k' fd2 f2 wr2) {k3 : Kernel}
    (hm : Moved {f, f2} k' k3) (hV : V.file f = none) (hV2 : V.file f2 = none) (hE : Lax E)
    (h : KRep sb k3 T2 ((V.withFile f i).withFile f2 i2) ∅ [] [])
    (hi : T2.Orphan i → 2 < T2.refs i ∨ i ≠ i2 ∧ 1 < T2.refs i)
    (hi2 : T2.Orphan i2 → 1 < T2.refs i2) :
    wp E (do Kernel.closeFd p fd f; Kernel.closeFd p fd2 f2) k3 fun _ k5 =>
      Stays k0 k5 ∧ KRep sb k5 ((T2.drop i).drop i2) V ∅ [] [] ∧
        ∀ G J, Law sb G J → J T2 → J ((T2.drop i).drop i2) := by
  have href : (k.file f).ref ≠ 0 := by
    rw [hg.ref]
    decide
  have hne : f ≠ f2 := by
    rintro rfl
    exact href hg2.fresh
  have hfds : (p, fd) ≠ (p, fd2) := by
    intro e
    have := hg2.unused
    rw [← e,hg.ofile,update_self] at this
    exact absurd this (by simp)
  have hfd : k3.ofile (p, fd) = some f := by
    rw [hm.frame.ofile,hg2.ofile,update_of_ne hfds,hg.ofile,update_self]
  have hVi : ((V.withFile f i).withFile f2 i2).file f = some i := by
    simp [View.withFile,hne]
  have hrefs : ∀ e, (k3.file e).ref = (k'.file e).ref := by
    intro e
    obtain ⟨off,cid,he⟩ := hm.same e
    rw [he]
  have hpos : 0 < T2.refs i := h.rep.refs_pos (file_mem hVi)
  refine (h.closeFd hE hfd hVi (by rw [hrefs,hg2.file f href,hg.ref])).bind ?_
  rintro - k4 ⟨hc,hk4⟩
  have hlast : ¬ (T2.Orphan i ∧ T2.refs i = 1) := by
    rintro ⟨ho,h1⟩
    rcases hi ho with h2 | h2
    · omega
    · omega
  rw [Tree.put_of_not_last hlast] at hk4
  have hfd2 : k4.ofile (p, fd2) = some f2 := by
    rw [hc.ofile,update_of_ne hfds.symm,hm.frame.ofile,hg2.ofile,update_self]
  have hVi2 : (((V.withFile f i).withFile f2 i2).withoutFile f).file f2 = some i2 := by
    simp [View.withFile,View.withoutFile,hne.symm]
  have hpos2 : 0 < (T2.drop i).refs i2 := hk4.rep.refs_pos (file_mem hVi2)
  have hlast2 : ¬ ((T2.drop i).Orphan i2 ∧ (T2.drop i).refs i2 = 1) := by
    rintro ⟨ho,h1⟩
    have ho2 : T2.Orphan i2 := ho
    have hr2 := hi2 ho2
    by_cases hii : i2 = i
    · subst hii
      have := (hi ho2).resolve_right fun hn => hn.1 rfl
      have hdrop : (T2.drop i2).refs i2 = T2.refs i2 - 1 := update_self ..
      omega
    · have hdrop : (T2.drop i).refs i2 = T2.refs i2 := update_of_ne hii _ _
      omega
  refine (hk4.closeFd hE hfd2 hVi2 (by rw [hc.file f2 hne.symm,hrefs,hg2.ref])).mono ?_
  rintro - k5 ⟨hc',hk5⟩
  rw [withoutFile_both hV hV2,Tree.put_of_not_last hlast2] at hk5
  refine ⟨stays_of_closes hg hg2 hm hc hc',hk5,fun G J law hJ => ?_⟩
  exact law.drop _ i2 (law.drop T2 i hJ hpos hlast) hpos2 hlast2

theorem copyOver {f2 : FSlot} {fd2 : Fd} {i2 : ℕ} {k1 : Kernel} {T1 : Tree} {m : KM (Option Fd)}
    {Q : Option Fd → Kernel → Prop} (hg : Gains p k0 k fd f wr)
    (h : KRep sb k T (V.withFile f i) ∅ [] []) (hV : V.file f = none)
    (ho : Opens sb T w path true i2 T1) (hg2 : Gains p k k1 fd2 f2 true)
    (hk1 : KRep sb k1 T1 ((V.withFile f i).withFile f2 i2) ∅ [] []) (hE : Lax E) (law : Law sb G J)
    (hJ1 : J T1) (hW : G.write i2) (hother : T.Orphan i → 1 < T.refs i)
    (hQ : ∀ k2 k3 k6 T3, Kernel.tag f2 cid k1 = .ok ((), k2) →
      Kernel.copyLoop sb f f2 (copyFuel k2) k2 = .ok ((), k3) → Written i2 T1 T3 → J T3 →
      KRep sb k3 T3 ((V.withFile f i).withFile f2 i2) ∅ [] [] → Stays k0 k6 →
      KRep sb k6 ((T3.drop i).drop i2) V ∅ [] [] → J ((T3.drop i).drop i2) →
      (k6.file f).cid = (k1.file f).cid → k6.files = k1.files → wp E m k6 Q) :
    wp E (do
      Kernel.tag f2 cid
      let fuel ← read copyFuel
      Kernel.copyLoop sb f f2 fuel
      setFile f2 fun ff => { ff with off := 0 }
      setFile f fun ff => { ff with off := 0 }
      Kernel.closeFd p fd f
      Kernel.closeFd p fd2 f2
      m) k1 Q := by
  have hV2' : (V.withFile f i).file f2 = none := h.closed f2 hg2.fresh
  have hne : f2 ≠ f := by
    rintro rfl
    simp [View.withFile] at hV2'
  have hV2 : V.file f2 = none := by simpa [View.withFile,hne] using hV2'
  have hsteady : Steady fun l => (l.file f).cid = (k1.file f).cid ∧ l.files = k1.files :=
    fun _ _ _ hf _ hcid h => ⟨(hcid f).trans h.1,hf.trans h.2⟩
  refine hk1.tag.with_ok.bind ?_
  rintro u k2 ⟨htag,hm2,hk2⟩
  have hcid2 : (k2.file f).cid = (k1.file f).cid ∧ k2.files = k1.files :=
    ⟨by rw [hm2.other f hne.symm],hm2.frame.files⟩
  rw [wp_bind,wp_read]
  have hfile2 : ((V.withFile f i).withFile f2 i2).file f2 = some i2 := by simp [View.withFile]
  refine (copyLoop hE law hW _ k2 T1 hk2 hJ1 hfile2).with_ok.bind ?_
  rintro u k3 ⟨hloop,hm3,T3,hw,hk3,hJ3⟩
  have hcid3 := (hsteady.copyLoop f2 _ k2 _ k3 hcid2 hloop).1
  refine (hk3.setFile_moved ⟨0,_,by decide,rfl⟩).with_ok.bind ?_
  rintro u k4 ⟨hset4,hm4,hk4⟩
  have hcid4 := (hsteady.setFile (by intro; rfl) k3 _ k4 hcid3 hset4).1
  refine (hk4.setFile_moved ⟨0,_,by decide,rfl⟩).with_ok.bind ?_
  rintro u k5 ⟨hset5,hm5,hk5⟩
  have hcid5 := (hsteady.setFile (by intro; rfl) k4 _ k5 hcid4 hset5).1
  have hsub : ({f} : Set FSlot) ⊆ {f, f2} := singleton_subset_iff.mpr (mem_insert f {f2})
  have hsub2 : ({f2} : Set FSlot) ⊆ {f, f2} :=
    singleton_subset_iff.mpr (mem_insert_of_mem f (mem_singleton f2))
  have hm := (((hm2.mono hsub2).trans hm3).trans (hm4.mono hsub2)).trans (hm5.mono hsub)
  have hrefs : ∀ j, T3.refs j = T.refs j + if i2 = j then 1 else 0 := by
    intro j
    rw [hw.refs,ho.refs]
  have hi : T3.Orphan i → 2 < T3.refs i ∨ i ≠ i2 ∧ 1 < T3.refs i := by
    intro horph
    have h1 := hother (ho.orphan (hw.orphan.mp horph))
    rw [hrefs i]
    split
    · next e => exact .inl (by omega)
    · next e => exact .inr ⟨Ne.symm e,by omega⟩
  have hi2 : T3.Orphan i2 → 1 < T3.refs i2 := by
    intro horph
    have h1 := h.rep.orphan_refs (ho.orphan (hw.orphan.mp horph))
    rw [hrefs i2,if_pos rfl]
    omega
  refine wp.bind_bind (closeBoth hg hg2 hm hV hV2 hE hk5 hi hi2).with_ok ?_
  rintro u k6 ⟨hclose,hst,hk6,hJ6⟩
  have hcid6 := (hsteady.closeFd.bind (fun _ _ => hsteady.closeFd) k5 _ k6 hcid5 hclose).1
  exact hQ k2 k3 k6 T3 htag hloop hw hJ3 hk3 hst hk6 (hJ6 G J law hJ3) hcid6.1 hcid6.2

end KRep

/-- The caller is taken to be outside of all containers. -/
def isHost (k : Kernel) (p : PSlot) : Bool := k.callerCid p = -1 || !k.createContainerCalled

/-- The caller's container has the path in its registry. -/
def registered (k : Kernel) (p : PSlot) (path : Path) : Bool :=
  match k.tables.findLive (k.callerCid p) with
  | none => false
  | some i => (k.files i).any fun g => mystrcmp g (k.suffixed p path)

/-- The path after the registry was searched. -/
def found (k : Kernel) (p : PSlot) (path : Path) : Path :=
  if k.registered p path then k.suffixed p path else path

/-- A host file is to be copied into the container. -/
def copies (k : Kernel) (p : PSlot) (path : Path) (omode : UInt32) : Bool :=
  !k.isHost p && !k.registered p path && !creates omode

/-- The path that is open for the caller in the end. -/
def target (k : Kernel) (p : PSlot) (path : Path) (omode : UInt32) : Path :=
  if k.isHost p then k.found p path
  else if creates omode || !k.registered p path then k.suffixed p (k.found p path)
  else k.found p path

theorem target_of_copies (h : k.copies p path omode = true) :
    k.target p path omode = k.suffixed p path ∧ k.found p path = path ∧ creates omode = false ∧
      k.isHost p = false ∧ k.registered p path = false := by
  simp only [copies,Bool.and_eq_true,Bool.not_eq_true'] at h
  obtain ⟨⟨hh,hr⟩,hc⟩ := h
  simp [target,found,hh,hr,hc]

theorem target_of_not_copies (h : k.copies p path omode = false) : k.target p path omode =
    if creates omode && !k.isHost p then k.suffixed p (k.found p path) else k.found p path := by
  rw [copies] at h
  rw [target]
  cases hh : k.isHost p <;> cases hr : k.registered p path <;> cases hc : creates omode <;>
    simp_all

theorem wp_lookupRegistry {Q : Path × Bool → Kernel → Prop} (hE : Lax E)
    (hQ : Q (k.found p path, k.registered p path) k) :
    wp E (plain.lookupRegistry p (k.callerCid p) path) k Q := by
  rw [PathOps.lookupRegistry,wp_bind,plain_lift,wp_read]
  rw [found,registered] at hQ
  cases hl : k.tables.findLive (k.callerCid p) with
  | none =>
    rw [hl] at hQ
    exact hQ
  | some i =>
    rw [hl] at hQ
    simp only [wp_bind,plain_lift,wp_read,wp_pure]
    refine wp_redirect hE ?_
    change Q (if (k.files i).any (fun g => mystrcmp g (k.suffixed p path)) = true then
      (k.suffixed p path, true) else (path, false)) k
    cases hany : (k.files i).any fun g => mystrcmp g (k.suffixed p path) with
    | false => simpa only [hany,Bool.false_eq_true,if_false] using hQ
    | true => simpa only [hany,if_true] using hQ

theorem wp_openPath {host : Bool} {Q : Path → Kernel → Prop} (hE : Lax E)
    (hQ : Q (if creates omode && !host then k.suffixed p path else path) k) :
    wp E (plain.openPath p host path omode) k Q := by
  rw [PathOps.openPath]
  refine wp_ite (fun h => ?_) fun h => ?_
  · rw [if_pos h] at hQ
    exact wp_redirect hE hQ
  · rw [if_neg h] at hQ
    exact hQ

/-- The container that the list gives for a path. -/
def owner (path : Path) (l : List (Path × ℤ)) : ℤ :=
  ((l.find? fun x => mystrcmp path (dotSlash ++ x.1)).map Prod.snd).getD (-1)

theorem wp_ownerOf (hE : Lax E) (l : List (Path × ℤ)) :
    wp E (plain.ownerOf path l) k fun r k' => r = owner path l ∧ k' = k := by
  induction l with
  | nil => exact ⟨rfl,rfl⟩
  | cons x rest ih =>
    obtain ⟨g,c⟩ := x
    rw [PathOps.ownerOf,wp_bind,owner,List.find?_cons]
    change wp E (strcat dotSlash g) k _
    rw [strcat]
    refine wp_ite (fun _ => ?_) fun _ => hE.wild
    rw [wp_pure]
    cases hcmp : mystrcmp path (dotSlash ++ g) with
    | true => exact ⟨rfl,rfl⟩
    | false => exact ih

end Kernel

end Xv6Container
