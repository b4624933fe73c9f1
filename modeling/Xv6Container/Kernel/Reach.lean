import Xv6Container.Kernel.Outcome
import Xv6Container.Kernel.Processes

/-!
# What every call keeps

`KInv` says that all counts are right between calls and that the tree has a property `J`; if
`J` is a `Law`, every call keeps it, as far as the guards of the law allow the call.
-/

namespace Xv6Container

open Prog Fs

/-- The nodes of a file system, and the reference counts of its cache. -/
def Fs.treeOf (s : Fs.State) : Tree := ⟨node s, fun i => (cached s i).refs⟩

namespace Kernel

def viewOf (k : Kernel) : View where
  file f := if (k.file f).type = .inode then some (k.fs.inode (k.file f).ip).inum else none
  cwd p := (k.cwd p).map fun c => (k.fs.inode c).inum

variable {sb : Superblock} {k k' : Kernel} {s : Fs.State} {T B : Tree} {V : View}
  {L : Finset ℕ} {X : List (ISlot × ℕ)} {F : List FSlot} {E : Stop → Prop}
  {d i j w : ℕ} {p : PSlot} {path : Path} {G : Guards} {J : Tree → Prop} {a : Call}

namespace KRep

theorem tree_eq (h : KRep sb k T V L X F) : T = treeOf k.fs :=
  Tree.ext h.rep.node.symm (funext fun i => (h.rep.refs i).symm)

theorem view_eq (h : KRep sb k T V L X F) : V = k.viewOf := by
  refine View.ext (funext fun f => ?_) (funext fun p => ?_)
  · cases hV : V.file f with
    | none =>
      have htype : (k.file f).type ≠ .inode := fun ht => (h.typed f).mp ht hV
      exact (if_neg htype).symm
    | some i =>
      have htype : (k.file f).type = .inode := (h.typed f).mpr (by rw [hV]; simp)
      have hinum := (h.rep.slot (file_mem hV)).inum
      simp only [viewOf,if_pos htype,hinum]
  cases hV : V.cwd p with
  | none =>
    have hc := (h.cwd_none p).mpr hV
    simp only [viewOf,hc,Option.map_none]
  | some i =>
    obtain ⟨c,hc⟩ : ∃ c, k.cwd p = some c := by
      refine Option.ne_none_iff_exists'.mp fun hn => ?_
      rw [(h.cwd_none p).mp hn] at hV
      exact absurd hV (by simp)
    have hinum := (h.rep.slot (.inr (.inr ⟨p,hV,hc⟩))).inum
    simp only [viewOf,hc,Option.map_some,hinum]

end KRep

/-- Between calls: all counts are right, processes that are gone have nothing, and the tree has the
property. -/
structure KInv (sb : Superblock) (J : Tree → Prop) (k : Kernel) : Prop where
  rep : KRep sb k (treeOf k.fs) k.viewOf ∅ [] []
  idle : k.Idle
  law : J (treeOf k.fs)

theorem KInv.of (h : KRep sb k T V ∅ [] []) (hidle : k.Idle) (hJ : J T) : KInv sb J k := by
  obtain rfl := h.tree_eq
  obtain rfl := h.view_eq
  exact ⟨h,hidle,hJ⟩

/-- The directory in which a new entry for the path would be made. -/
def entryAt (N : ℕ → Node) (w : ℕ) (path : Path) : Option ℕ :=
  match resolveParent N w path with
  | some (d, name) => if (N d).find name = none then some d else none
  | none => none

/-- The entry that a path names, and its inode. -/
def unlinkAt (N : ℕ → Node) (w : ℕ) (path : Path) : Option (ℕ × ℕ × ℕ) :=
  match resolveParent N w path with
  | some (d, name) => ((N d).find name).map fun k => (d, k, ((N d).dirent k).inum)
  | none => none

/-- The guards allow what the call may do. -/
def Ok (G : Guards) (k : Kernel) : Call → Prop
  | .open p path omode =>
    (creates omode || k.copies p path omode →
      ∀ d ∈ entryAt (treeOf k.fs).node (k.viewOf.dir p) (k.target p path omode),
        G.create (treeOf k.fs).node d .file) ∧
    (k.copies p path omode → ∀ j,
      resolve (treeOf k.fs).node (k.viewOf.dir p) (k.target p path omode) = some j ∨
        ((treeOf k.fs).node j).type = .free → G.write j)
  | .write p fd _ => ∀ x ∈ k.argfd p fd, ∀ i ∈ k.viewOf.file x.2, G.write i
  | .mkdir p path => ∀ d ∈ entryAt (treeOf k.fs).node (k.viewOf.dir p) path,
      G.create (treeOf k.fs).node d .dir
  | .mknod p path _ _ => ∀ d ∈ entryAt (treeOf k.fs).node (k.viewOf.dir p) path,
      G.create (treeOf k.fs).node d .dev
  | .link p old new => ∀ i ∈ resolve (treeOf k.fs).node (k.viewOf.dir p) old,
      ∀ d ∈ entryAt (treeOf k.fs).node (k.viewOf.dir p) new, G.link (treeOf k.fs).node d i
  | .unlink p path => ∀ x ∈ unlinkAt (treeOf k.fs).node (k.viewOf.dir p) path,
      G.unlink (((treeOf k.fs).get x.1).get x.2.2) x.1 x.2.1 x.2.2
  | _ => True

theorem mem_entryAt {N : ℕ → Node} {name : Name} (hp : resolveParent N w path = some (d, name))
    (hk : (N d).find name = none) : d ∈ entryAt N w path := by
  rw [entryAt,hp]
  simp [hk]

/-- A tree in which a call has taken references to two inodes. -/
structure Borrows (T B : Tree) (d i : ℕ) : Prop where
  ne : i ≠ d
  refs : ∀ j, B.refs j = T.refs j + (if d = j then 1 else 0) + if i = j then 1 else 0
  type : ∀ j, (T.node j).type ≠ .free → (B.node j).type = (T.node j).type

theorem borrows_get (hid : i ≠ d) (j : ℕ) : ((T.get d).get i).refs j =
    T.refs j + (if d = j then 1 else 0) + if i = j then 1 else 0 := by
  by_cases hij : i = j
  · subst hij
    rw [Tree.get_refs_self,Tree.get_refs_of_ne hid,if_neg hid.symm,if_pos rfl]
  · rw [Tree.get_refs_of_ne (Ne.symm hij),if_neg hij]
    by_cases hdj : d = j
    · subst hdj
      rw [Tree.get_refs_self,if_pos rfl]
    · rw [Tree.get_refs_of_ne (Ne.symm hdj),if_neg hdj,Nat.add_zero]

namespace Borrows

theorem refs_put (h : Borrows T B d i) (j : ℕ) : ((B.put d).put i).refs j = T.refs j := by
  have hr := h.refs j
  by_cases hij : i = j
  · subst hij
    rw [Tree.put_refs_self,Tree.put_refs_of_ne h.ne,hr,if_neg h.ne.symm,if_pos rfl]
    omega
  · rw [Tree.put_refs_of_ne (Ne.symm hij)]
    by_cases hdj : d = j
    · subst hdj
      rw [Tree.put_refs_self,hr,if_pos rfl,if_neg hij]
      omega
    · rw [Tree.put_refs_of_ne (Ne.symm hdj),hr,if_neg hdj,if_neg hij]
      omega

theorem type_put (h : Borrows T B d i) (hal : (T.node j).type ≠ .free) (hj : 0 < T.refs j) :
    (((B.put d).put i).node j).type = (T.node j).type := by
  have hput : ∀ {C : Tree} {e : ℕ}, (e = j → C.refs j ≠ 1) → (C.put e).node j = C.node j := by
    intro C e hne
    by_cases hej : j = e
    · subst hej
      rw [Tree.put_of_not_last fun hl => hne rfl hl.2]
      rfl
    · exact Tree.put_node_of_ne hej
  have hr := h.refs j
  rw [hput fun hij => ?_,hput fun hdj => ?_,h.type j hal]
  · rw [if_pos hdj] at hr
    omega
  · subst hij
    rw [Tree.put_refs_of_ne h.ne]
    rw [if_pos rfl] at hr
    omega

theorem law (h : Borrows T B d i) (law : Law sb G J) (hfree : G.free) (hJ : J B) :
    J ((B.put d).put i) := by
  refine law.put hfree (law.put hfree hJ ?_) ?_
  · have := h.refs d
    rw [if_pos rfl] at this
    omega
  · have := h.refs i
    rw [if_pos rfl] at this
    rw [Tree.put_refs_of_ne h.ne]
    omega

theorem krep (h : Borrows T B d i) (hk : KRep sb k T V ∅ [] F)
    (hs : Rep sb s ((B.put d).put i) ∅ (held k V [])) :
    KRep sb { k with fs := s } ((B.put d).put i) V ∅ [] F := by
  refine hk.fs_step hs (fun j => (h.refs_put j).trans (hk.refs j)) fun j hj => ?_
  refine h.type_put (hk.holds_alloc hj) ?_
  have := hk.refs j
  have := hj.refs
  omega

end Borrows

section

variable {name : Name} {type : FType} {major minor : Int16} {n : ℕ}

theorem borrows_create (hid : i ≠ d) (hfree : (T.node i).type = .free) :
    Borrows T (((T.get d).create d name i type major minor).get i) d i := by
  refine ⟨hid,borrows_get hid,fun j hj => ?_⟩
  have hji : j ≠ i := by
    rintro rfl
    exact hj hfree
  rw [Tree.get_node]
  by_cases hjd : j = d
  · subst hjd
    rw [Tree.create_node_parent]
    split <;> rfl
  · rw [Tree.create_node_of_ne hjd hji]
    rfl

theorem borrows_link (hid : i ≠ d) : Borrows T (((T.get i).get d).link d name i) d i := by
  refine ⟨hid,?_,fun j _ => ?_⟩
  · rw [Tree.get_comm]
    exact borrows_get hid
  rw [Tree.link]
  by_cases hjd : j = d
  · subst hjd
    rw [Tree.setNode_self]
    rfl
  · rw [Tree.setNode_of_ne _ hjd]
    by_cases hji : j = i
    · subst hji
      rw [Tree.setNode_self]
      rfl
    · rw [Tree.setNode_of_ne _ hji]
      rfl

theorem borrows_unlink (hid : i ≠ d) : Borrows T (((T.get d).get i).unlink d n i) d i := by
  refine ⟨hid,borrows_get hid,fun j _ => ?_⟩
  rw [Tree.unlink]
  by_cases hji : j = i
  · subst hji
    rw [Tree.setNode_self,Node.addLinks_type,Tree.get_node,Tree.get_node]
  rw [Tree.setNode_of_ne _ hji]
  by_cases hjd : j = d
  · subst hjd
    rw [Tree.setNode_self,Tree.unlinked]
    split
    · rw [Node.addLinks_type,Node.setDirent_type,Tree.get_node,Tree.get_node]
    · rw [Node.setDirent_type,Tree.get_node,Tree.get_node]
  · rw [Tree.setNode_of_ne _ hjd,Tree.get_node,Tree.get_node]

end

theorem KRep.lt_ninodes (h : KRep sb k T V L X F) (hi : (T.node i).type ≠ .free) :
    i < sb.ninodes := by
  by_contra hge
  rw [← h.rep.node,node_type] at hi
  exact hi (h.rep.wf.disk.beyond i (Nat.le_of_not_lt hge))

namespace KInv

section

variable (h : KInv sb J k) (hE : Lax E) (law : Law sb G J) (hfree : G.free)
  (hcl : ∀ T, J T → ¬ E (.panic "ilock: no type") → T.Closed)

include h hE law hfree hcl

theorem make {type : FType} {major minor : Int16} (htype : type ≠ .free) (hfile : type ≠ .file)
    (hok : ∀ d ∈ entryAt (treeOf k.fs).node (k.viewOf.dir p) path,
      G.create (treeOf k.fs).node d type) :
    wp E (inCwd p fun cwd => sysMake sb cwd path type major minor) k fun _ k' => KInv sb J k' := by
  rw [inCwd,wp_bind,wp_read,wp_onFs]
  refine (h.rep.rep.sysMake hE h.rep.cwd_mem (hcl _ h.law) path htype hfile).mono ?_
  rintro - s (hs | ⟨d,name,i,hp,hk,h0,hlt,hi,hs⟩)
  · exact KInv.of (h.rep.fs_step hs h.rep.refs fun _ _ => rfl) h.idle h.law
  have hid := ne_of_resolveParent hp hi
  have hdir : ((treeOf k.fs).node d).type = .dir := walkParent_dir hp
  have hb : Borrows (treeOf k.fs)
      ((((treeOf k.fs).get d).create d name i type major minor).get i) d i :=
    borrows_create hid hi
  refine KInv.of (hb.krep h.rep hs) h.idle (hb.law law hfree (law.get _ i ?_ ?_))
  · exact law.create _ d name i type major minor (hok d (mem_entryAt hp hk))
      (law.get _ d h.law (by rw [hdir]; decide)) hdir hk h0 hlt hi htype
  · rw [Tree.create_node_new hid,Node.new_type]
    exact htype

theorem link {old new : Path} (hok : ∀ i ∈ resolve (treeOf k.fs).node (k.viewOf.dir p) old,
      ∀ d ∈ entryAt (treeOf k.fs).node (k.viewOf.dir p) new, G.link (treeOf k.fs).node d i) :
    wp E (inCwd p fun cwd => sysLink sb cwd old new) k fun _ k' => KInv sb J k' := by
  rw [inCwd,wp_bind,wp_read,wp_onFs]
  refine (h.rep.rep.sysLink hE h.rep.cwd_mem (hcl _ h.law)
    (fun hno => h.rep.dir_alloc (hcl _ h.law hno).root) old new).mono ?_
  rintro - s (hs | ⟨i,d,name,hr,hal,hndir,hp,hk,hs⟩)
  · exact KInv.of (h.rep.fs_step hs h.rep.refs fun _ _ => rfl) h.idle h.law
  have hdir : ((treeOf k.fs).node d).type = .dir := walkParent_dir hp
  have hid : i ≠ d := by
    rintro rfl
    exact hndir hdir
  have hb : Borrows (treeOf k.fs) ((((treeOf k.fs).get i).get d).link d name i) d i :=
    borrows_link hid
  refine KInv.of (hb.krep h.rep hs) h.idle (hb.law law hfree ?_)
  have hJ := law.get _ d (law.get _ i h.law hal) (by rw [Tree.get_node,hdir]; decide)
  exact law.link _ d name i (hok i hr d (mem_entryAt hp hk)) hJ hdir hk hal hndir
    (h.rep.lt_ninodes hal)

theorem unlink (hok : ∀ x ∈ unlinkAt (treeOf k.fs).node (k.viewOf.dir p) path,
      G.unlink (((treeOf k.fs).get x.1).get x.2.2) x.1 x.2.1 x.2.2) :
    wp E (inCwd p fun cwd => sysUnlink sb cwd path) k fun _ k' => KInv sb J k' := by
  rw [inCwd,wp_bind,wp_read,wp_onFs]
  refine (h.rep.rep.sysUnlink hE h.rep.cwd_mem (hcl _ h.law) path).mono ?_
  rintro - s (hs | ⟨d,name,n,i,hp,hdot,hdotdot,hk,hi,hid,hal,hlinks,hempty,hs⟩)
  · exact KInv.of (h.rep.fs_step hs h.rep.refs fun _ _ => rfl) h.idle h.law
  have hdir : ((treeOf k.fs).node d).type = .dir := walkParent_dir hp
  have hb : Borrows (treeOf k.fs) ((((treeOf k.fs).get d).get i).unlink d n i) d i :=
    borrows_unlink hid
  refine KInv.of (hb.krep h.rep hs) h.idle (hb.law law hfree ?_)
  have hJ := law.get _ i (law.get _ d h.law (by rw [hdir]; decide)) hal
  have hmem : (d, n, i) ∈ unlinkAt (treeOf k.fs).node (k.viewOf.dir p) path := by
    rw [unlinkAt,hp]
    simp [hk,hi]
  exact law.unlink _ d name n i (hok _ hmem) hJ hdir hdot hdotdot hk hi hid hal hlinks hempty

end

theorem not_gone (hen : k.Enabled a) (hp : a.caller = some p) : ¬ k.tables.Gone p := by
  have hrun := hen p hp
  rintro (hg | hg)
  · rw [hrun] at hg
    exact absurd hg (by decide)
  · rw [hrun] at hg
    exact absurd hg (by decide)

theorem of_own (h : KInv sb J k) (hp : ¬ k.tables.Gone p)
    (ho : Own p k k') (hk : ∃ T V, KRep sb k' T V ∅ [] [] ∧ J T) : KInv sb J k' := by
  obtain ⟨T,V,hk,hJ⟩ := hk
  exact KInv.of hk (h.idle.own ho hp) hJ

end KInv

theorem Gains.own {fd : Fd} {f : FSlot} {wr : Bool} (h : Gains p k k' fd f wr) : Own p k k' := by
  refine ⟨h.tables,fun q _ => by rw [h.cwd],fun q e hq => ?_⟩
  rw [h.ofile,Function.update_of_ne fun he => hq (Prod.mk.inj he).1]

theorem KRep.sysRead (h : KRep sb k T V ∅ [] []) (hE : Lax E) (fd n : ℕ) :
    wp E (Kernel.sysRead sb p fd n) k fun _ k' => Own p k k' ∧ KRep sb k' T V ∅ [] [] := by
  have hself : Own p k k := Own.of_same p rfl rfl rfl
  rw [Kernel.sysRead,wp_bind,wp_read]
  split
  · exact ⟨hself,h⟩
  · refine wp_ite (fun hn => ?_) fun _ => ⟨hself,h⟩
    refine (h.fileread hE (hn.trans (by decide))).mono ?_
    rintro - k' ⟨hm,hk'⟩
    exact ⟨hm.frame.own p,hk'⟩

theorem KRep.sysWrite {fd : ℕ} {src : List UInt8} (h : KRep sb k T V ∅ [] []) (hE : Lax E)
    (law : Law sb G J) (hJ : J T) (hG : ∀ x ∈ k.argfd p fd, ∀ i ∈ V.file x.2, G.write i) :
    wp E (Kernel.sysWrite sb p fd src) k fun _ k' => Own p k k' ∧
      ∃ T', KRep sb k' T' V ∅ [] [] ∧ J T' := by
  have hself : Own p k k := Own.of_same p rfl rfl rfl
  rw [Kernel.sysWrite,wp_bind,wp_read]
  split
  · exact ⟨hself,T,h,hJ⟩
  · next fd' f harg =>
    refine wp_ite (fun _ => ?_) fun _ => ⟨hself,T,h,hJ⟩
    refine (h.filewrite hE law hJ fun i hi => hG _ harg i hi).mono ?_
    rintro - k' ⟨hm,T',hk',hJ',-⟩
    exact ⟨hm.frame.own p,T',hk',hJ'⟩

namespace KInv

theorem «open» {omode : UInt32} (h : KInv sb J k) (hE : Lax E) (law : Law sb G J)
    (hcl : ∀ T, J T → ¬ E (.panic "ilock: no type") → T.Closed) (hp : ¬ k.tables.Gone p)
    (hok : Ok G k (.open p path omode)) :
    wp E (sysOpen sb p path omode) k fun _ k' => KInv sb J k' := by
  refine (h.rep.sysOpen hE law hcl (fun hc d name hp hk => hok.1 hc d (mem_entryAt hp hk)) hok.2
    h.law).mono fun r k' hout => ?_
  cases hout with
  | missed s _ hk' hJ' | full s _ _ hk' hJ' =>
    exact h.of_own hp (Own.of_same p rfl rfl rfl) ⟨_,_,hk',hJ'⟩
  | opened _ hg _ hk' _ _ hJ' | stuck _ _ _ _ hg hk' hJ' | copied _ _ _ _ hg hk' _ _ hJ' =>
    exact h.of_own hp hg.own ⟨_,_,hk',hJ'⟩

theorem run (h : KInv sb J k) (hE : Lax E) (law : Law sb G J) (hfree : G.free)
    (hcl : ∀ T, J T → ¬ E (.panic "ilock: no type") → T.Closed) (hen : k.Enabled a)
    (hok : Ok G k a) : wp E (Call.run sb a) k fun _ k' => KInv sb J k' := by
  cases a with
  | «open» p path omode => exact (h.open hE law hcl (not_gone hen rfl) hok).bind fun _ _ hk => hk
  | read p fd n =>
    refine (h.rep.sysRead hE fd n).bind ?_
    rintro - k' ⟨ho,hk'⟩
    exact h.of_own (not_gone hen rfl) ho ⟨_,_,hk',h.law⟩
  | write p fd src =>
    refine (h.rep.sysWrite hE law h.law hok).bind ?_
    rintro - k' ⟨ho,T',hk',hJ'⟩
    exact h.of_own (not_gone hen rfl) ho ⟨T',_,hk',hJ'⟩
  | close p fd =>
    refine (h.rep.sysClose hE law hfree h.law fd).bind ?_
    rintro - k' ⟨ho,hk'⟩
    exact h.of_own (not_gone hen rfl) ho hk'
  | dup p fd =>
    refine (h.rep.sysDup hE fd).bind ?_
    rintro - k' ⟨ho,hk'⟩
    exact h.of_own (not_gone hen rfl) ho ⟨_,_,hk',h.law⟩
  | mkdir p path | mknod p path major minor =>
    exact (h.make hE law hfree hcl (by decide) (by decide) hok).bind fun _ _ hk => hk
  | link p old new => exact (h.link hE law hfree hcl hok).bind fun _ _ hk => hk
  | unlink p path => exact (h.unlink hE law hfree hcl hok).bind fun _ _ hk => hk
  | chdir p path =>
    refine (h.rep.sysChdir hE law hfree h.law (hcl _ h.law)).bind ?_
    rintro - k' ⟨ho,hk'⟩
    exact h.of_own (not_gone hen rfl) ho hk'
  | fork p mem =>
    refine (h.rep.sysFork hE law h.law h.idle mem).mono ?_
    rintro - k' ⟨hidle,T',V',hk',hJ'⟩
    exact KInv.of hk' hidle hJ'
  | exit p =>
    refine (h.rep.sysExit hE law hfree h.law h.idle).mono ?_
    rintro - k' ⟨hidle,T',V',hk',hJ'⟩
    exact KInv.of hk' hidle hJ'
  | createContainer p c =>
    refine KInv.of (h.rep.with_tables _ _ _ _ _ _) (fun q hq => h.idle q ?_) h.law
    refine (Tables.gone_of_state ?_).mp hq
    show ((k.tables.createContainer c).1.proc q).state = _
    rw [Tables.createContainer]
    split
    · rfl
    · split <;> rfl
  | store | stack => exact KInv.of (h.rep.with_tables _ _ _ _ _ _) (fun q hq => h.idle q hq) h.law
  | table b =>
    rw [Call.run,sysTable,wp_bind,wp_read]
    split
    · next tables hb =>
      split at hb
      · exact absurd hb (by simp)
      · next hfiles =>
        refine KInv.of (h.rep.with_tables _ _ _ _ _ _) (fun q hq => h.idle q ?_) h.law
        exact Tables.Gone.of_effect (Bool.not_eq_true _ |>.mp hfiles) hb hq
    · exact hE.wild

theorem step (h : KInv sb J k) (law : Law sb G J) (hfree : G.free) (hok : Ok G k a)
    (hs : Kernel.step sb k a = some k') : KInv sb J k' := by
  rw [Kernel.step] at hs
  split at hs
  · next hen =>
    have hrun := h.run (E := fun _ => True) (fun _ _ _ => trivial) law hfree
      (fun _ _ hno => absurd trivial hno) hen hok
    split at hs
    · next k'' hk'' =>
      obtain rfl := Option.some.inj hs
      exact hrun.of_ok hk''
    · exact absurd hs (by simp)
  · exact absurd hs (by simp)

theorem exec {as : List Call} (h : KInv sb J k) (law : Law sb G J) (hfree : G.free)
    (hok : Run.Meets (Kernel.step sb) (Ok G) k as) (hs : Run.exec (Kernel.step sb) k as = some k') :
    KInv sb J k' :=
  Run.exec_invariant_of_meets (fun _ _ _ hk hok hs => hk.step law hfree hok hs) h hok hs

end KInv

end Kernel

end Xv6Container
