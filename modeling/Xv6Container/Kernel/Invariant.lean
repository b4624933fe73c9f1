import Xv6Container.Fs.Effects
import Xv6Container.Kernel.System
import Xv6Container.Lib.Tally

/-!
# Pointers of the kernel

A `View` gives the inode numbers behind the pointers of open files and processes, and `KRep`
says that all reference counts are right.
-/

namespace Xv6Container

open Function Prog Fs List

/-- The inode numbers of open files and current directories. -/
@[ext] structure View where
  file : FSlot → Option ℕ
  cwd : PSlot → Option ℕ

/-- Some pointer leads to the inode. -/
def View.Holds (V : View) (i : ℕ) : Prop := (∃ f, V.file f = some i) ∨ ∃ p, V.cwd p = some i

/-- File `f` is on inode `i`. -/
def View.withFile (V : View) (f : FSlot) (i : ℕ) : View :=
  { V with file := update V.file f (some i) }

/-- File `f` is closed. -/
def View.withoutFile (V : View) (f : FSlot) : View :=
  { V with file := update V.file f none }

/-- The current directory of a process; for one that has none, the root. -/
def View.dir (V : View) (p : PSlot) : ℕ := (V.cwd p).getD ROOTINO

theorem View.Holds.refs {V : View} {i : ℕ} (hi : V.Holds i) :
    0 < tally V.file i + tally V.cwd i := by
  rcases hi with hi | hi
  · have := tally_pos.mpr hi
    omega
  · have := tally_pos.mpr hi
    omega

namespace Kernel

variable {sb : Superblock} {k k' : Kernel} {s : Fs.State} {T T' : Tree} {V : View}
  {L L' : Finset ℕ} {X X' : List (ISlot × ℕ)} {F : List FSlot} {E : Stop → Prop} {c : ISlot}
  {d i j n w : ℕ} {f : FSlot} {p : PSlot}

/-- The pointers of the kernel and of the running call, with their inodes. -/
def held (k : Kernel) (V : View) (X : List (ISlot × ℕ)) : Set (ISlot × ℕ) :=
  { x | x ∈ X ∨ (∃ f, V.file f = some x.2 ∧ (k.file f).ip = x.1) ∨
    ∃ p, V.cwd p = some x.2 ∧ k.cwd p = some x.1 }

theorem held_cons (x : ISlot × ℕ) : held k V (x :: X) = insert x (held k V X) := by
  ext y
  simp only [held,mem_cons,Set.mem_ofPred_eq,Set.mem_insert_iff,or_assoc]

theorem mem_held_cons : (c, i) ∈ held k V ((c, i) :: X) := .inl mem_cons_self

/-- The state is the tree `T` with the inodes of `L` locked. The running call has references of its
own to the inodes of `X` and to the files of `F`. -/
structure KRep (sb : Superblock) (k : Kernel) (T : Tree) (V : View) (L : Finset ℕ)
    (X : List (ISlot × ℕ)) (F : List FSlot) : Prop where
  rep : Rep sb k.fs T L (held k V X)
  refs : ∀ i, T.refs i = tally V.file i + tally V.cwd i + X.countP fun x => x.2 = i
  typed : ∀ f, (k.file f).type = .inode ↔ V.file f ≠ none
  closed : ∀ f, (k.file f).ref = 0 → V.file f = none
  off_lt : ∀ f, (k.file f).off < 2 ^ 32
  file_type : ∀ f i, V.file f = some i → (T.node i).type ≠ .free ∧
    ((k.file f).writable = true → (T.node i).type ≠ .dir)
  cwd_none : ∀ p, k.cwd p = none ↔ V.cwd p = none
  cwd_dir : ∀ p i, V.cwd p = some i → (T.node i).type = .dir
  fdrefs : ∀ f, (k.file f).ref = tally k.ofile f + F.count f

/-- Everything but the file system and the file table is the same. -/
structure Frame (k k' : Kernel) : Prop where
  tables : k'.tables = k.tables
  ofile : k'.ofile = k.ofile
  cwd : k'.cwd = k.cwd
  files : k'.files = k.files
  allFiles : k'.allFiles = k.allFiles
  called : k'.createContainerCalled = k.createContainerCalled
  lsCalled : k'.lsCalled = k.lsCalled
  stack : k'.stack = k.stack

theorem Frame.refl (k : Kernel) : Frame k k := ⟨rfl,rfl,rfl,rfl,rfl,rfl,rfl,rfl⟩

theorem Frame.trans {k'' : Kernel} (h : Frame k k') (h' : Frame k' k'') : Frame k k'' :=
  ⟨h'.tables.trans h.tables,h'.ofile.trans h.ofile,h'.cwd.trans h.cwd,h'.files.trans h.files,
    h'.allFiles.trans h.allFiles,h'.called.trans h.called,h'.lsCalled.trans h.lsCalled,
    h'.stack.trans h.stack⟩

@[simp] theorem wp_onFs {α : Type} {m : Fs.M α} {Q : α → Kernel → Prop} :
    wp E (onFs m) k Q ↔ wp E m k.fs fun a s => Q a { k with fs := s } := wp_zoom

namespace KRep

theorem fs_step (h : KRep sb k T V L X F) (hs : Rep sb s T' L' (held k V X'))
    (hrefs : ∀ i, T'.refs i = tally V.file i + tally V.cwd i + X'.countP fun x => x.2 = i)
    (htype : ∀ i, V.Holds i → (T'.node i).type = (T.node i).type) :
    KRep sb { k with fs := s } T' V L' X' F := by
  refine ⟨hs,hrefs,h.typed,h.closed,h.off_lt,fun f i hf => ?_,h.cwd_none,fun p i hp => ?_,h.fdrefs⟩
  · rw [htype i (.inl ⟨f,hf⟩)]
    exact h.file_type f i hf
  · rw [htype i (.inr ⟨p,hp⟩)]
    exact h.cwd_dir p i hp

theorem with_tables (h : KRep sb k T V L X F) (tables : Tables) (files : CSlot → List Path)
    (allFiles : List (Path × ℤ)) (called : Bool) (lsCalled : PSlot → Bool) (stack : ℕ → UInt8) :
    KRep sb { k with
      tables := tables, files := files, allFiles := allFiles, createContainerCalled := called
      lsCalled := lsCalled, stack := stack } T V L X F :=
  ⟨h.rep,h.refs,h.typed,h.closed,h.off_lt,h.file_type,h.cwd_none,h.cwd_dir,h.fdrefs⟩

theorem holds_alloc (h : KRep sb k T V L X F) (hi : V.Holds i) : (T.node i).type ≠ .free := by
  rcases hi with ⟨f,hf⟩ | ⟨p,hp⟩
  · exact (h.file_type f i hf).1
  · rw [h.cwd_dir p i hp]
    decide

theorem cwd_mem (h : KRep sb k T V L X F) : ∀ c, k.cwd p = some c → (c, V.dir p) ∈ held k V X' := by
  intro c hc
  cases hp : V.cwd p with
  | none =>
    rw [(h.cwd_none p).mpr hp] at hc
    exact absurd hc (by simp)
  | some w =>
    rw [View.dir,hp]
    exact .inr (.inr ⟨p,hp,hc⟩)

theorem dir_alloc (h : KRep sb k T V L X F) (hroot : (T.node ROOTINO).type ≠ .free) :
    (T.node (V.dir p)).type ≠ .free := by
  cases hp : V.cwd p with
  | none =>
    rw [View.dir,hp]
    exact hroot
  | some w =>
    rw [View.dir,hp]
    exact h.holds_alloc (.inr ⟨p,hp⟩)

theorem put_type (h : KRep sb k T V L ((c, i) :: X) F) (hj : V.Holds j) :
    ((T.put i).node j).type = (T.node j).type := by
  by_cases hji : j = i
  · subst hji
    have hr := h.refs j
    have hpos := hj.refs
    rw [countP_cons_of_pos (by simp)] at hr
    rw [Tree.put_of_not_last fun hl => by omega]
    rfl
  · rw [Tree.put_node_of_ne hji]

theorem put_refs (h : KRep sb k T V L ((c, i) :: X) F) (j : ℕ) :
    (T.put i).refs j = tally V.file j + tally V.cwd j + X.countP fun x => x.2 = j := by
  have hr := h.refs j
  by_cases hji : j = i
  · subst hji
    rw [countP_cons_of_pos (by simp)] at hr
    rw [Tree.put_refs_self]
    omega
  · rw [countP_cons_of_neg (by simpa using Ne.symm hji)] at hr
    rw [Tree.put_refs_of_ne hji]
    exact hr

theorem last_ref (h : KRep sb k T V L ((c, i) :: X) F) {c' : ISlot}
    (hc : (c', i) ∈ held k V X) : 1 < T.refs i := by
  have hr := h.refs i
  rw [countP_cons_of_pos (by simp)] at hr
  rcases hc with hX | ⟨f,hf,-⟩ | ⟨p,hp,-⟩
  · have : 0 < X.countP fun x => x.2 = i := List.countP_pos_iff.mpr ⟨_,hX,by simp⟩
    omega
  · have : 0 < tally V.file i := tally_pos.mpr ⟨f,hf⟩
    omega
  · have : 0 < tally V.cwd i := tally_pos.mpr ⟨p,hp⟩
    omega

theorem iunlockput (h : KRep sb k T V {i} [(c, i)] F) (hE : Lax E) :
    wp E (onFs (Fs.iunlockput c)) k fun _ k' =>
      ∃ s, k' = { k with fs := s } ∧ KRep sb k' (T.put i) V ∅ [] F := by
  rw [wp_onFs]
  have hsub : held k V [] ⊆ held k V [(c, i)] := by
    rw [held_cons]
    exact Set.subset_insert _ _
  refine (h.rep.iunlockput (fun _ => hE.iunlock) mem_held_cons hsub fun _ hc => h.last_ref hc).mono ?_
  rintro - s hs
  rw [Finset.erase_singleton] at hs
  exact ⟨s,rfl,h.fs_step hs h.put_refs fun j hj => h.put_type hj⟩

theorem type_of_closed (h : KRep sb k T V L X F) (hf : (k.file f).ref = 0) :
    (k.file f).type = .none := by
  cases ht : (k.file f).type with
  | none => rfl
  | inode => exact absurd (h.closed f hf) ((h.typed f).mp ht)

end KRep

/-- There is no file, or process `p` has no descriptor, for another open. -/
def Full (k : Kernel) (p : PSlot) : Prop :=
  (∀ f, (k.file f).ref ≠ 0) ∨ ∀ fd, k.ofile (p, fd) ≠ none

/-- The slot that `filealloc` takes. -/
def freeFile (k : Kernel) : Option FSlot := (List.finRange NFILE).find? fun f => (k.file f).ref = 0

theorem ref_of_freeFile (h : k.freeFile = some f) : (k.file f).ref = 0 := by
  simpa using find?_some h

namespace KRep

theorem allocFd (h : KRep sb k T V L X F) :
    wp E (Kernel.allocFd p) k fun r k' => (r = none ∧ k.Full p ∧ k' = k) ∨
      ∃ fd f, r = some (fd, f) ∧ k.freeFile = some f ∧ k.ofile (p, fd) = none ∧
        k' = { k with
          file := update k.file f { k.file f with ref := 1 }
          ofile := update k.ofile (p, fd) (some f) } := by
  rw [Kernel.allocFd,filealloc,wp_bind,wp_bind,wp_read]
  split
  · next f hfind =>
    have hfree : (k.file f).ref = 0 := by simpa using find?_some hfind
    simp only [setFile,fdalloc,wp_bind,wp_modify,wp_pure,wp_read]
    split
    · next fd hfd =>
      have hnone : k.ofile (p, fd) = none := by simpa using find?_some hfd
      exact .inr ⟨fd,f,rfl,hfind,hnone,rfl⟩
    · next hfd =>
      have hfull : k.Full p := .inr fun fd => by
        simpa using List.find?_eq_none.mp hfd fd (mem_finRange fd)
      have htype := h.type_of_closed hfree
      have hsame : update k.file f { k.file f with ref := 0, type := .none } = k.file := by
        rw [← htype,← hfree]
        exact update_eq_self f k.file
      simp [Kernel.fileclose,setFile,htype,hsame,hfull]
  · next hfind =>
    have hfull : k.Full p := .inl fun f => by
      simpa using List.find?_eq_none.mp hfind f (mem_finRange f)
    exact .inl ⟨rfl,hfull,rfl⟩

end KRep

/-- A file `g` in slot `f`, under the descriptor `fd` of process `p`. -/
def added (k : Kernel) (s : Fs.State) (p : PSlot) (fd : Fd) (f : FSlot) (g : File) : Kernel :=
  { k with
    fs := s
    file := update k.file f g
    ofile := update k.ofile (p, fd) (some f) }

namespace KRep

theorem installed {fd : Fd} (h : KRep sb k T V {i} [(c, i)] F)
    (hs : Rep sb s T ∅ (held k V [(c, i)])) (hal : (T.node i).type ≠ .free) (readable writable : Bool)
    (hw : writable = true → (T.node i).type ≠ .dir) (hfree : (k.file f).ref = 0)
    (hfd : k.ofile (p, fd) = none) :
    KRep sb (k.added s p fd f ⟨.inode, 1, readable, writable, c, 0, (k.file f).cid⟩)
      T (V.withFile f i) ∅ [] F := by
  have hVf : V.file f = none := h.closed f hfree
  rw [added,View.withFile]
  refine ⟨hs.mono ?_,fun j => ?_,fun g => ?_,fun g hg => ?_,fun g => ?_,fun g j hg => ?_,
    h.cwd_none,h.cwd_dir,fun g => ?_⟩
  · rintro ⟨c',j⟩ (hX | ⟨g,hg,hc⟩ | hcwd)
    · exact absurd hX not_mem_nil
    · by_cases hgf : g = f
      · subst hgf
        simp only [update_self,Option.some.injEq] at hg hc
        rw [← hg,← hc]
        exact mem_held_cons
      · simp only [update_of_ne hgf] at hg hc
        exact .inr (.inl ⟨g,hg,hc⟩)
    · exact .inr (.inr hcwd)
  · rw [h.refs j]
    simp only [tally_fill hVf,countP_cons,countP_nil,decide_eq_true_eq]
    omega
  · by_cases hgf : g = f
    · subst hgf
      simp
    · simp only [update_of_ne hgf]
      exact h.typed g
  · by_cases hgf : g = f
    · subst hgf
      simp at hg
    · simp only [update_of_ne hgf] at hg ⊢
      exact h.closed g hg
  · by_cases hgf : g = f
    · subst hgf
      simp
    · simp only [update_of_ne hgf]
      exact h.off_lt g
  · by_cases hgf : g = f
    · subst hgf
      simp only [update_self,Option.some.injEq] at hg ⊢
      rw [← hg]
      exact ⟨hal,hw⟩
    · simp only [update_of_ne hgf] at hg ⊢
      exact h.file_type g j hg
  · have hr := h.fdrefs g
    by_cases hgf : g = f
    · subst hgf
      simp only [update_self,tally_fill hfd,if_true]
      omega
    · simp only [update_of_ne hgf,tally_fill hfd,if_neg (Ne.symm hgf)]
      omega

theorem install (h : KRep sb k T V {i} [(c, i)] F) (hE : Lax E) (hal : (T.node i).type ≠ .free)
    (readable writable : Bool) (hw : writable = true → (T.node i).type ≠ .dir) :
    wp E (Kernel.install p c readable writable) k fun r k' =>
      (r = none ∧ k.Full p ∧ ∃ s, k' = { k with fs := s } ∧ KRep sb k' (T.put i) V ∅ [] F) ∨
      ∃ fd f s, r = some (fd, f) ∧ k.freeFile = some f ∧ k.ofile (p, fd) = none ∧
        k' = k.added s p fd f ⟨.inode, 1, readable, writable, c, 0, (k.file f).cid⟩ ∧
        KRep sb k' T (V.withFile f i) ∅ [] F := by
  rw [Kernel.install]
  refine h.allocFd.bind ?_
  rintro r k1 (⟨rfl,hfull,rfl⟩ | ⟨fd,f,rfl,hfree,hfd,rfl⟩)
  · refine (h.iunlockput hE).bind ?_
    rintro - k2 ⟨s,rfl,hk⟩
    exact .inl ⟨rfl,hfull,s,rfl,hk⟩
  · rw [wp_bind,wp_onFs]
    refine (h.rep.iunlock (fun _ => hE.iunlock) mem_held_cons).mono ?_
    rintro - s hs
    rw [Finset.erase_singleton] at hs
    simp only [setFile,wp_bind,wp_modify,wp_pure,update_self,update_idem]
    exact .inr ⟨fd,f,s,rfl,hfree,hfd,rfl,
      h.installed hs hal readable writable hw (ref_of_freeFile hfree) hfd⟩

theorem set_file {F' : List FSlot} (h : KRep sb k T V L X F) (f : FSlot) (g : File)
    (htype : g.type = (k.file f).type) (hip : g.ip = (k.file f).ip) (hoff : g.off < 2 ^ 32)
    (hw : g.writable = (k.file f).writable) (href : g.ref = 0 → V.file f = none)
    (hF : g.ref = tally k.ofile f + F'.count f) (hF' : ∀ e, e ≠ f → F'.count e = F.count e) :
    KRep sb { k with file := update k.file f g } T V L X F' := by
  have hne : ∀ e, e ≠ f → update k.file f g e = k.file e := fun e he =>
    update_of_ne he _ _
  have hself : update k.file f g f = g := update_self ..
  have hips : ∀ e, (update k.file f g e).ip = (k.file e).ip := by
    intro e
    by_cases he : e = f
    · rw [he,hself,hip]
    · rw [hne e he]
  refine ⟨h.rep.mono ?_,h.refs,fun e => ?_,fun e he => ?_,fun e => ?_,fun e j he => ?_,
    h.cwd_none,h.cwd_dir,fun e => ?_⟩
  · rintro ⟨c',j⟩ (hX | ⟨e,he,hc⟩ | hcwd)
    · exact .inl hX
    · exact .inr (.inl ⟨e,he,(hips e).symm.trans hc⟩)
    · exact .inr (.inr hcwd)
  · by_cases hef : e = f
    · subst hef
      simp only [hself,htype]
      exact h.typed e
    · simp only [hne e hef]
      exact h.typed e
  · by_cases hef : e = f
    · subst hef
      simp only [hself] at he
      exact href he
    · simp only [hne e hef] at he
      exact h.closed e he
  · by_cases hef : e = f
    · subst hef
      simp only [hself]
      exact hoff
    · simp only [hne e hef]
      exact h.off_lt e
  · by_cases hef : e = f
    · subst hef
      simp only [hself,hw]
      exact h.file_type e j he
    · simp only [hne e hef]
      exact h.file_type e j he
  · by_cases hef : e = f
    · subst hef
      simp only [hself]
      exact hF
    · simp only [hne e hef,hF' e hef]
      exact h.fdrefs e

theorem touch_file (h : KRep sb k T V L X F) (f : FSlot) (g : File)
    (htype : g.type = (k.file f).type) (hip : g.ip = (k.file f).ip) (hoff : g.off < 2 ^ 32)
    (hw : g.writable = (k.file f).writable) (href : g.ref = (k.file f).ref) :
    KRep sb { k with file := update k.file f g } T V L X F :=
  h.set_file f g htype hip hoff hw (fun h0 => h.closed f (href ▸ h0)) (href.trans (h.fdrefs f))
    fun _ _ => rfl

theorem clear_fd {fd : Fd} (h : KRep sb k T V L X F) (hfd : k.ofile (p, fd) = some f) :
    KRep sb { k with ofile := update k.ofile (p, fd) none } T V L X (f :: F) := by
  refine ⟨h.rep,h.refs,h.typed,h.closed,h.off_lt,h.file_type,h.cwd_none,h.cwd_dir,fun e => ?_⟩
  have hr := h.fdrefs e
  have ht := tally_clear (a := e) hfd
  rw [count_cons]
  simp only [beq_iff_eq]
  omega

theorem fill_fd {fd : Fd} (h : KRep sb k T V L X (f :: F)) (hfd : k.ofile (p, fd) = none) :
    KRep sb { k with ofile := update k.ofile (p, fd) (some f) } T V L X F := by
  refine ⟨h.rep,h.refs,h.typed,h.closed,h.off_lt,h.file_type,h.cwd_none,h.cwd_dir,fun e => ?_⟩
  have hr := h.fdrefs e
  have ht := tally_fill (a := e) hfd f
  rw [count_cons] at hr
  simp only [beq_iff_eq] at hr ⊢
  omega

theorem release_file (h : KRep sb k T V L X (f :: F)) (hV : V.file f = some i)
    (href : (k.file f).ref = 1) :
    KRep sb { k with
        file := update k.file f { k.file f with ref := 0, type := .none } }
      T (V.withoutFile f) L (((k.file f).ip, i) :: X) F := by
  rw [View.withoutFile]
  set g : File := { k.file f with ref := 0, type := .none } with hg
  have hne : ∀ e, e ≠ f → update k.file f g e = k.file e := fun e he =>
    update_of_ne he _ _
  have hself : update k.file f g f = g := update_self ..
  refine ⟨h.rep.mono ?_,fun j => ?_,fun e => ?_,fun e he => ?_,fun e => ?_,fun e j he => ?_,
    h.cwd_none,h.cwd_dir,fun e => ?_⟩
  · rintro ⟨c',j⟩ (hX | ⟨e,he,hc⟩ | hcwd)
    · rcases List.mem_cons.mp hX with hx | hX
      · rw [hx]
        exact .inr (.inl ⟨f,hV,rfl⟩)
      · exact .inl hX
    · have hef : e ≠ f := by
        rintro rfl
        simp at he
      simp only [update_of_ne hef] at he hc
      exact .inr (.inl ⟨e,he,hc⟩)
    · exact .inr (.inr hcwd)
  · have hr := h.refs j
    have ht := tally_clear (a := j) hV
    simp only [countP_cons,decide_eq_true_eq]
    omega
  · by_cases hef : e = f
    · subst hef
      simp [hg]
    · simp only [update_of_ne hef]
      exact h.typed e
  · by_cases hef : e = f
    · subst hef
      simp
    · simp only [update_of_ne hef] at he ⊢
      exact h.closed e he
  · by_cases hef : e = f
    · subst hef
      simp only [hself]
      exact h.off_lt e
    · simp only [hne e hef]
      exact h.off_lt e
  · have hef : e ≠ f := by
      rintro rfl
      simp at he
    simp only [update_of_ne hef] at he ⊢
    exact h.file_type e j he
  have hr := h.fdrefs e
  by_cases hef : e = f
  · subst hef
    rw [count_cons_self] at hr
    simp only [hself]
    show 0 = _
    omega
  · rw [count_cons_of_ne (Ne.symm hef)] at hr
    simp only [hne e hef]
    exact hr

theorem iput (h : KRep sb k T V L ((c, i) :: X) F) (hE : Lax E) :
    wp E (onFs (Fs.iput c)) k fun _ k' =>
      ∃ s, k' = { k with fs := s } ∧ KRep sb k' (T.put i) V L X F := by
  rw [wp_onFs]
  have hsub : held k V X ⊆ held k V ((c, i) :: X) := by
    rw [held_cons]
    exact Set.subset_insert _ _
  refine (h.rep.iput (fun _ => hE.blocked) mem_held_cons hsub fun _ hc => h.last_ref hc).mono ?_
  rintro - s ⟨-,hs⟩
  exact ⟨s,rfl,h.fs_step hs h.put_refs fun j hj => h.put_type hj⟩

theorem fileclose (h : KRep sb k T V L X (f :: F)) (hE : Lax E) :
    wp E (Kernel.fileclose f) k fun _ k' => Frame k k' ∧ (∀ e, e ≠ f → k'.file e = k.file e) ∧
      (((k.file f).ref ≠ 1 ∨ V.file f = none) ∧ KRep sb k' T V L X F ∨
        ∃ i, V.file f = some i ∧ (k.file f).ref = 1 ∧
          KRep sb k' (T.put i) (V.withoutFile f) L X F) := by
  have hr := h.fdrefs f
  rw [count_cons_self] at hr
  have hne : ∀ (e : FSlot) (g : File), e ≠ f → update k.file f g e = k.file e :=
    fun e g he => update_of_ne he _ _
  have hF : ∀ e, e ≠ f → F.count e = (f :: F).count e := fun e he =>
    (count_cons_of_ne (Ne.symm he)).symm
  rw [Kernel.fileclose,wp_bind,wp_read]
  refine wp_ite (fun _ => hE.panic (by simp) (by simp)) fun h1 => ?_
  refine wp_ite (fun h2 => ?_) fun h2 => ?_
  · rw [setFile,wp_modify]
    refine ⟨⟨rfl,rfl,rfl,rfl,rfl,rfl,rfl,rfl⟩,fun e he => hne e _ he,.inl ⟨.inl (by omega),?_⟩⟩
    refine h.set_file f _ rfl rfl (h.off_lt f) rfl (fun h0 => ?_) ?_ hF
    · have : (k.file f).ref - 1 = 0 := h0
      omega
    · show (k.file f).ref - 1 = _
      omega
  have href : (k.file f).ref = 1 := by omega
  rw [wp_bind,setFile,wp_modify]
  cases hV : V.file f with
  | none =>
    have htype : (k.file f).type = .none := by
      cases ht : (k.file f).type with
      | none => rfl
      | inode => exact absurd hV ((h.typed f).mp ht)
    rw [htype]
    refine ⟨⟨rfl,rfl,rfl,rfl,rfl,rfl,rfl,rfl⟩,fun e he => hne e _ he,.inl ⟨.inr rfl,?_⟩⟩
    refine h.set_file f _ htype.symm rfl (h.off_lt f) rfl (fun _ => hV) ?_ hF
    show 0 = _
    omega
  | some i =>
    have htype : (k.file f).type = .inode := (h.typed f).mpr (by rw [hV]; simp)
    rw [htype]
    refine ((h.release_file hV href).iput hE).mono ?_
    rintro - k' ⟨s,rfl,hk'⟩
    exact ⟨⟨rfl,rfl,rfl,rfl,rfl,rfl,rfl,rfl⟩,fun e he => hne e _ he,.inr ⟨i,rfl,href,hk'⟩⟩

end KRep

theorem rep_input {H : Set (ISlot × ℕ)} (h : Rep sb s T L H)
    (input : List (Option (List UInt8))) : Rep sb { s with input := input } T L H :=
  ⟨⟨h.wf.disk,h.wf.uniq,h.wf.flushed,h.wf.valid_type,h.wf.idle⟩,h.node,h.refs,h.locked,
    h.valid,fun c i hc => ⟨(h.held c i hc).ref_pos,(h.held c i hc).inum⟩⟩

theorem rep_readi {H : Set (ISlot × ℕ)} {off : ℕ} (h : Rep sb s T L H) (hc : (c, i) ∈ H)
    (hi : i ∈ L) (hoff : off < 2 ^ 32) (hn : n < 2 ^ 32) :
    wp E (readi sb c off n) s fun r t => Rep sb t T L H ∧
      ((T.node i).type ≠ .dev → r = if (T.node i).size < off ∨ 2 ^ 32 ≤ off + n then none
        else some ((T.node i).bytes off (min n ((T.node i).size - off)))) := by
  by_cases hdev : (T.node i).type = .dev
  · rw [readi,wp_bind,wp_read,(h.copy hc hi).1,if_pos hdev]
    refine wp_ite (fun _ => ?_) fun _ => ⟨h,fun hn => absurd hdev hn⟩
    rw [consoleread,wp_bind,wp_read]
    split
    · exact ⟨h,fun hn => absurd hdev hn⟩
    · exact ⟨rep_input h _,fun hn => absurd hdev hn⟩
  · refine (h.readi hc hi hdev hoff hn).mono ?_
    rintro r t ⟨rfl,hr⟩
    exact ⟨h,fun _ => hr⟩

theorem rep_writei {H : Set (ISlot × ℕ)} {off : ℕ} {src : List UInt8} (h : Rep sb s T L H)
    (hE : Lax E) (hc : (c, i) ∈ H) (hi : i ∈ L) (hoff : off < 2 ^ 32) (hn : src.length < 2 ^ 32) :
    wp E (writei sb c src off) s fun _ t => Rep sb t T L H ∨
      Rep sb t (T.setNode i ((T.node i).write off src)) L H := by
  by_cases hdev : (T.node i).type = .dev
  · rw [writei,wp_bind,wp_read]
    simp only [(h.copy hc hi).1,if_pos hdev]
    exact wp_ite (fun _ => .inl h) fun _ => .inl h
  · refine (h.writei (.inl hE.balloc) hc hi hdev hoff hn).mono fun r t hr => ?_
    split at hr
    · obtain ⟨-,rfl⟩ := hr
      exact .inl h
    · exact .inr hr.2

/-- Only the content of node `i` has changed. -/
def Written (i : ℕ) (T T' : Tree) : Prop :=
  ∃ size data, T' = T.setNode i { T.node i with size := size, data := data }

theorem Written.refl (i : ℕ) (T : Tree) : Written i T T :=
  ⟨_,_,(Tree.setNode_node_self (i := i)).symm⟩

theorem Written.write (off : ℕ) (src : List UInt8) :
    Written i T (T.setNode i ((T.node i).write off src)) := ⟨_,_,rfl⟩

theorem Written.trans {T'' : Tree} (h : Written i T T') (h' : Written i T' T'') :
    Written i T T'' := by
  obtain ⟨size,data,rfl⟩ := h
  obtain ⟨size',data',rfl⟩ := h'
  exact ⟨size',data',by rw [Tree.setNode_setNode,Tree.setNode_self]⟩

theorem Written.refs (h : Written i T T') : T'.refs = T.refs := by
  obtain ⟨size,data,rfl⟩ := h
  rfl

theorem Written.type (h : Written i T T') : (T'.node j).type = (T.node j).type := by
  obtain ⟨size,data,rfl⟩ := h
  by_cases hj : j = i
  · rw [hj,Tree.setNode_self]
  · rw [Tree.setNode_of_ne _ hj]

/-- The files of `S` have moved on or have another owner, and nothing else has changed outside the
file system. -/
structure Moved (S : Set FSlot) (k k' : Kernel) : Prop where
  frame : Frame k k'
  other : ∀ e, e ∉ S → k'.file e = k.file e
  same : ∀ e, ∃ off cid, k'.file e = { k.file e with off := off, cid := cid }

theorem Moved.refl (S : Set FSlot) (k : Kernel) : Moved S k k :=
  ⟨Frame.refl k,fun _ _ => rfl,fun e => ⟨(k.file e).off,(k.file e).cid,rfl⟩⟩

theorem Moved.trans {S : Set FSlot} {k'' : Kernel} (h : Moved S k k') (h' : Moved S k' k'') :
    Moved S k k'' := by
  refine ⟨h.frame.trans h'.frame,fun e he => (h'.other e he).trans (h.other e he),fun e => ?_⟩
  obtain ⟨off,cid,ho⟩ := h.same e
  obtain ⟨off',cid',ho'⟩ := h'.same e
  exact ⟨off',cid',by rw [ho',ho]⟩

theorem Moved.mono {S S' : Set FSlot} (h : Moved S k k') (hS : S ⊆ S') : Moved S' k k' :=
  ⟨h.frame,fun e he => h.other e fun hm => he (hS hm),h.same⟩

theorem Moved.of_update (s : Fs.State) (f : FSlot) (off : ℕ) (cid : ℤ) :
    Moved {f} k { k with
      fs := s, file := update k.file f { k.file f with off := off, cid := cid } } := by
  refine ⟨⟨rfl,rfl,rfl,rfl,rfl,rfl,rfl,rfl⟩,fun e he => update_of_ne he _ _,fun e => ?_⟩
  by_cases he : e = f
  · subst he
    exact ⟨off,cid,update_self ..⟩
  · exact ⟨(k.file e).off,(k.file e).cid,update_of_ne he _ _⟩

/-- Conditions under which the tree may be changed: when a node of some type is created in a
directory, when a node is linked into one, when an entry is taken out, which nodes are written, and
whether a node may be freed. -/
structure Guards where
  create : (ℕ → Node) → ℕ → FType → Prop
  link : (ℕ → Node) → ℕ → ℕ → Prop
  unlink : Tree → ℕ → ℕ → ℕ → Prop
  write : ℕ → Prop
  free : Prop

/-- A property of trees that every change of the file system keeps, as far as the guards allow the
change. -/
structure Law (sb : Superblock) (G : Guards) (J : Tree → Prop) : Prop where
  get : ∀ T i, J T → (T.node i).type ≠ .free → J (T.get i)
  drop : ∀ T i, J T → 0 < T.refs i → ¬ (T.Orphan i ∧ T.refs i = 1) → J (T.drop i)
  free : ∀ T i, G.free → J T → T.Orphan i → T.refs i = 1 → J ((T.drop i).setNode i Node.none)
  write : ∀ T i off src, G.write i → J T → (T.node i).type ≠ .free → (T.node i).type ≠ .dir →
    J (T.setNode i ((T.node i).write off src))
  create : ∀ T d name i type major minor, G.create T.node d type → J T →
    (T.node d).type = .dir → (T.node d).find name = none → 0 < i → i < sb.ninodes →
    (T.node i).type = .free → type ≠ .free → J (T.create d name i type major minor)
  link : ∀ T d name i, G.link T.node d i → J T → (T.node d).type = .dir →
    (T.node d).find name = none → (T.node i).type ≠ .free → (T.node i).type ≠ .dir →
    i < sb.ninodes → J (T.link d name i)
  unlink : ∀ T d name k i, G.unlink T d k i → J T → (T.node d).type = .dir →
    name ≠ Name.dot → name ≠ Name.dotdot → (T.node d).find name = some k →
    i = ((T.node d).dirent k).inum → i ≠ d → (T.node i).type ≠ .free → ¬ (T.node i).nlink < 1 →
    ((T.node i).type = .dir → (T.node i).Empty) → J (T.unlink d k i)

variable {G : Guards} {J : Tree → Prop} {src : List UInt8}

/-- Nothing is asked of the calls or of the tree. -/
def Guards.all : Guards := ⟨fun _ _ _ => True, fun _ _ _ => True, fun _ _ _ _ => True,
  fun _ => True, True⟩

theorem law_all (sb : Superblock) : Law sb .all fun _ => True := by
  constructor
  all_goals intros; trivial

theorem Law.put (law : Law sb G J) (hfree : G.free) (hJ : J T) (hi : 0 < T.refs i) :
    J (T.put i) := by
  by_cases hlast : T.Orphan i ∧ T.refs i = 1
  · rw [Tree.put,if_pos hlast]
    exact law.free T i hfree hJ hlast.1 hlast.2
  · rw [Tree.put_of_not_last hlast]
    exact law.drop T i hJ hi hlast

namespace KRep

theorem file_mem (hV : V.file f = some i) : ((k.file f).ip, i) ∈ held k V X :=
  .inr (.inl ⟨f,hV,rfl⟩)

theorem fileread_bytes (h : KRep sb k T V ∅ X F) (hE : Lax E) (hn : n < 2 ^ 32) :
    wp E (Kernel.fileread sb f n) k fun r k' => Moved {f} k k' ∧ KRep sb k' T V ∅ X F ∧
      ((k.file f).readable = false → r = none ∧ k' = k) ∧
      ∀ i, V.file f = some i → (k.file f).readable = true → (T.node i).type ≠ .dev →
        (r = if (T.node i).size < (k.file f).off ∨ 2 ^ 32 ≤ (k.file f).off + n then none
          else some ((T.node i).bytes (k.file f).off (min n ((T.node i).size - (k.file f).off)))) ∧
        (k'.file f).off = ((k.file f).off + (r.getD []).length) % 2 ^ 32 := by
  rw [Kernel.fileread,wp_bind,wp_read]
  refine wp_ite (fun hno => ?_) fun hyes => ?_
  · refine ⟨Moved.refl _ k,h,fun _ => ⟨rfl,rfl⟩,fun i _ hr => ?_⟩
    rw [hr] at hno
    cases hno
  cases htype : (k.file f).type with
  | none => exact hE.panic (by simp) (by simp)
  | inode =>
    obtain ⟨i,hV⟩ := Option.ne_none_iff_exists'.mp ((h.typed f).mp htype)
    have hmem : ((k.file f).ip, i) ∈ held k V X := file_mem hV
    simp only [wp_bind,wp_onFs]
    refine (h.rep.ilock_first hE hmem fun _ => (h.file_type f i hV).1).mono ?_
    rintro - s₁ ⟨-,hs1⟩
    refine (rep_readi hs1 hmem (Finset.mem_singleton_self i) (h.off_lt f) hn).mono ?_
    rintro r s₂ ⟨hs2,hbytes⟩
    rw [advance,setFile,wp_modify]
    refine (hs2.iunlock (fun _ => hE.iunlock) hmem).mono ?_
    rintro - s3 hs3
    rw [Finset.erase_singleton] at hs3
    refine ⟨Moved.of_update _ _ _ _,?_,fun hno => ?_,fun j hj _ hdev => ?_⟩
    · exact (h.fs_step hs3 h.refs fun _ _ => rfl).touch_file f _ rfl rfl
        (Nat.mod_lt _ (by decide)) rfl rfl
    · rw [hno] at hyes
      exact absurd rfl hyes
    · obtain rfl := Option.some.inj (hV.symm.trans hj)
      refine ⟨hbytes hdev,?_⟩
      simp only [update_self]

theorem fileread (h : KRep sb k T V ∅ X F) (hE : Lax E) (hn : n < 2 ^ 32) :
    wp E (Kernel.fileread sb f n) k fun _ k' => Moved {f} k k' ∧ KRep sb k' T V ∅ X F :=
  (h.fileread_bytes hE hn).mono fun _ _ hr => ⟨hr.1,hr.2.1⟩

theorem filewritePiece (h : KRep sb k T V ∅ X F) (hE : Lax E) (law : Law sb G J) (hJ : J T)
    (hG : G.write i) (hV : V.file f = some i) (hndir : (T.node i).type ≠ .dir) (hn : src.length < 2 ^ 32) :
    wp E (Kernel.filewritePiece sb f src) k fun _ k' => Moved {f} k k' ∧
      ∃ T', Written i T T' ∧ KRep sb k' T' V ∅ X F ∧ J T' := by
  have hmem : ((k.file f).ip, i) ∈ held k V X := file_mem hV
  have hal := (h.file_type f i hV).1
  simp only [Kernel.filewritePiece,wp_bind,wp_read,wp_onFs]
  refine (h.rep.ilock_first hE hmem fun _ => hal).mono ?_
  rintro - s₁ ⟨-,hs1⟩
  refine (rep_writei hs1 hE hmem (Finset.mem_singleton_self i) (h.off_lt f) hn).mono ?_
  intro r s₂ hs2
  have hwritten : ∃ T', Written i T T' ∧ Rep sb s₂ T' {i} (held k V X) ∧ J T' := by
    rcases hs2 with hs2 | hs2
    · exact ⟨T,Written.refl i T,hs2,hJ⟩
    · exact ⟨_,Written.write _ _,hs2,law.write T i _ _ hG hJ hal hndir⟩
  obtain ⟨T',hw,hs2,hJ'⟩ := hwritten
  rw [advance,setFile,wp_modify]
  refine (hs2.iunlock (fun _ => hE.iunlock) hmem).mono ?_
  rintro - s3 hs3
  rw [Finset.erase_singleton] at hs3
  refine ⟨Moved.of_update _ _ _ _,T',hw,?_,hJ'⟩
  refine (h.fs_step hs3 (fun j => ?_) fun _ _ => hw.type).touch_file f _ rfl rfl
    (Nat.mod_lt _ (by decide)) rfl rfl
  rw [hw.refs]
  exact h.refs j

theorem filewriteLoop (hE : Lax E) (law : Law sb G J) (fuel : ℕ) (k : Kernel) (T : Tree)
    (src : List UInt8) (h : KRep sb k T V ∅ X F) (hJ : J T) (hG : G.write i)
    (hV : V.file f = some i) (hndir : (T.node i).type ≠ .dir) :
    wp E (Kernel.filewriteLoop sb f fuel src) k fun _ k' => Moved {f} k k' ∧
      ∃ T', Written i T T' ∧ KRep sb k' T' V ∅ X F ∧ J T' := by
  have hsame : Moved {f} k k ∧ ∃ T', Written i T T' ∧ KRep sb k T' V ∅ X F ∧ J T' :=
    ⟨Moved.refl _ k,T,Written.refl i T,h,hJ⟩
  induction fuel generalizing k T src with
  | zero => exact hsame
  | succ fuel ih =>
    rw [Kernel.filewriteLoop]
    refine wp_ite (fun _ => hsame) fun _ => ?_
    have hlen : (src.take maxWrite).length < 2 ^ 32 :=
      lt_of_le_of_lt (length_take_le _ _) (by decide)
    refine (h.filewritePiece hE law hJ hG hV hndir hlen).bind ?_
    rintro r k1 ⟨hm,T1,hw,hk1,hJ1⟩
    cases r with
    | none => exact ⟨hm,T1,hw,hk1,hJ1⟩
    | some n =>
      refine wp_ite (fun _ => ?_) fun _ => hE.panic (by simp) (by simp)
      have hndir1 : (T1.node i).type ≠ .dir := by rw [hw.type]; exact hndir
      refine (ih k1 T1 _ hk1 hJ1 hndir1 ⟨Moved.refl _ k1,T1,Written.refl i T1,hk1,hJ1⟩).mono ?_
      rintro - k2 ⟨hm',T2,hw',hk2,hJ2⟩
      exact ⟨hm.trans hm',T2,hw.trans hw',hk2,hJ2⟩

theorem filewrite (h : KRep sb k T V ∅ X F) (hE : Lax E) (law : Law sb G J) (hJ : J T)
    (hG : ∀ i, V.file f = some i → G.write i) :
    wp E (Kernel.filewrite sb f src) k fun _ k' => Moved {f} k k' ∧
      ∃ T', KRep sb k' T' V ∅ X F ∧ J T' ∧
        (T' = T ∨ ∃ i, V.file f = some i ∧ (k.file f).writable = true ∧ Written i T T') := by
  rw [Kernel.filewrite,wp_bind,wp_read]
  refine wp_ite (fun _ => ⟨Moved.refl _ k,T,h,hJ,.inl rfl⟩) fun hw => ?_
  have hw : (k.file f).writable = true := by simpa using hw
  cases htype : (k.file f).type with
  | none => exact hE.panic (by simp) (by simp)
  | inode =>
    obtain ⟨i,hV⟩ := Option.ne_none_iff_exists'.mp ((h.typed f).mp htype)
    have hndir := (h.file_type f i hV).2 hw
    refine (filewriteLoop hE law src.length k T src h hJ (hG i hV) hV hndir).bind ?_
    rintro - k' ⟨hm,T',hwr,hk',hJ'⟩
    exact ⟨hm,T',hk',hJ',.inr ⟨i,hV,hw,hwr⟩⟩

end KRep

end Kernel

end Xv6Container
