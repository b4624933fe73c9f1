import Xv6Container.Kernel.Invariant
import Xv6Container.Proc.Members

/-! # Descriptors and directories of processes -/

namespace Xv6Container

open List Function
open Option (some.inj)

namespace Tables

variable {s t : Tables} {p q : PSlot} {a : Act}

/-- No process is in the slot, or one that waits to be reaped. -/
def Gone (s : Tables) (p : PSlot) : Prop :=
  (s.proc p).state = .UNUSED ∨ (s.proc p).state = .ZOMBIE

theorem gone_of_state (h : (t.proc q).state = (s.proc q).state) : t.Gone q ↔ s.Gone q := by
  rw [Gone,Gone,h]

theorem Gone.of_setProc {x : Proc} (hx : x.state = .UNUSED ∨ x.state = .ZOMBIE → s.Gone p)
    (h : (s.setProc p x).Gone q) : s.Gone q := by
  by_cases hq : q = p
  · subst hq
    have hself : (s.setProc q x).proc q = x := update_self ..
    rw [Gone,hself] at h
    exact hx h
  · have hne : (s.setProc p x).proc q = s.proc q := update_of_ne hq _ _
    rw [Gone,hne] at h
    exact h

theorem Gone.of_live {x : Proc} (h1 : x.state ≠ .UNUSED) (h2 : x.state ≠ .ZOMBIE)
    (h : (s.setProc p x).Gone q) : s.Gone q :=
  h.of_setProc fun hx => absurd hx (not_or.mpr ⟨h1,h2⟩)

theorem gone_of_woken {x y : Slot NPROC ℕ} (h : x.Woken y)
    (hy : y.state = .UNUSED ∨ y.state = .ZOMBIE) : x.state = .UNUSED ∨ x.state = .ZOMBIE := by
  rcases h with rfl | ⟨-,rfl⟩
  · exact hy
  · simp at hy

theorem gone_sweep : s.sweep.Gone q ↔ s.Gone q := gone_of_state sweep_state

theorem gone_relocate {c : ℤ} {i : CSlot} {k : Container} :
    (s.relocate p c i k).Gone q ↔ s.Gone q := by
  refine gone_of_state ?_
  by_cases hq : q = p
  · subst hq
    simp [relocate,setProc]
  · simp [relocate,setProc,setContainer,update_of_ne hq]

theorem Gone.of_wait (h : (s.wait p).1.Gone q) : s.Gone q := by
  rw [wait] at h
  split at h
  · next r hr => exact h.of_setProc fun _ => .inr (Slot.zombieChild_some hr).2
  · split at h
    · exact h
    · exact h.of_live (by simp) (by simp)

theorem Gone.of_kill {pid : ℤ} (h : (s.kill pid).1.Gone q) : s.Gone q := by
  change ((Slot.kill s.slots pid).1 q).state = _ ∨ ((Slot.kill s.slots pid).1 q).state = _ at h
  rcases Slot.kill_slot s.slots pid q with he | ⟨-,hw⟩
  · rw [he] at h
    exact h
  · have hx := gone_of_woken hw h
    exact hx

theorem Gone.of_effect (ha : Kernel.needsFiles a = false) (hs : s.effect a = some t)
    (h : t.Gone q) : s.Gone q := by
  cases a with
  | create p c | fork p mem | exit p => simp [Kernel.needsFiles] at ha
  | «open» p => simp [Kernel.needsFiles] at ha
  | destroy p c =>
    obtain rfl := some.inj hs
    rw [destroyContainer] at h
    split at h
    · exact h
    · exact h
  | join p c =>
    obtain ⟨⟨u,v⟩,hj,rfl⟩ := Option.map_eq_some_iff.mp hs
    obtain ⟨-,rfl,-⟩ | ⟨i,-,-,rfl⟩ := joinCont_cases hj
    · exact gone_sweep.mp h
    · exact gone_sweep.mp (gone_relocate.mp h)
  | leave p =>
    obtain ⟨⟨u,v⟩,hj,rfl⟩ := Option.map_eq_some_iff.mp hs
    obtain ⟨-,rfl,-⟩ | ⟨i,-,-,rfl⟩ := leaveContainer_cases hj
    · exact h
    · exact gone_relocate.mp h
  | wait p =>
    obtain rfl := some.inj hs
    exact h.of_wait
  | kill p pid =>
    obtain rfl := some.inj hs
    exact h.of_kill
  | ps p =>
    obtain rfl := some.inj hs
    rw [runningProcs_fst] at h
    exact gone_sweep.mp h
  | schedule p =>
    rw [effect] at hs
    split at hs
    · obtain rfl := some.inj hs
      exact h.of_live (by simp) (by simp)
    · exact absurd hs (by simp)
  | yield p | sleep p chan =>
    obtain rfl := some.inj hs
    exact h.of_live (by simp) (by simp)
  | wakeup chan =>
    obtain rfl := some.inj hs
    exact gone_of_woken (Slot.woken_wake1 chan (s.slots q)) h

theorem Gone.of_exit (hs : s.exit p = some t) (h : t.Gone q) : q = p ∨ s.Gone q := by
  by_cases hq : q = p
  · exact .inl hq
  right
  rw [exit] at hs
  split at hs
  · exact absurd hs (by simp)
  obtain rfl := some.inj hs
  refine gone_of_woken (Slot.woken_exit procChan initproc s.slots p q) ?_
  simpa [Gone,setSlots,Slot.exitSlots,hq] using h

theorem Gone.of_fork {mem : ForkMemory} (h : (s.fork p mem).1.Gone q) : s.Gone q := by
  obtain he | ⟨r,x,hr,-,-,he⟩ := fork_cases s p mem
  · rwa [he] at h
  · rw [he] at h
    exact Gone.of_setProc (fun _ => .inl (Slot.firstUnused_some hr)) h

end Tables

namespace Kernel

open Prog Fs

variable {sb : Superblock} {k k' : Kernel} {s : Fs.State} {T T' : Tree} {V V' : View}
  {L : Finset ℕ} {X : List (ISlot × ℕ)} {F : List FSlot} {E : Stop → Prop} {c : ISlot}
  {i w : ℕ} {f : FSlot} {fd : Fd} {p q : PSlot} {path : Path} {G : Guards} {J : Tree → Prop}

/-- A process that is gone has no descriptor and no directory. -/
def Idle (k : Kernel) : Prop :=
  ∀ p, k.tables.Gone p → k.cwd p = none ∧ ∀ fd, k.ofile (p, fd) = none

/-- Of what processes have, only that of `p` has changed. -/
structure Own (p : PSlot) (k k' : Kernel) : Prop where
  tables : k'.tables = k.tables
  cwd : ∀ q, q ≠ p → k'.cwd q = k.cwd q
  ofile : ∀ q fd, q ≠ p → k'.ofile (q, fd) = k.ofile (q, fd)

theorem Own.of_same (p : PSlot) (htables : k'.tables = k.tables) (hcwd : k'.cwd = k.cwd)
    (hofile : k'.ofile = k.ofile) : Own p k k' :=
  ⟨htables,fun _ _ => by rw [hcwd],fun _ _ _ => by rw [hofile]⟩

theorem Idle.own (h : k.Idle) (ho : Own p k k') (hp : ¬ k.tables.Gone p) : k'.Idle := by
  intro q hq
  rw [ho.tables] at hq
  have hqp : q ≠ p := by
    rintro rfl
    exact hp hq
  obtain ⟨hcwd,hofile⟩ := h q hq
  refine ⟨by rw [ho.cwd q hqp]; exact hcwd,fun fd => ?_⟩
  rw [ho.ofile q fd hqp]
  exact hofile fd

theorem own_setOfile (f : Option FSlot) :
    Own p k { k with ofile := update k.ofile (p, fd) f } := by
  refine ⟨rfl,fun _ _ => rfl,fun q e hq => update_of_ne ?_ _ _⟩
  exact fun he => hq (Prod.mk.inj he).1

theorem Own.trans {k'' : Kernel} (h : Own p k k') (h' : Own p k' k'') : Own p k k'' :=
  ⟨h'.tables.trans h.tables,fun q hq => (h'.cwd q hq).trans (h.cwd q hq),
    fun q fd hq => (h'.ofile q fd hq).trans (h.ofile q fd hq)⟩

theorem Frame.own (p : PSlot) (h : Frame k k') : Own p k k' := Own.of_same p h.tables h.cwd h.ofile

namespace KRep

theorem more_refs (h : KRep sb k T V L X F) (f : FSlot) :
    KRep sb { k with
      file := update k.file f { k.file f with ref := (k.file f).ref + 1 } } T V L X
        (f :: F) := by
  refine h.set_file f _ rfl rfl (h.off_lt f) rfl (fun h0 => absurd h0 (Nat.succ_ne_zero _)) ?_
    fun e he => count_cons_of_ne (Ne.symm he)
  have hr := h.fdrefs f
  rw [count_cons_self]
  show (k.file f).ref + 1 = _
  omega

theorem filedup (h : KRep sb k T V L X F) (hE : Lax E) (hfd : k.ofile (p, fd) = none) :
    (wp E (do Kernel.filedup f; setOfile p fd (some f)) k fun _ k' =>
      Own p k k' ∧ k'.ofile = update k.ofile (p, fd) (some f) ∧ k'.cwd = k.cwd ∧
        KRep sb k' T V L X F) ∧ wp E (do setOfile p fd (some f); Kernel.filedup f) k fun _ k' =>
      Own p k k' ∧ KRep sb k' T V L X F := by
  have hk := (h.more_refs f).fill_fd hfd
  have hown : Own p k { k with ofile := update k.ofile (p, fd) (some f) } :=
    own_setOfile (some f)
  simp only [Kernel.filedup,setOfile,setFile,wp_bind,wp_read,wp_modify]
  refine ⟨wp_ite (fun _ => hE.panic (by simp) (by simp)) fun _ => ?_,
    wp_ite (fun _ => hE.panic (by simp) (by simp)) fun _ => ?_⟩
  · exact ⟨⟨rfl,hown.cwd,hown.ofile⟩,rfl,rfl,hk⟩
  · exact ⟨⟨rfl,hown.cwd,hown.ofile⟩,hk⟩

theorem sysDup (h : KRep sb k T V ∅ [] []) (hE : Lax E) (n : ℕ) :
    wp E (Kernel.sysDup p n) k fun _ k' => Own p k k' ∧ KRep sb k' T V ∅ [] [] := by
  have hself : Own p k k := Own.of_same p rfl rfl rfl
  rw [Kernel.sysDup,wp_bind,wp_read]
  split
  · exact ⟨hself,h⟩
  · next fd0 f harg =>
    rw [fdalloc,wp_bind,wp_bind,wp_read]
    split
    · next fd hfd =>
      have hnone : k.ofile (p, fd) = none := by simpa using find?_some hfd
      have := (h.filedup (f := f) hE hnone).2
      simp only [wp_bind,wp_pure] at this ⊢
      exact this
    · exact ⟨hself,h⟩

theorem sysClose (h : KRep sb k T V ∅ [] []) (hE : Lax E) (law : Law sb G J) (hfree : G.free)
    (hJ : J T) (n : ℕ) :
    wp E (Kernel.sysClose p n) k fun _ k' => Own p k k' ∧
      ∃ T' V', KRep sb k' T' V' ∅ [] [] ∧ J T' := by
  rw [Kernel.sysClose,wp_bind,wp_read]
  split
  · exact ⟨Own.of_same p rfl rfl rfl,T,V,h,hJ⟩
  · next fd f harg =>
    have hfd : k.ofile (p, fd) = some f := by
      rw [argfd] at harg
      split at harg
      · obtain ⟨f',hf',he⟩ := Option.map_eq_some_iff.mp harg
        obtain ⟨rfl,rfl⟩ := Prod.mk.inj he
        exact hf'
      · exact absurd harg (by simp)
    rw [setOfile,wp_bind,wp_modify]
    refine ((h.clear_fd hfd).fileclose hE).bind ?_
    rintro - k' ⟨hfr,-,(⟨-,hk'⟩ | ⟨i,hi,-,hk'⟩)⟩
    · exact ⟨(own_setOfile none).trans (hfr.own p),T,V,hk',hJ⟩
    · refine ⟨(own_setOfile none).trans (hfr.own p),_,_,hk',law.put hfree hJ ?_⟩
      exact h.rep.refs_pos (file_mem hi)

theorem release_cwd (h : KRep sb k T V L X F) (hp : k.cwd p = some c) :
    KRep sb { k with cwd := update k.cwd p none } T
      { V with cwd := update V.cwd p none } L ((c, V.dir p) :: X) F := by
  obtain ⟨w,hw⟩ : ∃ w, V.cwd p = some w := by
    refine Option.ne_none_iff_exists'.mp fun hn => ?_
    rw [(h.cwd_none p).mpr hn] at hp
    exact absurd hp (by simp)
  have hdir : V.dir p = w := by rw [View.dir,hw]; rfl
  rw [hdir]
  refine ⟨h.rep.mono ?_,fun j => ?_,h.typed,h.closed,h.off_lt,h.file_type,fun q => ?_,
    fun q j hq => ?_,h.fdrefs⟩
  · rintro ⟨c',j⟩ (hX | hfile | ⟨q,hq,hc⟩)
    · rcases List.mem_cons.mp hX with hx | hX
      · rw [hx]
        exact .inr (.inr ⟨p,hw,hp⟩)
      · exact .inl hX
    · exact .inr (.inl hfile)
    · have hqp : q ≠ p := by
        rintro rfl
        simp at hq
      simp only [update_of_ne hqp] at hq hc
      exact .inr (.inr ⟨q,hq,hc⟩)
  · have hr := h.refs j
    have ht := tally_clear (a := j) hw
    simp only [countP_cons,decide_eq_true_eq]
    omega
  · by_cases hqp : q = p
    · subst hqp
      simp
    · simp only [update_of_ne hqp]
      exact h.cwd_none q
  · have hqp : q ≠ p := by
      rintro rfl
      simp at hq
    simp only [update_of_ne hqp] at hq
    exact h.cwd_dir q j hq

theorem take_cwd (h : KRep sb k T V L ((c, i) :: X) F) (hp : k.cwd p = none)
    (hdir : (T.node i).type = .dir) :
    KRep sb { k with cwd := update k.cwd p (some c) } T
      { V with cwd := update V.cwd p (some i) } L X F := by
  have hVp : V.cwd p = none := (h.cwd_none p).mp hp
  refine ⟨h.rep.mono ?_,fun j => ?_,h.typed,h.closed,h.off_lt,h.file_type,fun q => ?_,
    fun q j hq => ?_,h.fdrefs⟩
  · rintro ⟨c',j⟩ (hX | hfile | ⟨q,hq,hc⟩)
    · exact .inl (mem_cons_of_mem _ hX)
    · exact .inr (.inl hfile)
    · by_cases hqp : q = p
      · subst hqp
        simp only [update_self,Option.some.injEq] at hq hc
        rw [← hq,← hc]
        exact mem_held_cons
      · simp only [update_of_ne hqp] at hq hc
        exact .inr (.inr ⟨q,hq,hc⟩)
  · have hr := h.refs j
    have ht := tally_fill (a := j) hVp i
    simp only [countP_cons,decide_eq_true_eq] at hr ⊢
    omega
  · by_cases hqp : q = p
    · subst hqp
      simp
    · simp only [update_of_ne hqp]
      exact h.cwd_none q
  · by_cases hqp : q = p
    · subst hqp
      simp only [update_self,Option.some.injEq] at hq
      rw [← hq]
      exact hdir
    · simp only [update_of_ne hqp] at hq
      exact h.cwd_dir q j hq

theorem putCwd (h : KRep sb k T V ∅ X F) (hE : Lax E) (v : Option ISlot) :
    wp E (do Kernel.putCwd p; setCwd p v) k fun _ k' => 0 < T.refs (V.dir p) ∧
      (∀ c j, (c, j) ∈ X → (T.put (V.dir p)).node j = T.node j) ∧
      ∃ s, k' = { k with fs := s, cwd := update k.cwd p v } ∧
        KRep sb { k with fs := s, cwd := update k.cwd p none } (T.put (V.dir p))
          { V with cwd := update V.cwd p none } ∅ X F := by
  rw [Kernel.putCwd,wp_bind,wp_bind,wp_read]
  cases hp : k.cwd p with
  | none => exact hE.wild
  | some c =>
    have hk := h.release_cwd hp
    have hput := hk.iput hE
    simp only [wp_onFs,setCwd,wp_modify] at hput ⊢
    refine hput.mono ?_
    rintro - s ⟨s',hs',hk'⟩
    refine ⟨hk.rep.refs_pos mem_held_cons,fun c' j hj => ?_,s,rfl,hk'⟩
    by_cases hjw : j = V.dir p
    · subst hjw
      have := hk.last_ref (.inl hj)
      rw [Tree.put_of_not_last fun hl => by omega]
      rfl
    · exact Tree.put_node_of_ne hjw

theorem rep_chdirInode {H : Set (ISlot × ℕ)} {cwd : Option ISlot} (h : Rep sb s T ∅ H) (hE : Lax E)
    (hcwd : ∀ c, cwd = some c → (c, w) ∈ H) (hs : ¬ E (.panic "ilock: no type") → T.Closed)
    (hw : ¬ E (.panic "ilock: no type") → (T.node w).type ≠ .free) :
    wp E (chdirInode sb cwd path) s fun r t => (r = none ∧ Rep sb t T ∅ H) ∨
      ∃ c i, r = some c ∧ (T.node i).type = .dir ∧ Rep sb t (T.get i) ∅ (insert (c, i) H) := by
  rw [chdirInode]
  refine (h.namei hE.calm (fun _ => hE.wild) hcwd hs path).bind ?_
  rintro r t (⟨rfl,-,ht⟩ | ⟨c,i,rfl,hj,ht⟩)
  · exact .inl ⟨rfl,ht⟩
  have hc : (c, i) ∈ insert (c, i) H := Set.mem_insert _ _
  refine (ht.ilock_first hE hc fun hno => (hs hno).resolve (hw hno) hj).bind ?_
  rintro - u ⟨hal,hu⟩
  rw [wp_bind,wp_read,(hu.copy hc (Finset.mem_singleton_self i)).1,Tree.get_node]
  refine wp_ite (fun _ => ?_) fun hdir => ?_
  · refine (hu.leave hE h.orphan_refs fun _ hc' => h.refs_pos hc').bind ?_
    rintro - v hv
    exact .inl ⟨rfl,hv⟩
  · refine (hu.iunlock (fun _ => hE.iunlock) hc).bind ?_
    rintro - v hv
    rw [Finset.erase_singleton] at hv
    exact .inr ⟨c,i,rfl,not_not.mp hdir,hv⟩

theorem got (h : KRep sb k T V ∅ [] F) (hs : Rep sb s (T.get i) ∅ (insert (c, i) (held k V []))) :
    KRep sb { k with fs := s } (T.get i) V ∅ [(c, i)] F := by
  refine h.fs_step (by rw [held_cons]; exact hs) (fun j => ?_) fun _ _ => rfl
  have hr := h.refs j
  simp only [countP_cons,countP_nil,decide_eq_true_eq] at hr ⊢
  split
  · next e => rw [← e,Tree.get_refs_self,e,hr]
  · next e => rw [Tree.get_refs_of_ne (Ne.symm e),hr]

theorem sysChdir (h : KRep sb k T V ∅ [] []) (hE : Lax E) (law : Law sb G J) (hfree : G.free)
    (hJ : J T) (hcl : ¬ E (.panic "ilock: no type") → T.Closed) :
    wp E (Kernel.sysChdir sb p path) k fun _ k' => Own p k k' ∧
      ∃ T' V', KRep sb k' T' V' ∅ [] [] ∧ J T' := by
  rw [Kernel.sysChdir,inCwd,wp_bind,wp_bind,wp_read,wp_onFs]
  refine (rep_chdirInode h.rep hE h.cwd_mem hcl fun hno => h.dir_alloc (hcl hno).root).mono ?_
  rintro r s (⟨rfl,hs⟩ | ⟨c,i,rfl,hdir,hs⟩)
  · exact ⟨Own.of_same p rfl rfl rfl,T,V,h.fs_step hs h.refs fun _ _ => rfl,hJ⟩
  have hk := h.got hs
  have hJ1 : J (T.get i) := law.get T i hJ (by rw [hdir]; decide)
  simp only
  refine wp.bind_bind (hk.putCwd (p := p) hE (some c)) ?_
  rintro - k' ⟨hpos,hsame,s',rfl,hk'⟩
  have hdir' : (((T.get i).put (V.dir p)).node i).type = .dir := by
    rw [hsame c i mem_cons_self]
    exact hdir
  have hfinal := hk'.take_cwd (p := p) (update_self ..) hdir'
  simp only [update_idem] at hfinal
  refine ⟨⟨rfl,fun q hq => update_of_ne hq _ _,fun _ _ _ => rfl⟩,_,_,hfinal,law.put hfree hJ1 hpos⟩

theorem dupFds (h : KRep sb k T V ∅ [] []) (hE : Lax E) (hq : ∀ fd, k.ofile (q, fd) = none) :
    wp E ((List.finRange NOFILE).forM (dupFd p q)) k fun _ k' =>
      Own q k k' ∧ k'.cwd = k.cwd ∧ KRep sb k' T V ∅ [] [] := by
  refine (wp_forM (fun l k' => Own q k k' ∧ k'.cwd = k.cwd ∧ KRep sb k' T V ∅ [] [] ∧ l.Nodup ∧
    ∀ fd ∈ l, k'.ofile (q, fd) = none) ?_ _ ?_).mono fun _ k' hk' => ⟨hk'.1,hk'.2.1,hk'.2.2.1⟩
  · rintro fd l k1 ⟨hown,hcwd,hk1,hnd,hnone⟩
    obtain ⟨hfd,hnd⟩ := List.nodup_cons.mp hnd
    rw [dupFd,wp_bind,wp_read]
    split
    · next f hf =>
      refine (hk1.filedup hE (hnone fd mem_cons_self)).1.mono ?_
      rintro - k2 ⟨hown2,hofile,hcwd2,hk2⟩
      refine ⟨hown.trans hown2,hcwd2.trans hcwd,hk2,hnd,fun e he => ?_⟩
      have hne : (q, e) ≠ (q, fd) := by
        intro heq
        obtain rfl := (Prod.mk.inj heq).2
        exact hfd he
      rw [hofile,update_of_ne hne]
      exact hnone e (mem_cons_of_mem _ he)
    · exact ⟨hown,hcwd,hk1,hnd,fun e he => hnone e (mem_cons_of_mem _ he)⟩
  · exact ⟨Own.of_same q rfl rfl rfl,rfl,h,nodup_finRange _,fun fd _ => hq fd⟩

theorem dupCwd (h : KRep sb k T V ∅ [] []) (hE : Lax E) (law : Law sb G J) (hJ : J T)
    (hq : k.cwd q = none) :
    wp E (Kernel.dupCwd p q) k fun _ k' => Own q k k' ∧
      ∃ T' V', KRep sb k' T' V' ∅ [] [] ∧ J T' := by
  rw [Kernel.dupCwd,wp_bind,wp_read]
  cases hp : k.cwd p with
  | none => exact hE.wild
  | some c =>
    have hmem : (c, V.dir p) ∈ held k V [] := h.cwd_mem c hp
    rw [wp_bind,wp_onFs]
    refine (h.rep.idup hmem).mono ?_
    rintro r s ⟨rfl,hs⟩
    rw [← Set.insert_eq_of_mem hmem] at hs
    have hdir : (T.node (V.dir p)).type = .dir := by
      cases hV : V.cwd p with
      | none =>
        rw [(h.cwd_none p).mpr hV] at hp
        exact absurd hp (by simp)
      | some w =>
        rw [View.dir,hV]
        exact h.cwd_dir p w hV
    exact ⟨⟨rfl,fun _ hr => update_of_ne hr _ _,fun _ _ _ => rfl⟩,_,_,
      (h.got hs).take_cwd hq hdir,law.get T _ hJ (by rw [hdir]; decide)⟩

theorem sysFork (h : KRep sb k T V ∅ [] []) (hE : Lax E) (law : Law sb G J) (hJ : J T)
    (hidle : k.Idle) (mem : Tables.ForkMemory) :
    wp E (Kernel.sysFork p mem) k fun _ k' => k'.Idle ∧
      ∃ T' V', KRep sb k' T' V' ∅ [] [] ∧ J T' := by
  rw [Kernel.sysFork,wp_bind,wp_read]
  cases hq : k.tables.firstUnused with
  | none => exact ⟨hidle,T,V,h,hJ⟩
  | some q =>
    have hgone : k.tables.Gone q := .inl (Slot.firstUnused_some hq)
    obtain ⟨hcwd,hofile⟩ := hidle q hgone
    refine wp_ite (fun hmem => ?_) fun hmem => ?_
    · refine (h.dupFds hE hofile).bind ?_
      rintro - k1 ⟨hown1,hcwd1,hk1⟩
      refine (hk1.dupCwd hE law hJ (by rw [hcwd1]; exact hcwd)).bind ?_
      rintro - k2 ⟨hown2,T',V',hk2,hJ'⟩
      have hown := hown1.trans hown2
      refine ⟨fun r hr => ?_,T',V',hk2.with_tables _ _ _ _ _ _,hJ'⟩
      change (k2.tables.fork p mem).1.Gone r at hr
      rw [hown.tables] at hr
      have hr' : k.tables.Gone r := Tables.Gone.of_fork hr
      have hrq : r ≠ q := by
        rintro rfl
        have hlive : ((k.tables.fork p mem).1.proc r).state = .RUNNABLE := by
          simp [Tables.fork,hq,hmem,Tables.setProc]
        rcases hr with hr | hr
        · exact absurd (hlive.symm.trans hr) (by decide)
        · exact absurd (hlive.symm.trans hr) (by decide)
      refine ⟨?_,fun fd => ?_⟩
      · show k2.cwd r = none
        rw [hown.cwd r hrq]
        exact (hidle r hr').1
      · show k2.ofile (r, fd) = none
        rw [hown.ofile r fd hrq]
        exact (hidle r hr').2 fd
    · exact ⟨fun r hr => hidle r (Tables.Gone.of_fork hr),T,V,h.with_tables _ _ _ _ _ _,hJ⟩

end KRep

theorem wp_fileclose_setOfile {Q : Unit → Kernel → Prop}
    (h : wp E (do setOfile p fd none; fileclose f) k Q) :
    wp E (do fileclose f; setOfile p fd none) k Q := by
  simp only [setOfile,fileclose,setFile,wp_bind,wp_read,wp_modify] at h ⊢
  by_cases h1 : (k.file f).ref < 1
  · simp only [if_pos h1,wp_stop] at h ⊢
    exact h
  simp only [if_neg h1] at h ⊢
  by_cases h2 : 1 < (k.file f).ref
  · simp only [if_pos h2,wp_modify] at h ⊢
    exact h
  simp only [if_neg h2,wp_bind,wp_modify] at h ⊢
  cases htype : (k.file f).type with
  | none =>
    simp only [htype,wp_pure] at h ⊢
    exact h
  | inode =>
    simp only [htype,wp_onFs] at h ⊢
    exact h

namespace KRep

theorem exitFds (h : KRep sb k T V ∅ [] []) (hE : Lax E) (law : Law sb G J) (hfree : G.free)
    (hJ : J T) :
    wp E ((List.finRange NOFILE).forM (exitFd p)) k fun _ k' => Own p k k' ∧
      (∀ fd, k'.ofile (p, fd) = none) ∧ ∃ T' V', KRep sb k' T' V' ∅ [] [] ∧ J T' := by
  refine (wp_forM (fun l k' => Own p k k' ∧ (∀ fd, fd ∉ l → k'.ofile (p, fd) = none) ∧
    ∃ T' V', KRep sb k' T' V' ∅ [] [] ∧ J T') ?_ _ ?_).mono
      fun _ k' hk' => ⟨hk'.1,fun fd => hk'.2.1 fd not_mem_nil,hk'.2.2⟩
  · rintro fd l k1 ⟨hown,hnone,T1,V1,hk1,hJ1⟩
    rw [exitFd,wp_bind,wp_read]
    cases hf : k1.ofile (p, fd) with
    | none =>
      refine ⟨hown,fun e he => ?_,T1,V1,hk1,hJ1⟩
      by_cases hfe : e = fd
      · rw [hfe,hf]
      · exact hnone e fun hm => (List.mem_cons.mp hm).elim hfe he
    | some f =>
      refine wp_fileclose_setOfile ?_
      rw [setOfile,wp_bind,wp_modify]
      refine ((hk1.clear_fd hf).fileclose hE).mono ?_
      rintro - k2 ⟨hfr,-,hk2⟩
      refine ⟨(hown.trans (own_setOfile none)).trans (hfr.own p),fun e he => ?_,?_⟩
      · rw [hfr.ofile]
        by_cases hfe : e = fd
        · rw [hfe]
          exact update_self ..
        · have hne : (p, e) ≠ (p, fd) := fun heq => hfe (Prod.mk.inj heq).2
          show update k1.ofile (p, fd) none (p, e) = none
          rw [update_of_ne hne]
          exact hnone e fun hm => (List.mem_cons.mp hm).elim hfe he
      · rcases hk2 with ⟨-,hk2⟩ | ⟨i,hi,-,hk2⟩
        · exact ⟨T1,V1,hk2,hJ1⟩
        · exact ⟨_,_,hk2,law.put hfree hJ1 (hk1.rep.refs_pos (file_mem hi))⟩
  · exact ⟨Own.of_same p rfl rfl rfl,fun fd hfd => absurd (mem_finRange fd) hfd,T,V,h,hJ⟩

theorem sysExit (h : KRep sb k T V ∅ [] []) (hE : Lax E) (law : Law sb G J) (hfree : G.free)
    (hJ : J T) (hidle : k.Idle) :
    wp E (Kernel.sysExit p) k fun _ k' => k'.Idle ∧ ∃ T' V', KRep sb k' T' V' ∅ [] [] ∧ J T' := by
  rw [Kernel.sysExit,wp_bind,wp_read]
  cases hexit : k.tables.exit p with
  | none => exact hE.panic (by simp) (by simp)
  | some tables =>
    refine (h.exitFds hE law hfree hJ).bind ?_
    rintro - k1 ⟨hown,hnone,T1,V1,hk1,hJ1⟩
    refine wp.bind_bind (hk1.putCwd (p := p) hE none) ?_
    rintro - k2 ⟨hpos,-,s,rfl,hk2⟩
    refine ⟨fun r hr => ?_,_,_,hk2.with_tables tables _ _ _ _ _,law.put hfree hJ1 hpos⟩
    by_cases hrp : r = p
    · subst hrp
      exact ⟨update_self ..,hnone⟩
    have hr' := (Tables.Gone.of_exit hexit hr).resolve_left hrp
    refine ⟨?_,fun fd => ?_⟩
    · show update k1.cwd p none r = none
      rw [update_of_ne hrp,hown.cwd r hrp]
      exact (hidle r hr').1
    · show k1.ofile (r, fd) = none
      rw [hown.ofile r fd hrp]
      exact (hidle r hr').2 fd

end KRep

end Kernel

end Xv6Container
