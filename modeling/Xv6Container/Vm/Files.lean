import Xv6Container.Vm.System
import Xv6Container.Lib.Tally

/-!
# Open files and the pages of pipes

A page is a pipe as long as one of its two ends is in the file table. Reference
counts tell when an end goes, the flags in the page when both ends are gone.
-/

namespace Xv6Container.Vm

open Function Prog List Set

/-- Page `f` is a pipe of which an end is open. -/
def PipePage (s : Sys) (f : ℕ) : Prop := ∃ i, (s.file i).pipe = some f

/-- The flag in a pipe for the end that is writable, or the other one. -/
def Ends.isOpen (e : Ends) (writable : Bool) : Bool := if writable then e.writeopen else e.readopen

/-- The pages and the file table, where `D` are the directories of the address spaces, `B` the other
pages in use except pipes, `g` the pointers of processes to open files and `xs` those in local
variables. -/
structure World (A D B : Set ℕ) (g : PSlot × Fin NOFILE → Option FSlot) (xs : List FSlot)
    (s : Sys) : Prop where
  sep : Sep A s.mem D (B ∪ {f | PipePage s f})
  apart : ∀ f, PipePage s f → f ∉ B
  ref_eq : ∀ i, (s.file i).ref = tally g i + xs.count i
  free : ∀ i, (s.file i).ref = 0 → (s.file i).pipe = none
  inj : ∀ i j f, (s.file i).pipe = some f → (s.file j).pipe = some f →
    (s.file i).writable = (s.file j).writable → i = j
  ends : ∀ f w, PipePage s f →
    ((s.ends f).isOpen w = true ↔ ∃ i, (s.file i).pipe = some f ∧ (s.file i).writable = w)

/-- Processes and address spaces are left alone. -/
structure Still (D : Set ℕ) (s t : Sys) : Prop where
  proc : t.proc = s.proc
  kpgdir : t.kpgdir = s.kpgdir
  kept : t.kept = s.kept
  keep : ∀ d ∈ D, Keep s.mem t.mem d

/-- Files with a pointer in `g` are what they were. -/
def FilesKeep (g : PSlot × Fin NOFILE → Option FSlot) (s t : Sys) : Prop :=
  ∀ i, 0 < tally g i → (t.file i).pipe = (s.file i).pipe ∧
    (t.file i).writable = (s.file i).writable

section Files

variable {L : Layout} {A D B : Set ℕ} {g : PSlot × Fin NOFILE → Option FSlot} {xs : List FSlot}
  {s t u : Sys} {i : FSlot} {E : Stop → Prop}

theorem Still.refl (D : Set ℕ) (s : Sys) : Still D s s := ⟨rfl,rfl,rfl,fun _ _ => .refl _ _⟩

theorem Still.trans (h : Still D s t) (h' : Still D t u) : Still D s u :=
  ⟨h'.proc.trans h.proc,h'.kpgdir.trans h.kpgdir,h'.kept.trans h.kept,
    fun d hd => (h.keep d hd).trans (h'.keep d hd)⟩

theorem FilesKeep.refl (g : PSlot × Fin NOFILE → Option FSlot) (s : Sys) : FilesKeep g s s :=
  fun _ _ => ⟨rfl,rfl⟩

theorem FilesKeep.trans (h : FilesKeep g s t) (h' : FilesKeep g t u) : FilesKeep g s u :=
  fun i hi => ⟨(h' i hi).1.trans (h i hi).1,(h' i hi).2.trans (h i hi).2⟩

theorem Ends.isOpen_close (e : Ends) (w w' : Bool) :
    (if w then { e with writeopen := false } else { e with readopen := false } : Ends).isOpen w' =
      if w' = w then false else e.isOpen w' := by
  cases w <;> cases w' <;> rfl

theorem Ends.not_open_iff (e : Ends) (w : Bool) :
    (!e.readopen && !e.writeopen) = true ↔ e.isOpen w = false ∧ e.isOpen (!w) = false := by
  cases w <;> simp [isOpen,and_comm]

theorem setRef_same (s : Sys) (i : FSlot) (n : ℕ) (j : FSlot) :
    (update s.file i { s.file i with ref := n } j).pipe = (s.file j).pipe ∧
      (update s.file i { s.file i with ref := n } j).writable = (s.file j).writable := by
  by_cases hj : j = i
  · subst hj
    rw [update_self]
    exact ⟨rfl,rfl⟩
  · rw [update_of_ne hj]
    exact ⟨rfl,rfl⟩

theorem World.setRef (h : World A D B g xs s) {g' : PSlot × Fin NOFILE → Option FSlot}
    {xs' : List FSlot} {n : ℕ} (hn : n ≠ 0)
    (href : ∀ j, (if j = i then n else (s.file j).ref) = tally g' j + xs'.count j) :
    World A D B g' xs' { s with file := update s.file i { s.file i with ref := n } } := by
  have hsame := setRef_same s i n
  refine ⟨?_,?_,fun j => ?_,fun j hj => ?_,?_,?_⟩
  · simpa only [PipePage,hsame] using h.sep
  · simpa only [PipePage,hsame] using h.apart
  · rw [← href j]
    by_cases hj : j = i
    · subst hj
      simp
    · simp [hj]
  · by_cases hji : j = i
    · subst hji
      simp [hn] at hj
    · simp only [update_of_ne hji] at hj ⊢
      exact h.free j hj
  · simpa only [hsame] using h.inj
  · simpa only [PipePage,hsame] using h.ends

theorem World.drop (h : World A D B g (i :: xs) s) (hi : 1 < (s.file i).ref) :
    World A D B g xs { s with
      file := update s.file i { s.file i with ref := (s.file i).ref - 1 } } := by
  refine h.setRef (by omega) fun j => ?_
  have href := h.ref_eq j
  by_cases hj : j = i
  · subst hj
    rw [count_cons_self] at href
    rw [if_pos rfl]
    omega
  · rw [count_cons_of_ne (Ne.symm hj)] at href
    rw [if_neg hj,href]

/-- The file table after the last reference to `i` is gone. -/
def dropLast (s : Sys) (i : FSlot) : FSlot → File :=
  update s.file i { s.file i with ref := 0, pipe := none }

theorem dropLast_pipe (s : Sys) (i j : FSlot) :
    (dropLast s i j).pipe = if j = i then none else (s.file j).pipe := by
  rw [dropLast]
  by_cases hj : j = i
  · rw [hj,update_self,if_pos rfl]
  · rw [update_of_ne hj,if_neg hj]

theorem dropLast_writable (s : Sys) (i j : FSlot) :
    (dropLast s i j).writable = (s.file j).writable := by
  rw [dropLast]
  by_cases hj : j = i
  · rw [hj,update_self]
  · rw [update_of_ne hj]

theorem dropLast_some {f : ℕ} {j : FSlot} :
    (dropLast s i j).pipe = some f ↔ j ≠ i ∧ (s.file j).pipe = some f := by
  rw [dropLast_pipe]
  by_cases hj : j = i <;> simp [hj]

theorem dropLast_of_ne {f : ℕ} {j : FSlot} (hf : (s.file i).pipe ≠ some f) :
    (dropLast s i j).pipe = some f ↔ (s.file j).pipe = some f := by
  rw [dropLast_some,and_iff_right_of_imp]
  rintro hj rfl
  exact hf hj

theorem World.dropLast (h : World A D B g (i :: xs) s) (hi : (s.file i).ref = 1)
    {r : Ram} {ends : ℕ → Ends}
    (hsep : Sep A r.mem D (B ∪ {f | ∃ j, (dropLast s i j).pipe = some f}))
    (hends : ∀ f w, (∃ j, (dropLast s i j).pipe = some f) → ((ends f).isOpen w = true ↔
      ∃ j, (dropLast s i j).pipe = some f ∧ (s.file j).writable = w)) :
    World A D B g xs { s with ram := r, file := dropLast s i, ends := ends } := by
  refine ⟨hsep,?_,fun j => ?_,fun j hj => ?_,fun j k f hj hk hw => ?_,fun f w hf => ?_⟩
  · rintro f ⟨j,hj⟩
    exact h.apart f ⟨j,(dropLast_some.mp hj).2⟩
  · have := h.ref_eq j
    by_cases hj : j = i
    · subst hj
      rw [count_cons_self] at this
      simp only [Vm.dropLast,update_self]
      omega
    · rw [count_cons_of_ne (Ne.symm hj)] at this
      simpa only [Vm.dropLast,update_of_ne hj] using this
  · rw [dropLast_pipe]
    split
    · rfl
    · next hji =>
      simp only [Vm.dropLast,update_of_ne hji] at hj
      exact h.free j hj
  · simp only [dropLast_writable] at hw
    exact h.inj j k f (dropLast_some.mp hj).2 (dropLast_some.mp hk).2 hw
  · simp only [dropLast_writable]
    exact hends f w hf

theorem World.filesKeep (h : World A D B g (i :: xs) s) (hi : (s.file i).ref = 1) {r : Ram}
    {ends : ℕ → Ends} :
    FilesKeep g s { s with ram := r, file := Vm.dropLast s i, ends := ends } := fun j hj => by
  have hji : j ≠ i := by
    rintro rfl
    have := h.ref_eq j
    rw [count_cons_self] at this
    omega
  simp only [Vm.dropLast,update_of_ne hji,and_self]

variable (hA : ∀ f ∈ A, L.kend ≤ f ∧ f < L.phystop)
include hA

theorem World.closeEnd {pg : ℕ} (h : World A D B g (i :: xs) s) (hi : (s.file i).ref = 1)
    (hpg : (s.file i).pipe = some pg) :
    wp E (pipeclose L pg (s.file i).writable) { s with file := Vm.dropLast s i }
    fun _ t => World A D B g xs t ∧ Still D s t ∧ FilesKeep g s t := by
  set w := (s.file i).writable with hw
  have hpage : PipePage s pg := ⟨i,hpg⟩
  -- who else has the pipe is its other end
  have hother : (∃ j, (Vm.dropLast s i j).pipe = some pg) ↔ (s.ends pg).isOpen (!w) = true := by
    rw [h.ends pg (!w) hpage]
    constructor
    · rintro ⟨j,hj⟩
      obtain ⟨hji,hj⟩ := dropLast_some.mp hj
      refine ⟨j,hj,?_⟩
      by_contra hne
      exact hji (h.inj j i pg hj hpg (by simpa using hne))
    · rintro ⟨j,hj,hjw⟩
      refine ⟨j,dropLast_some.mpr ⟨?_,hj⟩⟩
      rintro rfl
      rw [← hw] at hjw
      simp at hjw
  have hkeep : ∀ {f j}, f ≠ pg →
      ((Vm.dropLast s i j).pipe = some f ↔ (s.file j).pipe = some f) := fun hf =>
    dropLast_of_ne fun hi => hf (Option.some.inj (hi.symm.trans hpg))
  have hrest : ∀ f, f ≠ pg → ((∃ j, (Vm.dropLast s i j).pipe = some f) ↔ PipePage s f) :=
    fun f hf => exists_congr fun j => hkeep hf
  have hends : ∀ f w', (∃ j, (Vm.dropLast s i j).pipe = some f) →
      ((update s.ends pg (if w then { s.ends pg with writeopen := false }
        else { s.ends pg with readopen := false }) f).isOpen w' = true ↔
        ∃ j, (Vm.dropLast s i j).pipe = some f ∧ (s.file j).writable = w') := by
    intro f w' hf
    by_cases hfp : f = pg
    · subst hfp
      rw [update_self,Ends.isOpen_close]
      by_cases hw' : w' = w
      · subst hw'
        simp only [if_true,Bool.false_eq_true,false_iff,not_exists,not_and]
        intro j hj hjw
        obtain ⟨hji,hj⟩ := dropLast_some.mp hj
        exact hji (h.inj j i f hj hpg (hjw.trans hw))
      · rw [if_neg hw',h.ends f w' hpage]
        refine exists_congr fun j => and_congr_left fun hjw => ?_
        refine ⟨fun hj => dropLast_some.mpr ⟨?_,hj⟩,fun hj => (dropLast_some.mp hj).2⟩
        rintro rfl
        exact hw' (hjw.symm.trans hw.symm)
    · rw [update_of_ne hfp,h.ends f w' ((hrest f hfp).mp hf)]
      exact exists_congr fun j => and_congr_left fun _ => (hkeep hfp).symm
  have hflag : (!(update s.ends pg (if w then { s.ends pg with writeopen := false }
      else { s.ends pg with readopen := false }) pg).readopen &&
      !(update s.ends pg (if w then { s.ends pg with writeopen := false }
      else { s.ends pg with readopen := false }) pg).writeopen) = true ↔
      (s.ends pg).isOpen (!w) = false := by
    rw [Ends.not_open_iff _ w,update_self,Ends.isOpen_close,Ends.isOpen_close]
    simp
  rw [pipeclose]
  simp only [wp_bind,wp_modify,wp_read]
  refine wp_ite (fun hc => ?_) fun hc => ?_
  · have hgone : ¬∃ j, (Vm.dropLast s i j).pipe = some pg := by
      rw [hother,hflag.mp hc]
      simp
    rw [wp_onMem]
    refine (wp_kfree hA h.sep (.inr hpage)).mono ?_
    rintro - m ⟨hsep,-,hkeep⟩
    refine ⟨h.dropLast hi ?_ hends,⟨rfl,rfl,rfl,hkeep⟩,h.filesKeep hi⟩
    convert hsep using 1
    ext f
    simp only [mem_union,mem_ofPred_eq,mem_sdiff,mem_singleton_iff]
    by_cases hf : f = pg
    · subst hf
      simpa [hgone] using h.apart f hpage
    · rw [hrest f hf]
      simp [hf]
  · have hstays : ∃ j, (Vm.dropLast s i j).pipe = some pg := by
      rw [hother,← Bool.not_eq_false,← hflag]
      exact hc
    refine ⟨h.dropLast hi ?_ hends,⟨rfl,rfl,rfl,fun _ _ => .refl _ _⟩,h.filesKeep hi⟩
    convert h.sep using 2
    ext f
    simp only [mem_ofPred_eq]
    by_cases hf : f = pg
    · subst hf
      exact iff_of_true hstays hpage
    · exact hrest f hf

theorem wp_fileclose (h : World A D B g (i :: xs) s) :
    wp E (fileclose L i) s fun _ t => World A D B g xs t ∧ Still D s t ∧ FilesKeep g s t := by
  have href := h.ref_eq i
  rw [count_cons_self] at href
  rw [fileclose,wp_bind,wp_read]
  refine wp_ite (fun hbad => by omega) fun _ => wp_ite (fun hmore => ?_) fun hlast => ?_
  · exact ⟨h.drop hmore,⟨rfl,rfl,rfl,fun _ _ => .refl _ _⟩,fun j _ => setRef_same s i _ j⟩
  have hone : (s.file i).ref = 1 := by omega
  rw [setFile,wp_bind,wp_modify]
  cases hpg : (s.file i).pipe with
  | some pg => exact h.closeEnd hA hone hpg
  | none =>
    have hkeep : ∀ {f j}, (Vm.dropLast s i j).pipe = some f ↔ (s.file j).pipe = some f :=
      dropLast_of_ne (by simp [hpg])
    refine ⟨h.dropLast hone ?_ fun f w hf => ?_,⟨rfl,rfl,rfl,fun _ _ => .refl _ _⟩,
      h.filesKeep hone⟩
    · simp only [hkeep]
      exact h.sep
    · simp only [hkeep] at hf ⊢
      exact h.ends f w hf

omit hA

theorem World.setRam (h : World A D B g xs s) {r : Ram} {D' B' : Set ℕ}
    (hB : ∀ f, PipePage s f → f ∉ B') (hsep : Sep A r.mem D' (B' ∪ {f | PipePage s f})) :
    World A D' B' g xs { s with ram := r } :=
  ⟨hsep,hB,h.ref_eq,h.free,h.inj,h.ends⟩

theorem World.perm {ys : List FSlot} (h : World A D B g xs s) (hp : xs.Perm ys) :
    World A D B g ys s :=
  ⟨h.sep,h.apart,fun i => by rw [h.ref_eq,hp.count_eq],h.free,h.inj,h.ends⟩

theorem World.kalloc (h : World A D B g xs s) : wp E (onMem kalloc) s fun r t =>
    Still D s t ∧ t.file = s.file ∧ (r = none → World A D B g xs t) ∧
      ∀ f, r = some f → f ∉ B ∧ World A D (insert f B) g xs t := by
  rw [wp_onMem]
  refine (wp_kalloc h.sep).mono ?_
  rintro r m ⟨htab,hnone,hsome⟩
  refine ⟨⟨rfl,rfl,rfl,fun d _ => keep_of_tab_eq htab d⟩,rfl,fun hr => ?_,fun f hr => ?_⟩
  · exact h.setRam h.apart (hnone hr)
  · obtain ⟨hf,hsep⟩ := hsome f hr
    refine ⟨fun hB => hf (.inl hB),h.setRam (fun f' hf' => ?_) ?_⟩
    · rintro (rfl | hB)
      · exact hf (.inr hf')
      · exact h.apart f' hf' hB
    · rwa [insert_union]

theorem World.kfree (hA : ∀ f ∈ A, L.kend ≤ f ∧ f < L.phystop) {k : ℕ}
    (h : World A D (insert k B) g xs s) (hk : k ∉ B) : wp E (onMem (kfree L k)) s fun _ t =>
      Still D s t ∧ t.file = s.file ∧ World A D B g xs t := by
  rw [wp_onMem]
  refine (wp_kfree hA h.sep (.inl (mem_insert _ _))).mono ?_
  rintro - m ⟨hsep,-,hkeep⟩
  refine ⟨⟨rfl,rfl,rfl,hkeep⟩,rfl,h.setRam (fun f hf hB => h.apart f hf (.inr hB)) ?_⟩
  convert hsep using 1
  ext f
  simp only [mem_union,Set.mem_insert_iff,mem_sdiff,mem_singleton_iff,mem_ofPred_eq]
  have hpipe : PipePage s f → f ≠ k := fun hf e => h.apart f hf (.inl e)
  have hbase : f ∈ B → f ≠ k := fun hf e => hk (e ▸ hf)
  tauto

theorem wp_filealloc (h : World A D B g xs s) : wp E filealloc s fun r t =>
    Still D s t ∧ (∀ j, (t.file j).pipe = (s.file j).pipe ∧
      (t.file j).writable = (s.file j).writable) ∧ (r = none → World A D B g xs t) ∧
      ∀ i, r = some i → World A D B g (i :: xs) t ∧ (s.file i).ref = 0 := by
  rw [filealloc,wp_bind,wp_read]
  cases hfind : (List.finRange NFILE).find? fun i => (s.file i).ref = 0 with
  | none => exact ⟨.refl D s,fun _ => ⟨rfl,rfl⟩,fun _ => h,by simp⟩
  | some i =>
    have hi : (s.file i).ref = 0 := by simpa using find?_some hfind
    simp only [wp_bind,wp_modify,wp_pure]
    refine ⟨⟨rfl,rfl,rfl,fun _ _ => .refl _ _⟩,setRef_same s i 1,by simp,fun i' hi' => ?_⟩
    cases hi'
    refine ⟨h.setRef one_ne_zero fun j => ?_,hi⟩
    have href := h.ref_eq j
    by_cases hj : j = i
    · subst hj
      rw [count_cons_self,if_pos rfl]
      omega
    · rw [count_cons_of_ne (Ne.symm hj),if_neg hj,href]

theorem World.dup {x : PSlot × Fin NOFILE} (h : World A D B g xs s) (hx : g x = none) (i : FSlot) :
    World A D B (update g x (some i)) xs { s with
      file := update s.file i { s.file i with ref := (s.file i).ref + 1 } } := by
  refine h.setRef (Nat.succ_ne_zero _) fun j => ?_
  have href := h.ref_eq j
  rw [tally_fill hx]
  by_cases hj : j = i
  · subst hj
    simp only [if_true]
    omega
  · simp only [if_neg hj,if_neg (Ne.symm hj)]
    omega

/-- The file table with the two ends of a new pipe. -/
def newPipe (s : Sys) (f0 f1 : FSlot) (pg : ℕ) : FSlot → File :=
  update
    (update s.file f0 { s.file f0 with pipe := some pg, writable := false })
    f1 { s.file f1 with pipe := some pg, writable := true }

theorem World.addPipe {pg : ℕ} {f0 f1 : FSlot} (h : World A D (insert pg B) g xs s) (hpg : pg ∉ B)
    (hne : f0 ≠ f1) (h0 : (s.file f0).pipe = none) (h1 : (s.file f1).pipe = none)
    (hr0 : (s.file f0).ref ≠ 0) (hr1 : (s.file f1).ref ≠ 0) :
    World A D B g xs { s with
      ends := update s.ends pg ⟨true, true⟩, file := newPipe s f0 f1 pg } := by
  have hnot : ¬PipePage s pg := fun hp => h.apart pg hp (mem_insert _ _)
  have hf0 : newPipe s f0 f1 pg f0 = { s.file f0 with pipe := some pg, writable := false } := by
    rw [newPipe,update_of_ne hne,update_self]
  have hf1 : newPipe s f0 f1 pg f1 = { s.file f1 with pipe := some pg, writable := true } := by
    rw [newPipe,update_self]
  have hf : ∀ j, j ≠ f0 → j ≠ f1 → newPipe s f0 f1 pg j = s.file j := fun j hj0 hj1 => by
    rw [newPipe,update_of_ne hj1,update_of_ne hj0]
  have hold : ∀ {j f}, f ≠ pg → ((newPipe s f0 f1 pg j).pipe = some f ↔ (s.file j).pipe = some f) := by
    intro j f hfp
    by_cases hj0 : j = f0
    · rw [hj0,hf0,h0]
      simp [hfp.symm]
    · by_cases hj1 : j = f1
      · rw [hj1,hf1,h1]
        simp [hfp.symm]
      · rw [hf j hj0 hj1]
  have hnew : ∀ {j}, (newPipe s f0 f1 pg j).pipe = some pg ↔ j = f0 ∨ j = f1 := by
    intro j
    by_cases hj0 : j = f0
    · simp [hj0,hf0]
    · by_cases hj1 : j = f1
      · simp [hj1,hf1]
      · rw [hf j hj0 hj1]
        simp only [hj0,hj1,or_self,iff_false]
        exact fun hp => hnot ⟨j,hp⟩
  have hpages : ∀ f, (∃ j, (newPipe s f0 f1 pg j).pipe = some f) ↔ f = pg ∨ PipePage s f := by
    intro f
    by_cases hfp : f = pg
    · subst hfp
      exact iff_of_true ⟨f0,hnew.mpr (.inl rfl)⟩ (.inl rfl)
    · simp only [hold hfp,hfp,false_or,PipePage]
  have hold_w : ∀ {j f}, f ≠ pg → (s.file j).pipe = some f →
      (newPipe s f0 f1 pg j).writable = (s.file j).writable := by
    intro j f hfp hj
    rw [hf j (fun e => by rw [e,h0] at hj; cases hj) fun e => by rw [e,h1] at hj; cases hj]
  refine ⟨?_,fun f hp => ?_,fun j => ?_,fun j hj => ?_,fun j k f hj hk hw => ?_,fun f w hp => ?_⟩
  · convert h.sep using 1
    ext f
    simp only [PipePage,hpages,mem_union,Set.mem_insert_iff,mem_ofPred_eq]
    tauto
  · rcases (hpages f).mp hp with rfl | hp
    · exact hpg
    · exact fun hB => h.apart f hp (.inr hB)
  · rw [← h.ref_eq j]
    by_cases hj0 : j = f0
    · simp only [hj0,hf0]
    · by_cases hj1 : j = f1
      · simp only [hj1,hf1]
      · simp only [hf j hj0 hj1]
  · by_cases hj0 : j = f0
    · simp only [hj0,hf0] at hj
      exact absurd hj hr0
    · by_cases hj1 : j = f1
      · simp only [hj1,hf1] at hj
        exact absurd hj hr1
      · simp only [hf j hj0 hj1] at hj ⊢
        exact h.free j hj
  · by_cases hfp : f = pg
    · subst hfp
      simp only at hj hk hw
      rcases hnew.mp hj with rfl | rfl <;> rcases hnew.mp hk with rfl | rfl
      · rfl
      · rw [hf0,hf1] at hw
        cases hw
      · rw [hf0,hf1] at hw
        cases hw
      · rfl
    · simp only at hj hk hw
      rw [hold hfp] at hj hk
      rw [hold_w hfp hj,hold_w hfp hk] at hw
      exact h.inj j k f hj hk hw
  · by_cases hfp : f = pg
    · subst hfp
      simp only [update_self]
      refine iff_of_true (by cases w <;> rfl) ?_
      cases w with
      | false => exact ⟨f0,by rw [hf0],by rw [hf0]⟩
      | true => exact ⟨f1,by rw [hf1],by rw [hf1]⟩
    · have hp' := ((hpages f).mp hp).resolve_left hfp
      simp only [update_of_ne hfp]
      rw [h.ends f w hp']
      refine exists_congr fun j => ?_
      rw [hold hfp]
      refine and_congr_right fun hj => ?_
      rw [hold_w hfp hj]

include hA

theorem wp_pipealloc (h : World A D B g xs s) : wp E (pipealloc L) s fun r t =>
    Still D s t ∧ FilesKeep g s t ∧ (r = none → World A D B g xs t) ∧
      ∀ f0 f1, r = some (f0, f1) → World A D B g (f0 :: f1 :: xs) t := by
  rw [pipealloc]
  refine (wp_filealloc h).bind ?_
  rintro (_ | f0) s₁ ⟨hst1,hsame1,hnone1,hsome1⟩
  · exact ⟨hst1,fun j _ => hsame1 j,fun _ => hnone1 rfl,by simp⟩
  obtain ⟨h₁,href0⟩ := hsome1 f0 rfl
  refine (wp_filealloc h₁).bind ?_
  rintro (_ | f1) s₂ ⟨hst2,hsame2,hnone2,hsome2⟩
  · refine (wp_fileclose hA (hnone2 rfl)).bind ?_
    rintro - s3 ⟨h3,hst3,hk3⟩
    refine ⟨(hst1.trans hst2).trans hst3,?_,fun _ => h3,by simp⟩
    exact FilesKeep.trans (fun j _ => hsame1 j) (.trans (fun j _ => hsame2 j) hk3)
  obtain ⟨h2,href1⟩ := hsome2 f1 rfl
  have hpos0 : (s₁.file f0).ref ≠ 0 := by
    rw [h₁.ref_eq,count_cons_self]
    omega
  have hne : f0 ≠ f1 := by
    rintro rfl
    exact hpos0 href1
  refine h2.kalloc.bind ?_
  rintro (_ | pg) s3 ⟨hst3,hfile3,hnone3,hsome3⟩
  · refine (wp_fileclose hA ((hnone3 rfl).perm (.swap f0 f1 xs))).bind ?_
    rintro - s4 ⟨h4,hst4,hk4⟩
    refine (wp_fileclose hA h4).bind ?_
    rintro - s5 ⟨h5,hst5,hk5⟩
    refine ⟨(((hst1.trans hst2).trans hst3).trans hst4).trans hst5,?_,fun _ => h5,by simp⟩
    refine FilesKeep.trans (fun j _ => hsame1 j) (.trans (fun j _ => hsame2 j) (.trans ?_
      (.trans hk4 hk5)))
    exact fun j _ => by rw [hfile3]; exact ⟨rfl,rfl⟩
  obtain ⟨hpgB,h3⟩ := hsome3 pg rfl
  have hp0 : (s3.file f0).pipe = none := by
    rw [hfile3,(hsame2 f0).1,(hsame1 f0).1]
    exact h.free f0 href0
  have hp1 : (s3.file f1).pipe = none := by
    rw [hfile3,(hsame2 f1).1]
    exact h₁.free f1 href1
  have hr0 : (s3.file f0).ref ≠ 0 := by
    rw [h3.ref_eq,count_cons_of_ne hne.symm,count_cons_self]
    omega
  have hr1 : (s3.file f1).ref ≠ 0 := by
    rw [h3.ref_eq,count_cons_self]
    omega
  have hw := (h3.addPipe hpgB hne hp0 hp1 hr0 hr1).perm (.swap f0 f1 xs)
  simp only [wp_bind,wp_modify,wp_pure,update_of_ne hne.symm]
  refine ⟨(hst1.trans hst2).trans ⟨hst3.proc,hst3.kpgdir,hst3.kept,hst3.keep⟩,
    fun j hj => ?_,by simp,fun f0' f1' hr => ?_⟩
  · have hj0 : j ≠ f0 := by
      rintro rfl
      have := h.ref_eq j
      omega
    have hj1 : j ≠ f1 := by
      rintro rfl
      have := h₁.ref_eq j
      omega
    simp only [update_of_ne hj0,update_of_ne hj1,hfile3]
    exact ⟨(hsame2 j).1.trans (hsame1 j).1,(hsame2 j).2.trans (hsame1 j).2⟩
  · cases hr
    exact hw

end Files

end Xv6Container.Vm
