import Xv6Container.Kernel.System
import Xv6Container.Lib.Shadow

/-!
# What the file layer leaves alone

Next to that, what `sys_open` keeps of a state around the kernel (`PathOps.Keeping`), and that its
kernel takes no notice of what is around it (`PathOps.Erases`).
-/

namespace Xv6Container.Kernel

open Prog Fs

/-- The property looks at the tables, the registries and the owners of files only. -/
def Steady (P : Kernel → Prop) : Prop :=
  ∀ k k' : Kernel, k'.tables = k.tables → k'.files = k.files → k'.allFiles = k.allFiles →
    (∀ f, (k'.file f).cid = (k.file f).cid) → P k → P k'

namespace Steady

variable {sb : Superblock} {P : Kernel → Prop} {α : Type} {p : PSlot} {f : FSlot} {fd : Fd}

theorem onFs (hP : Steady P) (m : Fs.M α) : Keeps P (Kernel.onFs m) fun _ => True :=
  .zoom (fun k s h => hP k { k with fs := s } rfl rfl rfl (fun _ => rfl) h) m

theorem setFile (hP : Steady P) {g : File → File} (hg : ∀ ff, (g ff).cid = ff.cid) :
    Keeps P (Kernel.setFile f g) fun _ => True := by
  refine .modify fun k h => hP k _ rfl rfl rfl (fun e => ?_) h
  by_cases he : e = f
  · subst he
    simp only [Function.update_self,hg]
  · simp only [Function.update_of_ne he]

theorem setOfile (hP : Steady P) (v : Option FSlot) :
    Keeps P (Kernel.setOfile p fd v) fun _ => True :=
  .modify fun k h => hP k _ rfl rfl rfl (fun _ => rfl) h

theorem setCwd (hP : Steady P) (c : Option ISlot) : Keeps P (Kernel.setCwd p c) fun _ => True :=
  .modify fun k h => hP k _ rfl rfl rfl (fun _ => rfl) h

theorem filealloc (hP : Steady P) : Keeps P Kernel.filealloc fun _ => True := by
  refine Keeps.read.bind fun free _ => ?_
  cases free with
  | none => exact .pure trivial
  | some f => exact (hP.setFile fun _ => by rfl).bind fun _ _ => .pure trivial

theorem filedup (hP : Steady P) : Keeps P (Kernel.filedup f) fun _ => True :=
  Keeps.read.bind fun _ _ => .ite (fun _ => .stop) fun _ => hP.setFile fun _ => by rfl

theorem fileclose (hP : Steady P) : Keeps P (Kernel.fileclose f) fun _ => True := by
  refine Keeps.read.bind fun ff _ => .ite (fun _ => .stop) fun _ =>
    .ite (fun _ => hP.setFile fun _ => by rfl) fun _ => (hP.setFile fun _ => by rfl).bind fun _ _ => ?_
  cases ff.type with
  | none => exact .pure trivial
  | inode => exact hP.onFs _

theorem fileread (hP : Steady P) (n : ℕ) : Keeps P (Kernel.fileread sb f n) fun _ => True := by
  refine Keeps.read.bind fun ff _ => .ite (fun _ => .pure trivial) fun _ => ?_
  cases ff.type with
  | none => exact .stop
  | inode =>
    exact (hP.onFs _).bind fun _ _ => (hP.onFs _).bind fun _ _ => (hP.setFile fun _ => by rfl).bind
      fun _ _ => (hP.onFs _).bind fun _ _ => .pure trivial

theorem filewritePiece (hP : Steady P) (src : List UInt8) :
    Keeps P (Kernel.filewritePiece sb f src) fun _ => True :=
  Keeps.read.bind fun _ _ => (hP.onFs _).bind fun _ _ => (hP.onFs _).bind fun _ _ =>
    (hP.setFile fun _ => by rfl).bind fun _ _ => (hP.onFs _).bind fun _ _ => .pure trivial

theorem filewriteLoop (hP : Steady P) (fuel : ℕ) (src : List UInt8) :
    Keeps P (Kernel.filewriteLoop sb f fuel src) fun _ => True := by
  induction fuel generalizing src with
  | zero => exact .pure trivial
  | succ fuel ih =>
    refine .ite (fun _ => .pure trivial) fun _ => (hP.filewritePiece _).bind fun r _ => ?_
    cases r with
    | none => exact .pure trivial
    | some n => exact .ite (fun _ => ih _) fun _ => .stop

theorem filewrite (hP : Steady P) (src : List UInt8) :
    Keeps P (Kernel.filewrite sb f src) fun _ => True := by
  refine Keeps.read.bind fun ff _ => .ite (fun _ => .pure trivial) fun _ => ?_
  cases ff.type with
  | none => exact .stop
  | inode => exact (hP.filewriteLoop _ _).bind fun _ _ => .pure trivial

theorem fdalloc (hP : Steady P) : Keeps P (Kernel.fdalloc p f) fun _ => True := by
  refine Keeps.read.bind fun free _ => ?_
  cases free with
  | none => exact .pure trivial
  | some fd => exact (hP.setOfile _).bind fun _ _ => .pure trivial

theorem allocFd (hP : Steady P) : Keeps P (Kernel.allocFd p) fun _ => True := by
  refine hP.filealloc.bind fun f _ => ?_
  cases f with
  | none => exact .pure trivial
  | some f =>
    refine hP.fdalloc.bind fun fd _ => ?_
    cases fd with
    | none => exact hP.fileclose.bind fun _ _ => .pure trivial
    | some fd => exact .pure trivial

theorem install (hP : Steady P) (ip : ISlot) (readable writable : Bool) :
    Keeps P (Kernel.install p ip readable writable) fun _ => True := by
  refine hP.allocFd.bind fun slot _ => ?_
  cases slot with
  | none => exact (hP.onFs _).bind fun _ _ => .pure trivial
  | some x =>
    exact (hP.onFs _).bind fun _ _ => (hP.setFile fun _ => by rfl).bind fun _ _ => .pure trivial

theorem openFile (hP : Steady P) (path : Path) (omode : UInt32) :
    Keeps P (Kernel.openFile sb p path omode) fun _ => True := by
  refine Keeps.read.bind fun cwd _ => (hP.onFs _).bind fun ip _ => ?_
  cases ip with
  | none => exact .pure trivial
  | some ip => exact hP.install ip _ _

theorem copyLoop (hP : Steady P) (f2 : FSlot) (fuel : ℕ) :
    Keeps P (Kernel.copyLoop sb f f2 fuel) fun _ => True := by
  induction fuel with
  | zero => exact .stop
  | succ fuel ih =>
    refine (hP.fileread 1).bind fun r _ => ?_
    cases r with
    | none => exact .pure trivial
    | some c =>
      cases c with
      | nil => exact .pure trivial
      | cons b bs => exact (hP.filewrite _).bind fun _ _ => ih

theorem closeFd (hP : Steady P) : Keeps P (Kernel.closeFd p fd f) fun _ => True :=
  (hP.setOfile none).bind fun _ _ => hP.fileclose

end Steady

/-- The property looks at the tables and the registries only. -/
def Calm (P : Kernel → Prop) : Prop :=
  ∀ k k' : Kernel, k'.tables = k.tables → k'.files = k.files → k'.allFiles = k.allFiles →
    P k → P k'

theorem Calm.steady {P : Kernel → Prop} (hP : Calm P) : Steady P :=
  fun k k' ht hf ha _ h => hP k k' ht hf ha h

theorem Calm.setFile {P : Kernel → Prop} (hP : Calm P) (f : FSlot) (g : File → File) :
    Keeps P (Kernel.setFile f g) fun _ => True :=
  .modify fun k h => hP k _ rfl rfl rfl h

/-- The program leaves the tables and the registries alone. -/
def Quiet {α : Type} (m : KM α) : Prop := ∀ P, Calm P → Keeps P m fun _ => True

/-- The operations on strings keep `P`, with registrations for the containers in `reg`, and the
strings they make are `ok`. -/
structure PathOps.Keeping {σ Str : Type} (S : PathOps σ Str) (P : σ → Prop) (ok : Str → Prop)
    (reg : ℤ → Prop) : Prop where
  lift : ∀ {α : Type} {m : KM α}, Quiet m → Keeps P (S.lift m) fun _ => True
  redirect : ∀ p s, Keeps P (S.redirect p s) ok
  dotted : ∀ g, Keeps P (S.dotted g) fun _ => True
  setPath : ∀ f s, ok s → Keeps P (S.setPath f s) fun _ => True
  register : ∀ cid s, reg cid → ok s → Keeps P (S.register cid s) fun _ => True

namespace PathOps.Keeping

variable {sb : Superblock} {σ Str : Type} {S : PathOps σ Str} {P : σ → Prop} {ok : Str → Prop}
  {reg : ℤ → Prop} {p : PSlot} {path : Str} {cid : ℤ} (h : S.Keeping P ok reg)
include h

theorem read {α : Type} (f : Kernel → α) : Keeps P (S.lift (Prog.read f)) fun _ => True :=
  h.lift fun _ _ => .read

theorem setFile (f : FSlot) (g : File → File) : Keeps P (S.lift (Kernel.setFile f g)) fun _ => True :=
  h.lift fun _ hP => hP.setFile f g

theorem openFile (path : Path) (omode : UInt32) :
    Keeps P (S.lift (Kernel.openFile sb p path omode)) fun _ => True :=
  h.lift fun _ hP => hP.steady.openFile path omode

theorem lookupRegistry (cid : ℤ) (hpath : ok path) :
    Keeps P (S.lookupRegistry p cid path) fun r => ok r.1 := by
  refine (h.read _).bind fun slot _ => ?_
  cases slot with
  | none => exact .pure hpath
  | some i =>
    refine (h.redirect p path).bind fun path4 hpath4 => (h.read _).bind fun there _ => .pure ?_
    cases there with
    | false => exact hpath
    | true => exact hpath4

theorem ownerOf (path : Path) (all : List (Path × ℤ)) :
    Keeps P (S.ownerOf path all) fun _ => True := by
  induction all with
  | nil => exact .pure trivial
  | cons x rest ih => exact (h.dotted x.1).bind fun _ _ => .ite (fun _ => .pure trivial) fun _ => ih

theorem reopen {path3 : Str} (hcid : reg cid) (hpath : ok path3) (omode : UInt32) :
    Keeps P (S.reopen sb p path3 omode cid) fun _ => True := by
  refine (h.openFile _ omode).bind fun r _ => ?_
  cases r with
  | none => exact .pure trivial
  | some x =>
    exact (h.setPath x.2 path3 hpath).bind fun _ _ => (h.setFile x.2 _).bind fun _ _ =>
      (h.register cid path3 hcid hpath).bind fun _ _ => .pure trivial

theorem copyTo {path2 : Str} (hcid : reg cid) (hpath : ok path2) (omode : UInt32) (fd : Fd)
    (f : FSlot) :
    Keeps P (S.copyTo sb p path2 omode cid fd f) fun _ => True := by
  refine (h.read _).bind fun cwd _ => (h.lift fun _ hP => hP.steady.onFs _).bind fun ip2 _ => ?_
  cases ip2 with
  | none => exact .pure trivial
  | some ip2 =>
    refine (h.lift fun _ hP => hP.steady.install ip2 _ _).bind fun r _ => ?_
    cases r with
    | none => exact .pure trivial
    | some x =>
      exact (h.setPath x.2 path2 hpath).bind fun _ _ => (h.setFile x.2 _).bind fun _ _ =>
        (h.read _).bind fun fuel _ => (h.lift fun _ hP => hP.steady.copyLoop x.2 fuel).bind fun _ _ =>
        (h.setFile x.2 _).bind fun _ _ => (h.setFile f _).bind fun _ _ =>
        (h.lift fun _ hP => hP.steady.closeFd).bind fun _ _ =>
        (h.lift fun _ hP => hP.steady.closeFd).bind fun _ _ => h.reopen hcid hpath omode

theorem settle {host there : Bool} (hcid : host = false → there = false → reg cid) (omode : UInt32)
    (fd : Fd) (f : FSlot) (owner : ℤ) :
    Keeps P (S.settle sb p path omode cid host there fd f owner) fun _ => True := by
  refine (h.setFile f _).bind fun _ _ => .ite (fun _ => .pure trivial) fun hhost =>
    .ite (fun _ => .pure trivial) fun hthere => ?_
  have hreg := hcid (Bool.eq_false_iff.mpr hhost) (Bool.eq_false_iff.mpr hthere)
  exact .ite
    (fun _ => (h.redirect p path).bind fun path6 hpath6 => (h.register cid path6 hreg hpath6).bind
      fun _ _ => (h.setPath f path6 hpath6).bind fun _ _ => (h.setFile f _).bind fun _ _ =>
      .pure trivial)
    fun _ => (h.redirect p path).bind fun _ hpath2 => h.copyTo hreg hpath2 omode fd f

theorem openRest {host there : Bool} (hcid : host = false → there = false → reg cid)
    (hpath : ok path) (omode : UInt32) (fd : Fd) (f : FSlot) :
    Keeps P (S.openRest sb p path omode cid host there fd f) fun _ => True :=
  (h.setPath f path hpath).bind fun _ _ => (h.read _).bind fun all _ => (h.ownerOf _ all).bind
    fun owner _ => h.settle hcid omode fd f owner

theorem openPath (hpath : ok path) (host : Bool) (omode : UInt32) :
    Keeps P (S.openPath p host path omode) ok :=
  .ite (fun _ => h.redirect p path) fun _ => .pure hpath

/-- `sys_open` after the registry has been searched. -/
theorem afterLookup {found : Str × Bool} (hcid : reg cid) (hpath : ok found.1) (omode : UInt32) :
    Keeps P (do
      let host ← S.lift (Prog.read fun k => cid = -1 || !k.createContainerCalled)
      let first ← S.openPath p host found.1 omode
      let r ← S.lift (Kernel.openFile sb p (S.text first) omode)
      match r with
      | none => pure none
      | some (fd, f) => S.openRest sb p found.1 omode cid host found.2 fd f) fun _ => True := by
  refine (h.read _).bind fun host _ => (h.openPath hpath host omode).bind fun first _ =>
    (h.openFile _ omode).bind fun r _ => ?_
  cases r with
  | none => exact .pure trivial
  | some x => exact h.openRest (fun _ _ => hcid) hpath omode x.1 x.2

theorem sysOpen (hreg : ∀ cid, reg cid) (hpath : ok path) (omode : UInt32) :
    Keeps P (S.sysOpen sb p path omode) fun _ => True :=
  (h.read _).bind fun cid _ => (h.lookupRegistry cid hpath).bind fun _ hfound =>
    h.afterLookup (hreg cid) hfound omode

end PathOps.Keeping

section Erasing

variable {sb : Superblock} {σ Str : Type} {get : σ → Kernel} {S : PathOps σ Str} {p : PSlot}
  {path : Str} {omode : UInt32} {cid : ℤ} {fd : Fd} {f : FSlot}

/-- Around the kernel, paths are made as in the kernel. -/
structure PathOps.Traces (S : PathOps σ Str) (get : σ → Kernel) : Prop where
  lift : ∀ {α : Type} (m : KM α), Follows get id (S.lift m) m
  redirect : ∀ p path, Follows get S.text (S.redirect p path) (Kernel.redirect p (S.text path))

namespace PathOps.Traces

variable (h : S.Traces get)
include h

theorem lookupRegistry : Follows get (fun r => (S.text r.1, r.2)) (S.lookupRegistry p cid path)
    (plain.lookupRegistry p cid (S.text path)) := by
  refine (h.lift _).bind fun slot => ?_
  cases slot with
  | none => exact .pure
  | some i =>
    refine (h.redirect p path).bind fun path4 => (h.lift _).bind fun there => ?_
    cases there with
    | false => exact .pure
    | true => exact .pure

theorem openPath (host : Bool) : Follows get S.text (S.openPath p host path omode)
    (plain.openPath p host (S.text path) omode) :=
  .ite (h.redirect p path) .pure

end PathOps.Traces

/-- Without what is around the kernel the operations are those of the kernel. -/
structure PathOps.Erases (S : PathOps σ Str) (get : σ → Kernel) : Prop extends
    S.Traces get where
  dotted : ∀ g, Follows get id (S.dotted g) (strcat dotSlash g)
  setPath : ∀ f path, Follows get id (S.setPath f path) (pure ())
  register : ∀ cid path, Follows get id (S.register cid path) (Kernel.register cid (S.text path))

namespace PathOps.Erases

variable (h : S.Erases get)
include h

theorem ownerOf (path : Path) (all : List (Path × ℤ)) :
    Follows get id (S.ownerOf path all) (plain.ownerOf path all) := by
  induction all with
  | nil => exact .pure
  | cons x rest ih => exact (h.dotted x.1).bind fun _ => .ite .pure ih

theorem reopen : Follows get id (S.reopen sb p path omode cid)
    (plain.reopen sb p (S.text path) omode cid) := by
  refine (h.lift _).bind fun r => ?_
  cases r with
  | none => exact .pure
  | some x =>
    exact (h.setPath x.2 path).bind fun _ => (h.lift _).bind fun _ => (h.register cid path).bind
      fun _ => .pure

theorem copyTo : Follows get id (S.copyTo sb p path omode cid fd f)
    (plain.copyTo sb p (S.text path) omode cid fd f) := by
  refine (h.lift _).bind fun cwd => (h.lift _).bind fun ip2 => ?_
  cases ip2 with
  | none => exact .pure
  | some ip2 =>
    refine (h.lift _).bind fun r => ?_
    cases r with
    | none => exact .pure
    | some x =>
      exact (h.setPath x.2 path).bind fun _ => (h.lift _).bind fun _ => (h.lift _).bind fun _ =>
        (h.lift _).bind fun _ => (h.lift _).bind fun _ => (h.lift _).bind fun _ => (h.lift _).bind fun _ =>
        (h.lift _).bind fun _ => h.reopen

theorem openRest (host registered : Bool) :
    Follows get id (S.openRest sb p path omode cid host registered fd f)
      (plain.openRest sb p (S.text path) omode cid host registered fd f) :=
  (h.setPath f path).bind fun _ => (h.lift _).bind fun all => (h.ownerOf _ all).bind fun _ =>
    (h.lift _).bind fun _ => .ite .pure <| .ite .pure <| .ite
      ((h.redirect p path).bind fun path6 => (h.register cid path6).bind fun _ =>
        (h.setPath f path6).bind fun _ => (h.lift _).bind fun _ => .pure)
      ((h.redirect p path).bind fun _ => h.copyTo)

theorem sysOpen : Follows get id (S.sysOpen sb p path omode)
    (Kernel.sysOpen sb p (S.text path) omode) := by
  refine (h.lift _).bind fun cid => h.lookupRegistry.bind fun found => (h.lift _).bind fun host => ?_
  refine (h.openPath host).bind fun first => (h.lift _).bind fun r => ?_
  cases r with
  | none => exact .pure
  | some x => exact h.openRest host found.2

end PathOps.Erases

end Erasing

theorem keeps_strcat {P : Kernel → Prop} (s1 s2 : Path) : Keeps P (strcat s1 s2) fun _ => True :=
  .ite (fun _ => .pure trivial) fun _ => .stop

theorem keeps_redirect {P : Kernel → Prop} {p : PSlot} (path : Path) :
    Keeps P (redirect p path) fun _ => True :=
  Keeps.read.bind fun sind _ => keeps_strcat path sind

/-- A property of the tables and the registries is kept by `sys_open` if the registration keeps
it. -/
theorem Calm.plain {P : Kernel → Prop} (hP : Calm P)
    (hreg : ∀ cid path, Keeps P (register cid path) fun _ => True) :
    plain.Keeping P (fun _ => True) fun _ => True where
  lift hm := hm P hP
  redirect _ path := keeps_redirect path
  dotted g := keeps_strcat dotSlash g
  setPath _ _ _ := .pure trivial
  register cid path _ _ := hreg cid path

end Xv6Container.Kernel
