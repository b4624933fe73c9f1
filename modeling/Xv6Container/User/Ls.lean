import Xv6Container.Fs.Dir

/-!
# ls

The tests for the host and for the caller's container are made one after the other, so an entry
that passes both gets two lines. What `open`, `read`, `fstat` and `stat` return is given.
-/

namespace Xv6Container.Ls

open Fs List

/-- What `ls` looks at in `struct stat`. -/
structure Stat where
  type : FType
  ino : ℕ
  size : ℕ
  cid : ℤ

/-- `struct dirent`, and what `stat` says about the file; `none` if it fails. -/
structure Entry where
  inum : ℕ
  name : Name
  st : Option Stat

/-- A line of `"%s %d %d %d\n"`. -/
structure Line where
  name : List UInt8
  type : FType
  ino : ℕ
  size : ℕ

/-- What `ls` prints: a line for a file, or a message. -/
inductive Out
  | line (l : Line)
  | cannotOpen (path : List UInt8)
  | cannotStat (path : List UInt8)
  | pathTooLong

/-- The bytes of `'$'`, `'/'` and `' '`. -/
def blank : UInt8 := 32

/-- `removelast`: the bytes before the first `'$'` go into a block of 100 bytes, without a NUL;
`mem` is what the memory holds from that block on. -/
def removelast (mem s : List UInt8) : Except Stop (List UInt8) :=
  let copied := s.takeWhile (· ≠ dollar)
  if copied.length ≤ 100 then
    .ok (copied ++ (mem.drop copied.length).takeWhile (· ≠ 0))
  else .error .wild

/-- `fmtname`: what is behind the last slash, padded with blanks. -/
def fmtname (path : List UInt8) : List UInt8 :=
  let p := (path.reverse.takeWhile (· ≠ slash)).reverse
  p ++ List.replicate (DIRSIZ - p.length) blank

/-- `printf(1, "%s %d %d %d\n", fmtname(s), st.type, st.ino, st.size)`. -/
def printLine (s : List UInt8) (st : Stat) : Out := .line ⟨fmtname s, st.type, st.ino, st.size⟩

/-- The two tests for the file at `buf`; `cid` is the caller's. -/
def printEntry (cid : ℤ) (mem buf : List UInt8) (st : Stat) : Except Stop (List Out) := do
  let host := if st.cid = 0 ∨ st.cid = -1 then [printLine buf st] else []
  if st.cid = cid then do
    let s ← removelast mem buf
    pure (host ++ [printLine s st])
  else pure host

/-- The loop over a directory; `mem n` is what `malloc` finds for the `n`-th entry. -/
def lsLoop (cid : ℤ) (path : List UInt8) (mem : ℕ → List UInt8) :
    ℕ → List Entry → Except Stop (List Out)
  | _, [] => pure []
  | n, de :: rest =>
    if de.inum = 0 then lsLoop cid path mem (n + 1) rest
    else do
      let buf := path ++ slash :: de.name.bytes
      let out ← match de.st with
        | none => pure [.cannotStat buf]
        | some st => printEntry cid (mem n) buf st
      let more ← lsLoop cid path mem (n + 1) rest
      pure (out ++ more)

/-- What is at the path that `ls` gets. -/
inductive Target
  | missing
  | noStat
  | file (st : Stat)
  | dir (entries : List Entry)
  | dev

def ls (cid : ℤ) (path : List UInt8) (mem : ℕ → List UInt8) : Target → Except Stop (List Out)
  | .missing => pure [.cannotOpen path]
  | .noStat => pure [.cannotStat path]
  | .file st => printEntry cid (mem 0) path st
  | .dir entries =>
    if path.length + 1 + DIRSIZ + 1 > 512 then pure [.pathTooLong]
    else lsLoop cid path mem 0 entries
  | .dev => pure []

/-- A file of the host, or of the caller's container. -/
def Visible (cid : ℤ) (st : Stat) : Prop := st.cid = -1 ∨ st.cid = 0 ∨ st.cid = cid

instance (cid : ℤ) (st : Stat) : Decidable (Visible cid st) :=
  inferInstanceAs (Decidable (_ ∨ _ ∨ _))

/-- The files that `ls` is asked about, each with the path that it is found under. -/
def found (path : List UInt8) : Target → List (List UInt8 × Stat)
  | .file st => [(path, st)]
  | .dir entries => entries.filterMap fun de =>
      if de.inum = 0 then none else de.st.map fun st => (path ++ slash :: de.name.bytes, st)
  | _ => []

/-- The line is about the file. -/
def IsLineOf (o : Out) (st : Stat) : Prop := ∃ name, o = .line ⟨name, st.type, st.ino, st.size⟩

/-- One line for each visible file, in order, and nothing else. -/
def ListsOnce (cid : ℤ) (files : List (List UInt8 × Stat)) (out : Except Stop (List Out)) : Prop :=
  ∃ lines, out = .ok lines ∧
    List.Forall₂ (fun o x => IsLineOf o x.2) lines (files.filter fun x => Visible cid x.2)

/-- The file is a host's and the caller's at once. -/
def Twice (cid : ℤ) (st : Stat) : Prop := (st.cid = 0 ∨ st.cid = -1) ∧ st.cid = cid

/-- No file passes both tests, and the names that `removelast` copies fit. -/
def OneTest (cid : ℤ) (files : List (List UInt8 × Stat)) : Prop :=
  ∀ x ∈ files, ¬ Twice cid x.2 ∧
    (x.2.cid = cid → (x.1.takeWhile (· ≠ dollar)).length ≤ 100)

/-- There is room for the names of a directory behind its path. -/
def Fits (path : List UInt8) : Target → Prop
  | .dir _ => path.length + 1 + DIRSIZ + 1 ≤ 512
  | _ => True

/-- `ls` is asked about a file or a directory, and `stat` does not fail. -/
def Listable : Target → Prop
  | .file _ => True
  | .dir entries => ∀ de ∈ entries, de.inum ≠ 0 → de.st.isSome = true
  | _ => False

variable {cid : ℤ} {files : List (List UInt8 × Stat)} {x : List UInt8 × Stat}

theorem isLineOf_printLine (s : List UInt8) (st : Stat) : IsLineOf (printLine s st) st :=
  ⟨fmtname s,rfl⟩

theorem filter_visible_cons (x : List UInt8 × Stat) (files : List (List UInt8 × Stat)) :
    ((x :: files).filter fun y => Visible cid y.2) =
      ([x].filter fun y => Visible cid y.2) ++ files.filter fun y => Visible cid y.2 := by
  rw [← filter_append]
  rfl

theorem visible_of_own {st : Stat} (h : st.cid = cid) : Visible cid st := .inr (.inr h)

theorem visible_of_host {st : Stat} (h : st.cid = 0 ∨ st.cid = -1) : Visible cid st := by
  rcases h with h | h
  · exact .inr (.inl h)
  · exact .inl h

theorem filter_visible_singleton (h : Visible cid x.2) :
    ([x].filter fun y => Visible cid y.2) = [x] := by
  simp [h]

theorem filter_not_visible_singleton (h : ¬ Visible cid x.2) :
    ([x].filter fun y => Visible cid y.2) = [] := by
  simp [h]

theorem printEntry_cases (cid : ℤ) (mem buf : List UInt8) (st : Stat) :
    (st.cid = cid ∧ 100 < (buf.takeWhile (· ≠ dollar)).length ∧
      printEntry cid mem buf st = .error .wild) ∨
    (Twice cid st ∧ (buf.takeWhile (· ≠ dollar)).length ≤ 100 ∧
      ∃ s, printEntry cid mem buf st = .ok [printLine buf st, printLine s st]) ∨
    (¬ Twice cid st ∧ (st.cid = cid → (buf.takeWhile (· ≠ dollar)).length ≤ 100) ∧
      Visible cid st ∧ ∃ s, printEntry cid mem buf st = .ok [printLine s st]) ∨
    (¬ Visible cid st ∧ printEntry cid mem buf st = .ok []) := by
  by_cases hown : st.cid = cid
  · by_cases hfits : (buf.takeWhile (· ≠ dollar)).length ≤ 100
    · obtain ⟨s,hrem⟩ : ∃ s, removelast mem buf = .ok s := ⟨_,if_pos hfits⟩
      by_cases hhost : st.cid = 0 ∨ st.cid = -1
      · refine .inr (.inl ⟨⟨hhost,hown⟩,hfits,s,?_⟩)
        rw [printEntry,if_pos hhost,if_pos hown,hrem]
        rfl
      · refine .inr (.inr (.inl ⟨fun h => hhost h.1,fun _ => hfits,visible_of_own hown,s,?_⟩))
        rw [printEntry,if_neg hhost,if_pos hown,hrem]
        rfl
    · refine .inl ⟨hown,by omega,?_⟩
      have hrem : removelast mem buf = .error .wild := if_neg hfits
      rw [printEntry,if_pos hown,hrem]
      rfl
  · by_cases hhost : st.cid = 0 ∨ st.cid = -1
    · refine .inr (.inr (.inl ⟨fun h => hown h.2,fun h => absurd h hown,
        visible_of_host hhost,buf,?_⟩))
      rw [printEntry,if_pos hhost,if_neg hown]
      rfl
    · refine .inr (.inr (.inr ⟨?_,?_⟩))
      · rintro (h | h | h)
        · exact hhost (.inr h)
        · exact hhost (.inl h)
        · exact hown h
      · rw [printEntry,if_neg hhost,if_neg hown]
        rfl

theorem length_printEntry {mem : List UInt8} {out : List Out}
    (h : printEntry cid mem x.1 x.2 = .ok out) :
    ([x].filter fun y => Visible cid y.2).length ≤ out.length := by
  rcases printEntry_cases cid mem x.1 x.2 with
    ⟨-,-,he⟩ | ⟨-,-,s,he⟩ | ⟨-,-,-,s,he⟩ | ⟨hvis,he⟩
  · rw [he] at h
    cases h
  · rw [he] at h
    cases h
    exact (length_filter_le _ _).trans (by simp)
  · rw [he] at h
    cases h
    exact length_filter_le _ _
  · rw [filter_not_visible_singleton hvis]
    exact Nat.zero_le _

theorem listsOnce_printEntry (mem : List UInt8) :
    ListsOnce cid [x] (printEntry cid mem x.1 x.2) ↔
      ¬ Twice cid x.2 ∧ (x.2.cid = cid → (x.1.takeWhile (· ≠ dollar)).length ≤ 100) := by
  rcases printEntry_cases cid mem x.1 x.2 with
    ⟨hown,hlong,he⟩ | ⟨htwice,-,s,he⟩ | ⟨hno,hfits,hvis,s,he⟩ | ⟨hvis,he⟩
  · refine iff_of_false ?_ fun h => absurd (h.2 hown) (by omega)
    rintro ⟨lines,hout,-⟩
    rw [he] at hout
    cases hout
  · refine iff_of_false ?_ fun h => h.1 htwice
    rintro ⟨lines,hout,hlines⟩
    rw [he] at hout
    cases hout
    rw [filter_visible_singleton (visible_of_own htwice.2)] at hlines
    exact absurd hlines.length_eq (by simp)
  · refine iff_of_true ⟨_,he,?_⟩ ⟨hno,hfits⟩
    rw [filter_visible_singleton hvis]
    exact .cons (isLineOf_printLine s x.2) .nil
  · refine iff_of_true ⟨[],he,?_⟩ ⟨fun h => hvis (visible_of_own h.2),fun h => ?_⟩
    · rw [filter_not_visible_singleton hvis]
      exact .nil
    · exact absurd (visible_of_own h) hvis

/-- The lines of some files after those of one file. -/
def printBoth (a b : Except Stop (List Out)) : Except Stop (List Out) := do
  let out ← a
  let more ← b
  pure (out ++ more)

theorem printBoth_ok {a b : Except Stop (List Out)} {lines : List Out}
    (h : printBoth a b = .ok lines) : ∃ out more, a = .ok out ∧ b = .ok more ∧ lines = out ++ more := by
  cases a with
  | error e => cases h
  | ok out =>
    cases b with
    | error e => cases h
    | ok more =>
      cases h
      exact ⟨out,more,rfl,rfl,rfl⟩

theorem listsOnce_printBoth {a b : Except Stop (List Out)}
    (ha : ∀ out, a = .ok out → ([x].filter fun y => Visible cid y.2).length ≤ out.length)
    (hb : ∀ out, b = .ok out → (files.filter fun y => Visible cid y.2).length ≤ out.length) :
    ListsOnce cid (x :: files) (printBoth a b) ↔ ListsOnce cid [x] a ∧ ListsOnce cid files b := by
  constructor
  · rintro ⟨lines,hout,hlines⟩
    obtain ⟨out,more,rfl,rfl,rfl⟩ := printBoth_ok hout
    rw [filter_visible_cons] at hlines
    have hlen := hlines.length_eq
    rw [length_append,length_append] at hlen
    have hle := ha out rfl
    have hle' := hb more rfl
    have hone : out.length = ([x].filter fun y => Visible cid y.2).length := by omega
    have htake := forall₂_take out.length hlines
    have hdrop := forall₂_drop out.length hlines
    rw [take_left,take_left' hone.symm] at htake
    rw [drop_left,drop_left' hone.symm] at hdrop
    exact ⟨⟨out,rfl,htake⟩,⟨more,rfl,hdrop⟩⟩
  · rintro ⟨⟨out,rfl,hout⟩,⟨more,rfl,hmore⟩⟩
    refine ⟨out ++ more,rfl,?_⟩
    rw [filter_visible_cons]
    exact rel_append hout hmore

section Loop

variable {path : List UInt8} {mem : ℕ → List UInt8} {n : ℕ} {de : Entry} {rest : List Entry}

theorem found_dir_unused (h : de.inum = 0) : found path (.dir (de :: rest)) = found path (.dir rest) := by
  simp [found,h]

theorem found_dir_cons {st : Stat} (h : de.inum ≠ 0) (hst : de.st = some st) :
    found path (.dir (de :: rest)) =
      (path ++ slash :: de.name.bytes, st) :: found path (.dir rest) := by
  simp [found,h,hst]

theorem lsLoop_unused (h : de.inum = 0) :
    lsLoop cid path mem n (de :: rest) = lsLoop cid path mem (n+1) rest := if_pos h

theorem lsLoop_cons {st : Stat} (h : de.inum ≠ 0) (hst : de.st = some st) :
    lsLoop cid path mem n (de :: rest) =
      printBoth (printEntry cid (mem n) (path ++ slash :: de.name.bytes) st)
        (lsLoop cid path mem (n+1) rest) := by
  rw [lsLoop,if_neg h,hst]
  rfl

theorem length_lsLoop {entries : List Entry} {out : List Out} (hstat : Listable (.dir entries))
    (h : lsLoop cid path mem n entries = .ok out) :
    ((found path (.dir entries)).filter fun y => Visible cid y.2).length ≤ out.length := by
  induction entries generalizing n out with
  | nil => exact Nat.zero_le _
  | cons de rest ih =>
    have hrest : Listable (.dir rest) := fun e he => hstat e (mem_cons_of_mem _ he)
    by_cases hin : de.inum = 0
    · rw [lsLoop_unused hin] at h
      rw [found_dir_unused hin]
      exact ih hrest h
    · obtain ⟨st,hst⟩ := Option.isSome_iff_exists.mp (hstat de mem_cons_self hin)
      rw [lsLoop_cons hin hst] at h
      obtain ⟨a,b,ha,hb,rfl⟩ := printBoth_ok h
      rw [found_dir_cons hin hst,filter_visible_cons,length_append,length_append]
      exact Nat.add_le_add (length_printEntry (x := (_, st)) ha) (ih hrest hb)

theorem listsOnce_lsLoop {entries : List Entry} (hstat : Listable (.dir entries)) :
    ListsOnce cid (found path (.dir entries)) (lsLoop cid path mem n entries) ↔
      OneTest cid (found path (.dir entries)) := by
  induction entries generalizing n with
  | nil =>
    refine iff_of_true ⟨[],rfl,.nil⟩ fun x hx => ?_
    cases hx
  | cons de rest ih =>
    have hrest : Listable (.dir rest) := fun e he => hstat e (mem_cons_of_mem _ he)
    by_cases hin : de.inum = 0
    · rw [lsLoop_unused hin,found_dir_unused hin]
      exact ih hrest
    · obtain ⟨st,hst⟩ := Option.isSome_iff_exists.mp (hstat de mem_cons_self hin)
      rw [lsLoop_cons hin hst,found_dir_cons hin hst,
        listsOnce_printBoth (fun out ho => length_printEntry (x := (_, st)) ho)
          fun out ho => length_lsLoop hrest ho,ih hrest,OneTest,OneTest,forall_mem_cons]
      exact and_congr_left' (listsOnce_printEntry (x := (_, st)) (mem n))

end Loop

/-- `ls` prints one line for each visible entry of a directory, or for a file, exactly if the path
leaves room for the names, no visible file is both the host's and the caller's, and the names of the
caller's files fit into the block of `removelast`. -/
theorem ls_lists_once_iff {target : Target} (htarget : Listable target) (cid : ℤ)
    (path : List UInt8) (mem : ℕ → List UInt8) :
    ListsOnce cid (found path target) (ls cid path mem target) ↔
      Fits path target ∧ OneTest cid (found path target) := by
  cases target with
  | missing | noStat | dev => exact htarget.elim
  | file st =>
    have hfits : Fits path (.file st) := trivial
    rw [and_iff_right hfits,OneTest,found,forall_mem_singleton]
    exact listsOnce_printEntry (x := (path, st)) (mem 0)
  | dir entries =>
    by_cases hfits : path.length + 1 + DIRSIZ + 1 ≤ 512
    · have hloop : ls cid path mem (.dir entries) = lsLoop cid path mem 0 entries :=
        if_neg (by omega)
      rw [hloop,listsOnce_lsLoop htarget,Fits,and_iff_right hfits]
    · have hlong : ls cid path mem (.dir entries) = .ok [.pathTooLong] := if_pos (by omega)
      refine iff_of_false ?_ fun h => hfits h.1
      rintro ⟨lines,hout,hlines⟩
      rw [hlong] at hout
      cases hout
      obtain ⟨x,xs,⟨name,hline⟩,-⟩ := List.forall₂_cons_left_iff.mp hlines
      cases hline

def hostFile : Target := .dir [⟨2, Name.dot, some ⟨.file, 2, 10, -1⟩⟩]

theorem listable_hostFile : Listable hostFile := by simp [Listable,hostFile]

theorem ls_lists_once_iff_hostFile :
    ListsOnce 3 (found [46] hostFile) (ls 3 [46] (fun _ => []) hostFile) := by
  refine (ls_lists_once_iff listable_hostFile 3 [46] fun _ => []).mpr ⟨?_,?_⟩
  · show 1 + 1 + DIRSIZ + 1 ≤ 512
    decide
  · simp [OneTest,Twice,found,hostFile]

/-- A caller outside of all containers sees each file of the host twice. -/
theorem ls_lists_twice : ¬ ∀ (target : Target) (cid : ℤ) (path : List UInt8)
    (mem : ℕ → List UInt8), Listable target → Fits path target →
      ListsOnce cid (found path target) (ls cid path mem target) := by
  intro hall
  have hfits : Fits [46] hostFile := by
    show 1 + 1 + DIRSIZ + 1 ≤ 512
    decide
  have hlists := hall hostFile (-1) [46] (fun _ => []) listable_hostFile hfits
  have hone : OneTest (-1) (found [46] hostFile) :=
    (listsOnce_lsLoop (n := 0) listable_hostFile).mp hlists
  simp [OneTest,Twice,found,hostFile] at hone

end Xv6Container.Ls
