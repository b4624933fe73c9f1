import Xv6Container.Elf
import Xv6Container.Vm.Growth

/-!
# exec of a file

`exec` on a regular file with any bytes: the headers are decoded from the file, every
read goes through `readi`, and what is committed is compared with the bytes of the file.
-/

namespace Xv6Container.Vm

open Function Prog List

/-- The content of a regular file; its size is a `uint`. -/
structure RegFile where
  bytes : List UInt8
  size_lt : bytes.length < 2 ^ 32

namespace RegFile

/-- `readi` into a buffer: what it stores there, or -1. -/
def readi (f : RegFile) (off n : ℕ) : Option (List UInt8) :=
  if f.bytes.length < off ∨ 2 ^ 32 ≤ off + n then none else some ((f.bytes.drop off).take n)

/-- `readi(ip, dst, off, n) == n`, and what has been read. -/
def readExact (f : RegFile) (off n : ℕ) : Option (List UInt8) :=
  match f.readi off n with
  | some bytes => if bytes.length = n then some bytes else none
  | none => none

/-- The header, if it is one. -/
def elfhdr (f : RegFile) : Option Elfhdr :=
  match f.readExact 0 elfhdrSize with
  | some bytes => if (Elfhdr.decode bytes).magic = ELF_MAGIC then some (Elfhdr.decode bytes) else none
  | none => none

/-- `n` program headers from `off` on, up to the first that cannot be read. -/
def proghdrs (f : RegFile) : (n off : ℕ) → List (Option Proghdr)
  | 0, _ => []
  | n + 1, off =>
    match f.readExact off proghdrSize with
    | some bytes => some (Proghdr.decode bytes) :: f.proghdrs n ((off + proghdrSize) % 2 ^ 32)
    | none => [none]

/-- The number of bytes that `loaduvm` reads for page `k` of a segment. -/
def pageBytes (ph : Proghdr) (k : ℕ) : ℕ := min PGSIZE (ph.filesz - k * PGSIZE)

/-- What `readi` stores in page `k` of a segment. -/
def page (f : RegFile) (ph : Proghdr) (k : ℕ) : List UInt8 :=
  (f.readi ((ph.off + k * PGSIZE) % 2 ^ 32) (pageBytes ph k)).getD []

theorem length_page_le (f : RegFile) (ph : Proghdr) (k : ℕ) :
    (f.page ph k).length ≤ pageBytes ph k := by
  rw [page,readi]
  split
  · exact Nat.zero_le _
  · exact length_take_le _ _

def segment (f : RegFile) (ph : Proghdr) : Seg where
  load := ph.type = ELF_PROG_LOAD
  vaddr := .ofNat ph.vaddr
  filesz := .ofNat ph.filesz
  memsz := .ofNat ph.memsz
  stored := fun k => (f.page ph k).length = pageBytes ph k
  chunk := f.page ph
  fits := fun k => (f.length_page_le ph k).trans (Nat.min_le_left _ _)

def phdrs (f : RegFile) : List (Option Proghdr) :=
  match f.elfhdr with
  | some elf => f.proghdrs elf.phnum elf.phoff
  | none => []

def segments (f : RegFile) : List (Option Seg) := f.phdrs.map (Option.map f.segment)

/-- The size of the image that `exec` makes of the file, with its two pages of stack. -/
def imageSz (f : RegFile) : ℕ := imagePages f.segments * PGSIZE

/-- `exec` of the file succeeds: it is a program that can be loaded, the arguments fit the stack
page, and there are pages for all of it. -/
structure Launches (L : Layout) (f : RegFile) (argv : List (List UInt8)) (m : Mem) : Prop where
  header : f.elfhdr.isSome = true
  fits : Executable f.segments argv
  pages : m.Grants (spacePages L (imagePages f.segments))

/-- The file has bytes for address `va` in this segment. -/
def Covers (ph : Proghdr) (va : ℕ) : Prop :=
  ph.type = ELF_PROG_LOAD ∧ ph.vaddr ≤ va ∧ va < ph.vaddr + ph.filesz

instance (ph : Proghdr) (va : ℕ) : Decidable (Covers ph va) :=
  inferInstanceAs (Decidable (_ ∧ _))

/-- The byte for address `va` if the segments before have `b`. -/
def laid (f : RegFile) (va : ℕ) (b : UInt8) : Option Proghdr → UInt8
  | some ph => if Covers ph va then f.bytes.getD (ph.off + (va - ph.vaddr)) 0 else b
  | none => b

/-- The byte that the last segment with bytes for `va` has, zero if there is none. -/
def supplied (f : RegFile) (va : ℕ) : UInt8 := f.phdrs.foldl (f.laid va) 0

end RegFile

/-- The process that calls `exec`, and what the call may change beside it: memory and the reference
counts of inodes. -/
structure Task where
  ram : Ram
  pgdir : ℕ
  sz : ℕ
  name : List UInt8
  eip : ℕ
  esp : ℕ
  ref : ℕ → ℕ

abbrev X := Prog Task Stop

def Task.onRam {α : Type} (x : B α) : X α := zoom Task.ram (fun t r => { t with ram := r }) x

/-- What follows the last slash, as far as `safestrcpy` copies it to `curproc->name`. -/
def progName (path : List UInt8) : List UInt8 :=
  ((path.reverse.takeWhile (· ≠ 47)).reverse).take 15

variable (L : Layout) (namei : List UInt8 → Option ℕ) (file : ℕ → RegFile)

/-- `exec`, where `namei` finds the inode of a path. -/
def Task.exec (path : List UInt8) (argv : List (List UInt8)) : X Int32 := do
  match namei path with
  | none => pure (-1)
  | some ip => do
    modify fun t => { t with ref := update t.ref ip (t.ref ip + 1) }
    let f := file ip
    let image ← onRam (execImage L f.elfhdr.isSome f.segments argv)
    -- before the stack is built or after `bad`; nothing in between looks at the inode
    modify fun t => { t with ref := update t.ref ip (t.ref ip - 1) }
    match image with
    | none => pure (-1)
    | some (d, sz, sp) => do
      let old ← read fun t => t.pgdir
      modify fun t => { t with
        name := progName path, pgdir := d, sz := sz, esp := sp
        eip := (f.elfhdr.map Elfhdr.entry).getD 0 }
      onRam (low (freevm L old))
      pure 0

section Supplied

variable {f : RegFile} {ph : Proghdr} {c : ℕ → UInt8}

theorem RegFile.page_inside (hoff : ph.off < 2 ^ 32) {k : ℕ} (hk : k < pgup ph.filesz)
    (hst : ∀ j, j ≤ k → (f.page ph j).length = pageBytes ph j) :
    ph.off + k * PGSIZE + pageBytes ph k ≤ f.bytes.length ∧
      f.page ph k = (f.bytes.drop (ph.off + k * PGSIZE)).take (pageBytes ph k) := by
  have hpos : 0 < pageBytes ph k := by
    rw [lt_pgup_iff] at hk
    rw [pageBytes]
    simp only [PGSIZE] at hk ⊢
    omega
  -- the page before is full and in the file, so the offset does not wrap
  have hmod : (ph.off + k * PGSIZE) % 2 ^ 32 = ph.off + k * PGSIZE := by
    refine Nat.mod_eq_of_lt ?_
    cases k with
    | zero => omega
    | succ k =>
      have ih := (page_inside hoff (k := k) (by omega) fun j hj => hst j (by omega)).1
      have hlt := f.size_lt
      rw [lt_pgup_iff] at hk
      rw [pageBytes] at ih
      simp only [PGSIZE] at hk ih ⊢
      omega
  have hlen := hst k le_rfl
  rw [page,readi,hmod] at hlen ⊢
  split at hlen
  · simp only [Option.getD_none,length_nil] at hlen
    omega
  · next hok =>
    rw [if_neg hok]
    simp only [Option.getD_some,length_take,length_drop] at hlen ⊢
    exact ⟨by omega,trivial⟩

theorem lay_segment (hoff : ph.off < 2 ^ 32) (hal : ph.vaddr % PGSIZE = 0)
    (hst : ∀ j, j < pgup ph.filesz → (f.page ph j).length = RegFile.pageBytes ph j) {n k va : ℕ}
    (hn : k + n = pgup ph.filesz) :
    lay (f.segment ph) (ph.vaddr / PGSIZE) n k c va =
      if ph.vaddr + k * PGSIZE ≤ va ∧ va < ph.vaddr + ph.filesz then
        f.bytes.getD (ph.off + (va-ph.vaddr)) 0 else c va := by
  induction n generalizing k c with
  | zero =>
    have hend := pgup_le_iff.mp hn.ge
    rw [Nat.add_zero] at hend
    rw [lay,if_neg (by omega)]
  | succ n ih =>
    obtain ⟨hin,hpage⟩ := RegFile.page_inside (f := f) hoff (k := k) (by omega)
      fun j hj => hst j (by omega)
    have hlen := hst k (by omega)
    have hbase : (ph.vaddr / PGSIZE + k) * PGSIZE = ph.vaddr + k * PGSIZE := by
      simp only [PGSIZE] at hal ⊢
      omega
    have hbytes : RegFile.pageBytes ph k = min PGSIZE (ph.filesz - k * PGSIZE) := rfl
    rw [lay,ih (by omega),hbase,Nat.add_one_mul]
    clear ih hst hbase hal
    generalize k * PGSIZE = j at *
    by_cases hnext : ph.vaddr + (j+PGSIZE) ≤ va ∧ va < ph.vaddr+ph.filesz
    · rw [if_pos hnext,if_pos (by omega)]
    rw [if_neg hnext,overlay]
    simp only [RegFile.segment,hlen]
    by_cases hhere : ph.vaddr + j ≤ va ∧ va < ph.vaddr+ph.filesz
    · rw [if_pos (by omega),if_pos hhere,hpage,getD_eq_getElem?_getD,
        getD_eq_getElem?_getD,getElem?_take_of_lt (by omega),getElem?_drop]
      congr 2
      omega
    · rw [if_neg (by omega),if_neg hhere]

theorem content_segments {phs : List (Option Proghdr)} {va sz : ℕ}
    (hword : ∀ ph, some ph ∈ phs → ph.off < 2 ^ 32 ∧ ph.vaddr < 2 ^ 32 ∧ ph.filesz < 2 ^ 32)
    (hl : Loadable (phs.map (Option.map f.segment)) sz) :
    content (phs.map (Option.map f.segment)) c va = phs.foldl (f.laid va) (c va) := by
  induction phs generalizing c sz with
  | nil => rfl
  | cons o phs ih =>
    have hih := fun c sz => @ih c sz fun ph hph => hword ph (mem_cons_of_mem _ hph)
    cases o with
    | none => exact hl.elim
    | some ph =>
      obtain ⟨hoff,hvaddr,hfile⟩ := hword ph mem_cons_self
      have hv : (f.segment ph).vaddr.toNat = ph.vaddr := UInt32.toNat_ofNat_of_lt' hvaddr
      have hs : (f.segment ph).filesz.toNat = ph.filesz := UInt32.toNat_ofNat_of_lt' hfile
      rw [map_cons,Option.map_some,Loadable] at hl
      rw [map_cons,Option.map_some,content,foldl_cons]
      by_cases htype : ph.type = ELF_PROG_LOAD
      · have hload : (f.segment ph).load = true := decide_eq_true htype
        rw [if_pos hload] at hl
        have hal := hl.1.aligned
        have hst := hl.1.stored
        rw [hv] at hal
        rw [hs] at hst
        rw [if_pos hload,hih _ _ hl.2.2,hv,hs,lay_segment hoff hal
          (fun j hj => by simpa [RegFile.segment] using hst j hj) (Nat.zero_add _),Nat.zero_mul,
          Nat.add_zero]
        simp only [RegFile.laid,RegFile.Covers,htype,true_and]
      · have hload : ¬(f.segment ph).load = true := by simpa [RegFile.segment] using htype
        rw [if_neg hload] at hl
        rw [if_neg hload,hih _ _ hl]
        simp only [RegFile.laid,RegFile.Covers,htype,false_and,if_false]

theorem RegFile.proghdrs_word {n off : ℕ} (h : some ph ∈ f.proghdrs n off) :
    ph.off < 2 ^ 32 ∧ ph.vaddr < 2 ^ 32 ∧ ph.filesz < 2 ^ 32 := by
  induction n generalizing off with
  | zero => cases h
  | succ n ih =>
    rw [proghdrs] at h
    split at h
    · rcases List.mem_cons.mp h with hph | hph
      · cases hph
        exact ⟨Block.word_lt _ _,Block.word_lt _ _,Block.word_lt _ _⟩
      · exact ih hph
    · simp at h

theorem RegFile.content_eq (hl : Loadable f.segments 0) (va : ℕ) :
    content f.segments (fun _ => 0) va = f.supplied va := by
  refine content_segments (fun ph hph => ?_) hl
  rw [phdrs] at hph
  split at hph
  · exact proghdrs_word hph
  · cases hph

end Supplied

/-- `exec` has failed: the process is as it was, and so are all address spaces and the free
pages. -/
structure Task.Same (D : Set ℕ) (t t' : Task) : Prop where
  pgdir : t'.pgdir = t.pgdir
  sz : t'.sz = t.sz
  name : t'.name = t.name
  eip : t'.eip = t.eip
  esp : t'.esp = t.esp
  free : t'.ram.mem.freelist.Perm t.ram.mem.freelist
  spaces : ∀ d ∈ D, Keep t.ram.mem t'.ram.mem d
  bytes : Untouched t.ram t'.ram

/-- The process runs the program of the file; only bytes of its new pages were written. -/
structure Task.Runs (f : RegFile) (argv : List (List UInt8)) (t t' : Task) : Prop where
  maps : Maps t'.ram.mem t'.pgdir t'.sz
  bytes : ∀ va, va + PGSIZE < t'.sz → byteAt t'.ram t'.pgdir va = f.supplied va
  fit : encodedSize argv ≤ PGSIZE
  stack : ArgvAt (byteAt t'.ram t'.pgdir) (t'.sz - PGSIZE) t'.sz argv t'.esp
  only : ∀ g, t'.ram.data g ≠ t.ram.data g →
    ∃ b, b < pgup t'.sz ∧ (entry t'.ram.mem t'.pgdir b).frame = g

section Outcomes

variable {L : Layout} {namei : List UInt8 → Option ℕ} {file : ℕ → RegFile} {A D R : Set ℕ}
  {t : Task} {path : List UInt8} {argv : List (List UInt8)} {E : Stop → Prop}

theorem shortArgs_of_le {sgs : List (Option Seg)}
    (h : encodedSize argv ≤ imagePages sgs * PGSIZE) : ShortArgs sgs argv := by
  intro arg harg
  have hone : argSize arg ≤ (argv.map argSize).sum :=
    single_le_sum (fun _ _ => Nat.zero_le _) _ (mem_map_of_mem harg)
  have hlt : arg.length < argSize arg := by
    rw [argSize]
    omega
  exact (hlt.trans_le (hone.trans (Nat.le_add_right _ _))).trans_le h

theorem RegFile.pgsize_le_imageSz (f : RegFile) : PGSIZE ≤ f.imageSz :=
  Nat.le_mul_of_pos_left _ (by rw [imagePages]; omega)

variable (hA : ∀ f ∈ A, L.kend ≤ f ∧ f < L.phystop)
include hA

theorem wp_exec (h : Sep A t.ram.mem D R) (hd : t.pgdir ∈ D)
    (hsize : ∀ ip, namei path = some ip → encodedSize argv ≤ (file ip).imageSz) :
    wp E (Task.exec L namei file path argv) t fun v t' => t'.ref = t.ref ∧
      (v = -1 ∧ t.Same D t' ∧
          (∀ ip, namei path = some ip → ¬(file ip).Launches L argv t.ram.mem) ∨
        v = 0 ∧ ∃ ip, namei path = some ip ∧ (file ip).Launches L argv t.ram.mem ∧
          Task.Runs (file ip) argv t t') := by
  rw [Task.exec]
  cases hip : namei path with
  | none =>
    exact ⟨rfl,.inl ⟨rfl,⟨rfl,rfl,rfl,rfl,rfl,.refl _,fun d _ => .refl _ d,.refl _⟩,by simp⟩⟩
  | some ip =>
    have hback : update (update t.ref ip (t.ref ip + 1)) ip
        (update t.ref ip (t.ref ip + 1) ip - 1) = t.ref := by
      rw [update_self,update_idem,Nat.add_sub_cancel,update_eq_self]
    simp only [wp_bind,wp_modify,Task.onRam,wp_zoom]
    refine (wp_execImage hA (shortArgs_of_le (hsize ip hip)) h).mono ?_
    rintro (_ | ⟨d,sz,sp⟩) r1 ⟨hk,hunt,hnone,hsome,hiff⟩
    · refine ⟨hback,.inl ⟨rfl,⟨rfl,rfl,rfl,rfl,rfl,?_,hk,hunt⟩,fun ip' hip' hl => ?_⟩⟩
      · exact h.free_perm (hnone rfl) hk
      · cases hip'
        exact absurd (hiff.mpr ⟨hl.header,hl.fits,hl.pages⟩) (by simp)
    obtain ⟨hdD,h1,hready⟩ := hsome d sz sp rfl
    obtain ⟨hgood,hfits,hpages⟩ := hiff.mp rfl
    simp only [wp_bind,wp_read,wp_modify,wp_zoom,low]
    -- the old address space is freed, the new one stays
    have hset : insert t.pgdir (insert d (D \ {t.pgdir})) = insert d D := by
      rw [Set.insert_comm,Set.insert_sdiff_singleton,Set.insert_eq_of_mem hd]
    have hold : t.pgdir ∉ insert d (D \ {t.pgdir}) := by
      rintro (rfl | hmem)
      · exact hdD hd
      · exact hmem.2 rfl
    refine (wp_freevm hA (hset ▸ h1) hold).mono ?_
    rintro - m2 ⟨-,hk2⟩
    have hkeep := hk2 d (Set.mem_insert _ _)
    have hbyte : byteAt ⟨m2,r1.data⟩ d = byteAt r1 d := by
      funext va
      rw [byteAt,byteAt,hkeep.entry]
    refine ⟨hback,.inr ⟨rfl,ip,rfl,⟨hgood,hfits,hpages⟩,fun b hb => ?_,fun va hva => ?_,
      hfits.size,?_,fun g hg => ?_⟩⟩
    · rw [hkeep.entry]
      exact hready.maps b hb
    · rw [← RegFile.content_eq hfits.loads]
      exact (congrFun hbyte va).trans (hready.bytes va hva)
    · change ArgvAt (byteAt ⟨m2,r1.data⟩ d) (sz - PGSIZE) sz argv sp
      rw [hbyte]
      exact hready.stack
    · obtain ⟨b,hb,hframe⟩ := hready.only g hg
      exact ⟨b,hb,(congrArg Pte.frame (hkeep.entry b)).trans hframe⟩

/-- **`exec` is safe on every file**: it never stops, and it fails without a trace or runs exactly
what the file supplies. It fails only if there is no such program, or no room for it. -/
theorem exec_safe (h : Sep A t.ram.mem D R) (hd : t.pgdir ∈ D)
    (hargs : encodedSize argv ≤ PGSIZE) :
    wp (fun _ => False) (Task.exec L namei file path argv) t fun v t' => t'.ref = t.ref ∧
      (v = -1 ∧ t.Same D t' ∧
          (∀ ip, namei path = some ip → ¬(file ip).Launches L argv t.ram.mem) ∨
        v = 0 ∧ ∃ ip, namei path = some ip ∧ (file ip).Launches L argv t.ram.mem ∧
          Task.Runs (file ip) argv t t') :=
  wp_exec hA h hd fun ip _ => hargs.trans (file ip).pgsize_le_imageSz

def Task.sample : Task :=
  ⟨⟨onePage spare, fun _ => .zero⟩, 3, 4096, [], 0, 4096, fun _ => 0⟩

/-- An ELF file with one segment of two bytes, a jump to itself, and two more in memory. -/
def RegFile.spin : RegFile where
  bytes := [0x7F, 0x45, 0x4C, 0x46, 1, 1, 1, 0, 0, 0, 0, 0, 0, 0, 0, 0, 2, 0, 3, 0, 1, 0, 0, 0,
    0, 0, 0, 0, 52, 0, 0, 0, 0, 0, 0, 0, 0, 0, 0, 0, 52, 0, 32, 0, 1, 0, 0, 0, 0, 0, 0, 0,
    1, 0, 0, 0, 84, 0, 0, 0, 0, 0, 0, 0, 0, 0, 0, 0, 2, 0, 0, 0, 4, 0, 0, 0, 7, 0, 0, 0,
    0, 16, 0, 0, 0xEB, 0xFE]
  size_lt := by decide

omit hA in
theorem exec_spin : ∃ t', Task.exec small (fun _ => some 0) (fun _ => .spin) [47, 97]
    [[97], [98, 99]] .sample = .ok (0, t') := by
  have hfst : (result (Task.exec small (fun _ => some 0) (fun _ => .spin) [47,97]
      [[97],[98,99]]) .sample).map Prod.fst = some 0 := by
    decide +kernel
  obtain ⟨x,hx,hzero⟩ := Option.map_eq_some_iff.mp hfst
  refine ⟨x.2,ok_of_result (hx.trans ?_)⟩
  rw [← hzero]

omit hA in
/-- A program is run with two arguments. -/
theorem exec_safe_spin : ∃ t', Task.exec small (fun _ => some 0) (fun _ => .spin) [47, 97]
    [[97], [98, 99]] .sample = .ok (0, t') ∧ Task.Runs .spin [[97], [98, 99]] .sample t' := by
  obtain ⟨t',hok⟩ := exec_spin
  obtain ⟨t,ht⟩ : ∃ t, Task.sample = t := ⟨_,rfl⟩
  have hsep : Sep field t.ram.mem (insert 3 ∅) (held spare) := ht ▸ sep_spare.1
  have hdir : t.pgdir ∈ insert 3 (∅ : Set ℕ) := ht ▸ Set.mem_insert _ _
  rw [ht] at hok ⊢
  obtain ⟨-,⟨hv,-⟩ | ⟨-,ip,-,-,hruns⟩⟩ :=
    (exec_safe field_range hsep hdir (by decide)).of_ok hok
  · exact absurd hv (by decide)
  · exact ⟨t',hok,hruns⟩

/-- **`exec` passes its arguments intact**; it succeeds if there is such a program and room for it,
and if the arguments are too long for the stack page it fails as long as they are not longer than
the image. -/
theorem exec_passes_arguments (h : Sep A t.ram.mem D R) (hd : t.pgdir ∈ D)
    (hsize : encodedSize argv ≤ PGSIZE ∨
      ∀ ip, namei path = some ip → encodedSize argv ≤ (file ip).imageSz) :
    wp (fun _ => False) (Task.exec L namei file path argv) t fun v t' =>
      (v = 0 → ArgvAt (byteAt t'.ram t'.pgdir) (t'.sz - PGSIZE) t'.sz argv t'.esp) ∧
      (PGSIZE < encodedSize argv → v = -1) ∧
      (v = 0 ↔ ∃ ip, namei path = some ip ∧ (file ip).Launches L argv t.ram.mem) := by
  have hsize' : ∀ ip, namei path = some ip → encodedSize argv ≤ (file ip).imageSz := by
    intro ip hip
    rcases hsize with hfit | hle
    · exact hfit.trans (file ip).pgsize_le_imageSz
    · exact hle ip hip
  refine (wp_exec hA h hd hsize').mono ?_
  rintro v t' ⟨-,⟨rfl,-,hno⟩ | ⟨rfl,ip,hip,hlaunch,hruns⟩⟩
  · exact ⟨fun hv => absurd hv (by decide),fun _ => rfl,
      iff_of_false (by decide) fun ⟨ip,hip,hlaunch⟩ => hno ip hip hlaunch⟩
  · exact ⟨fun _ => hruns.stack,fun hlong => absurd hruns.fit (Nat.not_le.mpr hlong),
      iff_of_true rfl ⟨ip,hip,hlaunch⟩⟩

omit hA in
/-- The two arguments are where `main` looks for them. -/
theorem exec_passes_arguments_spin : ∃ t', Task.exec small (fun _ => some 0) (fun _ => .spin)
    [47, 97] [[97], [98, 99]] .sample = .ok (0, t') ∧
    ArgvAt (byteAt t'.ram t'.pgdir) (t'.sz - PGSIZE) t'.sz [[97], [98, 99]] t'.esp := by
  obtain ⟨t',hok⟩ := exec_spin
  obtain ⟨t,ht⟩ : ∃ t, Task.sample = t := ⟨_,rfl⟩
  have hsep : Sep field t.ram.mem (insert 3 ∅) (held spare) := ht ▸ sep_spare.1
  have hdir : t.pgdir ∈ insert 3 (∅ : Set ℕ) := ht ▸ Set.mem_insert _ _
  rw [ht] at hok ⊢
  exact ⟨t',hok,((exec_passes_arguments field_range hsep hdir (.inl (by decide))).of_ok hok).1 rfl⟩

end Outcomes

end Xv6Container.Vm
