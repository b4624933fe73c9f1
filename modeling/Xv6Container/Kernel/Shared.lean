import Xv6Container.Kernel.Boot
import Xv6Container.Kernel.Invariant

/-! # Writing through a shared descriptor -/

namespace Xv6Container.Kernel

open Function Prog Fs Run List

/-- The processes that write to one open file. -/
structure Writers where
  kernel : Kernel
  /-- what the call of a process has still to write -/
  left : ℕ → List UInt8
  -- history: the calls so far, and the pieces they wrote, with the process
  calls : List (ℕ × List UInt8)
  written : List (ℕ × List UInt8)

inductive WriteAction
  /-- process `w` calls `filewrite` -/
  | call (w : ℕ) (src : List UInt8)
  /-- process `w` has the inode's lock for its next piece -/
  | piece (w : ℕ)

variable (sb : Superblock) (f : FSlot)

/-- `filewrite` up to its loop. -/
def startWrite (s : Writers) (w : ℕ) (src : List UInt8) : Option Writers :=
  if s.left w ≠ [] then none
  else if !(s.kernel.file f).writable then some s
  else
    match (s.kernel.file f).type with
    | .none => none
    | .inode => some { s with
        left := update s.left w src
        calls := s.calls ++ [(w, src)] }

/-- One round of the loop of `filewrite`; `none` is a panic. A failed `writei` ends the call. -/
def writeRound (s : Writers) (w : ℕ) : Option Writers :=
  if s.left w = [] then none
  else
    match filewritePiece sb f ((s.left w).take maxWrite) s.kernel with
    | .error _ => none
    | .ok (r, k) =>
      match r with
      | none => some { s with kernel := k, left := update s.left w [] }
      | some n =>
        if n = ((s.left w).take maxWrite).length then
          some { s with
            kernel := k
            left := update s.left w ((s.left w).drop maxWrite)
            written := s.written ++ [(w, (s.left w).take maxWrite)] }
        else none

def writeStep (s : Writers) : WriteAction → Option Writers
  | .call w src => startWrite f s w src
  | .piece w => writeRound sb f s w

def Writers.start (k : Kernel) : Writers := ⟨k, fun _ => [], [], []⟩

def pieces (src : List UInt8) : List (List UInt8) :=
  if src = [] then [] else src.take maxWrite :: pieces (src.drop maxWrite)
termination_by src.length
decreasing_by
  rw [length_drop]
  have hpos : 0 < src.length := List.length_pos_iff.mpr ‹_›
  have hmax : 0 < maxWrite := by decide
  omega

def ofWriter (w : ℕ) (l : List (ℕ × List UInt8)) : List (List UInt8) :=
  (l.filter fun x => x.1 = w).map Prod.snd

def bytesOf (l : List (ℕ × List UInt8)) : List UInt8 := l.flatMap Prod.snd

/-- The next piece still fits into a file of the largest size. -/
def Within (s : Writers) : WriteAction → Prop
  | .call _ _ => True
  | .piece w => (s.kernel.file f).off + ((s.left w).take maxWrite).length ≤ MAXFILE * BSIZE

instance (s : Writers) : ∀ a, Decidable (Within f s a)
  | .call .. => isTrue trivial
  | .piece .. => inferInstanceAs (Decidable (_ ≤ _))

/-- The file is open for writing, on a regular file, with its offset in the file. -/
structure Shareable (sb : Superblock) (f : FSlot) (i : ℕ) (k : Kernel) : Prop where
  wf : Wf sb k.fs
  at_ip : At k.fs (k.file f).ip i
  regular : (node k.fs i).type = .file
  type : (k.file f).type = .inode
  writable : (k.file f).writable = true
  off_le : (k.file f).off ≤ (node k.fs i).size

variable {sb f} {k k' : Kernel} {s t : Writers} {i w : ℕ} {src : List UInt8} {E : Stop → Prop}

theorem pieces_of_ne (h : src ≠ []) :
    pieces src = src.take maxWrite :: pieces (src.drop maxWrite) := by
  rw [pieces,if_neg h]

theorem ofWriter_append (l l' : List (ℕ × List UInt8)) :
    ofWriter w (l ++ l') = ofWriter w l ++ ofWriter w l' := by
  rw [ofWriter,filter_append,map_append,ofWriter,ofWriter]

theorem ofWriter_self (b : List UInt8) : ofWriter w [(w, b)] = [b] := by
  simp [ofWriter]

theorem ofWriter_other {v : ℕ} (h : v ≠ w) (b : List UInt8) : ofWriter w [(v, b)] = [] := by
  simp [ofWriter,h]

theorem bytesOf_append (l l' : List (ℕ × List UInt8)) :
    bytesOf (l ++ l') = bytesOf l ++ bytesOf l' :=
  flatMap_append

theorem write_write (x : Node) (off : ℕ) (a b : List UInt8) :
    (x.write off a).write (off+a.length) b = x.write off (a ++ b) := by
  have hsize : max (max x.size (off+a.length)) (off + a.length + b.length) =
      max x.size (off + (a ++ b).length) := by
    rw [length_append]
    omega
  simp only [Node.write,hsize,Node.mk.injEq,true_and]
  funext o
  rw [length_append]
  by_cases hb : off + a.length ≤ o ∧ o < off + a.length + b.length
  · rw [if_pos hb,if_pos (by omega),getD_append_right _ _ _ _ (by omega)]
    congr 1
    omega
  · rw [if_neg hb]
    by_cases ha : off ≤ o ∧ o < off+a.length
    · rw [if_pos ha,if_pos (by omega),getD_append _ _ _ _ (by omega)]
    · rw [if_neg ha,if_neg (by omega)]

theorem write_nil {x : Node} {off : ℕ} (h : off ≤ x.size) : x.write off [] = x := by
  have hnone : ∀ o, ¬ (off ≤ o ∧ o < off) := by
    intro o ho
    omega
  simp only [Node.write,length_nil,Nat.add_zero,max_eq_left h,if_neg (hnone _)]

/-- A regular file is open. -/
structure Opened (sb : Superblock) (f : FSlot) (i : ℕ) (k : Kernel) : Prop where
  wf : Wf sb k.fs
  at_ip : At k.fs (k.file f).ip i
  regular : (node k.fs i).type = .file
  type : (k.file f).type = .inode
  off_lt : (k.file f).off < 2 ^ 32

theorem size_le_of_regular (hwf : Wf sb k.fs) (h : (node k.fs i).type = .file) :
    (node k.fs i).size ≤ MAXFILE*BSIZE := by
  have hal : (k.fs.dinode i).type ≠ .free := by
    rw [← node_type,h]
    decide
  rw [node_of_alloc hal]
  exact (hwf.disk.inode_ok i hal).size_le

theorem Shareable.opened (h : Shareable sb f i k) : Opened sb f i k where
  wf := h.wf
  at_ip := h.at_ip
  regular := h.regular
  type := h.type
  off_lt := by
    have hsize := size_le_of_regular h.wf h.regular
    have hoff := h.off_le
    have hlt : MAXFILE * BSIZE < 2 ^ 32 := by decide
    omega

theorem wp_endPiece {s : State} {n : ℕ} (hfile : (k.file f).type = .inode)
    (hwf : Wf sb s) (hat : At s (k.file f).ip i) (hreg : (node s i).type = .file)
    (hlocked : (cached s i).locked = true) (hoff : (k.file f).off + n < 2 ^ 32) :
    wp E (do advance f n; onFs (iunlock (k.file f).ip)) { k with fs := s } fun _ k' =>
      Opened sb f i k' ∧ (cached k'.fs i).locked = false ∧
        (k'.file f).writable = (k.file f).writable ∧ node k'.fs = node s ∧
        (k'.file f).off = (k.file f).off + n ∧ ∃ x, k'.fs = setSlot s (k.file f).ip x := by
  simp only [advance,setFile,wp_bind,wp_modify,wp_onFs]
  apply (wp_iunlock (fun h => by rw [hlocked] at h; cases h) hwf hat).mono
  rintro - t ⟨-,hat',hgoes,hslot⟩
  have hnode : node t = node s := hgoes.node
  have hopen : (cached t i).locked = false := by
    rw [hgoes.cached]
    simp [Abs.unlock,Abs.setCache]
  have hdone : ∀ k' : Kernel, k'.fs = t →
      k'.file f = { k.file f with off := ((k.file f).off + n) % 2 ^ 32 } →
      Opened sb f i k' ∧ (cached k'.fs i).locked = false ∧
        (k'.file f).writable = (k.file f).writable ∧ node k'.fs = node s ∧
        (k'.file f).off = (k.file f).off + n ∧ ∃ x, k'.fs = setSlot s (k.file f).ip x := by
    intro k' hfs hself
    rw [Nat.mod_eq_of_lt hoff] at hself
    refine ⟨⟨?_,?_,?_,?_,?_⟩,?_,?_,?_,?_,?_⟩ <;> first | rw [hfs] | skip
    · exact hgoes.wf
    · rw [hself]
      exact hat'
    · rw [hnode]
      exact hreg
    · rw [hself]
      exact hfile
    · rw [hself]
      exact hoff
    · exact hopen
    · rw [hself]
    · exact hnode
    · rw [hself]
    · exact hslot
  exact hdone _ rfl (update_self ..)

/-- One locked section writes its bytes at the offset and moves the offset behind them, or leaves
everything as it is. -/
theorem Opened.wp_piece (h : Opened sb f i k)
    (hE : (k.file f).off ≤ (node k.fs i).size → (k.file f).off + src.length ≤ MAXFILE * BSIZE →
      freeBlocks sb k.fs <
        holes (k.fs.dinode i) k.fs.block (places (k.file f).off src.length) →
      E (.panic "balloc: out of blocks")) (hb : (cached k.fs i).locked = true → E .blocked)
    (hsrc : src.length < 2 ^ 32) :
    wp E (filewritePiece sb f src) k fun r k' => Opened sb f i k' ∧
      (cached k'.fs i).locked = false ∧ (k'.file f).writable = (k.file f).writable ∧
      if (node k.fs i).size < (k.file f).off ∨ MAXFILE * BSIZE < (k.file f).off + src.length
      then r = none ∧ node k'.fs = node k.fs ∧ (k'.file f).off = (k.file f).off
      else r = some src.length ∧ (k'.file f).off = (k.file f).off + src.length ∧
        node k'.fs = update (node k.fs) i ((node k.fs i).write (k.file f).off src) ∧
        Fills sb (places (k.file f).off src.length) k.fs k'.fs (k.fs.dinode i)
          (k'.fs.dinode i) := by
  have hlt : MAXFILE * BSIZE < 2 ^ 32 := by decide
  have hdev : (node k.fs i).type ≠ .dev := by
    rw [h.regular]
    decide
  have hfree : (node k.fs i).type ≠ .free := by
    rw [h.regular]
    decide
  simp only [filewritePiece,wp_bind,wp_read,wp_onFs]
  apply (wp_ilock hb (fun hf => absurd hf hfree) h.wf h.at_ip).mono
  rintro - s₁ ⟨-,-,hat1,hgoes1,x,rfl⟩
  set s₁ := setSlot k.fs (k.file f).ip x
  have hnode1 : node s₁ = node k.fs := hgoes1.node
  have hcache : cached s₁ i = { cached k.fs i with locked := true, valid := true } := by
    rw [hgoes1.cached]
    simp [Abs.lock,Abs.setCache,Fs.abs]
  apply (wp_writei_node (by rw [hnode1]; exact hE) hgoes1.wf hat1 (by rw [hcache])
    (by rw [hnode1]; exact hdev) h.off_lt hsrc).mono
  rintro r s₂ ⟨hat2,hres⟩
  rw [hnode1] at hres
  split at hres
  · next hcond =>
    obtain ⟨rfl,rfl⟩ := hres
    have hend := wp_endPiece (n := 0) (E := E) h.type hgoes1.wf hat1
      (by rw [hnode1]; exact h.regular) (by rw [hcache]) h.off_lt
    simp only [wp_bind,wp_onFs] at hend
    refine hend.mono fun _ _ hk => hk.mono ?_
    rintro - s' ⟨hopen,hfree,hw,hnode,hoff,-⟩
    rw [hnode1] at hnode
    rw [wp_pure,if_pos (by omega)]
    exact ⟨hopen,hfree,hw,rfl,hnode,hoff⟩
  · next hcond =>
    obtain ⟨rfl,hgoes2,hfills⟩ := hres
    have hnode2 : node s₂ =
        update (node k.fs) i ((node k.fs i).write (k.file f).off src) := by
      rw [hgoes2.node,← hnode1]
      rfl
    have hend := wp_endPiece (n := src.length) (E := E) h.type hgoes2.wf hat2
      (by rw [hnode2,update_self]; exact h.regular)
      (by rw [hgoes2.cached]; exact congrArg Cached.locked hcache) (by omega)
    simp only [wp_bind,wp_onFs] at hend
    refine hend.mono fun _ _ hk => hk.mono ?_
    rintro - s' ⟨hopen,hfree,hw,hnode,hoff,y,hy⟩
    rw [hnode2] at hnode
    rw [wp_pure,if_neg (by omega)]
    refine ⟨hopen,hfree,hw,rfl,hoff,hnode,?_⟩
    -- locking and unlocking change the slot only
    rw [hy]
    exact ⟨hfills.within,hfills.free,hfills.empty⟩

theorem wp_filewritePiece (h : Shareable sb f i k)
    (hmax : (k.file f).off + src.length ≤ MAXFILE*BSIZE) :
    wp (fun _ => True) (filewritePiece sb f src) k fun r k' =>
      r = some src.length ∧ Shareable sb f i k' ∧
        node k'.fs = update (node k.fs) i ((node k.fs i).write (k.file f).off src) ∧
        (k'.file f).off = (k.file f).off + src.length := by
  have hlt : MAXFILE * BSIZE < 2 ^ 32 := by decide
  have hoff := h.off_le
  apply (h.opened.wp_piece (fun _ _ _ => trivial) (fun _ => trivial) (by omega)).mono
  rintro r k' ⟨hopen,-,hw,hres⟩
  rw [if_neg (by omega)] at hres
  obtain ⟨rfl,hoff',hnode,-⟩ := hres
  refine ⟨rfl,⟨hopen.wf,hopen.at_ip,hopen.regular,hopen.type,hw.trans h.writable,?_⟩,hnode,hoff'⟩
  rw [hnode,update_self,hoff']
  exact Nat.le_max_right _ _

/-- What holds in every state, with the kernel `k` in which the writing began. -/
structure Kept (sb : Superblock) (f : FSlot) (i : ℕ) (k : Kernel) (s : Writers) : Prop where
  shareable : Shareable sb f i s.kernel
  inOrder : ∀ w, ofWriter w s.written ++ pieces (s.left w) = (ofWriter w s.calls).flatMap pieces
  short : ∀ x ∈ s.written, x.2.length ≤ maxWrite
  content : node s.kernel.fs =
    update (node k.fs) i ((node k.fs i).write (k.file f).off (bytesOf s.written))
  offset : (s.kernel.file f).off = (k.file f).off + (bytesOf s.written).length

theorem kept_start (h : Shareable sb f i k) : Kept sb f i k (.start k) := by
  refine ⟨h,fun w => ?_,fun _ hx => absurd hx not_mem_nil,?_,rfl⟩
  · change pieces [] = _
    rw [pieces,if_pos rfl]
    rfl
  · change node k.fs = update (node k.fs) i ((node k.fs i).write (k.file f).off [])
    rw [write_nil h.off_le,update_eq_self]

theorem Kept.call (h : Kept sb f i k s) (hstep : startWrite f s w src = some t) :
    Kept sb f i k t := by
  rw [startWrite,h.shareable.writable,h.shareable.type,Option.ite_none_left_eq_some] at hstep
  obtain ⟨hidle,hstep⟩ := hstep
  cases hstep
  refine ⟨h.shareable,fun v => ?_,h.short,h.content,h.offset⟩
  have hv := h.inOrder v
  dsimp only
  rw [ofWriter_append,flatMap_append]
  by_cases hvw : v = w
  · subst hvw
    rw [not_not.mp hidle,pieces,if_pos rfl,append_nil] at hv
    rw [update_self,ofWriter_self,hv,flatMap_singleton]
  · rw [update_of_ne hvw,ofWriter_other (Ne.symm hvw),flatMap_nil,append_nil]
    exact hv

theorem Kept.round (h : Kept sb f i k s)
    (hmax : (s.kernel.file f).off + ((s.left w).take maxWrite).length ≤ MAXFILE*BSIZE)
    (hstep : writeRound sb f s w = some t) : Kept sb f i k t := by
  rw [writeRound,Option.ite_none_left_eq_some] at hstep
  obtain ⟨hleft,hstep⟩ := hstep
  have hpiece := wp_filewritePiece h.shareable hmax
  cases hrun : filewritePiece sb f ((s.left w).take maxWrite) s.kernel with
  | error e =>
    rw [hrun] at hstep
    cases hstep
  | ok x =>
    obtain ⟨r,k'⟩ := x
    obtain ⟨rfl,hshare,hnode,hoff⟩ := hpiece.of_ok hrun
    rw [hrun] at hstep
    dsimp only at hstep
    rw [if_pos rfl] at hstep
    cases hstep
    set a := (s.left w).take maxWrite
    have hbytes : bytesOf (s.written ++ [(w, a)]) = bytesOf s.written ++ a := by
      rw [bytesOf_append]
      simp [bytesOf]
    refine ⟨hshare,fun v => ?_,?_,?_,?_⟩
    · have hv := h.inOrder v
      dsimp only
      rw [ofWriter_append]
      by_cases hvw : v = w
      · subst hvw
        rw [update_self,ofWriter_self,append_assoc,singleton_append,← pieces_of_ne hleft]
        exact hv
      · rw [update_of_ne hvw,ofWriter_other (Ne.symm hvw),append_nil]
        exact hv
    · intro x hx
      rcases List.mem_append.mp hx with hx | hx
      · exact h.short x hx
      · rw [List.mem_singleton.mp hx]
        exact length_take_le _ _
    · dsimp only
      rw [hnode,h.content,h.offset,update_self,update_idem,write_write,hbytes]
    · dsimp only
      rw [hoff,h.offset,hbytes,length_append,Nat.add_assoc]

/-- After any interleaving of calls that stay below the largest file, the file has the bytes of the
written pieces from the first offset on, each process's pieces in order and none missing, and the
offset is behind them. -/
theorem shared_writes_kept {as : List WriteAction} (h : Shareable sb f i k)
    (hmax : Meets (writeStep sb f) (Within f) (.start k) as)
    (hrun : exec (writeStep sb f) (.start k) as = some s) :
    (∀ w, ofWriter w s.written ++ pieces (s.left w) = (ofWriter w s.calls).flatMap pieces) ∧
    (∀ x ∈ s.written, x.2.length ≤ maxWrite) ∧
    node s.kernel.fs =
      update (node k.fs) i ((node k.fs i).write (k.file f).off (bytesOf s.written)) ∧
    (s.kernel.file f).off = (k.file f).off + (bytesOf s.written).length := by
  have hkept : Kept sb f i k s := by
    refine exec_invariant_of_meets (fun s a t hs hok hstep => ?_) (kept_start h) hmax hrun
    cases a with
    | call w src => exact hs.call hstep
    | piece w => exact hs.round hok hstep
  exact ⟨hkept.inOrder,hkept.short,hkept.content,hkept.offset⟩

def emptyOpen : Kernel :=
  { boot { mkfs with dinode := update mkfs.dinode 2 (.fresh .file) } with
    fs := { mkfs with
      dinode := update mkfs.dinode 2 (.fresh .file)
      inode := fun c => ⟨if c = rootSlot then 2 else 0, if c = rootSlot then 1 else 0,
        false, false, Dinode.fresh .free⟩ }
    file := fun _ => ⟨.inode, 1, true, true, rootSlot, 0, -1⟩ }

theorem shareable_emptyOpen (f : FSlot) : Shareable .mkfs f 2 emptyOpen := by
  have hone : ∀ c, 0 < (emptyOpen.fs.inode c).ref → c = rootSlot := by
    intro c hc
    by_contra hne
    have hz : (emptyOpen.fs.inode c).ref = 0 := if_neg hne
    omega
  have hdin : emptyOpen.fs.dinode 2 = .fresh .file := rfl
  have hnode : node emptyOpen.fs 2 = ⟨.file,0,0,0,0,fun _ => 0⟩ := by
    rw [node_of_alloc (by rw [hdin]; decide),hdin]
    simp [Dinode.fresh]
  refine ⟨⟨?_,?_,?_,?_,fun _ _ => rfl⟩,⟨Nat.one_pos,rfl⟩,?_,rfl,rfl,?_⟩
  · exact diskOk_mkfs.alloc (by decide) (by decide) rfl rfl
  · exact fun c c' hc hc' _ => (hone c hc).trans (hone c' hc').symm
  · intro c _ hv
    cases hv
  · intro c _ hv
    cases hv
  · rw [hnode]
  · exact Nat.zero_le _

def takeTurns : List WriteAction :=
  [.call 0 [1, 2], .call 1 [3], .piece 1, .piece 0, .call 1 [4], .piece 1]

theorem shared_writes_kept_takeTurns :
    ∃ s, exec (writeStep .mkfs 0) (.start emptyOpen) takeTurns = some s ∧
      bytesOf s.written = [3, 1, 2, 4] ∧ (s.kernel.file 0).off = 4 ∧
      node s.kernel.fs =
        update (node emptyOpen.fs) 2 ((node emptyOpen.fs 2).write 0 [3, 1, 2, 4]) := by
  have hrun : (exec (writeStep .mkfs 0) (.start emptyOpen) takeTurns).map
      (fun s => bytesOf s.written) = some [3,1,2,4] := by decide +kernel
  obtain ⟨s,hs,hbytes⟩ := Option.map_eq_some_iff.mp hrun
  obtain ⟨-,-,hnode,hoff⟩ := shared_writes_kept (shareable_emptyOpen 0) (by decide +kernel) hs
  rw [hbytes] at hnode hoff
  exact ⟨s,hs,hbytes,hoff,hnode⟩

/-- The file after a call with these bytes; no bytes are no write. -/
def written (x : Node) (off : ℕ) (src : List UInt8) : Node :=
  if src = [] then x else x.write off src

/-- All bytes have been written at the offset, or nothing has changed. -/
def Settled (f : FSlot) (i : ℕ) (src : List UInt8) (k : Kernel) (r : Option ℕ) (k' : Kernel) :
    Prop :=
  r = some src.length ∧ (k'.file f).off = (k.file f).off + src.length ∧
      node k'.fs = update (node k.fs) i (written (node k.fs i) (k.file f).off src) ∨
    r = none ∧ (k'.file f).off = (k.file f).off ∧ node k'.fs = node k.fs

/-- `filewrite` returns, and it has done all of its work or none. -/
def AllOrNothing (sb : Superblock) (f : FSlot) (i : ℕ) (src : List UInt8) (k : Kernel) : Prop :=
  ∃ r k', filewrite sb f src k = .ok (r, k') ∧ Settled f i src k r k'

/-- The file can take `n` bytes at `off`: it stays below the largest size, and there is a free block
for each place that has none yet. -/
def HasRoom (sb : Superblock) (i off n : ℕ) (s : State) : Prop :=
  off + n ≤ MAXFILE * BSIZE ∧ holes (s.dinode i) s.block (places off n) ≤ freeBlocks sb s

/-- The file has room for all bytes, or the first piece is refused. -/
def FitsOrFails (sb : Superblock) (i off n : ℕ) (s : State) : Prop :=
  n = 0 ∨ (node s i).size < off ∨ MAXFILE * BSIZE < off + min n maxWrite ∨ HasRoom sb i off n s

theorem hasRoom_zero {off : ℕ} (s : State) (h : off ≤ MAXFILE*BSIZE) : HasRoom sb i off 0 s := by
  have := (Fills.nothing sb off s (s.dinode i)).free
  exact ⟨h,by omega⟩

theorem HasRoom.mono {off m n : ℕ} {s : State} (h : HasRoom sb i off n s) (hmn : m ≤ n) :
    HasRoom sb i off m s :=
  ⟨by have := h.1; omega,(holes_mono (places_mono hmn)).trans h.2⟩

/-- After a piece there is room for the rest exactly if there was room for all of it before. -/
theorem hasRoom_iff {off m n : ℕ} {s t : State}
    (h : Fills sb (places off m) s t (s.dinode i) (t.dinode i)) :
    HasRoom sb i off (m+n) s ↔ HasRoom sb i (off+m) n t := by
  have hfree := h.free
  rw [HasRoom,HasRoom,← Nat.add_assoc,places_add]
  refine and_congr_right fun hmax => ?_
  rw [h.holes_union fun k => lt_of_mem_places hmax]
  omega

theorem Shareable.wp_loop {fuel : ℕ}
    (hE : ¬ FitsOrFails sb i (k.file f).off src.length k.fs → E (.panic "balloc: out of blocks"))
    (h : Shareable sb f i k) (hl : (cached k.fs i).locked = false) (hfuel : src.length ≤ fuel) :
    wp E (filewriteLoop sb f fuel src) k fun r k' => ∃ done rest, src = done ++ rest ∧
      r = decide (rest = []) ∧ (k'.file f).off = (k.file f).off + done.length ∧
      node k'.fs = update (node k.fs) i ((node k.fs i).write (k.file f).off done) ∧
      (rest = [] ↔ HasRoom sb i (k.file f).off src.length k.fs) ∧
      (done = [] ↔ src = [] ∨ MAXFILE * BSIZE < (k.file f).off + min src.length maxWrite) := by
  have hsize := size_le_of_regular h.wf h.regular
  have hle := h.off_le
  have hnil : node k.fs = update (node k.fs) i ((node k.fs i).write (k.file f).off []) := by
    rw [write_nil h.off_le,update_eq_self]
  have hempty : HasRoom sb i (k.file f).off 0 k.fs := hasRoom_zero _ (by omega)
  induction fuel generalizing k src with
  | zero =>
    obtain rfl := List.length_eq_zero_iff.mp (Nat.le_zero.mp hfuel)
    exact ⟨[],[],rfl,rfl,rfl,hnil,iff_of_true rfl hempty,by simp⟩
  | succ fuel ih =>
    rw [filewriteLoop]
    apply wp_ite
    · rintro rfl
      exact ⟨[],[],rfl,rfl,rfl,hnil,iff_of_true rfl hempty,by simp⟩
    intro hne
    have hpos : 0 < src.length := List.length_pos_iff.mpr hne
    have hmax : maxWrite = 1536 := rfl
    have htake : (src.take maxWrite).length = min src.length maxWrite := by
      rw [length_take,Nat.min_comm]
    have hsplit : src.length = (src.take maxWrite).length + (src.drop maxWrite).length := by
      rw [← length_append,take_append_drop]
    apply (h.opened.wp_piece (fun _ hfits hlt => hE ?_) (fun hb => by rw [hl] at hb; cases hb)
      (by omega)).bind
    · rintro r k1 ⟨hopen,hl1,hw,hres⟩
      split at hres
      · next hcond =>
        obtain ⟨rfl,hnode,hoff⟩ := hres
        refine ⟨[],src,rfl,by simp [hne],hoff,hnode.trans hnil,?_,?_⟩
        · simp only [hne,false_iff]
          intro hroom
          have := hroom.1
          omega
        · simp only [true_iff]
          omega
      · next hcond =>
        obtain ⟨rfl,hoff,hnode,hfills⟩ := hres
        have hself : node k1.fs i = (node k.fs i).write (k.file f).off (src.take maxWrite) := by
          rw [hnode,update_self]
        have hle1 : (k1.file f).off ≤ (node k1.fs i).size := by
          rw [hself,hoff]
          exact Nat.le_max_right _ _
        have h1 : Shareable sb f i k1 :=
          ⟨hopen.wf,hopen.at_ip,hopen.regular,hopen.type,hw.trans h.writable,hle1⟩
        have hiff : HasRoom sb i (k.file f).off src.length k.fs ↔
            HasRoom sb i (k1.file f).off (src.drop maxWrite).length k1.fs := by
          rw [hsplit,hoff]
          exact hasRoom_iff hfills
        dsimp only
        rw [if_pos rfl]
        have hsize1 := size_le_of_regular h1.wf h1.regular
        have hih := @ih k1 (src.drop maxWrite) (fun hno => hE ?_) h1 hl1
          (by rw [length_drop]; omega) hsize1 hle1 (by rw [write_nil hle1,update_eq_self])
          (hasRoom_zero _ (by omega))
        · apply hih.mono
          rintro r k2 ⟨done,rest,hsrc,hr,hoff2,hnode2,hrest,-⟩
          refine ⟨src.take maxWrite ++ done,rest,?_,hr,?_,?_,hrest.trans hiff.symm,?_⟩
          · rw [append_assoc,← hsrc,take_append_drop]
          · rw [hoff2,hoff,length_append,Nat.add_assoc]
          · rw [hnode2,hself,hnode,hoff,update_idem,write_write]
          · have hfull : src.take maxWrite ≠ [] := by
              rw [← length_pos_iff,htake]
              omega
            simp only [append_eq_nil_iff,hfull,hne,false_and,false_or,false_iff]
            omega
        · rintro (hz | hsz | hfirst | hroom)
          · omega
          · omega
          · omega
          · exact hno (.inr (.inr (.inr (hiff.mp hroom))))
    · rintro (hz | hsz | hfirst | hroom)
      · omega
      · omega
      · omega
      · have := (hroom.mono (m := (src.take maxWrite).length) (by omega)).2
        omega

theorem Opened.wp_filewrite (h : Opened sb f i k) (hl : (cached k.fs i).locked = false)
    (hE : ¬ ((k.file f).writable = false ∨
      FitsOrFails sb i (k.file f).off src.length k.fs) → E (.panic "balloc: out of blocks")) :
    wp E (filewrite sb f src) k fun r k' => Settled f i src k r k' ↔
      (k.file f).writable = false ∨ FitsOrFails sb i (k.file f).off src.length k.fs := by
  rw [filewrite,wp_bind,wp_read]
  apply wp_ite
  · intro hw
    exact iff_of_true (.inr ⟨rfl,rfl,rfl⟩) (.inl (by simpa using hw))
  intro hw
  have hw : (k.file f).writable = true := by simpa using hw
  rw [h.type,wp_bind]
  simp only [hw,Bool.true_eq_false,false_or,wp_pure] at hE ⊢
  by_cases hsize : (node k.fs i).size < (k.file f).off
  · -- nothing can be written there
    cases src with
    | nil =>
      refine iff_of_true (.inl ⟨rfl,rfl,?_⟩) (.inl rfl)
      rw [written,if_pos rfl,update_eq_self]
    | cons b src =>
      rw [length_cons,filewriteLoop,if_neg (cons_ne_nil b src)]
      have hmax : maxWrite = 1536 := rfl
      have htake := length_take_le maxWrite (b :: src)
      apply (h.wp_piece (fun hle => by omega) (fun hb => by rw [hl] at hb; cases hb)
        (by omega)).bind
      rintro r k' ⟨-,-,-,hres⟩
      rw [if_pos (.inl hsize)] at hres
      obtain ⟨rfl,hnode,hoff⟩ := hres
      exact iff_of_true (.inr ⟨rfl,hoff,hnode⟩) (.inr (.inl hsize))
  have hle : (k.file f).off ≤ (node k.fs i).size := by omega
  have hshare : Shareable sb f i k := ⟨h.wf,h.at_ip,h.regular,h.type,hw,hle⟩
  apply (hshare.wp_loop hE hl le_rfl).mono
  rintro r k' ⟨done,rest,hsrc,rfl,hoff,hnode,hrest,hdone⟩
  by_cases hnil : rest = []
  · have hall : written (node k.fs i) (k.file f).off src =
        (node k.fs i).write (k.file f).off src := by
      rw [written]
      split
      · next he => rw [he,write_nil hle]
      · rfl
    rw [hnil,append_nil] at hsrc
    subst hsrc
    refine iff_of_true (.inl ⟨by simp [hnil],hoff,by rw [hall]; exact hnode⟩) ?_
    exact .inr (.inr (.inr (hrest.mp hnil)))
  have hlong := mt hrest.mpr hnil
  have hpos : src.length ≠ 0 := by
    rw [hsrc,length_append]
    have := List.length_pos_iff.mpr hnil
    omega
  have hfits : FitsOrFails sb i (k.file f).off src.length k.fs ↔ done = [] := by
    rw [hdone,FitsOrFails,← length_eq_zero_iff]
    simp only [hlong,or_false]
    omega
  simp only [hfits,Settled,hnil,decide_false,Bool.false_eq_true,if_false,true_and,
    reduceCtorEq,false_and,false_or]
  constructor
  · rintro ⟨hsame,-⟩
    exact List.length_eq_zero_iff.mp (by omega)
  · rintro rfl
    rw [write_nil hle,update_eq_self] at hnode
    exact ⟨hoff,hnode⟩

/-- A call of `filewrite` does all of its work or none exactly if the file has room for all bytes,
below the largest size and in the free blocks, or the first piece is refused. -/
theorem filewrite_all_or_nothing_iff (h : Opened sb f i k)
    (hl : (cached k.fs i).locked = false) :
    AllOrNothing sb f i src k ↔
      (k.file f).writable = false ∨ FitsOrFails sb i (k.file f).off src.length k.fs := by
  have hwp := h.wp_filewrite (E := fun _ => ¬ ((k.file f).writable = false ∨
    FitsOrFails sb i (k.file f).off src.length k.fs)) hl id
  cases hrun : filewrite sb f src k with
  | error e =>
    refine iff_of_false ?_ (hwp.of_error hrun)
    rintro ⟨r,k',hrun',-⟩
    rw [hrun] at hrun'
    cases hrun'
  | ok x =>
    rw [← hwp.of_ok hrun]
    constructor
    · rintro ⟨r,k',hrun',hres⟩
      rw [hrun] at hrun'
      cases hrun'
      exact hres
    · exact fun hres => ⟨x.1,x.2,hrun,hres⟩

theorem filewrite_all_or_nothing_iff_three : AllOrNothing .mkfs 0 2 [1, 2, 3] emptyOpen := by
  refine (filewrite_all_or_nothing_iff (shareable_emptyOpen 0).opened rfl).mpr (.inr ?_)
  exact .inr (.inr (.inr ⟨by decide,by decide +kernel⟩))

/-- One byte more than a file can hold, written to an empty file. -/
theorem filewrite_stops_halfway :
    ¬ AllOrNothing .mkfs 0 2 (List.replicate (MAXFILE * BSIZE + 1) 0) emptyOpen := by
  have hopen := (shareable_emptyOpen 0).opened
  rintro ⟨r,k',hrun,hres⟩
  have hiff := (hopen.wp_filewrite (E := fun _ => True) rfl fun _ => trivial).of_ok hrun
  rw [length_replicate] at hiff
  rcases hiff.mp hres with hw | hn | hoff | hfirst | hall
  · cases hw
  · cases hn
  · exact absurd hoff (Nat.not_lt_zero _)
  · exact absurd hfirst (by decide)
  · exact absurd hall.1 (by decide)

end Xv6Container.Kernel
