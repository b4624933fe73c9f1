import Xv6Container.Kernel.Paths

/-! # A directory as a map -/

namespace Xv6Container.Fs

open Prog Run Option

/-- A change of a directory. -/
inductive DirOp where
  | link (name : Name) (inum : ℕ)
  | unlink (name : Name)

/-- How `sys_unlink` removes an entry: zeros go to the offset that `dirlookup` has reported. -/
def removeName (sb : Superblock) (dp : ISlot) (name : Name) : M Bool := do
  let found ← dirlookup sb dp name
  match found with
  | none => pure false
  | some (ip, off) => do
    let r ← writei sb dp Dirent.zero.encode off
    if r = some 16 then do
      iput ip
      pure true
    else stop (.panic "unlink: writei")

def DirOp.run (sb : Superblock) (dp : ISlot) : DirOp → M Bool
  | .link name inum => dirlink sb dp name inum
  | .unlink name => removeName sb dp name

def dirStep (sb : Superblock) (dp : ISlot) (s : State) (op : DirOp) : Option State :=
  (result (op.run sb dp) s).map Prod.snd

variable {sb : Superblock} {s t : State} {T : Tree} {H : Set (ISlot × ℕ)} {x : Node} {c : ISlot}
  {d i j k : ℕ} {name m : Name} {ops : List DirOp} {op : DirOp}

namespace Node

/-- What `dirlookup` finds under a name: the offset of the entry, and its inode. -/
def entry (x : Node) (name : Name) : Option (ℕ × ℕ) :=
  (x.find name).map fun k => (16 * k, (x.dirent k).inum)

/-- No two entries in use have the same name. -/
def Unique (x : Node) : Prop :=
  ∀ j k, j < x.slots → k < x.slots → (x.dirent j).inum ≠ 0 → (x.dirent k).inum ≠ 0 →
    (x.dirent j).name = (x.dirent k).name → j = k

theorem Unique.find_iff (h : x.Unique) : x.find m = some k ↔
    k < x.slots ∧ (x.dirent k).inum ≠ 0 ∧ (x.dirent k).name = m := by
  refine ⟨fun hk => ?_,fun ⟨hk,h0,hname⟩ => ?_⟩
  · obtain ⟨hlt,h0,hname,-⟩ := find_eq_some.mp hk
    exact ⟨hlt,h0,hname⟩
  · refine find_eq_some.mpr ⟨hk,h0,hname,fun j hj hj0 hjname => ?_⟩
    exact hj.ne (h j k (hj.trans hk) hk hj0 h0 (hjname.trans hname.symm))

theorem Unique.addEntry (h : x.Unique) (hi : i < 2 ^ 16) (hname : x.find name = .none) :
    (x.addEntry name i).Unique := by
  have hnew : ∀ j, j < (x.addEntry name i).slots → ((x.addEntry name i).dirent j).inum ≠ 0 →
      ((x.addEntry name i).dirent j).name = name → j = x.freeSlot := by
    intro j hj h0 hjname
    by_contra hne
    rw [dirent_addEntry_of_ne hne] at h0 hjname
    exact find_eq_none.mp hname j ((lt_slots_addEntry.mp hj).resolve_left hne) h0 hjname
  have hself : ((x.addEntry name i).dirent x.freeSlot).name = name := by
    rw [dirent_addEntry_self hi]
  intro j k hj hk hj0 hk0 heq
  by_cases hjf : j = x.freeSlot
  · rw [hjf,hself] at heq
    rw [hjf,hnew k hk hk0 heq.symm]
  · by_cases hkf : k = x.freeSlot
    · rw [hkf,hself] at heq
      rw [hkf,hnew j hj hj0 heq]
    · rw [dirent_addEntry_of_ne hjf] at hj0 heq
      rw [dirent_addEntry_of_ne hkf] at hk0 heq
      exact h j k ((lt_slots_addEntry.mp hj).resolve_left hjf)
        ((lt_slots_addEntry.mp hk).resolve_left hkf) hj0 hk0 heq

theorem clear_iff (hk : k < x.slots) : j < (x.setDirent k Dirent.zero).slots ∧
    ((x.setDirent k Dirent.zero).dirent j).inum ≠ 0 ↔
    j ≠ k ∧ j < x.slots ∧ (x.dirent j).inum ≠ 0 := by
  rw [slots_setDirent hk]
  by_cases hj : j = k
  · rw [hj,dirent_setDirent_self (by decide)]
    simp [Dirent.zero]
  · rw [dirent_setDirent_of_ne hj]
    simp [hj]

theorem Unique.clear (h : x.Unique) (hk : k < x.slots) : (x.setDirent k Dirent.zero).Unique := by
  intro j j' hj hj' h0 h0' heq
  obtain ⟨hne,hlt,hj0⟩ := (clear_iff hk).mp ⟨hj,h0⟩
  obtain ⟨hne',hlt',hj0'⟩ := (clear_iff hk).mp ⟨hj',h0'⟩
  rw [dirent_setDirent_of_ne hne,dirent_setDirent_of_ne hne'] at heq
  exact h j j' hlt hlt' hj0 hj0' heq

theorem Unique.find_clear_iff (h : x.Unique) (hk : k < x.slots) :
    (x.setDirent k Dirent.zero).find m = some j ↔ j ≠ k ∧ x.find m = some j := by
  rw [(h.clear hk).find_iff,h.find_iff,← and_assoc,clear_iff hk]
  constructor
  · rintro ⟨⟨hne,hlt,h0⟩,hm⟩
    rw [dirent_setDirent_of_ne hne] at hm
    exact ⟨hne,hlt,h0,hm⟩
  · rintro ⟨hne,hlt,h0,hm⟩
    rw [dirent_setDirent_of_ne hne]
    exact ⟨⟨hne,hlt,h0⟩,hm⟩

theorem entry_congr {y : Node} (hfind : y.find m = x.find m)
    (hdirent : ∀ k, x.find m = some k → y.dirent k = x.dirent k) : y.entry m = x.entry m := by
  rw [entry,entry,hfind]
  cases hm : x.find m with
  | none => rfl
  | some k => rw [map_some,map_some,hdirent k hm]

theorem entry_addEntry_of_ne (hi : i < 2 ^ 16) (hm : m ≠ name) :
    (x.addEntry name i).entry m = x.entry m := by
  refine entry_congr (find_addEntry_of_ne hi hm.symm) fun k hk => ?_
  obtain ⟨hlt,h0,-⟩ := find_eq_some.mp hk
  exact dirent_addEntry_of_ne (ne_freeSlot hlt h0)

theorem entry_addEntry_self (hi : i < 2 ^ 16) (h0 : i ≠ 0) (hname : x.find name = .none) :
    (x.addEntry name i).entry name = some (16*x.freeSlot, i) := by
  rw [entry,find_addEntry_self hi h0 hname,map_some,dirent_addEntry_self hi]

theorem Unique.entry_clear_self (h : x.Unique) (hk : x.find name = some k) :
    (x.setDirent k Dirent.zero).entry name = .none := by
  rw [entry,map_eq_none_iff,eq_none_iff_forall_ne_some]
  intro j hj
  obtain ⟨hne,hj⟩ := (h.find_clear_iff (h.find_iff.mp hk).1).mp hj
  rw [hk] at hj
  exact hne (some.inj hj).symm

theorem Unique.entry_clear_of_ne (h : x.Unique) (hk : x.find name = some k) (hm : m ≠ name) :
    (x.setDirent k Dirent.zero).entry m = x.entry m := by
  obtain ⟨hlt,-,hname⟩ := h.find_iff.mp hk
  have hne : ∀ j, x.find m = some j → j ≠ k := by
    rintro j hj rfl
    exact hm ((h.find_iff.mp hj).2.2.symm.trans hname)
  refine entry_congr (Option.ext fun j => ?_) fun j hj => dirent_setDirent_of_ne (hne j hj)
  rw [h.find_clear_iff hlt]
  exact ⟨And.right,fun hj => ⟨hne j hj,hj⟩⟩

theorem addEntry_size (hk : k < x.slots) (h0 : (x.dirent k).inum = 0) :
    (x.addEntry name i).size = x.size := by
  have hlt : x.freeSlot < x.slots := by
    rw [freeSlot]
    cases hf : (List.range x.slots).find? fun k => (x.dirent k).inum = 0 with
    | none => exact absurd h0 (by simpa using List.find?_eq_none.mp hf k (List.mem_range.mpr hk))
    | some j => exact List.mem_range.mp (List.mem_of_find?_eq_some hf)
  rw [slots] at hlt
  rw [addEntry,setDirent_size]
  omega

end Node

/-- What a call is to do to the directory `x`, and what it is to return. -/
def DirOp.Does (x : Node) (r : Bool) (y : Node) : DirOp → Prop
  | .link name inum =>
    if x.entry name = none then
      r = true ∧ (∃ off, y.entry name = some (off, inum)) ∧
        (∀ m, m ≠ name → y.entry m = x.entry m) ∧
        ((∃ k < x.slots, (x.dirent k).inum = 0) → y.size = x.size)
    else r = false ∧ y = x
  | .unlink name =>
    r = (x.entry name).isSome ∧ y.entry name = none ∧ ∀ m, m ≠ name → y.entry m = x.entry m

/-- The call can be done: blocks are free, the entry under the name is not the directory itself, and
a new one fits. -/
def DirOp.Fits (sb : Superblock) (d : ℕ) (s : State) : DirOp → Prop
  | .link name inum => 2 ≤ freeBlocks sb s ∧ inum ≠ 0 ∧ inum < 2 ^ 16 ∧
      ((node s d).entry name).map Prod.snd ≠ some d ∧
      ((node s d).entry name = none → 16 * (node s d).freeSlot + 16 ≤ MAXFILE * BSIZE)
  | .unlink name => 2 ≤ freeBlocks sb s ∧ ((node s d).entry name).map Prod.snd ≠ some d

instance (sb : Superblock) (d : ℕ) (s : State) : ∀ op : DirOp, Decidable (op.Fits sb d s)
  | .link .. | .unlink .. => inferInstanceAs (Decidable (_ ∧ _))

/-- The directory `d` of the tree, which is locked, is `x`. -/
structure DirRep (sb : Superblock) (T : Tree) (H : Set (ISlot × ℕ)) (d : ℕ) (x : Node) (s : State) :
    Prop where
  rep : Rep sb s (T.setNode d x) {d} H
  dir : x.type = .dir
  whole : 16 ∣ x.size
  unique : x.Unique

namespace DirRep

variable (h : DirRep sb T H d x s)
include h

theorem node_eq : node s d = x := by
  rw [h.rep.node,Tree.setNode_self]

theorem calm (hroom : T.Room 1) (hdirs : ∀ e, (T.node e).type = .dir → 16 ∣ (T.node e).size) :
    Calm (fun _ => False) (T.setNode d x) 1 := by
  refine ⟨.inr hroom,.inr fun e he => ?_⟩
  by_cases hed : e = d
  · rw [hed,Tree.setNode_self]
    exact h.whole
  · rw [Tree.setNode_of_ne _ hed] at he ⊢
    exact hdirs e he

omit h in
theorem inum_ne (hself : (x.entry name).map Prod.snd ≠ some d) (hk : x.find name = some k) :
    (x.dirent k).inum ∉ ({d} : Finset ℕ) := by
  intro hd
  apply hself
  rw [Node.entry,hk,map_some,map_some,Finset.mem_singleton.mp hd]

variable (hc : (c, d) ∈ H) (hcalm : Calm (fun _ => False) (T.setNode d x) 1)
include hc hcalm

theorem wp_dirlink (hfits : (DirOp.link name i).Fits sb d s) :
    wp (fun _ => False) (dirlink sb c name i) s fun r t =>
      ∃ y, DirRep sb T H d y t ∧ (DirOp.link name i).Does x r y := by
  obtain ⟨hblocks,h0,hi,hself,hfull⟩ := hfits
  rw [h.node_eq] at hself hfull
  have hself' : (T.setNode d x).node d = x := Tree.setNode_self x
  refine (h.rep.dirlink hcalm (.inr hblocks) hc (Finset.mem_singleton_self d)
    (by rw [hself']; exact h.dir) name i (fun k hk => ?_) fun hnone hmax => ?_).mono fun r t ht => ?_
  · rw [hself'] at hk ⊢
    exact inum_ne hself hk
  · rw [hself'] at hnone hmax
    have := hfull (by rw [Node.entry,hnone,map_none])
    omega
  rw [hself'] at ht
  split at ht
  · next k hk =>
    refine ⟨x,⟨ht.2,h.dir,h.whole,h.unique⟩,?_⟩
    rw [DirOp.Does,if_neg (by rw [Node.entry,hk]; nofun)]
    exact ⟨ht.1,rfl⟩
  · next hk =>
    obtain ⟨hr,ht⟩ := ht
    rw [Tree.setNode_setNode] at ht
    refine ⟨x.addEntry name i,⟨ht,h.dir,?_,h.unique.addEntry hi hk⟩,?_⟩
    · have := h.whole
      rw [Node.addEntry,Node.setDirent_size]
      omega
    · rw [DirOp.Does,if_pos (by rw [Node.entry,hk]; rfl)]
      refine ⟨hr,⟨_,Node.entry_addEntry_self hi h0 hk⟩,
        fun m hm => Node.entry_addEntry_of_ne hi hm,?_⟩
      rintro ⟨k,hk,hfree⟩
      exact Node.addEntry_size hk hfree

theorem wp_removeName (hfits : (DirOp.unlink name).Fits sb d s) :
    wp (fun _ => False) (removeName sb c name) s fun r t =>
      ∃ y, DirRep sb T H d y t ∧ (DirOp.unlink name).Does x r y := by
  obtain ⟨hblocks,hself⟩ := hfits
  rw [h.node_eq] at hself
  have hself' : (T.setNode d x).node d = x := Tree.setNode_self x
  have hmem := Finset.mem_singleton_self d
  rw [removeName]
  refine (h.rep.dirlookup hcalm hc hmem (by rw [hself']; exact h.dir) name).bind ?_
  rw [hself']
  rintro r t (⟨rfl,hk,rfl⟩ | ⟨k,c',j,rfl,hk,hj,hbits,ht⟩)
  · refine ⟨x,h,?_⟩
    rw [DirOp.Does,Node.entry,hk]
    exact ⟨rfl,rfl,fun _ _ => rfl⟩
  obtain ⟨hlt,-,-⟩ := h.unique.find_iff.mp hk
  have hne := hj ▸ inum_ne hself hk
  set y := x.setDirent k Dirent.zero with hy
  have hjd : j ≠ d := fun hjd => hne (Finset.mem_singleton.mpr hjd)
  have hsize : x.size ≤ 71680 := by
    have := h.rep.size_le (i := d) (by rw [hself',h.dir]; decide)
    rwa [hself'] at this
  have hin : 16 * k + 16 ≤ x.size := by
    rw [Node.slots] at hlt
    omega
  have hone : (places (16*k) Dirent.zero.encode.length).card ≤ freeBlocks sb t := by
    rw [freeBlocks,hbits]
    exact (Dirent.card_places_entry k _).trans hblocks
  refine (ht.writei (.inr hone) (Set.mem_insert_of_mem _ hc) hmem
    (by rw [Tree.get_node,hself',h.dir]; decide) (by omega) (by simp)).bind fun r u hu => ?_
  rw [Tree.get_node,hself',Dirent.encode_length,if_neg (by
    have hmax : MAXFILE * BSIZE = 71680 := rfl
    omega)] at hu
  obtain ⟨rfl,hu⟩ := hu
  have hsame : ((T.setNode d x).get j).setNode d (x.write (16*k) Dirent.zero.encode) =
      (T.setNode d y).get j := congrArg (Tree.get · j) (Tree.setNode_setNode x y)
  rw [hsame] at hu
  have horphan : (T.setNode d y).Orphan j → 0 < (T.setNode d y).refs j := by
    intro ho
    rw [Tree.Orphan,Tree.setNode_of_ne _ hjd] at ho
    exact h.rep.orphan_refs (i := j) (by rwa [Tree.Orphan,Tree.setNode_of_ne _ hjd])
  rw [if_pos rfl]
  refine (hu.iput_temp hne fun c'' hc'' => h.rep.refs_pos hc'').bind ?_
  rintro - v ⟨-,hv⟩
  rw [Tree.get_put horphan] at hv
  refine ⟨y,⟨hv,h.dir,?_,h.unique.clear hlt⟩,?_⟩
  · have := h.whole
    rw [hy,Node.setDirent_size]
    omega
  · refine ⟨?_,h.unique.entry_clear_self hk,fun m hm => h.unique.entry_clear_of_ne hk hm⟩
    rw [Node.entry,hk]
    rfl

theorem wp_run (hfits : op.Fits sb d s) : wp (fun _ => False) (op.run sb c) s fun r t =>
    ∃ y, DirRep sb T H d y t ∧ op.Does x r y := by
  cases op with
  | link name i => exact h.wp_dirlink hc hcalm hfits
  | unlink name => exact h.wp_removeName hc hcalm hfits

end DirRep

/-- In every run in which each call can be done, the names of the entries in use are different, and
the next such call does what it is to do to the directory, and nothing else. -/
theorem directory_is_map (h : DirRep sb T H d x s) (hc : (c, d) ∈ H) (hroom : T.Room 1)
    (hdirs : ∀ e, (T.node e).type = .dir → 16 ∣ (T.node e).size)
    (hok : Meets (dirStep sb c) (DirOp.Fits sb d) s ops)
    (hrun : exec (dirStep sb c) s ops = some t) :
    (node t d).Unique ∧ ∀ op : DirOp, op.Fits sb d t → ∃ r u, op.run sb c t = .ok (r, u) ∧
      op.Does (node t d) r (node u d) ∧ (∀ e, e ≠ d → node u e = node t e) ∧
      ∀ e, (cached u e).refs = (cached t e).refs := by
  have hinv : ∃ y, DirRep sb T H d y t := by
    refine exec_invariant_of_meets (I := fun s => ∃ y, DirRep sb T H d y s) ?_ ⟨x,h⟩ hok hrun
    rintro s op u ⟨y,hy⟩ hfits hstep
    obtain ⟨r,v,hv,z,hz,-⟩ := (hy.wp_run hc (hy.calm hroom hdirs) hfits).returns
    rw [dirStep,result,hv] at hstep
    obtain rfl := some.inj hstep
    exact ⟨z,hz⟩
  obtain ⟨y,hy⟩ := hinv
  rw [hy.node_eq]
  refine ⟨hy.unique,fun op hfits => ?_⟩
  obtain ⟨r,u,hu,z,hz,hdoes⟩ := (hy.wp_run hc (hy.calm hroom hdirs) hfits).returns
  refine ⟨r,u,hu,by rw [hz.node_eq]; exact hdoes,fun e he => ?_,fun e => ?_⟩
  · rw [hz.rep.node,hy.rep.node,Tree.setNode_of_ne _ he,Tree.setNode_of_ne _ he]
  · rw [hz.rep.refs,hy.rep.refs]
    rfl

/-- The first process has locked the root directory. -/
def lockedRoot : Option State :=
  (result (ilock Kernel.rootSlot) (Kernel.boot mkfs).fs).map Prod.snd

def enterAndRemove : List DirOp := [.link (.ofBytes [97]) 2, .unlink (.ofBytes [97])]

/-- Then it can be entered again. -/
theorem directory_is_map_again : ∃ s t u, lockedRoot = some s ∧
    exec (dirStep .mkfs Kernel.rootSlot) s enterAndRemove = some t ∧
    dirlink .mkfs Kernel.rootSlot (.ofBytes [97]) 3 t = .ok (true, u) ∧
    ∃ off, (node u ROOTINO).entry (.ofBytes [97]) = some (off, 3) := by
  have hrun : (lockedRoot.bind fun s =>
      (exec (dirStep .mkfs Kernel.rootSlot) s enterAndRemove).map fun t =>
      (decide (Meets (dirStep .mkfs Kernel.rootSlot) (DirOp.Fits .mkfs ROOTINO) s enterAndRemove),
      decide ((DirOp.link (.ofBytes [97]) 3).Fits .mkfs ROOTINO t),
      (node t ROOTINO).entry (.ofBytes [97]))) = some (true, true, none) := by decide +kernel
  obtain ⟨s,hs,hnext⟩ := bind_eq_some_iff.mp hrun
  obtain ⟨t,ht,hval⟩ := map_eq_some_iff.mp hnext
  simp only [Prod.mk.injEq,decide_eq_true_eq] at hval
  obtain ⟨hok,hfits,hnone⟩ := hval
  obtain ⟨_,s',hlock,-,-,hrep⟩ := (Kernel.goodDisk_mkfs.krep.rep.ilock (E := fun _ => False)
    nofun cwd_boot fun _ => by decide).returns
  obtain rfl : s' = s := by
    rw [lockedRoot,result,hlock] at hs
    exact some.inj hs
  have hdistinct : ∀ j < 32, ∀ k < 32, ((node mkfs ROOTINO).dirent j).inum ≠ 0 →
      ((node mkfs ROOTINO).dirent k).inum ≠ 0 →
      ((node mkfs ROOTINO).dirent j).name = ((node mkfs ROOTINO).dirent k).name → j = k := by
    decide +kernel
  have hdir : DirRep .mkfs (treeOf (Kernel.boot mkfs).fs)
      ((Kernel.boot mkfs).held (Kernel.boot mkfs).viewOf []) ROOTINO (node mkfs ROOTINO) s' := by
    refine ⟨?_,rfl,by decide,fun j k hj hk => hdistinct j hj k hk⟩
    have hsame : (treeOf (Kernel.boot mkfs).fs).setNode ROOTINO (node mkfs ROOTINO) =
        treeOf (Kernel.boot mkfs).fs := Tree.ext (Function.update_eq_self _ _) rfl
    rw [hsame]
    exact hrep
  obtain ⟨r,u,hu,hdoes,-⟩ := (directory_is_map hdir cwd_boot (room_boot.mono one_le_two)
    dirs_mkfs hok ht).2 _ hfits
  rw [DirOp.Does,if_pos hnone] at hdoes
  obtain ⟨rfl,hnew,-⟩ := hdoes
  exact ⟨s',t,u,hs,ht,hu,hnew⟩

/-- The entry `.` is the directory itself, for whose lock `dirlink` waits. -/
theorem dirlink_waits_for_itself : ∃ s, lockedRoot = some s ∧
    (node s ROOTINO).entry Name.dot = some (0, ROOTINO) ∧
    reason (dirlink .mkfs Kernel.rootSlot Name.dot 2) s = some .blocked := by
  have hrun : lockedRoot.map (fun s => ((node s ROOTINO).entry Name.dot,
      reason (dirlink .mkfs Kernel.rootSlot Name.dot 2) s)) =
      some (some (0, ROOTINO), some .blocked) := by decide +kernel
  obtain ⟨s,hs,hval⟩ := map_eq_some_iff.mp hrun
  exact ⟨s,hs,(Prod.mk.inj hval).1,(Prod.mk.inj hval).2⟩

end Xv6Container.Fs
