import Xv6Container.Fs.Calls
import Xv6Container.Fs.Walk

/-!
# What the calls on names do

Each call that changes directories is one change of the tree, between references that it takes
and gives back. When a call fails the tree is as before.
-/

namespace Xv6Container.Fs

open Prog Finset

variable {sb : Superblock} {s t : State} {c : ISlot} {d i j k : ℕ} {E : Stop → Prop}
  {T : Tree} {L : Finset ℕ} {H : Set (ISlot × ℕ)} {x : Node} {name m : Name}
  {type : FType} {major minor : Int16} {cwd : Option ISlot} {w : ℕ}

namespace Node

def addLinks (x : Node) (n : Int16) : Node := { x with nlink := x.nlink + n }

def made (type : FType) (major minor : Int16) : Node := ⟨type, major, minor, 1, 0, fun _ => 0⟩

/-- The new node number `i` of `create`, a directory with entries for itself and for its parent
`d`. -/
def new (type : FType) (major minor : Int16) (i d : ℕ) : Node :=
  if type = .dir then ((made type major minor).addEntry Name.dot i).addEntry Name.dotdot d
  else made type major minor

@[simp] theorem addLinks_type (n : Int16) : (x.addLinks n).type = x.type := rfl

@[simp] theorem addLinks_find (n : Int16) : (x.addLinks n).find name = x.find name := rfl

theorem addLinks_neg (n : Int16) : (x.addLinks n).addLinks (-n) = x := by
  have h : x.nlink + n + -n = x.nlink := by rw [Int16.add_assoc,Int16.add_right_neg,Int16.add_zero]
  rw [addLinks,addLinks]
  simp only [h]

@[simp] theorem addEntry_type : (x.addEntry name i).type = x.type := rfl

@[simp] theorem addEntry_nlink : (x.addEntry name i).nlink = x.nlink := rfl

@[simp] theorem setDirent_type {e : Dirent} : (x.setDirent k e).type = x.type := rfl

@[simp] theorem setDirent_nlink {e : Dirent} : (x.setDirent k e).nlink = x.nlink := rfl

theorem dirent_addEntry_self (hi : i < 2 ^ 16) :
    (x.addEntry name i).dirent x.freeSlot = ⟨i, name⟩ := dirent_setDirent_self hi

theorem dirent_addEntry_of_ne (h : k ≠ x.freeSlot) :
    (x.addEntry name i).dirent k = x.dirent k := dirent_setDirent_of_ne h

theorem slots_addEntry : (x.addEntry name i).slots = max x.slots (x.freeSlot+1) := by
  rw [addEntry,slots,setDirent_size,slots]
  omega

theorem lt_slots_addEntry : k < (x.addEntry name i).slots ↔ k = x.freeSlot ∨ k < x.slots := by
  have := x.freeSlot_le
  rw [slots_addEntry]
  omega

theorem ne_freeSlot (hk : k < x.slots) (h0 : (x.dirent k).inum ≠ 0) : k ≠ x.freeSlot := by
  rintro rfl
  exact h0 (freeSlot_inum hk)

theorem find_addEntry_of_ne (hi : i < 2 ^ 16) (hne : name ≠ m) :
    (x.addEntry name i).find m = x.find m := by
  have hmatch : ∀ k, k < (x.addEntry name i).slots → ((x.addEntry name i).dirent k).inum ≠ 0 →
      ((x.addEntry name i).dirent k).name = m →
      k < x.slots ∧ (x.addEntry name i).dirent k = x.dirent k := by
    intro k hk h0 hname
    by_cases hf : k = x.freeSlot
    · rw [hf,dirent_addEntry_self hi] at hname
      exact absurd hname hne
    · exact ⟨(lt_slots_addEntry.mp hk).resolve_left hf,dirent_addEntry_of_ne hf⟩
  cases hm : x.find m with
  | none =>
    rw [find_eq_none] at hm ⊢
    intro k hk h0 hname
    obtain ⟨hlt,heq⟩ := hmatch k hk h0 hname
    rw [heq] at h0 hname
    exact hm k hlt h0 hname
  | some k =>
    obtain ⟨hk,h0,hname,hfirst⟩ := find_eq_some.mp hm
    have heq : (x.addEntry name i).dirent k = x.dirent k := dirent_addEntry_of_ne (ne_freeSlot hk h0)
    refine find_eq_some.mpr ⟨lt_slots_addEntry.mpr (.inr hk),by rw [heq]; exact h0,
      by rw [heq]; exact hname,fun j hj h0' hname' => ?_⟩
    have hlt : j < (x.addEntry name i).slots := lt_slots_addEntry.mpr (.inr (hj.trans hk))
    obtain ⟨-,heq'⟩ := hmatch j hlt h0' hname'
    rw [heq'] at h0' hname'
    exact hfirst j hj h0' hname'

theorem find_addEntry_self (hi : i < 2 ^ 16) (h0 : i ≠ 0) (hm : x.find name = .none) :
    (x.addEntry name i).find name = some x.freeSlot := by
  rw [find_eq_none] at hm
  refine find_eq_some.mpr ⟨lt_slots_addEntry.mpr (.inl rfl),?_,?_,fun j hj h0' => ?_⟩
  · rw [dirent_addEntry_self hi]
    exact h0
  · rw [dirent_addEntry_self hi]
  · rw [dirent_addEntry_of_ne hj.ne] at h0' ⊢
    exact hm j (hj.trans_le x.freeSlot_le) h0'

theorem made_find : (made type major minor).find m = .none := by
  have h0 : (made type major minor).slots = 0 := Nat.zero_div 16
  rw [find_eq_none,h0]
  exact fun k hk => absurd hk (Nat.not_lt_zero k)

theorem new_type : (new type major minor i d).type = type := by
  rw [new]
  split <;> rfl

end Node

namespace Tree

/-- A new node `i` with an entry in `d`. -/
def create (T : Tree) (d : ℕ) (name : Name) (i : ℕ) (type : FType) (major minor : Int16) :
    Tree :=
  (T.setNode i (Node.new type major minor i d)).setNode d
    ((if type = .dir then (T.node d).addLinks 1 else T.node d).addEntry name i)

def link (T : Tree) (d : ℕ) (name : Name) (i : ℕ) : Tree :=
  (T.setNode i ((T.node i).addLinks 1)).setNode d ((T.node d).addEntry name i)

/-- The directory after its entry `k`, for a node of the given type, is gone. -/
def unlinked (x : Node) (k : ℕ) (type : FType) : Node :=
  if type = .dir then (x.setDirent k Dirent.zero).addLinks (-1) else x.setDirent k Dirent.zero

/-- Entry `k` of `d`, which refers to node `i`, is taken away. -/
def unlink (T : Tree) (d k i : ℕ) : Tree :=
  (T.setNode d (unlinked (T.node d) k (T.node i).type)).setNode i ((T.node i).addLinks (-1))

theorem setNode_setNode (x y : Node) : (T.setNode i x).setNode i y = T.setNode i y := by
  simp [setNode]

theorem setNode_comm (x y : Node) (h : i ≠ j) :
    (T.setNode i x).setNode j y = (T.setNode j y).setNode i x := by
  simp only [setNode,Function.update_comm h]

@[simp] theorem setNode_node_self : T.setNode i (T.node i) = T := by
  simp [setNode]

end Tree

theorem Rep.addLinks (h : Rep sb s T L H) (hc : (c, i) ∈ H) (hi : i ∈ L) (n : Int16) :
    wp E (Fs.addLinks c n) s fun _ t => Rep sb t (T.setNode i ((T.node i).addLinks n)) L H := by
  refine (h.setFields hc hi (fun d => { d with nlink := d.nlink + n }) (fun _ => rfl) (fun _ => rfl)
    fun _ => rfl).mono ?_
  rintro - t ⟨d,h1,h2,h3,ht⟩
  rw [Node.addLinks,h3]
  rwa [← h1,← h2] at ht

namespace Rep

theorem linkDots {c' : ISlot} (h : Rep sb s T L H) (hE : Lax E) (hc : (c, i) ∈ H) (hi : i ∈ L)
    (hd : (c', d) ∈ H) (hdir : type = .dir) (hnode : T.node i = Node.made type major minor)
    (hlt : i < 2 ^ 16) :
    wp E (Fs.linkDots sb c c') s fun _ t =>
      Rep sb t (T.setNode i (Node.new type major minor i d)) L H := by
  have hmade : (T.node i).type = .dir := by rw [hnode]; exact hdir
  rw [Fs.linkDots,wp_bind,wp_read,wp_bind,wp_read,(h.slot hc).inum,(h.slot hd).inum]
  refine (h.dirlink hE.calm (.inl hE.balloc) hc hi hmade Name.dot i (fun _ _ _ => hE.blocked)
    fun _ _ => hE.dirlink).bind fun r t ht => ?_
  rw [hnode,Node.made_find] at ht
  obtain ⟨rfl,ht⟩ := ht
  have hself : (T.setNode i ((Node.made type major minor).addEntry Name.dot i)).node i = _ :=
    Tree.setNode_self _
  simp only [if_true]
  refine (ht.dirlink hE.calm (.inl hE.balloc) hc hi (by rw [hself]; exact hdir) Name.dotdot d
    (fun _ _ _ => hE.blocked) fun _ _ => hE.dirlink).bind fun r u hu => ?_
  rw [hself,Node.find_addEntry_of_ne hlt (by decide),Node.made_find] at hu
  obtain ⟨rfl,hu⟩ := hu
  simp only [if_true,wp_pure]
  rw [Node.new,if_pos hdir]
  rwa [Tree.setNode_setNode] at hu

theorem createNew (h : Rep sb s (T.get d) {d} (insert (c, d) H)) (hE : Lax E)
    (hdir : (T.node d).type = .dir) (hfind : (T.node d).find name = none) (htype : type ≠ .free)
    (hH : ∀ c', (c', d) ∈ H → 0 < T.refs d) :
    wp E (Fs.createNew sb c name type major minor) s fun r t => ∃ i, 0 < i ∧ i < sb.ninodes ∧
      (T.node i).type = .free ∧ freeInode sb T.node = some i ∧
      Rep sb t ((((T.get d).create d name i type major minor).get i).put d) {i}
        (insert (r, i) H) := by
  rw [Fs.createNew]
  refine h.ialloc_ilock hE htype fun c' i t h0 hlt hfree hfirst hid ht => ?_
  have hid : i ≠ d := fun e => hid (mem_singleton.mpr e)
  have hlt16 : i < 2 ^ 16 := lt_of_lt_of_le hlt sb.ninodes_le
  have hci : (c', i) ∈ insert (c', i) (insert (c, d) H) := Set.mem_insert _ _
  have hcd : (c, d) ∈ insert (c', i) (insert (c, d) H) :=
    Set.mem_insert_of_mem _ (Set.mem_insert _ _)
  have hiL : i ∈ insert i ({d} : Finset ℕ) := mem_insert_self _ _
  have hdL : d ∈ insert i ({d} : Finset ℕ) :=
    mem_insert_of_mem (mem_singleton_self d)
  refine wp.bind_bind (ht.setFields hci hiL
    (fun d => { d with major := major, minor := minor, nlink := 1 }) (fun _ => rfl) (fun _ => rfl)
    fun _ => rfl) ?_
  rintro - t1 ⟨_,-,-,-,ht1⟩
  set B := (T.get d).get i with hB
  have hBd : B.node d = T.node d := rfl
  have hnode1 : (((T.get d).setNode i (Node.fresh type)).get i).node i = Node.fresh type :=
    Tree.setNode_self _
  have htree1 : ((T.get d).setNode i (Node.fresh type)).get i = B.setNode i (Node.fresh type) :=
    rfl
  rw [hnode1,htree1,Tree.setNode_setNode] at ht1
  change Rep sb t1 (B.setNode i (Node.made type major minor)) _ _ at ht1
  set D := if type = .dir then (T.node d).addLinks 1 else T.node d with hD
  have hDfind : D.find name = none := by
    rw [hD]
    split
    · exact hfind
    · exact hfind
  have hDdir : D.type = .dir := by
    rw [hD]
    split
    · exact hdir
    · exact hdir
  -- the node is complete, and the parent has its link count
  have hdots : wp E (createDots sb type c' c) t1 fun _ u =>
      Rep sb u ((B.setNode i (Node.new type major minor i d)).setNode d D)
        (insert i {d}) (insert (c', i) (insert (c, d) H)) := by
    refine wp_ite (fun hd => ?_) fun hd => ?_
    · refine (ht1.addLinks hcd hdL 1).bind ?_
      rintro - u hu
      rw [Tree.setNode_of_ne _ hid.symm,hBd] at hu
      have hmade : ((B.setNode i (Node.made type major minor)).setNode d
          ((T.node d).addLinks 1)).node i = Node.made type major minor := by
        rw [Tree.setNode_of_ne _ hid,Tree.setNode_self]
      refine (hu.linkDots hE hci hiL hcd hd hmade hlt16).mono ?_
      rintro - v hv
      rw [hD,if_pos hd]
      rwa [Tree.setNode_comm _ _ hid,Tree.setNode_setNode,← Tree.setNode_comm _ _ hid] at hv
    · rw [wp_pure,hD,if_neg hd,Node.new,if_neg hd]
      have : (B.setNode i (Node.made type major minor)).setNode d (T.node d) =
          B.setNode i (Node.made type major minor) := by
        rw [← hBd,← Tree.setNode_of_ne (T := B) (Node.made type major minor) hid.symm]
        exact Tree.setNode_node_self
      rwa [this]
  refine hdots.bind ?_
  rintro - u hu
  rw [wp_bind,wp_read,(hu.slot hci).inum]
  have hnode : ((B.setNode i (Node.new type major minor i d)).setNode d D).node d = D :=
    Tree.setNode_self _
  refine (hu.dirlink hE.calm (.inl hE.balloc) hcd hdL (by rw [hnode]; exact hDdir) name i
    (fun _ _ _ => hE.blocked) fun _ _ => hE.dirlink).bind fun r v hv => ?_
  rw [hnode,hDfind,Tree.setNode_setNode] at hv
  obtain ⟨rfl,hv⟩ := hv
  simp only [if_true]
  have hsub : insert (c', i) H ⊆ insert (c', i) (insert (c, d) H) :=
    Set.insert_subset_insert (Set.subset_insert _ _)
  refine (hv.iunlockput (fun _ => hE.iunlock) hcd hsub fun c'' hc'' => ?_).bind ?_
  · have hmem : (c'', d) ∈ H := hc''.resolve_left fun e => hid (Prod.mk.inj e).2.symm
    have := hH c'' hmem
    show 1 < B.refs d
    rw [hB,Tree.get_refs_of_ne hid.symm,Tree.get_refs_self]
    omega
  rintro - v hv
  refine ⟨i,h0,hlt,hfree,hfirst,?_⟩
  have herase : (insert i ({d} : Finset ℕ)).erase d = {i} := by
    ext j
    simp only [mem_erase,mem_insert,mem_singleton]
    exact ⟨fun hj => hj.2.resolve_right hj.1,fun hj => ⟨hj ▸ hid,.inl hj⟩⟩
  rw [herase] at hv
  exact hv

theorem leave (h : Rep sb s (T.get i) {i} (insert (c, i) H)) (hE : Lax E)
    (hT : T.Orphan i → 0 < T.refs i) (hH : ∀ c', (c', i) ∈ H → 0 < T.refs i) :
    wp E (Fs.iunlockput c) s fun _ t => Rep sb t T ∅ H := by
  refine (h.iunlockput (fun _ => hE.iunlock) (Set.mem_insert _ _) (Set.subset_insert _ _) fun c' hc' => ?_).mono ?_
  · have := hH c' hc'
    rw [Tree.get_refs_self]
    omega
  · rintro - t ht
    rwa [Tree.get_put hT,erase_singleton] at ht

theorem ilock_first (h : Rep sb s T ∅ H) (hE : Lax E) (hc : (c, i) ∈ H)
    (htype : ¬ E (.panic "ilock: no type") → (T.node i).type ≠ .free) :
    wp E (Fs.ilock c) s fun _ t => (T.node i).type ≠ .free ∧ Rep sb t T {i} H :=
  (h.ilock (fun _ => hE.blocked) hc htype).mono fun _ _ ⟨_,hal,ht⟩ => ⟨hal,ht⟩

/-- No inode of this type can be made under the path: it has no directory, or it names something,
and not a file where a file is wanted. -/
def Taken (T : Tree) (w : ℕ) (path : Path) (type : FType) : Prop :=
  ∀ d name, resolveParent T.node w path = some (d, name) → ∃ k, (T.node d).find name = some k ∧
    (type = .file → (T.node ((T.node d).dirent k).inum).type ≠ .file)

theorem create (h : Rep sb s T ∅ H) (hE : Lax E) (hcwd : ∀ c, cwd = some c → (c, w) ∈ H)
    (hs : ¬ E (.panic "ilock: no type") → T.Closed) (path : Path) (htype : type ≠ .free) :
    wp E (Fs.create sb cwd path type major minor) s fun r t =>
      (r = none ∧ Taken T w path type ∧ Rep sb t T ∅ H) ∨
      ∃ c d name, resolveParent T.node w path = some (d, name) ∧ r = some c ∧
        ((∃ k i, (T.node d).find name = some k ∧ i = ((T.node d).dirent k).inum ∧ type = .file ∧
          (T.node i).type = .file ∧ Rep sb t (T.get i) {i} (insert (c, i) H)) ∨
        ∃ i, (T.node d).find name = none ∧ 0 < i ∧ i < sb.ninodes ∧ (T.node i).type = .free ∧
          freeInode sb T.node = some i ∧
          Rep sb t ((((T.get d).create d name i type major minor).get i).put d) {i}
            (insert (c, i) H)) := by
  rw [Fs.create]
  refine (h.nameiparent hE.calm (fun _ => hE.wild) hcwd hs path).bind ?_
  rintro r t (⟨rfl,hp,ht⟩ | ⟨c,d,name,rfl,hp,ht⟩)
  · exact .inl ⟨rfl,fun d name hp' => absurd (hp.symm.trans hp') (by simp),ht⟩
  have hdir : (T.node d).type = .dir := walkParent_dir hp
  have hcd : (c, d) ∈ insert (c, d) H := Set.mem_insert _ _
  refine (ht.ilock_first hE hcd fun _ => by rw [Tree.get_node,hdir]; decide).bind ?_
  rintro - u ⟨-,hu⟩
  refine (hu.dirlookup hE.calm hcd (mem_singleton_self d) hdir name).bind ?_
  rintro r v (⟨rfl,hfind,rfl⟩ | ⟨k,c',i,rfl,hfind,hi,-,hv⟩)
  · refine (hu.createNew hE hdir hfind htype fun _ hc' => h.refs_pos hc').bind ?_
    rintro c' v ⟨i,hi⟩
    exact .inr ⟨c',d,name,hp,rfl,.inr ⟨i,hfind,hi⟩⟩
  rw [Tree.get_node] at hfind hi
  have hci : (c', i) ∈ insert (c', i) H := Set.mem_insert _ _
  have hsub : insert (c', i) H ⊆ insert (c', i) (insert (c, d) H) :=
    Set.insert_subset_insert (Set.subset_insert _ _)
  refine (hv.iunlockput (fun _ => hE.iunlock) (Set.mem_insert_of_mem _ hcd) hsub
    fun _ => one_lt_refs fun hc' => h.refs_pos hc').bind ?_
  rintro - v hv
  rw [Tree.get_get_put h.orphan_refs,erase_singleton] at hv
  have hal : ¬ E (.panic "ilock: no type") → ((T.get i).node i).type ≠ .free := fun hno =>
    hi ▸ (hs hno).sound.find hdir hfind
  refine (hv.ilock_first hE hci hal).bind ?_
  rintro - u' ⟨-,hu'⟩
  rw [wp_bind,wp_read,(hu'.copy hci (mem_singleton_self i)).1,Tree.get_node]
  refine wp_ite (fun hfile => ?_) fun hfile => ?_
  · exact .inr ⟨c',d,name,hp,rfl,.inl ⟨k,i,hfind,hi,hfile.1,hfile.2,hu'⟩⟩
  refine (hu'.leave hE h.orphan_refs fun _ hc'' => h.refs_pos hc'').bind ?_
  rintro - v' hv'
  refine .inl ⟨rfl,fun d' name' hp' => ?_,hv'⟩
  obtain ⟨rfl,rfl⟩ := Prod.mk.inj (Option.some.inj (hp.symm.trans hp'))
  exact ⟨k,hfind,fun hf ht => hfile ⟨hf,hi ▸ ht⟩⟩

theorem sysMake (h : Rep sb s T ∅ H) (hE : Lax E) (hcwd : ∀ c, cwd = some c → (c, w) ∈ H)
    (hs : ¬ E (.panic "ilock: no type") → T.Closed) (path : Path) (htype : type ≠ .free)
    (hfile : type ≠ .file) :
    wp E (Fs.sysMake sb cwd path type major minor) s fun _ t =>
      Rep sb t T ∅ H ∨ ∃ d name i, resolveParent T.node w path = some (d, name) ∧
        (T.node d).find name = none ∧ 0 < i ∧ i < sb.ninodes ∧ (T.node i).type = .free ∧
        Rep sb t (((((T.get d).create d name i type major minor).get i).put d).put i) ∅ H := by
  rw [Fs.sysMake]
  refine (h.create hE hcwd hs path htype).bind ?_
  rintro r t (⟨rfl,-,ht⟩ | ⟨c,d,name,hp,rfl,⟨k,i,-,-,hf,-⟩ | ⟨i,hfind,h0,hlt,hfree,-,ht⟩⟩)
  · exact .inl ht
  · exact absurd hf hfile
  have hdir : (T.node d).type = .dir := walkParent_dir hp
  have hid : i ≠ d := by
    rintro rfl
    rw [hdir] at hfree
    exact absurd hfree (by decide)
  refine (ht.iunlockput (fun _ => hE.iunlock) (Set.mem_insert _ _) (Set.subset_insert _ _)
    fun c' hc' => ?_).bind ?_
  · have := h.refs_pos hc'
    rw [Tree.put_refs_of_ne hid,Tree.get_refs_self]
    show 1 < (T.get d).refs i + 1
    rw [Tree.get_refs_of_ne hid]
    omega
  · rintro - u hu
    rw [erase_singleton] at hu
    exact .inr ⟨d,name,i,hp,hfind,h0,hlt,hfree,hu⟩

end Rep

/-- Two tables of nodes with the same directories. -/
def SameDirs (N N' : ℕ → Node) : Prop :=
  ∀ i, (N' i).type = (N i).type ∧ ((N i).type = .dir →
    (N' i).size = (N i).size ∧ (N' i).data = (N i).data)

section SameDirs

variable {N N' : ℕ → Node} {names : List Name}

theorem SameDirs.dirent (h : SameDirs N N') (hd : (N d).type = .dir) :
    (N' d).dirent k = (N d).dirent k := by
  rw [Node.dirent,Node.dirent,Node.bytes,Node.bytes,((h d).2 hd).2]

theorem SameDirs.slots (h : SameDirs N N') (hd : (N d).type = .dir) :
    (N' d).slots = (N d).slots := by
  rw [Node.slots,Node.slots,((h d).2 hd).1]

theorem SameDirs.find (h : SameDirs N N') (hd : (N d).type = .dir) :
    (N' d).find name = (N d).find name := by
  simp only [Node.find,h.slots hd,h.dirent hd]

theorem SameDirs.walkParent (h : SameDirs N N') : walkParent N' i names = walkParent N i names := by
  induction names generalizing i with
  | nil => rfl
  | cons name rest ih =>
    rw [Fs.walkParent,Fs.walkParent,(h i).1]
    split
    · next hdir =>
      rw [h.find hdir]
      simp only [h.dirent hdir,ih]
    · rfl

theorem SameDirs.hasEntry (h : SameDirs N N') : HasEntry N' d k ↔ HasEntry N d k := by
  refine ⟨fun he => ?_,fun he => ?_⟩
  · have hd : (N d).type = .dir := by rw [← (h d).1]; exact he.dir
    exact ⟨hd,by rw [← h.slots hd]; exact he.lt,by rw [← h.dirent hd]; exact he.used⟩
  · have hd := he.dir
    exact ⟨by rw [(h d).1]; exact hd,by rw [h.slots hd]; exact he.lt,
      by rw [h.dirent hd]; exact he.used⟩

theorem SameDirs.sound (h : SameDirs N N') (hs : Sound N) : Sound N' := by
  intro d k he
  have he' := h.hasEntry.mp he
  rw [h.dirent he'.dir,(h _).1]
  exact hs d k he'

end SameDirs

theorem Tree.sameDirs_addLinks (T : Tree) (i : ℕ) (n : Int16) :
    SameDirs T.node (T.setNode i ((T.node i).addLinks n)).node := by
  intro j
  by_cases hj : j = i
  · subst hj
    rw [setNode_self]
    exact ⟨rfl,fun _ => ⟨rfl,rfl⟩⟩
  · rw [setNode_of_ne _ hj]
    exact ⟨rfl,fun _ => ⟨rfl,rfl⟩⟩

theorem Tree.Closed.addLinks {n : Int16} (h : T.Closed) :
    (T.setNode i ((T.node i).addLinks n)).Closed := by
  have hsame := T.sameDirs_addLinks i n
  refine ⟨hsame.sound h.sound,by rw [(hsame _).1]; exact h.root,fun j hj => ?_⟩
  rw [(hsame j).1]
  exact h.used j hj

theorem Tree.Closed.get (h : T.Closed) (hi : (T.node i).type ≠ .free) : (T.get i).Closed := by
  refine ⟨h.sound,h.root,fun j hj => ?_⟩
  by_cases hji : j = i
  · rw [hji]
    exact hi
  · rw [Tree.get_refs_of_ne hji] at hj
    exact h.used j hj

namespace Rep

theorem linkBad (h : Rep sb s ((T.get i).setNode i ((T.node i).addLinks 1)) ∅
    (insert (c, i) H)) (hE : Lax E) (hal : (T.node i).type ≠ .free)
    (hT : T.Orphan i → 0 < T.refs i) (hH : ∀ c', (c', i) ∈ H → 0 < T.refs i) :
    wp E (Fs.linkBad c) s fun _ t => Rep sb t T ∅ H := by
  have hc : (c, i) ∈ insert (c, i) H := Set.mem_insert _ _
  rw [Fs.linkBad]
  refine (h.ilock_first hE hc fun _ => by rw [Tree.setNode_self]; exact hal).bind ?_
  rintro - t ⟨-,ht⟩
  refine (ht.addLinks hc (mem_singleton_self i) (-1)).bind ?_
  rintro - u hu
  have hself : (T.get i).setNode i (T.node i) = T.get i := Tree.setNode_node_self (T := T.get i)
  rw [Tree.setNode_self,Tree.setNode_setNode,Node.addLinks_neg,hself] at hu
  refine (hu.leave hE hT hH).bind ?_
  rintro - v hv
  exact hv

theorem sysLink (h : Rep sb s T ∅ H) (hE : Lax E) (hcwd : ∀ c, cwd = some c → (c, w) ∈ H)
    (hs : ¬ E (.panic "ilock: no type") → T.Closed)
    (hw : ¬ E (.panic "ilock: no type") → (T.node w).type ≠ .free) (old new : Path) :
    wp E (Fs.sysLink sb cwd old new) s fun _ t =>
      Rep sb t T ∅ H ∨ ∃ i d name, resolve T.node w old = some i ∧
        (T.node i).type ≠ .free ∧ (T.node i).type ≠ .dir ∧
        resolveParent T.node w new = some (d, name) ∧ (T.node d).find name = none ∧
        Rep sb t (((((T.get i).get d).link d name i).put d).put i) ∅ H := by
  rw [Fs.sysLink]
  refine (h.namei hE.calm (fun _ => hE.wild) hcwd hs old).bind ?_
  rintro r t (⟨rfl,-,ht⟩ | ⟨c,i,rfl,hold,ht⟩)
  · exact .inl ht
  have hc : (c, i) ∈ insert (c, i) H := Set.mem_insert _ _
  refine (ht.ilock_first hE hc fun hno => (hs hno).resolve (hw hno) hold).bind ?_
  rintro - u ⟨hal,hu⟩
  have hH : ∀ c' j, (c', j) ∈ H → 0 < T.refs j := fun _ _ hc' => h.refs_pos hc'
  rw [wp_bind,wp_read,(hu.copy hc (mem_singleton_self i)).1,Tree.get_node]
  refine wp_ite (fun _ => ?_) fun hndir => ?_
  · refine (hu.leave hE h.orphan_refs fun c' => hH c' i).bind ?_
    rintro - v hv
    exact .inl hv
  refine (hu.addLinks hc (mem_singleton_self i) 1).bind ?_
  rintro - v hv
  refine (hv.iunlock (fun _ => hE.iunlock) hc).bind ?_
  rintro - v1 hv1
  rw [erase_singleton,Tree.get_node] at hv1
  set T1 := (T.get i).setNode i ((T.node i).addLinks 1) with hT1
  have hsame : SameDirs T.node T1.node := (T.get i).sameDirs_addLinks i 1
  have hbad : ∀ {v : State}, Rep sb v T1 ∅ (insert (c, i) H) →
      wp E (Fs.linkBad c) v fun _ t => Rep sb t T ∅ H := fun hv =>
    hv.linkBad hE hal h.orphan_refs fun c' => hH c' i
  have hcwd1 : ∀ c', cwd = some c' → (c', w) ∈ insert (c, i) H := fun c' hc' =>
    Set.mem_insert_of_mem _ (hcwd c' hc')
  have hs1 : ¬ E (.panic "ilock: no type") → T1.Closed := fun hno =>
    ((hs hno).get ((hs hno).resolve (hw hno) hold)).addLinks
  refine (hv1.nameiparent hE.calm (fun _ => hE.wild) hcwd1 hs1 new).bind ?_
  have hparent : resolveParent T1.node w new = resolveParent T.node w new := hsame.walkParent
  rw [hparent]
  rintro r v2 (⟨rfl,-,hv2⟩ | ⟨c',d,name,rfl,hnew,hv2⟩)
  · exact (hbad hv2).mono fun _ _ => .inl
  have hdir : (T.node d).type = .dir := walkParent_dir hnew
  have hid : i ≠ d := by
    rintro rfl
    exact hndir hdir
  have hd1 : T1.node d = T.node d := Tree.setNode_of_ne _ hid.symm
  have hcd : (c', d) ∈ insert (c', d) (insert (c, i) H) := Set.mem_insert _ _
  refine (hv2.ilock_first hE hcd fun _ => by
    rw [Tree.get_node,hd1,hdir]; decide).bind ?_
  rintro - v3 ⟨-,hv3⟩
  rw [wp_bind,wp_read,(hv3.slot (Set.mem_insert_of_mem _ hc)).inum]
  refine (hv3.dirlink hE.calm (.inl hE.balloc) hcd (mem_singleton_self d)
    (by rw [Tree.get_node,hd1,hdir]) name i (fun _ _ _ => hE.blocked) fun _ _ => hE.dirlink).bind
    fun ok v4 hv4 => ?_
  rw [Tree.get_node,hd1] at hv4
  have hpin : ∀ c'', (c'', d) ∈ insert (c, i) H → 0 < T1.refs d := fun _ hc'' =>
    hv1.refs_pos hc''
  cases hfind : (T.node d).find name with
  | some k =>
    rw [hfind] at hv4
    obtain ⟨rfl,hv4⟩ := hv4
    refine (hv4.leave hE hv1.orphan_refs hpin).bind ?_
    rintro - v5 hv5
    simp only [Bool.false_eq_true,if_false]
    exact (hbad hv5).mono fun _ _ => .inl
  | none =>
    rw [hfind] at hv4
    obtain ⟨rfl,hv4⟩ := hv4
    refine (hv4.iunlockput (fun _ => hE.iunlock) hcd (Set.subset_insert _ _) fun c'' hc'' => ?_).bind ?_
    · have := hpin c'' hc''
      show 1 < (T1.get d).refs d
      rw [Tree.get_refs_self]
      omega
    rintro - v5 hv5
    rw [erase_singleton] at hv5
    simp only [if_true]
    refine (hv5.iput (fun _ => hE.blocked) hc (Set.subset_insert _ _) fun c'' hc'' => ?_).bind ?_
    · have := hH c'' i hc''
      rw [Tree.put_refs_of_ne hid]
      show 1 < (T1.get d).refs i
      rw [Tree.get_refs_of_ne hid]
      show 1 < (T.get i).refs i
      rw [Tree.get_refs_self]
      omega
    · rintro - v6 ⟨-,hv6⟩
      exact .inr ⟨i,d,name,hold,hal,hndir,hnew,hfind,hv6⟩

end Rep

/-- A directory with nothing after its first two entries. -/
def Node.Empty (x : Node) : Prop := ∀ k, 2 ≤ k → k < x.slots → (x.dirent k).inum = 0

theorem Tree.put_setNode_comm (x : Node) (h : i ≠ j) :
    (T.put j).setNode i x = (T.setNode i x).put j := by
  have ho : (T.setNode i x).Orphan j ↔ T.Orphan j := by
    rw [Tree.Orphan,Tree.setNode_of_ne _ h.symm]
    rfl
  by_cases hlast : T.Orphan j ∧ T.refs j = 1
  · rw [Tree.put,if_pos hlast,Tree.put,if_pos ⟨ho.mpr hlast.1,hlast.2⟩,Tree.setNode_comm _ _ h.symm]
    rfl
  · rw [Tree.put_of_not_last hlast,Tree.put_of_not_last fun hl => hlast ⟨ho.mp hl.1,hl.2⟩]
    rfl

namespace Rep

theorem isdirempty (h : Rep sb s T L H) (hE : Lax E) (hc : (c, i) ∈ H) (hi : i ∈ L)
    (hdir : (T.node i).type = .dir) :
    wp E (Fs.isdirempty sb c) s fun r t => t = s ∧ (r = true ↔ (T.node i).Empty) := by
  have hsize : (T.node i).size ≤ 71680 := h.size_le (by rw [hdir]; decide)
  have hslots : (T.node i).slots = (T.node i).size / 16 := rfl
  rw [Fs.isdirempty,wp_bind,wp_read,(h.copy hc hi).2.1,dirOffsets]
  refine (h.dirScan _ (.inl (hE.panic (by simp) (by simp))) hc hi hdir fun k hk => ?_).bind ?_
  · have := List.mem_range'_1.mp hk
    omega
  rintro r t ⟨rfl,hr⟩
  refine ⟨rfl,?_⟩
  split at hr
  · next k hk =>
    obtain ⟨hlt,rfl⟩ := hr
    have hmem := List.mem_range'_1.mp (List.mem_of_find?_eq_some hk)
    have hused : ((T.node i).dirent k).inum ≠ 0 := by simpa using List.find?_some hk
    refine iff_of_false (by simp) fun hempty => hused (hempty k hmem.1 hlt)
  · next hk =>
    obtain ⟨-,rfl⟩ := hr
    refine iff_of_true rfl fun k h2 hlt => ?_
    have := List.find?_eq_none.mp hk k (List.mem_range'_1.mpr ⟨h2,by omega⟩)
    simpa using this

theorem mayUnlink (h : Rep sb s T L H) (hE : Lax E) (hc : (c, i) ∈ H) (hi : i ∈ L) :
    wp E (Fs.mayUnlink sb c (T.node i).type) s fun r t => t = s ∧
      (r = true ↔ ((T.node i).type = .dir → (T.node i).Empty)) := by
  rw [Fs.mayUnlink]
  refine wp_ite (fun hdir => ?_) fun hndir => ?_
  · refine (h.isdirempty hE hc hi hdir).mono ?_
    rintro r t ⟨rfl,hr⟩
    exact ⟨rfl,hr.trans ⟨fun he _ => he,fun he => he hdir⟩⟩
  · exact ⟨rfl,iff_of_true rfl fun hdir => absurd hdir hndir⟩

theorem unlinkEntry {c' : ISlot}
    (h : Rep sb s ((T.get d).get i) {i, d} (insert (c', i) (insert (c, d) H)))
    (hE : Lax E) (hid : i ≠ d) (hdir : (T.node d).type = .dir) (hk : k < (T.node d).slots)
    (hH : ∀ c j, (c, j) ∈ H → 0 < T.refs j) :
    wp E (Fs.unlinkEntry sb c c' (16 * k)) s fun _ t =>
      Rep sb t (((((T.get d).get i).unlink d k i).put d).put i) ∅ H := by
  set B := (T.get d).get i with hB
  have hci : (c', i) ∈ insert (c', i) (insert (c, d) H) := Set.mem_insert _ _
  have hcd : (c, d) ∈ insert (c', i) (insert (c, d) H) :=
    Set.mem_insert_of_mem _ (Set.mem_insert _ _)
  have hiL : i ∈ ({i, d} : Finset ℕ) := mem_insert_self _ _
  have hdL : d ∈ ({i, d} : Finset ℕ) := mem_insert_of_mem (mem_singleton_self d)
  have hsize : (T.node d).size ≤ 71680 := h.size_le (i := d) (by
    show (T.node d).type ≠ .free
    rw [hdir]
    decide)
  have hslots : (T.node d).slots = (T.node d).size / 16 := rfl
  rw [Fs.unlinkEntry]
  refine (h.writei (.inl hE.balloc) hcd hdL (by show (T.node d).type ≠ .dev; rw [hdir]; decide) (by omega)
    (by simp)).bind fun r t hr => ?_
  split at hr
  · obtain ⟨rfl,rfl⟩ := hr
    exact hE.panic (by simp) (by simp)
  obtain ⟨rfl,ht⟩ := hr
  rw [Dirent.encode_length,if_pos rfl,wp_bind,wp_read,(ht.copy hci hiL).1,Tree.setNode_of_ne _ hid]
  -- the link of the parent
  have hparent : wp E (dropParentLink c (T.node i).type) t fun _ u =>
      Rep sb u (B.setNode d (Tree.unlinked (T.node d) k (T.node i).type)) {i, d}
        (insert (c', i) (insert (c, d) H)) := by
    rw [dropParentLink,Tree.unlinked]
    split
    · next hd =>
      refine (ht.addLinks hcd hdL (-1)).mono ?_
      rintro - u hu
      rwa [Tree.setNode_self,Tree.setNode_setNode] at hu
    · exact ht
  refine hparent.bind ?_
  rintro - u hu
  have hsub : insert (c', i) H ⊆ insert (c', i) (insert (c, d) H) :=
    Set.insert_subset_insert (Set.subset_insert _ _)
  refine (hu.iunlockput (fun _ => hE.iunlock) hcd hsub fun c'' hc'' => ?_).bind ?_
  · have := hH c'' d (hc''.resolve_left fun e => hid (Prod.mk.inj e).2.symm)
    show 1 < B.refs d
    rw [hB,Tree.get_refs_of_ne hid.symm,Tree.get_refs_self]
    omega
  rintro - v hv
  have herase : ({i, d} : Finset ℕ).erase d = {i} := by
    ext j
    simp only [mem_erase,mem_insert,mem_singleton]
    exact ⟨fun hj => hj.2.resolve_right hj.1,fun hj => ⟨hj ▸ hid,.inl hj⟩⟩
  rw [herase] at hv
  have hci' : (c', i) ∈ insert (c', i) H := Set.mem_insert _ _
  refine (hv.addLinks hci' (mem_singleton_self i) (-1)).bind ?_
  rintro - v1 hv1
  rw [Tree.put_node_of_ne hid,Tree.setNode_of_ne _ hid,Tree.put_setNode_comm _ hid] at hv1
  refine (hv1.iunlockput (fun _ => hE.iunlock) hci' (Set.subset_insert _ _) fun c'' hc'' => ?_).bind ?_
  · have := hH c'' i hc''
    rw [Tree.put_refs_of_ne hid]
    show 1 < B.refs i
    rw [hB,Tree.get_refs_self,Tree.get_refs_of_ne hid]
    omega
  · rintro - v2 hv2
    rw [erase_singleton] at hv2
    exact hv2

theorem sysUnlink (h : Rep sb s T ∅ H) (hE : Lax E) (hcwd : ∀ c, cwd = some c → (c, w) ∈ H)
    (hs : ¬ E (.panic "ilock: no type") → T.Closed) (path : Path) :
    wp E (Fs.sysUnlink sb cwd path) s fun _ t =>
      Rep sb t T ∅ H ∨ ∃ d name k i, resolveParent T.node w path = some (d, name) ∧
        name ≠ Name.dot ∧ name ≠ Name.dotdot ∧ (T.node d).find name = some k ∧
        i = ((T.node d).dirent k).inum ∧ i ≠ d ∧ (T.node i).type ≠ .free ∧
        ¬ (T.node i).nlink < 1 ∧ ((T.node i).type = .dir → (T.node i).Empty) ∧
        Rep sb t (((((T.get d).get i).unlink d k i).put d).put i) ∅ H := by
  rw [Fs.sysUnlink]
  refine (h.nameiparent hE.calm (fun _ => hE.wild) hcwd hs path).bind ?_
  rintro r t (⟨rfl,-,ht⟩ | ⟨c,d,name,rfl,hp,ht⟩)
  · exact .inl ht
  have hdir : (T.node d).type = .dir := walkParent_dir hp
  have hH : ∀ c' j, (c', j) ∈ H → 0 < T.refs j := fun _ _ hc' => h.refs_pos hc'
  have hcd : (c, d) ∈ insert (c, d) H := Set.mem_insert _ _
  refine (ht.ilock_first hE hcd fun _ => by rw [Tree.get_node,hdir]; decide).bind ?_
  rintro - u ⟨-,hu⟩
  have hbad : ∀ {v : State}, Rep sb v (T.get d) {d} (insert (c, d) H) →
      wp E (do Fs.iunlockput c; pure (-1 : ℤ)) v fun _ t => Rep sb t T ∅ H := fun hv =>
    (hv.leave hE h.orphan_refs fun c' => hH c' d).bind fun _ _ hw => hw
  refine wp_ite (fun _ => (hbad hu).mono fun _ _ => .inl) fun hdots => ?_
  refine (hu.dirlookup hE.calm hcd (mem_singleton_self d) hdir name).bind ?_
  rintro r v (⟨rfl,-,rfl⟩ | ⟨k,c',i,rfl,hfind,hi,-,hv⟩)
  · exact (hbad hu).mono fun _ _ => .inl
  rw [Tree.get_node] at hfind hi
  have hci : (c', i) ∈ insert (c', i) (insert (c, d) H) := Set.mem_insert _ _
  have hal' : ¬ E (.panic "ilock: no type") → (T.node i).type ≠ .free := fun hno =>
    hi ▸ (hs hno).sound.find hdir hfind
  refine (hv.ilock (fun _ => hE.blocked) hci hal').bind ?_
  rintro - v1 ⟨hid,hal,hv1⟩
  have hid : i ≠ d := fun e => hid (mem_singleton.mpr e)
  have hiL : i ∈ insert i ({d} : Finset ℕ) := mem_insert_self _ _
  obtain ⟨htype,-,hnlink⟩ := hv1.copy hci hiL
  simp only [wp_bind,wp_read,htype,hnlink]
  refine wp_ite (fun _ => hE.panic (by simp) (by simp)) fun hlinks => ?_
  rw [wp_bind]
  refine (hv1.mayUnlink hE hci hiL).mono ?_
  rintro may v2 ⟨rfl,hmay⟩
  refine wp_ite (fun hm => ?_) fun _ => ?_
  · refine (hv1.unlinkEntry hE hid hdir (Node.find_eq_some.mp hfind).1 hH).mono ?_
    rintro - v3 hv3
    exact .inr ⟨d,name,k,i,hp,fun e => hdots (.inl e),fun e => hdots (.inr e),
      hfind,hi,hid,hal,hlinks,hmay.mp hm,hv3⟩
  have hT' : (T.get d).Orphan i → 0 < (T.get d).refs i := fun ho =>
    lt_of_lt_of_le (h.orphan_refs ho) Tree.le_get_refs
  refine (hv1.iunlockput (fun _ => hE.iunlock) hci (Set.subset_insert _ _) fun c'' hc'' => ?_).bind ?_
  · have hmem : (c'', i) ∈ H := hc''.resolve_left fun e => hid (Prod.mk.inj e).2
    have := hH c'' i hmem
    rw [Tree.get_refs_self,Tree.get_refs_of_ne hid]
    omega
  rintro - v3 hv3
  rw [Tree.get_put hT',erase_insert (by simpa using hid)] at hv3
  exact (hbad hv3).mono fun _ _ => .inl

end Rep

end Xv6Container.Fs
