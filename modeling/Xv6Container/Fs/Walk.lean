import Xv6Container.Fs.Tree

/-! # Directories as tables of names -/

namespace Xv6Container.Fs

open Function Prog List

variable {sb : Superblock} {s t : State} {c : ISlot} {d i j k n : ℕ} {E : Stop → Prop}
  {T : Tree} {L : Finset ℕ} {H : Set (ISlot × ℕ)} {N : ℕ → Node} {x : Node} {e : Dirent}
  {name : Name} {names : List Name}

theorem Name.ofBytes_append_replicate (m : Name) (n : ℕ) (h : m.bytes.length + n ≤ DIRSIZ) :
    Name.ofBytes (m.bytes ++ List.replicate n 0) = m := by
  have htake : (m.bytes ++ List.replicate n 0).take DIRSIZ = m.bytes ++ List.replicate n 0 :=
    take_of_length_le (by simpa using h)
  have hall : ∀ b ∈ m.bytes, decide (b ≠ 0) = true := by
    intro b hb
    rw [decide_eq_true_eq]
    rintro rfl
    exact m.no_nul hb
  have hrep : (List.replicate n (0 : UInt8)).takeWhile (· ≠ 0) = [] := by cases n <;> rfl
  have hbytes : (m.bytes ++ List.replicate n 0).takeWhile (· ≠ 0) = m.bytes := by
    rw [takeWhile_append_of_pos hall,hrep,append_nil]
  obtain ⟨bytes,hlen,hnul⟩ := m
  simp only [Name.ofBytes,htake,hbytes]

namespace Dirent

@[simp] theorem encode_length (e : Dirent) : e.encode.length = 16 := by
  have := e.name.length_le
  simp only [encode,length_append,length_cons,length_nil,length_replicate]
  have hd : DIRSIZ = 14 := rfl
  omega

theorem card_places_entry (k : ℕ) (e : Dirent) : (places (16*k) e.encode.length).card ≤ 2 := by
  have hle : 16 ≤ BSIZE - 16 * k % BSIZE := by
    show 16 ≤ 512 - 16 * k % 512
    omega
  rw [encode_length,places_block (by omega) hle]
  exact card_placesFor_le _

theorem decode_encode (e : Dirent) (h : e.inum < 2 ^ 16) : decode e.encode = e := by
  have hname : Name.ofBytes (e.encode.drop 2) = e.name :=
    Name.ofBytes_append_replicate e.name _ (by
      have := e.name.length_le
      omega)
  have h0 : (e.encode.getD 0 0).toNat = e.inum % 256 := rfl
  have h1 : (e.encode.getD 1 0).toNat = e.inum / 256 % 256 := rfl
  refine Dirent.ext ?_ hname
  rw [decode,h0,h1]
  simp only
  omega

end Dirent

namespace Node

def dirent (x : Node) (k : ℕ) : Dirent := Dirent.decode (x.bytes (16 * k) 16)

def slots (x : Node) : ℕ := x.size / 16

def find (x : Node) (name : Name) : Option ℕ :=
  (List.range x.slots).find? fun k => (x.dirent k).inum ≠ 0 && (x.dirent k).name = name

/-- The first free entry, or the next one at the end. -/
def freeSlot (x : Node) : ℕ :=
  ((List.range x.slots).find? fun k => (x.dirent k).inum = 0).getD x.slots

def setDirent (x : Node) (k : ℕ) (e : Dirent) : Node := x.write (16 * k) e.encode

def addEntry (x : Node) (name : Name) (i : ℕ) : Node := x.setDirent x.freeSlot ⟨i, name⟩

theorem bytes_write_self (x : Node) (off : ℕ) (src : List UInt8) :
    (x.write off src).bytes off src.length = src := by
  apply ext_getElem
  · simp [bytes]
  · intro n h1 h2
    simp [bytes,write,h2]

theorem bytes_write_of_disjoint (src : List UInt8) {off off' : ℕ}
    (h : off' + n ≤ off ∨ off + src.length ≤ off') :
    (x.write off src).bytes off' n = x.bytes off' n := by
  apply map_congr_left
  intro k hk
  have hk := List.mem_range.mp hk
  exact if_neg (by omega)

theorem dirent_setDirent_self (h : e.inum < 2 ^ 16) : (x.setDirent k e).dirent k = e := by
  have := x.bytes_write_self (16*k) e.encode
  rw [Dirent.encode_length] at this
  rw [dirent,setDirent,this,Dirent.decode_encode e h]

theorem dirent_setDirent_of_ne (h : j ≠ k) : (x.setDirent k e).dirent j = x.dirent j := by
  rw [dirent,dirent,setDirent,bytes_write_of_disjoint]
  rw [Dirent.encode_length]
  omega

theorem setDirent_size : (x.setDirent k e).size = max x.size (16 * k + 16) := by
  rw [setDirent,write]
  simp only [Dirent.encode_length]

theorem slots_setDirent (hk : k < x.slots) : (x.setDirent k e).slots = x.slots := by
  rw [slots] at hk
  rw [slots,setDirent_size,slots]
  congr 1
  omega

theorem find_eq_some : x.find name = some k ↔
    k < x.slots ∧ (x.dirent k).inum ≠ 0 ∧ (x.dirent k).name = name ∧
      ∀ j < k, (x.dirent j).inum ≠ 0 → (x.dirent j).name ≠ name := by
  rw [find,find?_range_eq_some]
  simp only [Bool.and_eq_true,decide_eq_true_eq,mem_range,Bool.not_eq_true',
    Bool.and_eq_false_imp,decide_eq_false_iff_not]
  exact ⟨fun h => ⟨h.2.1,h.1.1,h.1.2,h.2.2⟩,fun h => ⟨⟨h.2.1,h.2.2.1⟩,h.1,h.2.2.2⟩⟩

theorem find_eq_none : x.find name = .none ↔
    ∀ k < x.slots, (x.dirent k).inum ≠ 0 → (x.dirent k).name ≠ name := by
  simp [find]

theorem freeSlot_le : x.freeSlot ≤ x.slots := by
  rw [freeSlot]
  cases h : (List.range x.slots).find? fun k => (x.dirent k).inum = 0 with
  | none => exact le_rfl
  | some k => exact (List.mem_range.mp (mem_of_find?_eq_some h)).le

theorem freeSlot_inum (h : x.freeSlot < x.slots) : (x.dirent x.freeSlot).inum = 0 := by
  rw [freeSlot] at h ⊢
  cases hf : (List.range x.slots).find? fun k => (x.dirent k).inum = 0 with
  | none => rw [hf] at h; exact absurd h (lt_irrefl _)
  | some k => simpa using find?_some hf

end Node

namespace Rep

theorem copy (h : Rep sb s T L H) (hc : (c, i) ∈ H) (hi : i ∈ L) :
    (s.inode c).din.type = (T.node i).type ∧ (s.inode c).din.size = (T.node i).size ∧
      (s.inode c).din.nlink = (T.node i).nlink := by
  have hv := h.valid_of_locked hi
  rw [h.wf.cached_eq (h.slot hc)] at hv
  rw [← h.node,node_of_alloc (h.wf.alloc (h.slot hc) hv),h.wf.din (h.slot hc) hv]
  exact ⟨rfl,rfl,rfl⟩

theorem size_le (h : Rep sb s T L H) (hi : (T.node i).type ≠ .free) :
    (T.node i).size ≤ MAXFILE*BSIZE := by
  rw [← h.node] at hi ⊢
  rw [node_type] at hi
  rw [node_of_alloc hi]
  exact (h.wf.disk.inode_ok i hi).size_le

theorem readDirent {msg : String} (h : Rep sb s T L H)
    (hE : E (.panic msg) ∨ k < (T.node i).slots) (hc : (c, i) ∈ H) (hi : i ∈ L)
    (hdir : (T.node i).type = .dir) (hk : 16 * k < 2 ^ 32) :
    wp E (Fs.readDirent sb msg c (16*k)) s fun e t =>
      t = s ∧ k < (T.node i).slots ∧ e = (T.node i).dirent k := by
  rw [Fs.readDirent]
  refine (h.readi hc hi (by rw [hdir]; decide) hk (by decide)).bind ?_
  rintro r t ⟨rfl,rfl⟩
  rw [Node.slots] at hE ⊢
  split
  · next bytes hbytes =>
    split at hbytes
    · exact absurd hbytes (by simp)
    · next hcond =>
      obtain rfl := Option.some.inj hbytes
      rw [Node.bytes,length_map,length_range]
      refine wp_ite (fun hmin => ?_) fun hshort => hE.resolve_right (by omega)
      exact ⟨rfl,by omega,by rw [hmin]; rfl⟩
  · next hnone =>
    refine hE.resolve_right fun hlt => ?_
    split at hnone
    · have := h.size_le (i := i) (by rw [hdir]; decide)
      have hmax : MAXFILE * BSIZE = 71680 := rfl
      omega
    · cases hnone

theorem dirScan {msg : String} {p : Dirent → Bool} (h : Rep sb s T L H) (ks : List ℕ)
    (hE : E (.panic msg) ∨ ∀ k ∈ ks, k < (T.node i).slots) (hc : (c, i) ∈ H) (hi : i ∈ L)
    (hdir : (T.node i).type = .dir) (hks : ∀ k ∈ ks, 16*k < 2 ^ 32) :
    wp E (Fs.dirScan sb msg c p (ks.map (16 * ·))) s fun r t => t = s ∧
      match ks.find? fun k => p ((T.node i).dirent k) with
      | some k => k < (T.node i).slots ∧ r = some (16*k, (T.node i).dirent k)
      | none => (∀ k ∈ ks, k < (T.node i).slots) ∧ r = none := by
  induction ks with
  | nil => exact ⟨rfl,by simp,rfl⟩
  | cons k ks ih =>
    rw [map_cons,Fs.dirScan]
    refine (h.readDirent (hE.imp_right fun hlt => hlt k mem_cons_self) hc hi hdir
      (hks k mem_cons_self)).bind ?_
    rintro e t ⟨rfl,hk,rfl⟩
    refine wp_ite (fun hp => ?_) fun hp => ?_
    · rw [wp_pure,find?_cons,hp]
      exact ⟨rfl,hk,rfl⟩
    refine (ih (hE.imp_right fun hlt k hk => hlt k (mem_cons_of_mem _ hk))
      fun k hk => hks k (mem_cons_of_mem _ hk)).mono ?_
    rintro r u ⟨hu,hr⟩
    rw [find?_cons,Bool.not_eq_true _ |>.mp hp]
    refine ⟨hu,?_⟩
    split at hr
    · next k' hk' => rw [hk']; exact hr
    · next hnone =>
      rw [hnone]
      exact ⟨List.forall_mem_cons.mpr ⟨hk,hr.1⟩,hr.2⟩

theorem dirScan_all {msg : String} {p : Dirent → Bool} (h : Rep sb s T L H)
    (hE : E (.panic msg) ∨ 16 ∣ (T.node i).size) (hc : (c, i) ∈ H) (hi : i ∈ L) (hdir : (T.node i).type = .dir) :
    wp E (Fs.dirScan sb msg c p (dirOffsets 0 (T.node i).size)) s fun r t => t = s ∧
      match (List.range (T.node i).slots).find? fun k => p ((T.node i).dirent k) with
      | some k => r = some (16*k, (T.node i).dirent k)
      | none => ((T.node i).size + 15) / 16 = (T.node i).slots ∧ r = none := by
  have hsize : (T.node i).size ≤ 71680 := h.size_le (by rw [hdir]; decide)
  have hslots : (T.node i).slots = (T.node i).size / 16 := rfl
  rw [dirOffsets,Nat.sub_zero,← range_eq_range']
  refine (h.dirScan _ (hE.imp_right fun hdvd k hk => ?_) hc hi hdir fun k hk => ?_).mono ?_
  · have := List.mem_range.mp hk
    omega
  · have := List.mem_range.mp hk
    omega
  rintro r t ⟨rfl,hr⟩
  refine ⟨rfl,?_⟩
  split at hr
  · next k hk =>
    obtain ⟨hp,hmem,hmin⟩ := List.find?_range_eq_some.mp hk
    have hfind : (List.range (T.node i).slots).find? (fun k => p ((T.node i).dirent k)) =
        some k := List.find?_range_eq_some.mpr ⟨hp,List.mem_range.mpr hr.1,hmin⟩
    rw [hfind]
    exact hr.2
  · next hnone =>
    have hceil : ((T.node i).size + 15) / 16 = (T.node i).slots := by
      by_contra hne
      have := hr.1 (T.node i).slots (List.mem_range.mpr (by omega))
      exact lt_irrefl _ this
    rw [hceil] at hnone
    rw [hnone]
    exact ⟨hceil,hr.2⟩

theorem dirlookup (h : Rep sb s T L H) (hE : Calm E T 1) (hc : (c, d) ∈ H) (hd : d ∈ L)
    (hdir : (T.node d).type = .dir) (name : Name) :
    wp E (Fs.dirlookup sb c name) s fun r t => (r = none ∧ (T.node d).find name = none ∧ t = s) ∨
      ∃ k c' i, r = some (c', 16*k) ∧ (T.node d).find name = some k ∧
        i = ((T.node d).dirent k).inum ∧ t.bitmap = s.bitmap ∧
        Rep sb t (T.get i) L (insert (c', i) H) := by
  obtain ⟨htype,hsize,-⟩ := h.copy hc hd
  rw [Fs.dirlookup,wp_bind,wp_read,htype,hsize,if_neg (not_not.mpr hdir)]
  refine (h.dirScan_all (hE.read.imp And.left fun h16 => h16 d hdir) hc hd hdir).bind ?_
  rintro r t ⟨rfl,hr⟩
  split at hr
  · next k hk =>
    subst hr
    exact (h.iget hE.iget _).bind fun c' u hu => .inr ⟨k,c',_,rfl,hk,rfl,hu⟩
  · next hk =>
    obtain rfl := hr.2
    exact .inl ⟨rfl,hk,rfl⟩

theorem dirlink (h : Rep sb s T L H) (hE : Calm E T 1)
    (hb : E (.panic "balloc: out of blocks") ∨ 2 ≤ freeBlocks sb s)
    (hc : (c, d) ∈ H) (hd : d ∈ L) (hdir : (T.node d).type = .dir) (name : Name) (i : ℕ)
    (hself : ∀ k, (T.node d).find name = some k → ((T.node d).dirent k).inum ∈ L → E .blocked)
    (hfull : (T.node d).find name = none → MAXFILE * BSIZE < 16 * (T.node d).freeSlot + 16 →
      E (.panic "dirlink")) :
    wp E (Fs.dirlink sb c name i) s fun r t =>
      match (T.node d).find name with
      | some _ => r = false ∧ Rep sb t T L H
      | none => r = true ∧ Rep sb t (T.setNode d ((T.node d).addEntry name i)) L H := by
  rw [Fs.dirlink]
  refine (h.dirlookup hE hc hd hdir name).bind ?_
  rintro r t (⟨rfl,hk,rfl⟩ | ⟨k,c',j,rfl,hk,rfl,-,ht⟩)
  · obtain ⟨-,hsize,-⟩ := h.copy hc hd
    simp only [wp_bind,wp_read,hsize]
    refine (h.dirScan_all (hE.read.imp And.right fun h16 => h16 d hdir) hc hd hdir).mono ?_
    rintro r t ⟨rfl,hr⟩
    have hoff : (r.map Prod.fst).getD (16 * (((T.node d).size + 15) / 16)) =
        16 * (T.node d).freeSlot := by
      rw [Node.freeSlot]
      split at hr
      · next k hfind => rw [hr,hfind]; rfl
      · next hfind => rw [hr.2,hfind,hr.1]; rfl
    have hle := (T.node d).freeSlot_le
    have hslots : (T.node d).slots = (T.node d).size / 16 := rfl
    have hmax : (T.node d).size ≤ 71680 := h.size_le (by rw [hdir]; decide)
    rw [hoff]
    refine (h.writei (hb.imp_right (Dirent.card_places_entry _ _).trans) hc hd
      (by rw [hdir]; decide) (by omega) (by simp)).mono ?_
    intro w u hw
    split at hw
    · next hcond =>
      obtain ⟨rfl,rfl⟩ := hw
      rw [Dirent.encode_length] at hcond
      exact hfull hk (by omega)
    · obtain ⟨rfl,hu⟩ := hw
      rw [Dirent.encode_length,if_pos rfl,hk]
      exact ⟨rfl,hu⟩
  · refine (ht.iput_temp (hself k hk) fun c'' hc'' => h.refs_pos hc'').bind ?_
    rintro - u ⟨-,hu⟩
    rw [Tree.get_put fun ho => h.orphan_refs ho] at hu
    rw [hk]
    exact ⟨rfl,hu⟩

end Rep

/-- What the names lead to, from inode `i` on. -/
def walk (N : ℕ → Node) : ℕ → List Name → Option ℕ
  | i, [] => some i
  | i, name :: rest =>
    if (N i).type = .dir then
      match (N i).find name with
      | some k => walk N ((N i).dirent k).inum rest
      | none => none
    else none

/-- The directory that the last name is to be looked up in, with that name. -/
def walkParent (N : ℕ → Node) : ℕ → List Name → Option (ℕ × Name)
  | _, [] => none
  | i, name :: rest =>
    if (N i).type = .dir then
      if rest = [] then some (i, name)
      else
        match (N i).find name with
        | some k => walkParent N ((N i).dirent k).inum rest
        | none => none
    else none

/-- Entry `k` of directory `d` is in use. -/
structure HasEntry (N : ℕ → Node) (d k : ℕ) : Prop where
  dir : (N d).type = .dir
  lt : k < (N d).slots
  used : ((N d).dirent k).inum ≠ 0

theorem hasEntry_of_find (hdir : (N d).type = .dir) (h : (N d).find name = some k) :
    HasEntry N d k :=
  have hk := Node.find_eq_some.mp h
  ⟨hdir,hk.1,hk.2.1⟩

/-- No entry refers to a free inode. -/
def Sound (N : ℕ → Node) : Prop :=
  ∀ d k, HasEntry N d k → (N ((N d).dirent k).inum).type ≠ .free

theorem Sound.find (h : Sound N) (hdir : (N d).type = .dir) (hk : (N d).find name = some k) :
    (N ((N d).dirent k).inum).type ≠ .free :=
  h d k (hasEntry_of_find hdir hk)

theorem Sound.walk (h : Sound N) (hi : (N i).type ≠ .free) (hw : walk N i names = some j) :
    (N j).type ≠ .free := by
  induction names generalizing i with
  | nil =>
    obtain rfl := Option.some.inj hw
    exact hi
  | cons name rest ih =>
    rw [Fs.walk] at hw
    split at hw
    · next hdir =>
      split at hw
      · next k hk => exact ih (h.find hdir hk) hw
      · exact absurd hw (by simp)
    · exact absurd hw (by simp)

theorem walkParent_dir {r : ℕ × Name} (hw : walkParent N i names = some r) :
    (N r.1).type = .dir := by
  induction names generalizing i with
  | nil => exact absurd hw (by simp [walkParent])
  | cons name rest ih =>
    rw [walkParent] at hw
    split at hw
    · next hdir =>
      split at hw
      · obtain rfl := Option.some.inj hw
        exact hdir
      · split at hw
        · exact ih hw
        · exact absurd hw (by simp)
    · exact absurd hw (by simp)

theorem Tree.get_comm : (T.get i).get j = (T.get j).get i := by
  refine Tree.ext rfl ?_
  by_cases h : i = j
  · rw [h]
  · show update (update T.refs i _) j _ =
      update (update T.refs j _) i _
    rw [update_comm h,get_refs_of_ne (Ne.symm h),get_refs_of_ne h]

theorem Tree.get_get_put (h : T.Orphan i → 0 < T.refs i) : ((T.get i).get j).put i = T.get j := by
  rw [get_comm]
  exact get_put fun ho => lt_of_lt_of_le (h ho) le_get_refs

namespace Rep

/-- A slot that still holds the inode after one of two references is gone has a reference of its
own. -/
theorem one_lt_refs {c c' : ISlot} (hH : (c, i) ∈ H → 0 < T.refs i)
    (hc : (c, i) ∈ insert (c', j) H) : 1 < ((T.get i).get j).refs i := by
  have hle : (T.get i).refs i ≤ ((T.get i).get j).refs i := Tree.le_get_refs
  rw [Tree.get_refs_self] at hle
  rcases hc with he | hc
  · rw [← (Prod.mk.inj he).2,Tree.get_refs_self,Tree.get_refs_self]
    omega
  · have := hH hc
    omega

theorem namexLoop (hE : Calm E T 2) (parent : Bool) (hT : ∀ j, T.Orphan j → 0 < T.refs j)
    (hH : ∀ c j, (c, j) ∈ H → 0 < T.refs j) (hs : ¬ E (.panic "ilock: no type") → Sound T.node)
    (names : List Name) (c : ISlot) (i : ℕ) (s : State) (name : Name)
    (hi : ¬ E (.panic "ilock: no type") → (T.node i).type ≠ .free)
    (h : Rep sb s (T.get i) ∅ (insert (c, i) H)) :
    wp E (Fs.namexLoop sb parent c name names) s fun r t =>
      if parent then
        match walkParent T.node i names with
        | some (d, last) => ∃ c', r = some (c', last) ∧
            Rep sb t (T.get d) ∅ (insert (c', d) H)
        | none => r = none ∧ Rep sb t T ∅ H
      else
        match walk T.node i names with
        | some j => ∃ c' last, r = some (c', last) ∧
            Rep sb t (T.get j) ∅ (insert (c', j) H)
        | none => r = none ∧ Rep sb t T ∅ H := by
  induction names generalizing c i s name with
  | nil =>
    rw [Fs.namexLoop]
    cases parent with
    | false => exact ⟨c,name,rfl,h⟩
    | true =>
      simp only [if_true]
      refine (h.iput_temp (fun hi => absurd hi (Finset.notMem_empty i)) fun c' hc' => hH c' i hc').bind
        ?_
      rintro - t ⟨-,ht⟩
      rw [Tree.get_put (hT i)] at ht
      exact ⟨rfl,ht⟩
  | cons name' rest ih =>
    rw [Fs.namexLoop]
    have hc : (c, i) ∈ insert (c, i) H := Set.mem_insert _ _
    refine (h.ilock (fun hi => absurd hi (Finset.notMem_empty i)) hc hi).bind ?_
    rintro - t ⟨-,hal,ht⟩
    have hmem : i ∈ insert i (∅ : Finset ℕ) := Finset.mem_insert_self _ _
    obtain ⟨htype,-,-⟩ := ht.copy hc hmem
    rw [wp_bind,wp_read,htype,Tree.get_node]
    -- leaving the directory gives its reference back
    have hleave : ∀ {u : State} {α : Type} (a : α) {Q : α → State → Prop},
        Rep sb u (T.get i) (insert i ∅) (insert (c, i) H) →
        (∀ v, Rep sb v T ∅ H → Q a v) →
        wp E (do Fs.iunlockput c; pure a) u Q := by
      intro u α a Q hu hQ
      refine (hu.iunlockput (absurd hmem) hc (Set.subset_insert _ _) fun c' hc' => ?_).bind ?_
      · have := hH c' i hc'
        rw [Tree.get_refs_self]
        omega
      · rintro - v hv
        rw [Tree.get_put (hT i),Finset.erase_insert (Finset.notMem_empty i)] at hv
        exact hQ v hv
    refine wp_ite (fun hndir => ?_) fun hdir => ?_
    · refine hleave _ ht fun v hv => ?_
      rw [walkParent,walk,if_neg hndir,if_neg hndir]
      cases parent <;> exact ⟨rfl,hv⟩
    have hdir := not_not.mp hdir
    refine wp_ite (fun hlast => ?_) fun hlast => ?_
    · obtain ⟨rfl,rfl⟩ := hlast
      refine (ht.iunlock (absurd hmem) hc).bind ?_
      rintro - u hu
      rw [Finset.erase_insert (Finset.notMem_empty i)] at hu
      rw [walkParent,if_pos hdir,if_pos rfl]
      exact ⟨c,rfl,hu⟩
    refine (ht.dirlookup (hE.get i) hc hmem hdir name').bind ?_
    rintro next u (⟨rfl,hk,rfl⟩ | ⟨k,c',j,rfl,hk,hj,-,hu⟩)
    · refine hleave _ ht fun v hv => ?_
      have hw : walk T.node i (name' :: rest) = none := by
        rw [walk,if_pos hdir,show (T.node i).find name' = none from hk]
      have hwp : parent = true → walkParent T.node i (name' :: rest) = none := by
        intro hp
        rw [walkParent,if_pos hdir,if_neg fun hr => hlast ⟨hp,hr⟩,
          show (T.node i).find name' = none from hk]
      cases parent with
      | false => rw [hw]; exact ⟨rfl,hv⟩
      | true => rw [hwp rfl]; exact ⟨rfl,hv⟩
    rw [Tree.get_node] at hk hj
    have hsub : insert (c', j) H ⊆ insert (c', j) (insert (c, i) H) :=
      Set.insert_subset_insert (Set.subset_insert _ _)
    refine (hu.iunlockput (absurd hmem) (Set.mem_insert_of_mem _ hc) hsub ?_).bind ?_
    · exact fun c'' hc'' => one_lt_refs (fun hc => hH c'' i hc) hc''
    rintro - v hv
    rw [Tree.get_get_put (hT i),Finset.erase_insert (Finset.notMem_empty i)] at hv
    have hw : walk T.node i (name' :: rest) = walk T.node j rest := by
      rw [walk,if_pos hdir,hk,hj]
    have hwp : parent = true →
        walkParent T.node i (name' :: rest) = walkParent T.node j rest := by
      intro hp
      rw [walkParent,if_pos hdir,if_neg fun hr => hlast ⟨hp,hr⟩,hk,hj]
    have hal : ¬ E (.panic "ilock: no type") → (T.node j).type ≠ .free := fun hno =>
      hj ▸ (hs hno).find hdir hk
    refine (ih c' j v name' hal hv).mono fun r w hr => ?_
    cases parent with
    | false => rw [hw]; exact hr
    | true => rw [hwp rfl]; exact hr

end Rep

/-- Where the resolution of a path starts, for a process in directory `w`. -/
def start (w : ℕ) (path : Path) : ℕ := if path.head? = some slash then ROOTINO else w

/-- The inode that a path names, for a process in directory `w`. -/
def resolve (N : ℕ → Node) (w : ℕ) (path : Path) : Option ℕ :=
  walk N (start w path) (elements path)

/-- The directory of the last element of a path, and that element. -/
def resolveParent (N : ℕ → Node) (w : ℕ) (path : Path) : Option (ℕ × Name) :=
  walkParent N (start w path) (elements path)

/-- Nothing refers to a free inode: no entry, and no pointer of the kernel. -/
structure Tree.Closed (T : Tree) : Prop where
  sound : Sound T.node
  root : (T.node ROOTINO).type ≠ .free
  used : ∀ i, 0 < T.refs i → (T.node i).type ≠ .free

theorem Tree.Closed.start {w : ℕ} {path : Path} (h : T.Closed) (hw : (T.node w).type ≠ .free) :
    (T.node (start w path)).type ≠ .free := by
  rw [Fs.start]
  split
  · exact h.root
  · exact hw

theorem Tree.Closed.resolve {w : ℕ} {path : Path} (h : T.Closed) (hw : (T.node w).type ≠ .free)
    (hr : Fs.resolve T.node w path = some i) : (T.node i).type ≠ .free :=
  h.sound.walk (h.start hw) hr

namespace Rep

variable {cwd : Option ISlot} {w : ℕ}

theorem namex (h : Rep sb s T ∅ H) (hE : Calm E T 2) (hwild : cwd = none → E .wild)
    (hcwd : ∀ c, cwd = some c → (c, w) ∈ H) (hs : ¬ E (.panic "ilock: no type") → T.Closed)
    (path : Path) (parent : Bool) :
    wp E (Fs.namex sb cwd path parent) s fun r t =>
      if parent then
        match resolveParent T.node w path with
        | some (d, last) => ∃ c', r = some (c', last) ∧
            Rep sb t (T.get d) ∅ (insert (c', d) H)
        | none => r = none ∧ Rep sb t T ∅ H
      else
        match resolve T.node w path with
        | some j => ∃ c' last, r = some (c', last) ∧
            Rep sb t (T.get j) ∅ (insert (c', j) H)
        | none => r = none ∧ Rep sb t T ∅ H := by
  have hloop : ∀ c t, ((T.node (start w path)).type ≠ .free ∨ E (.panic "ilock: no type")) →
      Rep sb t (T.get (start w path)) ∅ (insert (c, start w path) H) →
      wp E (Fs.namexLoop sb parent c Name.empty (elements path)) t _ := fun c t hal ht =>
    namexLoop hE parent (fun _ => h.orphan_refs) (fun _ _ => h.refs_pos) (fun hno => (hs hno).sound)
      (elements path) c _ t _ (fun hno => hal.resolve_right hno) ht
  rw [Fs.namex,namexStart.eq_def]
  by_cases habs : path.head? = some slash
  · rw [if_pos habs]
    have hstart : start w path = ROOTINO := if_pos habs
    refine (h.iget (hE.iget.imp_right fun hr => hr.mono one_le_two) ROOTINO).bind fun c t ht =>
      hloop c t ?_ (by rw [hstart]; exact ht.2)
    by_cases hno : E (.panic "ilock: no type")
    · exact .inr hno
    · exact .inl (by rw [hstart]; exact (hs hno).root)
  rw [if_neg habs]
  have hstart : start w path = w := if_neg habs
  cases cwd with
  | none => exact hwild rfl
  | some c0 =>
    have hc := hcwd c0 rfl
    refine (h.idup hc).bind ?_
    rintro c t ⟨rfl,ht⟩
    refine hloop c t ?_ (by rw [hstart,Set.insert_eq_of_mem hc]; exact ht)
    by_cases hno : E (.panic "ilock: no type")
    · exact .inr hno
    · exact .inl (by rw [hstart]; exact (hs hno).used w (h.refs_pos hc))

theorem namei (h : Rep sb s T ∅ H) (hE : Calm E T 2) (hwild : cwd = none → E .wild)
    (hcwd : ∀ c, cwd = some c → (c, w) ∈ H) (hs : ¬ E (.panic "ilock: no type") → T.Closed)
    (path : Path) :
    wp E (Fs.namei sb cwd path) s fun r t =>
      (r = none ∧ resolve T.node w path = none ∧ Rep sb t T ∅ H) ∨
      ∃ c i, r = some c ∧ resolve T.node w path = some i ∧
        Rep sb t (T.get i) ∅ (insert (c, i) H) := by
  refine (h.namex hE hwild hcwd hs path false).bind fun r t hr => ?_
  simp only [Bool.false_eq_true,if_false] at hr
  rw [wp_pure]
  split at hr
  · next i hi =>
    obtain ⟨c,last,rfl,ht⟩ := hr
    exact .inr ⟨c,i,rfl,hi,ht⟩
  · next hi =>
    obtain ⟨rfl,ht⟩ := hr
    exact .inl ⟨rfl,hi,ht⟩

theorem nameiparent (h : Rep sb s T ∅ H) (hE : Calm E T 2) (hwild : cwd = none → E .wild)
    (hcwd : ∀ c, cwd = some c → (c, w) ∈ H) (hs : ¬ E (.panic "ilock: no type") → T.Closed)
    (path : Path) :
    wp E (Fs.nameiparent sb cwd path) s fun r t =>
      (r = none ∧ resolveParent T.node w path = none ∧ Rep sb t T ∅ H) ∨
      ∃ c d name, r = some (c, name) ∧ resolveParent T.node w path = some (d, name) ∧
        Rep sb t (T.get d) ∅ (insert (c, d) H) := by
  refine (h.namex hE hwild hcwd hs path true).mono fun r t hr => ?_
  simp only [if_true] at hr
  split at hr
  · next d name hd =>
    obtain ⟨c,rfl,ht⟩ := hr
    exact .inr ⟨c,d,name,rfl,hd,ht⟩
  · next hd => exact .inl ⟨hr.1,hd,hr.2⟩

end Rep

end Xv6Container.Fs
