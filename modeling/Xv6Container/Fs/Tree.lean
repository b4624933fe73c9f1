import Xv6Container.Fs.Cache
import Xv6Container.Fs.Dir

/-!
# What callers of the inode layer see

`Rep` says that a state looks like a given tree with given locks, and which pointers of the
caller are good. It asks for a valid copy of every allocated inode without links, so that
`Tree.put` need not say when `iput` frees.
-/

namespace Xv6Container.Fs

open Function Prog Finset

variable {sb : Superblock} {s t : State} {c c' : ISlot} {i j n off : ℕ} {E : Stop → Prop}

/-- The nodes, and how often each is referred to. -/
@[ext] structure Tree where
  node : ℕ → Node
  refs : ℕ → ℕ

namespace Tree

variable {T : Tree}

def setNode (T : Tree) (i : ℕ) (x : Node) : Tree := { T with node := update T.node i x }

/-- One reference more. -/
def get (T : Tree) (i : ℕ) : Tree := { T with refs := update T.refs i (T.refs i + 1) }

/-- Allocated and without links: it lives as long as it is referred to. -/
def Orphan (T : Tree) (i : ℕ) : Prop := (T.node i).type ≠ .free ∧ (T.node i).nlink = 0

instance (T : Tree) (i : ℕ) : Decidable (T.Orphan i) :=
  inferInstanceAs (Decidable ((T.node i).type ≠ .free ∧ (T.node i).nlink = 0))

/-- One reference less. -/
def drop (T : Tree) (i : ℕ) : Tree := { T with refs := update T.refs i (T.refs i - 1) }

/-- One reference less; an orphan goes with its last reference. -/
def put (T : Tree) (i : ℕ) : Tree :=
  if T.Orphan i ∧ T.refs i = 1 then (T.drop i).setNode i Node.none else T.drop i

@[simp] theorem setNode_refs (x : Node) : (T.setNode i x).refs = T.refs := rfl

@[simp] theorem setNode_self (x : Node) : (T.setNode i x).node i = x := update_self ..

theorem setNode_of_ne (x : Node) (h : j ≠ i) : (T.setNode i x).node j = T.node j :=
  update_of_ne h _ _

@[simp] theorem get_node : (T.get i).node = T.node := rfl

@[simp] theorem get_refs_self : (T.get i).refs i = T.refs i + 1 := update_self ..

theorem get_refs_of_ne (h : j ≠ i) : (T.get i).refs j = T.refs j := update_of_ne h _ _

theorem le_get_refs : T.refs j ≤ (T.get i).refs j := by
  by_cases h : j = i
  · subst h
    rw [get_refs_self]
    omega
  · rw [get_refs_of_ne h]

@[simp] theorem drop_node : (T.drop i).node = T.node := rfl

@[simp] theorem put_refs_self : (T.put i).refs i = T.refs i - 1 := by
  rw [put]
  split <;> exact update_self ..

theorem put_refs_of_ne (h : j ≠ i) : (T.put i).refs j = T.refs j := by
  rw [put]
  split <;> exact update_of_ne h _ _

theorem put_node_of_ne (h : j ≠ i) : (T.put i).node j = T.node j := by
  rw [put]
  split
  · exact setNode_of_ne _ h
  · rfl

theorem put_of_not_last (h : ¬ (T.Orphan i ∧ T.refs i = 1)) : T.put i = T.drop i := if_neg h

theorem get_put (h : T.Orphan i → 0 < T.refs i) : (T.get i).put i = T := by
  have hno : ¬ ((T.get i).Orphan i ∧ (T.get i).refs i = 1) := by
    rintro ⟨ho,h1⟩
    have := h ho
    rw [get_refs_self] at h1
    omega
  rw [put_of_not_last hno]
  refine Tree.ext rfl ?_
  funext j
  by_cases hj : j = i
  · subst hj
    simp [drop,get]
  · simp [drop,get]

end Tree

/-- The state has the nodes and reference counts of `T`, and the inodes of `L` are locked. The pairs
of `H` are pointers and the inodes behind them. -/
structure Rep (sb : Superblock) (s : State) (T : Tree) (L : Finset ℕ) (H : Set (ISlot × ℕ)) :
    Prop where
  wf : Wf sb s
  node : node s = T.node
  refs : ∀ i, (cached s i).refs = T.refs i
  locked : ∀ i, (cached s i).locked = true ↔ i ∈ L
  valid : ∀ i, i ∈ L ∨ T.Orphan i → (cached s i).valid = true
  held : ∀ c i, (c, i) ∈ H → At s c i

/-- A specification with these reasons to stop allows all that the file system is not meant to
exclude. -/
def Lax (E : Stop → Prop) : Prop :=
  ∀ e, e ≠ .panic "freeing free block" → e ≠ .panic "ilock: no type" → E e

variable {T : Tree} {L : Finset ℕ} {H : Set (ISlot × ℕ)}

theorem Lax.panic {msg : String} (hE : Lax E) (h₁ : msg ≠ "freeing free block")
    (h2 : msg ≠ "ilock: no type") : E (.panic msg) :=
  hE _ (mt Stop.panic.inj h₁) (mt Stop.panic.inj h2)

theorem Lax.blocked (hE : Lax E) : E .blocked := hE _ nofun nofun

theorem Lax.wild (hE : Lax E) : E .wild := hE _ nofun nofun

theorem Lax.balloc (hE : Lax E) : E (.panic "balloc: out of blocks") := hE.panic (by simp) (by simp)

theorem Lax.iunlock (hE : Lax E) : E (.panic "iunlock") := hE.panic (by simp) (by simp)

theorem Lax.dirlink (hE : Lax E) : E (.panic "dirlink") := hE.panic (by simp) (by simp)

/-- At least `n` entries of the cache are not in use. -/
def Tree.Room (T : Tree) (n : ℕ) : Prop :=
  ∃ S : Finset ℕ, (∀ i, 0 < T.refs i → i ∈ S) ∧ S.card + n ≤ NINODE

theorem Tree.Room.mono {m : ℕ} (h : T.Room n) (hm : m ≤ n) : T.Room m := by
  obtain ⟨S,hS,hcard⟩ := h
  exact ⟨S,hS,by omega⟩

theorem Tree.Room.get (h : T.Room (n+1)) (i : ℕ) : (T.get i).Room n := by
  obtain ⟨S,hS,hcard⟩ := h
  refine ⟨insert i S,fun j hj => ?_,?_⟩
  · by_cases hji : j = i
    · rw [hji]
      exact mem_insert_self i S
    · rw [get_refs_of_ne hji] at hj
      exact mem_insert_of_mem (hS j hj)
  · have := card_insert_le i S
    omega

/-- The specification allows a full cache, or `n` entries of it are not in use; and it allows
directories that end in the middle of an entry, or there are none. -/
structure Calm (E : Stop → Prop) (T : Tree) (n : ℕ) : Prop where
  iget : E (.panic "iget: no inodes") ∨ T.Room n
  read : E (.panic "dirlookup read") ∧ E (.panic "dirlink read") ∨
    ∀ d, (T.node d).type = .dir → 16 ∣ (T.node d).size

theorem Lax.calm (hE : Lax E) : Calm E T n := ⟨.inl (hE.panic (by simp) (by simp)),
  .inl ⟨hE.panic (by simp) (by simp),hE.panic (by simp) (by simp)⟩⟩

theorem Calm.get (hE : Calm E T (n+1)) (i : ℕ) : Calm E (T.get i) n :=
  ⟨hE.iget.imp_right fun h => h.get i,hE.read⟩

namespace Rep

theorem slot (h : Rep sb s T L H) (hc : (c, i) ∈ H) : At s c i := h.held c i hc

theorem refs_pos (h : Rep sb s T L H) (hc : (c, i) ∈ H) : 0 < T.refs i := by
  rw [← h.refs,h.wf.cached_eq (h.slot hc)]
  exact (h.slot hc).ref_pos

theorem refs_pos_of_valid (h : Rep sb s T L H) (hv : (cached s i).valid = true) : 0 < T.refs i := by
  rw [← h.refs]
  rw [cached] at hv ⊢
  cases hs : slotOf s i with
  | none => rw [hs] at hv; exact absurd hv Bool.false_ne_true
  | some c => exact (at_of_slotOf hs).ref_pos

theorem orphan_refs (h : Rep sb s T L H) (ho : T.Orphan i) : 0 < T.refs i :=
  h.refs_pos_of_valid (h.valid i (.inr ho))

theorem mono {H' : Set (ISlot × ℕ)} (h : Rep sb s T L H) (hH : H' ⊆ H) : Rep sb s T L H' :=
  { h with held := fun c i hc => h.held c i (hH hc) }

theorem hold (h : Rep sb s T L H) (hc : At s c i) : Rep sb s T L (insert (c, i) H) := by
  refine { h with held := ?_ }
  rintro c' j (hj | hj)
  · obtain ⟨rfl,rfl⟩ := Prod.mk.inj hj
    exact hc
  · exact h.held c' j hj

theorem of_goes {A : Abs} {T' : Tree} {L' : Finset ℕ} {H' : Set (ISlot × ℕ)}
    (h : Rep sb s T L H) (hg : Goes sb s t A) (hnode : A.node = T'.node)
    (hrefs : ∀ i, (A.cache i).refs = T'.refs i) (hlocked : ∀ i, (A.cache i).locked = true ↔ i ∈ L')
    (hvalid : ∀ i, i ∈ L' ∨ T'.Orphan i → (A.cache i).valid = true) (hH : H' ⊆ H)
    (hpos : ∀ c i, (c, i) ∈ H' → 0 < T'.refs i) : Rep sb t T' L' H' := by
  refine ⟨hg.wf,hg.node.trans hnode,fun i => ?_,fun i => ?_,fun i hi => ?_,
    fun c i hc => hg.at (h.held c i (hH hc)) ?_⟩
  · rw [hg.cached]; exact hrefs i
  · rw [hg.cached]; exact hlocked i
  · rw [hg.cached]; exact hvalid i hi
  · rw [hrefs]; exact hpos c i hc

theorem orphan_iff (h : Rep sb s T L H) :
    T.Orphan i ↔ (cached s i).valid = true ∧ (T.node i).nlink = 0 := by
  refine ⟨fun ho => ⟨h.valid i (.inr ho),ho.2⟩,fun hv => ?_⟩
  obtain ⟨c,hc⟩ := exists_at (i := i) (s := s) (by
    rw [h.refs]
    exact h.refs_pos_of_valid hv.1)
  rw [h.wf.cached_eq hc] at hv
  refine ⟨?_,hv.2⟩
  rw [← h.node,node_type]
  exact h.wf.alloc hc hv.1

theorem of_get (h : Rep sb s T L H) (hg : Goes sb s t ((Fs.abs s).get i)) :
    Rep sb t (T.get i) L H := by
  refine h.of_goes hg h.node (fun j => ?_) (fun j => ?_) (fun j hj => ?_) subset_rfl
    fun c j hc => lt_of_lt_of_le (h.refs_pos hc) Tree.le_get_refs
  · by_cases hj : j = i
    · subst hj
      simp [Abs.get,Abs.setCache,← h.refs,Fs.abs]
    · simp [Abs.get,Abs.setCache,hj,Tree.get_refs_of_ne hj,← h.refs,Fs.abs]
  · rw [← h.locked]
    by_cases hj : j = i
    · subst hj
      simp [Abs.get,Abs.setCache,Fs.abs]
    · simp [Abs.get,Abs.setCache,hj,Fs.abs]
  · have hv := h.valid j hj
    by_cases hj : j = i
    · subst hj
      simpa [Abs.get,Abs.setCache,Fs.abs] using hv
    · simpa [Abs.get,Abs.setCache,hj,Fs.abs] using hv

theorem exists_empty (h : Rep sb s T L H) (hroom : T.Room 1) : ∃ c, (s.inode c).ref = 0 := by
  by_contra hfull
  obtain ⟨S,hS,hcard⟩ := hroom
  have hat : ∀ c, At s c (s.inode c).inum := fun c =>
    ⟨Nat.pos_of_ne_zero fun h0 => hfull ⟨c,h0⟩,rfl⟩
  have hle : (Finset.univ : Finset ISlot).card ≤ S.card := by
    refine card_le_card_of_injOn (fun c => (s.inode c).inum) (fun c _ => hS _ ?_) ?_
    · rw [← h.refs,h.wf.cached_eq (hat c)]
      exact (hat c).ref_pos
    · intro c _ c' _ heq
      exact h.wf.uniq c c' (hat c).ref_pos (hat c').ref_pos heq
  rw [card_univ,Fintype.card_fin] at hle
  omega

theorem iget (h : Rep sb s T L H) (hE : E (.panic "iget: no inodes") ∨ T.Room 1) (i : ℕ) :
    wp E (Fs.iget i) s fun c t => t.bitmap = s.bitmap ∧ Rep sb t (T.get i) L (insert (c, i) H) := by
  refine (wp_iget (fun hfull => hE.elim id fun hroom => ?_) h.wf i).mono fun _ _ ⟨hb,hc,hg⟩ =>
    ⟨hb,(h.of_get hg).hold hc⟩
  obtain ⟨c,hc⟩ := h.exists_empty hroom
  exact absurd hc (hfull c)

theorem idup (h : Rep sb s T L H) (hc : (c, i) ∈ H) :
    wp E (Fs.idup c) s fun r t => r = c ∧ Rep sb t (T.get i) L H :=
  (wp_idup h.wf (h.slot hc)).mono fun _ _ ⟨hr,_,hg⟩ => ⟨hr,h.of_get hg⟩

theorem ilock (h : Rep sb s T L H) (hE : i ∈ L → E .blocked) (hc : (c, i) ∈ H)
    (htype : ¬ E (.panic "ilock: no type") → (T.node i).type ≠ .free) :
    wp E (Fs.ilock c) s fun _ t => i ∉ L ∧ (T.node i).type ≠ .free ∧ Rep sb t T (insert i L) H := by
  have htype' : (Fs.node s i).type = .free → E (.panic "ilock: no type") := by
    intro hfree
    by_contra hno
    rw [h.node] at hfree
    exact htype hno hfree
  refine (wp_ilock (fun hl => hE ((h.locked i).mp hl)) htype' h.wf (h.slot hc)).mono ?_
  rintro - t ⟨hl,hal,-,hg,-⟩
  refine ⟨fun hi => ?_,by rw [← h.node]; exact hal,?_⟩
  · rw [(h.locked i).mpr hi] at hl
    exact absurd hl (by decide)
  refine h.of_goes hg h.node (fun j => ?_) (fun j => ?_) (fun j hj => ?_) subset_rfl
    fun c j hc => h.refs_pos hc
  · rw [← h.refs]
    by_cases hj : j = i
    · subst hj
      simp [Abs.lock,Abs.setCache,Fs.abs]
    · simp [Abs.lock,Abs.setCache,hj,Fs.abs]
  · by_cases hj : j = i
    · subst hj
      simp [Abs.lock,Abs.setCache]
    · simp [Abs.lock,Abs.setCache,hj,Fs.abs,h.locked]
  · by_cases hji : j = i
    · subst hji
      simp [Abs.lock,Abs.setCache]
    · have hv := h.valid j (hj.imp_left fun hm => (mem_insert.mp hm).resolve_left hji)
      simpa [Abs.lock,Abs.setCache,hji,Fs.abs] using hv

theorem of_unlock (h : Rep sb s T L H) (hg : Goes sb s t ((Fs.abs s).unlock i)) :
    Rep sb t T (L.erase i) H := by
  refine h.of_goes hg h.node (fun j => ?_) (fun j => ?_) (fun j hj => ?_) subset_rfl
    fun c j hc => h.refs_pos hc
  · rw [← h.refs,Abs.refs_unlock]
    rfl
  · by_cases hj : j = i
    · subst hj
      simp [Abs.unlock,Abs.setCache]
    · simp [Abs.unlock,Abs.setCache,hj,Fs.abs,h.locked]
  · have hv := h.valid j (hj.imp_left mem_of_mem_erase)
    by_cases hji : j = i
    · subst hji
      simpa [Abs.unlock,Abs.setCache,Fs.abs] using hv
    · simpa [Abs.unlock,Abs.setCache,hji,Fs.abs] using hv

theorem iunlock (h : Rep sb s T L H) (hE : i ∉ L → E (.panic "iunlock")) (hc : (c, i) ∈ H) :
    wp E (Fs.iunlock c) s fun _ t => Rep sb t T (L.erase i) H := by
  refine (wp_iunlock (fun hl => hE fun hi => ?_) h.wf (h.slot hc)).mono fun _ _ ⟨_,_,hg,_⟩ =>
    h.of_unlock hg
  rw [(h.locked i).mpr hi] at hl
  cases hl

theorem iput {H' : Set (ISlot × ℕ)} (h : Rep sb s T L H) (hE : i ∈ L → E .blocked) (hc : (c, i) ∈ H)
    (hH : H' ⊆ H) (hlast : ∀ c', (c', i) ∈ H' → 1 < T.refs i) :
    wp E (Fs.iput c) s fun _ t => i ∉ L ∧ Rep sb t (T.put i) L H' := by
  refine (wp_iput (fun hl => hE ((h.locked i).mp hl)) h.wf (h.slot hc)).mono ?_
  rintro - t ⟨hl,hg⟩
  have hi : i ∉ L := fun hi => by
    rw [(h.locked i).mpr hi] at hl
    exact absurd hl (by decide)
  have hLast : (Fs.abs s).Last i ↔ T.Orphan i ∧ T.refs i = 1 := by
    rw [h.orphan_iff,← h.refs,← h.node,and_assoc]
    rfl
  have hpos : ∀ c' j, (c', j) ∈ H' → 0 < (T.put i).refs j := by
    intro c' j hj
    by_cases hji : j = i
    · subst hji
      have := hlast c' hj
      rw [Tree.put_refs_self]
      omega
    · rw [Tree.put_refs_of_ne hji]
      exact h.refs_pos (hH hj)
  refine ⟨hi,?_⟩
  by_cases hlast' : T.Orphan i ∧ T.refs i = 1
  · rw [Abs.put,if_pos (hLast.mpr hlast')] at hg
    have hput : T.put i = (T.drop i).setNode i Node.none := if_pos hlast'
    refine h.of_goes hg ?_ (fun j => ?_) (fun j => ?_) (fun j hj => ?_) hH hpos
    · rw [hput]
      show update (Fs.node s) i Node.none = update T.node i Node.none
      rw [h.node]
    · by_cases hj : j = i
      · subst hj
        simp [Abs.setCache,Cached.none,hlast'.2]
      · simp [Abs.setCache,Abs.setNode,hj,Tree.put_refs_of_ne hj,← h.refs,Fs.abs]
    · by_cases hj : j = i
      · subst hj
        simp [Abs.setCache,Cached.none,hi]
      · simp [Abs.setCache,Abs.setNode,hj,Fs.abs,h.locked]
    have hji : j ≠ i := by
      rintro rfl
      rcases hj with hj | hj
      · exact hi hj
      · rw [hput,Tree.Orphan,Tree.setNode_self] at hj
        exact hj.1 rfl
    have hv := h.valid j (hj.imp_right fun ho => by
      rwa [hput,Tree.Orphan,Tree.setNode_of_ne _ hji] at ho)
    simpa [Abs.setCache,Abs.setNode,hji,Fs.abs] using hv
  rw [Abs.put,if_neg (mt hLast.mp hlast')] at hg
  have hput : T.put i = T.drop i := Tree.put_of_not_last hlast'
  have hself : ((Fs.abs s).drop i).cache i = if (cached s i).refs ≤ 1 then Cached.none
      else { cached s i with refs := (cached s i).refs - 1 } := update_self ..
  refine h.of_goes hg ?_ (fun j => ?_) (fun j => ?_) (fun j hj => ?_) hH hpos
  · rw [hput]
    exact h.node
  · by_cases hj : j = i
    · subst hj
      rw [hself,Tree.put_refs_self,← h.refs]
      split
      · next h1 => exact (Nat.sub_eq_zero_of_le h1).symm
      · rfl
    · simp [Abs.drop,Abs.setCache,hj,Tree.put_refs_of_ne hj,← h.refs,Fs.abs]
  · by_cases hj : j = i
    · subst hj
      rw [hself]
      split
      · exact iff_of_false Bool.false_ne_true hi
      · exact h.locked j
    · simp [Abs.drop,Abs.setCache,hj,Fs.abs,h.locked]
  rw [hput] at hj
  have hv := h.valid j hj
  by_cases hji : j = i
  · subst hji
    have ho : T.Orphan j := hj.resolve_left hi
    have hr := h.orphan_refs ho
    have h1 : T.refs j ≠ 1 := fun h1 => hlast' ⟨ho,h1⟩
    rw [hself,if_neg (by rw [h.refs]; omega)]
    exact hv
  · simpa [Abs.drop,Abs.setCache,hji,Fs.abs] using hv

theorem iput_temp (h : Rep sb s (T.get i) L (insert (c, i) H)) (hE : i ∈ L → E .blocked)
    (hH : ∀ c', (c', i) ∈ H → 0 < T.refs i) :
    wp E (Fs.iput c) s fun _ t => i ∉ L ∧ Rep sb t ((T.get i).put i) L H := by
  refine h.iput hE (Set.mem_insert _ _) (Set.subset_insert _ _) fun c' hc' => ?_
  have := hH c' hc'
  rw [Tree.get_refs_self]
  omega

theorem iunlockput {H' : Set (ISlot × ℕ)} (h : Rep sb s T L H)
    (hE : i ∉ L → E (.panic "iunlock")) (hc : (c, i) ∈ H) (hH : H' ⊆ H)
    (hlast : ∀ c', (c', i) ∈ H' → 1 < T.refs i) :
    wp E (Fs.iunlockput c) s fun _ t => Rep sb t (T.put i) (L.erase i) H' := by
  rw [Fs.iunlockput]
  refine (h.iunlock hE hc).bind fun _ t ht => ?_
  exact (ht.iput (fun hi => absurd rfl (ne_of_mem_erase hi)) hc hH hlast).mono fun _ _ hu => hu.2

theorem valid_of_locked (h : Rep sb s T L H) (hi : i ∈ L) : (cached s i).valid = true :=
  h.valid i (.inl hi)

theorem alloc (h : Rep sb s T L H) (hi : i ∈ L) (hc : (c, i) ∈ H) : (T.node i).type ≠ .free := by
  have hv := h.valid_of_locked hi
  rw [h.wf.cached_eq (h.slot hc)] at hv
  rw [← h.node,node_type]
  exact h.wf.alloc (h.slot hc) hv

theorem of_setNode {x : Node} (h : Rep sb s T L H) (hi : i ∈ L)
    (hg : Goes sb s t ((Fs.abs s).setNode i x)) : Rep sb t (T.setNode i x) L H := by
  refine h.of_goes hg ?_ h.refs h.locked (fun j hj => ?_) subset_rfl fun c j hc => h.refs_pos hc
  · show update (Fs.node s) i x = update T.node i x
    rw [h.node]
  · by_cases hji : j = i
    · subst hji
      exact h.valid_of_locked hi
    · exact h.valid j (hj.imp_right fun ho => by
        rwa [Tree.Orphan,Tree.setNode_of_ne _ hji] at ho)

theorem setFields (h : Rep sb s T L H) (hc : (c, i) ∈ H) (hi : i ∈ L) (f : Dinode → Dinode)
    (htype : ∀ d, (f d).type = d.type) (hsize : ∀ d, (f d).size = d.size)
    (haddrs : ∀ d, (f d).addrs = d.addrs) :
    wp E (do setDin c f; iupdate c) s fun _ t => ∃ d : Dinode,
      (T.node i).major = d.major ∧ (T.node i).minor = d.minor ∧ (T.node i).nlink = d.nlink ∧
      Rep sb t (T.setNode i { T.node i with
        major := (f d).major
        minor := (f d).minor
        nlink := (f d).nlink }) L H := by
  have hal := h.alloc hi hc
  refine (wp_setFields h.wf (h.slot hc) (h.valid_of_locked hi) htype hsize haddrs).mono ?_
  rintro - t ⟨-,x,rfl,hg⟩
  have hnode := node_of_alloc (s := s) (i := i) (by rw [← node_type,h.node]; exact hal)
  have hrep := h.of_setNode hi hg
  rw [h.node] at hnode hrep
  exact ⟨s.dinode i,by rw [hnode],by rw [hnode],by rw [hnode],hrep⟩

theorem readi (h : Rep sb s T L H) (hc : (c, i) ∈ H) (hi : i ∈ L)
    (hdev : (T.node i).type ≠ .dev) (hoff : off < 2 ^ 32) (hn : n < 2 ^ 32) :
    wp E (Fs.readi sb c off n) s fun r t => t = s ∧
      r = if (T.node i).size < off ∨ 2 ^ 32 ≤ off + n then none
        else some ((T.node i).bytes off (min n ((T.node i).size - off))) := by
  rw [← h.node] at hdev ⊢
  exact wp_readi_node h.wf (h.slot hc) (h.valid_of_locked hi) hdev hoff hn

theorem writei {src : List UInt8} (h : Rep sb s T L H)
    (hE : E (.panic "balloc: out of blocks") ∨ (places off src.length).card ≤ freeBlocks sb s)
    (hc : (c, i) ∈ H) (hi : i ∈ L)
    (hdev : (T.node i).type ≠ .dev) (hoff : off < 2 ^ 32) (hn : src.length < 2 ^ 32) :
    wp E (Fs.writei sb c src off) s fun r t =>
      if (T.node i).size < off ∨ 2 ^ 32 ≤ off + src.length ∨ MAXFILE * BSIZE < off + src.length
      then r = none ∧ t = s
      else r = some src.length ∧ Rep sb t (T.setNode i ((T.node i).write off src)) L H := by
  rw [← h.node] at hdev ⊢
  refine (wp_writei_node (fun _ _ hlt => hE.resolve_right fun hle => ?_) h.wf (h.slot hc)
    (h.valid_of_locked hi) hdev hoff hn).mono ?_
  · have := holes_le (s.dinode i) s.block (places off src.length)
    omega
  rintro r t ⟨-,hres⟩
  split
  · next hcond => rwa [if_pos hcond] at hres
  · next hcond =>
    rw [if_neg hcond] at hres
    exact ⟨hres.1,h.of_setNode hi hres.2.1⟩

theorem ialloc_ilock {α : Type} {type : FType} {Q : α → State → Prop} {m : ISlot → M α}
    (h : Rep sb s T L H) (hE : Lax E) (htype : type ≠ .free)
    (hm : ∀ c i t, 0 < i → i < sb.ninodes → (T.node i).type = .free →
      freeInode sb T.node = some i → i ∉ L → Rep sb t ((T.setNode i (Node.fresh type)).get i) (insert i L)
        (insert (c, i) H) → wp E (m c) t Q) :
    wp E (do
      let c ← Fs.ialloc sb type
      Fs.ilock c
      m c) s Q := by
  refine (wp_ialloc (hE.panic (by simp) (by simp)) (hE.panic (by simp) (by simp)) h.wf htype).bind ?_
  rintro c t ⟨i,h0,hlt,hfree,hfirst,hc,hg⟩
  rw [h.node] at hfirst
  have hnode : Fs.node t = update (Fs.node s) i (Node.fresh type) := hg.node
  have halloc : (Fs.node t i).type ≠ .free := by
    rw [hnode,update_self]
    exact htype
  refine (wp_ilock (fun _ => hE.blocked) (fun hf => absurd hf halloc) hg.wf hc).bind ?_
  rintro - u ⟨hl,-,hcu,hg',-⟩
  rw [hg.abs] at hg'
  have hcache : ∀ j, j ≠ i →
      ((((Fs.abs s).setNode i (Node.fresh type)).get i).lock i).cache j = cached s j := by
    intro j hj
    simp [Abs.lock,Abs.get,Abs.setCache,Abs.setNode,hj,Fs.abs]
  have hself : ((((Fs.abs s).setNode i (Node.fresh type)).get i).lock i).cache i =
      ⟨(cached s i).refs + 1,true,true⟩ := by
    simp [Abs.lock,Abs.get,Abs.setCache,Abs.setNode,Fs.abs]
  have hi : i ∉ L := by
    intro hi
    have hlocked : (cached t i).locked = (cached s i).locked := by
      rw [hg.cached]
      simp [Abs.get,Abs.setCache,Abs.setNode,Fs.abs]
    rw [hlocked,(h.locked i).mpr hi] at hl
    exact absurd hl (by decide)
  have hgoes : Goes sb s u _ := hg.trans hg' fun j hj _ => by
    by_cases hji : j = i
    · subst hji
      simp [Abs.get,Abs.setCache]
    · simpa [Abs.get,Abs.setCache,Abs.setNode,hji,Fs.abs] using hj
  refine hm c i u h0 hlt (by rw [← h.node]; exact hfree) hfirst hi (Rep.hold ?_ hcu)
  refine h.of_goes hgoes ?_ (fun j => ?_) (fun j => ?_) (fun j hj => ?_) subset_rfl
    fun c j hc => lt_of_lt_of_le (h.refs_pos hc) Tree.le_get_refs
  · show update (Fs.node s) i _ = update T.node i _
    rw [h.node]
  · by_cases hj : j = i
    · subst hj
      rw [hself,Tree.get_refs_self,Tree.setNode_refs,← h.refs]
    · rw [hcache j hj,Tree.get_refs_of_ne hj,Tree.setNode_refs,h.refs]
  · by_cases hj : j = i
    · subst hj
      simp [hself]
    · rw [hcache j hj,h.locked,mem_insert]
      exact (or_iff_right hj).symm
  · by_cases hji : j = i
    · subst hji
      rw [hself]
    · rw [hcache j hji]
      refine h.valid j (hj.imp (fun hm => (mem_insert.mp hm).resolve_left hji) fun ho => ?_)
      rwa [Tree.Orphan,Tree.get_node,Tree.setNode_of_ne _ hji] at ho

end Rep

end Xv6Container.Fs
