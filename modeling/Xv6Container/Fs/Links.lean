import Xv6Container.Fs.Grow

/-!
# Link counts

The links to an inode are the entries that refer to it, apart from the `.` of every directory
and the `..` of a removed one. `Linked` says that directories form a tree along `..` and that
no inode has more links than its count; with `Exact` every count is right.
-/

namespace Xv6Container.Fs

open Finset

variable {n d e i j k c : ℕ} {N N' : ℕ → Node} {x : Node} {name : Name}
  {major minor : Int16}

namespace Node

theorem addLinks_one (h : x.nlink.toInt < 32767) :
    (x.addLinks 1).nlink.toInt = x.nlink.toInt+1 := by
  have hlow := x.nlink.le_toInt
  change (x.nlink+1).toInt = _
  rw [Int16.toInt_add,show (1 : Int16).toInt = 1 from rfl]
  apply Int.bmod_eq_of_le
  · omega
  · omega

theorem addLinks_neg_one (h : 0 < x.nlink.toInt) :
    (x.addLinks (-1)).nlink.toInt = x.nlink.toInt-1 := by
  have hhigh := x.nlink.toInt_lt
  change (x.nlink + -1).toInt = _
  rw [Int16.toInt_add,show (-1 : Int16).toInt = -1 from rfl]
  apply Int.bmod_eq_of_le
  · omega
  · omega

theorem addLinks_nlink (m : Int16) : (x.addLinks m).nlink = x.nlink+m := rfl

@[simp] theorem addLinks_dirent (m : Int16) : (x.addLinks m).dirent k = x.dirent k := rfl

@[simp] theorem addLinks_slots (m : Int16) : (x.addLinks m).slots = x.slots := rfl

theorem nlink_eq_zero : x.nlink = 0 ↔ x.nlink.toInt = 0 := Int16.toInt_inj.symm

theorem not_nlink_lt_one : ¬ x.nlink < 1 ↔ 0 < x.nlink.toInt := by
  rw [Int16.lt_iff_toInt_lt]
  change ¬ x.nlink.toInt < 1 ↔ _
  omega

/-- Entry `k` is a link: it is in use, and it is neither `.` nor the `..` of a removed directory. -/
def Counted (x : Node) (k : ℕ) : Prop :=
  (x.dirent k).inum ≠ 0 ∧ (x.dirent k).name ≠ Name.dot ∧
    ((x.dirent k).name = Name.dotdot → x.nlink ≠ 0)

instance (x : Node) (k : ℕ) : Decidable (x.Counted k) :=
  inferInstanceAs (Decidable (_ ∧ _))

/-- The places of a directory with links to inode `i`. -/
def links (x : Node) (i : ℕ) : Finset ℕ :=
  (Finset.range x.slots).filter fun k => x.type = .dir ∧ x.Counted k ∧ (x.dirent k).inum = i

/-- What the `..` of a directory refers to. -/
def parent (x : Node) : ℕ := (x.dirent 1).inum

@[simp] theorem addLinks_parent (m : Int16) : (x.addLinks m).parent = x.parent := rfl

theorem addLinks_empty (m : Int16) : (x.addLinks m).Empty ↔ x.Empty := Iff.rfl

theorem mem_links : k ∈ x.links i ↔
    k < x.slots ∧ x.type = .dir ∧ x.Counted k ∧ (x.dirent k).inum = i := by
  rw [links,mem_filter,mem_range]

theorem links_of_not_dir (h : x.type ≠ .dir) : x.links i = ∅ := by
  ext k
  simp [mem_links,h]

theorem links_addLinks (m : Int16) (h : x.nlink ≠ 0) (h' : (x.addLinks m).nlink ≠ 0) :
    (x.addLinks m).links i = x.links i := by
  have hcounted : ∀ k, (x.addLinks m).Counted k ↔ x.Counted k := fun k =>
    ⟨fun hk => ⟨hk.1,hk.2.1,fun _ => h⟩,fun hk => ⟨hk.1,hk.2.1,fun _ => h'⟩⟩
  ext k
  rw [mem_links,mem_links,hcounted]
  rfl

/-- A directory that begins with `.` and `..`, and has them nowhere else. -/
structure DirOk (x : Node) (d : ℕ) : Prop where
  two : 2 ≤ x.slots
  dot : x.dirent 0 = ⟨d, Name.dot⟩
  dotdot : (x.dirent 1).name = Name.dotdot
  up : x.parent ≠ 0
  named : ∀ k, 2 ≤ k → k < x.slots → (x.dirent k).inum ≠ 0 →
    (x.dirent k).name ≠ Name.dot ∧ (x.dirent k).name ≠ Name.dotdot

namespace DirOk

theorem addLinks (h : x.DirOk d) (m : Int16) : (x.addLinks m).DirOk d :=
  ⟨h.two,h.dot,h.dotdot,h.up,h.named⟩

theorem name_ne (h : x.DirOk d) (hd : d ≠ 0) (hfind : x.find name = .none) :
    name ≠ Name.dot ∧ name ≠ Name.dotdot := by
  rw [find_eq_none] at hfind
  constructor
  · rintro rfl
    exact hfind 0 (by have := h.two; omega) (by rw [h.dot]; exact hd) (by rw [h.dot])
  · rintro rfl
    exact hfind 1 (by have := h.two; omega) h.up h.dotdot

theorem two_le (h : x.DirOk d) (hdot : (x.dirent k).name ≠ Name.dot)
    (hdotdot : (x.dirent k).name ≠ Name.dotdot) : 2 ≤ k := by
  by_contra hk
  have hcases : k = 0 ∨ k = 1 := by omega
  rcases hcases with rfl | rfl
  · exact hdot (by rw [h.dot])
  · exact hdotdot h.dotdot

theorem two_le_freeSlot (h : x.DirOk d) (hd : d ≠ 0) : 2 ≤ x.freeSlot := by
  have htwo := h.two
  by_contra hk
  have hcases : x.freeSlot = 0 ∨ x.freeSlot = 1 := by omega
  have hfree : (x.dirent x.freeSlot).inum = 0 := freeSlot_inum (by omega)
  rcases hcases with h0 | h1
  · rw [h0,h.dot] at hfree
    exact hd hfree
  · rw [h1] at hfree
    exact h.up hfree

theorem counted_iff (h : x.DirOk d) (hk : k < x.slots) :
    x.Counted k ↔ (k = 1 ∧ x.nlink ≠ 0) ∨ (2 ≤ k ∧ (x.dirent k).inum ≠ 0) := by
  constructor
  · intro hc
    by_cases hup : (x.dirent k).name = Name.dotdot
    · by_cases h1 : k = 1
      · exact .inl ⟨h1,hc.2.2 hup⟩
      · have h2 : 2 ≤ k := by
          by_contra hlt
          have h0 : k = 0 := by omega
          exact hc.2.1 (by rw [h0,h.dot])
        exact absurd hup (h.named k h2 hk hc.1).2
    · exact .inr ⟨h.two_le hc.2.1 hup,hc.1⟩
  · rintro (⟨rfl,hn⟩ | ⟨h2,h0⟩)
    · exact ⟨h.up,by rw [h.dotdot]; decide,fun _ => hn⟩
    · have hname := h.named k h2 hk h0
      exact ⟨h0,hname.1,fun hup => absurd hup hname.2⟩

theorem links_of_empty (h : x.DirOk d) (htype : x.type = .dir) (hempty : x.Empty) :
    (x.links i).card = if x.nlink ≠ 0 ∧ x.parent = i then 1 else 0 := by
  have hlinks : x.links i = if x.nlink ≠ 0 ∧ x.parent = i then {1} else ∅ := by
    ext k
    have hiff : k ∈ x.links i ↔ k = 1 ∧ x.nlink ≠ 0 ∧ x.parent = i := by
      rw [mem_links]
      constructor
      · rintro ⟨hk,-,hc,hi⟩
        rcases (h.counted_iff hk).mp hc with ⟨rfl,hn⟩ | ⟨h2,h0⟩
        · exact ⟨rfl,hn,hi⟩
        · exact absurd (hempty k h2 hk) h0
      · rintro ⟨rfl,hn,hi⟩
        exact ⟨h.two,htype,(h.counted_iff h.two).mpr (.inl ⟨rfl,hn⟩),hi⟩
    rw [hiff]
    split
    · next hc => simp [hc]
    · next hc => simp [hc]
  rw [hlinks]
  split
  · exact card_singleton 1
  · exact card_empty

theorem addEntry (h : x.DirOk d) (hd : d ≠ 0) (hi : i < 2 ^ 16) (hfind : x.find name = .none) :
    (x.addEntry name i).DirOk d := by
  have hfree := h.two_le_freeSlot hd
  have hone : (x.addEntry name i).dirent 1 = x.dirent 1 := dirent_addEntry_of_ne (by omega)
  refine ⟨?_,?_,by rw [hone]; exact h.dotdot,?_,fun k h2 hk h0 => ?_⟩
  · rw [slots_addEntry]
    exact le_max_of_le_left h.two
  · rw [dirent_addEntry_of_ne (by omega)]
    exact h.dot
  · rw [parent,hone]
    exact h.up
  · by_cases hf : k = x.freeSlot
    · rw [hf,dirent_addEntry_self hi]
      exact h.name_ne hd hfind
    · rw [dirent_addEntry_of_ne hf] at h0 ⊢
      exact h.named k h2 ((lt_slots_addEntry.mp hk).resolve_left hf) h0

theorem clear (h : x.DirOk d) (h2 : 2 ≤ k) (hk : k < x.slots) :
    (x.setDirent k Dirent.zero).DirOk d := by
  have hself : (x.setDirent k Dirent.zero).dirent k = Dirent.zero := dirent_setDirent_self (by decide)
  have hone : (x.setDirent k Dirent.zero).dirent 1 = x.dirent 1 :=
    dirent_setDirent_of_ne (by omega)
  refine ⟨?_,?_,by rw [hone]; exact h.dotdot,?_,fun m hm2 hm h0 => ?_⟩
  · rw [slots_setDirent hk]
    exact h.two
  · rw [dirent_setDirent_of_ne (by omega)]
    exact h.dot
  · rw [parent,hone]
    exact h.up
  · by_cases hmk : m = k
    · rw [hmk,hself] at h0
      exact absurd rfl h0
    · rw [dirent_setDirent_of_ne hmk] at h0 ⊢
      rw [slots_setDirent hk] at hm
      exact h.named m hm2 hm h0

end DirOk

theorem links_addEntry (hdir : x.type = .dir) (hdot : name ≠ Name.dot)
    (hdotdot : name ≠ Name.dotdot) (h0 : i ≠ 0) (hi : i < 2 ^ 16) :
    ((x.addEntry name i).links j).card = (x.links j).card + if i = j then 1 else 0 := by
  have hother : ∀ k, k ≠ x.freeSlot →
      (k ∈ (x.addEntry name i).links j ↔ k ∈ x.links j) := by
    intro k hk
    rw [mem_links,mem_links,lt_slots_addEntry,Counted,Counted,dirent_addEntry_of_ne hk]
    simp [hk]
  have hnew : x.freeSlot ∈ (x.addEntry name i).links j ↔ i = j := by
    rw [mem_links,lt_slots_addEntry,Counted,dirent_addEntry_self hi]
    simp [hdir,hdot,hdotdot,h0]
  have hold : x.freeSlot ∉ x.links j := by
    intro hk
    obtain ⟨hlt,-,hc,-⟩ := mem_links.mp hk
    exact hc.1 (freeSlot_inum hlt)
  split
  · next hij =>
    have : (x.addEntry name i).links j = insert x.freeSlot (x.links j) := by
      ext k
      by_cases hk : k = x.freeSlot
      · rw [hk,hnew,mem_insert]
        exact iff_of_true hij (.inl rfl)
      · rw [hother k hk,mem_insert]
        exact ⟨.inr,fun h => h.resolve_left hk⟩
    rw [this,card_insert_of_notMem hold]
  · next hij =>
    have : (x.addEntry name i).links j = x.links j := by
      ext k
      by_cases hk : k = x.freeSlot
      · rw [hk,hnew]
        exact iff_of_false hij hold
      · exact hother k hk
    rw [this,Nat.add_zero]

theorem links_clear (hk : k ∈ x.links i) :
    ((x.setDirent k Dirent.zero).links j).card + (if i = j then 1 else 0) = (x.links j).card := by
  obtain ⟨hlt,-,-,hinum⟩ := mem_links.mp hk
  have hself : (x.setDirent k Dirent.zero).dirent k = Dirent.zero := dirent_setDirent_self (by decide)
  have herase : (x.setDirent k Dirent.zero).links j = (x.links j).erase k := by
    ext m
    rw [mem_erase,mem_links,mem_links,slots_setDirent hlt,Counted,Counted]
    by_cases hm : m = k
    · rw [hm,hself]
      exact iff_of_false (fun h => h.2.2.1.1 rfl) fun h => h.1 rfl
    · rw [dirent_setDirent_of_ne hm]
      simp [hm]
  rw [herase]
  split
  · next hij =>
    subst hij
    exact card_erase_add_one hk
  · next hij =>
    have hnot : k ∉ x.links j := fun h => hij (hinum.symm.trans (mem_links.mp h).2.2.2)
    rw [erase_eq_of_notMem hnot,Nat.add_zero]

variable (major minor) in
theorem new_dir (hi0 : i ≠ 0) (hi : i < 2 ^ 16) (hd0 : d ≠ 0) (hd : d < 2 ^ 16) :
    (new .dir major minor i d).DirOk i ∧ (new .dir major minor i d).Empty ∧
      (new .dir major minor i d).parent = d := by
  set y := (made .dir major minor).addEntry Name.dot i with hy
  have hnew : new .dir major minor i d = y.addEntry Name.dotdot d := rfl
  have hslots0 : (made .dir major minor).slots = 0 := Nat.zero_div 16
  have hfree0 : (made .dir major minor).freeSlot = 0 :=
    Nat.le_zero.mp (hslots0 ▸ freeSlot_le)
  have hydot : y.dirent 0 = ⟨i,Name.dot⟩ := by
    rw [hy,← hfree0]
    exact dirent_addEntry_self hi
  have hyslots : y.slots = 1 := by
    rw [hy,slots_addEntry,hfree0,hslots0]
    rfl
  have hyfree : y.freeSlot = 1 := by
    have hle := y.freeSlot_le
    by_contra hne
    have h0 : y.freeSlot = 0 := by omega
    have := freeSlot_inum (x := y) (by omega)
    rw [h0,hydot] at this
    exact hi0 this
  have hslots : (y.addEntry Name.dotdot d).slots = 2 := by
    rw [slots_addEntry,hyfree,hyslots]
    rfl
  have hone : (y.addEntry Name.dotdot d).dirent 1 = ⟨d,Name.dotdot⟩ := by
    rw [← hyfree]
    exact dirent_addEntry_self hd
  rw [hnew]
  refine ⟨⟨hslots.ge,?_,by rw [hone],?_,fun k h2 hk => ?_⟩,fun k h2 hk => ?_,?_⟩
  · rw [dirent_addEntry_of_ne (by omega)]
    exact hydot
  · rw [parent,hone]
    exact hd0
  · omega
  · omega
  · rw [parent,hone]

end Node

/-- The number of links to inode `i` in the first `n` inodes. -/
def linksTo (n : ℕ) (N : ℕ → Node) (i : ℕ) : ℕ := ∑ d ∈ Finset.range n, ((N d).links i).card

theorem linksTo_pos : 0 < linksTo n N i ↔ ∃ d < n, ∃ k, k ∈ (N d).links i := by
  rw [linksTo,sum_pos_iff]
  simp only [mem_range,card_pos]
  rfl

theorem linksTo_update (hd : d < n) (x : Node) :
    linksTo n (Function.update N d x) i + ((N d).links i).card =
      linksTo n N i + (x.links i).card := by
  have hmem : d ∈ Finset.range n := mem_range.mpr hd
  have hrest : ∑ e ∈ (Finset.range n).erase d, ((Function.update N d x e).links i).card =
      ∑ e ∈ (Finset.range n).erase d, ((N e).links i).card :=
    sum_congr rfl fun e he => by rw [Function.update_of_ne (ne_of_mem_erase he)]
  rw [linksTo,linksTo,← add_sum_erase _ _ hmem,hrest,Function.update_self,
    ← add_sum_erase (Finset.range n) (fun e => ((N e).links i).card) hmem]
  omega

/-- Entry `k` of directory `d` is for the directory `c`. -/
structure Child (N : ℕ → Node) (d k c : ℕ) : Prop where
  entry : HasEntry N d k
  two_le : 2 ≤ k
  inum : ((N d).dirent k).inum = c
  dir : (N c).type = .dir

/-- The directories are a tree: the `..` of every directory is where its only entry is, and a
removed directory has no directories. -/
structure Shape (N : ℕ → Node) : Prop where
  dirs : ∀ d, (N d).type = .dir → d ≠ 0 ∧ (N d).DirOk d
  root : (N ROOTINO).type = .dir
  root_parent : (N ROOTINO).parent = ROOTINO
  root_linked : (N ROOTINO).nlink ≠ 0
  child : ∀ d k c, Child N d k c → c ≠ ROOTINO ∧ (N c).parent = d ∧ (N d).nlink ≠ 0
  once : ∀ d k k' c, Child N d k c → Child N d k' c → k = k'
  entered : ∀ c, (N c).type = .dir → (N c).nlink ≠ 0 → c ≠ ROOTINO → ∃ k, Child N (N c).parent k c

/-- No inode has more links than its count says, and the count of a directory is exact. -/
structure Linked (n : ℕ) (N : ℕ → Node) : Prop extends Shape N where
  range : ∀ i, (N i).type ≠ .free → i ≠ 0 ∧ i < n
  free : ∀ i, (N i).type = .free → linksTo n N i = 0
  le : ∀ i, (N i).type ≠ .free → (linksTo n N i : ℤ) ≤ (N i).nlink.toInt
  exact : ∀ d, (N d).type = .dir → (N d).nlink.toInt = linksTo n N d

/-- The count of every inode is exact, and removed directories are empty. -/
structure Exact (n : ℕ) (N : ℕ → Node) : Prop where
  count : ∀ i, (N i).type ≠ .free → (N i).nlink.toInt = linksTo n N i
  removed : ∀ d, (N d).type = .dir → (N d).nlink = 0 → (N d).Empty

namespace Linked

variable (h : Linked n N)
include h

theorem lt_of_dir (hd : (N d).type = .dir) : d < n := (h.range d (by rw [hd]; decide)).2

theorem mem_links (he : HasEntry N d k) (h2 : 2 ≤ k) : k ∈ (N d).links ((N d).dirent k).inum :=
  Node.mem_links.mpr ⟨he.lt,he.dir,((h.dirs d he.dir).2.counted_iff he.lt).mpr
    (.inr ⟨h2,he.used⟩),rfl⟩

theorem linksTo_pos_of_entry (he : HasEntry N d k) (h2 : 2 ≤ k) :
    0 < linksTo n N ((N d).dirent k).inum :=
  linksTo_pos.mpr ⟨d,h.lt_of_dir he.dir,k,h.mem_links he h2⟩

theorem alloc_of_entry (he : HasEntry N d k) (h2 : 2 ≤ k) :
    (N ((N d).dirent k).inum).type ≠ .free := by
  intro hfree
  have hpos := h.linksTo_pos_of_entry he h2
  rw [h.free _ hfree] at hpos
  exact lt_irrefl 0 hpos

theorem dotdot_mem_links (hd : (N d).type = .dir) (hn : (N d).nlink ≠ 0) :
    1 ∈ (N d).links (N d).parent := by
  have hok := (h.dirs d hd).2
  exact Node.mem_links.mpr ⟨hok.two,hd,(hok.counted_iff hok.two).mpr (.inl ⟨rfl,hn⟩),rfl⟩

theorem alloc_parent (hd : (N d).type = .dir) (hn : (N d).nlink ≠ 0) :
    (N (N d).parent).type ≠ .free := by
  intro hfree
  have hpos : 0 < linksTo n N (N d).parent :=
    linksTo_pos.mpr ⟨d,h.lt_of_dir hd,1,h.dotdot_mem_links hd hn⟩
  rw [h.free _ hfree] at hpos
  exact lt_irrefl 0 hpos

theorem sound (hup : ∀ d, (N d).type = .dir → (N d).nlink = 0 → (N (N d).parent).type ≠ .free) :
    Sound N := by
  intro d k he
  have hok := (h.dirs d he.dir).2
  by_cases h2 : 2 ≤ k
  · exact h.alloc_of_entry he h2
  · have hcases : k = 0 ∨ k = 1 := by omega
    rcases hcases with rfl | rfl
    · rw [hok.dot,he.dir]
      decide
    · by_cases hn : (N d).nlink = 0
      · exact hup d he.dir hn
      · exact h.alloc_parent he.dir hn

theorem linksTo_of_nlink (hi : (N i).type ≠ .free) (hn : (N i).nlink = 0) : linksTo n N i = 0 := by
  have hle := h.le i hi
  rw [Node.nlink_eq_zero.mp hn] at hle
  omega

theorem links_removed (hd : (N d).type = .dir) (hn : (N d).nlink = 0) (hc : (N c).type = .dir) :
    (N d).links c = ∅ := by
  apply eq_empty_of_forall_notMem
  intro k hk
  obtain ⟨hlt,-,hcount,hinum⟩ := Node.mem_links.mp hk
  rcases ((h.dirs d hd).2.counted_iff hlt).mp hcount with ⟨-,hne⟩ | ⟨h2,h0⟩
  · exact hne hn
  · exact (h.child d k c ⟨⟨hd,hlt,h0⟩,h2,hinum,hc⟩).2.2 hn

end Linked

/-- The directories are as before, but for entries in `d` for other inodes. -/
structure Patched (N N' : ℕ → Node) (d : ℕ) : Prop where
  other : ∀ e, e ≠ d → (N e).type = .dir ∨ (N' e).type = .dir → N' e = N e
  dir : (N d).type = .dir
  dir' : (N' d).type = .dir
  ok : (N' d).DirOk d
  nlink : (N' d).nlink = (N d).nlink
  parent : (N' d).parent = (N d).parent
  children : ∀ k c, 2 ≤ k → (N c).type = .dir →
    (k < (N' d).slots ∧ ((N' d).dirent k).inum = c ↔ k < (N d).slots ∧ ((N d).dirent k).inum = c)

namespace Patched

variable (h : Patched N N' d)
include h

theorem type_iff : (N' c).type = .dir ↔ (N c).type = .dir := by
  by_cases hc : c = d
  · rw [hc]
    exact iff_of_true h.dir' h.dir
  · constructor
    · intro hdir
      rwa [h.other c hc (.inr hdir)] at hdir
    · intro hdir
      rwa [h.other c hc (.inl hdir)]

theorem same (hdir : (N c).type = .dir) :
    (N' c).nlink = (N c).nlink ∧ (N' c).parent = (N c).parent := by
  by_cases hc : c = d
  · rw [hc]
    exact ⟨h.nlink,h.parent⟩
  · rw [h.other c hc (.inl hdir)]
    exact ⟨rfl,rfl⟩

theorem child_iff (hs : Shape N) : Child N' e k c ↔ Child N e k c := by
  by_cases he : e = d
  · subst he
    constructor
    · intro hc
      have hdir := h.type_iff.mp hc.dir
      obtain ⟨hlt,hinum⟩ := (h.children k c hc.two_le hdir).mp ⟨hc.entry.lt,hc.inum⟩
      exact ⟨⟨h.dir,hlt,by rw [hinum]; exact (hs.dirs c hdir).1⟩,hc.two_le,hinum,hdir⟩
    · intro hc
      obtain ⟨hlt,hinum⟩ := (h.children k c hc.two_le hc.dir).mpr ⟨hc.entry.lt,hc.inum⟩
      exact ⟨⟨h.dir',hlt,by rw [hinum]; exact (hs.dirs c hc.dir).1⟩,hc.two_le,hinum,
        h.type_iff.mpr hc.dir⟩
  constructor
  · intro hc
    have hnode := h.other e he (.inr hc.entry.dir)
    have hentry := hc.entry
    have hinum := hc.inum
    rw [hnode] at hinum
    exact ⟨⟨hnode ▸ hentry.dir,hnode ▸ hentry.lt,hnode ▸ hentry.used⟩,hc.two_le,hinum,
      h.type_iff.mp hc.dir⟩
  intro hc
  have hnode := h.other e he (.inl hc.entry.dir)
  have hentry := hc.entry
  refine ⟨⟨?_,?_,?_⟩,hc.two_le,?_,h.type_iff.mpr hc.dir⟩
  · rw [hnode]; exact hentry.dir
  · rw [hnode]; exact hentry.lt
  · rw [hnode]; exact hentry.used
  · rw [hnode]; exact hc.inum

theorem shape (hs : Shape N) : Shape N' := by
  have hroot := h.same hs.root
  refine ⟨fun c hc => ?_,h.type_iff.mpr hs.root,hroot.2.trans hs.root_parent,?_,
    fun e k c hc => ?_,fun e k k' c hc hc' => ?_,fun c hc hn hne => ?_⟩
  · have hdir := h.type_iff.mp hc
    refine ⟨(hs.dirs c hdir).1,?_⟩
    by_cases hcd : c = d
    · rw [hcd]
      exact h.ok
    · rw [h.other c hcd (.inl hdir)]
      exact (hs.dirs c hdir).2
  · rw [hroot.1]
    exact hs.root_linked
  · have hold := (h.child_iff hs).mp hc
    obtain ⟨hne,hparent,hlink⟩ := hs.child e k c hold
    rw [(h.same hold.dir).2,(h.same hold.entry.dir).1]
    exact ⟨hne,hparent,hlink⟩
  · exact hs.once e k k' c ((h.child_iff hs).mp hc) ((h.child_iff hs).mp hc')
  · have hdir := h.type_iff.mp hc
    obtain ⟨hnlink,hparent⟩ := h.same hdir
    obtain ⟨k,hk⟩ := hs.entered c hdir (hnlink ▸ hn) hne
    exact ⟨k,(h.child_iff hs).mpr (hparent ▸ hk)⟩

end Patched

section Patched

variable (hs : Shape N) (hi : (N i).type ≠ .dir) (hi' : (N' i).type ≠ .dir)
include hs hi hi'

theorem patched_of_ne (hother : ∀ e, e ≠ i → N' e = N e) : Patched N N' ROOTINO := by
  have hne : ROOTINO ≠ i := by
    rintro rfl
    exact hi hs.root
  have hnode := hother ROOTINO hne
  refine ⟨fun e _ hdir => hother e ?_,hs.root,by rw [hnode]; exact hs.root,
    by rw [hnode]; exact (hs.dirs _ hs.root).2,by rw [hnode],by rw [hnode],
    fun k c _ _ => by rw [hnode]⟩
  rintro rfl
  exact hdir.elim hi hi'

theorem patched_addEntry (hd : (N d).type = .dir) (hlt : i < 2 ^ 16)
    (hfind : (N d).find name = none) (hnode : N' d = (N d).addEntry name i)
    (hother : ∀ e, e ≠ d → e ≠ i → N' e = N e) : Patched N N' d := by
  obtain ⟨hd0,hok⟩ := hs.dirs d hd
  have hfree := hok.two_le_freeSlot hd0
  refine ⟨fun e hed hdir => hother e hed ?_,hd,by rw [hnode]; exact hd,
    by rw [hnode]; exact hok.addEntry hd0 hlt hfind,by rw [hnode]; rfl,?_,fun k c h2 hc => ?_⟩
  · rintro rfl
    exact hdir.elim hi hi'
  · rw [hnode,Node.parent,Node.dirent_addEntry_of_ne (by omega)]
    rfl
  have hci : i ≠ c := by
    rintro rfl
    exact hi hc
  rw [hnode,Node.lt_slots_addEntry]
  by_cases hk : k = (N d).freeSlot
  · subst hk
    rw [Node.dirent_addEntry_self hlt]
    refine iff_of_false (fun hm => hci hm.2) fun hm => (hs.dirs c hc).1 ?_
    rw [← hm.2]
    exact Node.freeSlot_inum hm.1
  · rw [Node.dirent_addEntry_of_ne hk]
    simp [hk]

theorem patched_clear (hd : (N d).type = .dir) (h2 : 2 ≤ k) (hk : k < (N d).slots)
    (hinum : ((N d).dirent k).inum = i) (hnode : N' d = (N d).setDirent k Dirent.zero)
    (hother : ∀ e, e ≠ d → e ≠ i → N' e = N e) : Patched N N' d := by
  have hok := (hs.dirs d hd).2
  have hself : ((N d).setDirent k Dirent.zero).dirent k = Dirent.zero :=
    Node.dirent_setDirent_self (by decide)
  refine ⟨fun e hed hdir => hother e hed ?_,hd,by rw [hnode]; exact hd,
    by rw [hnode]; exact hok.clear h2 hk,by rw [hnode]; rfl,?_,fun m c _ hc => ?_⟩
  · rintro rfl
    exact hdir.elim hi hi'
  · rw [hnode,Node.parent,Node.dirent_setDirent_of_ne (by omega)]
    rfl
  have hci : i ≠ c := by
    rintro rfl
    exact hi hc
  rw [hnode,Node.slots_setDirent hk]
  by_cases hm : m = k
  · subst hm
    rw [hself,hinum]
    exact iff_of_false (fun hm => (hs.dirs c hc).1 hm.2.symm) fun hm => hci hm.2
  · rw [Node.dirent_setDirent_of_ne hm]

end Patched

namespace Shape

theorem create (h : Shape N) (hd : (N d).type = .dir) (hn : (N d).nlink ≠ 0)
    (hn' : ((N d).addLinks 1).nlink ≠ 0) (hfind : (N d).find name = none) (hdlt : d < 2 ^ 16)
    (hi0 : i ≠ 0) (hilt : i < 2 ^ 16) (hfree : (N i).type = .free)
    (hun : ∀ e k, HasEntry N e k → 2 ≤ k → ((N e).dirent k).inum ≠ i)
    (hnode : N' d = ((N d).addLinks 1).addEntry name i) (hnew : N' i = Node.new .dir major minor i d)
    (hother : ∀ e, e ≠ d → e ≠ i → N' e = N e) : Shape N' := by
  obtain ⟨hd0,hok⟩ := h.dirs d hd
  obtain ⟨hok',hempty,hparent⟩ :=
    Node.new_dir major minor hi0 hilt hd0 hdlt
  have hnotdir : ∀ c, (N c).type = .dir → c ≠ i := by
    rintro c hc rfl
    rw [hfree] at hc
    cases hc
  have hslot : 2 ≤ (N d).freeSlot := hok.two_le_freeSlot hd0
  have hslot' : ((N d).addLinks 1).freeSlot = (N d).freeSlot := rfl
  have hfresh : (N' d).dirent (N d).freeSlot = ⟨i,name⟩ := by
    rw [hnode]
    exact Node.dirent_addEntry_self hilt
  have hold : ∀ k, k ≠ (N d).freeSlot → (N' d).dirent k = (N d).dirent k := by
    intro k hk
    rw [hnode]
    exact Node.dirent_addEntry_of_ne hk
  have hslots : ∀ k, k < (N' d).slots ↔ k = (N d).freeSlot ∨ k < (N d).slots := by
    intro k
    rw [hnode]
    exact Node.lt_slots_addEntry
  -- every directory but the new one was there, with the same `..`
  have hsame : ∀ c, (N c).type = .dir →
      (N' c).type = .dir ∧ (N' c).parent = (N c).parent ∧ ((N c).nlink ≠ 0 ↔ (N' c).nlink ≠ 0) := by
    intro c hc
    by_cases hcd : c = d
    · subst hcd
      refine ⟨by rw [hnode]; exact hd,?_,?_⟩
      · rw [Node.parent,hold 1 (by omega),Node.parent]
      · rw [hnode]
        exact iff_of_true hn hn'
    · rw [hother c hcd (hnotdir c hc)]
      exact ⟨hc,rfl,Iff.rfl⟩
  have hdir : ∀ c, (N' c).type = .dir → c ≠ i → (N c).type = .dir := by
    intro c hc hci
    by_cases hcd : c = d
    · rw [hcd]
      exact hd
    · rwa [hother c hcd hci] at hc
  have hid : i ≠ d := (hnotdir d hd).symm
  have hchild : ∀ e k c, Child N' e k c ↔
      Child N e k c ∨ (e = d ∧ k = (N d).freeSlot ∧ c = i) := by
    intro e k c
    constructor
    · rintro ⟨⟨het,hlt,hused⟩,h2,hinum,hct⟩
      by_cases hei : e = i
      · subst hei
        rw [hnew] at hlt hused
        exact absurd (hempty k h2 hlt) hused
      · have he := hdir e het hei
        by_cases hknew : e = d ∧ k = (N d).freeSlot
        · obtain ⟨rfl,rfl⟩ := hknew
          rw [hfresh] at hinum
          exact .inr ⟨rfl,rfl,hinum.symm⟩
        · have hentry : k < (N e).slots ∧ (N' e).dirent k = (N e).dirent k := by
            by_cases hed : e = d
            · subst hed
              have hk : k ≠ (N e).freeSlot := fun hk => hknew ⟨rfl,hk⟩
              exact ⟨((hslots k).mp hlt).resolve_left hk,hold k hk⟩
            · rw [hother e hed hei] at hlt ⊢
              exact ⟨hlt,rfl⟩
          rw [hentry.2] at hused hinum
          have hE : HasEntry N e k := ⟨he,hentry.1,hused⟩
          exact .inl ⟨hE,h2,hinum,hdir c hct (hinum ▸ hun e k hE h2)⟩
    · rintro (⟨⟨het,hlt,hused⟩,h2,hinum,hct⟩ | ⟨rfl,rfl,rfl⟩)
      · have hentry : k < (N' e).slots ∧ (N' e).dirent k = (N e).dirent k := by
          by_cases hed : e = d
          · subst hed
            exact ⟨(hslots k).mpr (.inr hlt),hold k (Node.ne_freeSlot hlt hused)⟩
          · rw [hother e hed (hnotdir e het)]
            exact ⟨hlt,rfl⟩
        rw [← hentry.2] at hused hinum
        exact ⟨⟨(hsame e het).1,hentry.1,hused⟩,h2,hinum,(hsame c hct).1⟩
      · refine ⟨⟨(hsame e hd).1,(hslots _).mpr (.inl rfl),?_⟩,hslot,?_,?_⟩
        · rw [hfresh]
          exact hi0
        · rw [hfresh]
        · rw [hnew]
          exact Node.new_type
  have hroot := hsame ROOTINO h.root
  refine ⟨fun c hc => ?_,hroot.1,hroot.2.1.trans h.root_parent,hroot.2.2.mp h.root_linked,
    fun e k c hc => ?_,fun e k k' c hc hc' => ?_,fun c hc hcn hne => ?_⟩
  · by_cases hci : c = i
    · subst hci
      rw [hnew]
      exact ⟨hi0,hok'⟩
    have hcdir := hdir c hc hci
    refine ⟨(h.dirs c hcdir).1,?_⟩
    by_cases hcd : c = d
    · subst hcd
      rw [hnode]
      exact (hok.addLinks 1).addEntry hd0 hilt hfind
    · rw [hother c hcd hci]
      exact (h.dirs c hcdir).2
  · rcases (hchild e k c).mp hc with hc | ⟨rfl,rfl,rfl⟩
    · obtain ⟨hne,hpar,hlink⟩ := h.child e k c hc
      exact ⟨hne,(hsame c hc.dir).2.1.trans hpar,(hsame e hc.entry.dir).2.2.mp hlink⟩
    · refine ⟨(hnotdir _ h.root).symm,?_,(hsame e hd).2.2.mp hn⟩
      rw [hnew]
      exact hparent
  · rcases (hchild e k c).mp hc with hc | ⟨rfl,rfl,rfl⟩
    · rcases (hchild e k' c).mp hc' with hc' | ⟨rfl,rfl,rfl⟩
      · exact h.once e k k' c hc hc'
      · exact absurd rfl (hnotdir c hc.dir)
    · rcases (hchild e k' c).mp hc' with hc' | ⟨-,rfl,-⟩
      · exact absurd rfl (hnotdir c hc'.dir)
      · rfl
  · by_cases hci : c = i
    · subst hci
      refine ⟨(N d).freeSlot,?_⟩
      rw [hnew,hparent]
      exact (hchild d _ c).mpr (.inr ⟨rfl,rfl,rfl⟩)
    · have hcdir := hdir c hc hci
      obtain ⟨-,hpar,hlink⟩ := hsame c hcdir
      obtain ⟨k,hk⟩ := h.entered c hcdir (hlink.mpr hcn) hne
      rw [hpar]
      exact ⟨k,(hchild _ k c).mpr (.inl hk)⟩

theorem unlink (h : Shape N) (hc : Child N d k i) (hempty : (N i).Empty)
    (hn' : ((N d).addLinks (-1)).nlink ≠ 0) (hlast : ((N i).addLinks (-1)).nlink = 0)
    (hnode : N' d = ((N d).setDirent k Dirent.zero).addLinks (-1))
    (hnodei : N' i = (N i).addLinks (-1)) (hother : ∀ e, e ≠ d → e ≠ i → N' e = N e) :
    Shape N' := by
  obtain ⟨hiroot,hparent,hn⟩ := h.child d k i hc
  have hd := hc.entry.dir
  have hk := hc.entry.lt
  have hself : (N' d).dirent k = Dirent.zero := by
    rw [hnode,Node.addLinks_dirent]
    exact Node.dirent_setDirent_self (by decide)
  have hold : ∀ m, m ≠ k → (N' d).dirent m = (N d).dirent m := by
    intro m hm
    rw [hnode,Node.addLinks_dirent]
    exact Node.dirent_setDirent_of_ne hm
  have hslots : (N' d).slots = (N d).slots := by
    rw [hnode,Node.addLinks_slots]
    exact Node.slots_setDirent hk
  have htwo := hc.two_le
  have hsame : ∀ c, (N' c).type = (N c).type ∧ (N' c).parent = (N c).parent ∧
      (N' c).slots = (N c).slots ∧ (c ≠ i → ((N c).nlink ≠ 0 ↔ (N' c).nlink ≠ 0)) ∧
      ∀ m, ¬ (c = d ∧ m = k) → (N' c).dirent m = (N c).dirent m := by
    intro c
    by_cases hcd : c = d
    · subst hcd
      refine ⟨?_,?_,hslots,fun _ => ?_,fun m hm => hold m fun e => hm ⟨rfl,e⟩⟩
      · rw [hnode,Node.addLinks_type,Node.setDirent_type]
      · rw [Node.parent,hold 1 (by omega),Node.parent]
      · rw [hnode]
        exact iff_of_true hn hn'
    · by_cases hci : c = i
      · subst hci
        rw [hnodei]
        exact ⟨Node.addLinks_type _,Node.addLinks_parent _,Node.addLinks_slots _,
          fun hne => absurd rfl hne,fun m _ => Node.addLinks_dirent _⟩
      · rw [hother c hcd hci]
        exact ⟨rfl,rfl,rfl,fun _ => Iff.rfl,fun _ _ => rfl⟩
  have hchild : ∀ e m c, Child N' e m c ↔ Child N e m c ∧ ¬ (e = d ∧ m = k) := by
    intro e m c
    constructor
    · rintro ⟨⟨het,hlt,hused⟩,h2,hinum,hct⟩
      have hne : ¬ (e = d ∧ m = k) := by
        rintro ⟨rfl,rfl⟩
        rw [hself] at hused
        exact hused rfl
      obtain ⟨ht,-,hsl,-,hent⟩ := hsame e
      rw [hent m hne] at hused hinum
      rw [hsl] at hlt
      rw [ht] at het
      rw [(hsame c).1] at hct
      exact ⟨⟨⟨het,hlt,hused⟩,h2,hinum,hct⟩,hne⟩
    · rintro ⟨⟨⟨het,hlt,hused⟩,h2,hinum,hct⟩,hne⟩
      obtain ⟨ht,-,hsl,-,hent⟩ := hsame e
      rw [← hent m hne] at hused hinum
      rw [← hsl] at hlt
      rw [← ht] at het
      rw [← (hsame c).1] at hct
      exact ⟨⟨het,hlt,hused⟩,h2,hinum,hct⟩
  have hroot := hsame ROOTINO
  refine ⟨fun c hct => ?_,hroot.1.trans h.root,hroot.2.1.trans h.root_parent,
    (hroot.2.2.2.1 hiroot.symm).mp h.root_linked,fun e m c hcc => ?_,
    fun e m m' c hcc hcc' => ?_,fun c hct hcn hne => ?_⟩
  · rw [(hsame c).1] at hct
    obtain ⟨hc0,hok⟩ := h.dirs c hct
    refine ⟨hc0,?_⟩
    by_cases hcd : c = d
    · subst hcd
      rw [hnode]
      exact (hok.clear htwo hk).addLinks (-1)
    · by_cases hci : c = i
      · subst hci
        rw [hnodei]
        exact hok.addLinks (-1)
      · rw [hother c hcd hci]
        exact hok
  · obtain ⟨hcc,-⟩ := (hchild e m c).mp hcc
    obtain ⟨hne,hpar,hlink⟩ := h.child e m c hcc
    -- the removed directory has no entry that could be meant
    have hei : e ≠ i := by
      rintro rfl
      exact hcc.entry.used (hempty m hcc.two_le hcc.entry.lt)
    exact ⟨hne,(hsame c).2.1.trans hpar,((hsame e).2.2.2.1 hei).mp hlink⟩
  · exact h.once e m m' c ((hchild e m c).mp hcc).1 ((hchild e m' c).mp hcc').1
  have hci : c ≠ i := by
    rintro rfl
    rw [hnodei] at hcn
    exact hcn hlast
  rw [(hsame c).1] at hct
  obtain ⟨m,hm⟩ := h.entered c hct (((hsame c).2.2.2.1 hci).mpr hcn) hne
  rw [(hsame c).2.1]
  refine ⟨m,(hchild _ m c).mpr ⟨hm,?_⟩⟩
  rintro ⟨hpd,rfl⟩
  have hinum := hm.inum
  rw [hpd,hc.inum] at hinum
  exact hci hinum.symm

theorem free (h : Shape N) (hi : (N i).type = .dir) (hn : (N i).nlink = 0)
    (hun : ∀ e k, ¬ Child N e k i) (hnode : (N' i).type ≠ .dir)
    (hother : ∀ e, e ≠ i → N' e = N e) : Shape N' := by
  have hdir : ∀ c, (N' c).type = .dir → c ≠ i := by
    rintro c hc rfl
    exact hnode hc
  have hchild : ∀ e k c, Child N' e k c ↔ Child N e k c := by
    intro e k c
    constructor
    · intro hc
      have he := hother e (hdir e hc.entry.dir)
      have hcn := hother c (hdir c hc.dir)
      obtain ⟨⟨het,hlt,hused⟩,h2,hinum,hct⟩ := hc
      rw [he] at het hlt hused hinum
      rw [hcn] at hct
      exact ⟨⟨het,hlt,hused⟩,h2,hinum,hct⟩
    intro hc
    have he : e ≠ i := by
      rintro rfl
      exact (h.child e k c hc).2.2 hn
    have hci : c ≠ i := by
      rintro rfl
      exact hun e k hc
    obtain ⟨⟨het,hlt,hused⟩,h2,hinum,hct⟩ := hc
    rw [← hother e he] at het hlt hused hinum
    rw [← hother c hci] at hct
    exact ⟨⟨het,hlt,hused⟩,h2,hinum,hct⟩
  have hroot : ROOTINO ≠ i := by
    rintro rfl
    exact h.root_linked hn
  refine ⟨fun c hc => ?_,?_,?_,?_,fun e k c hc => ?_,fun e k k' c hc hc' => ?_,
    fun c hc hcn hne => ?_⟩
  · have hnc := hother c (hdir c hc)
    rw [hnc] at hc ⊢
    exact h.dirs c hc
  · rw [hother _ hroot]
    exact h.root
  · rw [hother _ hroot]
    exact h.root_parent
  · rw [hother _ hroot]
    exact h.root_linked
  · have hnc := hother c (hdir c hc.dir)
    have hne := hother e (hdir e hc.entry.dir)
    rw [hnc,hne]
    exact h.child e k c ((hchild e k c).mp hc)
  · exact h.once e k k' c ((hchild e k c).mp hc) ((hchild e k' c).mp hc')
  · have hnc := hother c (hdir c hc)
    rw [hnc] at hc hcn ⊢
    obtain ⟨k,hk⟩ := h.entered c hc hcn hne
    exact ⟨k,(hchild _ k c).mpr hk⟩

end Shape

end Xv6Container.Fs
