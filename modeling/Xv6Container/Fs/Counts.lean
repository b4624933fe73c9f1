import Xv6Container.Fs.Links

/-! # Link counts under the calls -/

namespace Xv6Container.Fs

open Function Finset

variable {n d e i j k m c off : ℕ} {T : Tree} {N N' : ℕ → Node} {x : Node} {name : Name}
  {type : FType} {major minor : Int16} {src : List UInt8}

/-- The count of every inode has moved as much as its links have, or is exact. -/
def Balanced (n : ℕ) (N N' : ℕ → Node) : Prop :=
  ∀ j, (N' j).type ≠ .free →
    ((N' j).type = (N j).type ∧
      (N' j).nlink.toInt - (N j).nlink.toInt = (linksTo n N' j : ℤ) - linksTo n N j) ∨
    (N' j).nlink.toInt = linksTo n N' j

theorem linked_of_root (hlt : ROOTINO < n) (hroot : (N ROOTINO).type = .dir)
    (hok : (N ROOTINO).DirOk ROOTINO) (hempty : (N ROOTINO).Empty)
    (hparent : (N ROOTINO).parent = ROOTINO) (hnlink : (N ROOTINO).nlink = 1)
    (hother : ∀ i, i ≠ ROOTINO → (N i).type = .free) : Linked n N ∧ Exact n N := by
  have hlinked : (N ROOTINO).nlink ≠ 0 := by rw [hnlink]; decide
  have honly : ∀ i, (N i).type ≠ .free → i = ROOTINO := by
    intro i hi
    by_contra hne
    exact hi (hother i hne)
  have hdir : ∀ i, (N i).type = .dir → i = ROOTINO := fun i hi => honly i (by rw [hi]; decide)
  have hlinks : ∀ j, linksTo n N j = if ROOTINO = j then 1 else 0 := by
    intro j
    rw [linksTo,sum_eq_single ROOTINO,hok.links_of_empty hroot hempty,hparent]
    · simp only [hlinked,ne_eq,not_false_eq_true,true_and]
    · intro e _ hne
      rw [Node.links_of_not_dir (by rw [hother e hne]; decide),card_empty]
    · intro hnot
      exact absurd (mem_range.mpr hlt) hnot
  have hcount : ∀ i, (N i).type ≠ .free → (N i).nlink.toInt = linksTo n N i := by
    intro i hi
    rw [honly i hi,hnlink,hlinks,if_pos rfl]
    rfl
  have hnochild : ∀ d k c, ¬ Child N d k c := by
    intro d k c hc
    have hd := hdir d hc.entry.dir
    have hentry := hc.entry
    rw [hd] at hentry
    exact hentry.used (hempty k hc.two_le hentry.lt)
  refine ⟨⟨⟨fun d hd => ?_,hroot,hparent,hlinked,fun d k c hc => absurd hc (hnochild d k c),
    fun d k k' c hc => absurd hc (hnochild d k c),fun c hc _ hne => absurd (hdir c hc) hne⟩,
    fun i hi => ?_,fun i hi => ?_,fun i hi => (hcount i hi).ge,
    fun d hd => hcount d (by rw [hd]; decide)⟩,hcount,fun d hd h0 => ?_⟩
  · rw [hdir d hd]
    exact ⟨by decide,hok⟩
  · rw [honly i hi]
    exact ⟨by decide,hlt⟩
  · rw [hlinks,if_neg]
    rintro rfl
    rw [hroot] at hi
    cases hi
  · rw [hdir d hd] at h0
    exact absurd h0 hlinked

namespace Balanced

variable (h : Balanced n N N')
include h

theorem le (hl : Linked n N) (hj : (N' j).type ≠ .free) :
    (linksTo n N' j : ℤ) ≤ (N' j).nlink.toInt := by
  rcases h j hj with ⟨htype,hmoved⟩ | hexact
  · have := hl.le j (htype ▸ hj)
    omega
  · exact hexact.ge

theorem exact (hl : Linked n N) (hj : (N' j).type = .dir) :
    (N' j).nlink.toInt = linksTo n N' j := by
  rcases h j (by rw [hj]; decide) with ⟨htype,hmoved⟩ | hexact
  · have := hl.exact j (htype ▸ hj)
    omega
  · exact hexact

theorem count (hx : Exact n N) (hj : (N' j).type ≠ .free) :
    (N' j).nlink.toInt = linksTo n N' j := by
  rcases h j hj with ⟨htype,hmoved⟩ | hexact
  · have := hx.count j (htype ▸ hj)
    omega
  · exact hexact

end Balanced

theorem Node.new_nlink : (Node.new type major minor i d).nlink = 1 := by
  rw [Node.new]
  split <;> rfl

/-- What `create` needs of the directory: nothing for a file, and for a new directory that it has
links and can have one more. -/
def MayEnter (x : Node) (type : FType) : Prop :=
  type = .dir → x.nlink ≠ 0 ∧ x.nlink.toInt < 32767

instance (x : Node) (type : FType) : Decidable (MayEnter x type) :=
  inferInstanceAs (Decidable (type = .dir → x.nlink ≠ 0 ∧ x.nlink.toInt < 32767))

/-- `create` finds no entry of the name in `d`, and takes the free inode `i`. -/
structure Creates (n : ℕ) (N : ℕ → Node) (d : ℕ) (name : Name) (i : ℕ) : Prop where
  dir : (N d).type = .dir
  unnamed : (N d).find name = none
  ne_zero : i ≠ 0
  lt : i < n
  free : (N i).type = .free

theorem Creates.ne (h : Creates n N d name i) : i ≠ d := by
  rintro rfl
  have hfree := h.free
  rw [h.dir] at hfree
  cases hfree

theorem Linked.nlink_addLinks_one (h : Linked n N) (hd : (N d).type = .dir)
    (hlt : (N d).nlink.toInt < 32767) :
    ((N d).addLinks 1).nlink.toInt = (N d).nlink.toInt + 1 ∧ ((N d).addLinks 1).nlink ≠ 0 := by
  have hone := Node.addLinks_one hlt
  have hexact := h.exact d hd
  refine ⟨hone,fun h0 => ?_⟩
  rw [Node.nlink_eq_zero,hone] at h0
  omega

section Create

variable (h : Linked n T.node) (hn : n ≤ 2 ^ 16) (hc : Creates n T.node d name i)
  (hmay : MayEnter (T.node d) type)
include h hn hc hmay

theorem linksTo_create : linksTo n (T.create d name i type major minor).node j =
    linksTo n T.node j + (if i = j then 1 else 0) + if type = .dir ∧ d = j then 1 else 0 := by
  have hd := hc.dir
  obtain ⟨hd0,hok⟩ := h.dirs d hd
  obtain ⟨hdot,hdotdot⟩ := hok.name_ne hd0 hc.unnamed
  have hilt := hc.lt.trans_le hn
  have hdn := h.lt_of_dir hd
  set y := Node.new type major minor i d with hy
  set D := if type = .dir then (T.node d).addLinks 1 else T.node d with hD
  have hfirst : linksTo n (update T.node i y) j + ((T.node i).links j).card =
      linksTo n T.node j + (y.links j).card := linksTo_update hc.lt y
  have hsecond : linksTo n (T.create d name i type major minor).node j +
      ((update T.node i y d).links j).card =
      linksTo n (update T.node i y) j + ((D.addEntry name i).links j).card :=
    linksTo_update hdn _
  rw [update_of_ne hc.ne.symm] at hsecond
  have hold : ((T.node i).links j).card = 0 := by
    rw [Node.links_of_not_dir (by rw [hc.free]; decide),card_empty]
  have hnew : (y.links j).card = if type = .dir ∧ d = j then 1 else 0 := by
    by_cases hdir : type = .dir
    · subst hdir
      obtain ⟨hok',hempty,hparent⟩ :=
        Node.new_dir major minor hc.ne_zero hilt hd0 (hdn.trans_le hn)
      rw [hok'.links_of_empty Node.new_type hempty,hparent,Node.new_nlink]
      simp
    · rw [Node.links_of_not_dir (by rw [hy,Node.new_type]; exact hdir),if_neg fun hc => hdir hc.1,
        card_empty]
  have hDlinks : (D.links j).card = ((T.node d).links j).card := by
    rw [hD]
    split
    · next hdir =>
      rw [Node.links_addLinks 1 (hmay hdir).1 (h.nlink_addLinks_one hd (hmay hdir).2).2]
    · rfl
  have hDdir : D.type = .dir := by
    rw [hD]
    split
    · exact hd
    · exact hd
  have hentry := Node.links_addEntry (j := j) hDdir hdot hdotdot hc.ne_zero hilt
  omega

theorem balanced_create : Balanced n T.node (T.create d name i type major minor).node := by
  intro j _
  rw [linksTo_create h hn hc hmay]
  by_cases hji : j = i
  · subst hji
    rw [Tree.create_node_new hc.ne,Node.new_nlink,h.free j hc.free,if_pos rfl,
      if_neg fun hd => hc.ne hd.2.symm]
    exact .inr rfl
  rw [if_neg (Ne.symm hji)]
  by_cases hjd : j = d
  · subst hjd
    rw [Tree.create_node_parent,Node.addEntry_nlink,Node.addEntry_type]
    by_cases hdir : type = .dir
    · rw [if_pos hdir,if_pos ⟨hdir,rfl⟩,(h.nlink_addLinks_one hc.dir (hmay hdir).2).1]
      refine .inl ⟨rfl,?_⟩
      omega
    · rw [if_neg hdir,if_neg fun hd => hdir hd.1]
      refine .inl ⟨rfl,?_⟩
      omega
  · rw [Tree.create_node_of_ne hjd hji,if_neg fun hd => hjd hd.2.symm]
    refine .inl ⟨rfl,?_⟩
    omega

theorem shape_create : Shape (T.create d name i type major minor).node := by
  have hilt := hc.lt.trans_le hn
  by_cases hdir : type = .dir
  · subst hdir
    refine h.toShape.create hc.dir (hmay rfl).1 (h.nlink_addLinks_one hc.dir (hmay rfl).2).2
      hc.unnamed ((h.lt_of_dir hc.dir).trans_le hn) hc.ne_zero hilt hc.free
      (fun e k he h2 hinum => ?_) ?_ (Tree.create_node_new hc.ne)
      fun e hed hei => Tree.create_node_of_ne hed hei
    · exact h.alloc_of_entry he h2 (by rw [hinum]; exact hc.free)
    · rw [Tree.create_node_parent,if_pos rfl]
  · refine (patched_addEntry h.toShape (by rw [hc.free]; decide) ?_ hc.dir hilt hc.unnamed ?_
      fun e hed hei => Tree.create_node_of_ne hed hei).shape h.toShape
    · rw [Tree.create_node_new hc.ne,Node.new_type]
      exact hdir
    · rw [Tree.create_node_parent,if_neg hdir]

theorem Linked.create (htype : type ≠ .free) :
    Linked n (T.create d name i type major minor).node := by
  have hbal : Balanced n T.node (T.create d name i type major minor).node :=
    balanced_create h hn hc hmay
  refine ⟨shape_create h hn hc hmay,fun j hj => ?_,fun j hj => ?_,
    fun j hj => hbal.le h hj,fun j hj => hbal.exact h hj⟩
  · by_cases hji : j = i
    · rw [hji]
      exact ⟨hc.ne_zero,hc.lt⟩
    · by_cases hjd : j = d
      · rw [hjd]
        exact h.range d (by rw [hc.dir]; decide)
      · rw [Tree.create_node_of_ne hjd hji] at hj
        exact h.range j hj
  have hji : j ≠ i := by
    rintro rfl
    rw [Tree.create_node_new hc.ne,Node.new_type] at hj
    exact htype hj
  have hjd : j ≠ d := by
    rintro rfl
    rw [(Tree.create_grows (hc.lt.trans_le hn) hc.free hc.unnamed _ hc.dir).1] at hj
    cases hj
  rw [Tree.create_node_of_ne hjd hji] at hj
  rw [linksTo_create h hn hc hmay,h.free j hj,if_neg (Ne.symm hji),if_neg fun hd => hjd hd.2.symm]

theorem Exact.create (hx : Exact n T.node) (hlinked : (T.node d).nlink ≠ 0) :
    Exact n (T.create d name i type major minor).node := by
  have hbal : Balanced n T.node (T.create d name i type major minor).node :=
    balanced_create h hn hc hmay
  refine ⟨fun j hj => hbal.count hx hj,fun j hj hj0 => ?_⟩
  have hji : j ≠ i := by
    rintro rfl
    rw [Tree.create_node_new hc.ne,Node.new_nlink] at hj0
    cases hj0
  have hjd : j ≠ d := by
    rintro rfl
    rw [Tree.create_node_parent,Node.addEntry_nlink] at hj0
    split at hj0
    · next hdir => exact (h.nlink_addLinks_one hc.dir (hmay hdir).2).2 hj0
    · exact hlinked hj0
  rw [Tree.create_node_of_ne hjd hji] at hj hj0 ⊢
  exact hx.removed j hj hj0

end Create

namespace Tree

theorem link_node_parent : (T.link d name i).node d = (T.node d).addEntry name i := setNode_self _

theorem link_node_self (h : i ≠ d) : (T.link d name i).node i = (T.node i).addLinks 1 := by
  rw [link,setNode_of_ne _ h,setNode_self]

theorem link_node_of_ne (hd : j ≠ d) (hi : j ≠ i) : (T.link d name i).node j = T.node j := by
  rw [link,setNode_of_ne _ hd,setNode_of_ne _ hi]

end Tree

/-- `sys_link` makes an entry in `d`, where there is none of the name, for the inode `i`. -/
structure AddsLink (N : ℕ → Node) (d : ℕ) (name : Name) (i : ℕ) : Prop where
  dir : (N d).type = .dir
  unnamed : (N d).find name = none
  alloc : (N i).type ≠ .free
  not_dir : (N i).type ≠ .dir
  room : (N i).nlink.toInt < 32767

theorem AddsLink.ne (h : AddsLink N d name i) : i ≠ d := by
  rintro rfl
  exact h.not_dir h.dir

theorem AddsLink.node_type (h : AddsLink T.node d name i) :
    ((T.link d name i).node j).type = (T.node j).type := by
  by_cases hjd : j = d
  · subst hjd
    rw [Tree.link_node_parent,Node.addEntry_type]
  · by_cases hji : j = i
    · subst hji
      rw [Tree.link_node_self h.ne,Node.addLinks_type]
    · rw [Tree.link_node_of_ne hjd hji]

section Link

variable (h : Linked n T.node) (hn : n ≤ 2 ^ 16) (hl : AddsLink T.node d name i)
include h hn hl

theorem linksTo_link : linksTo n (T.link d name i).node j =
    linksTo n T.node j + if i = j then 1 else 0 := by
  obtain ⟨hd0,hok⟩ := h.dirs d hl.dir
  obtain ⟨hdot,hdotdot⟩ := hok.name_ne hd0 hl.unnamed
  obtain ⟨hi0,hin⟩ := h.range i hl.alloc
  have hfirst : linksTo n (update T.node i ((T.node i).addLinks 1)) j +
      ((T.node i).links j).card = linksTo n T.node j + (((T.node i).addLinks 1).links j).card :=
    linksTo_update hin _
  have hsecond : linksTo n (T.link d name i).node j +
      ((update T.node i ((T.node i).addLinks 1) d).links j).card =
      linksTo n (update T.node i ((T.node i).addLinks 1)) j +
        (((T.node d).addEntry name i).links j).card := linksTo_update (h.lt_of_dir hl.dir) _
  rw [update_of_ne hl.ne.symm] at hsecond
  rw [Node.links_of_not_dir hl.not_dir,
    Node.links_of_not_dir (x := (T.node i).addLinks 1) hl.not_dir] at hfirst
  have hentry := Node.links_addEntry (j := j) hl.dir hdot hdotdot hi0 (hin.trans_le hn)
  omega

theorem balanced_link : Balanced n T.node (T.link d name i).node := by
  intro j _
  rw [linksTo_link h hn hl]
  refine .inl ⟨hl.node_type,?_⟩
  by_cases hji : j = i
  · subst hji
    rw [Tree.link_node_self hl.ne,Node.addLinks_one hl.room,if_pos rfl]
    omega
  · rw [if_neg (Ne.symm hji)]
    by_cases hjd : j = d
    · subst hjd
      rw [Tree.link_node_parent,Node.addEntry_nlink]
      omega
    · rw [Tree.link_node_of_ne hjd hji]
      omega

theorem Linked.link : Linked n (T.link d name i).node := by
  have hbal := balanced_link h hn hl
  have hshape : Shape (T.link d name i).node := by
    refine (patched_addEntry h.toShape hl.not_dir ?_ hl.dir ((h.range i hl.alloc).2.trans_le hn)
      hl.unnamed Tree.link_node_parent fun e hed hei => Tree.link_node_of_ne hed hei).shape h.toShape
    rw [hl.node_type]
    exact hl.not_dir
  refine ⟨hshape,fun j hj => ?_,fun j hj => ?_,fun j hj => hbal.le h hj,fun j hj => hbal.exact h hj⟩
  · rw [hl.node_type] at hj
    exact h.range j hj
  · rw [hl.node_type] at hj
    have hij : i ≠ j := by
      rintro rfl
      exact hl.alloc hj
    rw [linksTo_link h hn hl,h.free j hj,if_neg hij]

theorem Exact.link (hx : Exact n T.node) (hlinked : (T.node d).nlink ≠ 0) :
    Exact n (T.link d name i).node := by
  refine ⟨fun j hj => (balanced_link h hn hl).count hx hj,fun j hj hj0 => ?_⟩
  have hji : j ≠ i := by
    rintro rfl
    rw [hl.node_type] at hj
    exact hl.not_dir hj
  have hjd : j ≠ d := by
    rintro rfl
    rw [Tree.link_node_parent,Node.addEntry_nlink] at hj0
    exact hlinked hj0
  rw [Tree.link_node_of_ne hjd hji] at hj hj0 ⊢
  exact hx.removed j hj hj0

end Link

namespace Tree

theorem unlink_node_self : (T.unlink d k i).node i = (T.node i).addLinks (-1) := setNode_self _

theorem unlink_node_parent (h : i ≠ d) :
    (T.unlink d k i).node d = unlinked (T.node d) k (T.node i).type := by
  rw [unlink,setNode_of_ne _ h.symm,setNode_self]

theorem unlink_node_of_ne (hd : j ≠ d) (hi : j ≠ i) : (T.unlink d k i).node j = T.node j := by
  rw [unlink,setNode_of_ne _ hi,setNode_of_ne _ hd]

theorem unlinked_type : (unlinked x k type).type = x.type := by
  rw [unlinked]
  split
  · rw [Node.addLinks_type,Node.setDirent_type]
  · rw [Node.setDirent_type]

end Tree

/-- `sys_unlink` takes entry `k` of `d` away, which is for the inode `i`. -/
structure Unlinks (N : ℕ → Node) (d k i : ℕ) : Prop where
  entry : HasEntry N d k
  two_le : 2 ≤ k
  inum : ((N d).dirent k).inum = i
  ne : i ≠ d
  alloc : (N i).type ≠ .free
  linked : 0 < (N i).nlink.toInt
  empty : (N i).type = .dir → (N i).Empty

namespace Unlinks

theorem child (h : Unlinks N d k i) (hi : (N i).type = .dir) : Child N d k i :=
  ⟨h.entry,h.two_le,h.inum,hi⟩

theorem node_type (h : Unlinks T.node d k i) :
    ((T.unlink d k i).node j).type = (T.node j).type := by
  by_cases hji : j = i
  · subst hji
    rw [Tree.unlink_node_self,Node.addLinks_type]
  · by_cases hjd : j = d
    · subst hjd
      rw [Tree.unlink_node_parent h.ne,Tree.unlinked_type]
    · rw [Tree.unlink_node_of_ne hjd hji]

end Unlinks

section Unlink

variable (h : Linked n N) (hu : Unlinks N d k i) (hi : (N i).type = .dir)
include h hu hi

theorem Linked.links_empty (he : m ∈ (N e).links i) : e = d ∧ m = k := by
  obtain ⟨hlt,het,hcount,hinum⟩ := Node.mem_links.mp he
  obtain ⟨hroot,hparent,-⟩ := h.child d k i (hu.child hi)
  rcases ((h.dirs e het).2.counted_iff hlt).mp hcount with ⟨rfl,hlinked⟩ | ⟨h2,h0⟩
  · -- the `..` of a directory that would be in `i`
    have heroot : e ≠ ROOTINO := by
      rintro rfl
      exact hroot (hinum.symm.trans h.root_parent)
    obtain ⟨m,hm⟩ := h.entered e het hlinked heroot
    rw [show (N e).parent = i from hinum] at hm
    exact absurd (hu.empty hi m hm.two_le hm.entry.lt) hm.entry.used
  · have hm : Child N e m i := ⟨⟨het,hlt,h0⟩,h2,hinum,hi⟩
    obtain rfl : e = d := (h.child e m i hm).2.1.symm.trans hparent
    exact ⟨rfl,h.once e m k i hm (hu.child hi)⟩

theorem Linked.linksTo_empty : linksTo n N i = 1 := by
  have hk : k ∈ (N d).links i := hu.inum ▸ h.mem_links hu.entry hu.two_le
  rw [linksTo,sum_eq_single d]
  · rw [card_eq_one]
    refine ⟨k,eq_singleton_iff_unique_mem.mpr ⟨hk,fun m hm => ?_⟩⟩
    exact (h.links_empty hu hi hm).2
  · intro e _ hed
    rw [card_eq_zero]
    apply eq_empty_of_forall_notMem
    intro m hm
    exact hed (h.links_empty hu hi hm).1
  · intro hd
    exact absurd (mem_range.mpr (h.lt_of_dir hu.entry.dir)) hd

theorem Linked.two_le_linksTo : 2 ≤ linksTo n N d := by
  obtain ⟨hroot,hparent,hlinked⟩ := h.child d k i (hu.child hi)
  have hnlink : (N i).nlink ≠ 0 := by
    intro h0
    have hpos := hu.linked
    rw [Node.nlink_eq_zero.mp h0] at hpos
    exact lt_irrefl 0 hpos
  have hup : 1 ∈ (N i).links d := hparent ▸ h.dotdot_mem_links hi hnlink
  obtain ⟨e,hei,m,hm⟩ : ∃ e, e ≠ i ∧ ∃ m, m ∈ (N e).links d := by
    by_cases hd : d = ROOTINO
    · have hself := h.dotdot_mem_links h.root h.root_linked
      rw [h.root_parent,← hd] at hself
      exact ⟨d,hd ▸ hroot.symm,1,hself⟩
    obtain ⟨m,hm⟩ := h.entered d hu.entry.dir hlinked hd
    have hlink := h.mem_links hm.entry hm.two_le
    rw [hm.inum] at hlink
    refine ⟨(N d).parent,?_,m,hlink⟩
    intro hpi
    have hentry := hm.entry
    rw [hpi] at hentry
    exact hentry.used (hu.empty hi m hm.two_le hentry.lt)
  have het : (N e).type = .dir := (Node.mem_links.mp hm).2.1
  have hsub : ({e, i} : Finset ℕ) ⊆ Finset.range n := by
    intro a ha
    rw [mem_insert,mem_singleton] at ha
    rcases ha with rfl | rfl
    · exact mem_range.mpr (h.lt_of_dir het)
    · exact mem_range.mpr (h.lt_of_dir hi)
  calc 2 ≤ ((N e).links d).card + ((N i).links d).card :=
        Nat.add_le_add (card_pos.mpr ⟨m,hm⟩) (card_pos.mpr ⟨1,hup⟩)
    _ = ∑ a ∈ {e, i}, ((N a).links d).card := by rw [sum_pair hei]
    _ ≤ linksTo n N d := sum_le_sum_of_subset hsub

theorem Linked.nlink_parent : ((N d).addLinks (-1)).nlink.toInt = (N d).nlink.toInt - 1 ∧
    (N d).nlink ≠ 0 ∧ ((N d).addLinks (-1)).nlink ≠ 0 := by
  have htwo := h.two_le_linksTo hu hi
  have hexact := h.exact d hu.entry.dir
  have hminus := Node.addLinks_neg_one (x := N d) (by omega)
  refine ⟨hminus,fun h0 => ?_,fun h0 => ?_⟩
  · rw [Node.nlink_eq_zero] at h0
    omega
  · rw [Node.nlink_eq_zero,hminus] at h0
    omega

theorem Linked.nlink_removed : (N i).nlink ≠ 0 ∧ ((N i).addLinks (-1)).nlink = 0 := by
  have hone := h.linksTo_empty hu hi
  have hexact := h.exact i hi
  have hminus := Node.addLinks_neg_one hu.linked
  constructor
  · intro h0
    rw [Node.nlink_eq_zero] at h0
    omega
  · rw [Node.nlink_eq_zero,hminus]
    omega

end Unlink

section Unlink

variable (h : Linked n T.node) (hu : Unlinks T.node d k i)
include h hu

theorem linksTo_unlink : linksTo n (T.unlink d k i).node j + (if i = j then 1 else 0) +
    (if (T.node i).type = .dir ∧ d = j then 1 else 0) = linksTo n T.node j := by
  have hin := (h.range i hu.alloc).2
  set D := Tree.unlinked (T.node d) k (T.node i).type with hD
  set y := (T.node i).addLinks (-1) with hy
  have hfirst : linksTo n (update T.node d D) j + ((T.node d).links j).card =
      linksTo n T.node j + (D.links j).card := linksTo_update (h.lt_of_dir hu.entry.dir) D
  have hsecond : linksTo n (T.unlink d k i).node j +
      ((update T.node d D i).links j).card =
      linksTo n (update T.node d D) j + (y.links j).card := linksTo_update hin y
  rw [update_of_ne hu.ne] at hsecond
  have hk : k ∈ (T.node d).links i := hu.inum ▸ h.mem_links hu.entry hu.two_le
  have hclear := Node.links_clear (j := j) hk
  by_cases hi : (T.node i).type = .dir
  · have hok := (h.dirs i hi).2
    obtain ⟨-,hlinked,hlinked'⟩ := h.nlink_parent hu hi
    obtain ⟨hnlink,hzero⟩ := h.nlink_removed hu hi
    have hparent := (h.child d k i (hu.child hi)).2.1
    have hold := hok.links_of_empty (i := j) hi (hu.empty hi)
    have hnew := (hok.addLinks (-1)).links_of_empty (i := j) ((Node.addLinks_type _).trans hi)
      ((Node.addLinks_empty _).mpr (hu.empty hi))
    rw [hparent] at hold
    rw [if_neg fun hc => hc.1 hzero,← hy] at hnew
    have hDlinks : (D.links j).card = (((T.node d).setDirent k Dirent.zero).links j).card := by
      rw [hD,Tree.unlinked,if_pos hi,Node.links_addLinks (-1)]
      · rw [Node.setDirent_nlink]
        exact hlinked
      · rw [Node.addLinks_nlink,Node.setDirent_nlink,← Node.addLinks_nlink]
        exact hlinked'
    simp only [hi,true_and]
    simp only [hnlink,ne_eq,not_false_eq_true,true_and] at hold
    omega
  · have hDlinks : (D.links j).card = (((T.node d).setDirent k Dirent.zero).links j).card := by
      rw [hD,Tree.unlinked,if_neg hi]
    have hold : ((T.node i).links j).card = 0 := by
      rw [Node.links_of_not_dir hi,card_empty]
    have hnew : (y.links j).card = 0 := by
      rw [Node.links_of_not_dir (by rw [hy,Node.addLinks_type]; exact hi),card_empty]
    simp only [hi,false_and,if_false]
    omega

theorem balanced_unlink : Balanced n T.node (T.unlink d k i).node := by
  intro j _
  have hlinks := linksTo_unlink (j := j) h hu
  refine .inl ⟨hu.node_type,?_⟩
  by_cases hji : j = i
  · subst hji
    rw [if_pos rfl,if_neg fun hc => hu.ne hc.2.symm] at hlinks
    rw [Tree.unlink_node_self,Node.addLinks_neg_one hu.linked]
    omega
  rw [if_neg (Ne.symm hji)] at hlinks
  by_cases hjd : j = d
  · subst hjd
    rw [Tree.unlink_node_parent hu.ne,Tree.unlinked]
    split
    · next hi =>
      rw [if_pos ⟨hi,rfl⟩] at hlinks
      have hminus := (h.nlink_parent hu hi).1
      change ((T.node j).addLinks (-1)).nlink.toInt - _ = _
      omega
    · next hi =>
      rw [if_neg fun hc => hi hc.1] at hlinks
      rw [Node.setDirent_nlink]
      omega
  · rw [if_neg fun hc => hjd hc.2.symm] at hlinks
    rw [Tree.unlink_node_of_ne hjd hji]
    omega

theorem Linked.unlink : Linked n (T.unlink d k i).node := by
  have hbal := balanced_unlink h hu
  have hother : ∀ e, e ≠ d → e ≠ i → (T.unlink d k i).node e = T.node e := fun e hed hei =>
    Tree.unlink_node_of_ne hed hei
  have hshape : Shape (T.unlink d k i).node := by
    by_cases hi : (T.node i).type = .dir
    · refine h.toShape.unlink (hu.child hi) (hu.empty hi) (h.nlink_parent hu hi).2.2
        (h.nlink_removed hu hi).2 ?_ Tree.unlink_node_self hother
      rw [Tree.unlink_node_parent hu.ne,Tree.unlinked,if_pos hi]
    · refine (patched_clear h.toShape hi (by rw [hu.node_type]; exact hi) hu.entry.dir hu.two_le
        hu.entry.lt hu.inum ?_ hother).shape h.toShape
      rw [Tree.unlink_node_parent hu.ne,Tree.unlinked,if_neg hi]
  refine ⟨hshape,fun j hj => ?_,fun j hj => ?_,fun j hj => hbal.le h hj,fun j hj => hbal.exact h hj⟩
  · rw [hu.node_type] at hj
    exact h.range j hj
  · rw [hu.node_type] at hj
    have hlinks := linksTo_unlink (j := j) h hu
    rw [h.free j hj] at hlinks
    omega

theorem Exact.unlink (hx : Exact n T.node) : Exact n (T.unlink d k i).node := by
  refine ⟨fun j hj => (balanced_unlink h hu).count hx hj,fun j hj hj0 => ?_⟩
  rw [hu.node_type] at hj
  by_cases hji : j = i
  · subst hji
    rw [Tree.unlink_node_self,Node.addLinks_empty]
    exact hu.empty hj
  have hjd : j ≠ d := by
    rintro rfl
    rw [Tree.unlink_node_parent hu.ne,Tree.unlinked] at hj0
    split at hj0
    · next hi => exact (h.nlink_parent hu hi).2.2 hj0
    · -- a removed directory has no entry to take away
      exact hu.entry.used (hx.removed j hj hj0 k hu.two_le hu.entry.lt)
  rw [Tree.unlink_node_of_ne hjd hji] at hj0 ⊢
  exact hx.removed j hj hj0

end Unlink

theorem linksTo_setNode (hi : i < n) (hdir : (N i).type ≠ .dir) (hx : x.type ≠ .dir) :
    linksTo n (update N i x) j = linksTo n N j := by
  have hupdate := linksTo_update (N := N) (i := j) hi x
  rw [Node.links_of_not_dir hdir,Node.links_of_not_dir hx] at hupdate
  exact Nat.add_right_cancel hupdate

section Write

variable (h : Linked n T.node) (hal : (T.node i).type ≠ .free) (hdir : (T.node i).type ≠ .dir)
include h hal hdir

theorem linksTo_write :
    linksTo n (T.setNode i ((T.node i).write off src)).node j = linksTo n T.node j :=
  linksTo_setNode (h.range i hal).2 hdir hdir

omit h hal hdir in
theorem write_same : ((T.setNode i ((T.node i).write off src)).node j).type = (T.node j).type ∧
    ((T.setNode i ((T.node i).write off src)).node j).nlink = (T.node j).nlink := by
  by_cases hji : j = i
  · subst hji
    rw [Tree.setNode_self]
    exact ⟨rfl,rfl⟩
  · rw [Tree.setNode_of_ne _ hji]
    exact ⟨rfl,rfl⟩

theorem Linked.write : Linked n (T.setNode i ((T.node i).write off src)).node := by
  refine ⟨(patched_of_ne h.toShape hdir (by rw [write_same.1]; exact hdir) fun e he =>
    Tree.setNode_of_ne _ he).shape h.toShape,fun j hj => ?_,fun j hj => ?_,fun j hj => ?_,
    fun j hj => ?_⟩
  · rw [write_same.1] at hj
    exact h.range j hj
  · rw [write_same.1] at hj
    rw [linksTo_write h hal hdir]
    exact h.free j hj
  · rw [write_same.1] at hj
    rw [linksTo_write h hal hdir,write_same.2]
    exact h.le j hj
  · rw [write_same.1] at hj
    rw [linksTo_write h hal hdir,write_same.2]
    exact h.exact j hj

theorem Exact.write (hx : Exact n T.node) :
    Exact n (T.setNode i ((T.node i).write off src)).node := by
  refine ⟨fun j hj => ?_,fun j hj hj0 => ?_⟩
  · rw [write_same.1] at hj
    rw [linksTo_write h hal hdir,write_same.2]
    exact hx.count j hj
  · have hji : j ≠ i := by
      rintro rfl
      rw [write_same.1] at hj
      exact hdir hj
    rw [Tree.setNode_of_ne _ hji] at hj hj0 ⊢
    exact hx.removed j hj hj0

end Write

section Free

variable (h : Linked n T.node) (ho : T.Orphan i)
include h ho

theorem linksTo_free : linksTo n (T.setNode i Node.none).node j + ((T.node i).links j).card =
    linksTo n T.node j := by
  have hupdate := linksTo_update (N := T.node) (i := j) (h.range i ho.1).2 Node.none
  rw [Node.links_of_not_dir (x := Node.none) (by decide),card_empty] at hupdate
  exact hupdate

theorem Linked.freed : Linked n (T.setNode i Node.none).node := by
  have hother : ∀ e, e ≠ i → (T.setNode i Node.none).node e = T.node e := fun e he =>
    Tree.setNode_of_ne _ he
  have hnone : ((T.setNode i Node.none).node i).type = .free := by rw [Tree.setNode_self]; rfl
  have hlinks := h.linksTo_of_nlink ho.1 ho.2
  have hshape : Shape (T.setNode i Node.none).node := by
    by_cases hi : (T.node i).type = .dir
    · refine h.toShape.free hi ho.2 (fun e k hc => ?_) (by rw [hnone]; decide) hother
      have hpos := h.linksTo_pos_of_entry hc.entry hc.two_le
      rw [hc.inum,hlinks] at hpos
      exact lt_irrefl 0 hpos
    · exact (patched_of_ne h.toShape hi (by rw [hnone]; decide) hother).shape h.toShape
  have hne : ∀ j, ((T.setNode i Node.none).node j).type ≠ .free → j ≠ i := by
    rintro j hj rfl
    exact hj hnone
  refine ⟨hshape,fun j hj => ?_,fun j hj => ?_,fun j hj => ?_,fun j hj => ?_⟩
  · rw [hother j (hne j hj)] at hj
    exact h.range j hj
  · have hsum := linksTo_free (j := j) h ho
    have hzero : linksTo n T.node j = 0 := by
      by_cases hji : j = i
      · rw [hji]
        exact hlinks
      · rw [hother j hji] at hj
        exact h.free j hj
    omega
  · have hnode := hother j (hne j hj)
    rw [hnode] at hj ⊢
    have hsum := linksTo_free (j := j) h ho
    have := h.le j hj
    omega
  have hnode := hother j (hne j (by rw [hj]; decide))
  rw [hnode] at hj ⊢
  have hsum := linksTo_free (j := j) h ho
  have hexact := h.exact j hj
  have hnolinks : ((T.node i).links j).card = 0 := by
    by_cases hi : (T.node i).type = .dir
    · rw [h.links_removed hi ho.2 hj,card_empty]
    · rw [Node.links_of_not_dir hi,card_empty]
  omega

theorem Exact.freed (hx : Exact n T.node) : Exact n (T.setNode i Node.none).node := by
  have hnone : ((T.setNode i Node.none).node i).type = .free := by rw [Tree.setNode_self]; rfl
  refine ⟨fun j hj => ?_,fun j hj hj0 => ?_⟩
  · have hji : j ≠ i := by
      rintro rfl
      exact hj hnone
    rw [Tree.setNode_of_ne _ hji] at hj ⊢
    have hsum := linksTo_free (j := j) h ho
    have hcount := hx.count j hj
    have hnolinks : ((T.node i).links j).card = 0 := by
      by_cases hi : (T.node i).type = .dir
      · rw [(h.dirs i hi).2.links_of_empty hi (hx.removed i hi ho.2),if_neg fun hc => hc.1 ho.2]
      · rw [Node.links_of_not_dir hi,card_empty]
    omega
  · have hji : j ≠ i := by
      rintro rfl
      rw [hnone] at hj
      cases hj
    rw [Tree.setNode_of_ne _ hji] at hj hj0 ⊢
    exact hx.removed j hj hj0

end Free

end Xv6Container.Fs
