import Xv6Container.Fs.Walk
import Xv6Container.Mkfs.Append

/-! # The image of mkfs -/

namespace Xv6Container.Mkfs

open Function Prog Fs FreeMap List

variable {m m' : State} {i j k x : ℕ} {f : HostFile} {files done : List HostFile}

/-- The first loop of `main`, with the sectors of `l` still to write. -/
structure Zeroing (N : ℕ) (l : List ℕ) (m : State) : Prop where
  image : m.image = start.image
  freeinode : m.freeinode = 1
  freeblock : m.freeblock = nmeta
  size_le : m.size ≤ N
  lt : ∀ i ∈ l, i < N
  all : ∀ i, i < N → i ∈ l ∨ i < m.size

theorem Zeroing.wsect {N a : ℕ} {l : List ℕ} (h : Zeroing N (a :: l) m) :
    Zeroing N l (m.store a Block.zero) where
  image := by
    change update m.image a Block.zero = start.image
    rw [h.image]
    exact update_eq_self a start.image
  freeinode := h.freeinode
  freeblock := h.freeblock
  size_le := max_le h.size_le (h.lt a mem_cons_self)
  lt := fun i hi => h.lt i (mem_cons_of_mem _ hi)
  all := by
    intro i hi
    change i ∈ l ∨ i < max m.size (a+1)
    rcases h.all i hi with hl | hl
    · rcases List.mem_cons.mp hl with rfl | hl
      · exact .inr (by omega)
      · exact .inl hl
    · exact .inr (by omega)

theorem zero_image (N : ℕ) :
    (List.range N).forM (fun i => wsect i Block.zero) start =
      .ok ((), { start with size := N }) := by
  have hstart : Zeroing N (List.range N) start :=
    ⟨rfl,rfl,rfl,Nat.zero_le _,fun i hi => List.mem_range.mp hi,
      fun i hi => .inl (List.mem_range.mpr hi)⟩
  have hwp : wp (fun _ => False) ((List.range N).forM fun i => wsect i Block.zero) start
      fun _ m => Zeroing N [] m :=
    wp_forM (f := fun i => Mkfs.wsect i Block.zero) (Zeroing N) (fun _ _ _ h => h.wsect) _ hstart
  obtain ⟨u,⟨image,size,freeinode,freeblock⟩,hm,hz⟩ := hwp.returns
  have hfull : size = N := by
    refine le_antisymm hz.size_le (Nat.le_of_not_lt fun hlt => ?_)
    exact Nat.lt_irrefl _ ((hz.all size hlt).resolve_left not_mem_nil)
  obtain rfl : image = start.image := hz.image
  obtain rfl : freeinode = 1 := hz.freeinode
  obtain rfl : freeblock = nmeta := hz.freeblock
  subst hfull
  exact hm

def blank : State := ({ start with size := FSSIZE } : State).store 1 sbBlock

theorem blank_low (hb : x ≠ 1) : blank.image x = Block.zero := update_of_ne hb _ _

theorem dinodes_blank : dinodes blank = fun _ => .fresh .free := by
  funext j
  rw [dinodes]
  split
  · have hne : sb.iblock j ≠ 1 := by
      have : 32 ≤ sb.iblock j := Nat.le_add_left 32 _
      omega
    rw [inodeOf,blank_low hne,Block.part_zero,decode_zero]
  · rfl

theorem good_blank : Good blank := by
  have hplace : placeAddr (dinodes blank) (blocks blank) = fun _ => 0 := by
    funext p
    rw [placeAddr,if_neg]
    rw [dinodes_blank]
    exact fun h => h.1 rfl
  have hsuper : blank.image 1 = sbBlock := by simp [blank,State.store]
  refine ⟨⟨rfl,hsuper,le_rfl,by decide,fun b hb => ?_⟩,⟨?_,?_,?_⟩,?_,?_⟩
  · refine blank_low ?_
    have : nmeta ≤ b := hb
    have : 1 < nmeta := by decide
    omega
  · rw [Owns,hplace]
    refine ⟨fun _ _ h => absurd rfl h,fun _ h => absurd rfl h,fun _ h => absurd rfl h,
      fun b hlo _ hb => ?_,fun b hb => decide_eq_true hb⟩
    have hlt : b < nmeta := of_decide_eq_true hb
    have hle : nmeta ≤ b := hlo
    omega
  · intro i hi
    rw [dinodes_blank] at hi
    exact absurd rfl hi
  · intro i _
    rw [dinodes_blank]
    rfl
  · intro i hi
    rw [dinodes_blank] at hi
    exact absurd rfl hi
  · intro i _
    rw [dinodes_blank]
    rfl

/-- An inode with one link, for the users of the files. -/
def nodeWith (type : FType) (bytes : List UInt8) : Node :=
  ⟨type, 0, 0, 1, bytes.length, fun o => bytes.getD o 0⟩

theorem decode_newInode {type : ℕ} (h : type < 2 ^ 16) :
    Dinode.decode (newInode type) = ⟨.ofShort type, 0, 0, 1, 0, fun _ => 0⟩ := by
  set b : Block 64 := (Block.zero.setHalf 0 type).setHalf 3 1 with hb
  have htype : b.half 0 = type := by
    rw [hb,Block.half_setHalf_of_ne _ (by omega) (by omega),Block.half_setHalf_self _ (by omega) h]
  have hmajor : b.half 1 = 0 := by
    rw [hb,Block.half_setHalf_of_ne _ (by omega) (by omega),
      Block.half_setHalf_of_ne _ (by omega) (by omega),Block.half_zero]
  have hminor : b.half 2 = 0 := by
    rw [hb,Block.half_setHalf_of_ne _ (by omega) (by omega),
      Block.half_setHalf_of_ne _ (by omega) (by omega),Block.half_zero]
  have hnlink : b.half 3 = 1 := by
    rw [hb,Block.half_setHalf_self _ (by omega) (by decide)]
  have haddr : (fun l => if l ≤ NDIRECT then b.word (3+l) else 0) = fun _ => 0 := by
    funext l
    split
    · next hl =>
      have hl12 : l ≤ 12 := hl
      rw [hb,Block.word_setHalf_of_ne _ (by omega) (by omega),
        Block.word_setHalf_of_ne _ (by omega) (by omega),Block.word_zero]
    · rfl
  rw [newInode,← hb,decode_setSize _ (by decide),Dinode.decode,htype,hmajor,hminor,hnlink,haddr]
  rfl

theorem Good.ialloc (h : Good m) (type : ℕ) (hlt : m.freeinode < NINODES) (hshort : type < 2 ^ 16)
    (htype : FType.ofShort type ≠ .free) :
    ∃ m', Mkfs.ialloc type m = .ok (m.freeinode, m') ∧ Good m' ∧
      m'.freeinode = m.freeinode+1 ∧ m'.freeblock = m.freeblock ∧
      nodes m' = update (nodes m) m.freeinode (nodeWith (.ofShort type) []) := by
  set i := m.freeinode with hi
  set m1 : State := { m with freeinode := i + 1 } with hm1
  have hready : Ready m1 := ⟨h.ready.size,h.ready.super,h.ready.meta_le,h.ready.free_le,
    h.ready.blank⟩
  have hdin := dinodes_putInode (m := m1) hlt (newInode type)
  have hblk := blocks_putInode (m := m1) hlt (newInode type)
  rw [decode_newInode hshort] at hdin
  have hfree : (dinodes m i).type = .free := h.unused i le_rfl
  refine ⟨m1.putInode i (newInode type),?_,⟨hready.putInode hlt _,?_,fun j hj => ?_,
    fun j hj => ?_⟩,rfl,rfl,?_⟩
  · rw [Mkfs.ialloc,bind_of_ok rfl,bind_of_ok (a := ()) (t := m1) rfl]
    exact bind_of_ok (winode_of_lt hready hlt _)
  · rw [hdin,hblk]
    exact h.disk.alloc hlt hfree rfl rfl
  · rw [hdin] at hj ⊢
    rw [hblk]
    by_cases hji : j = i
    · rw [hji,update_self]
      intro k _
      simp [addrAt]
    · rw [update_of_ne hji] at hj ⊢
      exact h.filled j hj
  · have hj' : i + 1 ≤ j := hj
    rw [hdin,update_of_ne (by omega)]
    exact h.unused j (by omega)
  · funext j
    rw [nodes,hdin,hblk]
    by_cases hji : j = i
    · rw [hji,update_self,update_self,nodeOf,if_neg htype]
      simp [nodeWith]
    · rw [update_of_ne hji,update_of_ne hji]
      rfl

theorem write_nodeWith (type : FType) (a b : List UInt8) :
    (nodeWith type a).write a.length b = nodeWith type (a ++ b) := by
  have hsize : max a.length (a.length+b.length) = (a ++ b).length := by
    rw [length_append]
    omega
  simp only [Node.write,nodeWith,hsize,Node.mk.injEq,true_and]
  funext o
  by_cases ho : a.length ≤ o ∧ o < a.length+b.length
  · rw [if_pos ho,getD_append_right _ _ _ _ ho.1]
  · rw [if_neg ho]
    by_cases hlt : o < a.length
    · rw [getD_append _ _ _ _ hlt]
    · have hge : (a ++ b).length ≤ o := by
        rw [length_append]
        omega
      rw [getD_eq_default _ _ (by omega),getD_eq_default _ _ hge]

theorem Good.append {type : FType} {a p : List UInt8} (h : Good m)
    (hnode : nodes m i = nodeWith type a) (hfree : type ≠ .free) (hdev : type ≠ .dev) (hp : p ≠ [])
    (hmax : a.length + p.length ≤ MAXFILE*BSIZE)
    (hroom : m.freeblock + need (a.length+p.length) ≤ FSSIZE + need a.length) :
    ∃ m', Mkfs.iappend i p m = .ok ((), m') ∧ Good m' ∧ m'.freeinode = m.freeinode ∧
      m'.freeblock + need a.length = m.freeblock + need (a.length+p.length) ∧
      nodes m' = update (nodes m) i (nodeWith type (a ++ p)) := by
  have hsize : (nodes m i).size = a.length := by rw [hnode]; rfl
  have htype : (nodes m i).type = type := by rw [hnode]; rfl
  obtain ⟨m',hmk,hgood,hinode,hcount,hnodes⟩ := h.iappend (i := i) (p := p)
    (by rw [htype]; exact hfree) (by rw [htype]; exact hdev) hp (by rw [hsize]; exact hmax)
    (by rw [hsize]; exact hroom)
  rw [hsize] at hcount hnodes
  rw [hnode,write_nodeWith] at hnodes
  exact ⟨m',hmk,hgood,hinode,hcount,hnodes⟩

theorem Good.appendAll {a : List UInt8} {reads : List (List UInt8)} (h : Good m)
    (hnode : nodes m i = nodeWith .file a) (hne : ∀ r ∈ reads, r ≠ [])
    (hmax : a.length + reads.flatten.length ≤ MAXFILE*BSIZE)
    (hroom : m.freeblock + need (a.length+reads.flatten.length) ≤ FSSIZE + need a.length) :
    ∃ m', reads.forM (Mkfs.iappend i) m = .ok ((), m') ∧ Good m' ∧ m'.freeinode = m.freeinode ∧
      m'.freeblock + need a.length = m.freeblock + need (a.length+reads.flatten.length) ∧
      nodes m' = update (nodes m) i (nodeWith .file (a ++ reads.flatten)) := by
  induction reads generalizing m a with
  | nil =>
    refine ⟨m,rfl,h,rfl,rfl,?_⟩
    rw [flatten_nil,append_nil,← hnode,update_eq_self]
  | cons r reads ih =>
    rw [flatten_cons,length_append] at hmax hroom ⊢
    have hmono : need (a.length+r.length) ≤ need (a.length + (r.length+reads.flatten.length)) :=
      need_mono (by omega)
    obtain ⟨m1,hmk,hgood,hinode,hcount,hnodes⟩ := h.append (p := r) hnode (by decide) (by decide)
      (hne r mem_cons_self) (by omega) (by omega)
    have hassoc : (a ++ r).length + reads.flatten.length =
        a.length + (r.length+reads.flatten.length) := by
      rw [length_append]
      omega
    have hlen : (a ++ r).length = a.length+r.length := length_append
    obtain ⟨m',hmk',hgood',hinode',hcount',hnodes'⟩ := ih (a := a ++ r) hgood
      (by rw [hnodes,update_self]) (fun r' hr' => hne r' (mem_cons_of_mem _ hr'))
      (by omega) (by rw [hassoc,hlen]; omega)
    rw [hassoc,hlen] at hcount'
    refine ⟨m',?_,hgood',hinode'.trans hinode,by omega,?_⟩
    · rw [forM_eq_forM,forM_cons]
      exact (bind_of_ok hmk).trans hmk'
    · rw [hnodes',hnodes,update_idem,append_assoc]

/-- The blocks of an image with the files. -/
def blocksOf (files : List HostFile) : ℕ :=
  nmeta + need (16 * (files.length + 2)) + (files.map fun f => need f.content.length).sum

/-- The files fit on the disk, and mkfs accepts their names. -/
structure Fits (files : List HostFile) : Prop where
  inodes : files.length + 2 ≤ NINODES
  names : ∀ f ∈ files, slash ∉ f.name
  sizes : ∀ f ∈ files, f.content.length ≤ MAXFILE * BSIZE
  blocks : blocksOf files ≤ FSSIZE

theorem blocksOf_snoc (done : List HostFile) (f : HostFile) : blocksOf (done ++ [f]) =
    nmeta + need (16 * (done.length+2) + 16) + (done.map fun f => need f.content.length).sum +
      need f.content.length := by
  have hlen : 16 * ((done ++ [f]).length + 2) = 16 * (done.length+2) + 16 := by
    rw [length_append,length_singleton]
    omega
  rw [blocksOf,hlen,map_append,sum_append]
  simp only [map_cons,map_nil,sum_cons,sum_nil]
  omega

theorem blocksOf_le_append (done rest : List HostFile) : blocksOf done ≤ blocksOf (done ++ rest) := by
  have hroot : need (16 * (done.length+2)) ≤ need (16 * ((done ++ rest).length + 2)) :=
    need_mono (by rw [length_append]; omega)
  rw [blocksOf,blocksOf,map_append,sum_append]
  omega

/-- The image after the files of `done`. -/
structure Built (m : State) (done : List HostFile) : Prop where
  good : Good m
  freeinode : m.freeinode = done.length + 2
  root : ∃ entries, nodes m ROOTINO = nodeWith .dir entries ∧
    entries.length = 16 * (done.length + 2)
  file : ∀ k f, done[k]? = some f → nodes m (k + 2) = nodeWith .file f.content
  freeblock : m.freeblock = blocksOf done

theorem encode_ne_nil (e : Dirent) : e.encode ≠ [] := by simp [Dirent.encode]

theorem Built.addFile (h : Built m done) (hinode : done.length + 2 < NINODES)
    (hname : slash ∉ f.name) (hsize : f.content.length ≤ MAXFILE*BSIZE)
    (hblocks : blocksOf (done ++ [f]) ≤ FSSIZE) :
    ∃ m', Mkfs.addFile ROOTINO f m = .ok ((), m') ∧ Built m' (done ++ [f]) := by
  obtain ⟨entries,hroot,hlen⟩ := h.root
  have hcount := h.freeblock
  rw [blocksOf] at hcount
  rw [blocksOf_snoc] at hblocks
  obtain ⟨m1,hmk1,hg1,hino1,hblk1,hn1⟩ := h.good.ialloc T_FILE
    (by rw [h.freeinode]; exact hinode) (by decide) (by decide)
  set i := m.freeinode with hi
  have hi2 : i = done.length+2 := h.freeinode
  have hne : ROOTINO ≠ i := by
    change 1 ≠ i
    omega
  set e : Dirent := ⟨i,Name.ofBytes (dirName f.name)⟩ with he
  have helen : e.encode.length = 16 := Dirent.encode_length e
  obtain ⟨m2,hmk2,hg2,hino2,hblk2,hn2⟩ := hg1.append (i := ROOTINO) (p := e.encode)
    (by rw [hn1,update_of_ne hne,hroot]) (by decide) (by decide) (encode_ne_nil e)
    (by
      rw [hlen,helen]
      change done.length + 2 < 200 at hinode
      change 16 * (done.length+2) + 16 ≤ 140*512
      omega)
    (by rw [hlen,helen]; omega)
  rw [hlen,helen] at hblk2
  have hnode2 : nodes m2 i = nodeWith .file [] := by
    rw [hn2,update_of_ne hne.symm,hn1,update_self]
    rfl
  obtain ⟨m3,hmk3,hg3,hino3,hblk3,hn3⟩ := hg2.appendAll hnode2
    (fun r hr => (f.reads_ok r hr).1) (by simpa [HostFile.content] using hsize) (by
      simp only [length_nil,Nat.zero_add]
      change m2.freeblock + need f.content.length ≤ _
      have : need 0 = 0 := rfl
      omega)
  simp only [length_nil,Nat.zero_add,nil_append] at hblk3 hn3
  refine ⟨m3,?_,hg3,?_,⟨entries ++ e.encode,?_,?_⟩,?_,?_⟩
  · rw [Mkfs.addFile,if_neg hname,bind_of_ok hmk1]
    exact (bind_of_ok hmk2).trans hmk3
  · rw [hino3,hino2,hino1,hi2,length_append,length_singleton]
  · rw [hn3,update_of_ne hne,hn2,update_self]
  · rw [length_append,hlen,helen,length_append,length_singleton]
    omega
  · intro k g hk
    rw [hn3]
    rcases Nat.lt_or_ge k done.length with hlt | hge
    · rw [getElem?_append_left hlt] at hk
      rw [update_of_ne (by omega),hn2,update_of_ne (by change k + 2 ≠ 1; omega),
        hn1,update_of_ne (by omega)]
      exact h.file k g hk
    · rw [getElem?_append_right hge] at hk
      obtain ⟨hk0,rfl⟩ := List.getElem?_eq_some_iff.mp hk
      rw [length_singleton] at hk0
      have hik : k + 2 = i := by omega
      rw [hik,update_self]
      simp [HostFile.content]
  · rw [blocksOf_snoc]
    have hzero : need 0 = 0 := rfl
    change m3.freeblock + need 0 = m2.freeblock + need f.content.length at hblk3
    omega

theorem built_makeRoot : ∃ m, makeRoot start = .ok (ROOTINO, m) ∧ Built m [] := by
  obtain ⟨m1,hmk1,hg1,hino1,hblk1,hn1⟩ := good_blank.ialloc T_DIR (by decide)
    (by decide) (by decide)
  have hone : blank.freeinode = ROOTINO := rfl
  rw [hone] at hmk1 hino1 hn1
  have hfree : blank.freeblock = nmeta := rfl
  set e1 : Dirent := ⟨ROOTINO,Name.dot⟩ with he1
  set e2 : Dirent := ⟨ROOTINO,Name.dotdot⟩ with he2
  have hlen1 : e1.encode.length = 16 := Dirent.encode_length e1
  have hlen2 : e2.encode.length = 16 := Dirent.encode_length e2
  have hneed : need 0 = 0 ∧ need 16 = 1 ∧ need (16+16) = 1 := ⟨rfl,rfl,rfl⟩
  have hroom : nmeta + 2 ≤ FSSIZE := by decide
  obtain ⟨m2,hmk2,hg2,hino2,hblk2,hn2⟩ := hg1.append (i := ROOTINO) (a := []) (p := e1.encode)
    (by rw [hn1,update_self]) (by decide) (by decide)
    (encode_ne_nil e1) (by rw [hlen1]; decide) (by
      rw [hlen1,length_nil,Nat.zero_add]
      omega)
  rw [hlen1,length_nil,Nat.zero_add] at hblk2
  rw [nil_append] at hn2
  obtain ⟨m3,hmk3,hg3,hino3,hblk3,hn3⟩ := hg2.append (i := ROOTINO) (a := e1.encode)
    (p := e2.encode) (by rw [hn2,update_self]) (by decide) (by decide)
    (encode_ne_nil e2) (by rw [hlen1,hlen2]; decide) (by rw [hlen1,hlen2]; omega)
  rw [hlen1,hlen2] at hblk3
  refine ⟨m3,?_,hg3,?_,⟨e1.encode ++ e2.encode,?_,?_⟩,fun k f hk => ?_,?_⟩
  · rw [makeRoot,bind_of_ok (zero_image FSSIZE),bind_of_ok (a := ()) (t := blank) rfl,
      bind_of_ok hmk1,if_pos rfl,bind_of_ok hmk2,bind_of_ok hmk3]
    rfl
  · rw [hino3,hino2,hino1]
    rfl
  · rw [hn3,update_self]
    rfl
  · rw [length_append,hlen1,hlen2]
    rfl
  · cases hk
  · change m3.freeblock = nmeta + need (16+16) + 0
    omega

theorem Built.addFiles (h : Built m done) (hfit : Fits (done ++ files)) :
    ∃ m', files.forM (Mkfs.addFile ROOTINO) m = .ok ((), m') ∧ Built m' (done ++ files) := by
  induction files generalizing m done with
  | nil => exact ⟨m,rfl,by rwa [append_nil]⟩
  | cons f files ih =>
    have hassoc : done ++ f :: files = done ++ [f] ++ files := by
      rw [append_assoc,singleton_append]
    rw [hassoc] at hfit ⊢
    have hmem : f ∈ done ++ [f] ++ files := by simp
    have hlen := hfit.inodes
    simp only [length_append,length_singleton] at hlen
    obtain ⟨m1,hmk,hb⟩ := h.addFile (f := f) (by omega) (hfit.names f hmem) (hfit.sizes f hmem)
      ((blocksOf_le_append _ _).trans hfit.blocks)
    obtain ⟨m',hmk',hb'⟩ := ih hb hfit
    refine ⟨m',?_,hb'⟩
    rw [forM_eq_forM,forM_cons]
    exact (bind_of_ok hmk).trans hmk'

/-- The record of the root directory. -/
def rootRecord (m : State) : Block 64 := (m.image (sb.iblock ROOTINO)).part (64 * (ROOTINO % IPB)) 64

/-- The end of `main`: the size of the root directory, and the bitmap. -/
def finish (m : State) : State :=
  (m.putInode ROOTINO ((rootRecord m).setWord 2 (((rootRecord m).word 2 / BSIZE + 1) * BSIZE))).store
    sb.bmapstart (Block.zero.marks m.freeblock)

theorem main_returns (hfit : Fits files) :
    ∃ m, Built m files ∧ main files start = .ok ((), finish m) := by
  obtain ⟨m0,hroot,hb0⟩ := built_makeRoot
  obtain ⟨m,hfiles,hb⟩ := hb0.addFiles hfit
  have hready := hb.good.ready
  refine ⟨m,hb,?_⟩
  have hused : m.freeblock < BSIZE*8 := hready.free_le.trans_lt (by decide)
  have hfix : fixRoot ROOTINO m = .ok ((), m.putInode ROOTINO ((rootRecord m).setWord 2
      (((rootRecord m).word 2 / BSIZE + 1) * BSIZE))) := by
    rw [fixRoot,bind_of_ok (rinode_of_lt hready (by decide))]
    exact winode_of_lt hready (by decide) _
  have hballoc : balloc m.freeblock (m.putInode ROOTINO ((rootRecord m).setWord 2
      (((rootRecord m).word 2 / BSIZE + 1) * BSIZE))) = .ok ((), finish m) := by
    rw [balloc,if_pos hused]
    rfl
  rw [main,bind_of_ok hroot,bind_of_ok hfiles,bind_of_ok hfix,bind_of_ok (a := m.freeblock) rfl,
    hballoc]

end Xv6Container.Mkfs
