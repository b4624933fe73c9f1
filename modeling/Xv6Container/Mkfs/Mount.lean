import Xv6Container.Mkfs.Image

/-! # The kernel on a fresh image -/

namespace Xv6Container.Mkfs

open Function Prog Fs FreeMap List

variable {m m' : State} {i j k off n : ℕ} {f : HostFile} {files : List HostFile}
  {disk : ℕ → Block BSIZE}

theorem readsb_of_super (h : disk 1 = sbBlock) : readsb disk = sb := by
  rw [readsb,h]
  decide +kernel

/-- The root directory with its last size. -/
def fixedRoot (m : State) : Dinode :=
  { dinodes m ROOTINO with size := ((dinodes m ROOTINO).size / BSIZE + 1) * BSIZE }

theorem dinodes_root : dinodes m ROOTINO = .decode (rootRecord m) := if_pos (by decide)

theorem rootRecord_word : (rootRecord m).word 2 = (dinodes m ROOTINO).size := by
  rw [dinodes_root]
  rfl

theorem bmapstart_ne {b : ℕ} (hb : nmeta ≤ b) : b ≠ sb.bmapstart := by
  have : sb.bmapstart < nmeta := by decide
  omega

theorem readsb_finish (h : Ready m) : readsb (finish m).image = sb := by
  apply readsb_of_super
  rw [finish,State.store]
  dsimp only
  rw [update_of_ne (by decide)]
  exact (h.putInode (by decide) _).super

theorem dinode_of_node {type : FType} {bytes : List UInt8} (h : nodes m i = nodeWith type bytes)
    (htype : type ≠ .free) : (dinodes m i).type = type ∧ (dinodes m i).size = bytes.length ∧
      ∀ o, o < bytes.length → byteAt (dinodes m i) (blocks m) o = bytes.getD o 0 := by
  have ht : (dinodes m i).type = type := by
    have : (nodes m i).type = (dinodes m i).type := node_type (s := view m i (dinodes m i))
    rw [← this,h]
    rfl
  have hnode : nodes m i = _ := if_neg (show (dinodes m i).type ≠ .free by rw [ht]; exact htype)
  have hsize : (dinodes m i).size = bytes.length := by
    have : (nodes m i).size = (dinodes m i).size := by rw [hnode]
    rw [← this,h]
    rfl
  refine ⟨ht,hsize,fun o ho => ?_⟩
  have hdata : (nodes m i).data o = byteAt (dinodes m i) (blocks m) o := by
    rw [hnode]
    exact if_pos (by omega)
  rw [← hdata,h]
  rfl

theorem Built.rootInode (h : Built m files) :
    (dinodes m ROOTINO).type = .dir ∧ (dinodes m ROOTINO).size = 16 * (files.length+2) := by
  obtain ⟨entries,hnode,hlen⟩ := h.root
  obtain ⟨htype,hsize,-⟩ := dinode_of_node hnode (by decide)
  exact ⟨htype,hsize.trans hlen⟩

theorem Built.fixedRoot_size (h : Built m files) :
    (fixedRoot m).size = (16 * (files.length+2) / BSIZE + 1) * BSIZE := by
  rw [fixedRoot,h.rootInode.2]

theorem Built.dinode_ofDisk (h : Built m files) :
    (State.ofDisk (finish m).image).dinode = update (dinodes m) ROOTINO (fixedRoot m) := by
  have hsize : ((rootRecord m).word 2 / BSIZE + 1) * BSIZE < 2 ^ 32 := by
    have hle := (h.good.disk.inode_ok ROOTINO (by rw [h.rootInode.1]; decide)).size_le
    rw [rootRecord_word]
    change (dinodes m ROOTINO).size ≤ 140 * 512 at hle
    change ((dinodes m ROOTINO).size / 512 + 1) * 512 < 4294967296
    omega
  have hput := dinodes_putInode (m := m) (i := ROOTINO) (by decide)
    ((rootRecord m).setWord 2 (((rootRecord m).word 2 / BSIZE + 1) * BSIZE))
  rw [decode_setSize _ hsize,rootRecord_word] at hput
  funext i
  have hstore : dinodes (finish m) i = dinodes (m.putInode ROOTINO ((rootRecord m).setWord 2
      (((rootRecord m).word 2 / BSIZE + 1) * BSIZE))) i := by
    rw [dinodes,dinodes]
    split
    · next hi =>
      rw [inodeOf,inodeOf,finish,State.store]
      dsimp only
      rw [update_of_ne (iblock_lt hi).ne]
    · rfl
  have hfind : (State.ofDisk (finish m).image).dinode i = dinodes (finish m) i := by
    simp only [State.ofDisk,diskInode,readsb_finish h.good.ready,dinodes,inodeOf]
    rfl
  rw [hfind,hstore,rootRecord_word,hput,fixedRoot,dinodes_root]

theorem diskBit_finish (h : Ready m) {b : ℕ} (hb : b < BPB) :
    diskBit (finish m).image b = decide (b < m.freeblock) := by
  have hdiv : b / BPB = 0 := Nat.div_eq_of_lt hb
  have hmod : b % BPB = b := Nat.mod_eq_of_lt hb
  have hblk : (finish m).image sb.bmapstart = Block.zero.marks m.freeblock := by
    simp only [finish,State.store,update_self]
  rw [diskBit,readsb_finish h,DiskSuper.bblock,hdiv,hmod,Nat.zero_add,hblk,
    Block.bit_marks _ _ (Nat.div_lt_of_lt_mul hb),Block.bit_zero,Bool.false_or]

theorem image_finish {b : ℕ} (hb : nmeta ≤ b) : (finish m).image b = blocks m b := by
  have hne : b ≠ sb.iblock ROOTINO := by
    have : sb.iblock ROOTINO < nmeta := by decide
    omega
  rw [blocks,if_neg (by omega),finish,State.store]
  dsimp only
  rw [update_of_ne (bmapstart_ne hb)]
  exact update_of_ne hne _ _

/-- The kernel finds a disk that is in order, and no marks past its last block. -/
def ImageOk (disk : ℕ → Block BSIZE) : Prop :=
  DiskOk .mkfs (State.ofDisk disk).dinode (State.ofDisk disk).block (State.ofDisk disk).bitmap ∧
    ∀ b, FSSIZE ≤ b → b < BPB → diskBit disk b = false

theorem Good.addrAt_finish (h : Good m) (hal : (dinodes m i).type ≠ .free) (k : ℕ) :
    addrAt (dinodes m i) (finish m).image k = addrAt (dinodes m i) (blocks m) k := by
  refine addrAt_congr (.inr ?_)
  by_cases h0 : (dinodes m i).addrs NDIRECT = 0
  · exact .inl h0
  · have hplace : placeAddr (dinodes m) (blocks m) (i, NDIRECT) = (dinodes m i).addrs NDIRECT := by
      rw [placeAddr_of_alloc hal (by decide),addrAt,if_pos le_rfl]
    have harea := (h.disk.owns.area (i, NDIRECT) (by rw [hplace]; exact h0)).1
    rw [hplace] at harea
    exact .inr (image_finish harea)

theorem Good.byteAt_finish {o : ℕ} (h : Good m) (hal : (dinodes m i).type ≠ .free)
    (ho : o < (dinodes m i).size) :
    byteAt (dinodes m i) (finish m).image o = byteAt (dinodes m i) (blocks m) o := by
  have hok := h.disk.inode_ok i hal
  have hplace := placeAddr_of_alloc (B := blocks m) hal (dataPlace_lt (block_lt_maxfile hok ho))
  have harea := (h.disk.owns.area _ (by rw [hplace]; exact hok.place_ne_zero ho)).1
  rw [hplace] at harea
  rw [byteAt,byteAt,h.addrAt_finish hal,image_finish harea]

theorem Built.owns (h : Built m files) : Owns .mkfs (State.ofDisk (finish m).image).dinode
    (finish m).image (diskBit (finish m).image) := by
  have hplace : placeAddr (State.ofDisk (finish m).image).dinode (finish m).image =
      placeAddr (dinodes m) (blocks m) := by
    rw [h.dinode_ofDisk,placeAddr_congr (D := dinodes m)]
    · funext p
      rw [placeAddr,placeAddr]
      split
      · next hp => exact h.good.addrAt_finish hp.1 p.2
      · rfl
    · intro j
      by_cases hj : j = ROOTINO
      · rw [hj,update_self]
        rfl
      · rw [update_of_ne hj]
    · intro j
      by_cases hj : j = ROOTINO
      · rw [hj,update_self]
        rfl
      · rw [update_of_ne hj]
  rw [Owns,hplace]
  refine h.good.disk.owns.congr_used (by decide) fun b hb => ?_
  have hb' : b < 1000 := hb
  exact diskBit_finish h.good.ready (by change b < 4096; omega)

theorem Built.inodeOk (h : Built m files) (hal : (dinodes m i).type ≠ .free) :
    InodeOk (dinodes m i) (finish m).image := by
  have hok := h.good.disk.inode_ok i hal
  refine ⟨hok.size_le,fun n hn => ?_⟩
  rw [h.good.addrAt_finish hal]
  exact hok.dense n hn

theorem Built.rootFilled (h : Built m files) (hn : n < MAXFILE) :
    addrAt (fixedRoot m) (finish m).image (dataPlace n) ≠ 0 ↔
      n * BSIZE < 16 * (files.length+2) := by
  obtain ⟨htype,hsize⟩ := h.rootInode
  have hal : (dinodes m ROOTINO).type ≠ .free := by rw [htype]; decide
  have hask : askedBy (dataPlace n) = n := by
    rw [askedBy,dataPlace]
    split <;> split <;> omega
  have hfill := h.good.filled ROOTINO hal (dataPlace n) (dataPlace_lt hn)
  rw [hask,hsize] at hfill
  rw [← hfill,← h.good.addrAt_finish hal]
  rfl

theorem Built.rootOk_iff (h : Built m files) (hfit : files.length + 2 ≤ NINODES) :
    InodeOk (fixedRoot m) (finish m).image ↔ (files.length + 2) % 32 ≠ 0 := by
  have hlen : files.length + 2 ≤ 200 := hfit
  have hsize := h.fixedRoot_size
  change (fixedRoot m).size = (16 * (files.length + 2) / 512 + 1) * 512 at hsize
  constructor
  · intro hok
    -- the last block that the size asks for
    have hdense := hok.dense (16 * (files.length + 2) / 512) (by
      rw [hsize]
      change _ * 512 < _
      omega)
    rw [h.rootFilled (by change _ < 140; omega)] at hdense
    change 16 * (files.length + 2) / 512 * 512 < 16 * (files.length + 2) at hdense
    omega
  intro hmod
  refine ⟨?_,fun n hn => ?_⟩
  · rw [hsize]
    change _ ≤ 140 * 512
    omega
  · rw [hsize] at hn
    change n * 512 < _ at hn
    rw [h.rootFilled (by change n < 140; omega)]
    change n * 512 < 16 * (files.length + 2)
    omega

theorem Built.imageOk_iff (h : Built m files) (hfit : files.length + 2 ≤ NINODES) :
    ImageOk (finish m).image ↔ (files.length+2) % 32 ≠ 0 := by
  rw [← h.rootOk_iff hfit]
  have hroot : (dinodes m ROOTINO).type ≠ .free := by rw [h.rootInode.1]; decide
  constructor
  · intro hok
    have := hok.1.inode_ok ROOTINO (by
      rw [h.dinode_ofDisk,update_self]
      exact hroot)
    rwa [h.dinode_ofDisk,update_self] at this
  intro hok
  refine ⟨⟨h.owns,fun i hi => ?_,fun i hi => ?_⟩,fun b hb hlt => ?_⟩
  · rw [h.dinode_ofDisk] at hi ⊢
    by_cases hir : i = ROOTINO
    · rw [hir,update_self]
      exact hok
    · rw [update_of_ne hir] at hi ⊢
      exact h.inodeOk hi
  · have hne : i ≠ ROOTINO := by
      rintro rfl
      exact absurd hi (by decide)
    rw [h.dinode_ofDisk,update_of_ne hne]
    exact h.good.disk.beyond i hi
  · rw [diskBit_finish h.good.ready hlt]
    have := h.good.ready.free_le
    exact decide_eq_false (by omega)

def load (disk : ℕ → Block BSIZE) (i : ℕ) : Fs.State :=
  { State.ofDisk disk with inode := cacheOf i ((State.ofDisk disk).dinode i) }

theorem load_slot :
    (load disk i).inode slot = ⟨i, 1, true, true, (State.ofDisk disk).dinode i⟩ := cacheOf_slot

theorem iget_ofDisk : iget i (State.ofDisk disk) = .ok (slot, { State.ofDisk disk with
    inode := update (State.ofDisk disk).inode slot
      ⟨i, 1, false, false, .fresh .free⟩ }) := by
  have hnone : (List.finRange NINODE).find? (fun c => 0 < ((State.ofDisk disk).inode c).ref &&
      ((State.ofDisk disk).inode c).inum = i) = none :=
    List.find?_eq_none.mpr fun c _ => by simp [State.ofDisk]
  have hfirst : (List.finRange NINODE).find? (fun c => ((State.ofDisk disk).inode c).ref = 0) =
      some slot := rfl
  simp only [iget,Bind.bind,Prog.read,hnone,hfirst,setInode,Prog.modify]
  rfl

theorem ilock_ofDisk (hal : ((State.ofDisk disk).dinode i).type ≠ .free) :
    ilock slot { State.ofDisk disk with
      inode := update (State.ofDisk disk).inode slot ⟨i, 1, false, false, .fresh .free⟩ } =
        .ok ((), load disk i) := by
  have hcache : update (State.ofDisk disk).inode slot
      ⟨i,1,true,true,(State.ofDisk disk).dinode i⟩ =
        cacheOf i ((State.ofDisk disk).dinode i) := by
    funext c
    by_cases hc : c = slot
    · rw [hc,update_self,cacheOf_slot]
    · rw [update_of_ne hc,cacheOf,if_neg hc]
      rfl
  have hwp : wp (fun _ => False) (ilock slot) { State.ofDisk disk with
      inode := update (State.ofDisk disk).inode slot ⟨i,1,false,false,.fresh .free⟩ }
      fun _ t => t = load disk i := by
    simp only [ilock,acquiresleep,iread,setInode,wp_bind,wp_read,update_self,
      Nat.lt_irrefl,if_false,Bool.false_eq_true,wp_modify,update_idem,if_neg hal,
      wp_pure,hcache,load]
  obtain ⟨u,t,ht,rfl⟩ := hwp.returns
  exact ht

theorem readFile_ofDisk (hal : ((State.ofDisk disk).dinode i).type ≠ .free) :
    readFile .mkfs i off n (State.ofDisk disk) =
      (do
        let bytes ← readi .mkfs slot off n
        pure (((State.ofDisk disk).dinode i).type, ((State.ofDisk disk).dinode i).size, bytes) :
          Fs.M (FType × ℕ × Option (List UInt8))) (load disk i) := by
  rw [readFile,bind_of_ok iget_ofDisk,bind_of_ok (ilock_ofDisk hal),
    bind_of_ok (a := (State.ofDisk disk).dinode i) (by rw [Prog.read,load_slot])]

theorem readFile_of_inodeOk (hal : ((State.ofDisk disk).dinode i).type ≠ .free)
    (hdev : ((State.ofDisk disk).dinode i).type ≠ .dev)
    (hok : InodeOk ((State.ofDisk disk).dinode i) disk) (hoff : off < 2 ^ 32) (hn : n < 2 ^ 32) :
    readFile .mkfs i off n (State.ofDisk disk) =
      .ok ((((State.ofDisk disk).dinode i).type, ((State.ofDisk disk).dinode i).size,
        if ((State.ofDisk disk).dinode i).size < off ∨ 2 ^ 32 ≤ off + n then none
        else some ((List.range (min n (((State.ofDisk disk).dinode i).size - off))).map fun k =>
          byteAt ((State.ofDisk disk).dinode i) disk (off+k))), load disk i) := by
  have hwp := @wp_readi_din .mkfs (load disk i) slot n off (fun _ => False)
    (by rw [load_slot]; exact hok) (by rw [load_slot]; exact hdev) hoff hn
  simp only [load_slot] at hwp
  obtain ⟨r,t,hr,rfl,rfl⟩ := hwp.returns
  rw [readFile_ofDisk hal,bind_of_ok hr]
  rfl

/-- Whatever is read from the disk, it stays as it is. -/
def ReadOnly (disk : ℕ → Block BSIZE) : Prop :=
  ∀ i off n r t, off < 2 ^ 32 → n < 2 ^ 32 →
    readFile .mkfs i off n (State.ofDisk disk) = .ok (r, t) →
      t.dinode = (State.ofDisk disk).dinode ∧ t.bitmap = (State.ofDisk disk).bitmap ∧
        t.block = (State.ofDisk disk).block

theorem readFile_free (hfree : ((State.ofDisk disk).dinode i).type = .free) :
    readFile .mkfs i off n (State.ofDisk disk) = .error (.panic "ilock: no type") := by
  have hlock : wp (· = .panic "ilock: no type") (readFile .mkfs i off n) (State.ofDisk disk)
      fun _ _ => False := by
    rw [readFile,wp_bind,wp,iget_ofDisk]
    simp only [ilock,acquiresleep,iread,setInode,wp_bind,wp_read,update_self,
      Nat.lt_irrefl,if_false,Bool.false_eq_true,wp_modify,if_pos hfree,wp_stop]
  cases hr : readFile .mkfs i off n (State.ofDisk disk) with
  | ok r =>
    obtain ⟨a,t⟩ := r
    exact (hlock.of_ok hr).elim
  | error e => rw [hlock.of_error hr]

theorem readi_dev (hdev : ((State.ofDisk disk).dinode i).type = .dev) :
    wp (fun _ => True) (readi .mkfs slot off n) (load disk i) fun _ t => t = load disk i := by
  rw [readi,wp_bind,wp_read,load_slot,if_pos hdev]
  refine wp_ite (fun _ => ?_) fun _ => rfl
  rw [consoleread,wp_bind,wp_read]
  rfl

theorem ImageOk.readOnly (h : ImageOk disk) : ReadOnly disk := by
  intro i off n r t hoff hn hr
  by_cases hfree : ((State.ofDisk disk).dinode i).type = .free
  · rw [readFile_free hfree] at hr
    cases hr
  by_cases hdev : ((State.ofDisk disk).dinode i).type = .dev
  · rw [readFile_ofDisk hfree] at hr
    obtain ⟨bytes,u,hread,hr⟩ := ok_of_bind hr
    have hu : u = load disk i := (readi_dev hdev).of_ok hread
    cases hr
    rw [hu]
    exact ⟨rfl,rfl,rfl⟩
  · rw [readFile_of_inodeOk hfree hdev (h.1.inode_ok i hfree) hoff hn] at hr
    cases hr
    exact ⟨rfl,rfl,rfl⟩

theorem map_getD (bytes : List UInt8) (off n : ℕ) :
    (List.range (min n (bytes.length-off))).map (fun k => bytes.getD (off+k) 0) =
      (bytes.drop off).take n := by
  apply ext_getElem
  · rw [length_map,length_range,length_take,length_drop]
  · intro k hk _
    rw [length_map,length_range] at hk
    rw [getElem_map,getElem_range,getElem_take,getElem_drop,getD_eq_getElem _ _ (by omega)]

theorem Built.readFile (h : Built m files) (hk : files[k]? = some f)
    (hoff : off ≤ f.content.length) (hn : off + n < 2 ^ 32) :
    Fs.readFile .mkfs (k+2) off n (State.ofDisk (finish m).image) =
      .ok ((.file, f.content.length, some ((f.content.drop off).take n)),
        load (finish m).image (k+2)) := by
  obtain ⟨htype,hsize,hbyte⟩ := dinode_of_node (h.file k f hk) (by decide)
  have hal : (dinodes m (k+2)).type ≠ .free := by rw [htype]; decide
  have hdin : (State.ofDisk (finish m).image).dinode (k+2) = dinodes m (k+2) := by
    rw [h.dinode_ofDisk,update_of_ne (by change k + 2 ≠ 1; omega)]
  rw [readFile_of_inodeOk (by rw [hdin]; exact hal) (by rw [hdin,htype]; decide)
    (by rw [hdin]; exact h.inodeOk hal) (by omega) (by omega),hdin,htype,hsize,
    if_neg (by omega),← map_getD]
  have hbytes : (List.range (min n (f.content.length-off))).map (fun j =>
      byteAt (dinodes m (k+2)) (finish m).image (off+j)) =
      (List.range (min n (f.content.length-off))).map fun j => f.content.getD (off+j) 0 := by
    apply map_congr_left
    intro j hj
    have hj := List.mem_range.mp hj
    rw [h.good.byteAt_finish hal (by omega),hbyte _ (by omega)]
  rw [hbytes]

/-- For every list of files that fits, and all ways in which they were read, the kernel reads from
the image what the host had. -/
theorem files_read_back (hfit : Fits files) :
    ∃ m, main files start = .ok ((), m) ∧ ∀ k f, files[k]? = some f →
      ∀ off n, off ≤ f.content.length → off + n < 2 ^ 32 →
        ∃ t, readFile .mkfs (k + 2) off n (State.ofDisk m.image) =
          .ok ((.file, f.content.length, some ((f.content.drop off).take n)), t) := by
  obtain ⟨m,hb,hmain⟩ := main_returns hfit
  refine ⟨finish m,hmain,fun k f hk off n hoff hn => ?_⟩
  exact ⟨_,hb.readFile hk hoff hn⟩

def threeBytes : HostFile where
  name := [97]
  reads := [[1, 2], [3]]
  reads_ok := by decide

theorem fits_threeBytes : Fits [threeBytes] := by
  refine ⟨by decide,?_,?_,by decide⟩
  · intro f hf
    rw [List.mem_singleton.mp hf]
    decide
  · intro f hf
    rw [List.mem_singleton.mp hf]
    decide

theorem files_read_back_threeBytes :
    ∃ m t, main [threeBytes] start = .ok ((), m) ∧
      readFile .mkfs 2 0 3 (State.ofDisk m.image) = .ok ((.file, 3, some [1, 2, 3]), t) := by
  obtain ⟨m,hmain,hread⟩ := files_read_back fits_threeBytes
  obtain ⟨t,ht⟩ := hread 0 threeBytes rfl 0 3 (by decide) (by decide)
  exact ⟨m,t,hmain,ht⟩

/-- The image is well formed, and reading from it allocates nothing, exactly if the root directory's
entries do not fill their last block. -/
theorem image_ok_iff (hfit : Fits files) :
    ∃ m, main files start = .ok ((), m) ∧
      (ImageOk m.image ∧ ReadOnly m.image ↔ (files.length + 2) % 32 ≠ 0) := by
  obtain ⟨m,hb,hmain⟩ := main_returns hfit
  refine ⟨finish m,hmain,?_⟩
  rw [← hb.imageOk_iff hfit.inodes]
  exact ⟨fun h => h.1,fun h => ⟨h,h.readOnly⟩⟩

theorem image_ok_iff_threeBytes :
    ∃ m, main [threeBytes] start = .ok ((), m) ∧ ImageOk m.image ∧ ReadOnly m.image := by
  obtain ⟨m,hmain,hiff⟩ := image_ok_iff fits_threeBytes
  exact ⟨m,hmain,hiff.mpr (by decide)⟩

def emptyFile : HostFile where
  name := [97]
  reads := []
  reads_ok := by decide

theorem fits_thirty : Fits (List.replicate 30 emptyFile) := by
  refine ⟨by decide,?_,?_,by decide⟩
  · intro f hf
    rw [eq_of_mem_replicate hf]
    decide
  · intro f hf
    rw [eq_of_mem_replicate hf]
    decide

/-- With thirty files the root directory has 32 entries, one full block, and its size is rounded up
to two. -/
theorem thirty_files_break_root : ¬ ∀ files, Fits files →
    ∃ m, main files start = .ok ((), m) ∧ ImageOk m.image := by
  intro hall
  obtain ⟨m,hmain,hok⟩ := hall _ fits_thirty
  obtain ⟨m',hb,hmain'⟩ := main_returns fits_thirty
  rw [hmain] at hmain'
  obtain rfl : m = finish m' := congrArg Prod.snd (Except.ok.inj hmain')
  exact absurd ((hb.imageOk_iff fits_thirty.inodes).mp hok) (by decide)

end Xv6Container.Mkfs
