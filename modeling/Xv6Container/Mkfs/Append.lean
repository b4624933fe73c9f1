import Xv6Container.Mkfs.Program

/-! # Appending is writing at the end -/

namespace Xv6Container.Mkfs

open Function Prog Fs Nat

def inodeOf (image : ℕ → Block BSIZE) (j : ℕ) : Dinode :=
  .decode ((image (sb.iblock j)).part (64 * (j % IPB)) 64)

def dinodes (m : State) : ℕ → Dinode := fun j =>
  if j < NINODES then inodeOf m.image j else .fresh .free

/-- The data area of the image. The blocks before it are not looked at. -/
def blocks (m : State) : ℕ → Block BSIZE := fun b => if b < nmeta then Block.zero else m.image b

def taken (m : State) : ℕ → Bool := fun b => decide (b < m.freeblock)

/-- The slot for the inode that is appended to. -/
def slot : ISlot := ⟨0, ninode_pos⟩

def cacheOf (i : ℕ) (d : Dinode) : ISlot → Inode := fun c =>
  if c = slot then ⟨i, 1, true, true, d⟩ else ⟨0, 0, false, false, .fresh .free⟩

/-- The image as a file system, with inode `i` in the cache. -/
def view (m : State) (i : ℕ) (d : Dinode) : Fs.State where
  dinode := dinodes m
  bitmap := taken m
  block := blocks m
  inode := cacheOf i d
  input := []

/-- What holds of the image between two stores. -/
structure Ready (m : State) : Prop where
  size : m.size = FSSIZE
  super : m.image 1 = sbBlock
  meta_le : nmeta ≤ m.freeblock
  free_le : m.freeblock ≤ FSSIZE
  /-- nothing was stored in the blocks that are left -/
  blank : ∀ b, m.freeblock ≤ b → m.image b = Block.zero

/-- The data block that asks for place `k` first. -/
def askedBy (k : ℕ) : ℕ := if k ≤ NDIRECT then k else k - 1

/-- The inode has a block at the places that its size asks for, and nowhere else. -/
def Filled (d : Dinode) (B : ℕ → Block BSIZE) (size : ℕ) : Prop :=
  ∀ k, k < NPLACE → (addrAt d B k ≠ 0 ↔ askedBy k * BSIZE < size)

/-- The number of blocks of a file with `size` bytes. -/
def need (size : ℕ) : ℕ := (size + (BSIZE - 1)) / BSIZE + if NDIRECT * BSIZE < size then 1 else 0

variable {m m' : State} {i j k off x : ℕ} {d : Dinode} {din din' : Block 64} {p : List UInt8}

@[simp] theorem cacheOf_slot : cacheOf i d slot = ⟨i, 1, true, true, d⟩ := if_pos rfl

@[simp] theorem view_slot : (view m i d).inode slot = ⟨i, 1, true, true, d⟩ := cacheOf_slot

theorem update_cacheOf (d' : Dinode) :
    update (cacheOf i d) slot ⟨i, 1, true, true, d'⟩ = cacheOf i d' := by
  funext c
  by_cases hc : c = slot
  · subst hc
    rw [update_self,cacheOf_slot]
  · rw [update_of_ne hc,cacheOf,cacheOf,if_neg hc,if_neg hc]

theorem setDin_view {f : Dinode → Dinode} :
    setDin slot f (view m i d) = .ok ((), view m i (f d)) := by
  have hcache : update (view m i d).inode slot ⟨i,1,true,true,f d⟩ =
      (view m i (f d)).inode := update_cacheOf (f d)
  simp only [setDin,setInode,Prog.modify,view_slot,hcache]
  rfl

theorem decode_addrs (hk : k ≤ NDIRECT) : (Dinode.decode din).addrs k = din.word (3+k) :=
  if_pos hk

theorem view_block (hx : nmeta ≤ x) : (view m i d).block x = m.image x :=
  if_neg (by omega)

def State.store (m : State) (x : ℕ) (b : Block BSIZE) : State :=
  { m with image := update m.image x b, size := max m.size (x + 1) }

theorem rsect_of_lt (h : Ready m) (hx : x < FSSIZE) : rsect x m = .ok (m.image x, m) := by
  have hsize : x < m.size := by rwa [h.size]
  rw [rsect,bind_of_ok rfl,if_pos hsize]
  rfl

theorem iblock_lt (hj : j < NINODES) : sb.iblock j < sb.bmapstart := by
  have hj' : j < 200 := hj
  change j / 8 + 32 < 58
  omega

theorem view_store (hx : nmeta ≤ x) (b : Block BSIZE) : view (m.store x b) i d =
    { view m i d with block := update (view m i d).block x b } := by
  have hdinode : (view (m.store x b) i d).dinode = (view m i d).dinode := by
    funext j
    simp only [view,dinodes,inodeOf,State.store]
    split
    · next hj =>
      have hlt : sb.iblock j < nmeta := (iblock_lt hj).trans (by decide)
      rw [update_of_ne (by omega)]
    · rfl
  have hblock : (view (m.store x b) i d).block = update (view m i d).block x b := by
    funext y
    by_cases hy : y = x
    · subst hy
      rw [view_block hx,update_self]
      exact update_self ..
    · rw [update_of_ne hy]
      simp only [view,blocks,State.store,update_of_ne hy]
  rw [← hblock]
  dsimp only
  rw [← hdinode]
  rfl

theorem Ready.store (h : Ready m) (hx : nmeta ≤ x) (hlt : x < m.freeblock) (b : Block BSIZE) :
    Ready (m.store x b) := by
  have hfree := h.free_le
  have hx1 : 1 ≠ x := by
    have : 1 < nmeta := by decide
    omega
  refine ⟨?_,?_,h.meta_le,hfree,fun y hy => ?_⟩
  · change max m.size (x+1) = FSSIZE
    rw [h.size]
    omega
  · exact (update_of_ne hx1 _ _).trans h.super
  · have hyx : y ≠ x := by
      have : m.freeblock ≤ y := hy
      omega
    exact (update_of_ne hyx _ _).trans (h.blank y hy)

/-- `freeblock++`. -/
def State.take (m : State) : State := { m with freeblock := m.freeblock + 1 }

theorem Ready.take (h : Ready m) (hfree : m.freeblock < FSSIZE) : Ready m.take :=
  ⟨h.size,h.super,h.meta_le.trans (le_succ _),hfree,
    fun b hb => h.blank b ((le_succ _).trans hb)⟩

theorem balloc_view (h : Ready m) (hfree : m.freeblock < FSSIZE) :
    Fs.balloc .mkfs (view m i d) = .ok (m.freeblock, view m.take i d) := by
  have hfind : (List.range Superblock.mkfs.size).find? (fun b => !(view m i d).bitmap b) =
      some m.freeblock := by
    rw [List.find?_range_eq_some]
    refine ⟨by simp [view,taken],List.mem_range.mpr hfree,fun b hb => by simp [view,taken,hb]⟩
  have hblock : update (view m i d).block m.freeblock Block.zero =
      (view m i d).block := by
    rw [update_eq_self_iff,view_block h.meta_le,h.blank _ le_rfl]
  have hbitmap : update (view m i d).bitmap m.freeblock true =
      (view m.take i d).bitmap := by
    funext b
    by_cases hb : b = m.freeblock
    · subst hb
      simp [view,taken,State.take]
    · rw [update_of_ne hb]
      apply decide_eq_decide.mpr
      change b < m.freeblock ↔ b < m.freeblock+1
      omega
  simp only [Fs.balloc,Bind.bind,Prog.read,hfind,Prog.modify,hblock,hbitmap]
  rfl

/-- `mapAddr` finds an address, or stores a new one. -/
def Maps (m : State) (din : Block 64) (k : ℕ) (din' : Block 64) (m' : State) : Prop :=
  din.word (3 + k) ≠ 0 ∧ din' = din ∧ m' = m ∨
    din.word (3 + k) = 0 ∧ din' = din.setWord (3 + k) m.freeblock ∧ m' = m.take

theorem mapAddr_bmapAddr (h : Ready m) (hk : k ≤ NDIRECT)
    (hroom : din.word (3+k) = 0 → m.freeblock < FSSIZE) :
    ∃ din' m', mapAddr din k m = .ok (din', m') ∧ bmapAddr .mkfs slot k (view m i (.decode din)) =
        .ok (din'.word (3+k), view m' i (.decode din')) ∧ Maps m din k din' m' := by
  have hk12 : k ≤ 12 := hk
  by_cases h0 : din.word (3+k) = 0
  · have hfree := hroom h0
    have hlt : m.freeblock < 2 ^ 32 := hfree.trans (by decide)
    refine ⟨din.setWord (3+k) m.freeblock,m.take,?_,?_,.inr ⟨h0,rfl,rfl⟩⟩
    · rw [mapAddr,if_pos h0]
      rfl
    · have haddr : ((view m i (.decode din)).inode slot).din.addrs k = 0 := by
        rw [view_slot,decode_addrs hk,h0]
      rw [bmapAddr,bind_of_ok (a := 0) (by rw [Prog.read,haddr]),if_pos rfl,
        bind_of_ok (balloc_view h hfree),bind_of_ok setDin_view,
        din.word_setWord_self (by omega) hlt,decode_setAddr din hk hlt]
      rfl
  · refine ⟨din,m,?_,?_,.inl ⟨h0,rfl,rfl⟩⟩
    · rw [mapAddr,if_neg h0]
      rfl
    · have haddr : ((view m i (.decode din)).inode slot).din.addrs k = din.word (3+k) := by
        rw [view_slot,decode_addrs hk]
      rw [bmapAddr,bind_of_ok (a := din.word (3+k)) (by rw [Prog.read,haddr]),if_neg h0]
      rfl

/-- `mapEntry` finds an entry, or stores a new one. -/
def Enters (m : State) (a j : ℕ) (m' : State) : Prop :=
  (m.image a).word j ≠ 0 ∧ m' = m ∨
    (m.image a).word j = 0 ∧ m' = m.take.store a ((m.image a).setWord j m.freeblock)

theorem mapEntry_bmapEntry {a : ℕ} (h : Ready m) (ha : nmeta ≤ a) (hlt : a < m.freeblock)
    (hj : j < NINDIRECT) (hroom : (m.image a).word j = 0 → m.freeblock < FSSIZE) :
    ∃ m', mapEntry a j m = .ok ((m'.image a).word j, m') ∧
      bmapEntry .mkfs a j (view m i d) = .ok ((m'.image a).word j, view m' i d) ∧
      Enters m a j m' := by
  have hrsect := rsect_of_lt h (hlt.trans_le h.free_le)
  have hword : ((view m i d).block a).word j = (m.image a).word j := by rw [view_block ha]
  by_cases h0 : (m.image a).word j = 0
  · have hfree := hroom h0
    have hself : ((m.take.store a ((m.image a).setWord j m.freeblock)).image a) =
        (m.image a).setWord j m.freeblock := update_self ..
    refine ⟨m.take.store a ((m.image a).setWord j m.freeblock),?_,?_,.inr ⟨h0,rfl⟩⟩
    · rw [mapEntry,bind_of_ok hrsect,if_pos h0,hself]
      rfl
    rw [bmapEntry,bind_of_ok (a := 0) (by rw [Prog.read,hword,h0]),if_pos rfl,
      bind_of_ok (balloc_view h hfree),bind_of_ok (a := ())
        (t := view (m.take.store a ((m.image a).setWord j m.freeblock)) i d)]
    · have hfits : 4 * j + 4 ≤ BSIZE := by
        have := layout
        omega
      rw [hself,(m.image a).word_setWord_self hfits (hfree.trans (by decide))]
      rfl
    · rw [view_store ha,Prog.modify,view_block ha]
      rfl
  · refine ⟨m,?_,?_,.inl ⟨h0,rfl⟩⟩
    · rw [mapEntry,bind_of_ok hrsect,if_neg h0]
      rfl
    · rw [bmapEntry,bind_of_ok (a := (m.image a).word j) (by rw [Prog.read,hword]),if_neg h0]
      rfl

/-- The loop of `iappend` at offset `off`. -/
structure Appending (m : State) (i : ℕ) (din : Block 64) (off : ℕ) : Prop where
  ready : Ready m
  owns : Owns .mkfs (table (view m i (.decode din)) slot) (view m i (.decode din)).block
    (view m i (.decode din)).bitmap
  alloc : (Dinode.decode din).type ≠ .free
  filled : Filled (.decode din) (view m i (.decode din)).block off

theorem area_of_owns (howns : Owns .mkfs (table (view m i d) slot) (view m i d).block
    (view m i d).bitmap) (hal : d.type ≠ .free) (hk : k < NPLACE)
    (h0 : addrAt d (view m i d).block k ≠ 0) :
    nmeta ≤ addrAt d (view m i d).block k ∧ addrAt d (view m i d).block k < m.freeblock := by
  have hplace := placeAddr_self (s := view m i d) (c := slot) (k := k)
    (by rw [view_slot]; exact hal) hk
  rw [view_slot] at hplace
  dsimp only at hplace
  refine ⟨?_,?_⟩
  · have := (howns.area (i, k) (by rw [hplace]; exact h0)).1
    rwa [hplace] at this
  · have := howns.marked (i, k) (by rw [hplace]; exact h0)
    rw [hplace] at this
    exact of_decide_eq_true this

theorem addrAt_direct {B : ℕ → Block BSIZE} (hk : k ≤ NDIRECT) :
    addrAt (.decode din) B k = din.word (3+k) := by
  rw [addrAt,if_pos hk,decode_addrs hk]

theorem addrAt_indirect {B : ℕ → Block BSIZE} (h0 : din.word (3+NDIRECT) ≠ 0) :
    addrAt (.decode din) B (NDIRECT + 1 + j) = (B (din.word (3+NDIRECT))).word j := by
  rw [addrAt,if_neg (by omega),decode_addrs le_rfl,if_neg h0,Nat.add_sub_cancel_left]

theorem place_cases (k : ℕ) : k < NDIRECT ∨ k = NDIRECT ∨ ∃ j, k = NDIRECT + 1 + j := by
  rcases Nat.lt_trichotomy k NDIRECT with h | h | h
  · exact .inl h
  · exact .inr (.inl h)
  · exact .inr (.inr ⟨k - (NDIRECT+1),by omega⟩)

theorem need_eq (size : ℕ) : need size = (size+511) / 512 + if 6144 < size then 1 else 0 := rfl

theorem need_succ_of_pos (h : off % BSIZE ≠ 0) : need (off+1) = need off := by
  change off % 512 ≠ 0 at h
  rw [need_eq,need_eq]
  split <;> split <;> omega

/-- At the start of a block one more is needed, and with the first entry of the indirect block this
one as well. -/
theorem need_succ_of_zero (h : off % BSIZE = 0) :
    need (off+1) = need off + if off / BSIZE = NDIRECT then 2 else 1 := by
  change off % 512 = 0 at h
  change need (off+1) = need off + if off / 512 = 12 then 2 else 1
  rw [need_eq,need_eq]
  split <;> split <;> split <;> omega

theorem askedBy_succ (k off : ℕ) : askedBy k * BSIZE < off + 1 ↔
    askedBy k * BSIZE < off ∨ off % BSIZE = 0 ∧ askedBy k = off / BSIZE := by
  change askedBy k * 512 < off + 1 ↔ askedBy k * 512 < off ∨ off % 512 = 0 ∧ askedBy k = off / 512
  omega

theorem asked_iff : off / BSIZE * BSIZE < off ↔ off % BSIZE ≠ 0 := by
  change off / 512 * 512 < off ↔ off % 512 ≠ 0
  omega

theorem Filled.direct {B : ℕ → Block BSIZE} (h : Filled (.decode din) B off)
    (hfbn : off / BSIZE < NDIRECT) (hb : x ≠ 0) (hx : x < 2 ^ 32) (hzero : off % BSIZE = 0) :
    Filled (.decode (din.setWord (3 + off / BSIZE) x)) B (off+1) := by
  intro k hk
  rw [askedBy_succ,and_iff_right hzero,← h k hk]
  have hn := layout
  rcases place_cases k with hlt | rfl | ⟨j,rfl⟩
  · have hask : askedBy k = k := if_pos hlt.le
    rw [addrAt_direct hlt.le,addrAt_direct hlt.le,hask]
    by_cases hkf : k = off / BSIZE
    · subst hkf
      rw [din.word_setWord_self (by omega) hx]
      simp [hb]
    · rw [din.word_setWord_of_ne (by omega) (by omega)]
      simp [hkf]
  · have hask : askedBy NDIRECT ≠ off / BSIZE := by
      rw [askedBy,if_pos le_rfl]
      omega
    rw [addrAt_direct le_rfl,addrAt_direct le_rfl,din.word_setWord_of_ne (by omega) (by omega)]
    simp [hask]
  have hask : askedBy (NDIRECT + 1 + j) ≠ off / BSIZE := by
    rw [askedBy,if_neg (by omega)]
    omega
  have hsame : (din.setWord (3 + off / BSIZE) x).word (3+NDIRECT) = din.word (3+NDIRECT) :=
    din.word_setWord_of_ne (by omega) (by omega)
  have haddr : addrAt (.decode (din.setWord (3 + off / BSIZE) x)) B (NDIRECT + 1 + j) =
      addrAt (.decode din) B (NDIRECT + 1 + j) := by
    simp only [addrAt,decode_addrs le_rfl,hsame,if_neg (show ¬ NDIRECT + 1 + j ≤ NDIRECT by omega)]
  rw [haddr]
  simp [hask]

theorem Filled.entry {B : ℕ → Block BSIZE} (h : Filled (.decode din) B off)
    (hind : din.word (3+NDIRECT) ≠ 0) (hfbn : off / BSIZE = NDIRECT+j) (hj : j < NINDIRECT)
    (hb : x ≠ 0) (hx : x < 2 ^ 32) (hzero : off % BSIZE = 0) :
    Filled (.decode din) (update B (din.word (3+NDIRECT))
      ((B (din.word (3+NDIRECT))).setWord j x)) (off+1) := by
  have hn := layout
  have hpast : NDIRECT * BSIZE < off := by
    have := (h NDIRECT (by omega)).mp (by rw [addrAt_direct le_rfl]; exact hind)
    rwa [askedBy,if_pos le_rfl] at this
  have hne : NDIRECT ≠ off / BSIZE := by
    change off % 512 = 0 at hzero
    change 12 * 512 < off at hpast
    change 12 ≠ off / 512
    omega
  intro k hk
  rw [askedBy_succ,and_iff_right hzero,← h k hk]
  rcases place_cases k with hlt | rfl | ⟨l,rfl⟩
  · have hask : askedBy k ≠ off / BSIZE := by
      rw [askedBy,if_pos hlt.le]
      omega
    rw [addrAt_direct hlt.le,addrAt_direct hlt.le]
    simp [hask]
  · have hask : askedBy NDIRECT ≠ off / BSIZE := by rwa [askedBy,if_pos le_rfl]
    rw [addrAt_direct le_rfl,addrAt_direct le_rfl]
    simp [hask]
  have hask : askedBy (NDIRECT + 1 + l) = NDIRECT+l := by
    rw [askedBy,if_neg (by omega)]
    omega
  rw [addrAt_indirect hind,addrAt_indirect hind,update_self,hask,hfbn]
  by_cases hl : l = j
  · subst hl
    rw [Block.word_setWord_self _ (by omega) hx]
    simp [hb]
  · rw [Block.word_setWord_of_ne _ (by omega) hl]
    simp [hl]

theorem Filled.first {a : ℕ} {B : ℕ → Block BSIZE} (h : Filled (.decode din) B off)
    (hoff : off = NDIRECT*BSIZE) (ha : a ≠ 0) (halt : a < 2 ^ 32) (hblank : B a = Block.zero)
    (hb : x ≠ 0) (hx : x < 2 ^ 32) :
    Filled (.decode (din.setWord (3+NDIRECT) a)) (update B a ((B a).setWord 0 x)) (off+1) := by
  have hn := layout
  have hzero : off % BSIZE = 0 := by rw [hoff,mul_mod_left]
  have hdiv : off / BSIZE = NDIRECT := by rw [hoff,Nat.mul_div_cancel _ (by decide)]
  intro k hk
  rw [askedBy_succ,and_iff_right hzero,← h k hk,hdiv]
  rcases place_cases k with hlt | rfl | ⟨l,rfl⟩
  · have hask : askedBy k ≠ NDIRECT := by
      rw [askedBy,if_pos hlt.le]
      omega
    rw [addrAt_direct hlt.le,addrAt_direct hlt.le,din.word_setWord_of_ne (by omega) (by omega)]
    simp [hask]
  · rw [addrAt_direct le_rfl,addrAt_direct le_rfl,din.word_setWord_self (by omega) halt]
    simp [ha,askedBy]
  have hself : (din.setWord (3+NDIRECT) a).word (3+NDIRECT) = a :=
    din.word_setWord_self (by omega) halt
  have hask : askedBy (NDIRECT + 1 + l) = NDIRECT+l := by
    rw [askedBy,if_neg (by omega)]
    omega
  have hold : ¬ addrAt (.decode din) B (NDIRECT + 1 + l) ≠ 0 := by
    rw [h _ hk,hask,hoff,Nat.not_lt]
    exact Nat.mul_le_mul_right _ (Nat.le_add_right _ _)
  rw [addrAt_indirect (by rw [hself]; exact ha),hself,update_self,hblank,hask]
  by_cases hl : l = 0
  · subst hl
    rw [Block.word_setWord_self _ (by omega) hx]
    simp [hb]
  · rw [Block.word_setWord_of_ne _ (by omega) hl,Block.word_zero]
    simp [hl,hold]

theorem Filled.found {B : ℕ → Block BSIZE} (h : Filled d B off) (hpos : off % BSIZE ≠ 0) :
    Filled d B (off+1) := by
  intro k hk
  rw [askedBy_succ,h k hk]
  simp [hpos]

/-- Only the data area has been written. -/
structure Frame (m m' : State) : Prop where
  freeinode : m'.freeinode = m.freeinode
  low : ∀ b, b < nmeta → m'.image b = m.image b

theorem Frame.refl (m : State) : Frame m m := ⟨rfl,fun _ _ => rfl⟩

theorem Frame.trans {m'' : State} (h : Frame m m') (h' : Frame m' m'') : Frame m m'' :=
  ⟨h'.freeinode.trans h.freeinode,fun b hb => (h'.low b hb).trans (h.low b hb)⟩

theorem Frame.store (h : Frame m m') (hx : nmeta ≤ x) (b : Block BSIZE) : Frame m (m'.store x b) :=
  ⟨h.freeinode,fun y hy => (update_of_ne (by omega) _ _).trans (h.low y hy)⟩

/-- The block of `off` is mapped in the same way on both sides. -/
structure Mapped (m : State) (i : ℕ) (din : Block 64) (off : ℕ) (din' : Block 64) (x : ℕ)
    (m' : State) : Prop where
  mkfs : mapBlock din (off / BSIZE) m = .ok ((din', x), m')
  kernel : bmap .mkfs slot (off / BSIZE) (view m i (.decode din)) =
    .ok (x, view m' i (.decode din'))
  frame : Frame m m'
  ready : Ready m'
  filled : Filled (.decode din') (view m' i (.decode din')).block (off + 1)
  freeblock : m'.freeblock + need off = m.freeblock + need (off + 1)

theorem mapBlock_indirect {fbn : ℕ} (hfbn : fbn = NDIRECT+j) {m1 : State}
    (hmk : mapAddr din NDIRECT m = .ok (din', m1))
    (hent : mapEntry (din'.word (3+NDIRECT)) j m1 = .ok (x, m')) :
    mapBlock din fbn m = .ok ((din', x), m') := by
  have hsub : fbn - NDIRECT = j := by omega
  rw [mapBlock,if_neg (by omega),bind_of_ok hmk,hsub,bind_of_ok hent]
  rfl

theorem bmap_indirect {fbn a : ℕ} {s t u : Fs.State} (hfbn : fbn = NDIRECT+j)
    (hj : j < NINDIRECT) (hke : bmapAddr .mkfs slot NDIRECT s = .ok (a, t))
    (hent : bmapEntry .mkfs a j t = .ok (x, u)) : bmap .mkfs slot fbn s = .ok (x, u) := by
  have hsub : fbn - NDIRECT = j := by omega
  rw [bmap,if_neg (by omega),if_pos (by omega),bind_of_ok hke,hsub,hent]

theorem Appending.mapDirect (h : Appending m i din off) (hfbn : off / BSIZE < NDIRECT)
    (hroom : m.freeblock + need (off+1) ≤ FSSIZE + need off) :
    ∃ din' x m', Mapped m i din off din' x m' := by
  have hask : din.word (3 + off / BSIZE) ≠ 0 ↔ off % BSIZE ≠ 0 := by
    have := h.filled (off / BSIZE) (by have := layout; omega)
    rwa [addrAt_direct hfbn.le,askedBy,if_pos hfbn.le,asked_iff] at this
  have hneed : din.word (3 + off / BSIZE) = 0 →
      off % BSIZE = 0 ∧ need (off+1) = need off + 1 := by
    intro h0
    have hzero : off % BSIZE = 0 := not_not.mp fun hpos => hask.mpr hpos h0
    refine ⟨hzero,?_⟩
    rw [need_succ_of_zero hzero,if_neg (by omega)]
  obtain ⟨din',m',hmkfs,hkernel,hmaps⟩ := mapAddr_bmapAddr (i := i) h.ready hfbn.le
    (fun h0 => by have := (hneed h0).2; omega)
  have hm : mapBlock din (off / BSIZE) m = .ok ((din', din'.word (3 + off / BSIZE)), m') := by
    rw [mapBlock,if_pos hfbn,bind_of_ok hmkfs]
    rfl
  have hb : bmap .mkfs slot (off / BSIZE) (view m i (.decode din)) =
      .ok (din'.word (3 + off / BSIZE), view m' i (.decode din')) := by
    rw [bmap,if_pos hfbn]
    exact hkernel
  refine ⟨din',din'.word (3 + off / BSIZE),m',?_⟩
  rcases hmaps with ⟨h0,rfl,rfl⟩ | ⟨h0,rfl,rfl⟩
  · have hpos := hask.mp h0
    exact ⟨hm,hb,.refl m',h.ready,h.filled.found hpos,by rw [need_succ_of_pos hpos]⟩
  obtain ⟨hzero,hn⟩ := hneed h0
  have hfree : m.freeblock < FSSIZE := by omega
  have hne : m.freeblock ≠ 0 := by
    have := h.ready.meta_le
    have : 0 < nmeta := by decide
    omega
  refine ⟨hm,hb,⟨rfl,fun _ _ => rfl⟩,h.ready.take hfree,
    h.filled.direct hfbn hne (hfree.trans (by decide)) hzero,?_⟩
  change m.freeblock + 1 + need off = _
  omega

theorem Appending.mapEntry (h : Appending m i din off) (hind : din.word (3+NDIRECT) ≠ 0)
    (hfbn : off / BSIZE = NDIRECT+j) (hj : j < NINDIRECT)
    (hroom : m.freeblock + need (off+1) ≤ FSSIZE + need off) :
    ∃ x m', Mapped m i din off din x m' := by
  have hn := layout
  have hblock : addrAt (.decode din) (view m i (.decode din)).block NDIRECT =
      din.word (3+NDIRECT) := addrAt_direct le_rfl
  have harea := area_of_owns (k := NDIRECT) h.owns h.alloc (by omega) (by rw [hblock]; exact hind)
  rw [hblock] at harea
  have hask : (m.image (din.word (3+NDIRECT))).word j ≠ 0 ↔ off % BSIZE ≠ 0 := by
    have := h.filled (NDIRECT + 1 + j) (by omega)
    rw [addrAt_indirect hind,view_block harea.1,askedBy,if_neg (by omega),
      show NDIRECT + 1 + j - 1 = off / BSIZE by omega,asked_iff] at this
    exact this
  have hpast : NDIRECT * BSIZE < off := by
    have := (h.filled NDIRECT (by omega)).mp (by rw [hblock]; exact hind)
    rwa [askedBy,if_pos le_rfl] at this
  have hneed : (m.image (din.word (3+NDIRECT))).word j = 0 →
      off % BSIZE = 0 ∧ need (off+1) = need off + 1 := by
    intro h0
    have hzero : off % BSIZE = 0 := not_not.mp fun hpos => hask.mpr hpos h0
    refine ⟨hzero,?_⟩
    rw [need_succ_of_zero hzero,if_neg]
    change off % 512 = 0 at hzero
    change 12 * 512 < off at hpast
    change off / 512 ≠ 12
    omega
  obtain ⟨m',hmkfs,hkernel,hent⟩ := mapEntry_bmapEntry (i := i) (d := .decode din) h.ready harea.1
    harea.2 hj (fun h0 => by have := (hneed h0).2; omega)
  obtain ⟨din1,m1,hmk,hke,hmaps⟩ := mapAddr_bmapAddr (i := i) h.ready le_rfl
    (fun h0 => absurd h0 hind)
  obtain ⟨-,rfl,rfl⟩ | ⟨h0,-⟩ := hmaps
  swap
  · exact absurd h0 hind
  have hm := mapBlock_indirect hfbn hmk hmkfs
  have hb := bmap_indirect hfbn hj hke hkernel
  refine ⟨(m'.image (din1.word (3+NDIRECT))).word j,m',?_⟩
  rcases hent with ⟨h0,rfl⟩ | ⟨h0,rfl⟩
  · have hpos := hask.mp h0
    exact ⟨hm,hb,.refl m',h.ready,h.filled.found hpos,by rw [need_succ_of_pos hpos]⟩
  obtain ⟨hzero,hn⟩ := hneed h0
  have hfree : m1.freeblock < FSSIZE := by omega
  have hne : m1.freeblock ≠ 0 := by
    have := h.ready.meta_le
    have : 0 < nmeta := by decide
    omega
  refine ⟨hm,hb,(Frame.mk rfl fun _ _ => rfl : Frame m1 m1.take).store harea.1 _,
    (h.ready.take hfree).store harea.1 (lt_succ_of_lt harea.2) _,?_,?_⟩
  · have hfill := h.filled.entry hind hfbn hj hne (hfree.trans (by decide)) hzero
    rw [view_block harea.1] at hfill
    rw [view_store harea.1]
    exact hfill
  · change m1.freeblock + 1 + need off = _
    omega

theorem Appending.mapFirst (h : Appending m i din off) (hind : din.word (3+NDIRECT) = 0)
    (hfbn : NDIRECT ≤ off / BSIZE) (hroom : m.freeblock + need (off+1) ≤ FSSIZE + need off) :
    ∃ din' x m', Mapped m i din off din' x m' := by
  have hn := layout
  have hoff : off = NDIRECT*BSIZE := by
    have := h.filled NDIRECT (by omega)
    rw [addrAt_direct le_rfl,askedBy,if_pos le_rfl,hind] at this
    have hle : ¬ NDIRECT * BSIZE < off := fun hlt => this.mpr hlt rfl
    change 12 ≤ off / 512 at hfbn
    change ¬ 12 * 512 < off at hle
    change off = 12*512
    omega
  have hdiv : off / BSIZE = NDIRECT := by rw [hoff,Nat.mul_div_cancel _ (by decide)]
  have hneed : need (off+1) = need off + 2 := by
    rw [need_succ_of_zero (by rw [hoff,mul_mod_left]),if_pos hdiv]
  have hfree : m.freeblock + 1 < FSSIZE := by omega
  have hlt : m.freeblock + 1 < 2 ^ 32 := hfree.trans (by decide)
  have hmeta : nmeta ≤ m.freeblock := h.ready.meta_le
  have hpos : 0 < nmeta := by decide
  have hready : Ready m.take := h.ready.take (by omega)
  have hblank : m.image m.freeblock = Block.zero := h.ready.blank _ le_rfl
  obtain ⟨din',m1,hmk,hke,hmaps⟩ := mapAddr_bmapAddr (i := i) h.ready le_rfl (fun _ => by omega)
  obtain ⟨h0,-⟩ | ⟨-,rfl,rfl⟩ := hmaps
  · exact absurd hind h0
  have hself : (din.setWord (3+NDIRECT) m.freeblock).word (3+NDIRECT) = m.freeblock :=
    din.word_setWord_self (by omega) (by omega)
  obtain ⟨m',hmkfs,hkernel,hent⟩ := mapEntry_bmapEntry (i := i) (j := 0)
    (d := .decode (din.setWord (3+NDIRECT) m.freeblock)) hready hmeta (lt_succ_self _)
    (by omega) (fun _ => hfree)
  obtain ⟨h0,-⟩ | ⟨-,rfl⟩ := hent
  · exact absurd (by rw [show m.take.image = m.image from rfl,hblank,Block.word_zero]) h0
  have hm := mapBlock_indirect (j := 0) hdiv hmk (by rw [hself]; exact hmkfs)
  have hb := bmap_indirect (j := 0) hdiv (by omega) hke (by rw [hself]; exact hkernel)
  have hframe : Frame m m.take.take := ⟨rfl,fun _ _ => rfl⟩
  refine ⟨_,_,_,hm,hb,hframe.store hmeta _,(hready.take hfree).store hmeta ?_ _,?_,?_⟩
  · change m.freeblock < m.freeblock + 1 + 1
    omega
  · have hfill := h.filled.first hoff (a := m.freeblock) (x := m.freeblock+1) (by omega) (by omega)
      (by rw [view_block hmeta,hblank]) (by omega) hlt
    rw [view_block hmeta] at hfill
    rw [view_store hmeta]
    exact hfill
  · change m.freeblock + 1 + 1 + need off = _
    omega

theorem Appending.mapBlock (h : Appending m i din off) (hoff : off / BSIZE < MAXFILE)
    (hroom : m.freeblock + need (off+1) ≤ FSSIZE + need off) :
    ∃ din' x m', Mapped m i din off din' x m' := by
  by_cases hfbn : off / BSIZE < NDIRECT
  · exact h.mapDirect hfbn hroom
  · by_cases hind : din.word (3+NDIRECT) = 0
    · exact h.mapFirst hind (by omega) hroom
    · have hn := layout
      obtain ⟨x,m',hm⟩ := h.mapEntry (j := off / BSIZE - NDIRECT) hind (by omega) (by omega) hroom
      exact ⟨din,x,m',hm⟩

theorem Filled.within {l : ℕ} {B : ℕ → Block BSIZE} (h : Filled d B (off+1)) (hpos : 0 < l)
    (hle : l ≤ BSIZE - off % BSIZE) : Filled d B (off+l) := by
  intro k hk
  rw [h k hk]
  change l ≤ 512 - off % 512 at hle
  change askedBy k * 512 < off + 1 ↔ askedBy k * 512 < off+l
  omega

theorem need_within {l : ℕ} (hpos : 0 < l) (hle : l ≤ BSIZE - off % BSIZE) :
    need (off+l) = need (off+1) := by
  change l ≤ 512 - off % 512 at hle
  rw [need_eq,need_eq]
  split <;> split <;> omega

theorem need_mono {a b : ℕ} (h : a ≤ b) : need a ≤ need b := by
  rw [need_eq,need_eq]
  split <;> split <;> omega

theorem Appending.round (h : Appending m i din off) (hoff : off / BSIZE < MAXFILE)
    (hm : Mapped m i din off din' x m') (hlen : p.length ≤ BSIZE - off % BSIZE)
    (hpos : 0 < p.length) :
    (nmeta ≤ x ∧ x < FSSIZE) ∧
      Appending (m'.store x ((m'.image x).patch (off % BSIZE) p)) i din' (off + p.length) := by
  have hal : ((view m i (.decode din)).inode slot).din.type ≠ .free := by
    rw [view_slot]
    exact h.alloc
  have hbmap := wp_bmap (E := fun _ => True) (fun _ => trivial) h.owns hal hoff
  obtain ⟨hext,hown,hx0,hx,hsame,-⟩ := hbmap.of_ok hm.kernel
  have htype := hext.type
  have hxd := hx
  simp only [view_slot] at htype hxd
  have halt : (Dinode.decode din').type ≠ .free := by
    rw [htype]
    exact h.alloc
  have harea := area_of_owns hown halt (dataPlace_lt hoff) (by rw [hxd]; exact hx0)
  rw [hxd] at harea
  have hfree := hm.ready.free_le
  have hview : view (m'.store x ((m'.image x).patch (off % BSIZE) p)) i (.decode din') =
      { view m' i (.decode din') with
        block := update (view m' i (.decode din')).block x
          (((view m' i (.decode din')).block x).patch (off % BSIZE) p) } := by
    rw [view_store harea.1,view_block harea.1]
  obtain ⟨-,hown',hat⟩ := Writes.of_store hext hown hal hoff hx hx0 hsame p hlen hpos hview
  refine ⟨⟨harea.1,by omega⟩,hm.ready.store harea.1 harea.2 _,hown',halt,fun k hk => ?_⟩
  -- the store changes no address
  have hk' := hat k hk
  rw [view_slot,view_slot] at hk'
  rw [hk']
  exact hm.filled.within hpos hlen k hk

theorem iappendLoop_writes (fuel : ℕ) (h : Appending m i din off) (hfuel : p.length ≤ fuel)
    (hmax : off + p.length ≤ MAXFILE*BSIZE)
    (hroom : m.freeblock + need (off+p.length) ≤ FSSIZE + need off) :
    ∃ din' m', iappendLoop fuel din off p m = .ok ((din', off+p.length), m') ∧
      writeiLoop .mkfs slot fuel off p (view m i (.decode din)) =
        .ok ((), view m' i (.decode din')) ∧ Appending m' i din' (off+p.length) ∧ Frame m m' ∧
      m'.freeblock + need off = m.freeblock + need (off+p.length) := by
  induction fuel generalizing m din off p with
  | zero =>
    obtain rfl : p = [] := List.eq_nil_of_length_eq_zero (by omega)
    exact ⟨din,m,rfl,rfl,h,.refl m,rfl⟩
  | succ fuel ih =>
    by_cases hp : p = []
    · subst hp
      exact ⟨din,m,rfl,rfl,h,.refl m,rfl⟩
    have hpos : 0 < p.length := List.length_pos_iff.mpr hp
    have hoff : off / BSIZE < MAXFILE := Nat.div_lt_of_lt_mul (by rw [Nat.mul_comm]; omega)
    have hmod : off - off / BSIZE * BSIZE = off % BSIZE := by
      rw [Nat.mul_comm]
      exact (mod_eq_sub_mul_div).symm
    have hleft : (off / BSIZE + 1) * BSIZE - off = BSIZE - off % BSIZE := by
      change (off / 512 + 1) * 512 - off = 512 - off % 512
      omega
    have hlt : off % BSIZE < BSIZE := mod_lt _ (by decide)
    set n1 := min p.length (BSIZE - off % BSIZE) with hn1
    have htake : (p.take n1).length = n1 := by
      rw [List.length_take]
      omega
    have hdrop : (p.drop n1).length = p.length-n1 := List.length_drop
    have hfirst : need (off+n1) = need (off+1) := need_within (by omega) (by omega)
    have hmono : need (off+n1) ≤ need (off+p.length) := need_mono (by omega)
    obtain ⟨din1,x,m1,hm⟩ := h.mapBlock hoff (by omega)
    obtain ⟨hx,hnext⟩ := h.round hoff hm (p := p.take n1) (by omega) (by omega)
    rw [htake] at hnext
    have hfree := hm.freeblock
    set m2 := m1.store x ((m1.image x).patch (off % BSIZE) (p.take n1)) with hm2
    have hfree2 : m2.freeblock = m1.freeblock := rfl
    have hend : off + n1 + (p.drop n1).length = off+p.length := by omega
    obtain ⟨din',m',hmk,hke,happ,hframe,hcount⟩ := ih hnext (p := p.drop n1) (by omega)
      (by omega) (by rw [hend]; omega)
    rw [hend] at hmk happ hcount
    refine ⟨din',m',?_,?_,happ,(hm.frame.store hx.1 _).trans hframe,by omega⟩
    · rw [iappendLoop,if_neg hp]
      dsimp only
      rw [if_pos hoff,bind_of_ok hm.mkfs,hleft,hmod,← hn1,bind_of_ok (rsect_of_lt hm.ready hx.2)]
      exact hmk
    · rw [writeiLoop,if_neg hp,bind_of_ok hm.kernel,← hn1,
        bind_of_ok (a := ()) (t := view m2 i (.decode din1))]
      · exact hke
      · rw [hm2,view_store hx.1,Prog.modify,view_block hx.1]

def State.putInode (m : State) (i : ℕ) (din : Block 64) : State :=
  m.store (sb.iblock i) ((m.image (sb.iblock i)).overlay (64 * (i % IPB)) din)

theorem record_le (i : ℕ) : 64 * (i % IPB) + 64 ≤ BSIZE := by
  change 64 * (i % 8) + 64 ≤ 512
  omega

theorem rinode_of_lt (h : Ready m) (hi : i < NINODES) :
    rinode i m = .ok ((m.image (sb.iblock i)).part (64 * (i % IPB)) 64, m) := by
  rw [rinode,bind_of_ok (rsect_of_lt h ((iblock_lt hi).trans (by decide)))]
  rfl

theorem winode_of_lt (h : Ready m) (hi : i < NINODES) (din : Block 64) :
    winode i din m = .ok ((), m.putInode i din) := by
  rw [winode,bind_of_ok (rsect_of_lt h ((iblock_lt hi).trans (by decide)))]
  rfl

theorem Ready.putInode (h : Ready m) (hi : i < NINODES) (din : Block 64) :
    Ready (m.putInode i din) := by
  have hlt : sb.iblock i < 58 := iblock_lt hi
  have hone : 1 ≠ sb.iblock i := by
    have : 32 ≤ sb.iblock i := Nat.le_add_left 32 _
    omega
  have hmeta : 59 ≤ m.freeblock := h.meta_le
  refine ⟨?_,?_,hmeta,h.free_le,fun b hb => ?_⟩
  · change max m.size (sb.iblock i + 1) = 1000
    rw [h.size]
    change max 1000 _ = 1000
    omega
  · simp only [State.putInode,State.store,update_of_ne hone,h.super]
  · have hne : b ≠ sb.iblock i := by
      have : m.freeblock ≤ b := hb
      omega
    exact (update_of_ne hne _ _).trans (h.blank b hb)

theorem dinodes_putInode (hi : i < NINODES) (din : Block 64) :
    dinodes (m.putInode i din) = update (dinodes m) i (.decode din) := by
  funext j
  by_cases hj : j = i
  · subst hj
    rw [update_self,dinodes,if_pos hi,inodeOf,State.putInode,State.store]
    dsimp only
    rw [update_self,Block.part_overlay_self _ _ (record_le j)]
  rw [update_of_ne hj,dinodes,dinodes]
  split
  · rw [inodeOf,inodeOf,State.putInode,State.store]
    dsimp only
    by_cases hb : sb.iblock j = sb.iblock i
    · -- two inodes of one block
      have hblk : j / 8 + 32 = i / 8 + 32 := hb
      rw [hb,update_self,Block.part_overlay_of_disjoint _ _ (record_le j)]
      change 64 * (j % 8) + 64 ≤ 64 * (i % 8) ∨ 64 * (i % 8) + 64 ≤ 64 * (j % 8)
      omega
    · rw [update_of_ne hb]
  · rfl

theorem blocks_putInode (hi : i < NINODES) (din : Block 64) :
    blocks (m.putInode i din) = blocks m := by
  funext b
  simp only [blocks]
  split
  · rfl
  · next hb =>
    have hlt : sb.iblock i < nmeta := (iblock_lt hi).trans (by decide)
    exact update_of_ne (by omega) _ _

/-- An image between two calls of `iappend`. -/
structure Good (m : State) : Prop where
  ready : Ready m
  disk : DiskOk .mkfs (dinodes m) (blocks m) (taken m)
  filled : ∀ i, (dinodes m i).type ≠ .free → Filled (dinodes m i) (blocks m) (dinodes m i).size
  unused : ∀ i, m.freeinode ≤ i → (dinodes m i).type = .free

theorem lt_ninodes (h : Good m) (hal : (dinodes m i).type ≠ .free) : i < NINODES := by
  by_contra hge
  exact hal (h.disk.beyond i (Nat.le_of_not_lt hge))

theorem Good.wf (h : Good m) (hal : (dinodes m i).type ≠ .free) :
    Wf .mkfs (view m i (dinodes m i)) := by
  have hslot : ∀ c, 0 < ((view m i (dinodes m i)).inode c).ref → c = slot := by
    intro c hc
    by_contra hne
    simp only [view,cacheOf,if_neg hne] at hc
    cases hc
  refine ⟨h.disk,?_,?_,?_,?_⟩
  · intro c c' hc hc' _
    rw [hslot c hc,hslot c' hc']
  · intro c hc _
    rw [hslot c hc,view_slot]
    rfl
  · intro c hc _
    rw [hslot c hc,view_slot]
    exact hal
  · intro c hc
    by_cases hcs : c = slot
    · subst hcs
      rw [view_slot] at hc
      cases hc
    · simp only [view,cacheOf,if_neg hcs]

def nodes (m : State) (i : ℕ) : Node := nodeOf (dinodes m i) (blocks m)

theorem node_view : node (view m i d) = nodes m := rfl

theorem Good.appending (h : Good m) (hal : (dinodes m i).type ≠ .free)
    (hdin : dinodes m i = .decode din) : Appending m i din (dinodes m i).size := by
  refine ⟨h.ready,?_,by rw [← hdin]; exact hal,by rw [← hdin]; exact h.filled i hal⟩
  rw [← hdin,table_of_flushed (by rw [view_slot]; rfl)]
  exact h.disk.owns

theorem Frame.dinodes_eq (h : Frame m m') : dinodes m' = dinodes m := by
  funext j
  rw [dinodes,dinodes]
  split
  · next hj => rw [inodeOf,inodeOf,h.low _ ((iblock_lt hj).trans (by decide))]
  · rfl

theorem store_view (hi : i < NINODES) (din' : Block 64) :
    store (view m i d) slot i (.decode din') = view (m.putInode i din') i (.decode din') := by
  have hcache : update (view m i d).inode slot { (view m i d).inode slot with
      din := .decode din' } = (view (m.putInode i din') i (.decode din')).inode := by
    rw [view_slot]
    exact update_cacheOf _
  have hdinode : update (view m i d).dinode i (.decode din') =
      (view (m.putInode i din') i (.decode din')).dinode := (dinodes_putInode hi din').symm
  rw [store,hcache,hdinode]
  simp only [view,blocks_putInode hi]
  rfl

theorem growTo_view {n : ℕ} (hi : i < NINODES) (hn : 0 < n)
    (hsize : (Dinode.decode din).size < off) (hoff : off < 2 ^ 32) :
    growTo slot n off (view m i (.decode din)) = .ok ((),
      view (m.putInode i (din.setWord 2 off)) i (.decode (din.setWord 2 off))) := by
  have hsz : ((view m i (.decode din)).inode slot).din.size = (Dinode.decode din).size := by
    rw [view_slot]
  have hwp : wp (fun _ => False) (growTo slot n off) (view m i (.decode din)) fun _ t =>
      t = view (m.putInode i (din.setWord 2 off)) i (.decode (din.setWord 2 off)) := by
    rw [growTo,wp_bind,wp_read,hsz,if_pos ⟨hn,hsize⟩,wp_setDin_iupdate,view_slot]
    dsimp only
    rw [← decode_setSize din hoff,store_view hi]
  obtain ⟨u,t,ht,rfl⟩ := hwp.returns
  exact ht

theorem addrAt_other {m1 : State} {din1 : Block 64} (hframe : Frame m m1)
    (hw : Writes slot off p (view m i (dinodes m i)) (view m1 i (.decode din1))) (hji : j ≠ i)
    (hal : (dinodes m j).type ≠ .free) (hk : k < NPLACE) :
    addrAt (dinodes m j) (blocks m1) k = addrAt (dinodes m j) (blocks m) k := by
  have htab : ∀ (m : State) d, table (view m i d) slot j = dinodes m j := by
    intro m d
    rw [table,view_slot]
    exact update_of_ne hji _ _
  have hplace := hw.addr_of_ne (j, k) (by rw [view_slot]; exact hji)
  rw [placeAddr_of_alloc (by rw [htab,hframe.dinodes_eq]; exact hal) hk,
    placeAddr_of_alloc (by rw [htab]; exact hal) hk,htab,htab,hframe.dinodes_eq] at hplace
  exact hplace

/-- `iappend` does what `writei` of the kernel does at the end of the file. -/
theorem Good.iappend_writei (h : Good m) (hal : (dinodes m i).type ≠ .free)
    (hdev : (dinodes m i).type ≠ .dev) (hp : p ≠ [])
    (hmax : (dinodes m i).size + p.length ≤ MAXFILE*BSIZE)
    (hroom : m.freeblock + need ((dinodes m i).size + p.length) ≤ FSSIZE +
      need (dinodes m i).size) :
    ∃ m', iappend i p m = .ok ((), m') ∧ Good m' ∧ m'.freeinode = m.freeinode ∧
      m'.freeblock + need (dinodes m i).size =
        m.freeblock + need ((dinodes m i).size + p.length) ∧
      nodes m' = update (nodes m) i ((nodes m i).write (dinodes m i).size p) := by
  have hi := lt_ninodes h hal
  have hn := layout
  set size := (dinodes m i).size with hsize
  set din := (m.image (sb.iblock i)).part (64 * (i % IPB)) 64 with hdin
  have hdec : dinodes m i = .decode din := by rw [dinodes,if_pos hi,inodeOf]
  have hword : din.word 2 = size := by
    rw [hsize,hdec]
    rfl
  obtain ⟨din1,m1,hmk,hke,happ,hframe,hcount⟩ := iappendLoop_writes p.length
    (h.appending hal hdec) le_rfl hmax hroom
  rw [← hsize] at hmk hke happ hcount
  rw [← hdec] at hke
  have hlt : size + p.length < 2 ^ 32 := hmax.trans_lt (by decide)
  have hpos : 0 < p.length := List.length_pos_iff.mpr hp
  have hloop := wp_writeiLoop (E := fun _ => True) (s := view m i (dinodes m i)) (c := slot)
    (fun _ => trivial) (by rw [hdec]; exact (h.appending hal hdec).owns) hal p.length le_rfl hmax
  obtain ⟨hw,-⟩ := hloop.of_ok hke
  have hsize1 : (Dinode.decode din1).size = size := by
    have := hw.size
    rwa [view_slot,view_slot] at this
  set din2 := din1.setWord 2 (size+p.length) with hdin2
  have hgrow := growTo_view (m := m1) hi hpos (hsize1.trans_lt (by omega)) hlt
  rw [← hdin2] at hgrow
  have hdec2 : dinodes (m1.putInode i din2) i = .decode din2 := by
    rw [dinodes_putInode hi,update_self]
  have hwritei : writei .mkfs slot p size (view m i (dinodes m i)) =
      .ok (some p.length, view (m1.putInode i din2) i (dinodes (m1.putInode i din2) i)) := by
    have hgood : ¬ (size > (dinodes m i).size ∨ (size+p.length) % 2 ^ 32 < size) := by
      rw [mod_eq_of_lt hlt]
      omega
    have hsmall : ¬ (size+p.length) % 2 ^ 32 > MAXFILE*BSIZE := by
      rw [mod_eq_of_lt hlt]
      omega
    rw [writei,bind_of_ok (a := dinodes m i) (by rw [Prog.read,view_slot]),if_neg hdev,if_neg hgood,if_neg hsmall,bind_of_ok hke,bind_of_ok hgrow,hdec2]
    rfl
  have hres := Fs.wp_writei (E := fun _ => True) (h.wf hal) (i := i)
    ⟨by rw [view_slot]; exact Nat.one_pos,by rw [view_slot]⟩ (by rw [view_slot])
    (fun _ _ _ => trivial) (by rw [node_type]; exact hdev) (show size < _ by omega)
    (show p.length < _ by omega)
  obtain ⟨hwf,-,-,hnode⟩ := hres.of_ok hwritei
  have hnsize : (nodes m i).size = size := by rw [nodes,nodeOf,if_neg hal]
  rw [node_view,hnsize,if_neg (by omega)] at hnode
  refine ⟨m1.putInode i din2,?_,?_,hframe.freeinode,hcount,hnode.2.1⟩
  · rw [iappend,bind_of_ok (rinode_of_lt h.ready hi),← hdin,hword,bind_of_ok hmk]
    exact winode_of_lt happ.ready hi din2
  refine ⟨happ.ready.putInode hi din2,hwf.disk,fun j hj => ?_,fun j hj => ?_⟩
  · by_cases hji : j = i
    · subst hji
      rw [hdec2,blocks_putInode hi,decode_setSize din1 hlt]
      exact happ.filled
    · have hdj : dinodes (m1.putInode i din2) j = dinodes m j := by
        rw [dinodes_putInode hi,update_of_ne hji,hframe.dinodes_eq]
      rw [hdj] at hj ⊢
      rw [blocks_putInode hi]
      intro k hk
      rw [addrAt_other hframe hw hji hj hk]
      exact h.filled j hj k hk
  · have hji : j ≠ i := by
      rintro rfl
      exact hal (h.unused j (hframe.freeinode ▸ hj))
    rw [dinodes_putInode hi,update_of_ne hji,hframe.dinodes_eq]
    exact h.unused j (hframe.freeinode ▸ hj)

theorem Good.iappend (h : Good m) (hal : (nodes m i).type ≠ .free)
    (hdev : (nodes m i).type ≠ .dev) (hp : p ≠ [])
    (hmax : (nodes m i).size + p.length ≤ MAXFILE*BSIZE)
    (hroom : m.freeblock + need ((nodes m i).size + p.length) ≤ FSSIZE + need (nodes m i).size) :
    ∃ m', Mkfs.iappend i p m = .ok ((), m') ∧ Good m' ∧ m'.freeinode = m.freeinode ∧
      m'.freeblock + need (nodes m i).size = m.freeblock + need ((nodes m i).size + p.length) ∧
      nodes m' = update (nodes m) i ((nodes m i).write (nodes m i).size p) := by
  have htype : (nodes m i).type = (dinodes m i).type := node_type (s := view m i (dinodes m i))
  rw [htype] at hal hdev
  have hsize : (nodes m i).size = (dinodes m i).size := by rw [nodes,nodeOf,if_neg hal]
  rw [hsize] at hmax hroom ⊢
  exact h.iappend_writei hal hdev hp hmax hroom

end Xv6Container.Mkfs
