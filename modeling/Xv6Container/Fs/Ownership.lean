import Xv6Container.Lib.FreeMap
import Xv6Container.Lib.Tally
import Xv6Container.Fs.Inode

/-!
# Who owns which block

A block number can stand at 141 places of an inode. The disk is in order when the free bitmap is
exact for the places of all allocated inodes, and every block below an inode's size is there.
`table s c` is the inode table on disk with the cached copy of slot `c` put in. Allocation takes one
free block for each place that it fills, no more and no less.
-/

namespace Xv6Container.Fs

open Function Prog FreeMap

abbrev NPLACE : ℕ := NDIRECT + 1 + NINDIRECT

/-- The block number at place `k` of an inode. -/
def addrAt (d : Dinode) (B : ℕ → Block BSIZE) (k : ℕ) : ℕ :=
  if k ≤ NDIRECT then d.addrs k
  else if d.addrs NDIRECT = 0 then 0
  else (B (d.addrs NDIRECT)).word (k - (NDIRECT + 1))

/-- The place of the block with the bytes from `n * BSIZE` on. -/
def dataPlace (n : ℕ) : ℕ := if n < NDIRECT then n else n + 1

/-- The places that `bmap` fills for block `n`. -/
def placesFor (n : ℕ) : Finset ℕ := if n < NDIRECT then {n} else {NDIRECT, n + 1}

/-- The places that a write of `n` bytes at `off` fills. -/
def places (off n : ℕ) : Finset ℕ :=
  (Finset.Ico off (off + n)).biUnion fun o => placesFor (o / BSIZE)

/-- How many of the places `S` of an inode have no block. -/
def holes (d : Dinode) (B : ℕ → Block BSIZE) (S : Finset ℕ) : ℕ :=
  (S.filter fun k => addrAt d B k = 0).card

/-- The number of blocks that `balloc` can give out. -/
def freeBlocks (sb : Superblock) (s : State) : ℕ :=
  ((Finset.range sb.size).filter fun b => s.bitmap b = false).card

/-- Between `s` and `t` the places `S` of an inode have got blocks where they had none. The inode
was `d` before and is `d'` afterwards. -/
structure Fills (sb : Superblock) (S : Finset ℕ) (s t : State) (d d' : Dinode) : Prop where
  within : ∀ k ∈ S, k < NPLACE
  free : freeBlocks sb t + holes d s.block S = freeBlocks sb s
  empty : ∀ k, k < NPLACE → (addrAt d' t.block k = 0 ↔ addrAt d s.block k = 0 ∧ k ∉ S)

/-- The block number at place `(i, k)`, 0 if there is none. -/
def placeAddr (D : ℕ → Dinode) (B : ℕ → Block BSIZE) (p : ℕ × ℕ) : ℕ :=
  if (D p.1).type ≠ .free ∧ p.2 < NPLACE then addrAt (D p.1) B p.2 else 0

/-- The bitmap is exact for the blocks of the allocated inodes. -/
def Owns (sb : Superblock) (D : ℕ → Dinode) (B : ℕ → Block BSIZE) (bm : ℕ → Bool) : Prop :=
  Exact sb.dataStart sb.size (placeAddr D B) bm

/-- The inode table with the copy in slot `c` instead of the one on disk. -/
def table (s : State) (c : ISlot) : ℕ → Dinode :=
  update s.dinode (s.inode c).inum (s.inode c).din

variable {sb : Superblock} {s t u : State} {c : ISlot} {D : ℕ → Dinode} {S S' : Finset ℕ}
  {B B' : ℕ → Block BSIZE} {bm : ℕ → Bool} {b i j k m n o off : ℕ} {d d' d'' : Dinode}
  {E : Stop → Prop}

theorem layout : NDIRECT = 12 ∧ NINDIRECT = 128 ∧ MAXFILE = 140 ∧ NPLACE = 141 ∧ BSIZE = 512 :=
  ⟨rfl,rfl,rfl,rfl,rfl⟩

theorem Superblock.dataStart_pos (sb : Superblock) : 0 < sb.dataStart := by
  have := sb.nblocks_lt
  rw [Superblock.dataStart]
  omega

theorem dataPlace_ne (n : ℕ) : dataPlace n ≠ NDIRECT := by
  rw [dataPlace]
  split <;> omega

theorem dataPlace_lt (h : n < MAXFILE) : dataPlace n < NPLACE := by
  have := layout
  rw [dataPlace]
  split <;> omega

theorem dataPlace_inj (h : dataPlace m = dataPlace n) : m = n := by
  simp only [dataPlace] at h
  split at h <;> split at h <;> omega

theorem lt_of_mem_placesFor (hn : n < MAXFILE) (hk : k ∈ placesFor n) : k < NPLACE := by
  have := layout
  rw [placesFor] at hk
  split at hk <;> simp only [Finset.mem_insert,Finset.mem_singleton] at hk <;> omega

theorem mem_places : k ∈ places off n ↔ ∃ o, off ≤ o ∧ o < off + n ∧ k ∈ placesFor (o / BSIZE) := by
  simp only [places,Finset.mem_biUnion,Finset.mem_Ico,and_assoc]

theorem lt_of_mem_places (hmax : off + n ≤ MAXFILE * BSIZE) (hk : k ∈ places off n) :
    k < NPLACE := by
  obtain ⟨o,-,ho,hk⟩ := mem_places.mp hk
  refine lt_of_mem_placesFor (Nat.div_lt_of_lt_mul ?_) hk
  rw [Nat.mul_comm]
  omega

theorem places_add (off m n : ℕ) : places off (m + n) = places off m ∪ places (off + m) n := by
  rw [places,places,places,← Finset.union_biUnion,← Nat.add_assoc,
    Finset.Ico_union_Ico_eq_Ico (by omega) (by omega)]

theorem places_mono (h : m ≤ n) : places off m ⊆ places off n :=
  Finset.biUnion_subset_biUnion_of_subset_left _ (Finset.Ico_subset_Ico_right (by omega))

theorem div_of_lt (h1 : off ≤ o) (h2 : o < off+k) (h3 : k ≤ BSIZE - off % BSIZE) :
    o / BSIZE = off / BSIZE := by
  change k ≤ 512 - off % 512 at h3
  change o / 512 = off / 512
  omega

/-- Bytes of one block fill the places of that block. -/
theorem places_block (hpos : 0 < n) (hle : n ≤ BSIZE - off % BSIZE) :
    places off n = placesFor (off / BSIZE) := by
  ext k
  rw [mem_places]
  constructor
  · rintro ⟨o,h1,h2,hk⟩
    rwa [div_of_lt h1 h2 hle] at hk
  · exact fun hk => ⟨off,le_rfl,by omega,hk⟩

theorem card_placesFor_le (n : ℕ) : (placesFor n).card ≤ 2 := by
  rw [placesFor]
  split
  · simp
  · exact Finset.card_le_two

theorem holes_le (d : Dinode) (B : ℕ → Block BSIZE) (S : Finset ℕ) : holes d B S ≤ S.card :=
  Finset.card_filter_le _ _

theorem holes_mono (h : S ⊆ S') : holes d B S ≤ holes d B S' :=
  Finset.card_le_card (Finset.filter_subset_filter _ h)

theorem holes_singleton (d : Dinode) (B : ℕ → Block BSIZE) (k : ℕ) :
    holes d B {k} = if addrAt d B k = 0 then 1 else 0 := by
  rw [holes,Finset.filter_singleton]
  split <;> rfl

theorem freeBlocks_claim (hb : b < sb.size) (hfree : s.bitmap b = false)
    (hbm : t.bitmap = update s.bitmap b true) : freeBlocks sb t + 1 = freeBlocks sb s := by
  have hrest : (Finset.range sb.size).filter (fun b => t.bitmap b = false) =
      ((Finset.range sb.size).filter fun b => s.bitmap b = false).erase b := by
    ext x
    by_cases hx : x = b
    · simp [hx,hbm]
    · simp [hx,hbm]
  rw [freeBlocks,hrest]
  exact Finset.card_erase_add_one (by simp [hb,hfree])

namespace Fills

theorem nothing (sb : Superblock) (off : ℕ) (s : State) (d : Dinode) : Fills sb (places off 0) s s d d := by
  have hnone : places off 0 = ∅ := by simp [places]
  rw [hnone]
  refine ⟨fun _ hk => absurd hk (Finset.notMem_empty _),?_,fun k _ => ?_⟩ <;> simp [holes]

theorem holes_union (h : Fills sb S s t d d') (hS' : ∀ k ∈ S', k < NPLACE) :
    holes d s.block (S ∪ S') = holes d s.block S + holes d' t.block S' :=
  card_filter_union fun k hk => h.empty k (hS' k hk)

theorem trans (h : Fills sb S s t d d') (h' : Fills sb S' t u d' d'') :
    Fills sb (S ∪ S') s u d d'' := by
  refine ⟨fun k hk => ?_,?_,fun k hk => ?_⟩
  · exact (Finset.mem_union.mp hk).elim (h.within k) (h'.within k)
  · rw [h.holes_union h'.within]
    have := h.free
    have := h'.free
    omega
  · rw [h'.empty k hk,h.empty k hk,Finset.notMem_union,and_assoc]

/-- Blocks that are missing for what follows were missing from the start. -/
theorem lt (h : Fills sb S s t d d') (hS' : ∀ k ∈ S', k < NPLACE)
    (hlt : freeBlocks sb t < holes d' t.block S') :
    freeBlocks sb s < holes d s.block (S ∪ S') := by
  have := h.free
  rw [h.holes_union hS']
  omega

theorem congr (h : Fills sb S s t d d') (hbm : u.bitmap = t.bitmap)
    (hat : ∀ k, k < NPLACE → addrAt d'' u.block k = addrAt d' t.block k) :
    Fills sb S s u d d'' := by
  refine ⟨h.within,?_,fun k hk => by rw [hat k hk,h.empty k hk]⟩
  rw [freeBlocks,hbm]
  exact h.free

theorem of_ne (hk : k < NPLACE) (h0 : addrAt d s.block k ≠ 0) : Fills sb {k} s s d d := by
  refine ⟨?_,by rw [holes_singleton,if_neg h0]; rfl,fun l _ => ?_⟩
  · rintro l hl
    rwa [Finset.mem_singleton.mp hl]
  · rw [Finset.mem_singleton]
    refine ⟨fun hl => ⟨hl,?_⟩,And.left⟩
    rintro rfl
    exact h0 hl

end Fills

@[simp] theorem table_self : table s c (s.inode c).inum = (s.inode c).din := by simp [table]

theorem placeAddr_of_alloc (h : (D i).type ≠ .free) (hk : k < NPLACE) :
    placeAddr D B (i, k) = addrAt (D i) B k := if_pos ⟨h,hk⟩

theorem alloc_of_placeAddr (h : placeAddr D B (i, k) ≠ 0) : (D i).type ≠ .free ∧ k < NPLACE := by
  by_contra hn
  exact h (if_neg hn)

/-- What a change of the content of slot `c` leaves as it is: the disk inodes, the other slots, and
every block number that was there before. -/
structure Keeps (c : ISlot) (s t : State) : Prop where
  dinode : t.dinode = s.dinode
  input : t.input = s.input
  inode_of_ne : ∀ c', c' ≠ c → t.inode c' = s.inode c'
  inode_self : ∃ a, t.inode c = { s.inode c with din := { (s.inode c).din with addrs := a } }
  addr : ∀ p, placeAddr (table s c) s.block p ≠ 0 →
    placeAddr (table t c) t.block p = placeAddr (table s c) s.block p
  addr_of_ne : ∀ p, p.1 ≠ (s.inode c).inum →
    placeAddr (table t c) t.block p = placeAddr (table s c) s.block p

theorem Keeps.refl (c : ISlot) (s : State) : Keeps c s s :=
  ⟨rfl,rfl,fun _ _ => rfl,⟨_,rfl⟩,fun _ _ => rfl,fun _ _ => rfl⟩

theorem Keeps.inum (h : Keeps c s t) : (t.inode c).inum = (s.inode c).inum := by
  obtain ⟨a,ha⟩ := h.inode_self
  rw [ha]

theorem Keeps.type (h : Keeps c s t) : (t.inode c).din.type = (s.inode c).din.type := by
  obtain ⟨a,ha⟩ := h.inode_self
  rw [ha]

theorem Keeps.size (h : Keeps c s t) : (t.inode c).din.size = (s.inode c).din.size := by
  obtain ⟨a,ha⟩ := h.inode_self
  rw [ha]

theorem Keeps.trans {u : State} (h : Keeps c s t) (h' : Keeps c t u) : Keeps c s u := by
  refine ⟨h'.dinode.trans h.dinode,h'.input.trans h.input,fun c' hc => ?_,?_,fun p hp => ?_,
    fun p hp => ?_⟩
  · rw [h'.inode_of_ne c' hc,h.inode_of_ne c' hc]
  · obtain ⟨a,ha⟩ := h.inode_self
    obtain ⟨a',ha'⟩ := h'.inode_self
    exact ⟨a',by rw [ha',ha]⟩
  · have hp' := h.addr p hp
    rw [h'.addr p (hp' ▸ hp),hp']
  · rw [h'.addr_of_ne p (by rw [h.inum]; exact hp),h.addr_of_ne p hp]

/-- What allocation for slot `c` may change: addresses of its inode that were 0 get a block. All
data blocks keep their bytes. -/
structure Extends (c : ISlot) (s t : State) : Prop extends Keeps c s t where
  block : ∀ p, p.2 ≠ NDIRECT → placeAddr (table s c) s.block p ≠ 0 →
    t.block (placeAddr (table s c) s.block p) = s.block (placeAddr (table s c) s.block p)

theorem Extends.refl (c : ISlot) (s : State) : Extends c s s :=
  ⟨Keeps.refl c s,fun _ _ _ => rfl⟩

theorem Extends.trans {u : State} (h : Extends c s t) (h' : Extends c t u) : Extends c s u := by
  refine ⟨h.toKeeps.trans h'.toKeeps,fun p hk hp => ?_⟩
  have hp' := h.addr p hp
  have hb := h'.block p hk (hp' ▸ hp)
  rw [hp'] at hb
  rw [hb,h.block p hk hp]

theorem wp_balloc {Q : ℕ → State → Prop}
    (hE : freeBlocks sb s = 0 → E (.panic "balloc: out of blocks"))
    (hQ : ∀ b, b < sb.size → s.bitmap b = false → Q b { s with
      bitmap := update s.bitmap b true
      block := update s.block b Block.zero }) :
    wp E (balloc sb) s Q := by
  rw [balloc,wp_bind,wp_read]
  split
  · next b hb =>
    have hmem := List.mem_range.mp (List.mem_of_find?_eq_some hb)
    have hfree := List.find?_some hb
    exact hQ b hmem (by simpa using hfree)
  · next hnone =>
    refine hE (Finset.card_eq_zero.mpr (Finset.filter_eq_empty_iff.mpr fun b hb hfree => ?_))
    have hb := List.find?_eq_none.mp hnone b (List.mem_range.mpr (Finset.mem_range.mp hb))
    simp [hfree] at hb

theorem addrAt_congr (hk : k ≤ NDIRECT ∨ d.addrs NDIRECT = 0 ∨
    B' (d.addrs NDIRECT) = B (d.addrs NDIRECT)) : addrAt d B' k = addrAt d B k := by
  simp only [addrAt]
  split
  · rfl
  split
  · rfl
  next h1 h2 =>
  rw [(hk.resolve_left h1).resolve_left h2]

theorem Owns.indirect_ne (h : Owns sb D B bm) (hb : bm b = false) (hi : (D i).type ≠ .free) :
    (D i).addrs NDIRECT ≠ b := by
  have := (h.fresh sb.dataStart_pos hb).2 (i, NDIRECT)
  rwa [placeAddr_of_alloc hi (by decide),addrAt,if_pos (by decide)] at this

theorem Owns.indirect_inj (h : Owns sb D B bm) (hi : (D i).type ≠ .free)
    (hj : (D j).type ≠ .free) (h0 : (D i).addrs NDIRECT ≠ 0)
    (hij : (D i).addrs NDIRECT = (D j).addrs NDIRECT) : i = j := by
  have haddr : ∀ l, (D l).type ≠ .free → placeAddr D B (l, NDIRECT) = (D l).addrs NDIRECT := by
    intro l hl
    rw [placeAddr_of_alloc hl (by decide),addrAt,if_pos (by decide)]
  have := h.inj (i, NDIRECT) (j, NDIRECT) (by rw [haddr i hi]; exact h0)
    (by rw [haddr i hi,haddr j hj,hij])
  exact (Prod.mk.inj this).1

theorem placeAddr_setAddr (h : Owns sb D B bm) (hb : bm b = false) (hi : (D i).type ≠ .free)
    (hk : k ≤ NDIRECT) (h0 : (D i).addrs k = 0) (p : ℕ × ℕ) :
    placeAddr (update D i { D i with addrs := update (D i).addrs k b })
      (update B b Block.zero) p = if p = (i, k) then b else placeAddr D B p := by
  obtain ⟨j,l⟩ := p
  by_cases hj : j = i
  · subst hj
    by_cases hl : l < NPLACE
    · rw [placeAddr_of_alloc (by simpa using hi) hl,placeAddr_of_alloc hi hl]
      simp only [update_self,Prod.mk.injEq,true_and,addrAt]
      by_cases hlk : l = k
      · subst hlk
        rw [if_pos rfl,if_pos hk,update_self]
      rw [if_neg hlk]
      split
      · rw [update_of_ne hlk]
      by_cases hk12 : k = NDIRECT
      · -- the new indirect block is all zero
        subst hk12
        simp only [update_self,Block.word_zero,h0,if_true]
        split <;> rfl
      · rw [update_of_ne (Ne.symm hk12)]
        split
        · rfl
        · rw [update_of_ne (h.indirect_ne hb hi)]
    · have hne : (j, l) ≠ (j, k) := by
        intro e
        have := (Prod.mk.inj e).2
        have := layout
        omega
      rw [if_neg hne,placeAddr,placeAddr,if_neg (by simp [hl]),if_neg (by simp [hl])]
  · have hne : (j, l) ≠ (i, k) := fun e => hj (Prod.mk.inj e).1
    rw [if_neg hne,placeAddr,placeAddr]
    simp only [update_of_ne hj]
    split
    · next hal =>
      exact addrAt_congr (.inr (.inr (update_of_ne (h.indirect_ne hb hal.1) _ _)))
    · rfl

theorem placeAddr_setWord (h : Owns sb D B bm) (hb : bm b = false) (hbs : b < 2 ^ 32)
    (hi : (D i).type ≠ .free) (hk : k < NINDIRECT) (h0 : (D i).addrs NDIRECT ≠ 0) (p : ℕ × ℕ) :
    placeAddr D (update (update B b Block.zero) ((D i).addrs NDIRECT)
      ((B ((D i).addrs NDIRECT)).setWord k b)) p =
      if p = (i, NDIRECT + 1 + k) then b else placeAddr D B p := by
  obtain ⟨j,l⟩ := p
  by_cases hal : (D j).type ≠ .free ∧ l < NPLACE
  · rw [placeAddr_of_alloc hal.1 hal.2,placeAddr_of_alloc hal.1 hal.2]
    have hNP : NPLACE = NDIRECT + 1 + NINDIRECT := rfl
    by_cases hj : j = i
    · subst hj
      simp only [addrAt,Prod.mk.injEq,true_and,h0,if_false,update_self]
      by_cases hl : l ≤ NDIRECT
      · rw [if_pos hl,if_pos hl,if_neg (by omega)]
      rw [if_neg hl,if_neg hl]
      have hwords : 4 * (l - (NDIRECT+1)) + 4 ≤ BSIZE := by
        have := layout
        omega
      by_cases hlk : l = NDIRECT + 1 + k
      · subst hlk
        rw [if_pos rfl,Nat.add_sub_cancel_left]
        rw [Nat.add_sub_cancel_left] at hwords
        exact Block.word_setWord_self _ hwords hbs
      · rw [if_neg hlk]
        exact Block.word_setWord_of_ne _ hwords (by omega)
    · rw [if_neg fun e => hj (Prod.mk.inj e).1]
      refine addrAt_congr (.inr ?_)
      by_cases hz : (D j).addrs NDIRECT = 0
      · exact .inl hz
      · refine .inr ?_
        have hne : (D j).addrs NDIRECT ≠ (D i).addrs NDIRECT := fun e =>
          hj (h.indirect_inj hal.1 hi hz e)
        rw [update_of_ne hne,update_of_ne (h.indirect_ne hb hal.1)]
  · have hne : (j, l) ≠ (i, NDIRECT + 1 + k) := by
      intro e
      obtain ⟨rfl,rfl⟩ := Prod.mk.inj e
      have := layout
      exact hal ⟨hi,by omega⟩
    rw [if_neg hne,placeAddr,placeAddr,if_neg hal,if_neg hal]

theorem placeAddr_self (hal : (s.inode c).din.type ≠ .free) (hk : k < NPLACE) :
    placeAddr (table s c) s.block ((s.inode c).inum, k) = addrAt (s.inode c).din s.block k := by
  rw [placeAddr_of_alloc (by rw [table_self]; exact hal) hk,table_self]

theorem Extends.of_claim (h : Owns sb (table s c) s.block s.bitmap) (hb : s.bitmap b = false)
    {p : ℕ × ℕ} (hp : p.1 = (s.inode c).inum) (h0 : placeAddr (table s c) s.block p = 0)
    (hdinode : t.dinode = s.dinode) (hinput : t.input = s.input)
    (hne : ∀ c', c' ≠ c → t.inode c' = s.inode c')
    (hself : ∃ a, t.inode c = { s.inode c with din := { (s.inode c).din with addrs := a } })
    (hplace : ∀ q, placeAddr (table t c) t.block q =
      if q = p then b else placeAddr (table s c) s.block q)
    (hblock : ∀ q, q.2 ≠ NDIRECT → placeAddr (table s c) s.block q ≠ 0 →
      placeAddr (table s c) s.block q ≠ b →
      t.block (placeAddr (table s c) s.block q) = s.block (placeAddr (table s c) s.block q)) :
    Extends c s t := by
  refine ⟨⟨hdinode,hinput,hne,hself,fun q hq => ?_,fun q hq => ?_⟩,fun q hk hq => ?_⟩
  · rw [hplace,if_neg]
    rintro rfl
    exact hq h0
  · rw [hplace,if_neg]
    rintro rfl
    exact hq hp
  · exact hblock q hk hq ((h.fresh sb.dataStart_pos hb).2 q)

theorem Fills.of_claim (hext : Extends c s t) (hal : (s.inode c).din.type ≠ .free)
    (hb : b < sb.size) (hfree : s.bitmap b = false) (hb0 : b ≠ 0)
    (hbm : t.bitmap = update s.bitmap b true) (hk : k < NPLACE)
    (h0 : placeAddr (table s c) s.block ((s.inode c).inum, k) = 0)
    (hplace : ∀ q, placeAddr (table t c) t.block q =
      if q = ((s.inode c).inum, k) then b else placeAddr (table s c) s.block q) :
    Fills sb {k} s t (s.inode c).din (t.inode c).din := by
  rw [placeAddr_self hal hk] at h0
  refine ⟨?_,?_,fun l hl => ?_⟩
  · intro l hl
    rwa [Finset.mem_singleton.mp hl]
  · rw [holes_singleton,if_pos h0]
    exact freeBlocks_claim hb hfree hbm
  · have hl' := hplace ((s.inode c).inum, l)
    rw [← hext.inum,placeAddr_self (by rw [hext.type]; exact hal) hl,hext.inum,
      placeAddr_self hal hl] at hl'
    rw [hl',Finset.mem_singleton]
    by_cases hlk : l = k
    · simp [hlk,hb0]
    · simp [hlk]

theorem wp_bmapAddr (hE : freeBlocks sb s < holes (s.inode c).din s.block {k} →
      E (.panic "balloc: out of blocks"))
    (h : Owns sb (table s c) s.block s.bitmap) (hal : (s.inode c).din.type ≠ .free)
    (hk : k ≤ NDIRECT) :
    wp E (bmapAddr sb c k) s fun b t => Extends c s t ∧ Owns sb (table t c) t.block t.bitmap ∧
      b ≠ 0 ∧ (t.inode c).din.addrs k = b ∧ ((s.inode c).din.addrs k ≠ 0 → t = s) ∧
      Fills sb {k} s t (s.inode c).din (t.inode c).din := by
  have hlt : k < NPLACE := by
    have := layout
    omega
  have haddr : addrAt (s.inode c).din s.block k = (s.inode c).din.addrs k := by
    rw [addrAt,if_pos hk]
  rw [bmapAddr,wp_bind,wp_read]
  refine wp_ite (fun h0 => ?_) fun h0 => ?_
  · rw [wp_bind]
    refine wp_balloc (fun hnone => hE ?_) fun b hbs hb => ?_
    · rw [holes_singleton,haddr,if_pos h0]
      omega
    have hle := (h.fresh sb.dataStart_pos hb).1
    have hb0 : b ≠ 0 := by
      have := sb.dataStart_pos
      omega
    have hali : (table s c (s.inode c).inum).type ≠ .free := by rw [table_self]; exact hal
    have hplace := placeAddr_setAddr h hb hali hk (by rw [table_self]; exact h0)
    have hzero : placeAddr (table s c) s.block ((s.inode c).inum, k) = 0 := by
      rw [placeAddr_self hal hlt,haddr,h0]
    simp only [setDin,setInode,wp_bind,wp_modify,wp_pure]
    set t : State := { s with
      bitmap := update s.bitmap b true
      block := update s.block b Block.zero
      inode := update s.inode c { s.inode c with
        din := { (s.inode c).din with
          addrs := update (s.inode c).din.addrs k b } } } with ht
    have htab : table t c = update (table s c) (s.inode c).inum
        { table s c (s.inode c).inum with
          addrs := update (table s c (s.inode c).inum).addrs k b } := by
      rw [table_self]
      simp [table,ht]
    have hplace' : ∀ q, placeAddr (table t c) t.block q =
        if q = ((s.inode c).inum, k) then b else placeAddr (table s c) s.block q := by
      intro q
      rw [htab,← hplace q]
    have hext : Extends c s t := Extends.of_claim h hb rfl hzero rfl rfl
      (fun c' hc => update_of_ne hc _ _) ⟨update (s.inode c).din.addrs k b,by simp [ht]⟩ hplace'
      fun q _ _ hqb => update_of_ne hqb _ _
    refine ⟨hext,?_,hb0,?_,?_,.of_claim hext hal hbs hb hb0 rfl hlt hzero hplace'⟩
    · refine Exact.claim h sb.dataStart_pos hb hbs hzero ?_ fun q hq => ?_
      · rw [hplace',if_pos rfl]
      · rw [hplace',if_neg hq]
    · simp
    · exact fun hne => absurd h0 hne
  · exact ⟨Extends.refl c s,h,h0,rfl,fun _ => rfl,.of_ne hlt (by rw [haddr]; exact h0)⟩

theorem wp_bmapEntry (hE : freeBlocks sb s < holes (s.inode c).din s.block {NDIRECT + 1 + j} →
      E (.panic "balloc: out of blocks"))
    (h : Owns sb (table s c) s.block s.bitmap) (hal : (s.inode c).din.type ≠ .free)
    (h0 : (s.inode c).din.addrs NDIRECT ≠ 0) (hj : j < NINDIRECT) :
    wp E (bmapEntry sb ((s.inode c).din.addrs NDIRECT) j) s fun b t => Extends c s t ∧
      Owns sb (table t c) t.block t.bitmap ∧ b ≠ 0 ∧
      addrAt (t.inode c).din t.block (NDIRECT + 1 + j) = b ∧
      (addrAt (s.inode c).din s.block (NDIRECT + 1 + j) ≠ 0 → t = s) ∧
      Fills sb {NDIRECT + 1 + j} s t (s.inode c).din (t.inode c).din := by
  have hword : addrAt (s.inode c).din s.block (NDIRECT + 1 + j) =
      (s.block ((s.inode c).din.addrs NDIRECT)).word j := by
    rw [addrAt,if_neg (by omega),if_neg h0,Nat.add_sub_cancel_left]
  have hlt : NDIRECT + 1 + j < NPLACE := by
    have := layout
    omega
  rw [bmapEntry,wp_bind,wp_read]
  refine wp_ite (fun hw => ?_) fun hw => ?_
  · rw [wp_bind]
    refine wp_balloc (fun hnone => hE ?_) fun b hbs hb => ?_
    · rw [holes_singleton,hword,if_pos hw]
      omega
    have hle := (h.fresh sb.dataStart_pos hb).1
    have hb0 : b ≠ 0 := by
      have := sb.dataStart_pos
      omega
    have hali : (table s c (s.inode c).inum).type ≠ .free := by rw [table_self]; exact hal
    have hne : (s.inode c).din.addrs NDIRECT ≠ b := by
      have := h.indirect_ne hb hali
      rwa [table_self] at this
    have hplace := placeAddr_setWord h hb (hbs.trans sb.size_lt) hali hj
      (by rw [table_self]; exact h0)
    rw [table_self] at hplace
    have hzero : placeAddr (table s c) s.block ((s.inode c).inum, NDIRECT + 1 + j) = 0 := by
      rw [placeAddr_self hal hlt,hword,hw]
    simp only [wp_bind,wp_modify,wp_pure,update_of_ne hne]
    set t : State := { s with
      bitmap := update s.bitmap b true
      block := update (update s.block b Block.zero) ((s.inode c).din.addrs NDIRECT)
        ((s.block ((s.inode c).din.addrs NDIRECT)).setWord j b) }
    have hext : Extends c s t := by
      refine Extends.of_claim h hb rfl hzero rfl rfl (fun _ _ => rfl) ⟨_,rfl⟩ hplace ?_
      intro q hk hq hqb
      -- a data block is not the indirect block: that stands at its own place
      have hqa : placeAddr (table s c) s.block q ≠ (s.inode c).din.addrs NDIRECT := by
        intro e
        have hself : placeAddr (table s c) s.block ((s.inode c).inum, NDIRECT) =
            (s.inode c).din.addrs NDIRECT := by
          rw [placeAddr_self hal (by decide),addrAt,if_pos (by decide)]
        exact hk (congrArg Prod.snd (h.inj q _ hq (e.trans hself.symm)))
      simp only [t,update_of_ne hqa,update_of_ne hqb]
    refine ⟨hext,?_,hb0,?_,?_,.of_claim hext hal hbs hb hb0 rfl hlt hzero hplace⟩
    · refine Exact.claim h sb.dataStart_pos hb hbs hzero ?_ fun q hq => ?_
      · exact (hplace _).trans (if_pos rfl)
      · exact (hplace _).trans (if_neg hq)
    · have hself := hplace ((s.inode c).inum, NDIRECT + 1 + j)
      rw [if_pos rfl,placeAddr_of_alloc hali hlt,table_self] at hself
      exact hself
    · exact fun hn => absurd (hword.trans hw) hn
  · exact ⟨Extends.refl c s,h,hw,hword,fun _ => rfl,.of_ne hlt (by rw [hword]; exact hw)⟩

theorem wp_bmap (hE : freeBlocks sb s < holes (s.inode c).din s.block (placesFor n) →
      E (.panic "balloc: out of blocks"))
    (h : Owns sb (table s c) s.block s.bitmap) (hal : (s.inode c).din.type ≠ .free)
    (hn : n < MAXFILE) :
    wp E (bmap sb c n) s fun b t => Extends c s t ∧ Owns sb (table t c) t.block t.bitmap ∧
      b ≠ 0 ∧ addrAt (t.inode c).din t.block (dataPlace n) = b ∧
      (addrAt (s.inode c).din s.block (dataPlace n) ≠ 0 → t = s) ∧
      Fills sb (placesFor n) s t (s.inode c).din (t.inode c).din := by
  rw [bmap]
  refine wp_ite (fun hdir => ?_) fun hind => ?_
  · have hplace : dataPlace n = n := if_pos hdir
    have hone : placesFor n = {n} := if_pos hdir
    rw [hone] at hE ⊢
    refine (wp_bmapAddr hE h hal (Nat.le_of_lt hdir)).mono ?_
    rintro b t ⟨hext,hown,hb,haddr,hsame,hfills⟩
    refine ⟨hext,hown,hb,?_,fun hne => hsame ?_,hfills⟩
    · rw [hplace,addrAt,if_pos (Nat.le_of_lt hdir),haddr]
    · rwa [hplace,addrAt,if_pos (Nat.le_of_lt hdir)] at hne
  have hj : n - NDIRECT < NINDIRECT := by
    have := layout
    omega
  have hplace : dataPlace n = NDIRECT + 1 + (n - NDIRECT) := by
    rw [dataPlace,if_neg hind]
    omega
  have htwo : placesFor n = {NDIRECT} ∪ {NDIRECT + 1 + (n - NDIRECT)} := by
    rw [← hplace,placesFor,dataPlace,if_neg hind,if_neg hind]
    rfl
  rw [htwo] at hE ⊢
  rw [if_pos hj]
  refine (wp_bmapAddr (fun hlt => hE ?_) h hal le_rfl).bind ?_
  · exact hlt.trans_le (holes_mono Finset.subset_union_left)
  rintro a t ⟨hext,hown,ha,rfl,hsame,hfills⟩
  refine (wp_bmapEntry (fun hlt => hE (hfills.lt ?_ hlt)) hown (by rw [hext.type]; exact hal) ha
    hj).mono ?_
  · intro k hk
    rw [Finset.mem_singleton.mp hk,← hplace]
    exact dataPlace_lt hn
  rintro b u ⟨hext',hown',hb,haddr,hsame',hfills'⟩
  refine ⟨hext.trans hext',hown',hb,by rw [hplace]; exact haddr,fun hne => ?_,
    hfills.trans hfills'⟩
  rw [hplace] at hne
  have hts : t = s := by
    apply hsame
    intro h0
    apply hne
    rw [addrAt,if_neg (by omega),if_pos h0]
  subst hts
  exact hsame' hne

end Xv6Container.Fs
