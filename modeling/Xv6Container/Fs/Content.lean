import Xv6Container.Fs.Ownership

/-!
# Files are byte arrays

What an inode is for its users, a `Node`: type, link count, size and bytes. On a
well-formed file system `readi` and `writei` read and write the bytes of one node
and leave all others alone.
-/

namespace Xv6Container.Fs

open Function Prog FreeMap List

variable {sb : Superblock} {s t u : State} {c : ISlot} {D : ℕ → Dinode}
  {B : ℕ → Block BSIZE} {bm : ℕ → Bool} {b i j k n o off : ℕ} {d : Dinode}
  {src src' : List UInt8} {E : Stop → Prop}

def byteAt (d : Dinode) (B : ℕ → Block BSIZE) (o : ℕ) : UInt8 :=
  (B (addrAt d B (dataPlace (o / BSIZE)))).get (o % BSIZE)

/-- What an inode is for its users. Past `size` the bytes count as zero. -/
structure Node where
  type : FType
  major : Int16
  minor : Int16
  nlink : Int16
  size : ℕ
  data : ℕ → UInt8

def Node.none : Node := ⟨.free, 0, 0, 0, 0, fun _ => 0⟩

def nodeOf (d : Dinode) (B : ℕ → Block BSIZE) : Node :=
  if d.type = .free then Node.none
  else ⟨d.type, d.major, d.minor, d.nlink, d.size,
    fun o => if o < d.size then byteAt d B o else 0⟩

def node (s : State) (i : ℕ) : Node := nodeOf (s.dinode i) s.block

/-- Bytes `off .. off + n - 1`. -/
def Node.bytes (x : Node) (off n : ℕ) : List UInt8 :=
  (List.range n).map fun k => x.data (off + k)

/-- Bytes `off .. off + |src| - 1` are replaced by `src`. -/
def Node.write (x : Node) (off : ℕ) (src : List UInt8) : Node :=
  { x with
    size := max x.size (off + src.length)
    data := fun o =>
      if off ≤ o ∧ o < off + src.length then src.getD (o - off) 0 else x.data o }

/-- The inode is not too large, and the blocks below its size are there. -/
structure InodeOk (d : Dinode) (B : ℕ → Block BSIZE) : Prop where
  size_le : d.size ≤ MAXFILE * BSIZE
  dense : ∀ n, n * BSIZE < d.size → addrAt d B (dataPlace n) ≠ 0

structure DiskOk (sb : Superblock) (D : ℕ → Dinode) (B : ℕ → Block BSIZE) (bm : ℕ → Bool) :
    Prop where
  owns : Owns sb D B bm
  inode_ok : ∀ i, (D i).type ≠ .free → InodeOk (D i) B
  beyond : ∀ i, sb.ninodes ≤ i → (D i).type = .free

structure Wf (sb : Superblock) (s : State) : Prop where
  disk : DiskOk sb s.dinode s.block s.bitmap
  /-- an inode is in one slot -/
  uniq : ∀ c c', 0 < (s.inode c).ref → 0 < (s.inode c').ref →
    (s.inode c).inum = (s.inode c').inum → c = c'
  /-- the cache is written through -/
  flushed : ∀ c, 0 < (s.inode c).ref → (s.inode c).valid = true →
    (s.inode c).din = s.dinode (s.inode c).inum
  valid_type : ∀ c, 0 < (s.inode c).ref → (s.inode c).valid = true →
    (s.inode c).din.type ≠ .free
  /-- an empty slot is not locked -/
  idle : ∀ c, (s.inode c).ref = 0 → (s.inode c).locked = false

/-- The slot holds inode `i`. -/
structure At (s : State) (c : ISlot) (i : ℕ) : Prop where
  ref_pos : 0 < (s.inode c).ref
  inum : (s.inode c).inum = i

theorem table_of_flushed (h : (s.inode c).din = s.dinode (s.inode c).inum) :
    table s c = s.dinode := by
  rw [table,h,update_eq_self]

theorem block_lt_maxfile (hd : InodeOk d B) (ho : o < d.size) : o / BSIZE < MAXFILE :=
  Nat.div_lt_of_lt_mul (by rw [Nat.mul_comm]; exact lt_of_lt_of_le ho hd.size_le)

theorem InodeOk.place_ne_zero (hd : InodeOk d B) (ho : o < d.size) :
    addrAt d B (dataPlace (o / BSIZE)) ≠ 0 := by
  apply hd.dense
  have := Nat.div_mul_le_self o BSIZE
  omega

theorem placeAddr_alloc (hfree : (D i).type = .free) (hd : d.addrs = fun _ => 0) :
    placeAddr (update D i d) B = placeAddr D B := by
  funext p
  by_cases hp : p.1 = i
  · have hzero : addrAt d B p.2 = 0 := by simp [addrAt,hd]
    simp [placeAddr,hp,hfree,hzero]
  · simp only [placeAddr,update_of_ne hp]

theorem DiskOk.alloc (h : DiskOk sb D B bm) (hi : i < sb.ninodes) (hfree : (D i).type = .free)
    (hd : d.addrs = fun _ => 0) (hsize : d.size = 0) : DiskOk sb (update D i d) B bm := by
  refine ⟨?_,fun j hj => ?_,fun j hj => ?_⟩
  · rw [Owns,placeAddr_alloc hfree hd]
    exact h.owns
  · by_cases hji : j = i
    · subst hji
      rw [update_self]
      exact ⟨by rw [hsize]; exact Nat.zero_le _,fun n hn => absurd hn (by rw [hsize]; omega)⟩
    · rw [update_of_ne hji] at hj ⊢
      exact h.inode_ok j hj
  · rw [update_of_ne (by omega)]
    exact h.beyond j hj

theorem wp_bmap_found {Q : ℕ → State → Prop} (hn : n < MAXFILE)
    (h0 : addrAt (s.inode c).din s.block (dataPlace n) ≠ 0)
    (hQ : Q (addrAt (s.inode c).din s.block (dataPlace n)) s) : wp E (bmap sb c n) s Q := by
  rw [bmap]
  refine wp_ite (fun hdir => ?_) fun hdir => ?_
  · have hplace : addrAt (s.inode c).din s.block (dataPlace n) = (s.inode c).din.addrs n := by
      rw [dataPlace,if_pos hdir,addrAt,if_pos (Nat.le_of_lt hdir)]
    rw [hplace] at h0 hQ
    rw [bmapAddr,wp_bind,wp_read,if_neg h0]
    exact hQ
  have hj : n - NDIRECT < NINDIRECT := by
    have := layout
    omega
  have hind : (s.inode c).din.addrs NDIRECT ≠ 0 := by
    intro hz
    apply h0
    rw [dataPlace,if_neg hdir,addrAt,if_neg (by omega),if_pos hz]
  have hplace : addrAt (s.inode c).din s.block (dataPlace n) =
      (s.block ((s.inode c).din.addrs NDIRECT)).word (n-NDIRECT) := by
    rw [dataPlace,if_neg hdir,addrAt,if_neg (by omega),if_neg hind,Nat.add_sub_add_right]
  rw [hplace] at h0 hQ
  rw [if_pos hj,wp_bind,bmapAddr,wp_bind,wp_read,if_neg hind,wp_pure,bmapEntry,wp_bind,
    wp_read,if_neg h0]
  exact hQ

theorem div_mod_add (h : off % BSIZE+k < BSIZE) :
    (off+k) / BSIZE = off / BSIZE ∧ (off+k) % BSIZE = off % BSIZE+k := by
  change off % 512+k < 512 at h
  change (off+k) / 512 = off / 512 ∧ (off+k) % 512 = off % 512+k
  omega

theorem bytes_add (f : ℕ → UInt8) (m r : ℕ) :
    (List.range (m+r)).map f = (List.range m).map f ++ (List.range r).map fun k => f (m+k) := by
  rw [range_add,map_append,map_map]
  rfl

theorem wp_readiLoop (hd : InodeOk (s.inode c).din s.block) (fuel : ℕ)
    (hfuel : n ≤ fuel) (hsize : off + n ≤ (s.inode c).din.size) :
    wp E (readiLoop sb c fuel off n) s fun bs t =>
      t = s ∧ bs = (List.range n).map fun k => byteAt (s.inode c).din s.block (off+k) := by
  induction fuel generalizing off n with
  | zero =>
    obtain rfl : n = 0 := by omega
    exact ⟨rfl,rfl⟩
  | succ fuel ih =>
    rw [readiLoop]
    refine wp_ite (fun h0 => ?_) fun h0 => ?_
    · subst h0
      exact ⟨rfl,rfl⟩
    have hoff : off < (s.inode c).din.size := by omega
    have hB : 0 < BSIZE := by decide
    have hmod := Nat.mod_lt off hB
    rw [wp_bind]
    refine wp_bmap_found (block_lt_maxfile hd hoff) (hd.place_ne_zero hoff) ?_
    simp only [wp_bind,wp_read]
    set m := min n (BSIZE - off % BSIZE) with hm
    have hrest : wp E (readiLoop sb c fuel (off+m) (n-m)) s _ := ih (by omega) (by omega)
    refine hrest.mono ?_
    rintro rest t ⟨rfl,rfl⟩
    refine ⟨rfl,?_⟩
    have hnm : n = m + (n-m) := by omega
    rw [hnm,bytes_add (fun k => byteAt (t.inode c).din t.block (off+k))]
    simp only [← hnm,← Nat.add_assoc]
    congr 1
    apply map_congr_left
    intro k hk
    have hk := List.mem_range.mp hk
    obtain ⟨h1,h2⟩ := div_mod_add (show off % BSIZE+k < BSIZE by omega)
    rw [byteAt,h1,h2]

theorem node_of_alloc (h : (s.dinode i).type ≠ .free) : node s i =
    ⟨(s.dinode i).type, (s.dinode i).major, (s.dinode i).minor, (s.dinode i).nlink,
      (s.dinode i).size,
      fun o => if o < (s.dinode i).size then byteAt (s.dinode i) s.block o else 0⟩ := if_neg h

theorem node_type : (node s i).type = (s.dinode i).type := by
  rw [node,nodeOf]
  split
  · next h => rw [h]; rfl
  · rfl

theorem Wf.din (h : Wf sb s) (hc : At s c i) (hv : (s.inode c).valid = true) :
    (s.inode c).din = s.dinode i := by
  rw [h.flushed c hc.ref_pos hv,hc.inum]

theorem Wf.alloc (h : Wf sb s) (hc : At s c i) (hv : (s.inode c).valid = true) :
    (s.dinode i).type ≠ .free := by
  rw [← h.din hc hv]
  exact h.valid_type c hc.ref_pos hv

theorem wp_readi_din (hd : InodeOk (s.inode c).din s.block)
    (hdev : (s.inode c).din.type ≠ .dev) (hoff : off < 2 ^ 32) (hn : n < 2 ^ 32) :
    wp E (readi sb c off n) s fun r t => t = s ∧
      r = if (s.inode c).din.size < off ∨ 2 ^ 32 ≤ off + n then none
        else some ((List.range (min n ((s.inode c).din.size - off))).map fun k =>
          byteAt (s.inode c).din s.block (off+k)) := by
  rw [readi,wp_bind,wp_read,if_neg hdev]
  have hwrap : (off+n) % 2 ^ 32 < off ↔ 2 ^ 32 ≤ off+n := by omega
  refine wp_ite (fun hbad => ?_) fun hgood => ?_
  · rw [hwrap] at hbad
    exact ⟨rfl,by rw [if_pos hbad]⟩
  rw [hwrap] at hgood
  have hmod : (off+n) % 2 ^ 32 = off+n := Nat.mod_eq_of_lt (by omega)
  have hcount : (if (off+n) % 2 ^ 32 > (s.inode c).din.size then (s.inode c).din.size - off
      else n) = min n ((s.inode c).din.size - off) := by
    rw [hmod]
    split <;> omega
  rw [hcount,if_neg hgood,wp_bind]
  refine (wp_readiLoop hd _ le_rfl (by omega)).mono ?_
  rintro bs t ⟨rfl,rfl⟩
  exact ⟨rfl,rfl⟩

theorem wp_readi (h : Wf sb s) (hc : At s c i)
    (hv : (s.inode c).valid = true) (hdev : (node s i).type ≠ .dev) (hoff : off < 2 ^ 32)
    (hn : n < 2 ^ 32) :
    wp E (readi sb c off n) s fun r t => t = s ∧
      r = if (node s i).size < off ∨ 2 ^ 32 ≤ off + n then none
        else some ((node s i).bytes off (min n ((node s i).size - off))) := by
  have hal := h.alloc hc hv
  have hdin := h.din hc hv
  have hsize : (node s i).size = (s.inode c).din.size := by rw [hdin,node_of_alloc hal]
  rw [node_type,← hdin] at hdev
  refine (wp_readi_din (by rw [hdin]; exact h.disk.inode_ok i hal) hdev hoff hn).mono ?_
  rintro r t ⟨rfl,rfl⟩
  refine ⟨rfl,?_⟩
  rw [hsize]
  refine if_congr Iff.rfl rfl (congrArg some (map_congr_left fun k hk => ?_))
  have hk := List.mem_range.mp hk
  have hlt : off + k < (t.dinode i).size := by
    rw [← hdin]
    omega
  simp only [node_of_alloc hal,if_pos hlt,hdin]

/-- The bytes `src` have been stored at `off` through slot `c`. `same` says that no block was added
if all were there. -/
structure Writes (c : ISlot) (off : ℕ) (src : List UInt8) (s t : State) : Prop
    extends Keeps c s t where
  other : ∀ p, p.1 ≠ (s.inode c).inum → p.2 ≠ NDIRECT → placeAddr (table s c) s.block p ≠ 0 →
    t.block (placeAddr (table s c) s.block p) = s.block (placeAddr (table s c) s.block p)
  mapped : ∀ o, off ≤ o → o < off + src.length →
    addrAt (t.inode c).din t.block (dataPlace (o / BSIZE)) ≠ 0
  byte_in : ∀ o, off ≤ o → o < off + src.length →
    byteAt (t.inode c).din t.block o = src.getD (o - off) 0
  byte_out : ∀ o, o / BSIZE < MAXFILE → (o < off ∨ off + src.length ≤ o) →
    addrAt (s.inode c).din s.block (dataPlace (o / BSIZE)) ≠ 0 →
    byteAt (t.inode c).din t.block o = byteAt (s.inode c).din s.block o
  same : (∀ o, off ≤ o → o < off + src.length →
    addrAt (s.inode c).din s.block (dataPlace (o / BSIZE)) ≠ 0) → t.inode c = s.inode c

theorem Keeps.addrAt_eq (h : Keeps c s t) (hal : (s.inode c).din.type ≠ .free) (hk : k < NPLACE)
    (h0 : addrAt (s.inode c).din s.block k ≠ 0) :
    addrAt (t.inode c).din t.block k = addrAt (s.inode c).din s.block k := by
  rw [← placeAddr_self hal hk] at h0 ⊢
  rw [← placeAddr_self (by rw [h.type]; exact hal) hk,h.inum]
  exact h.addr _ h0

theorem Writes.nil (c : ISlot) (off : ℕ) (s : State) : Writes c off [] s s where
  toKeeps := Keeps.refl c s
  other := fun _ _ _ _ => rfl
  mapped := fun o h1 h2 => absurd h2 (by simpa using h1)
  byte_in := fun o h1 h2 => absurd h2 (by simpa using h1)
  byte_out := fun _ _ _ _ => rfl
  same := fun _ => rfl

theorem Writes.trans (hal : (s.inode c).din.type ≠ .free)
    (hmax : off + src.length + src'.length ≤ MAXFILE*BSIZE) (h : Writes c off src s t)
    (h' : Writes c (off+src.length) src' t u) : Writes c off (src ++ src') s u := by
  have halt : (t.inode c).din.type ≠ .free := by rw [h.type]; exact hal
  have hlen : off + (src ++ src').length = off + src.length + src'.length := by
    rw [length_append]
    omega
  have hblk : ∀ o, o < off + src.length + src'.length → o / BSIZE < MAXFILE := fun o ho =>
    Nat.div_lt_of_lt_mul (by rw [Nat.mul_comm]; omega)
  refine ⟨h.toKeeps.trans h'.toKeeps,fun p hp hk h0 => ?_,fun o h1 h2 => ?_,fun o h1 h2 => ?_,
    fun o hb hout h0 => ?_,fun hall => ?_⟩
  · have haddr := h.addr p h0
    have hstep := h'.other p (by rw [h.inum]; exact hp) hk (by rw [haddr]; exact h0)
    rw [haddr] at hstep
    rw [hstep,h.other p hp hk h0]
  · by_cases ho : o < off+src.length
    · have hm := h.mapped o h1 ho
      rw [h'.addrAt_eq halt (dataPlace_lt (hblk o (by omega))) hm]
      exact hm
    · exact h'.mapped o (by omega) (by omega)
  · by_cases ho : o < off+src.length
    · rw [h'.byte_out o (hblk o (by omega)) (.inl ho) (h.mapped o h1 ho),h.byte_in o h1 ho,
        getD_append _ _ _ _ (by omega)]
    · rw [h'.byte_in o (by omega) (by omega),getD_append_right _ _ _ _ (by omega)]
      congr 1
      omega
  · have ht : addrAt (t.inode c).din t.block (dataPlace (o / BSIZE)) ≠ 0 := by
      rw [h.addrAt_eq hal (dataPlace_lt hb) h0]
      exact h0
    rw [h'.byte_out o hb (by omega) ht,h.byte_out o hb (by omega) h0]
  · have hst : t.inode c = s.inode c := h.same fun o h1 h2 => hall o h1 (by omega)
    rw [← hst]
    apply h'.same
    intro o h1 h2
    have h0 := hall o (by omega) (by omega)
    rw [h.addrAt_eq hal (dataPlace_lt (hblk o (by omega))) h0]
    exact h0

theorem placeAddr_store (h : Owns sb D B bm) (hi : (D i).type ≠ .free) (hn : n < MAXFILE)
    (h0 : addrAt (D i) B (dataPlace n) ≠ 0) (blk : Block BSIZE) :
    placeAddr D (update B (addrAt (D i) B (dataPlace n)) blk) = placeAddr D B := by
  funext ⟨j,k⟩
  simp only [placeAddr]
  split
  · next hal =>
    refine addrAt_congr (.inr (.inr (update_of_ne ?_ _ _)))
    intro e
    have hj : placeAddr D B (j, NDIRECT) = (D j).addrs NDIRECT := by
      rw [placeAddr_of_alloc hal.1 (by decide),addrAt,if_pos (by decide)]
    have hp := placeAddr_of_alloc (B := B) hi (dataPlace_lt hn)
    have := h.inj (i, dataPlace n) (j, NDIRECT) (by rw [hp]; exact h0) (by rw [hp,hj,e])
    exact dataPlace_ne n (Prod.mk.inj this).2
  · rfl

theorem mod_of_div_eq (hdiv : o / BSIZE = off / BSIZE) :
    (off ≤ o → o % BSIZE = off % BSIZE + (o-off)) ∧ (o < off → o % BSIZE < off % BSIZE) := by
  change o / 512 = off / 512 at hdiv
  change (off ≤ o → o % 512 = off % 512 + (o-off)) ∧ (o < off → o % 512 < off % 512)
  omega

theorem Writes.of_store (hext : Extends c s t) (hown : Owns sb (table t c) t.block t.bitmap)
    (hal : (s.inode c).din.type ≠ .free) (hoff : off / BSIZE < MAXFILE)
    (hb : addrAt (t.inode c).din t.block (dataPlace (off / BSIZE)) = b) (hb0 : b ≠ 0)
    (hsame : addrAt (s.inode c).din s.block (dataPlace (off / BSIZE)) ≠ 0 → t = s)
    (src : List UInt8) (hlen : src.length ≤ BSIZE - off % BSIZE) (hpos : 0 < src.length)
    (hu : u = { t with block := update t.block b ((t.block b).patch (off % BSIZE) src) }) :
    Writes c off src s u ∧ Owns sb (table u c) u.block u.bitmap ∧
      ∀ k, k < NPLACE →
        addrAt (u.inode c).din u.block k = addrAt (t.inode c).din t.block k := by
  have halt : (t.inode c).din.type ≠ .free := by rw [hext.type]; exact hal
  have htab : table u c = table t c := by rw [hu]; rfl
  have hplace : placeAddr (table u c) u.block = placeAddr (table t c) t.block := by
    have := placeAddr_store hown (i := (t.inode c).inum) (by rw [table_self]; exact halt) hoff
      (by rw [table_self,hb]; exact hb0) ((t.block b).patch (off % BSIZE) src)
    rw [table_self,hb] at this
    rw [htab,hu]
    exact this
  have hselfu : ∀ k, k < NPLACE →
      addrAt (u.inode c).din u.block k = addrAt (t.inode c).din t.block k := by
    intro k hk
    have hiu : u.inode c = t.inode c := by rw [hu]
    rw [← placeAddr_self (s := u) (by rw [hiu]; exact halt) hk,hplace,hiu,placeAddr_self halt hk]
  have hselfb : placeAddr (table t c) t.block ((t.inode c).inum, dataPlace (off / BSIZE)) = b := by
    rw [placeAddr_self halt (dataPlace_lt hoff),hb]
  -- another place has another block, which the store does not touch
  have hkeep : ∀ p, p ≠ ((s.inode c).inum, dataPlace (off / BSIZE)) → p.2 ≠ NDIRECT →
      placeAddr (table s c) s.block p ≠ 0 →
      u.block (placeAddr (table s c) s.block p) = s.block (placeAddr (table s c) s.block p) := by
    intro p hp hk h0
    have hne : placeAddr (table s c) s.block p ≠ b := by
      intro e
      rw [← hext.addr p h0,← hselfb] at e
      have := hown.inj p _ (by rw [hext.addr p h0]; exact h0) e
      rw [hext.inum] at this
      exact hp this
    rw [hu]
    simp only [update_of_ne hne]
    exact hext.block p hk h0
  have hBpos : 0 < BSIZE := by decide
  refine ⟨⟨?_,?_,?_,?_,?_,?_⟩,?_,hselfu⟩
  · refine ⟨by rw [hu]; exact hext.dinode,by rw [hu]; exact hext.input,
      by rw [hu]; exact hext.inode_of_ne,by rw [hu]; exact hext.inode_self,?_,?_⟩
    · rw [hplace]; exact hext.addr
    · rw [hplace]; exact hext.addr_of_ne
  · intro p hp hk h0
    exact hkeep p (fun e => hp (by rw [e])) hk h0
  · intro o h1 h2
    rw [div_of_lt h1 h2 hlen,hselfu _ (dataPlace_lt hoff),hb]
    exact hb0
  · intro o h1 h2
    have hdiv := div_of_lt h1 h2 hlen
    have hmod := (mod_of_div_eq hdiv).1 h1
    have hlt := Nat.mod_lt o hBpos
    rw [byteAt,hdiv,hselfu _ (dataPlace_lt hoff),hb,hu]
    simp only [update_self]
    rw [Block.get_patch _ _ _ hlt,if_pos (by omega),hmod,Nat.add_sub_cancel_left]
  · intro o hblk hout h0
    have hlt := Nat.mod_lt o hBpos
    have hat := hext.addrAt_eq hal (dataPlace_lt hblk) h0
    have hself : placeAddr (table s c) s.block ((s.inode c).inum, dataPlace (o / BSIZE)) =
        addrAt (s.inode c).din s.block (dataPlace (o / BSIZE)) :=
      placeAddr_self hal (dataPlace_lt hblk)
    rw [byteAt,byteAt,hselfu _ (dataPlace_lt hblk),hat]
    by_cases hdiv : o / BSIZE = off / BSIZE
    · have hsb : addrAt (s.inode c).din s.block (dataPlace (o / BSIZE)) = b := by
        rw [← hat,hdiv,hb]
      obtain rfl := hsame (by rw [← hdiv]; exact h0)
      rw [hsb,hu]
      simp only [update_self]
      rw [Block.get_patch _ _ _ hlt,if_neg]
      obtain ⟨hge,hlt'⟩ := mod_of_div_eq hdiv
      rcases hout with h | h
      · have := hlt' h
        omega
      · have := hge (by omega)
        omega
    · have hp : ((s.inode c).inum, dataPlace (o / BSIZE)) ≠
          ((s.inode c).inum, dataPlace (off / BSIZE)) := fun e =>
        hdiv (dataPlace_inj (Prod.mk.inj e).2)
      have := hkeep _ hp (dataPlace_ne _) (by rw [hself]; exact h0)
      rw [hself] at this
      rw [this]
  · intro hall
    obtain rfl := hsame (hall off le_rfl (by omega))
    rw [hu]
  · have hbm : u.bitmap = t.bitmap := by rw [hu]
    rw [Owns,hplace,hbm]
    exact hown

theorem wp_writeiLoop
    (hE : freeBlocks sb s < holes (s.inode c).din s.block (places off src.length) →
      E (.panic "balloc: out of blocks"))
    (hown : Owns sb (table s c) s.block s.bitmap) (hal : (s.inode c).din.type ≠ .free)
    (fuel : ℕ) (hfuel : src.length ≤ fuel) (hmax : off + src.length ≤ MAXFILE * BSIZE) :
    wp E (writeiLoop sb c fuel off src) s fun _ t =>
      Writes c off src s t ∧ Owns sb (table t c) t.block t.bitmap ∧
      Fills sb (places off src.length) s t (s.inode c).din (t.inode c).din := by
  induction fuel generalizing s off src with
  | zero =>
    obtain rfl : src = [] := eq_nil_of_length_eq_zero (by omega)
    exact ⟨Writes.nil c off s,hown,.nothing sb off s _⟩
  | succ fuel ih =>
    rw [writeiLoop]
    refine wp_ite (fun h0 => ?_) fun h0 => ?_
    · subst h0
      exact ⟨Writes.nil c off s,hown,.nothing sb off s _⟩
    have hpos : 0 < src.length := List.length_pos_iff.mpr h0
    have hBpos : 0 < BSIZE := by decide
    have hmod := Nat.mod_lt off hBpos
    have hoff : off / BSIZE < MAXFILE :=
      Nat.div_lt_of_lt_mul (by rw [Nat.mul_comm]; omega)
    set m := min src.length (BSIZE - off % BSIZE) with hm
    have hdrop : (src.drop m).length = src.length - m := length_drop
    -- the places of this round and those of the rounds to come
    have hplaces : places off src.length =
        placesFor (off / BSIZE) ∪ places (off+m) (src.drop m).length := by
      rw [← places_block (n := m) (by omega) (by omega),← places_add,hdrop]
      congr 1
      omega
    rw [hplaces] at hE ⊢
    refine (wp_bmap (fun hlt => hE (hlt.trans_le (holes_mono Finset.subset_union_left))) hown hal
      hoff).bind ?_
    rintro b t ⟨hext,hown1,hb0,hb,hsame,hfills⟩
    simp only [wp_bind,wp_modify]
    have htake : (src.take m).length = m := by
      rw [length_take]
      omega
    obtain ⟨hw,hown2,hat⟩ := Writes.of_store hext hown1 hal hoff hb hb0 hsame (src.take m)
      (by omega) (by omega) rfl
    have hfills2 := hfills.congr (u := { t with
      block := update t.block b ((t.block b).patch (off % BSIZE) (src.take m)) }) rfl hat
    refine (ih (fun hlt => hE (hfills2.lt (fun k => lt_of_mem_places (by omega)) hlt)) hown2
      (by rw [hw.type]; exact hal) (by omega) (by omega)).mono ?_
    rintro - u ⟨hw',hown3,hfills3⟩
    have hend : off + (src.take m).length + (src.drop m).length ≤ MAXFILE * BSIZE := by omega
    have hall := Writes.trans hal hend hw (by rw [htake]; exact hw')
    rw [take_append_drop] at hall
    exact ⟨hall,hown3,hfills2.trans hfills3⟩

/-- The cache holds the same inodes in the same condition. -/
structure CacheEq (s t : State) : Prop where
  inum : ∀ c, (t.inode c).inum = (s.inode c).inum
  ref : ∀ c, (t.inode c).ref = (s.inode c).ref
  locked : ∀ c, (t.inode c).locked = (s.inode c).locked
  valid : ∀ c, (t.inode c).valid = (s.inode c).valid

theorem placeAddr_congr {D D' : ℕ → Dinode} (haddrs : ∀ j, (D' j).addrs = (D j).addrs)
    (htype : ∀ j, (D' j).type = (D j).type) : placeAddr D' B = placeAddr D B := by
  funext ⟨j,k⟩
  simp only [placeAddr,addrAt,haddrs,htype]

/-- Slot `c` and the disk after inode `i` has been changed to `d`. -/
def store (t : State) (c : ISlot) (i : ℕ) (d : Dinode) : State :=
  { t with
    dinode := update t.dinode i d
    inode := update t.inode c { t.inode c with din := d } }

theorem wp_setDin_iupdate {Q : Unit → State → Prop} {f : Dinode → Dinode} :
    wp E (do setDin c f; iupdate c) s Q ↔
      Q () (store s c (s.inode c).inum (f (s.inode c).din)) := by
  simp only [setDin,setInode,iupdate,wp_bind,wp_modify,update_self,store]

theorem CacheEq.store (h : CacheEq s t) (c : ISlot) (i : ℕ) (d : Dinode) :
    CacheEq s (store t c i d) := by
  have heq : ∀ c', ((Fs.store t c i d).inode c').inum = (t.inode c').inum ∧
      ((Fs.store t c i d).inode c').ref = (t.inode c').ref ∧
      ((Fs.store t c i d).inode c').locked = (t.inode c').locked ∧
      ((Fs.store t c i d).inode c').valid = (t.inode c').valid := by
    intro c'
    by_cases hc : c' = c
    · subst hc
      simp [Fs.store]
    · simp [Fs.store,update_of_ne hc]
  exact ⟨fun c' => (heq c').1.trans (h.inum c'),fun c' => (heq c').2.1.trans (h.ref c'),
    fun c' => (heq c').2.2.1.trans (h.locked c'),fun c' => (heq c').2.2.2.trans (h.valid c')⟩

/-- Storing an inode through its slot keeps a well-formed file system well-formed if the disk is in
order with the new inode. -/
theorem Wf.store (h : Wf sb s) (hc : At s c i) (hst : CacheEq s t)
    (hother : ∀ c', c' ≠ c → (t.inode c').din = (s.inode c').din) (hdin : t.dinode = s.dinode)
    (hd : d.type ≠ .free) (hdisk : DiskOk sb (update s.dinode i d) t.block t.bitmap) :
    Wf sb (store t c i d) := by
  have hce : CacheEq s (Fs.store t c i d) := hst.store c i d
  have hdinode : (Fs.store t c i d).dinode = update s.dinode i d := by
    rw [Fs.store,hdin]
  have hself : ((Fs.store t c i d).inode c).din = d := by simp [Fs.store]
  have hne : ∀ c', c' ≠ c → ((Fs.store t c i d).inode c').din = (s.inode c').din := by
    intro c' hc'
    simp [Fs.store,update_of_ne hc',hother c' hc']
  refine ⟨by rw [hdinode]; exact hdisk,?_,?_,?_,?_⟩
  · intro c1 c2 h1 h2 heq
    rw [hce.ref] at h1 h2
    rw [hce.inum,hce.inum] at heq
    exact h.uniq c1 c2 h1 h2 heq
  · intro c' hr hv
    rw [hce.ref] at hr
    rw [hce.valid] at hv
    rw [hce.inum,hdinode]
    by_cases hc' : c' = c
    · subst hc'
      rw [hself,hc.inum,update_self]
    · have hi : (s.inode c').inum ≠ i := fun e =>
        hc' (h.uniq c' c hr hc.ref_pos (e.trans hc.inum.symm))
      rw [hne c' hc',update_of_ne hi]
      exact h.flushed c' hr hv
  · intro c' hr hv
    rw [hce.ref] at hr
    rw [hce.valid] at hv
    by_cases hc' : c' = c
    · subst hc'
      rw [hself]
      exact hd
    · rw [hne c' hc']
      exact h.valid_type c' hr hv
  · intro c' hr
    rw [hce.ref] at hr
    rw [hce.locked]
    exact h.idle c' hr

/-- The inode after a write that ends at `n`. -/
def Dinode.grown (d : Dinode) (n : ℕ) : Dinode := { d with size := max d.size n }

theorem Keeps.cacheEq (hw : Keeps c s t) : CacheEq s t := by
  obtain ⟨a,ha⟩ := hw.inode_self
  have heq : ∀ c', (t.inode c').inum = (s.inode c').inum ∧ (t.inode c').ref = (s.inode c').ref ∧
      (t.inode c').locked = (s.inode c').locked ∧ (t.inode c').valid = (s.inode c').valid := by
    intro c'
    by_cases hc' : c' = c
    · subst hc'; rw [ha]; exact ⟨rfl,rfl,rfl,rfl⟩
    · rw [hw.inode_of_ne c' hc']; exact ⟨rfl,rfl,rfl,rfl⟩
  exact ⟨fun c' => (heq c').1,fun c' => (heq c').2.1,fun c' => (heq c').2.2.1,
    fun c' => (heq c').2.2.2⟩

section Finish

variable (h : Wf sb s) (hc : At s c i) (hv : (s.inode c).valid = true)

include h hc hv

/-- The addresses of the other inodes stay. -/
theorem Keeps.addrAt_of_ne (hw : Keeps c s t) (hj : j ≠ i) (hal : (s.dinode j).type ≠ .free)
    (hk : k < NPLACE) : addrAt (s.dinode j) t.block k = addrAt (s.dinode j) s.block k := by
  have hp := hw.addr_of_ne (j, k) (by rw [hc.inum]; exact hj)
  rw [table,hw.dinode,hw.inum,hc.inum,table_of_flushed (h.flushed c hc.ref_pos hv),
    placeAddr_of_alloc (by rwa [update_of_ne hj]) hk,placeAddr_of_alloc hal hk,
    update_of_ne hj] at hp
  exact hp

theorem Writes.inodeOk (hw : Writes c off src s t) (hoff : off ≤ (s.dinode i).size)
    (hmax : off + src.length ≤ MAXFILE * BSIZE) :
    InodeOk ((t.inode c).din.grown (off + src.length)) t.block := by
  have hdin := h.din hc hv
  have hok := h.disk.inode_ok i (h.alloc hc hv)
  have hsize : (t.inode c).din.size = (s.dinode i).size := by rw [hw.size,hdin]
  refine ⟨?_,fun n hn => ?_⟩
  · rw [Dinode.grown,hsize]
    exact max_le hok.size_le hmax
  show addrAt (t.inode c).din t.block (dataPlace n) ≠ 0
  have hn : n * BSIZE < max (s.dinode i).size (off + src.length) := by
    rw [← hsize]
    exact hn
  by_cases hlt : n * BSIZE < (s.dinode i).size
  · -- a block that was there before
    have hn : n < MAXFILE := Nat.lt_of_mul_lt_mul_right (lt_of_lt_of_le hlt hok.size_le)
    have h0 := hok.dense n hlt
    rw [← hdin] at h0
    rw [hw.addrAt_eq (h.valid_type c hc.ref_pos hv) (dataPlace_lt hn) h0]
    exact h0
  · have hm := hw.mapped (n * BSIZE) (by omega) (by omega)
    rwa [Nat.mul_div_cancel _ (by decide)] at hm

theorem Writes.diskOk (hw : Writes c off src s t) (hown : Owns sb (table t c) t.block t.bitmap)
    (hoff : off ≤ (s.dinode i).size) (hmax : off + src.length ≤ MAXFILE * BSIZE) :
    DiskOk sb (update s.dinode i ((t.inode c).din.grown (off + src.length))) t.block
      t.bitmap := by
  refine ⟨?_,fun j hj => ?_,fun j hj => ?_⟩
  · -- the table differs from that of the loop in the size only
    have hplace : placeAddr (update s.dinode i ((t.inode c).din.grown (off + src.length))) t.block =
        placeAddr (table t c) t.block := by
      rw [table,hw.dinode,hw.inum,hc.inum]
      apply placeAddr_congr <;> intro j <;> by_cases hj : j = i
      · simp [hj,Dinode.grown]
      · simp [update_of_ne hj]
      · simp [hj,Dinode.grown]
      · simp [update_of_ne hj]
    rw [Owns,hplace]
    exact hown
  · by_cases hji : j = i
    · subst hji
      rw [update_self]
      exact hw.inodeOk h hc hv hoff hmax
    · rw [update_of_ne hji] at hj ⊢
      have hok := h.disk.inode_ok j hj
      refine ⟨hok.size_le,fun n hn => ?_⟩
      have hlt : n < MAXFILE := Nat.lt_of_mul_lt_mul_right (lt_of_lt_of_le hn hok.size_le)
      rw [hw.addrAt_of_ne h hc hv hji hj (dataPlace_lt hlt)]
      exact hok.dense n hn
  · have hji : j ≠ i := by
      rintro rfl
      exact h.alloc hc hv (h.disk.beyond j hj)
    rw [update_of_ne hji]
    exact h.disk.beyond j hj

theorem Writes.nodeOf_self (hw : Writes c off src s t) (hoff : off ≤ (s.dinode i).size) :
    nodeOf ((t.inode c).din.grown (off + src.length)) t.block = (node s i).write off src := by
  have hal := h.alloc hc hv
  have hdin := h.din hc hv
  have hok := h.disk.inode_ok i hal
  obtain ⟨a,ha⟩ := hw.inode_self
  rw [hdin] at ha
  have hbyte : ∀ o, byteAt ((t.inode c).din.grown (off + src.length)) t.block o =
      byteAt (t.inode c).din t.block o := fun _ => rfl
  rw [node_of_alloc hal,nodeOf,if_neg (by rw [Dinode.grown,ha]; exact hal)]
  simp only [hbyte]
  simp only [Dinode.grown,ha,Node.write,Node.mk.injEq,true_and]
  funext o
  by_cases hin : off ≤ o ∧ o < off + src.length
  · have hb := hw.byte_in o hin.1 hin.2
    rw [ha] at hb
    rw [if_pos (by omega),if_pos hin,hb]
  · rw [if_neg hin]
    by_cases hsz : o < (s.dinode i).size
    · have hb := hw.byte_out o (block_lt_maxfile hok hsz) (by omega)
        (by rw [hdin]; exact hok.place_ne_zero hsz)
      rw [ha,hdin] at hb
      rw [if_pos (by omega),if_pos hsz,hb]
    · rw [if_neg (by omega),if_neg hsz]

theorem Writes.nodeOf_of_ne (hw : Writes c off src s t) (hj : j ≠ i) :
    nodeOf (s.dinode j) t.block = node s j := by
  by_cases hal : (s.dinode j).type = .free
  · rw [node,nodeOf,nodeOf,if_pos hal,if_pos hal]
  rw [node,nodeOf,nodeOf,if_neg hal,if_neg hal]
  have hok := h.disk.inode_ok j hal
  congr 1
  funext o
  split
  · next ho =>
    have hlt := dataPlace_lt (block_lt_maxfile hok ho)
    have hself : placeAddr (table s c) s.block (j, dataPlace (o / BSIZE)) =
        addrAt (s.dinode j) s.block (dataPlace (o / BSIZE)) := by
      rw [table_of_flushed (h.flushed c hc.ref_pos hv),placeAddr_of_alloc hal hlt]
    have hblk := hw.other (j, dataPlace (o / BSIZE)) (by rw [hc.inum]; exact hj)
      (dataPlace_ne _) (by rw [hself]; exact hok.place_ne_zero ho)
    rw [hself] at hblk
    rw [byteAt,byteAt,hw.addrAt_of_ne h hc hv hj hal hlt,hblk]
  · rfl

theorem Writes.finish (hw : Writes c off src s t) (hown : Owns sb (table t c) t.block t.bitmap)
    (hoff : off ≤ (s.dinode i).size) (hmax : off + src.length ≤ MAXFILE * BSIZE)
    (hu : u = store t c i ((t.inode c).din.grown (off + src.length))) :
    Wf sb u ∧ CacheEq s u ∧ u.input = s.input ∧
      node u = update (node s) i ((node s i).write off src) := by
  have hal : ((t.inode c).din.grown (off + src.length)).type ≠ .free := by
    rw [Dinode.grown,hw.type]
    exact h.valid_type c hc.ref_pos hv
  subst hu
  refine ⟨h.store hc hw.cacheEq (fun c' hc' => by rw [hw.inode_of_ne c' hc']) hw.dinode hal
    (hw.diskOk h hc hv hown hoff hmax),hw.cacheEq.store c i _,hw.input,?_⟩
  funext j
  show nodeOf (update t.dinode i ((t.inode c).din.grown (off + src.length)) j) t.block = _
  rw [hw.dinode]
  by_cases hji : j = i
  · rw [hji,update_self,update_self,hw.nodeOf_self h hc hv hoff]
  · rw [update_of_ne hji,update_of_ne hji,hw.nodeOf_of_ne h hc hv hji]

theorem wp_writei
    (hE : off ≤ (node s i).size → off + src.length ≤ MAXFILE * BSIZE →
      freeBlocks sb s < holes (s.dinode i) s.block (places off src.length) →
      E (.panic "balloc: out of blocks"))
    (hdev : (node s i).type ≠ .dev) (hoff : off < 2 ^ 32) (hn : src.length < 2 ^ 32) :
    wp E (writei sb c src off) s fun r t => Wf sb t ∧ CacheEq s t ∧ t.input = s.input ∧
      if (node s i).size < off ∨ 2 ^ 32 ≤ off + src.length ∨ MAXFILE * BSIZE < off + src.length
      then r = none ∧ t = s
      else r = some src.length ∧ node t = update (node s) i ((node s i).write off src) ∧
        Fills sb (places off src.length) s t (s.dinode i) (t.dinode i) := by
  have hal := h.alloc hc hv
  have hdin := h.din hc hv
  have hok := h.disk.inode_ok i hal
  have hsize : (node s i).size = (s.dinode i).size := by rw [node_of_alloc hal]
  have htab : table s c = s.dinode := table_of_flushed (h.flushed c hc.ref_pos hv)
  have hwrap : (off + src.length) % 2 ^ 32 < off ↔ 2 ^ 32 ≤ off + src.length := by omega
  have hce : CacheEq s s := ⟨fun _ => rfl,fun _ => rfl,fun _ => rfl,fun _ => rfl⟩
  rw [writei,wp_bind,wp_read,hdin]
  rw [node_type] at hdev
  rw [if_neg hdev,hsize]
  refine wp_ite (fun hbad => ?_) fun hgood => ?_
  · rw [hwrap] at hbad
    exact ⟨h,hce,rfl,by rw [if_pos (by tauto)]; exact ⟨rfl,rfl⟩⟩
  rw [hwrap] at hgood
  have hmod : (off + src.length) % 2 ^ 32 = off + src.length := Nat.mod_eq_of_lt (by omega)
  rw [hmod]
  refine wp_ite (fun hbad => ?_) fun hmax => ?_
  · exact ⟨h,hce,rfl,by rw [if_pos (by tauto)]; exact ⟨rfl,rfl⟩⟩
  have hcond : ¬ ((s.dinode i).size < off ∨ 2 ^ 32 ≤ off + src.length ∨
      MAXFILE * BSIZE < off + src.length) := by tauto
  simp only [if_neg hcond]
  have hE := hE (by omega) (by omega)
  rw [← hdin] at hE
  refine (wp_writeiLoop hE (by rw [htab]; exact h.disk.owns) (by rw [hdin]; exact hal) _ le_rfl
    (by omega)).bind ?_
  rintro - t ⟨hw,hown,hfills⟩
  have hsz : (t.inode c).din.size = (s.dinode i).size := by rw [hw.size,hdin]
  have hit : (t.inode c).inum = i := hw.inum.trans hc.inum
  have hfin := hw.finish h hc hv hown (by omega) (by omega) rfl
  have hself : (store t c i ((t.inode c).din.grown (off + src.length))).dinode i =
      (t.inode c).din.grown (off + src.length) := update_self ..
  have hfills' : Fills sb (places off src.length) s
      (store t c i ((t.inode c).din.grown (off + src.length))) (s.dinode i)
      ((store t c i ((t.inode c).din.grown (off + src.length))).dinode i) := by
    rw [hself,← hdin]
    exact hfills.congr rfl fun _ _ => rfl
  rw [wp_bind,growTo,wp_bind,wp_read,hsz]
  refine wp_ite (fun hgrow => ?_) fun hsame => ?_
  · have hnew : (t.inode c).din.grown (off + src.length) =
        { (t.inode c).din with size := off + src.length } := by
      rw [Dinode.grown,max_eq_right (by omega)]
    rw [hnew] at hfin hfills'
    rw [wp_setDin_iupdate,hit,wp_pure]
    exact ⟨hfin.1,hfin.2.1,hfin.2.2.1,rfl,hfin.2.2.2,hfills'⟩
  have hkeep : t.inode c = s.inode c := by
    apply hw.same
    intro o h1 h2
    rw [hdin]
    exact hok.place_ne_zero (by omega)
  have hts : store t c i ((t.inode c).din.grown (off + src.length)) = t := by
    rw [Dinode.grown,max_eq_left (by omega),store]
    have h1 : update t.dinode i (t.inode c).din = t.dinode := by
      rw [hkeep,hdin,hw.dinode,update_eq_self]
    have h2 : update t.inode c { t.inode c with din := (t.inode c).din } = t.inode :=
      update_eq_self c t.inode
    rw [show ({ (t.inode c).din with size := (t.inode c).din.size } : Dinode) =
      (t.inode c).din from rfl,h1,h2]
  rw [hts] at hfin hfills'
  exact ⟨hfin.1,hfin.2.1,hfin.2.2.1,rfl,hfin.2.2.2,hfills'⟩

end Finish

end Xv6Container.Fs
