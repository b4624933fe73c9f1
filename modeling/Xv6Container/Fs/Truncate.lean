import Xv6Container.Fs.Content

/-! # Giving blocks back -/

namespace Xv6Container.Fs

open Function Prog FreeMap List

variable {sb : Superblock} {s t u : State} {c : ISlot} {D : ℕ → Dinode}
  {B : ℕ → Block BSIZE} {bm : ℕ → Bool} {b i j k : ℕ} {d : Dinode} {E : Stop → Prop}

/-- Only the addresses in slot `c` and the bitmap are changed. -/
structure Frees (c : ISlot) (s t : State) : Prop where
  dinode : t.dinode = s.dinode
  block : t.block = s.block
  input : t.input = s.input
  inode_of_ne : ∀ c', c' ≠ c → t.inode c' = s.inode c'
  inode_self : ∃ a, t.inode c = { s.inode c with din := { (s.inode c).din with addrs := a } }

theorem Frees.refl (c : ISlot) (s : State) : Frees c s s :=
  ⟨rfl,rfl,rfl,fun _ _ => rfl,⟨_,rfl⟩⟩

theorem Frees.trans (h : Frees c s t) (h' : Frees c t u) : Frees c s u := by
  obtain ⟨a,ha⟩ := h.inode_self
  obtain ⟨a',ha'⟩ := h'.inode_self
  exact ⟨h'.dinode.trans h.dinode,h'.block.trans h.block,h'.input.trans h.input,
    fun c' hc => (h'.inode_of_ne c' hc).trans (h.inode_of_ne c' hc),⟨a',by rw [ha',ha]⟩⟩

theorem Frees.inum (h : Frees c s t) : (t.inode c).inum = (s.inode c).inum := by
  obtain ⟨a,ha⟩ := h.inode_self
  rw [ha]

theorem Frees.type (h : Frees c s t) : (t.inode c).din.type = (s.inode c).din.type := by
  obtain ⟨a,ha⟩ := h.inode_self
  rw [ha]

theorem wp_bfree {Q : Unit → State → Prop} (hb : s.bitmap b = true)
    (hQ : Q () { s with bitmap := update s.bitmap b false }) : wp E (bfree b) s Q := by
  rw [bfree,wp_bind,wp_read,if_pos hb]
  exact hQ

theorem marked_update {a : ℕ} (h0 : a ≠ 0) :
    update bm a false b = true ↔ bm b = true ∧ (a = b → b = 0) := by
  by_cases hb : b = a
  · subst hb
    simp [h0]
  · simp [update_of_ne hb,Ne.symm hb]

theorem wp_itruncAddr_direct (h : Owns sb (table s c) s.block s.bitmap)
    (hal : (s.inode c).din.type ≠ .free) (hk : k < NDIRECT) :
    wp E (itruncAddr c k) s fun _ t => Frees c s t ∧ Owns sb (table t c) t.block t.bitmap ∧
      (t.inode c).din.addrs = update (s.inode c).din.addrs k 0 := by
  rw [itruncAddr,wp_bind,wp_read]
  refine wp_ite (fun h0 => ?_) fun h0 => ?_
  · exact ⟨Frees.refl c s,h,by rw [← h0,update_eq_self]⟩
  have hkp : k < NPLACE := by
    have := layout
    omega
  have hself : placeAddr (table s c) s.block ((s.inode c).inum, k) =
      (s.inode c).din.addrs k := by
    rw [placeAddr_self hal hkp,addrAt,if_pos (Nat.le_of_lt hk)]
  have hmark := h.marked _ (by rw [hself]; exact h0)
  rw [hself] at hmark
  rw [wp_bind]
  refine wp_bfree hmark ?_
  simp only [setDin,setInode,wp_modify,update_self]
  set t : State := { s with
    bitmap := update s.bitmap ((s.inode c).din.addrs k) false
    inode := update s.inode c { s.inode c with
      din := { (s.inode c).din with
        addrs := update (s.inode c).din.addrs k 0 } } } with ht
  have hplace : ∀ p, placeAddr (table t c) t.block p =
      if p = ((s.inode c).inum, k) then 0 else placeAddr (table s c) s.block p := by
    rintro ⟨j,l⟩
    by_cases hj : j = (s.inode c).inum
    · subst hj
      simp only [placeAddr,table,ht,update_self,Prod.mk.injEq,true_and,addrAt]
      by_cases hl : l = k
      · subst hl
        simp [Nat.le_of_lt hk]
      · rw [if_neg hl,update_of_ne hl,update_of_ne (by omega)]
    · rw [if_neg fun e => hj (Prod.mk.inj e).1]
      simp only [placeAddr,table,ht,update_self,update_of_ne hj]
  refine ⟨⟨rfl,rfl,rfl,fun c' hc => update_of_ne hc _ _,
    ⟨update (s.inode c).din.addrs k 0,by simp [ht]⟩⟩,
    Exact.release h hplace (fun b => ?_),by simp⟩
  rw [forall_eq,hself]
  exact marked_update h0

theorem wp_itruncDirect (h : Owns sb (table s c) s.block s.bitmap)
    (hal : (s.inode c).din.type ≠ .free) :
    wp E ((List.range NDIRECT).forM (itruncAddr c)) s fun _ t => Frees c s t ∧
      Owns sb (table t c) t.block t.bitmap ∧ (∀ k, k < NDIRECT → (t.inode c).din.addrs k = 0) ∧
      (t.inode c).din.addrs NDIRECT = (s.inode c).din.addrs NDIRECT := by
  -- the invariant: the addresses still to come are the only ones that may be left
  refine (wp_forM (fun l t => (∀ k ∈ l, k < NDIRECT) ∧ Frees c s t ∧
    Owns sb (table t c) t.block t.bitmap ∧
    (∀ k, k < NDIRECT → k ∉ l → (t.inode c).din.addrs k = 0) ∧
    (t.inode c).din.addrs NDIRECT = (s.inode c).din.addrs NDIRECT) ?_ _ ?_).mono ?_
  · rintro k l t ⟨hl,hf,hown,hzero,hind⟩
    have hk := hl k mem_cons_self
    refine (wp_itruncAddr_direct hown (by rw [hf.type]; exact hal) hk).mono ?_
    rintro - u ⟨hf',hown',haddr⟩
    refine ⟨fun j hj => hl j (mem_cons_of_mem _ hj),hf.trans hf',hown',fun j hj hjl => ?_,?_⟩
    · rw [haddr]
      by_cases hjk : j = k
      · rw [hjk,update_self]
      · rw [update_of_ne hjk]
        exact hzero j hj (by simp [hjk,hjl])
    · rw [haddr,update_of_ne (by omega),hind]
  · exact ⟨fun k hk => List.mem_range.mp hk,Frees.refl c s,h,
      fun k hk hn => absurd (List.mem_range.mpr hk) hn,rfl⟩
  · rintro - t ⟨-,hf,hown,hzero,hind⟩
    exact ⟨hf,hown,fun k hk => hzero k hk (by simp),hind⟩

theorem wp_itruncIndirect (h : Owns sb (table s c) s.block s.bitmap)
    (hal : (s.inode c).din.type ≠ .free) :
    wp E (itruncIndirect c) s fun _ t => ∃ bm, t = { s with bitmap := bm } ∧
      ∀ b, bm b = true ↔ s.bitmap b = true ∧
        ∀ j, j < NINDIRECT → addrAt (s.inode c).din s.block (NDIRECT + 1 + j) = b → b = 0 := by
  rw [itruncIndirect,wp_bind,wp_read]
  refine wp_ite (fun h0 => ?_) fun h0 => ?_
  · refine ⟨s.bitmap,rfl,fun b => ⟨fun hb => ⟨hb,fun j _ hj => ?_⟩,fun hb => hb.1⟩⟩
    rw [addrAt,if_neg (by omega),if_pos h0] at hj
    exact hj.symm
  · rw [wp_bind,wp_read]
    set w : ℕ → ℕ := fun j => (s.block ((s.inode c).din.addrs NDIRECT)).word j with hw
    have hword : ∀ j, addrAt (s.inode c).din s.block (NDIRECT + 1 + j) = w j := by
      intro j
      rw [addrAt,if_neg (by omega),if_neg h0,Nat.add_sub_cancel_left]
    have hself : ∀ j, j < NINDIRECT →
        placeAddr (table s c) s.block ((s.inode c).inum, NDIRECT + 1 + j) = w j := by
      intro j hj
      rw [placeAddr_self hal (by have := layout; omega),hword]
    have hinj : ∀ j l, j < NINDIRECT → l < NINDIRECT → w j ≠ 0 → w j = w l → j = l := by
      intro j l hj hl hne heq
      have := h.inj ((s.inode c).inum, NDIRECT + 1 + j) ((s.inode c).inum, NDIRECT + 1 + l)
        (by rw [hself j hj]; exact hne) (by rw [hself j hj,hself l hl,heq])
      have := (Prod.mk.inj this).2
      omega
    -- the invariant: exactly the entries that are no longer to come have been freed
    refine (wp_forM (fun l t => l.Nodup ∧ (∀ j ∈ l, j < NINDIRECT) ∧
      ∃ bm, t = { s with bitmap := bm } ∧ ∀ b, bm b = true ↔ s.bitmap b = true ∧
        ∀ j, j < NINDIRECT → j ∉ l → w j = b → b = 0) ?_ _ ?_).mono ?_
    · rintro j l _ ⟨hnd,hl,bm,rfl,hbm⟩
      have hjn := hl j mem_cons_self
      obtain ⟨hjl,hnd⟩ := List.nodup_cons.mp hnd
      -- the marks after the entry
      have hnext : ∀ bm' : ℕ → Bool, (∀ b, bm' b = true ↔ bm b = true ∧ (w j = b → b = 0)) →
          ∀ b, bm' b = true ↔ s.bitmap b = true ∧
            ∀ a, a < NINDIRECT → a ∉ l → w a = b → b = 0 := by
        intro bm' hbm' b
        rw [hbm',hbm,and_assoc]
        refine and_congr_right fun _ => ⟨fun hall a ha hal' hab => ?_,fun hall =>
          ⟨fun a ha hal' => hall a ha fun hmem => hal' (mem_cons_of_mem _ hmem),hall j hjn hjl⟩⟩
        by_cases haj : a = j
        · exact hall.2 (haj ▸ hab)
        · exact hall.1 a ha (by simp [haj,hal']) hab
      refine wp_ite (fun hz => ?_) fun hz => ?_
      · refine ⟨hnd,fun a ha => hl a (mem_cons_of_mem _ ha),bm,rfl,hnext bm fun b => ?_⟩
        exact (and_iff_left fun hj => hj.symm.trans hz).symm
      have hmark : bm (w j) = true := by
        rw [hbm]
        refine ⟨?_,fun a ha hal' haw => ?_⟩
        · have := h.marked _ (by rw [hself j hjn]; exact hz)
          rwa [hself j hjn] at this
        · have haj : a = j := hinj a j ha hjn (by rw [haw]; exact hz) haw
          exact absurd (by rw [haj]; exact mem_cons_self) hal'
      exact wp_bfree hmark ⟨hnd,fun a ha => hl a (mem_cons_of_mem _ ha),_,rfl,
        hnext _ fun b => marked_update hz⟩
    · refine ⟨nodup_range,fun j hj => List.mem_range.mp hj,s.bitmap,rfl,fun b =>
        ⟨fun hb => ⟨hb,fun j hj hn => absurd (List.mem_range.mpr hj) hn⟩,fun hb => hb.1⟩⟩
    · rintro - t ⟨-,-,bm,rfl,hbm⟩
      refine ⟨bm,rfl,fun b => (hbm b).trans (and_congr_right fun _ => ?_)⟩
      refine ⟨fun hall j hj hjb => hall j hj (by simp) (by rw [← hword]; exact hjb),
        fun hall j hj _ hjb => hall j hj (by rw [hword]; exact hjb)⟩

theorem placeAddr_dropIndirect {a : ℕ → ℕ} (ha : a = update (s.inode c).din.addrs NDIRECT 0)
    (ht : table t c = update (table s c) (s.inode c).inum
      { (s.inode c).din with addrs := a }) (hb : t.block = s.block) (p : ℕ × ℕ) :
    placeAddr (table t c) t.block p =
      if p.1 = (s.inode c).inum ∧ NDIRECT ≤ p.2 then 0 else placeAddr (table s c) s.block p := by
  obtain ⟨j,l⟩ := p
  by_cases hj : j = (s.inode c).inum
  · subst hj
    simp only [placeAddr,ht,hb,table_self,update_self,addrAt,ha,true_and,if_true]
    by_cases hl : l < NDIRECT
    · have hne : l ≠ NDIRECT := Nat.ne_of_lt hl
      simp only [Nat.le_of_lt hl,Nat.not_le_of_lt hl,if_true,if_false,update_of_ne hne]
    rw [if_pos (Nat.le_of_not_lt hl)]
    split
    · split
      · next hle =>
        obtain rfl : l = NDIRECT := by omega
        exact update_self ..
      · rfl
    · rfl
  · rw [if_neg fun e => hj e.1]
    simp only [placeAddr,ht,hb,update_of_ne hj]

theorem wp_itruncRest (h : Owns sb (table s c) s.block s.bitmap)
    (hal : (s.inode c).din.type ≠ .free) :
    wp E (do itruncIndirect c; itruncAddr c NDIRECT) s fun _ t => Frees c s t ∧
      Owns sb (table t c) t.block t.bitmap ∧
      (t.inode c).din.addrs = update (s.inode c).din.addrs NDIRECT 0 := by
  have hself : placeAddr (table s c) s.block ((s.inode c).inum, NDIRECT) =
      (s.inode c).din.addrs NDIRECT := by
    rw [placeAddr_self hal (by decide),addrAt,if_pos (by decide)]
  have hentry : ∀ j, j < NINDIRECT →
      placeAddr (table s c) s.block ((s.inode c).inum, NDIRECT + 1 + j) =
        addrAt (s.inode c).din s.block (NDIRECT + 1 + j) := fun j hj =>
    placeAddr_self hal (by have := layout; omega)
  refine (wp_itruncIndirect h hal).bind ?_
  rintro - _ ⟨bm,rfl,hbm⟩
  rw [itruncAddr,wp_bind,wp_read]
  simp only
  refine wp_ite (fun h0 => ?_) fun h0 => ?_
  · -- no indirect block, so nothing has been freed
    have hsame : bm = s.bitmap := by
      funext b
      rw [Bool.eq_iff_iff,hbm]
      refine ⟨fun hb => hb.1,fun hb => ⟨hb,fun j _ hj => ?_⟩⟩
      rw [addrAt,if_neg (by omega),if_pos h0] at hj
      exact hj.symm
    rw [hsame]
    exact ⟨Frees.refl c s,h,by rw [← h0,update_eq_self]⟩
  have hmark : bm ((s.inode c).din.addrs NDIRECT) = true := by
    rw [hbm]
    refine ⟨by rw [← hself]; exact h.marked _ (by rw [hself]; exact h0),fun j hj heq => ?_⟩
    have := h.inj ((s.inode c).inum, NDIRECT) ((s.inode c).inum, NDIRECT + 1 + j)
      (by rw [hself]; exact h0) (by rw [hself,hentry j hj,heq])
    have := (Prod.mk.inj this).2
    omega
  rw [wp_bind]
  refine wp_bfree hmark ?_
  simp only [setDin,setInode,wp_modify]
  set t : State := { s with
    bitmap := update bm ((s.inode c).din.addrs NDIRECT) false
    inode := update s.inode c { s.inode c with
      din := { (s.inode c).din with
        addrs := update (s.inode c).din.addrs NDIRECT 0 } } } with ht
  have hplace := placeAddr_dropIndirect (s := s) (t := t) (c := c) rfl (by simp [table,ht]) rfl
  refine ⟨⟨rfl,rfl,rfl,fun c' hc => update_of_ne hc _ _,
    ⟨update (s.inode c).din.addrs NDIRECT 0,by simp [ht]⟩⟩,
    Exact.release h hplace (fun b => (marked_update h0).trans ?_),by simp⟩
  rw [hbm,and_assoc]
  refine and_congr_right fun _ => ⟨fun hall p hp hpb => ?_,fun hall => ⟨fun j hj => ?_,?_⟩⟩
  · obtain ⟨i,k⟩ := p
    obtain ⟨rfl,hk⟩ : i = (s.inode c).inum ∧ NDIRECT ≤ k := hp
    by_contra hb0
    have hlt := (alloc_of_placeAddr (by rw [hpb]; exact hb0)).2
    by_cases hk12 : k = NDIRECT
    · exact hb0 (hall.2 (by rw [← hself,← hk12]; exact hpb))
    · obtain ⟨j,rfl⟩ : ∃ j, k = NDIRECT + 1 + j := ⟨k - (NDIRECT + 1),by omega⟩
      have hj : j < NINDIRECT := by have := layout; omega
      exact hb0 (hall.1 j hj (by rw [← hentry j hj]; exact hpb))
  · rw [← hentry j hj]
    exact hall (_, NDIRECT + 1 + j) ⟨rfl,by omega⟩
  · rw [← hself]
    exact hall (_, NDIRECT) ⟨rfl,le_rfl⟩

theorem placeAddr_update_of_zero (d d' : Dinode) (hd : ∀ k, k ≤ NDIRECT → d.addrs k = 0)
    (hd' : ∀ k, k ≤ NDIRECT → d'.addrs k = 0) :
    placeAddr (update D i d) B = placeAddr (update D i d') B := by
  have hzero : ∀ e : Dinode, (∀ k, k ≤ NDIRECT → e.addrs k = 0) → ∀ k, addrAt e B k = 0 := by
    intro e he k
    rw [addrAt]
    split
    · next hk => exact he k hk
    · rw [if_pos (he NDIRECT le_rfl)]
  funext x
  obtain ⟨j,k⟩ := x
  by_cases hj : j = i
  · subst hj
    simp only [placeAddr,update_self,hzero d hd,hzero d' hd',ite_self]
  · simp only [placeAddr,update_of_ne hj]

theorem wp_itrunc (h : Wf sb s) (hc : At s c i)
    (hv : (s.inode c).valid = true) :
    wp E (itrunc c) s fun _ t => ∃ a bm, (∀ k, k ≤ NDIRECT → a k = 0) ∧
      t = store { s with bitmap := bm } c i { s.dinode i with size := 0, addrs := a } ∧
      Owns sb t.dinode t.block t.bitmap := by
  have hal := h.alloc hc hv
  have hdin := h.din hc hv
  have htab : table s c = s.dinode := table_of_flushed (h.flushed c hc.ref_pos hv)
  rw [itrunc]
  refine (wp_itruncDirect (by rw [htab]; exact h.disk.owns) (by rw [hdin]; exact hal)).bind ?_
  rintro - t ⟨hf,hown,hzero,-⟩
  have hassoc : ∀ {Q : Unit → State → Prop},
      wp E (do itruncIndirect c; itruncAddr c NDIRECT) t (fun _ u =>
        wp E (do setDin c fun d => { d with size := 0 }; iupdate c) u Q) →
      wp E (do
        itruncIndirect c
        itruncAddr c NDIRECT
        setDin c fun d => { d with size := 0 }
        iupdate c) t Q := by
    intro Q hQ
    simpa only [wp_bind] using hQ
  apply hassoc
  refine (wp_itruncRest hown (by rw [hf.type,hdin]; exact hal)).mono ?_
  rintro - u ⟨hf',hown',haddr⟩
  rw [wp_setDin_iupdate]
  have hfu := hf.trans hf'
  obtain ⟨a,ha⟩ := hfu.inode_self
  have hazero : ∀ k, k ≤ NDIRECT → a k = 0 := by
    intro k hk
    have hak : a k = (u.inode c).din.addrs k := by rw [ha]
    rw [hak,haddr]
    by_cases hk12 : k = NDIRECT
    · rw [hk12,update_self]
    · rw [update_of_ne hk12]
      exact hzero k (by omega)
  have hinode : ∀ x, update u.inode c x = update s.inode c x := by
    intro x
    funext c'
    by_cases hc' : c' = c
    · rw [hc',update_self,update_self]
    · rw [update_of_ne hc',update_of_ne hc',hfu.inode_of_ne c' hc']
  have hstate : store u c (u.inode c).inum { (u.inode c).din with size := 0 } =
      store { s with bitmap := u.bitmap } c i { s.dinode i with size := 0, addrs := a } := by
    rw [store,hinode,ha,hdin,hc.inum,hfu.dinode,hfu.block,hfu.input]
    rfl
  refine ⟨a,u.bitmap,hazero,hstate,?_⟩
  rw [hstate]
  show Owns sb (update s.dinode i { s.dinode i with size := 0, addrs := a }) s.block
    u.bitmap
  have htabu : table u c = update s.dinode i { s.dinode i with addrs := a } := by
    rw [table,hfu.dinode,hfu.inum,hc.inum,ha,hdin]
  rw [htabu,hfu.block] at hown'
  rw [Owns,placeAddr_update_of_zero _ { s.dinode i with addrs := a } hazero hazero]
  exact hown'

end Xv6Container.Fs
