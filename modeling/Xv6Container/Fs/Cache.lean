import Xv6Container.Fs.Truncate
import Xv6Container.Lib.Slots

/-!
# The inode cache by inode number

`abs` forgets the slots and the blocks: it gives the node of every inode number, and the
condition in which the cache holds it. Every call of the inode layer is one operation on this.
-/

namespace Xv6Container.Fs

open Function Prog FreeMap

variable {sb : Superblock} {s t u : State} {c c' : ISlot} {i j k n off : ℕ} {d : Dinode}
  {ip : Inode} {E : Stop → Prop}

/-- The condition in which the cache holds an inode. -/
@[ext] structure Cached where
  refs : ℕ
  locked : Bool
  valid : Bool

/-- Not in the cache. -/
def Cached.none : Cached := ⟨0, false, false⟩

/-- The slot that holds inode `i`. -/
def slotOf (s : State) (i : ℕ) : Option ISlot :=
  (List.finRange NINODE).find? fun c => 0 < (s.inode c).ref && (s.inode c).inum = i

def cached (s : State) (i : ℕ) : Cached :=
  match slotOf s i with
  | some c => ⟨(s.inode c).ref, (s.inode c).locked, (s.inode c).valid⟩
  | .none => Cached.none

/-- The file system by inode number. -/
@[ext] structure Abs where
  node : ℕ → Node
  cache : ℕ → Cached

def abs (s : State) : Abs := ⟨node s, cached s⟩

namespace Abs

variable {A : Abs}

def setNode (A : Abs) (i : ℕ) (x : Node) : Abs := { A with node := update A.node i x }

def setCache (A : Abs) (i : ℕ) (x : Cached) : Abs :=
  { A with cache := update A.cache i x }

/-- One reference more. -/
def get (A : Abs) (i : ℕ) : Abs :=
  A.setCache i { A.cache i with refs := (A.cache i).refs + 1 }

def lock (A : Abs) (i : ℕ) : Abs := A.setCache i { A.cache i with locked := true, valid := true }

def unlock (A : Abs) (i : ℕ) : Abs := A.setCache i { A.cache i with locked := false }

@[simp] theorem refs_unlock : ((A.unlock i).cache j).refs = (A.cache j).refs := by
  by_cases hj : j = i
  · subst hj
    simp [unlock,setCache]
  · simp [unlock,setCache,update_of_ne hj]

/-- One reference less; with the last one the inode leaves the cache. -/
def drop (A : Abs) (i : ℕ) : Abs :=
  A.setCache i (if (A.cache i).refs ≤ 1 then Cached.none
    else { A.cache i with refs := (A.cache i).refs - 1 })

/-- Nobody else uses the inode: it has no links and this is the last reference. -/
def Last (A : Abs) (i : ℕ) : Prop :=
  (A.cache i).valid = true ∧ (A.node i).nlink = 0 ∧ (A.cache i).refs = 1

instance (A : Abs) (i : ℕ) : Decidable (A.Last i) :=
  inferInstanceAs (Decidable ((A.cache i).valid = true ∧ (A.node i).nlink = 0 ∧
    (A.cache i).refs = 1))

/-- Give a reference back, and free the inode if it was the last use. -/
def put (A : Abs) (i : ℕ) : Abs :=
  if A.Last i then (A.setNode i Node.none).setCache i Cached.none else A.drop i

end Abs

theorem at_of_slotOf (h : slotOf s i = some c) : At s c i := by
  have := List.find?_some h
  simp only [Bool.and_eq_true,decide_eq_true_eq] at this
  exact ⟨this.1,this.2⟩

theorem not_at_of_slotOf (h : slotOf s i = .none) : ¬ At s c i := by
  intro hc
  have := List.find?_eq_none.mp h c (List.mem_finRange c)
  simp only [Bool.and_eq_true,decide_eq_true_eq,not_and] at this
  exact this hc.ref_pos hc.inum

theorem cached_of_unique (hc : At s c i) (hu : ∀ c', At s c' i → c' = c) :
    cached s i = ⟨(s.inode c).ref, (s.inode c).locked, (s.inode c).valid⟩ := by
  rw [cached]
  cases h : slotOf s i with
  | none => exact absurd hc (not_at_of_slotOf h)
  | some c' =>
    obtain rfl := hu c' (at_of_slotOf h)
    rfl

theorem Wf.cached_eq (h : Wf sb s) (hc : At s c i) :
    cached s i = ⟨(s.inode c).ref, (s.inode c).locked, (s.inode c).valid⟩ :=
  cached_of_unique hc fun c' hc' =>
    h.uniq c' c hc'.ref_pos hc.ref_pos (hc'.inum.trans hc.inum.symm)

theorem cached_of_not_at (h : ∀ c, ¬ At s c i) : cached s i = Cached.none := by
  rw [cached]
  cases hs : slotOf s i with
  | none => rfl
  | some c => exact absurd (at_of_slotOf hs) (h c)

theorem exists_at (h : 0 < (cached s i).refs) : ∃ c, At s c i := by
  by_contra hn
  rw [cached_of_not_at fun c hc => hn ⟨c,hc⟩] at h
  exact absurd h (by decide)

theorem slotOf_congr (h : ∀ c, At t c i ↔ At s c i) : slotOf t i = slotOf s i := by
  have hp : (fun c => (0 < (t.inode c).ref && (t.inode c).inum = i : Bool)) =
      fun c => (0 < (s.inode c).ref && (s.inode c).inum = i : Bool) := by
    funext c
    rw [Bool.eq_iff_iff]
    simp only [Bool.and_eq_true,decide_eq_true_eq]
    exact ⟨fun hc => ⟨((h c).mp ⟨hc.1,hc.2⟩).ref_pos,((h c).mp ⟨hc.1,hc.2⟩).inum⟩,
      fun hc => ⟨((h c).mpr ⟨hc.1,hc.2⟩).ref_pos,((h c).mpr ⟨hc.1,hc.2⟩).inum⟩⟩
  rw [slotOf,slotOf,hp]

theorem cached_congr (h : CacheEq s t) : cached t = cached s := by
  funext i
  have hslot : slotOf t i = slotOf s i := by
    apply slotOf_congr
    intro c
    refine ⟨fun hc => ⟨?_,?_⟩,fun hc => ⟨?_,?_⟩⟩
    · rw [← h.ref]; exact hc.ref_pos
    · rw [← h.inum]; exact hc.inum
    · rw [h.ref]; exact hc.ref_pos
    · rw [h.inum]; exact hc.inum
  rw [cached,cached,hslot]
  cases slotOf s i with
  | none => rfl
  | some c => simp only [h.ref,h.locked,h.valid]

/-- Who holds a reference keeps its slot. -/
def Keep (s t : State) : Prop := ∀ c i, At s c i → 0 < (cached t i).refs → At t c i

/-- From `s` to a well-formed `t` that is `A` by inode number. -/
structure Goes (sb : Superblock) (s t : State) (A : Abs) : Prop where
  wf : Wf sb t
  keep : Keep s t
  abs : abs t = A

theorem Goes.node {A : Abs} (h : Goes sb s t A) : node t = A.node := congrArg Abs.node h.abs

theorem Goes.cached {A : Abs} (h : Goes sb s t A) : cached t = A.cache := congrArg Abs.cache h.abs

theorem Goes.at {A : Abs} (h : Goes sb s t A) (hc : At s c i) (hi : 0 < (A.cache i).refs) :
    At t c i := h.keep c i hc (by rw [h.cached]; exact hi)

theorem Goes.trans {A A' : Abs} (h : Goes sb s t A) (h' : Goes sb t u A')
    (hrefs : ∀ i, 0 < (Fs.cached s i).refs → 0 < (A'.cache i).refs → 0 < (A.cache i).refs) :
    Goes sb s u A' := by
  refine ⟨h'.wf,fun c i hc hi => ?_,h'.abs⟩
  have hsi : 0 < (Fs.cached s i).refs := by
    by_contra hn
    rw [Fs.cached] at hn
    cases hs : slotOf s i with
    | none => exact not_at_of_slotOf hs hc
    | some c' =>
      rw [hs] at hn
      exact hn (at_of_slotOf hs).ref_pos
  rw [h'.cached] at hi
  exact h'.at (h.at hc (hrefs i hsi hi)) hi

/-- Only slot `c` is changed. -/
def setSlot (s : State) (c : ISlot) (ip : Inode) : State :=
  { s with inode := update s.inode c ip }

theorem setSlot_at_of_ne (hc : c' ≠ c) : At (setSlot s c ip) c' i ↔ At s c' i := by
  have h : (setSlot s c ip).inode c' = s.inode c' := update_of_ne hc _ _
  exact ⟨fun ha => ⟨h ▸ ha.ref_pos,h ▸ ha.inum⟩,fun ha => ⟨h.symm ▸ ha.ref_pos,h.symm ▸ ha.inum⟩⟩

theorem setSlot_at_self : At (setSlot s c ip) c i ↔ 0 < ip.ref ∧ ip.inum = i := by
  have h : (setSlot s c ip).inode c = ip := update_self ..
  exact ⟨fun ha => ⟨h ▸ ha.ref_pos,h ▸ ha.inum⟩,fun ha => ⟨h.symm ▸ ha.1,h.symm ▸ ha.2⟩⟩

theorem Wf.goes_setSlot (h : Wf sb s) (ip : Inode) (hc : ∀ j, At s c j → j = i)
    (hno : ∀ c', c' ≠ c → ¬ At s c' i) (hi : ip.inum = i)
    (hf : 0 < ip.ref → ip.valid = true → ip.din = s.dinode i ∧ ip.din.type ≠ .free)
    (hidle : ip.ref = 0 → ip.locked = false) :
    Goes sb s (setSlot s c ip) ((Fs.abs s).setCache i
      (if ip.ref = 0 then Cached.none else ⟨ip.ref, ip.locked, ip.valid⟩)) := by
  have hself : (setSlot s c ip).inode c = ip := update_self ..
  have hne : ∀ c', c' ≠ c → (setSlot s c ip).inode c' = s.inode c' := fun c' hc' =>
    update_of_ne hc' _ _
  have hcache : Fs.cached (setSlot s c ip) = update (Fs.cached s) i
      (if ip.ref = 0 then Cached.none else ⟨ip.ref,ip.locked,ip.valid⟩) := by
    funext j
    by_cases hj : j = i
    · subst hj
      rw [update_self]
      split
      · next h0 =>
        apply cached_of_not_at
        intro c' hc'
        by_cases hcc : c' = c
        · subst hcc
          have := (setSlot_at_self.mp hc').1
          omega
        · exact hno c' hcc ((setSlot_at_of_ne hcc).mp hc')
      · next h0 =>
        have hat : At (setSlot s c ip) c j := setSlot_at_self.mpr ⟨by omega,hi⟩
        rw [cached_of_unique hat,hself]
        intro c' hc'
        by_contra hcc
        exact hno c' hcc ((setSlot_at_of_ne hcc).mp hc')
    · rw [update_of_ne hj]
      have hslot : slotOf (setSlot s c ip) j = slotOf s j := by
        apply slotOf_congr
        intro c'
        by_cases hcc : c' = c
        · subst hcc
          rw [setSlot_at_self]
          refine iff_of_false (fun hat => hj (hat.2.symm.trans hi)) fun hat => hj (hc j hat)
        · exact setSlot_at_of_ne hcc
      rw [Fs.cached,Fs.cached,hslot]
      cases hs : slotOf s j with
      | none => rfl
      | some c' =>
        have hcc : c' ≠ c := by
          rintro rfl
          exact hj (hc j (at_of_slotOf hs))
        simp only [hne c' hcc]
  refine ⟨⟨h.disk,?_,?_,?_,?_⟩,?_,Abs.ext rfl hcache⟩
  · refine Slots.unique_change (P := fun x => 0 < x.ref) (k := Inode.inum) h.uniq hne ?_
    rw [hself,hi]
    exact fun _ c' hcc hr he => hno c' hcc ⟨hr,he⟩
  · refine (forall_update_iff s.inode fun _ x => 0 < x.ref → x.valid = true →
      x.din = s.dinode x.inum).mpr ⟨fun hr hv => ?_,fun c' _ => h.flushed c'⟩
    rw [hi]
    exact (hf hr hv).1
  · exact (forall_update_iff s.inode fun _ x => 0 < x.ref → x.valid = true →
      x.din.type ≠ .free).mpr ⟨fun hr hv => (hf hr hv).2,fun c' _ => h.valid_type c'⟩
  · exact (forall_update_iff s.inode fun _ x => x.ref = 0 → x.locked = false).mpr
      ⟨hidle,fun c' _ => h.idle c'⟩
  intro c' j hat hpos
  by_cases hcc : c' = c
  · subst hcc
    obtain rfl := hc j hat
    rw [hcache,update_self] at hpos
    refine setSlot_at_self.mpr ⟨?_,hi⟩
    by_contra h0
    rw [if_pos (by omega)] at hpos
    exact absurd hpos (by decide)
  · exact (setSlot_at_of_ne hcc).mpr hat

theorem Wf.goes_setSlot_at (h : Wf sb s) (hc : At s c i) (ip : Inode) (hi : ip.inum = i)
    (hf : 0 < ip.ref → ip.valid = true → ip.din = s.dinode i ∧ ip.din.type ≠ .free)
    (hidle : ip.ref = 0 → ip.locked = false) :
    Goes sb s (setSlot s c ip) ((Fs.abs s).setCache i
      (if ip.ref = 0 then Cached.none else ⟨ip.ref, ip.locked, ip.valid⟩)) := by
  refine h.goes_setSlot ip (fun j hj => hj.inum.symm.trans hc.inum) (fun c' hcc hc' => hcc ?_) hi hf
    hidle
  exact h.uniq c' c hc'.ref_pos hc.ref_pos (hc'.inum.trans hc.inum.symm)

theorem Wf.copy_ok (h : Wf sb s) (hc : At s c i) (hv : (s.inode c).valid = true) :
    (s.inode c).din = s.dinode i ∧ (s.inode c).din.type ≠ .free :=
  ⟨h.din hc hv,h.valid_type c hc.ref_pos hv⟩

theorem wp_setInode {f : Inode → Inode} {Q : Unit → State → Prop} :
    wp E (setInode c f) s Q ↔ Q () (setSlot s c (f (s.inode c))) := Iff.rfl

theorem Wf.goes_get (h : Wf sb s) (hc : At s c i) :
    Goes sb s (setSlot s c { s.inode c with ref := (s.inode c).ref + 1 }) ((Fs.abs s).get i) := by
  have hgoes := h.goes_setSlot_at hc { s.inode c with ref := (s.inode c).ref + 1 }
    hc.inum (fun _ hv => h.copy_ok hc hv) (fun h0 => by simp at h0)
  have hget : (Fs.abs s).get i = (Fs.abs s).setCache i
      ⟨(s.inode c).ref + 1,(s.inode c).locked,(s.inode c).valid⟩ := by
    have hcache : (Fs.abs s).cache i = _ := h.cached_eq hc
    rw [Abs.get,hcache]
  rw [hget]
  simpa using hgoes

theorem wp_idup (h : Wf sb s) (hc : At s c i) :
    wp E (idup c) s fun r t => r = c ∧ At t c i ∧ Goes sb s t ((Fs.abs s).get i) := by
  rw [idup,wp_bind,wp_setInode]
  have hg := h.goes_get hc
  refine ⟨rfl,hg.at hc ?_,hg⟩
  simp [Abs.get,Abs.setCache]

theorem wp_iget (hE : (∀ c, (s.inode c).ref ≠ 0) → E (.panic "iget: no inodes"))
    (h : Wf sb s) (i : ℕ) : wp E (iget i) s fun c t => t.bitmap = s.bitmap ∧ At t c i ∧
      Goes sb s t ((Fs.abs s).get i) := by
  rw [iget,wp_bind,wp_read]
  split
  · next c hfind =>
    have hc : At s c i := at_of_slotOf hfind
    rw [wp_bind,wp_setInode]
    have hg := h.goes_get hc
    refine ⟨rfl,hg.at hc ?_,hg⟩
    simp [Abs.get,Abs.setCache]
  · next hfind =>
    have hno : ∀ c', ¬ At s c' i := fun c' => not_at_of_slotOf hfind
    rw [wp_bind,wp_read]
    split
    · next c hempty =>
      have h0 : (s.inode c).ref = 0 := by simpa using List.find?_some hempty
      rw [wp_bind,wp_setInode]
      refine ⟨rfl,setSlot_at_self.mpr ⟨Nat.one_pos,rfl⟩,?_⟩
      have hgoes := h.goes_setSlot { s.inode c with inum := i, ref := 1, valid := false }
        (fun j (hj : At s c j) => absurd hj.ref_pos (by omega)) (fun c' _ => hno c') rfl
        (fun _ hv => by simp at hv) (fun h1 => by simp at h1)
      have hget : (Fs.abs s).get i = (Fs.abs s).setCache i ⟨1,(s.inode c).locked,false⟩ := by
        have hcache : (Fs.abs s).cache i = Cached.none := cached_of_not_at hno
        rw [Abs.get,hcache,h.idle c h0]
        rfl
      rw [hget]
      simpa using hgoes
    · next hfull =>
      refine hE fun c hc => ?_
      have := List.find?_eq_none.mp hfull c (List.mem_finRange c)
      simp [hc] at this

theorem wp_acquiresleep {Q : Unit → State → Prop}
    (hE : (s.inode c).locked = true → E .blocked)
    (hQ : (s.inode c).locked = false → Q () (setSlot s c { s.inode c with locked := true })) :
    wp E (acquiresleep c) s Q := by
  rw [acquiresleep,wp_bind,wp_read]
  refine wp_ite hE fun hl => ?_
  exact hQ (by simpa using hl)

theorem wp_ilock (hblocked : (cached s i).locked = true → E .blocked)
    (htype : (node s i).type = .free → E (.panic "ilock: no type")) (h : Wf sb s) (hc : At s c i) :
    wp E (ilock c) s fun _ t => (cached s i).locked = false ∧ (node s i).type ≠ .free ∧
      At t c i ∧ Goes sb s t ((Fs.abs s).lock i) ∧ ∃ x, t = setSlot s c x := by
  have hcache := h.cached_eq hc
  have hpos := hc.ref_pos
  have hlock : (Fs.abs s).lock i = (Fs.abs s).setCache i ⟨(s.inode c).ref,true,true⟩ := by
    have hcache : (Fs.abs s).cache i = _ := hcache
    rw [Abs.lock,hcache]
  rw [ilock,wp_bind,wp_read,if_neg (by omega),wp_bind]
  refine wp_acquiresleep (by rw [hcache] at hblocked; exact hblocked) fun hl => ?_
  have hself : (setSlot s c { s.inode c with locked := true }).inode c =
      { s.inode c with locked := true } := update_self ..
  rw [wp_bind,wp_read,hself]
  refine wp_ite (fun hv => ?_) fun hv => ?_
  · have hgoes := h.goes_setSlot_at hc { s.inode c with locked := true } hc.inum
      (fun _ hv => h.copy_ok hc hv) (fun h0 => by simp at h0; omega)
    have hv : (s.inode c).valid = true := hv
    refine ⟨by rw [hcache,hl],by rw [node_type]; exact h.alloc hc hv,
      setSlot_at_self.mpr ⟨hpos,hc.inum⟩,?_,_,rfl⟩
    rw [hlock]
    simpa [hv,Nat.ne_of_gt hpos] using hgoes
  rw [iread,wp_bind,wp_read,wp_bind,wp_setInode,hself]
  have hd : (setSlot s c { s.inode c with locked := true }).dinode (s.inode c).inum =
      s.dinode i := by rw [hc.inum]; rfl
  simp only [hd]
  refine wp_ite (fun hfree => ?_) fun halloc => ?_
  · exact htype (by rw [node_type]; exact hfree)
  have hslot : setSlot (setSlot s c { s.inode c with locked := true }) c
      { s.inode c with locked := true, valid := true, din := s.dinode i } =
      setSlot s c { s.inode c with locked := true, valid := true, din := s.dinode i } := by
    simp [setSlot]
  have hgoes := h.goes_setSlot_at hc
    { s.inode c with locked := true, valid := true, din := s.dinode i } hc.inum
    (fun _ _ => ⟨rfl,halloc⟩) (fun h0 => by simp at h0; omega)
  rw [wp_pure,hslot]
  refine ⟨by rw [hcache,hl],by rw [node_type]; exact halloc,
    setSlot_at_self.mpr ⟨hpos,hc.inum⟩,?_,_,rfl⟩
  rw [hlock]
  simpa [Nat.ne_of_gt hpos] using hgoes

theorem wp_iunlock (hE : (cached s i).locked = false → E (.panic "iunlock"))
    (h : Wf sb s) (hc : At s c i) :
    wp E (iunlock c) s fun _ t => (cached s i).locked = true ∧ At t c i ∧
      Goes sb s t ((Fs.abs s).unlock i) ∧ ∃ x, t = setSlot s c x := by
  have hcache := h.cached_eq hc
  have hpos := hc.ref_pos
  rw [iunlock,wp_bind,wp_read]
  refine wp_ite (fun hl => hE ?_) fun hl => ?_
  · rw [hcache]
    simpa [Nat.not_lt.mpr hpos] using hl
  rw [releasesleep,wp_setInode]
  have hgoes := h.goes_setSlot_at hc { s.inode c with locked := false } hc.inum
    (fun _ hv => h.copy_ok hc hv) (fun _ => rfl)
  have hunlock : (Fs.abs s).unlock i =
      (Fs.abs s).setCache i ⟨(s.inode c).ref,false,(s.inode c).valid⟩ := by
    have hcache : (Fs.abs s).cache i = _ := hcache
    rw [Abs.unlock,hcache]
  refine ⟨?_,setSlot_at_self.mpr ⟨hpos,hc.inum⟩,?_,_,rfl⟩
  · rw [hcache]
    simp only [Bool.or_eq_true,decide_eq_true_eq,not_or,Bool.not_eq_true'] at hl
    simpa using hl.1
  · rw [hunlock]
    simpa [Nat.ne_of_gt hpos] using hgoes

theorem keep_of_cacheEq (h : CacheEq s t) : Keep s t := by
  intro c i hc _
  exact ⟨by rw [h.ref]; exact hc.ref_pos,by rw [h.inum]; exact hc.inum⟩

theorem CacheEq.refl (s : State) : CacheEq s s :=
  ⟨fun _ => rfl,fun _ => rfl,fun _ => rfl,fun _ => rfl⟩

theorem wp_setFields {f : Dinode → Dinode} (h : Wf sb s) (hc : At s c i)
    (hv : (cached s i).valid = true) (htype : ∀ d, (f d).type = d.type)
    (hsize : ∀ d, (f d).size = d.size) (haddrs : ∀ d, (f d).addrs = d.addrs) :
    wp E (do setDin c f; iupdate c) s fun _ t => At t c i ∧ ∃ x : Node,
      x = { node s i with
        major := (f (s.dinode i)).major
        minor := (f (s.dinode i)).minor
        nlink := (f (s.dinode i)).nlink } ∧ Goes sb s t ((Fs.abs s).setNode i x) := by
  rw [h.cached_eq hc] at hv
  have hal := h.alloc hc hv
  have hal' : (f (s.dinode i)).type ≠ .free := by rw [htype]; exact hal
  rw [wp_setDin_iupdate,hc.inum,h.din hc hv]
  have hplace : placeAddr (update s.dinode i (f (s.dinode i))) s.block =
      placeAddr s.dinode s.block := by
    apply placeAddr_congr
    · intro j
      by_cases hj : j = i
      · subst hj; rw [update_self,haddrs]
      · rw [update_of_ne hj]
    · intro j
      by_cases hj : j = i
      · subst hj; rw [update_self,htype]
      · rw [update_of_ne hj]
  have haddrAt : ∀ k, addrAt (f (s.dinode i)) s.block k = addrAt (s.dinode i) s.block k := by
    intro k
    simp only [addrAt,haddrs]
  have hdisk : DiskOk sb (update s.dinode i (f (s.dinode i))) s.block s.bitmap := by
    refine ⟨by rw [Owns,hplace]; exact h.disk.owns,fun j hj => ?_,fun j hj => ?_⟩
    · by_cases hji : j = i
      · subst hji
        have hok := h.disk.inode_ok j hal
        rw [update_self]
        refine ⟨by rw [hsize]; exact hok.size_le,fun n hn => ?_⟩
        rw [haddrAt]
        exact hok.dense n (by rw [← hsize]; exact hn)
      · rw [update_of_ne hji] at hj ⊢
        exact h.disk.inode_ok j hj
    · have hji : j ≠ i := by
        rintro rfl
        exact hal (h.disk.beyond j hj)
      rw [update_of_ne hji]
      exact h.disk.beyond j hj
  have hce := (CacheEq.refl s).store c i (f (s.dinode i))
  refine ⟨⟨by rw [hce.ref]; exact hc.ref_pos,by rw [hce.inum]; exact hc.inum⟩,_,rfl,
    h.store hc (CacheEq.refl s) (fun _ _ => rfl) rfl hal' hdisk,keep_of_cacheEq hce,
    Abs.ext ?_ (cached_congr hce)⟩
  funext j
  show node (store s c i (f (s.dinode i))) j = update (node s) i _ j
  by_cases hj : j = i
  · subst hj
    rw [update_self,node_of_alloc hal,node]
    show nodeOf (update s.dinode j (f (s.dinode j)) j) s.block = _
    rw [update_self,nodeOf,if_neg hal',htype,hsize]
    congr 1
    funext o
    simp only [byteAt,haddrAt]
  · rw [update_of_ne hj,node,node]
    show nodeOf (update s.dinode i (f (s.dinode i)) j) s.block = _
    rw [update_of_ne hj]

theorem wp_writei_node {src : List UInt8}
    (hE : off ≤ (node s i).size → off + src.length ≤ MAXFILE * BSIZE →
      freeBlocks sb s < holes (s.dinode i) s.block (places off src.length) →
      E (.panic "balloc: out of blocks")) (h : Wf sb s) (hc : At s c i)
    (hv : (cached s i).valid = true) (hdev : (node s i).type ≠ .dev) (hoff : off < 2 ^ 32)
    (hn : src.length < 2 ^ 32) :
    wp E (writei sb c src off) s fun r t => At t c i ∧
      if (node s i).size < off ∨ 2 ^ 32 ≤ off + src.length ∨ MAXFILE * BSIZE < off + src.length
      then r = none ∧ t = s
      else r = some src.length ∧
        Goes sb s t ((Fs.abs s).setNode i ((node s i).write off src)) ∧
        Fills sb (places off src.length) s t (s.dinode i) (t.dinode i) := by
  rw [h.cached_eq hc] at hv
  refine (wp_writei h hc hv hE hdev hoff hn).mono ?_
  rintro r t ⟨hwf,hce,-,hres⟩
  refine ⟨⟨by rw [hce.ref]; exact hc.ref_pos,by rw [hce.inum]; exact hc.inum⟩,?_⟩
  split
  · next hcond => rwa [if_pos hcond] at hres
  · next hcond =>
    rw [if_neg hcond] at hres
    exact ⟨hres.1,⟨hwf,keep_of_cacheEq hce,Abs.ext hres.2.1 (cached_congr hce)⟩,hres.2.2⟩

theorem wp_readi_node (h : Wf sb s) (hc : At s c i)
    (hv : (cached s i).valid = true) (hdev : (node s i).type ≠ .dev) (hoff : off < 2 ^ 32)
    (hn : n < 2 ^ 32) :
    wp E (readi sb c off n) s fun r t => t = s ∧
      r = if (node s i).size < off ∨ 2 ^ 32 ≤ off + n then none
        else some ((node s i).bytes off (min n ((node s i).size - off))) := by
  rw [h.cached_eq hc] at hv
  exact wp_readi h hc hv hdev hoff hn

/-- The slot is given up and the inode freed on the disk. -/
theorem Wf.goes_free (h : Wf sb s) (hc : At s c i) (bm : ℕ → Bool) (d : Dinode) (ip : Inode)
    (hfree : d.type = .free)
    (hown : Owns sb (update s.dinode i d) s.block bm) (hi : ip.inum = i) (h0 : ip.ref = 0)
    (hl : ip.locked = false)
    (ht : t = { setSlot s c ip with bitmap := bm, dinode := update s.dinode i d }) :
    Goes sb s t (((Fs.abs s).setNode i Node.none).setCache i Cached.none) := by
  have hg := h.goes_setSlot_at hc ip hi (fun hr => absurd hr (by omega)) fun _ => hl
  rw [if_pos h0] at hg
  have hno : ∀ c', ¬ At (setSlot s c ip) c' i := by
    intro c' hc'
    have hrefs := hg.wf.cached_eq hc'
    rw [hg.cached,show ((Fs.abs s).setCache i Cached.none).cache i = Cached.none from
      update_self ..] at hrefs
    exact hc'.ref_pos.ne (congrArg Cached.refs hrefs)
  subst ht
  set D := update s.dinode i d with hD
  have hdi : D i = d := update_self ..
  have hdinode : ∀ j, j ≠ i → D j = s.dinode j := fun j hj => update_of_ne hj _ _
  refine ⟨⟨⟨hown,fun j hj => ?_,fun j hj => ?_⟩,hg.wf.uniq,fun c' hr hv => ?_,hg.wf.valid_type,
    hg.wf.idle⟩,fun c' j hc' hpos => ?_,Abs.ext ?_ hg.cached⟩
  · change (D j).type ≠ .free at hj
    have hji : j ≠ i := by
      rintro rfl
      rw [hdi] at hj
      exact hj hfree
    rw [hdinode j hji] at hj
    change InodeOk (D j) s.block
    rw [hdinode j hji]
    exact h.disk.inode_ok j hj
  · change (D j).type = .free
    by_cases hji : j = i
    · rw [hji,hdi]
      exact hfree
    · rw [hdinode j hji]
      exact h.disk.beyond j hj
  · change _ = D _
    rw [hdinode _ fun e => hno c' ⟨hr,e⟩]
    exact hg.wf.flushed c' hr hv
  · obtain ⟨hr,he⟩ := hg.keep c' j hc' hpos
    exact ⟨hr,he⟩
  · funext j
    show nodeOf (D j) s.block = update (node s) i Node.none j
    by_cases hj : j = i
    · subst hj
      rw [update_self,hdi,nodeOf,if_pos hfree]
    · rw [update_of_ne hj,node,hdinode j hj]

/-- `iput` gives the reference back. It frees an inode without links when no other reference is
left, and then all its blocks. -/
theorem wp_iput (hE : (cached s i).locked = true → E .blocked) (h : Wf sb s) (hc : At s c i) :
    wp E (iput c) s fun _ t => (cached s i).locked = false ∧ Goes sb s t ((Fs.abs s).put i) := by
  have hcache := h.cached_eq hc
  have hcache' : (Fs.abs s).cache i = _ := hcache
  have hpos := hc.ref_pos
  rw [iput,wp_bind]
  refine wp_acquiresleep (by rw [hcache] at hE; exact hE) fun hl => ?_
  set s₁ := setSlot s c { s.inode c with locked := true } with hs1
  have hself : s₁.inode c = { s.inode c with locked := true } := update_self ..
  have hg1 : Goes sb s s₁ _ := h.goes_setSlot_at hc { s.inode c with locked := true }
    hc.inum (fun _ hv => h.copy_ok hc hv) (fun h0 => by simp at h0; omega)
  have hc₁ : At s₁ c i := setSlot_at_self.mpr ⟨hpos,hc.inum⟩
  rw [wp_bind,ifree,wp_bind,wp_read,hself]
  refine wp_ite (fun hlast => ?_) fun hlast => ?_
  · obtain ⟨hv,hn,hr⟩ := hlast
    have hv : (s.inode c).valid = true := hv
    have hLast : (Fs.abs s).Last i := by
      refine ⟨by rw [hcache']; exact hv,?_,by rw [hcache']; exact hr⟩
      show (node s i).nlink = 0
      rw [node_of_alloc (h.alloc hc hv),← h.din hc hv]
      exact hn
    rw [Abs.put,if_pos hLast]
    refine (wp_itrunc hg1.wf hc₁ (by rw [hself]; exact hv)).bind ?_
    rintro - _ ⟨a,bm,ha,rfl,hown⟩
    refine wp.bind_bind (wp_setDin_iupdate.mpr ?_) fun _ _ hv => hv
    rw [wp_setInode,releasesleep,wp_bind,wp_setInode,wp_setInode]
    refine ⟨by rw [hcache,hl],?_⟩
    refine h.goes_free hc bm { s.dinode i with size := 0, addrs := a, type := .free }
      { s.inode c with
        ref := (s.inode c).ref - 1
        locked := false
        valid := false
        din := { s.dinode i with size := 0, addrs := a, type := .free } }
      rfl ?_ hc.inum (by show (s.inode c).ref - 1 = 0; have : (s.inode c).ref = 1 := hr; omega) rfl ?_
    · have : Owns sb (update s.dinode i { s.dinode i with size := 0, addrs := a }) s.block
          bm := hown
      rw [Owns,placeAddr_update_of_zero _ { s.dinode i with size := 0, addrs := a } ha ha]
      exact this
    · simp [setSlot,store,hs1,hc.inum]
  rw [wp_pure,releasesleep,wp_bind,wp_setInode,hself,wp_setInode]
  have hLast : ¬ (Fs.abs s).Last i := by
    rintro ⟨hv,hn,hr⟩
    rw [hcache'] at hv hr
    apply hlast
    refine ⟨hv,?_,hr⟩
    have hn : (node s i).nlink = 0 := hn
    rw [node_of_alloc (h.alloc hc hv),← h.din hc hv] at hn
    exact hn
  rw [Abs.put,if_neg hLast]
  have hgoes := h.goes_setSlot_at hc
    { s.inode c with ref := (s.inode c).ref - 1, locked := false } hc.inum
    (fun _ hv => h.copy_ok hc hv) (fun _ => rfl)
  have hslot : setSlot (setSlot s₁ c { s.inode c with locked := false }) c
      { s.inode c with ref := (s.inode c).ref - 1, locked := false } =
      setSlot s c { s.inode c with ref := (s.inode c).ref - 1, locked := false } := by
    simp [setSlot,hs1]
  have hself2 : (setSlot s₁ c { s.inode c with locked := false }).inode c =
      { s.inode c with locked := false } := update_self ..
  have hdrop : (Fs.abs s).drop i = (Fs.abs s).setCache i
      (if (s.inode c).ref - 1 = 0 then Cached.none
        else ⟨(s.inode c).ref - 1,false,(s.inode c).valid⟩) := by
    rw [Abs.drop,hcache',hl]
    congr 1
    simp only [Nat.sub_eq_zero_iff_le]
  refine ⟨by rw [hcache,hl],?_⟩
  rw [hdrop]
  simp only [hself2,hslot]
  exact hgoes

/-- An inode just allocated. -/
def Node.fresh (type : FType) : Node := ⟨type, 0, 0, 0, 0, fun _ => 0⟩

/-- The inode that `ialloc` takes. -/
def freeInode (sb : Superblock) (N : ℕ → Node) : Option ℕ :=
  (List.range sb.ninodes).find? fun i => 1 ≤ i && (N i).type = .free

theorem wp_ialloc {type : FType} (hE : E (.panic "iget: no inodes"))
    (hE' : E (.panic "ialloc: no inodes")) (h : Wf sb s) (htype : type ≠ .free) :
    wp E (ialloc sb type) s fun c t => ∃ i, 0 < i ∧ i < sb.ninodes ∧ (node s i).type = .free ∧
      freeInode sb (node s) = some i ∧ At t c i ∧ Goes sb s t (((Fs.abs s).setNode i (Node.fresh type)).get i) := by
  rw [ialloc,wp_bind,wp_read]
  split
  · next i hfind =>
    have hmem := List.mem_range.mp (List.mem_of_find?_eq_some hfind)
    have hsome := List.find?_some hfind
    simp only [Bool.and_eq_true,decide_eq_true_eq] at hsome
    obtain ⟨hpos,hfree⟩ := hsome
    set s₁ : State := { s with dinode := update s.dinode i (Dinode.fresh type) } with hs1
    have hdinode : ∀ j, j ≠ i → s₁.dinode j = s.dinode j := fun j hj =>
      update_of_ne hj _ _
    have hdi : s₁.dinode i = Dinode.fresh type := update_self ..
    have hnotvalid : ∀ c, 0 < (s.inode c).ref → (s.inode c).valid = true →
        (s.inode c).inum ≠ i := by
      rintro c hr hv rfl
      exact h.valid_type c hr hv (by rw [h.flushed c hr hv]; exact hfree)
    have hwf : Wf sb s₁ := by
      refine ⟨h.disk.alloc hmem hfree rfl rfl,h.uniq,fun c hr hv => ?_,h.valid_type,h.idle⟩
      rw [hdinode _ (hnotvalid c hr hv)]
      exact h.flushed c hr hv
    have habs : Fs.abs s₁ = (Fs.abs s).setNode i (Node.fresh type) := by
      refine Abs.ext ?_ rfl
      funext j
      show node s₁ j = update (node s) i (Node.fresh type) j
      by_cases hj : j = i
      · subst hj
        rw [update_self,node,hdi,nodeOf,if_neg (show (Dinode.fresh type).type ≠ _ from htype)]
        simp [Node.fresh,Dinode.fresh]
      · rw [update_of_ne hj,node,node,hdinode j hj]
    rw [wp_bind,wp_modify]
    refine (wp_iget (fun _ => hE) hwf i).mono ?_
    rintro c t ⟨-,hat,hg⟩
    rw [habs] at hg
    refine ⟨i,hpos,hmem,by rw [node_type]; exact hfree,
      by simpa only [freeInode,node_type] using hfind,hat,hg.wf,fun c' j hc' hj => ?_,hg.abs⟩
    exact hg.keep c' j ⟨hc'.ref_pos,hc'.inum⟩ hj
  · exact hE'

end Xv6Container.Fs
