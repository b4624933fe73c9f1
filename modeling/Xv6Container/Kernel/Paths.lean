import Xv6Container.Kernel.Removed

/-! # Path resolution -/

namespace Xv6Container.Fs

open Prog List

variable {sb : Superblock} {s : State} {T : Tree} {H : Set (ISlot × ℕ)} {N : ℕ → Node} {c : ISlot}
  {i w : ℕ}

/-- The parts of a path between slashes that are not empty. -/
def components (path : Path) : List Path := (path.splitOn slash).filter (· ≠ [])

theorem components_dropWhile (path : Path) :
    components (path.dropWhile (· = slash)) = components path := by
  induction path with
  | nil => rfl
  | cons b path ih =>
    by_cases hb : b = slash
    · rw [hb,dropWhile_cons_of_pos (by decide),ih,components,components,List.splitOn,
        List.splitOn,splitOnP_cons_eq_if_modifyHead,if_pos (by decide)]
      rfl
    · rw [dropWhile_cons_of_neg (by simpa using hb)]

theorem components_eq_cons {path : Path} (h : path.takeWhile (· ≠ slash) ≠ []) :
    components path = path.takeWhile (· ≠ slash) :: components (path.dropWhile (· ≠ slash)) := by
  have hword : ∀ b ∈ path.takeWhile (· ≠ slash), (b == slash) = false := by
    intro b hb
    simpa using mem_takeWhile_imp hb
  have hsplit := takeWhile_append_dropWhile (p := (· ≠ slash)) (l := path)
  set word := path.takeWhile (· ≠ slash)
  cases hrest : path.dropWhile (· ≠ slash) with
  | nil =>
    rw [hrest,append_nil] at hsplit
    rw [components,List.splitOn,← hsplit,splitOnP_eq_singleton hword]
    simp [h,components,List.splitOn]
  | cons b rest =>
    have hb : b = slash := by
      have := head_dropWhile_not (p := (· ≠ slash)) (l := path) (by rw [hrest]; nofun)
      simp only [hrest,head_cons] at this
      simpa using this
    rw [hrest,hb] at hsplit
    rw [hb,← hsplit,components,List.splitOn,
      splitOnP_append_cons_of_forall_mem hword slash (by decide),components,List.splitOn,
      splitOnP_cons_eq_if_modifyHead,if_pos (by decide)]
    simp [h]

theorem elementsFrom_eq {fuel : ℕ} {path : Path} (h : path.length ≤ fuel) :
    elementsFrom fuel path = (components path).map Name.ofBytes := by
  induction fuel generalizing path with
  | zero =>
    rw [List.length_eq_zero_iff.mp (Nat.le_zero.mp h)]
    rfl
  | succ fuel ih =>
    rw [elementsFrom,skipelem,← components_dropWhile]
    have hle := (path.dropWhile_suffix (· = slash)).length_le
    cases hp : path.dropWhile (· = slash) with
    | nil => simp [components,List.splitOn]
    | cons b rest =>
      have hb : b ≠ slash := by
        have := head_dropWhile_not (p := (· = slash)) (l := path) (by simp [hp])
        simpa [hp] using this
      have hword : (b :: rest).takeWhile (· ≠ slash) ≠ [] := by simp [hb]
      have hlen : (((b :: rest).dropWhile (· ≠ slash)).dropWhile (· = slash)).length ≤ fuel := by
        rw [dropWhile_cons_of_pos (by simpa using hb)]
        have h1 := ((rest.dropWhile (· ≠ slash)).dropWhile_suffix (· = slash)).length_le
        have h2 := (rest.dropWhile_suffix (· ≠ slash)).length_le
        rw [hp,length_cons] at hle
        omega
      simp only [reduceCtorEq,if_false]
      rw [ih hlen,components_dropWhile,components_eq_cons hword,map_cons]

theorem elements_eq (path : Path) : elements path = (components path).map Name.ofBytes :=
  elementsFrom_eq le_rfl

/-- What `skipelem` leaves in the buffer `name` for the element `s`. -/
def fillName (name s : List UInt8) : List UInt8 :=
  if DIRSIZ ≤ s.length then s.take DIRSIZ ++ name.drop DIRSIZ
  else s ++ 0 :: name.drop (s.length + 1)

theorem ofBytes_fillName (name s : List UInt8) : Name.ofBytes (fillName name s) = Name.ofBytes s := by
  have hbytes : ((fillName name s).take DIRSIZ).takeWhile (· ≠ 0) =
      (s.take DIRSIZ).takeWhile (· ≠ 0) := by
    rw [fillName]
    split
    · next hlen => rw [take_append_of_le_length (by simp [hlen]),take_take,min_self]
    · next hlen =>
      obtain ⟨n,hn⟩ : ∃ n, DIRSIZ-s.length = n+1 := ⟨DIRSIZ - s.length - 1,by omega⟩
      rw [take_append,take_of_length_le (by omega),hn,take_succ_cons,takeWhile_append]
      split
      · next hall =>
        rw [takeWhile_cons_of_neg (by decide),append_nil]
        exact (( takeWhile_prefix _).eq_of_length hall).symm
      · rfl
  simp only [Name.ofBytes,hbytes]

/-- One step down the tree. -/
def lookup (N : ℕ → Node) (i : ℕ) (name : Name) : Option ℕ :=
  if (N i).type = .dir then ((N i).find name).map fun k => ((N i).dirent k).inum else none

theorem walk_eq (names : List Name) : walk N i names = names.foldlM (lookup N) i := by
  induction names generalizing i with
  | nil => rfl
  | cons name rest ih =>
    rw [walk,foldlM_cons,lookup]
    split
    · cases (N i).find name with
      | none => rfl
      | some k => exact ih
    · rfl

theorem walkParent_eq (names : List Name) :
    walkParent N i names = names.getLast?.bind fun last =>
      (names.dropLast.foldlM (lookup N) i).bind fun d =>
        if (N d).type = .dir then some (d, last) else none := by
  induction names generalizing i with
  | nil => rfl
  | cons name rest ih =>
    rw [walkParent]
    cases rest with
    | nil => rfl
    | cons name' rest =>
      rw [getLast?_cons_cons,dropLast_cons_of_ne_nil (by simp),foldlM_cons,lookup]
      split
      · rw [if_neg (by simp)]
        cases (N i).find name with
        | none => rfl
        | some k => exact ih
      · rfl

/-- Where two entries of the cache are not in use, `namei` returns the inode that the components of
the path lead to, and `nameiparent` the directory of the last one, with that one; if there is none
both fail, and then all counts are as before. -/
theorem namei_componentwise (h : Rep sb s T ∅ H) (hcl : T.Closed)
    (hdirs : ∀ d, (T.node d).type = .dir → 16 ∣ (T.node d).size) (hroom : T.Room 2)
    (hcwd : (c, w) ∈ H) (path : Path) :
    wp (fun _ => False) (namei sb (some c) path) s (fun r t =>
      match ((components path).map Name.ofBytes).foldlM (lookup T.node) (start w path) with
      | some j => ∃ c', r = some c' ∧ Rep sb t (T.get j) ∅ (insert (c', j) H)
      | none => r = none ∧ Rep sb t T ∅ H) ∧
    wp (fun _ => False) (nameiparent sb (some c) path) s (fun r t =>
      match (((components path).map Name.ofBytes).getLast?.bind fun last =>
        (((components path).map Name.ofBytes).dropLast.foldlM (lookup T.node) (start w path)).bind
          fun d => if (T.node d).type = .dir then some (d, last) else none) with
      | some (d, last) => ∃ c', r = some (c', last) ∧ Rep sb t (T.get d) ∅ (insert (c', d) H)
      | none => r = none ∧ Rep sb t T ∅ H) ∧
    ∀ e ∈ components path, ∀ name, Name.ofBytes (fillName name e) = Name.ofBytes e := by
  have hcalm : Calm (fun _ => False) T 2 := ⟨.inr hroom,.inr hdirs⟩
  have hwild : some c = none → False := nofun
  have hat : ∀ c', some c = some c' → (c', w) ∈ H := fun c' hc' => Option.some.inj hc' ▸ hcwd
  refine ⟨?_,?_,fun e _ name => ofBytes_fillName name e⟩
  · rw [← elements_eq,← walk_eq]
    refine (h.namei hcalm hwild hat (fun _ => hcl) path).mono ?_
    rintro r t (⟨rfl,hj,ht⟩ | ⟨c',j,rfl,hj,ht⟩)
    · rw [show walk T.node _ _ = none from hj]
      exact ⟨rfl,ht⟩
    · rw [show walk T.node _ _ = some j from hj]
      exact ⟨c',rfl,ht⟩
  · rw [← elements_eq,← walkParent_eq]
    refine (h.nameiparent hcalm hwild hat (fun _ => hcl) path).mono ?_
    rintro r t (⟨rfl,hj,ht⟩ | ⟨c',d,last,rfl,hj,ht⟩)
    · rw [show walkParent T.node _ _ = none from hj]
      exact ⟨rfl,ht⟩
    · rw [show walkParent T.node _ _ = some (d, last) from hj]
      exact ⟨c',rfl,ht⟩

theorem dirs_mkfs (d : ℕ) (hd : (node mkfs d).type = .dir) : 16 ∣ (node mkfs d).size := by
  by_cases hroot : d = ROOTINO
  · subst hroot
    decide
  · rw [node_type,show mkfs.dinode d = .fresh .free from if_neg hroot] at hd
    cases hd

theorem room_boot : (treeOf (Kernel.boot mkfs).fs).Room 2 := by
  refine ⟨{ROOTINO},fun i hi => ?_,by decide⟩
  obtain ⟨c,hc⟩ := exists_at hi
  exact Finset.mem_singleton.mpr (Kernel.at_boot.mp hc).2

theorem cwd_boot : (Kernel.rootSlot, ROOTINO) ∈
    Kernel.held (Kernel.boot mkfs) (Kernel.boot mkfs).viewOf [] :=
  .inr (.inr ⟨initproc,rfl,rfl⟩)

/-- For the first process `/..` is the root directory. -/
theorem namei_componentwise_mkfs : ∃ c t, namei .mkfs (some Kernel.rootSlot) [slash, 46, 46]
    (Kernel.boot mkfs).fs = .ok (some c, t) ∧ At t c ROOTINO := by
  obtain ⟨r,t,hrun,hpost⟩ := (namei_componentwise Kernel.goodDisk_mkfs.krep.rep
    (Kernel.kept_boot Kernel.goodDisk_mkfs Kernel.linked_mkfs.1).closed dirs_mkfs room_boot cwd_boot
    [slash,46,46]).1.returns
  have hfind : ((components [slash,46,46]).map Name.ofBytes).foldlM
      (lookup (treeOf (Kernel.boot mkfs).fs).node) (start ROOTINO [slash,46,46]) =
      some ROOTINO := by decide +kernel
  rw [hfind] at hpost
  obtain ⟨c,rfl,ht⟩ := hpost
  exact ⟨c,t,hrun,ht.slot (Set.mem_insert _ _)⟩

def fiftyFiles (i : ℕ) : Dinode :=
  if 2 ≤ i ∧ i < 52 then { Dinode.fresh .file with nlink := 1 } else mkfs.dinode i

/-- All of them are in use, and so is the whole cache. -/
def crowded : State :=
  { mkfs with
    dinode := fiftyFiles
    inode := fun c => ⟨c + 2, 1, false, false, Dinode.fresh .free⟩ }

theorem diskOk_fiftyFiles : DiskOk .mkfs fiftyFiles mkfs.block mkfs.bitmap := by
  have hplace : placeAddr fiftyFiles mkfs.block = placeAddr mkfs.dinode mkfs.block := by
    funext p
    by_cases hp : 2 ≤ p.1 ∧ p.1 < 52
    · have hfree : mkfs.dinode p.1 = .fresh .free := if_neg (by change p.1 ≠ 1; omega)
      simp [placeAddr,fiftyFiles,hp,hfree,addrAt,Dinode.fresh]
    · simp only [placeAddr,fiftyFiles,if_neg hp]
  refine ⟨by rw [Owns,hplace]; exact diskOk_mkfs.owns,fun i hi => ?_,fun i hi => ?_⟩
  · by_cases h : 2 ≤ i ∧ i < 52
    · rw [fiftyFiles,if_pos h]
      exact ⟨Nat.zero_le _,fun n hn => absurd hn (Nat.not_lt_zero _)⟩
    · rw [fiftyFiles,if_neg h] at hi ⊢
      exact diskOk_mkfs.inode_ok i hi
  · have hge : 200 ≤ i := hi
    rw [fiftyFiles,if_neg (by omega)]
    exact diskOk_mkfs.beyond i hi

theorem node_crowded (i : ℕ) : (node crowded i).type = .free ∨ i = ROOTINO ∨
    (node crowded i).type = .file ∧ (node crowded i).nlink = 1 := by
  by_cases h : 2 ≤ i ∧ i < 52
  · have hnode : crowded.dinode i = { Dinode.fresh .file with nlink := 1 } := if_pos h
    refine .inr (.inr ?_)
    rw [node_of_alloc (by rw [hnode]; decide),hnode]
    exact ⟨rfl,rfl⟩
  · by_cases hroot : i = ROOTINO
    · exact .inr (.inl hroot)
    · left
      rw [node_type,show crowded.dinode i = mkfs.dinode i from if_neg h,
        show mkfs.dinode i = .fresh .free from if_neg hroot]
      rfl

/-- With the cache full of other files, even the root directory cannot be looked up. -/
theorem namei_panics_in_crowded : Rep .mkfs crowded (treeOf crowded) ∅ ∅ ∧
    (treeOf crowded).Closed ∧
    (∀ d, (node crowded d).type = .dir → 16 ∣ (node crowded d).size) ∧
    reason (namei .mkfs none [slash]) crowded = some (.panic "iget: no inodes") := by
  have hdir : ∀ d, (node crowded d).type = .dir → d = ROOTINO := by
    intro d hd
    rcases node_crowded d with h | h | h
    · rw [h] at hd
      cases hd
    · exact h
    · rw [h.1] at hd
      cases hd
  have hcached : ∀ i, (cached crowded i).locked = false := by
    intro i
    rw [cached]
    cases slotOf crowded i with
    | none => rfl
    | some c => rfl
  refine ⟨⟨⟨diskOk_fiftyFiles,fun c c' _ _ heq => ?_,fun c _ hv => Bool.noConfusion hv,
    fun c _ hv => Bool.noConfusion hv,fun c _ => rfl⟩,rfl,fun _ => rfl,fun i => ?_,fun i hi => ?_,
    fun c i hi => False.elim hi⟩,⟨fun d k he => ?_,?_,fun i hi => ?_⟩,fun d hd => ?_,?_⟩
  · have hinum : c.val + 2 = c'.val + 2 := heq
    exact Fin.ext (by omega)
  · simp [hcached]
  · rcases hi with hi | ⟨hal,hlink⟩
    · cases hi
    · rcases node_crowded i with h | h | h
      · exact absurd h hal
      · subst h
        exact absurd hlink (by decide)
      · exact absurd (h.2.symm.trans hlink) (by decide)
  · obtain rfl := hdir d he.dir
    have hentry : ∀ k < 32, ((node crowded ROOTINO).dirent k).inum ≠ 0 →
        ((node crowded ROOTINO).dirent k).inum = ROOTINO := by decide +kernel
    rw [show ((treeOf crowded).node ROOTINO).dirent k = (node crowded ROOTINO).dirent k from rfl,
      hentry k he.lt he.used]
    decide
  · decide
  · obtain ⟨c,hc⟩ := exists_at hi
    have hnode : crowded.dinode i = { Dinode.fresh .file with nlink := 1 } := by
      refine if_pos ?_
      have hinum : c.val + 2 = i := hc.inum
      have : c.val < 50 := c.isLt
      omega
    change (node crowded i).type ≠ .free
    rw [node_type,hnode]
    decide
  · obtain rfl := hdir d hd
    decide
  · decide +kernel

end Xv6Container.Fs
