import Xv6Container.Fs.Effects

/-! # Directories that only grow -/

namespace Xv6Container.Fs

variable {d i j k w : ℕ} {T : Tree} {N N' : ℕ → Node}
  {name m : Name} {names : List Name} {type : FType} {major minor : Int16} {path : Path}

/-- What a lookup finds in `N` it finds in `N'`. -/
def Grows (N N' : ℕ → Node) : Prop :=
  ∀ d, (N d).type = .dir → (N' d).type = .dir ∧ ∀ name k, (N d).find name = some k →
    ∃ k', (N' d).find name = some k' ∧ ((N' d).dirent k').inum = ((N d).dirent k).inum

theorem Grows.refl (N : ℕ → Node) : Grows N N := fun _ hd => ⟨hd,fun _ k hk => ⟨k,hk,rfl⟩⟩

theorem Grows.walk (h : Grows N N') (hw : walk N i names = some j) : walk N' i names = some j := by
  induction names generalizing i with
  | nil => exact hw
  | cons name rest ih =>
    rw [Fs.walk] at hw ⊢
    split at hw
    · next hdir =>
      obtain ⟨hdir',hfind⟩ := h i hdir
      rw [if_pos hdir']
      split at hw
      · next k hk =>
        obtain ⟨k',hk',hinum⟩ := hfind name k hk
        rw [hk']
        simp only [hinum]
        exact ih hw
      · exact absurd hw (by simp)
    · exact absurd hw (by simp)

theorem Grows.walkParent {r : ℕ × Name} (h : Grows N N') (hw : walkParent N i names = some r) :
    walkParent N' i names = some r := by
  induction names generalizing i with
  | nil => exact hw
  | cons name rest ih =>
    rw [Fs.walkParent] at hw ⊢
    split at hw
    · next hdir =>
      obtain ⟨hdir',hfind⟩ := h i hdir
      rw [if_pos hdir']
      split at hw
      · next hlast => rw [if_pos hlast]; exact hw
      · next hlast =>
        rw [if_neg hlast]
        split at hw
        · next k hk =>
          obtain ⟨k',hk',hinum⟩ := hfind name k hk
          rw [hk']
          simp only [hinum]
          exact ih hw
        · exact absurd hw (by simp)
    · exact absurd hw (by simp)

theorem walk_of_walkParent {o : Option ℕ} (hw : walkParent N i names = some (d, name))
    (hk : (N d).find name = o) : walk N i names = o.map fun k => ((N d).dirent k).inum := by
  induction names generalizing i with
  | nil => exact absurd hw (by simp [walkParent])
  | cons m rest ih =>
    rw [walkParent] at hw
    rw [walk]
    split at hw
    · next hdir =>
      rw [if_pos hdir]
      split at hw
      · next hlast =>
        obtain ⟨rfl,rfl⟩ := Prod.mk.inj (Option.some.inj hw)
        rw [hk,hlast]
        cases o with
        | none | some k => rfl
      · split at hw
        · exact ih hw
        · exact absurd hw (by simp)
    · exact absurd hw (by simp)

theorem grows_of_addEntry (hi : i < 2 ^ 16) (hfind : (N d).find name = none)
    (hd : ∀ m, (N' d).type = (N d).type ∧ (N' d).find m = ((N d).addEntry name i).find m)
    (hent : ∀ k, (N' d).dirent k = ((N d).addEntry name i).dirent k)
    (hne : ∀ e, e ≠ d → (N e).type = .dir → N' e = N e) : Grows N N' := by
  intro e he
  by_cases hed : e = d
  · subst hed
    refine ⟨(hd name).1.trans he,fun m k hk => ⟨k,?_,?_⟩⟩
    · have hmn : name ≠ m := by
        rintro rfl
        rw [hfind] at hk
        exact absurd hk (by simp)
      rw [(hd m).2,Node.find_addEntry_of_ne hi hmn]
      exact hk
    · obtain ⟨hlt,h0,-,-⟩ := Node.find_eq_some.mp hk
      rw [hent,Node.dirent_addEntry_of_ne (Node.ne_freeSlot hlt h0)]
  · rw [hne e hed he]
    exact ⟨he,fun m k hk => ⟨k,hk,rfl⟩⟩

namespace Tree

theorem create_node_parent : (T.create d name i type major minor).node d =
    (if type = .dir then (T.node d).addLinks 1 else T.node d).addEntry name i := setNode_self _

theorem create_node_new (h : i ≠ d) : (T.create d name i type major minor).node i =
    Node.new type major minor i d := by
  rw [create,setNode_of_ne _ h,setNode_self]

theorem create_node_of_ne (hd : j ≠ d) (hi : j ≠ i) :
    (T.create d name i type major minor).node j = T.node j := by
  rw [create,setNode_of_ne _ hd,setNode_of_ne _ hi]

theorem create_grows (hi : i < 2 ^ 16) (hfree : (T.node i).type = .free)
    (hfind : (T.node d).find name = none) :
    Grows T.node (T.create d name i type major minor).node := by
  have hD : ∀ y : Node, (if type = .dir then y.addLinks 1 else y).addEntry name i =
      if type = .dir then (y.addEntry name i).addLinks 1 else y.addEntry name i := by
    intro y
    split <;> rfl
  refine grows_of_addEntry hi hfind (fun m => ?_) (fun k => ?_) fun e hed hdir => ?_
  · rw [create_node_parent,hD]
    split
    · exact ⟨rfl,rfl⟩
    · exact ⟨rfl,rfl⟩
  · rw [create_node_parent,hD]
    split
    · rfl
    · rfl
  · refine create_node_of_ne hed ?_
    rintro rfl
    rw [hfree] at hdir
    exact absurd hdir (by decide)

theorem create_resolve (h0 : 0 < i) (hi : i < 2 ^ 16) (hfree : (T.node i).type = .free)
    (hp : resolveParent T.node w path = some (d, name)) (hfind : (T.node d).find name = none)
    (htype : type ≠ .dir) : resolve (T.create d name i type major minor).node w path = some i := by
  have hgrows : Grows T.node (T.create d name i type major minor).node :=
    create_grows hi hfree hfind
  have hd : (T.create d name i type major minor).node d = (T.node d).addEntry name i := by
    rw [create_node_parent,if_neg htype]
  have hk : ((T.create d name i type major minor).node d).find name = some (T.node d).freeSlot := by
    rw [hd]
    exact Node.find_addEntry_self hi h0.ne' hfind
  have hw := walk_of_walkParent (hgrows.walkParent hp) hk
  rw [Option.map_some,hd,Node.dirent_addEntry_self hi] at hw
  exact hw

/-- A walk ends at the new file if its last step takes the new entry, or if it ended at this inode
before. -/
theorem create_walk_iff {a : ℕ} (h0 : 0 < i) (hi : i < 2 ^ 16) (hfree : (T.node i).type = .free)
    (hdir : (T.node d).type = .dir) (hfind : (T.node d).find name = none) :
    walk (T.create d name i .file major minor).node a names = some i ↔
      walk T.node a names = some i ∨ walkParent T.node a names = some (d, name) := by
  have hid : i ≠ d := by
    rintro rfl
    rw [hfree] at hdir
    cases hdir
  have hnew : ((T.create d name i .file major minor).node i).type ≠ .dir := by
    rw [create_node_new hid,Node.new_type]
    decide
  have hd : (T.create d name i .file major minor).node d = (T.node d).addEntry name i := by
    rw [create_node_parent,if_neg (by decide)]
  induction names generalizing a with
  | nil => simp [walk,walkParent]
  | cons m rest ih =>
    by_cases hai : a = i
    · subst hai
      simp only [walk,walkParent,if_neg hnew,hfree,reduceCtorEq,if_false,or_self]
    by_cases had : a = d
    · subst had
      have hdir' : ((T.create a name i .file major minor).node a).type = .dir := by
        rw [hd]
        exact hdir
      by_cases hm : name = m
      · -- the new entry, which leads on to nothing
        subst hm
        simp only [walk,walkParent,if_pos hdir,if_pos hdir',hfind]
        rw [hd,Node.find_addEntry_self hi h0.ne' hfind]
        simp only [Node.dirent_addEntry_self hi]
        cases rest with
        | nil => simp [walk]
        | cons m' rest => simp [walk,hnew]
      simp only [walk,walkParent,if_pos hdir,if_pos hdir']
      rw [hd,Node.find_addEntry_of_ne hi hm]
      cases hk : (T.node a).find m with
      | none =>
        simp only [reduceCtorEq,false_or,false_iff]
        split
        · exact fun he => hm (Prod.mk.inj (Option.some.inj he)).2.symm
        · simp
      | some k =>
        obtain ⟨hlt,hne,-,-⟩ := Node.find_eq_some.mp hk
        simp only [Node.dirent_addEntry_of_ne (Node.ne_freeSlot hlt hne)]
        cases rest with
        | nil => simp [walk,Ne.symm hm]
        | cons m' rest => simpa using ih
    · rw [walk,walk,walkParent,create_node_of_ne had hai]
      split
      · cases hk : (T.node a).find m with
        | none =>
          simp only [reduceCtorEq,false_or,false_iff]
          split
          · exact fun he => had (Prod.mk.inj (Option.some.inj he)).1
          · simp
        | some k =>
          cases rest with
          | nil => simp [walk,had]
          | cons m' rest => simpa using ih
      · simp

end Tree

end Xv6Container.Fs
