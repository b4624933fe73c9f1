import Xv6Container.Fs.Content
import Xv6Container.Fs.Dir

/-!
# The first disk

The file system as `mkfs` writes it: the superblock, and the root directory with its
entries for itself.
-/

namespace Xv6Container.Fs

abbrev FSSIZE : ℕ := 1000

abbrev NINODES : ℕ := 200

/-- `nmeta`: boot block and superblock, the log, the inodes, and the bitmap. -/
abbrev nmeta : ℕ := 2 + LOGSIZE + (NINODES / IPB + 1) + (FSSIZE / BPB + 1)

def Superblock.mkfs : Superblock where
  size := FSSIZE
  nblocks := FSSIZE - nmeta
  ninodes := NINODES
  nblocks_lt := by decide
  size_lt := by decide
  root_lt := by decide
  ninodes_le := by decide

/-- The block of the root directory: `"."` and `".."`, then free entries. -/
def rootBlock : Block BSIZE :=
  (Block.zero.patch 0 (Dirent.encode ⟨ROOTINO, Name.dot⟩)).patch 16
    (Dirent.encode ⟨ROOTINO, Name.dotdot⟩)

/-- The disk that `mkfs` writes when it is given no files. The first data block holds the root
directory, whose size is rounded up. Nothing is in the inode cache. -/
def mkfs : State where
  dinode := fun i =>
    if i = ROOTINO then ⟨.dir, 0, 0, 1, BSIZE, fun j => if j = 0 then nmeta else 0⟩
    else Dinode.fresh .free
  bitmap := fun b => b < nmeta + 1
  block := fun b => if b = nmeta then rootBlock else Block.zero
  inode := fun _ => ⟨0, 0, false, false, Dinode.fresh .free⟩
  input := []

theorem placeAddr_mkfs (p : ℕ × ℕ) :
    placeAddr mkfs.dinode mkfs.block p = if p = (ROOTINO, 0) then nmeta else 0 := by
  obtain ⟨i,k⟩ := p
  by_cases hi : i = ROOTINO
  · subst hi
    have hroot : mkfs.dinode ROOTINO =
        ⟨.dir,0,0,1,BSIZE,fun j => if j = 0 then nmeta else 0⟩ := rfl
    have haddr : addrAt (mkfs.dinode ROOTINO) mkfs.block k = if k = 0 then nmeta else 0 := by
      rw [hroot,addrAt]
      split
      · rfl
      · rw [if_pos (by decide),if_neg (by omega)]
    rw [placeAddr,haddr]
    by_cases hk : k = 0
    · rw [if_pos (by rw [hroot,hk]; decide),if_pos hk,if_pos (by rw [hk])]
    · rw [if_neg hk,ite_self,if_neg (by simpa using hk)]
  · have hfree : mkfs.dinode i = Dinode.fresh .free := if_neg hi
    rw [placeAddr,if_neg,if_neg]
    · exact fun he => hi (congrArg Prod.fst he)
    · rw [hfree]
      exact fun h => h.1 rfl

theorem diskOk_mkfs : DiskOk .mkfs mkfs.dinode mkfs.block mkfs.bitmap := by
  refine ⟨⟨?_,?_,?_,?_,?_⟩,?_,?_⟩
  · intro p q hp hpq
    simp only [placeAddr_mkfs] at hp hpq
    have hroot : p = (ROOTINO, 0) := by
      by_contra hne
      exact hp (if_neg hne)
    rw [if_pos hroot] at hpq
    by_contra hne
    rw [if_neg fun hq => hne (hroot.trans hq.symm)] at hpq
    cases hpq
  · intro p hp
    simp only [placeAddr_mkfs] at hp ⊢
    split at hp
    · rw [if_pos ‹_›]
      decide
    · exact absurd rfl hp
  · intro p hp
    simp only [placeAddr_mkfs] at hp ⊢
    split at hp
    · rw [if_pos ‹_›]
      decide
    · exact absurd rfl hp
  · intro b hlo _ hb
    refine ⟨(ROOTINO, 0),?_⟩
    rw [placeAddr_mkfs,if_pos rfl]
    have hlt : b < nmeta+1 := of_decide_eq_true hb
    have hle : nmeta ≤ b := hlo
    omega
  · intro b hb
    have hlt : b < nmeta := hb
    exact decide_eq_true (by omega : b < nmeta+1)
  · intro i hi
    have hroot : i = ROOTINO := by
      by_contra hne
      exact hi (by rw [show mkfs.dinode i = Dinode.fresh .free from if_neg hne]; rfl)
    subst hroot
    refine ⟨by decide,fun n hn => ?_⟩
    have h0 : n = 0 := by
      have : n * 512 < 512 := hn
      omega
    subst h0
    decide
  · intro i hi
    have hne : i ≠ ROOTINO := by
      have hle : 200 ≤ i := hi
      change i ≠ 1
      omega
    rw [show mkfs.dinode i = Dinode.fresh .free from if_neg hne]
    rfl

end Xv6Container.Fs
