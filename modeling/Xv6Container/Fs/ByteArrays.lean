import Xv6Container.Mkfs.Mount

/-! # Files in terms of return values -/

namespace Xv6Container.Fs

open Prog

variable {sb : Superblock} {s : State} {c : ISlot} {i off n : ℕ} {src : List UInt8}

/-- Where `writei` returns -1: past the end, around 2^32, or beyond the largest file. -/
def BadWrite (x : Node) (off n : ℕ) : Prop :=
  x.size < off ∨ 2 ^ 32 ≤ off + n ∨ MAXFILE * BSIZE < off + n

theorem writei_bad (h : Wf sb s) (hc : At s c i) (hv : (s.inode c).valid = true)
    (hdev : (node s i).type ≠ .dev) (hoff : off < 2 ^ 32) (hn : src.length < 2 ^ 32)
    (hbad : BadWrite (node s i) off src.length) : writei sb c src off s = .ok (none, s) := by
  have hal := h.alloc hc hv
  have hdin := h.din hc hv
  have hsize : (node s i).size = (s.dinode i).size := by rw [node_of_alloc hal]
  rw [BadWrite,hsize] at hbad
  rw [node_type] at hdev
  have hwrap : (off+src.length) % 2 ^ 32 < off ↔ 2 ^ 32 ≤ off+src.length := by omega
  rw [writei,bind_of_ok (a := s.dinode i) (by rw [Prog.read,hdin]),if_neg hdev]
  by_cases hfirst : off > (s.dinode i).size ∨ (off+src.length) % 2 ^ 32 < off
  · rw [if_pos hfirst]
    rfl
  · rw [if_neg hfirst,if_pos]
    · rfl
    · rw [hwrap] at hfirst
      rw [Nat.mod_eq_of_lt (by omega)]
      omega

/-- On a well-formed file system `writei` replaces bytes of one file, or returns -1 and does
nothing, or finds no free block; `readi` returns bytes of the file and changes nothing. -/
theorem files_refine_byte_arrays (h : Wf sb s) (hc : At s c i)
    (hv : (s.inode c).valid = true) (htype : (node s i).type = .file ∨ (node s i).type = .dir)
    (hoff : off < 2 ^ 32) (hsrc : src.length < 2 ^ 32) (hn : n < 2 ^ 32) :
    (BadWrite (node s i) off src.length → writei sb c src off s = .ok (none, s)) ∧
    (¬ BadWrite (node s i) off src.length →
      wp (· = .panic "balloc: out of blocks") (writei sb c src off) s fun r t =>
        r = some src.length ∧ Wf sb t ∧
          node t = Function.update (node s) i ((node s i).write off src)) ∧
    readi sb c off n s =
      .ok (if (node s i).size < off ∨ 2 ^ 32 ≤ off + n then none
        else some ((node s i).bytes off (min n ((node s i).size - off))), s) := by
  have hdev : (node s i).type ≠ .dev := by
    rcases htype with ht | ht
    · rw [ht]
      decide
    · rw [ht]
      decide
  refine ⟨writei_bad h hc hv hdev hoff hsrc,fun hgood => ?_,?_⟩
  · apply (wp_writei (E := (· = .panic "balloc: out of blocks")) h hc hv (fun _ _ _ => rfl) hdev hoff
      hsrc).mono
    rintro r t ⟨hwf,-,-,hres⟩
    rw [BadWrite] at hgood
    rw [if_neg hgood] at hres
    exact ⟨hres.1,hwf,hres.2.1⟩
  · have hread := wp_readi (E := fun _ => False) h hc hv hdev hoff hn
    obtain ⟨r,t,hr,rfl,rfl⟩ := hread.returns
    exact hr

/-- A file of three bytes on an image of mkfs. -/
theorem files_refine_byte_arrays_threeBytes :
    ∃ s c, Wf .mkfs s ∧ At s c 2 ∧ (s.inode c).valid = true ∧ (node s 2).type = .file ∧
      writei .mkfs c [4] 5 s = .ok (none, s) ∧ readi .mkfs c 0 9 s = .ok (some [1, 2, 3], s) := by
  obtain ⟨m,hb,-⟩ := Mkfs.main_returns Mkfs.fits_threeBytes
  have hfile : Mkfs.nodes m 2 = Mkfs.nodeWith .file [1,2,3] := hb.file 0 Mkfs.threeBytes rfl
  have hal : (Mkfs.dinodes m 2).type ≠ .free := by
    rw [(Mkfs.dinode_of_node hfile (by decide)).1]
    decide
  set s := Mkfs.view m 2 (Mkfs.dinodes m 2) with hs
  have hnode : node s 2 = Mkfs.nodeWith .file [1,2,3] := hfile
  have hat : At s Mkfs.slot 2 := by
    rw [hs]
    exact ⟨by rw [Mkfs.view_slot]; exact Nat.one_pos,by rw [Mkfs.view_slot]⟩
  have hvalid : (s.inode Mkfs.slot).valid = true := by rw [hs,Mkfs.view_slot]
  have htype : (node s 2).type = .file := by rw [hnode]; rfl
  have hwf : Wf .mkfs s := hb.good.wf hal
  obtain ⟨hbad,-,-⟩ := @files_refine_byte_arrays .mkfs s Mkfs.slot 2 5 0 [4] hwf hat hvalid
    (.inl htype) (by decide) (by decide) (by decide)
  obtain ⟨-,-,hread⟩ := @files_refine_byte_arrays .mkfs s Mkfs.slot 2 0 9 [] hwf hat hvalid
    (.inl htype) (by decide) (by decide) (by decide)
  rw [hnode] at hbad hread
  exact ⟨s,Mkfs.slot,hwf,hat,hvalid,htype,hbad (.inl (by decide)),hread⟩

end Xv6Container.Fs
