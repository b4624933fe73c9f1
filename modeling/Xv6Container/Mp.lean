import Xv6Container.Lib.Loop

/-!
# The multiprocessor table

`mp.c` looks for the configuration table of the firmware and walks through its entries.
-/

namespace Xv6Container.Mp

/-- Memory, by kernel address. -/
abbrev Memory := UInt32 → UInt8

def NCPU : ℕ := 8

def P2V (a : UInt32) : UInt32 := a + 0x80000000

def ushort (m : Memory) (a : UInt32) : UInt32 := (m (a + 1)).toUInt32 <<< 8 ||| (m a).toUInt32

def uint (m : Memory) (a : UInt32) : UInt32 := ushort m (a + 2) <<< 16 ||| ushort m a

/-- `memcmp` of the bytes at an address finds no difference. -/
def same (m : Memory) : UInt32 → List UInt8 → Bool
  | _, [] => true
  | a, c :: cs => m a == c && same m (a + 1) cs

def sum (m : Memory) (addr : UInt32) : ℕ → UInt8
  | 0 => 0
  | len + 1 => m addr + sum m (addr + 1) len

/-- The loop of `mpsearch1`, over the 16-byte paragraphs that are left. -/
def mpsearchLoop (m : Memory) : ℕ → UInt32 → Option UInt32
  | 0, _ => none
  | n + 1, p =>
    if same m p [0x5F, 0x4D, 0x50, 0x5F] ∧ sum m p 16 = 0 then some p  -- "_MP_"
    else mpsearchLoop m n (p + 16)

def mpsearch1 (m : Memory) (a : UInt32) (len : ℕ) : Option UInt32 :=
  mpsearchLoop m (len / 16) (P2V a)

def mpsearch (m : Memory) : Option UInt32 :=
  let bda := P2V 0x400
  let p := ushort m (bda + 0x0E) <<< 4
  let base := if p ≠ 0 then p else ushort m (bda + 0x13) * 1024 - 1024
  (mpsearch1 m base 1024).or (mpsearch1 m 0xF0000 0x10000)

/-- The floating pointer and the configuration table, if one passes the tests. -/
def mpconfig (m : Memory) : Option (UInt32 × UInt32) :=
  (mpsearch m).bind fun mp =>
    let conf := P2V (uint m (mp + 4))
    if uint m (mp + 4) = 0 then none
    else if ¬ same m conf [0x50, 0x43, 0x4D, 0x50] then none  -- "PCMP"
    else if m (conf + 6) ≠ 1 ∧ m (conf + 6) ≠ 4 then none
    else if sum m conf (ushort m (conf + 4)).toNat ≠ 0 then none
    else some (mp, conf)

/-- The cursor of the walk and what it has found: `cpus` lists the local APIC ids of the first
`ncpu` processors, and `imcr` says that the external interrupts were masked at the end. -/
structure Scan where
  p : UInt32
  lapic : UInt32
  cpus : List UInt8 := []
  ioapicid : UInt8 := 0
  ismp : Bool := true
  imcr : Bool := false

def MPPROC : UInt8 := 0

def MPBUS : UInt8 := 1

def MPIOAPIC : UInt8 := 2

def MPIOINTR : UInt8 := 3

def MPLINTR : UInt8 := 4

/-- One pass of the entry loop. The `break` of the default case only leaves the switch. -/
def entry (m : Memory) (s : Scan) : Scan :=
  let t := m s.p
  if t = MPPROC then
    { s with
      cpus := if s.cpus.length < NCPU then s.cpus ++ [m (s.p + 1)] else s.cpus
      p := s.p + 20 }
  else if t = MPIOAPIC then { s with ioapicid := m (s.p + 1), p := s.p + 8 }
  else if t = MPBUS ∨ t = MPIOINTR ∨ t = MPLINTR then { s with p := s.p + 8 }
  else { s with ismp := false }

/-- The end of a configuration table. -/
def limit (m : Memory) (conf : UInt32) : UInt32 := conf + ushort m (conf + 4)

/-- `mpinit` with fuel for its entry loop: `none` is a loop that still runs, an error a panic. -/
def mpinit (m : Memory) (fuel : ℕ) : Option (Except String Scan) :=
  match mpconfig m with
  | none => some (.error "Expect to run on an SMP")
  | some (mp, conf) =>
    let start : Scan := { p := conf + 44, lapic := uint m (conf + 36) }
    (seek (entry m) (fun s => ¬ s.p < limit m conf) fuel start).map fun s =>
      if s.ismp then .ok { s with imcr := m (mp + 12) ≠ 0 }
      else .error "Didn't find a suitable machine"

/-- How far the cursor moves over an entry of a known type. -/
def size (t : UInt8) : UInt32 := if t = MPPROC then 20 else 8

/-- Entries of known types lead from an address to the end of the table. -/
inductive Entries (m : Memory) (e : UInt32) : UInt32 → Prop
  | done {p : UInt32} (hp : ¬ p < e) : Entries m e p
  | entry {p : UInt32} (hp : p < e) (ht : m p ≤ MPLINTR) (hrest : Entries m e (p + size (m p))) :
    Entries m e p

variable {m : Memory} {s r : Scan} {e : UInt32} {n : ℕ}

theorem known_iff (t : UInt8) : t ≤ MPLINTR ↔
    t = MPPROC ∨ t = MPIOAPIC ∨ t = MPBUS ∨ t = MPIOINTR ∨ t = MPLINTR := by
  simp only [UInt8.le_iff_toNat_le,← UInt8.toNat_inj]
  change t.toNat ≤ 4 ↔ t.toNat = 0 ∨ t.toNat = 2 ∨ t.toNat = 1 ∨ t.toNat = 3 ∨ t.toNat = 4
  omega

theorem entry_known (ht : m s.p ≤ MPLINTR) : (entry m s).p = s.p + size (m s.p) := by
  dsimp only [entry,size]
  split_ifs with hproc _ hio hother
  any_goals rfl
  exact absurd ((known_iff _).mp ht) (not_or.mpr ⟨hproc,not_or.mpr ⟨hio,hother⟩⟩)

theorem entry_unknown (ht : ¬ m s.p ≤ MPLINTR) : entry m s = { s with ismp := false } := by
  rw [known_iff,not_or,not_or] at ht
  dsimp only [entry]
  rw [if_neg ht.1,if_neg ht.2.1,if_neg ht.2.2]

theorem entry_ncpu (hs : s.cpus.length ≤ NCPU) : (entry m s).cpus.length ≤ NCPU := by
  dsimp only [entry]
  split_ifs with _ hlt
  · rw [List.length_append]
    exact hlt
  all_goals exact hs

/-- An entry of an unknown type holds the cursor for ever. -/
theorem seek_unknown (hp : s.p < e) (ht : ¬ m s.p ≤ MPLINTR) :
    seek (entry m) (fun s => ¬ s.p < e) n s = none := by
  induction n generalizing s with
  | zero => rfl
  | succ n ih =>
    rw [seek,if_neg (by simpa using hp),entry_unknown ht]
    exact ih hp ht

theorem entries_of_seek (h : seek (entry m) (fun s => ¬ s.p < e) n s = some r) :
    Entries m e s.p := by
  induction n generalizing s with
  | zero => cases h
  | succ n ih =>
    by_cases hp : s.p < e
    · by_cases ht : m s.p ≤ MPLINTR
      · rw [seek,if_neg (by simpa using hp)] at h
        have hrest := ih h
        rw [entry_known ht] at hrest
        exact .entry hp ht hrest
      · rw [seek_unknown hp ht] at h
        cases h
    · exact .done hp

theorem Entries.seek {p : UInt32} (h : Entries m e p) (hp : s.p = p) (hs : s.cpus.length ≤ NCPU) :
    ∃ n r, seek (Mp.entry m) (fun s => ¬ s.p < e) n s = some r ∧ ¬ r.p < e ∧
      r.cpus.length ≤ NCPU := by
  induction h generalizing s with
  | done hlt =>
    subst hp
    exact ⟨1,s,if_pos (by simpa using hlt),hlt,hs⟩
  | entry hlt ht _ ih =>
    subst hp
    obtain ⟨n,r,hseek,hr⟩ := ih (entry_known ht) (entry_ncpu hs)
    refine ⟨n+1,r,?_,hr⟩
    rw [Xv6Container.seek,if_neg (by simpa using hlt)]
    exact hseek

/-- The walk went to the end of the table with no more processors than there is room for, or ended
in the panic of the unknown entry type. -/
def Finished (e : UInt32) : Except String Scan → Prop
  | .ok s => ¬ s.p < e ∧ s.cpus.length ≤ NCPU
  | .error msg => msg = "Didn't find a suitable machine"

/-- On a table that passes the tests, the walk ends just if entries of known types lead to the end
of the table. -/
theorem mpinit_ends_iff (m : Memory) (mp conf : UInt32) (h : mpconfig m = some (mp, conf)) :
    (∃ n r, mpinit m n = some r ∧ Finished (limit m conf) r) ↔
      Entries m (limit m conf) (conf + 44) := by
  simp only [mpinit,h]
  constructor
  · rintro ⟨n,r,hr,-⟩
    obtain ⟨s,hseek,-⟩ := Option.map_eq_some_iff.mp hr
    exact entries_of_seek hseek
  intro hent
  obtain ⟨n,s,hseek,hend⟩ := hent.seek (s := ⟨_,uint m (conf + 36),[],0,true,false⟩) rfl
    (Nat.zero_le _)
  refine ⟨n,_,by rw [hseek]; rfl,?_⟩
  dsimp only
  split_ifs
  · exact hend
  · rfl

/-- Floating pointer at `0x410`, table at `0x420`, with one entry of the given type. -/
def oneEntry (t : UInt8) : Memory := fun a =>
  ([0, 0, 0, 0, 0, 0, 0, 0, 0, 0, 0, 0, 0, 0, 0x41, 0,
    0x5F, 0x4D, 0x50, 0x5F, 0x20, 4, 0, 0, 1, 4, 0x7C, 0, 0, 0, 0, 0,
    0x50, 0x43, 0x4D, 0x50, 45, 0, 4, 0xC0 - t, 0, 0, 0, 0, 0, 0, 0, 0, 0, 0, 0, 0, 0, 0, 0, 0,
    0, 0, 0, 0, 0, 0, 0, 0, 0, 0, 1, 0, 0, 0, 0xE0, 0xFE, 0, 0, 0, 0, t] : List UInt8).getD
    (a - 0x80000400).toNat 0

theorem mpinit_ends_iff_bus : mpconfig (oneEntry 1) = some (0x80000410, 0x80000420) ∧
    ∃ n r, mpinit (oneEntry 1) n = some r ∧ Finished (limit (oneEntry 1) 0x80000420) r :=
  ⟨by decide +kernel,(mpinit_ends_iff _ 0x80000410 _ (by decide +kernel)).mpr
    (.entry (by decide +kernel) (by decide +kernel) (.done (by decide +kernel)))⟩

theorem mpinit_loops_on_unknown : mpconfig (oneEntry 5) = some (0x80000410, 0x80000420) ∧
    ∀ n, mpinit (oneEntry 5) n = none := by
  have hconf : mpconfig (oneEntry 5) = some (0x80000410, 0x80000420) := by decide +kernel
  refine ⟨hconf,fun n => ?_⟩
  simp only [mpinit,hconf]
  rw [seek_unknown (by decide +kernel) (by decide +kernel)]
  rfl

end Xv6Container.Mp
