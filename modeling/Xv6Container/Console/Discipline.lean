import Xv6Container.Console.Model
import Xv6Container.Lib.Ring

/-! # The line discipline -/

namespace Xv6Container.Console

open List
open Option (some.inj)

variable {input : Input} {t t' : Tty} {c : UInt8}

/-- The bytes from `r` on, `n` of them. -/
def Input.ring (input : Input) (n : ℕ) : List UInt8 :=
  Ring.contents input.buf INPUT_BUF (input.r.toNat % INPUT_BUF) n

/-- The ring holds what has been typed and not been read. -/
structure Rep (input : Input) (t : Tty) : Prop where
  taken : t.log.length ≤ t.kept.length
  ready : (input.w - input.r).toNat = t.kept.length - t.log.length
  bound : (input.e - input.r).toNat ≤ INPUT_BUF
  typed : input.ring (input.e - input.r).toNat = t.kept.drop t.log.length ++ t.line
  line : newline ∉ t.line

theorem Rep.count (h : Rep input t) :
    (input.e-input.r).toNat + t.log.length = t.kept.length+t.line.length := by
  have hlen := congrArg List.length h.typed
  rw [Input.ring,Ring.length_contents,length_append,length_drop] at hlen
  have := h.taken
  omega

theorem Rep.ready_le (h : Rep input t) : (input.w-input.r).toNat ≤ (input.e-input.r).toNat := by
  have := h.count
  have := h.taken
  rw [h.ready]
  omega

theorem Rep.edit_count (h : Rep input t) : (input.e-input.w).toNat = t.line.length := by
  have hcount := h.count
  have hready := h.ready
  have := h.taken
  have := h.bound
  have hr := input.r.toNat_lt
  have hw := input.w.toNat_lt
  have he := input.e.toNat_lt
  rw [UInt32.toNat_sub] at hcount hready ⊢
  omega

theorem Rep.e_eq_w_iff (h : Rep input t) : input.e = input.w ↔ t.line = [] := by
  have hcount := h.edit_count
  rw [← length_eq_zero_iff,← hcount]
  constructor
  · intro heq
    rw [heq,UInt32.sub_self]
    rfl
  · intro hzero
    have hr := input.e.toNat_lt
    have hw := input.w.toNat_lt
    rw [UInt32.toNat_sub] at hzero
    apply UInt32.toNat_inj.mp
    omega

theorem Rep.r_eq_w_iff (h : Rep input t) : input.r = input.w ↔ t.kept[t.log.length]? = none := by
  have hready := h.ready
  rw [List.getElem?_eq_none_iff]
  constructor
  · intro heq
    rw [heq,UInt32.sub_self] at hready
    change 0 = _ at hready
    omega
  · intro hle
    have hr := input.r.toNat_lt
    have hw := input.w.toNat_lt
    rw [UInt32.toNat_sub] at hready
    apply UInt32.toNat_inj.mp
    omega

theorem Rep.last (h : Rep input t) {l : List UInt8} {b : UInt8} (hl : t.line = l ++ [b]) :
    input.buf ((input.e-1).toNat % INPUT_BUF) = b ∧
      Rep { input with e := input.e - 1 } { t with line := l } := by
  have hcount := h.count
  have htyped := h.typed
  have hbound := h.bound
  have htaken := h.taken
  have hready := h.ready
  have hr := input.r.toNat_lt
  have hw := input.w.toNat_lt
  have he := input.e.toNat_lt
  rw [hl,length_append,length_singleton] at hcount
  obtain ⟨n,hn⟩ : ∃ n, (input.e-input.r).toNat = n+1 := ⟨_,(Nat.succ_pred (by omega)).symm⟩
  have hpred : (input.e - 1 - input.r).toNat = n := by
    rw [UInt32.toNat_sub] at hn
    rw [UInt32.toNat_sub,UInt32.toNat_sub,UInt32.toNat_one]
    omega
  have hindex : (input.r.toNat % INPUT_BUF+n) % INPUT_BUF = (input.e-1).toNat % INPUT_BUF := by
    rw [UInt32.toNat_sub] at hn
    rw [UInt32.toNat_sub,UInt32.toNat_one]
    simp only [INPUT_BUF] at hbound ⊢
    omega
  rw [hn,Input.ring,Ring.contents_succ,hindex,hl,← append_assoc] at htyped
  obtain ⟨htyped,hb⟩ := append_inj' htyped rfl
  refine ⟨List.singleton_inj.mp hb,htaken,hready,?_,?_,fun hmem => h.line ?_⟩
  · change (input.e - 1 - input.r).toNat ≤ INPUT_BUF
    omega
  · change Input.ring _ (input.e - 1 - input.r).toNat = _
    rw [hpred]
    exact htyped
  · rw [hl]
    exact mem_append_left _ hmem

theorem Rep.backspace (h : Rep input t) :
    Rep (if input.e ≠ input.w then { input with e := input.e - 1 } else input)
      { t with line := t.line.dropLast } := by
  rcases eq_nil_or_concat' t.line with hnil | ⟨l,b,hl⟩
  · rw [if_neg (not_not.mpr (h.e_eq_w_iff.mpr hnil)),hnil,dropLast_nil,← hnil]
    exact h
  · have hne : input.e ≠ input.w := by
      intro heq
      rw [h.e_eq_w_iff.mp heq] at hl
      exact append_ne_nil_of_right_ne_nil _ (cons_ne_nil _ _) hl.symm
    rw [if_pos hne,hl,dropLast_concat]
    exact (h.last hl).2

theorem Rep.killLine {n : ℕ} (h : Rep input t) (hn : t.line.length = n) :
    Rep (killLine n input) { t with line := [] } := by
  induction n generalizing input t with
  | zero =>
    have hnil := List.length_eq_zero_iff.mp hn
    rw [← hnil]
    exact h
  | succ n ih =>
    rcases eq_nil_or_concat' t.line with hnil | ⟨l,b,hl⟩
    · rw [hnil] at hn
      cases hn
    obtain ⟨hb,hrep⟩ := h.last hl
    have hne : input.e ≠ input.w := by
      intro heq
      rw [h.e_eq_w_iff.mp heq] at hl
      exact append_ne_nil_of_right_ne_nil _ (cons_ne_nil _ _) hl.symm
    have hbne : b ≠ newline := by
      rintro rfl
      exact h.line (hl ▸ mem_append_right _ mem_cons_self)
    rw [Console.killLine,if_pos ⟨hne,hb.symm ▸ hbne⟩]
    refine ih (t := { t with line := l }) hrep ?_
    rw [hl,length_append] at hn
    exact Nat.succ.inj hn

theorem Rep.hasRoom_iff (h : Rep input t) : (input.e-input.r).toNat < INPUT_BUF ↔ t.hasRoom := by
  have := h.count
  rw [Tty.hasRoom]
  omega

theorem Rep.push (h : Rep input t) (hroom : (input.e-input.r).toNat < INPUT_BUF) (c : UInt8) :
    (input.e + 1 - input.r).toNat = (input.e-input.r).toNat + 1 ∧
      Input.ring { input with
          buf := Function.update input.buf (input.e.toNat % INPUT_BUF) c, e := input.e + 1 }
        (input.e + 1 - input.r).toNat = t.kept.drop t.log.length ++ (t.line ++ [c]) := by
  have hr := input.r.toNat_lt
  have he := input.e.toNat_lt
  have hcount : (input.e + 1 - input.r).toNat = (input.e-input.r).toNat + 1 := by
    rw [UInt32.toNat_sub] at hroom
    rw [UInt32.toNat_sub,UInt32.toNat_sub,UInt32.toNat_add,UInt32.toNat_one]
    simp only [INPUT_BUF] at hroom
    omega
  have hindex : input.e.toNat % INPUT_BUF =
      (input.r.toNat % INPUT_BUF + (input.e-input.r).toNat) % INPUT_BUF := by
    rw [UInt32.toNat_sub]
    simp only [INPUT_BUF]
    omega
  refine ⟨hcount,?_⟩
  rw [hcount,← append_assoc,← h.typed,hindex]
  exact Ring.contents_push hroom c

theorem Rep.store (h : Rep input t) (c : UInt8) : Rep (store input c) (t.type c) := by
  have htaken := h.taken
  have hcount := h.count
  rw [Console.store,Tty.type]
  by_cases hc : c ≠ 0 ∧ (input.e-input.r).toNat < INPUT_BUF
  · have hc' : c ≠ 0 ∧ t.hasRoom := ⟨hc.1,h.hasRoom_iff.mp hc.2⟩
    rw [if_pos hc,if_pos hc']
    obtain ⟨hsucc,htyped⟩ := h.push hc.2 (crnl c)
    have hroom : input.e + 1 = input.r + 128 ↔ ¬ Tty.hasRoom { t with line := t.line ++ [crnl c] } := by
      have hr := input.r.toNat_lt
      have he := input.e.toNat_lt
      rw [Tty.hasRoom,← UInt32.toNat_inj,UInt32.toNat_add,UInt32.toNat_add,UInt32.toNat_one]
      rw [UInt32.toNat_sub] at hcount hc
      simp only [length_append,length_singleton,INPUT_BUF,
        show (128 : UInt32).toNat = 128 from rfl] at hc ⊢
      omega
    by_cases hend : crnl c = newline ∨ crnl c = ctrlD ∨ input.e + 1 = input.r+128
    · simp only
      rw [if_pos hend,if_pos (hend.imp_right (Or.imp_right hroom.mp))]
      refine ⟨?_,?_,?_,?_,not_mem_nil⟩
      · change t.log.length ≤ (t.kept ++ (t.line ++ [crnl c])).length
        rw [length_append]
        omega
      · change (input.e + 1 - input.r).toNat =
          (t.kept ++ (t.line ++ [crnl c])).length - t.log.length
        rw [hsucc,length_append,length_append,length_singleton]
        omega
      · change (input.e + 1 - input.r).toNat ≤ _
        rw [hsucc]
        exact hc.2
      · rw [append_nil,drop_append_of_le_length htaken]
        exact htyped
    · simp only
      rw [if_neg hend,if_neg fun hend' => hend (hend'.imp_right (Or.imp_right hroom.mpr))]
      refine ⟨htaken,h.ready,?_,htyped,fun hmem => ?_⟩
      · change (input.e + 1 - input.r).toNat ≤ _
        rw [hsucc]
        exact hc.2
      · rcases List.mem_append.mp hmem with hmem | hmem
        · exact h.line hmem
        · exact hend (.inl (List.mem_singleton.mp hmem).symm)
  · have hc' : ¬ (c ≠ 0 ∧ t.hasRoom) := fun hc' => hc ⟨hc'.1,h.hasRoom_iff.mpr hc'.2⟩
    rw [if_neg hc,if_neg hc']
    exact h

theorem Rep.key (h : Rep input t) (c : UInt8) : Rep (consolekey input c) (t.key c) := by
  rw [consolekey,Tty.key]
  split
  · exact h
  · split
    · exact h.killLine h.edit_count.symm
    · split
      · exact h.backspace
      · exact h.store c

theorem Rep.intr (h : Rep input t) (cs : List UInt8) :
    Rep (consoleintr input cs) (cs.foldl Tty.key t) := by
  induction cs generalizing input t with
  | nil => exact h
  | cons c cs ih => exact ih (h.key c)

theorem Rep.pop (h : Rep input t) (hc : t.kept[t.log.length]? = some c) (k : ℕ) :
    input.buf (input.r.toNat % INPUT_BUF) = c ∧
      Rep { input with r := input.r + 1 } { t with log := t.log ++ [(k, c)] } := by
  obtain ⟨hlt,hget⟩ := List.getElem?_eq_some_iff.mp hc
  have hready := h.ready
  have hcount := h.count
  have hbound := h.bound
  have htyped := h.typed
  have hr := input.r.toNat_lt
  have hw := input.w.toNat_lt
  have he := input.e.toNat_lt
  obtain ⟨n,hn⟩ : ∃ n, (input.e-input.r).toNat = n+1 := ⟨_,(Nat.succ_pred (by omega)).symm⟩
  have hpred : (input.e - (input.r+1)).toNat = n := by
    rw [UInt32.toNat_sub] at hn
    rw [UInt32.toNat_sub,UInt32.toNat_add,UInt32.toNat_one]
    omega
  have hindex : (input.r.toNat % INPUT_BUF+1) % INPUT_BUF = (input.r+1).toNat % INPUT_BUF := by
    rw [UInt32.toNat_add,UInt32.toNat_one]
    simp only [INPUT_BUF]
    omega
  rw [hn,Input.ring,Ring.contents_pop (Nat.mod_lt _ (by decide)),hindex,
    drop_eq_getElem_cons hlt,hget,cons_append] at htyped
  obtain ⟨hbuf,hrest⟩ := List.cons.inj htyped
  refine ⟨hbuf,?_,?_,?_,?_,h.line⟩
  · rw [length_append]
    exact hlt
  · change (input.w - (input.r+1)).toNat = t.kept.length - (t.log ++ [(k, c)]).length
    rw [UInt32.toNat_sub] at hready
    rw [UInt32.toNat_sub,UInt32.toNat_add,UInt32.toNat_one,length_append,length_singleton]
    omega
  · change (input.e - (input.r+1)).toNat ≤ _
    omega
  · change Input.ring _ (input.e - (input.r+1)).toNat = _
    rw [hpred,length_append,length_singleton]
    exact hrest

theorem Rep.take (h : Rep input t) (k target : ℕ) (killed : Bool) (n : ℕ) (got : List UInt8) :
    (consoleread target killed n input got).2 = (Tty.take t.kept k target killed n t.log got).2 ∧
      Rep (consoleread target killed n input got).1
        { t with log := (Tty.take t.kept k target killed n t.log got).1 } := by
  induction n generalizing input t got with
  | zero => exact ⟨rfl,h⟩
  | succ n ih =>
    rw [consoleread,Tty.take]
    cases hc : t.kept[t.log.length]? with
    | none =>
      rw [if_pos (h.r_eq_w_iff.mpr hc)]
      exact ⟨rfl,h⟩
    | some c =>
      have hne : input.r ≠ input.w := by
        intro heq
        rw [h.r_eq_w_iff.mp heq] at hc
        cases hc
      obtain ⟨hbuf,hrep⟩ := h.pop hc k
      rw [if_neg hne]
      simp only [hbuf]
      by_cases hd : c = ctrlD
      · rw [if_pos hd,if_pos hd]
        refine ⟨rfl,?_⟩
        by_cases hn : n + 1 < target
        · simp only [if_pos hn,UInt32.add_sub_cancel]
          exact h
        · simp only [if_neg hn]
          exact hrep
      · rw [if_neg hd,if_neg hd]
        by_cases hnl : c = newline
        · rw [if_pos hnl,if_pos hnl]
          exact ⟨rfl,hrep⟩
        · rw [if_neg hnl,if_neg hnl]
          exact ih hrep (got ++ [c])

theorem Rep.withReads (h : Rep input t) (reads : List Read) : Rep input { t with reads := reads } :=
  ⟨h.taken,h.ready,h.bound,h.typed,h.line⟩

theorem Tty.key_frame (t : Tty) (c : UInt8) :
    (t.key c).reads = t.reads ∧ (t.key c).log = t.log ∧ t.kept <+: (t.key c).kept := by
  simp only [Tty.key,Tty.type]
  split_ifs <;> first
    | exact ⟨rfl,rfl,prefix_refl _⟩
    | exact ⟨rfl,rfl,prefix_append _ _⟩

theorem Tty.intr_frame (t : Tty) (cs : List UInt8) :
    (cs.foldl Tty.key t).reads = t.reads ∧ (cs.foldl Tty.key t).log = t.log ∧
      t.kept <+: (cs.foldl Tty.key t).kept := by
  induction cs generalizing t with
  | nil => exact ⟨rfl,rfl,prefix_refl _⟩
  | cons c cs ih =>
    obtain ⟨hreads,hlog,hkept⟩ := t.key_frame c
    obtain ⟨hreads',hlog',hkept'⟩ := ih (t.key c)
    exact ⟨hreads'.trans hreads,hlog'.trans hlog,hkept.trans hkept'⟩

theorem Rep.step {s s' : State} {e : Event} (h : Rep s.input t) (hreads : s.reads = t.reads)
    (hstep : s.step e = some s') :
    ∃ t', t.step e = some t' ∧ Rep s'.input t' ∧ s'.reads = t'.reads := by
  cases e with
  | intr cs =>
    obtain rfl := some.inj hstep
    exact ⟨_,rfl,h.intr cs,hreads.trans (t.intr_frame cs).1.symm⟩
  | read n killed =>
    obtain rfl := some.inj hstep
    obtain ⟨hread,hrep⟩ := h.take t.reads.length n killed n []
    refine ⟨_,rfl,hrep.withReads _,?_⟩
    simp only [hread,hreads]
  | resume k killed =>
    simp only [State.step,hreads] at hstep
    split at hstep
    · next target got n heq =>
      obtain rfl := some.inj hstep
      obtain ⟨hread,hrep⟩ := h.take k target killed n got
      have htty : t.step (.resume k killed) = some { t with
          log := (Tty.take t.kept k target killed n t.log got).1
          reads := t.reads.set k (Tty.take t.kept k target killed n t.log got).2 } := by
        simp only [Tty.step,heq]
      refine ⟨_,htty,hrep.withReads _,?_⟩
      simp only [hread]
    · cases hstep

theorem rep_boot : Rep State.boot.input Tty.boot :=
  ⟨le_rfl,rfl,by decide,rfl,not_mem_nil⟩

def endsLine (c : UInt8) : Prop := c = newline ∨ c = ctrlD

namespace Tty

/-- The bytes that a read has taken, without control-D. -/
def bytesOf (log : List (ℕ × UInt8)) (k : ℕ) : List UInt8 :=
  ((log.filter fun x => x.1 = k).map Prod.snd).filter fun c => c ≠ ctrlD

/-- What is taken is what has been typed, in its order; a read has what it has taken, and takes
nothing after the end of a line. -/
structure Tidy (t : Tty) : Prop where
  taken : t.log.map Prod.snd <+: t.kept
  known : ∀ x ∈ t.log, x.1 < t.reads.length
  bytes : ∀ k x, t.reads[k]? = some x → x.got = bytesOf t.log k
  stops : t.log.Pairwise fun x y => x.1 = y.1 → ¬ endsLine x.2
  open_ : ∀ k x n, t.reads[k]? = some x → x.status = .waiting n →
    ∀ y ∈ t.log, y.1 = k → ¬ endsLine y.2

theorem bytesOf_append (log : List (ℕ × UInt8)) (k : ℕ) (x : ℕ × UInt8) :
    bytesOf (log ++ [x]) k =
      if x.1 = k ∧ x.2 ≠ ctrlD then bytesOf log k ++ [x.2] else bytesOf log k := by
  rw [bytesOf,filter_append,map_append,filter_append]
  by_cases hk : x.1 = k
  · by_cases hd : x.2 = ctrlD
    · simp [hk,hd,bytesOf]
    · simp [hk,hd,bytesOf]
  · simp [hk,bytesOf]

/-- The log after a read number `k`, whose call then is `x`. -/
structure Logged (kept : List UInt8) (k : ℕ) (log log' : List (ℕ × UInt8)) (x : Read) : Prop where
  grows : ∃ more, log' = log ++ more ∧ ∀ y ∈ more, y.1 = k
  taken : log'.map Prod.snd <+: kept
  stops : log'.Pairwise fun x y => x.1 = y.1 → ¬ endsLine x.2
  bytes : x.got = bytesOf log' k
  open_ : ∀ m, x.status = .waiting m → ∀ y ∈ log', y.1 = k → ¬ endsLine y.2

section Take

variable {kept got : List UInt8} {k : ℕ} {log : List (ℕ × UInt8)}

theorem taken_next (htaken : log.map Prod.snd <+: kept) (hc : kept[log.length]? = some c) :
    (log ++ [(k, c)]).map Prod.snd <+: kept := by
  obtain ⟨rest,rfl⟩ := htaken
  rw [getElem?_append_right (by simp),length_map,Nat.sub_self] at hc
  cases rest with
  | nil => cases hc
  | cons b rest =>
    obtain rfl := some.inj hc
    rw [map_append]
    exact ⟨rest,by simp⟩

theorem stops_next (hstops : log.Pairwise fun x y => x.1 = y.1 → ¬ endsLine x.2)
    (hopen : ∀ y ∈ log, y.1 = k → ¬ endsLine y.2) :
    (log ++ [(k, c)]).Pairwise fun x y => x.1 = y.1 → ¬ endsLine x.2 := by
  refine List.pairwise_append.mpr ⟨hstops,pairwise_singleton _ _,fun x hx y hy => ?_⟩
  obtain rfl := List.mem_singleton.mp hy
  exact hopen x hx

theorem take_logged (target : ℕ) (killed : Bool) (n : ℕ) (htaken : log.map Prod.snd <+: kept)
    (hstops : log.Pairwise fun x y => x.1 = y.1 → ¬ endsLine x.2)
    (hopen : ∀ y ∈ log, y.1 = k → ¬ endsLine y.2) (hgot : got = bytesOf log k) :
    Logged kept k log (take kept k target killed n log got).1
      (take kept k target killed n log got).2 := by
  induction n generalizing log got with
  | zero =>
    exact ⟨⟨[],(append_nil _).symm,by simp⟩,htaken,hstops,hgot,fun m hm => by cases hm⟩
  | succ n ih =>
    rw [take]
    cases hc : kept[log.length]? with
    | none =>
      exact ⟨⟨[],(append_nil _).symm,by simp⟩,htaken,hstops,hgot,fun _ _ => hopen⟩
    | some c =>
      have hnext := taken_next (k := k) htaken hc
      have hstops' := stops_next (c := c) hstops hopen
      have hgrows : ∃ more, log ++ [(k, c)] = log ++ more ∧ ∀ y ∈ more, y.1 = k :=
        ⟨[(k, c)],rfl,by simp⟩
      simp only
      by_cases hd : c = ctrlD
      · rw [if_pos hd]
        by_cases hn : n + 1 < target
        · rw [if_pos hn]
          exact ⟨⟨[],(append_nil _).symm,by simp⟩,htaken,hstops,hgot,fun m hm => by cases hm⟩
        · rw [if_neg hn]
          refine ⟨hgrows,hnext,hstops',?_,fun m hm => by cases hm⟩
          rw [bytesOf_append,if_neg (fun h => h.2 hd)]
          exact hgot
      rw [if_neg hd]
      have hgot' : got ++ [c] = bytesOf (log ++ [(k, c)]) k := by
        rw [bytesOf_append,if_pos ⟨rfl,hd⟩,hgot]
      by_cases hnl : c = newline
      · rw [if_pos hnl]
        exact ⟨hgrows,hnext,hstops',hgot',fun m hm => by cases hm⟩
      rw [if_neg hnl]
      have hopen' : ∀ y ∈ log ++ [(k, c)], y.1 = k → ¬ endsLine y.2 := by
        intro y hy hyk
        rcases List.mem_append.mp hy with hy | hy
        · exact hopen y hy hyk
        · obtain rfl := List.mem_singleton.mp hy
          exact fun h => h.elim hnl hd
      have h := ih hnext hstops' hopen' hgot'
      obtain ⟨more,heq,hmore⟩ := h.grows
      refine ⟨⟨(k, c) :: more,?_,List.forall_mem_cons.mpr ⟨rfl,hmore⟩⟩,h.taken,h.stops,
        h.bytes,h.open_⟩
      rw [heq,append_assoc]
      rfl

end Take

theorem Logged.other {kept : List UInt8} {k j : ℕ} {log log' : List (ℕ × UInt8)} {x : Read}
    (h : Logged kept k log log' x) (hj : j ≠ k) :
    (log'.filter fun y => y.1 = j) = log.filter fun y => y.1 = j := by
  obtain ⟨more,rfl,hmore⟩ := h.grows
  have hnone : (more.filter fun y => y.1 = j) = [] := by
    refine List.filter_eq_nil_iff.mpr fun y hy => ?_
    rw [hmore y hy,decide_eq_true_eq]
    exact hj.symm
  rw [filter_append,hnone,append_nil]

theorem tidy_boot : Tidy boot :=
  ⟨ nil_prefix,by simp [boot],by simp [boot],List.Pairwise.nil,by simp [boot]⟩

theorem Tidy.intr (h : Tidy t) (cs : List UInt8) : Tidy (cs.foldl key t) := by
  obtain ⟨hreads,hlog,hkept⟩ := t.intr_frame cs
  refine ⟨?_,?_,?_,?_,?_⟩
  · rw [hlog]
    exact h.taken.trans hkept
  · rw [hlog,hreads]
    exact h.known
  · rw [hlog,hreads]
    exact h.bytes
  · rw [hlog]
    exact h.stops
  · rw [hlog,hreads]
    exact h.open_

theorem Tidy.read (h : Tidy t) {k : ℕ} {log : List (ℕ × UInt8)} {x : Read} {reads : List Read}
    (hlog : Logged t.kept k t.log log x) (hk : k < reads.length)
    (hlen : t.reads.length ≤ reads.length) (hself : reads[k]? = some x)
    (hother : ∀ j, j ≠ k → reads[j]? = t.reads[j]?) :
    Tidy { t with log := log, reads := reads } := by
  have hmem : ∀ y ∈ log, y.1 ≠ k → y ∈ t.log := by
    intro y hy hne
    have hfilter := hlog.other hne
    have hy' : y ∈ log.filter fun z => z.1 = y.1 :=
      List.mem_filter.mpr ⟨hy,decide_eq_true rfl⟩
    rw [hfilter] at hy'
    exact (List.mem_filter.mp hy').1
  refine ⟨hlog.taken,fun y hy => ?_,fun j z hz => ?_,hlog.stops,fun j z m hz hm y hy hj => ?_⟩
  · by_cases hyk : y.1 = k
    · rw [hyk]
      exact hk
    · exact (h.known y (hmem y hy hyk)).trans_le hlen
  · by_cases hj : j = k
    · subst hj
      obtain rfl := some.inj (hself.symm.trans hz)
      exact hlog.bytes
    · change reads[j]? = some z at hz
      rw [hother j hj] at hz
      rw [h.bytes j z hz,bytesOf,bytesOf,hlog.other hj]
  · by_cases hjk : j = k
    · subst hjk
      obtain rfl := some.inj (hself.symm.trans hz)
      exact hlog.open_ m hm y hy hj
    · change reads[j]? = some z at hz
      rw [hother j hjk] at hz
      exact h.open_ j z m hz hm y (hmem y hy (hj ▸ hjk)) hj

theorem Tidy.step (h : Tidy t) {e : Event} (hstep : t.step e = some t') : Tidy t' := by
  cases e with
  | intr cs =>
    obtain rfl := some.inj hstep
    exact h.intr cs
  | read n killed =>
    obtain rfl := some.inj hstep
    have hnew : ∀ y ∈ t.log, y.1 ≠ t.reads.length := fun y hy => (h.known y hy).ne
    have hnone : (t.log.filter fun y => y.1 = t.reads.length) = [] :=
      List.filter_eq_nil_iff.mpr fun y hy hyk => hnew y hy (of_decide_eq_true hyk)
    have hempty : [] = bytesOf t.log t.reads.length := by
      rw [bytesOf,hnone]
      rfl
    have hlog := take_logged n killed n h.taken h.stops
      (fun y hy hyk => absurd hyk (hnew y hy)) hempty
    refine h.read hlog ?_ ?_ ?_ fun j hj => ?_
    · rw [length_append]
      exact Nat.lt_succ_self _
    · rw [length_append]
      exact Nat.le_add_right _ _
    · rw [getElem?_append_right le_rfl,Nat.sub_self]
      rfl
    · rcases Nat.lt_or_ge j t.reads.length with hlt | hge
      · exact getElem?_append_left hlt
      · rw [getElem?_eq_none hge,getElem?_eq_none]
        rw [length_append,length_singleton]
        omega
  | resume k killed =>
    simp only [Tty.step] at hstep
    split at hstep
    · next target got n heq =>
      obtain rfl := some.inj hstep
      have hlt : k < t.reads.length := (List.getElem?_eq_some_iff.mp heq).1
      have hlog := take_logged target killed n h.taken h.stops
        (h.open_ k _ n heq rfl) (h.bytes k _ heq)
      refine h.read hlog ?_ ?_ ?_ fun j hj => ?_
      · rw [length_set]
        exact hlt
      · rw [length_set]
      · exact getElem?_set_self hlt
      · exact getElem?_set_ne hj.symm
    · cases hstep

/-- Between the bytes of a read no other read has taken anything. -/
def Alone (t : Tty) (k : ℕ) : Prop :=
  ∀ l1 x l2 y l3, t.log = l1 ++ x :: (l2 ++ y :: l3) → x.1 = k → y.1 = k → ∀ z ∈ l2, z.1 = k

/-- The read has bytes of two lines: the end of a line is between them. -/
def TwoLines (t : Tty) (k : ℕ) : Prop :=
  ∃ l1 x l2 y l3, t.log = l1 ++ x :: (l2 ++ y :: l3) ∧ x.1 = k ∧ y.1 = k ∧
    y.2 ≠ ctrlD ∧ ∃ z ∈ x :: l2, endsLine z.2

theorem Tidy.not_twoLines (h : Tidy t) {k : ℕ} (hk : t.Alone k) : ¬ t.TwoLines k := by
  rintro ⟨l1,x,l2,y,l3,heq,hx,hy,-,z,hz,hend⟩
  have hstops := h.stops
  rw [heq] at hstops
  obtain ⟨hxy,hrest⟩ := List.pairwise_cons.mp (List.pairwise_append.mp hstops).2.1
  rcases List.mem_cons.mp hz with rfl | hz
  · refine hxy y ?_ (hx.trans hy.symm) hend
    exact mem_append_right _ mem_cons_self
  · have hzk := hk l1 x l2 y l3 heq hx hy z hz
    exact (List.pairwise_append.mp hrest).2.2 z hz y mem_cons_self (hzk.trans hy.symm) hend

end Tty

/-- The console as it should be, beside a terminal to which the same has happened. -/
structure Follows (s : State) (t : Tty) : Prop where
  order : (s.input.w - s.input.r).toNat ≤ (s.input.e - s.input.r).toNat
  bound : (s.input.e - s.input.r).toNat ≤ INPUT_BUF
  /-- the lines that can be read are in the ring, whatever has been edited since -/
  ready : s.input.ring (s.input.w - s.input.r).toNat = t.kept.drop t.log.length
  typed : s.input.ring (s.input.e - s.input.r).toNat = t.kept.drop t.log.length ++ t.line
  reads : s.reads = t.reads
  /-- what the reads have taken, in the order in which they have, is what has been typed -/
  taken : t.log.map Prod.snd <+: t.kept
  bytes : ∀ k x, s.reads[k]? = some x → x.got = Tty.bytesOf t.log k
  /-- a read takes nothing after the end of a line -/
  stops : t.log.Pairwise fun x y => x.1 = y.1 → ¬ endsLine x.2
  oneLine : ∀ k, t.Alone k → ¬ t.TwoLines k

theorem Rep.ring_ready (h : Rep input t) :
    input.ring (input.w-input.r).toNat = t.kept.drop t.log.length := by
  have hlen : (input.w-input.r).toNat = (t.kept.drop t.log.length).length := by
    rw [length_drop,h.ready]
  have hle := h.ready_le
  rw [Input.ring,← Ring.take_contents hle]
  change (input.ring _).take _ = _
  rw [h.typed,hlen,take_left]

/-- Whatever is typed and read, and whenever the lock changes hands: the ring and its counters are a
terminal. -/
theorem console_follows {es : List Event} {s : State} (hrun : Run.exec State.step .boot es = some s) :
    ∃ t, Run.exec Tty.step .boot es = some t ∧ Follows s t := by
  have hstep : ∀ (s : State) (t : Tty) e s', (Rep s.input t ∧ s.reads = t.reads) ∧ t.Tidy →
      s.step e = some s' →
      ∃ t', t.step e = some t' ∧ (Rep s'.input t' ∧ s'.reads = t'.reads) ∧ t'.Tidy := by
    intro s t e s' h hs
    obtain ⟨t',ht',hrep⟩ := h.1.1.step h.1.2 hs
    exact ⟨t',ht',hrep,h.2.step ht'⟩
  obtain ⟨t,ht,⟨hrep,hreads⟩,htidy⟩ :=
    Run.exec_simulation _ hstep ⟨⟨rep_boot,rfl⟩,Tty.tidy_boot⟩ hrun
  exact ⟨t,ht,hrep.ready_le,hrep.bound,hrep.ring_ready,hrep.typed,hreads,htidy.taken,
    hreads ▸ htidy.bytes,htidy.stops,fun k => htidy.not_twoLines⟩

/-- A line that is edited, read in two pieces, and followed by control-D. -/
theorem console_follows_edit :
    ∃ s t, Run.exec State.step .boot
        [.intr [97, 98, 8, 99, 13, 4], .read 2 false, .read 5 false, .read 5 false] = some s ∧
      s.reads = [⟨2, [97, 99], .returned⟩, ⟨5, [10], .returned⟩, ⟨5, [], .returned⟩] ∧
      Follows s t := by
  obtain ⟨s,hrun,hreads⟩ : ∃ s, Run.exec State.step .boot
        [.intr [97,98,8,99,13,4],.read 2 false,.read 5 false,.read 5 false] = some s ∧
      s.reads = [⟨2,[97,99],.returned⟩,⟨5,[10],.returned⟩,⟨5,[],.returned⟩] := by
    apply Option.map_eq_some_iff.mp
    decide +kernel
  obtain ⟨t,-,h⟩ := console_follows hrun
  exact ⟨s,t,hrun,hreads,h⟩

/-- A line of 130 bytes, of which one read gets 128 and waits, and a second read the others: the
first one goes on with the line after. -/
theorem read_gets_two_lines :
    ∃ s t, Run.exec State.step .boot
        [.read 200 false, .intr (List.replicate 128 97), .resume 0 false, .read 200 false,
          .intr [98, 10], .resume 1 false, .intr [99, 10], .resume 0 false] = some s ∧
      Run.exec Tty.step .boot
        [.read 200 false, .intr (List.replicate 128 97), .resume 0 false, .read 200 false,
          .intr [98, 10], .resume 1 false, .intr [99, 10], .resume 0 false] = some t ∧
      s.reads = [⟨200, List.replicate 128 97 ++ [99, 10], .returned⟩, ⟨200, [98, 10], .returned⟩] ∧
      t.TwoLines 0 := by
  obtain ⟨s,hrun,hreads⟩ : ∃ s, Run.exec State.step .boot
        [.read 200 false,.intr (List.replicate 128 97),.resume 0 false,.read 200 false,
          .intr [98,10],.resume 1 false,.intr [99,10],.resume 0 false] = some s ∧
      s.reads = [⟨200,List.replicate 128 97 ++ [99,10],.returned⟩,⟨200,[98,10],.returned⟩] := by
    apply Option.map_eq_some_iff.mp
    decide +kernel
  obtain ⟨t,htty,hlog⟩ : ∃ t, Run.exec Tty.step .boot
        [.read 200 false,.intr (List.replicate 128 97),.resume 0 false,.read 200 false,
          .intr [98,10],.resume 1 false,.intr [99,10],.resume 0 false] = some t ∧
      t.log = List.replicate 127 (0, 97) ++ (0, 97) :: ([(1, 98),(1, 10)] ++ [(0, 99),(0, 10)]) := by
    apply Option.map_eq_some_iff.mp
    decide +kernel
  refine ⟨s,t,hrun,htty,hreads,_,_,_,_,_,hlog,rfl,rfl,by decide,(1, 10),?_,.inl rfl⟩
  exact mem_cons_of_mem _ (mem_cons_of_mem _ mem_cons_self)

end Xv6Container.Console
