import Mathlib.Data.List.Flatten
import Mathlib.Tactic

/-!
# grep

`grep.c`: the matcher against the language of its patterns, and the loop that cuts what
`read` returns into lines. Strings have no NUL in them; the end of the list is their NUL.
-/

namespace Xv6Container.Grep

open List

/-- `matchstar(c, re, text)`, where `rest` is `matchhere(re, ·)`. -/
def matchstar (c : UInt8) (rest : List UInt8 → Bool) : List UInt8 → Bool
  | [] => rest []
  | t :: text => rest (t :: text) || ((t = c || c = 46) && matchstar c rest text)

def matchhere : List UInt8 → List UInt8 → Bool
  | [], _ => true
  | [c], text =>
    if c = 36 then text.isEmpty
    else
      match text with
      | [] => false
      | t :: _ => c = 46 || c = t
  | c :: d :: re, text =>
    if d = 42 then matchstar c (fun text => matchhere re text) text
    else
      match text with
      | [] => false
      | t :: text => (c = 46 || c = t) && matchhere (d :: re) text

/-- The loop of `match`. -/
def matchLoop (re : List UInt8) : List UInt8 → Bool
  | [] => matchhere re []
  | t :: text => matchhere re (t :: text) || matchLoop re text

def matchRe (re text : List UInt8) : Bool :=
  match re with
  | 94 :: re => matchhere re text
  | re => matchLoop re text

/-- A character of a pattern, or one with a star. -/
inductive Item
  | one (c : UInt8)
  | star (c : UInt8)

/-- The items of a pattern, and whether it ends in a `'$'` without a star. -/
def items : List UInt8 → List Item × Bool
  | [] => ([], false)
  | [c] => if c = 36 then ([], true) else ([.one c], false)
  | c :: d :: re =>
    if d = 42 then (.star c :: (items re).1, (items re).2)
    else (.one c :: (items (d :: re)).1, (items (d :: re)).2)

/-- The strings that a character of a pattern stands for have one byte. -/
def Stands (c t : UInt8) : Prop := c = 46 ∨ c = t

/-- The items generate the string. -/
inductive Generates : List Item → List UInt8 → Prop
  | nil : Generates [] []
  | one {c t is w} (h : Stands c t) (hw : Generates is w) : Generates (.one c :: is) (t :: w)
  | none {c is w} (hw : Generates is w) : Generates (.star c :: is) w
  | more {c t is w} (h : Stands c t) (hw : Generates (.star c :: is) w) :
      Generates (.star c :: is) (t :: w)

/-- A prefix of the text is generated, all of it if the pattern ends in `'$'`. -/
def Starts (p : List Item × Bool) (text : List UInt8) : Prop :=
  ∃ w post, text = w ++ post ∧ Generates p.1 w ∧ (p.2 = true → post = [])

/-- Some substring is generated by the pattern, where its anchors allow it. -/
def Matches (re text : List UInt8) : Prop :=
  match re with
  | 94 :: re => Starts (items re) text
  | re => ∃ pre rest, text = pre ++ rest ∧ Starts (items re) rest

section Matcher

variable {re text : List UInt8} {c : UInt8} {is : List Item} {e : Bool}

theorem starts_one : Starts (.one c :: is, e) text ↔
    ∃ t rest, text = t :: rest ∧ Stands c t ∧ Starts (is, e) rest := by
  constructor
  · rintro ⟨w,post,rfl,hw,hpost⟩
    cases hw with
    | @one _ t _ w h hw => exact ⟨t,w ++ post,rfl,h,w,post,rfl,hw,hpost⟩
  · rintro ⟨t,rest,rfl,h,w,post,rfl,hw,hpost⟩
    exact ⟨t :: w,post,rfl,.one h hw,hpost⟩

theorem starts_star : Starts (.star c :: is, e) text ↔ Starts (is, e) text ∨
    ∃ t rest, text = t :: rest ∧ Stands c t ∧ Starts (.star c :: is, e) rest := by
  constructor
  · rintro ⟨w,post,rfl,hw,hpost⟩
    cases hw with
    | none hw => exact .inl ⟨w,post,rfl,hw,hpost⟩
    | @more _ t _ w h hw => exact .inr ⟨t,w ++ post,rfl,h,w,post,rfl,hw,hpost⟩
  · rintro (⟨w,post,rfl,hw,hpost⟩ | ⟨t,rest,rfl,h,w,post,rfl,hw,hpost⟩)
    · exact ⟨w,post,rfl,.none hw,hpost⟩
    · exact ⟨t :: w,post,rfl,.more h hw,hpost⟩

theorem starts_nil : Starts ([], e) text ↔ (e = true → text = []) := by
  constructor
  · rintro ⟨w,post,rfl,hw,hpost⟩ he
    cases hw
    exact hpost he
  · intro h
    exact ⟨[],text,rfl,.nil,h⟩

theorem matchstar_iff {rest : List UInt8 → Bool}
    (h : ∀ text, rest text = true ↔ Starts (is, e) text) :
    matchstar c rest text = true ↔ Starts (.star c :: is, e) text := by
  induction text with
  | nil =>
    rw [matchstar,starts_star,h]
    simp
  | cons t text ih =>
    have hc : (decide (t = c) || decide (c = 46)) = true ↔ Stands c t := by
      rw [Bool.or_eq_true,decide_eq_true_iff,decide_eq_true_iff,or_comm,eq_comm (a := t)]
      exact Iff.rfl
    rw [matchstar,starts_star,Bool.or_eq_true,Bool.and_eq_true,h,ih,hc]
    simp only [List.cons.injEq,↓existsAndEq,true_and]

theorem matchhere_iff : matchhere re text = true ↔ Starts (items re) text := by
  induction re, text using matchhere.induct with
  | case1 text | case2 text => simp [matchhere,items,starts_nil]
  | case3 c hc => simp [matchhere,items,hc,starts_one]
  | case4 c hc t text => simp [matchhere,items,hc,starts_one,starts_nil,Stands]
  | case5 text c re ih =>
    simp only [matchhere,items,if_true]
    exact matchstar_iff ih
  | case6 c d re hd => simp [matchhere,items,hd,starts_one]
  | case7 c d re hd t text ih => simp [matchhere,items,hd,starts_one,ih,Stands]

theorem matchLoop_iff :
    matchLoop re text = true ↔ ∃ pre rest, text = pre ++ rest ∧ Starts (items re) rest := by
  induction text with
  | nil =>
    rw [matchLoop,matchhere_iff]
    constructor
    · intro h
      exact ⟨[],[],rfl,h⟩
    · rintro ⟨pre,rest,hnil,h⟩
      rwa [(List.append_eq_nil_iff.mp hnil.symm).2] at h
  | cons t text ih =>
    rw [matchLoop,Bool.or_eq_true,matchhere_iff,ih]
    constructor
    · rintro (h | ⟨pre,rest,rfl,h⟩)
      · exact ⟨[],_,rfl,h⟩
      · exact ⟨t :: pre,rest,rfl,h⟩
    · rintro ⟨pre,rest,heq,h⟩
      cases pre with
      | nil =>
        rw [nil_append] at heq
        exact .inl (heq ▸ h)
      | cons t' pre =>
        exact .inr ⟨pre,rest,(List.cons.inj heq).2,h⟩

end Matcher

/-- **The matcher implements the language of patterns.** -/
theorem match_iff (re text : List UInt8) : matchRe re text = true ↔ Matches re text := by
  unfold matchRe Matches
  split
  · exact matchhere_iff
  · exact matchLoop_iff

/-- The loop over the lines of the buffer, with `line` from `p` on: what is written, and what
follows the last newline. -/
def scan (re line : List UInt8) : List UInt8 → List (List UInt8) × List UInt8
  | [] => ([], line)
  | b :: bs =>
    if b = 10 then
      ((if matchRe re line then [line ++ [10]] else []) ++ (scan re [] bs).1, (scan re [] bs).2)
    else scan re (line ++ [b]) bs

/-- What is kept of the buffer: `if(p == buf) m = 0;`. -/
def keep (re buf : List UInt8) : List UInt8 :=
  if (scan re [] buf).2.length = buf.length then [] else (scan re [] buf).2

/-- `grep` with `m` bytes `kept` in the buffer; `read` returns the chunks one after the other. -/
def grep (re kept : List UInt8) : List (List UInt8) → List (List UInt8)
  | [] => []
  | chunk :: chunks =>
    (scan re [] (kept ++ chunk)).1 ++ grep re (keep re (kept ++ chunk)) chunks

/-- `read` returns at least a byte, and not more than there is room for. -/
def Readable (re kept : List UInt8) : List (List UInt8) → Prop
  | [] => True
  | chunk :: chunks =>
    0 < chunk.length ∧ chunk.length ≤ 1024 - kept.length - 1 ∧
      Readable re (keep re (kept ++ chunk)) chunks

def text (lines : List (List UInt8)) : List UInt8 := lines.flatMap (· ++ [10])

/-- The lines that match, each once, complete and in order. -/
def matching (re : List UInt8) (lines : List (List UInt8)) : List (List UInt8) :=
  (lines.filter (matchRe re)).map (· ++ [10])

section Lines

variable {re kept line buf xs ys : List UInt8} {lines chunks : List (List UInt8)}

theorem scan_append : scan re line (xs ++ ys) =
    ((scan re line xs).1 ++ (scan re (scan re line xs).2 ys).1,
      (scan re (scan re line xs).2 ys).2) := by
  induction xs generalizing line with
  | nil => rfl
  | cons b xs ih =>
    rw [cons_append,scan,scan]
    by_cases hb : b = 10
    · rw [if_pos hb,if_pos hb,ih,append_assoc]
    · rw [if_neg hb,if_neg hb,ih]

theorem scan_of_notMem (h : 10 ∉ xs) : scan re line xs = ([], line ++ xs) := by
  induction xs generalizing line with
  | nil => rw [scan,append_nil]
  | cons b xs ih =>
    rw [scan,if_neg (by rintro rfl; exact h mem_cons_self),
      ih (fun hm => h (mem_cons_of_mem _ hm)),append_assoc]
    rfl

theorem scan_text (h : ∀ l ∈ lines, 10 ∉ l) : scan re [] (text lines) = (matching re lines, []) := by
  induction lines with
  | nil => rfl
  | cons l lines ih =>
    have hl : scan re [] (l ++ [10]) = (if matchRe re l then [l ++ [10]] else [], []) := by
      rw [scan_append,scan_of_notMem (h l mem_cons_self),nil_append]
      simp [scan]
    rw [text,flatMap_cons,scan_append,hl,← text,
      ih fun l hl => h l (mem_cons_of_mem _ hl),matching,matching,filter_cons]
    split <;> rfl

theorem scan_rest_lt (re line : List UInt8) (h : 10 ∈ xs) : (scan re line xs).2.length < line.length+xs.length := by
  induction xs generalizing line with
  | nil => cases h
  | cons b xs ih =>
    rw [scan,length_cons]
    by_cases hb : b = 10
    · rw [if_pos hb]
      by_cases hx : 10 ∈ xs
      · have := ih [] hx
        rw [length_nil] at this
        dsimp only
        omega
      · rw [scan_of_notMem hx,nil_append]
        dsimp only
        omega
    · rw [if_neg hb]
      have := ih (line ++ [b]) (mem_of_ne_of_mem (Ne.symm hb) h)
      rw [length_append,length_singleton] at this
      omega

theorem keep_of_mem (h : 10 ∈ buf) : keep re buf = (scan re [] buf).2 := by
  have := scan_rest_lt re [] h
  rw [length_nil,Nat.zero_add] at this
  exact if_neg (by omega)

theorem keep_of_notMem (h : 10 ∉ buf) : keep re buf = [] := by
  rw [keep,scan_of_notMem h]
  exact if_pos rfl

theorem notMem_scan (h : 10 ∉ line) : 10 ∉ (scan re line xs).2 := by
  induction xs generalizing line with
  | nil => exact h
  | cons b xs ih =>
    rw [scan]
    by_cases hb : b = 10
    · rw [if_pos hb]
      exact ih not_mem_nil
    · rw [if_neg hb]
      refine ih fun hm => ?_
      rcases List.mem_append.mp hm with hm | hm
      · exact h hm
      · exact hb (List.mem_singleton.mp hm).symm

theorem grep_eq_scan (h : ∀ chunk ∈ chunks, 10 ∈ chunk) (hk : 10 ∉ kept) :
    grep re kept chunks = (scan re kept chunks.flatten).1 := by
  induction chunks generalizing kept with
  | nil => rfl
  | cons chunk chunks ih =>
    have hkept : scan re [] kept = ([], kept) := scan_of_notMem hk
    have hscan : scan re [] (kept ++ chunk) = scan re kept chunk := by
      rw [scan_append,hkept]
      rfl
    have hmem : 10 ∈ kept ++ chunk := mem_append_right _ (h chunk mem_cons_self)
    rw [grep,keep_of_mem hmem,hscan,flatten_cons,scan_append,
      ih (fun c hc => h c (mem_cons_of_mem _ hc)) (notMem_scan hk)]

theorem length_scan_le (re line xs : List UInt8) :
    (scan re line xs).1.flatten.length + (scan re line xs).2.length ≤ line.length+xs.length := by
  induction xs generalizing line with
  | nil => simp [scan]
  | cons b xs ih =>
    rw [scan,length_cons]
    by_cases hb : b = 10
    · have := ih []
      rw [length_nil] at this
      rw [if_pos hb,flatten_append,length_append]
      have hline : (if matchRe re line then [line ++ [10]] else []).flatten.length ≤
          line.length + 1 := by
        split <;> simp
      dsimp only
      omega
    · have := ih (line ++ [b])
      rw [length_append,length_singleton] at this
      rw [if_neg hb]
      omega

theorem length_keep_le (re buf : List UInt8) : (keep re buf).length ≤ (scan re [] buf).2.length := by
  rw [keep]
  split
  · exact Nat.zero_le _
  · exact le_rfl

theorem length_grep_le (re kept : List UInt8) (chunks : List (List UInt8)) :
    (grep re kept chunks).flatten.length ≤ kept.length+chunks.flatten.length := by
  induction chunks generalizing kept with
  | nil => exact Nat.zero_le _
  | cons chunk chunks ih =>
    have hscan := length_scan_le re [] (kept ++ chunk)
    have hkeep := length_keep_le re (kept ++ chunk)
    have := ih (keep re (kept ++ chunk))
    rw [length_nil,length_append] at hscan
    rw [grep,flatten_append,length_append,flatten_cons,length_append]
    omega

theorem length_grep_lt (re : List UInt8) (hk : 10 ∉ kept) (h : ∃ chunk ∈ chunks, 10 ∉ chunk)
    (hpos : ∀ chunk ∈ chunks, 0 < chunk.length) :
    (grep re kept chunks).flatten.length < kept.length+chunks.flatten.length := by
  induction chunks generalizing kept with
  | nil =>
    obtain ⟨c,hc,-⟩ := h
    cases hc
  | cons chunk chunks ih =>
    have hscan := length_scan_le re [] (kept ++ chunk)
    have hkeep := length_keep_le re (kept ++ chunk)
    rw [length_nil,length_append] at hscan
    rw [grep,flatten_append,length_append,flatten_cons,length_append]
    by_cases hc : 10 ∈ chunk
    · have hrest : ∃ c ∈ chunks, 10 ∉ c := by
        obtain ⟨c,hmem,hnot⟩ := h
        rcases List.mem_cons.mp hmem with rfl | hmem
        · exact absurd hc hnot
        · exact ⟨c,hmem,hnot⟩
      have hmem : 10 ∈ kept ++ chunk := mem_append_right _ hc
      have hkept : 10 ∉ keep re (kept ++ chunk) := by
        rw [keep_of_mem hmem]
        exact notMem_scan not_mem_nil
      have := ih hkept hrest fun c hc => hpos c (mem_cons_of_mem _ hc)
      omega
    · have hmem : 10 ∉ kept ++ chunk := by
        rw [mem_append]
        exact not_or.mpr ⟨hk,hc⟩
      have hlt := hpos chunk mem_cons_self
      have hle := length_grep_le re [] chunks
      rw [keep_of_notMem hmem,scan_of_notMem hmem]
      simp only [flatten_nil,length_nil,Nat.zero_add] at hle ⊢
      omega

theorem Readable.pos (h : Readable re kept chunks) : ∀ chunk ∈ chunks, 0 < chunk.length := by
  induction chunks generalizing kept with
  | nil => exact fun _ hc => absurd hc not_mem_nil
  | cons chunk chunks ih =>
    intro c hc
    rcases List.mem_cons.mp hc with rfl | hc
    · exact h.1
    · exact ih h.2.2 c hc

theorem matchRe_nil (line : List UInt8) : matchRe [] line = true := by
  cases line <;> rfl

/-- **`grep` writes the matching lines, whatever the pattern, exactly if every chunk that `read`
returns ends a line.** -/
theorem grep_right_iff (hlines : ∀ l ∈ lines, 10 ∉ l ∧ 0 ∉ l ∧ l.length ≤ 1022)
    (hsplit : chunks.flatten = text lines) (hread : ∀ re, Readable re [] chunks) :
    (∀ re, grep re [] chunks = matching re lines) ↔ ∀ chunk ∈ chunks, 10 ∈ chunk := by
  have hnl : ∀ l ∈ lines, 10 ∉ l := fun l hl => (hlines l hl).1
  constructor
  · intro h
    by_contra hno
    push Not at hno
    -- the empty pattern matches every line, so everything should be written
    have hlt := length_grep_lt [] not_mem_nil hno (hread []).pos
    have hall : matching [] lines = lines.map (· ++ [10]) := by
      rw [matching,List.filter_eq_self.mpr fun l _ => matchRe_nil l]
    rw [h [],hall,hsplit,text,flatMap_def,length_nil,Nat.zero_add] at hlt
    exact absurd hlt (lt_irrefl _)
  · intro h re
    rw [grep_eq_scan h not_mem_nil,hsplit,scan_text hnl]

end Lines

/-- The line `"ab"` in two chunks. -/
def halves : List (List UInt8) := [[97], [98, 10]]

theorem readable_halves (re : List UInt8) : Readable re [] halves := by
  rw [halves,Readable,keep_of_notMem (by decide)]
  exact ⟨by decide,by decide,by decide,by decide,trivial⟩

theorem grep_right_iff_whole : (∀ re, grep re [] [[97, 98, 10]] = matching re [[97, 98]]) ↔
    ∀ chunk ∈ [[97, 98, (10 : UInt8)]], 10 ∈ chunk :=
  grep_right_iff (by decide) rfl fun _ => ⟨by decide,by decide,trivial⟩

/-- A chunk in which no line ends is dropped. -/
theorem grep_drops_fragment : ¬∀ (re : List UInt8) (lines chunks : List (List UInt8)),
    (∀ l ∈ lines, 10 ∉ l ∧ 0 ∉ l ∧ l.length ≤ 1022) → chunks.flatten = text lines →
      (∀ re, Readable re [] chunks) → grep re [] chunks = matching re lines := by
  intro h
  have hbad := h [] [[97,98]] halves (by decide) rfl readable_halves
  exact absurd hbad (by decide)

end Xv6Container.Grep
