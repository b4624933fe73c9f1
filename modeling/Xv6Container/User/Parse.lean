import Mathlib.Data.List.DropRight
import Xv6Container.User.Shell

/-! # The parser accepts exactly its grammar -/

namespace Xv6Container.Shell

open Function List
open Except (ok.inj)

variable {ps rest s : List UInt8} {ts us vs : List Token} {y : Sym}

theorem char_of_symOf {c : UInt8} (h : symOf c = some y) : y.char = c := by
  unfold symOf at h
  split_ifs at h with h1 h2 h3 h4 h5 h6 h7
  all_goals
    cases h
    symm
    assumption

theorem not_isSpace_of_symOf {c : UInt8} (h : symOf c = some y) : isSpace c = false := by
  rw [← char_of_symOf h]
  cases y <;> rfl

theorem not_isSpace_of_isWord {c : UInt8} (h : isWord c = true) : isSpace c = false := by
  rw [isWord,Bool.and_eq_true,Bool.not_eq_true'] at h
  exact h.1

theorem symOf_of_isWord {c : UInt8} (h : isWord c = true) : symOf c = none := by
  rw [isWord,Bool.and_eq_true,Option.isNone_iff_eq_none] at h
  exact h.2

theorem isWord_of_symOf_none {c : UInt8} (hs : isSpace c = false) (h : symOf c = none) :
    isWord c = true := by
  rw [isWord,hs,h]
  rfl

theorem spells_space {c : UInt8} (hc : isSpace c = true) : Spells (c :: s) ts ↔ Spells s ts := by
  constructor
  · intro h
    cases h with
    | space _ h => exact h
    | sym hy _ _ =>
      rw [not_isSpace_of_symOf hy] at hc
      cases hc
    | gtgt h => cases hc
    | word hw _ _ _ =>
      rw [not_isSpace_of_isWord hw] at hc
      cases hc
  · exact .space hc

theorem spells_nil : Spells [] ts ↔ ts = [] := by
  constructor
  · intro h
    cases h
    rfl
  · rintro rfl
    exact .nil

theorem spells_sym {c : UInt8} (hc : symOf c = some y) (hgt : y = .gt → s.head? ≠ some 62) :
    Spells (c :: s) ts ↔ ∃ us, ts = .sym y :: us ∧ Spells s us := by
  constructor
  · intro h
    cases h with
    | space hsp h =>
      rw [not_isSpace_of_symOf hc] at hsp
      cases hsp
    | @sym _ y' _ us hy' _ h =>
      obtain rfl := Option.some.inj (hc.symm.trans hy')
      exact ⟨us,rfl,h⟩
    | gtgt h =>
      cases hc
      exact absurd rfl (hgt rfl)
    | word hw _ _ _ =>
      rw [symOf_of_isWord hw] at hc
      cases hc
  · rintro ⟨us,rfl,h⟩
    exact .sym hc hgt h

theorem spells_gtgt : Spells (62 :: 62 :: s) ts ↔ ∃ us, ts = .sym .gtgt :: us ∧ Spells s us := by
  constructor
  · intro h
    generalize ht : (62 : UInt8) :: s = t at h
    cases h with
    | space hsp h => cases hsp
    | sym hy hgt h =>
      cases hy
      rw [← ht] at hgt
      exact absurd rfl (hgt rfl)
    | @gtgt _ us h =>
      obtain ⟨-,rfl⟩ := List.cons.inj ht
      exact ⟨us,rfl,h⟩
    | word hw _ _ _ => cases hw
  · rintro ⟨us,rfl,h⟩
    exact .gtgt h

theorem word_unique {w w' s s' : List UInt8} (h : w ++ s = w' ++ s')
    (hw : ∀ b ∈ w, isWord b = true) (hw' : ∀ b ∈ w', isWord b = true)
    (hs : ∀ b ∈ s.head?, isWord b = false) (hs' : ∀ b ∈ s'.head?, isWord b = false) :
    w = w' ∧ s = s' := by
  induction w generalizing w' with
  | nil =>
    cases w' with
    | nil => exact ⟨rfl,h⟩
    | cons b w' =>
      have hb := hs b (by rw [nil_append] at h; rw [h]; rfl)
      rw [hw' b mem_cons_self] at hb
      cases hb
  | cons a w ih =>
    cases w' with
    | nil =>
      have ha := hs' a (by rw [nil_append] at h; rw [← h]; rfl)
      rw [hw a mem_cons_self] at ha
      cases ha
    | cons b w' =>
      obtain ⟨rfl,hrest⟩ := List.cons.inj h
      obtain ⟨rfl,rfl⟩ := ih hrest (fun b hb => hw b (mem_cons_of_mem _ hb))
        fun b hb => hw' b (mem_cons_of_mem _ hb)
      exact ⟨rfl,rfl⟩

theorem spells_word {c : UInt8} {w : List UInt8} (hc : isWord c = true)
    (hw : ∀ b ∈ w, isWord b = true) (hend : ∀ b ∈ s.head?, isWord b = false) :
    Spells (c :: (w ++ s)) ts ↔ ∃ us, ts = .word (c :: w) :: us ∧ Spells s us := by
  constructor
  · intro h
    generalize ht : w ++ s = t at h
    cases h with
    | space hsp h =>
      rw [not_isSpace_of_isWord hc] at hsp
      cases hsp
    | sym hy _ h =>
      rw [symOf_of_isWord hc] at hy
      cases hy
    | gtgt h => cases hc
    | @word _ w' s' us _ hw' hend' h =>
      obtain ⟨rfl,rfl⟩ := word_unique ht hw hw' hend hend'
      exact ⟨us,rfl,h⟩
  · rintro ⟨us,rfl,h⟩
    exact .word hc hw hend h

theorem spells_skip : Spells (skip s) ts ↔ Spells s ts := by
  induction s with
  | nil => exact Iff.rfl
  | cons c s ih =>
    by_cases hc : isSpace c = true
    · rw [skip,dropWhile_cons_of_pos hc,spells_space hc]
      exact ih
    · rw [skip,dropWhile_cons_of_neg hc]

theorem skip_skip : skip (skip s) = skip s := dropWhile_idempotent _ _

theorem skip_suffix : skip s <:+ s := dropWhile_suffix _

theorem not_isSpace_of_skip {c : UInt8} {t : List UInt8} (h : skip s = c :: t) :
    isSpace c = false := by
  have hnot := head?_dropWhile_not isSpace s
  rw [skip] at h
  rw [h] at hnot
  exact hnot

/-- What `gettoken` finds at `ps`: the end, a symbol, or a word. Texts of `ps` are those of `rest`
with one more token in front. -/
inductive Next (ps : List UInt8) : Got → Prop
  | eof (hskip : skip ps = []) (hspell : ∀ ts, Spells ps ts ↔ ts = []) :
      Next ps ⟨.eof, [], [], []⟩
  | sym {y : Sym} {q eq rest : List UInt8} (hskip : (skip ps).head? = some y.char)
      (hsuf : rest <:+ ps) (hlt : rest.length < ps.length)
      (hspell : ∀ ts, Spells ps ts ↔ ∃ us, ts = .sym y :: us ∧ Spells rest us) :
      Next ps ⟨.sym y, q, eq, rest⟩
  | word {c : UInt8} {w eq rest : List UInt8} (hskip : skip ps = c :: (w ++ eq))
      (hc : isWord c = true) (hw : ∀ b ∈ w, isWord b = true)
      (hend : ∀ b ∈ eq.head?, isWord b = false)
      (hsuf : rest <:+ ps) (hlt : rest.length < ps.length)
      (hspell : ∀ ts, Spells ps ts ↔ ∃ us, ts = .word (c :: w) :: us ∧ Spells rest us) :
      Next ps ⟨.word, c :: (w ++ eq), eq, rest⟩

theorem next_of_sym {c : UInt8} {q eq t : List UInt8} (hskip : skip ps = c :: t)
    (hc : symOf c = some y) (hgt : y = .gt → t.head? ≠ some 62) :
    Next ps ⟨.sym y, q, eq, skip t⟩ := by
  have hsuf : c :: t <:+ ps := hskip ▸ skip_suffix
  have hrest : skip t <:+ ps := (skip_suffix.trans (suffix_cons c t)).trans hsuf
  refine .sym ?_ hrest ?_ fun ts => ?_
  · rw [hskip,char_of_symOf hc]
    rfl
  · have := hsuf.length_le
    have := (skip_suffix (s := t)).length_le
    rw [length_cons] at *
    omega
  · rw [← spells_skip,hskip,spells_sym hc hgt]
    simp only [spells_skip]

theorem next_gettoken (ps : List UInt8) : Next ps (gettoken ps) := by
  rw [gettoken]
  cases hskip : skip ps with
  | nil =>
    refine .eof hskip fun ts => ?_
    rw [← spells_skip,hskip,spells_nil]
  | cons c t =>
    have hsuf : c :: t <:+ ps := hskip ▸ skip_suffix
    have hlen := hsuf.length_le
    rw [length_cons] at hlen
    change Next ps (gettokenAt c t)
    unfold gettokenAt
    split
    · next hc =>
      split
      · next hhead =>
        obtain ⟨t',rfl⟩ : ∃ t', t = 62 :: t' := by
          cases t with
          | nil => cases hhead
          | cons b t' =>
            cases hhead
            exact ⟨t',rfl⟩
        obtain rfl := char_of_symOf hc
        have hsub : skip t' <:+ Sym.char .gt :: 62 :: t' :=
          (skip_suffix.trans (suffix_cons 62 t')).trans (suffix_cons _ _)
        refine .sym ?_ (hsub.trans hsuf) ?_ fun ts => ?_
        · rw [hskip]
          rfl
        · have := (skip_suffix (s := t')).length_le
          rw [length_cons] at hlen
          change (skip t').length < _
          omega
        · rw [← spells_skip,hskip]
          change Spells (62 :: 62 :: t') ts ↔ ∃ us, ts = .sym .gtgt :: us ∧ Spells (skip t') us
          rw [spells_gtgt]
          simp only [spells_skip]
      · next hhead => exact next_of_sym hskip hc fun _ => hhead
    · next y hne hc =>
      exact next_of_sym hskip hc fun hy => absurd hy hne
    · next hc =>
      have hw : isWord c = true := isWord_of_symOf_none (not_isSpace_of_skip hskip) hc
      have hsplit := takeWhile_append_dropWhile (p := isWord) (l := t)
      have hdrop : (c :: t).dropWhile isWord = t.dropWhile isWord :=
        dropWhile_cons_of_pos hw
      rw [hdrop]
      generalize hwt : t.takeWhile isWord = w at hsplit
      have hall : ∀ b ∈ w, isWord b = true := by
        intro b hb
        rw [← hwt] at hb
        exact mem_takeWhile_imp hb
      have hend : ∀ b ∈ (t.dropWhile isWord).head?, isWord b = false := by
        intro b hb
        have hnot := head?_dropWhile_not isWord t
        rw [hb] at hnot
        exact hnot
      generalize t.dropWhile isWord = e at hsplit hend
      subst hsplit
      have hsub : skip e <:+ c :: (w ++ e) :=
        (skip_suffix.trans (suffix_append w e)).trans (suffix_cons _ _)
      refine .word hskip hw hall hend (hsub.trans hsuf) ?_ fun ts => ?_
      · have := (skip_suffix (s := e)).length_le
        rw [length_append] at hlen
        omega
      · rw [← spells_skip,hskip,spells_word hw hall hend]
        simp only [spells_skip]

theorem gettoken_skip (ps : List UInt8) : gettoken (skip ps) = gettoken ps := by
  rw [gettoken,gettoken,skip_skip]

/-- A test of `peek` that no byte of a word passes. -/
def SymTest (toks : UInt8 → Bool) : Prop := ∀ c, isWord c = true → toks c = false

theorem peek_snd (ps : List UInt8) (toks : UInt8 → Bool) : (peek ps toks).2 = skip ps := by
  rw [peek]
  cases skip ps with
  | nil => rfl
  | cons c t => rfl

theorem peek_fst {toks : UInt8 → Bool} (ht : SymTest toks) {g : Got} (h : Next ps g) :
    (peek ps toks).1 = match g.tok with
      | .sym y => toks y.char
      | _ => false := by
  rw [peek]
  cases h with
  | eof hskip _ => rw [hskip]
  | @sym y q eq rest hskip _ _ _ =>
    cases hs : skip ps with
    | nil =>
      rw [hs] at hskip
      cases hskip
    | cons c t =>
      rw [hs] at hskip
      obtain rfl := Option.some.inj hskip
      rfl
  | word hskip hc _ _ _ _ _ =>
    rw [hskip]
    exact ht _ hc

/-- From `ps` on the tokens `ts` have been read, and `rest` is left. -/
structure Reads (ps : List UInt8) (ts : List Token) (rest : List UInt8) : Prop where
  spells : ∀ us, Spells ps (ts ++ us) ↔ Spells rest us
  suffix : rest <:+ ps

theorem Reads.skip (ps : List UInt8) : Reads ps [] (skip ps) :=
  ⟨fun _ => spells_skip.symm,skip_suffix⟩

theorem Reads.trans {ps' : List UInt8} (h : Reads ps ts ps') (h' : Reads ps' us rest) :
    Reads ps (ts ++ us) rest := by
  refine ⟨fun vs => ?_,h'.suffix.trans h.suffix⟩
  rw [append_assoc,h.spells,h'.spells]

theorem Reads.then_skip (h : Reads ps ts rest) : Reads ps ts (Shell.skip rest) := by
  have hskip := h.trans (Reads.skip rest)
  rw [append_nil] at hskip
  exact hskip

def Span.text (w : Span) : List UInt8 := w.q.take (w.q.length - w.eq.length)

/-- A word of the line `s`: its bytes are bytes of words, and the byte behind it is not. -/
structure Good (s : List UInt8) (w : Span) : Prop where
  split : w.q = w.text ++ w.eq
  word : ∀ b ∈ w.text, isWord b = true
  behind : ∀ b ∈ w.eq.head?, isWord b = false
  suffix : w.q <:+ s

theorem text_mk (w eq : List UInt8) : Span.text ⟨w ++ eq, eq⟩ = w := by
  simp [Span.text]

theorem Next.good {g : Got} (h : Next ps g) (hg : g.tok = .word) (hs : ps <:+ s) :
    Good s ⟨g.q, g.eq⟩ ∧ Reads ps [.word (Span.text ⟨g.q, g.eq⟩)] g.rest := by
  cases h with
  | eof _ _ => cases hg
  | sym _ _ _ _ => cases hg
  | @word c w eq rest hskip hc hw hend hsuf _ hspell =>
    have htext : Span.text ⟨c :: (w ++ eq),eq⟩ = c :: w := text_mk (c :: w) eq
    refine ⟨⟨?_,?_,hend,?_⟩,⟨fun us => ?_,hsuf⟩⟩
    · rw [htext]
      rfl
    · rw [htext]
      exact List.forall_mem_cons.mpr ⟨hc,hw⟩
    · show c :: (w ++ eq) <:+ s
      rw [← hskip]
      exact skip_suffix.trans hs
    · rw [hspell,htext]
      simp

theorem Next.reads_sym {g : Got} (h : Next ps g) (hg : g.tok = .sym y) :
    Reads ps [.sym y] g.rest := by
  cases h with
  | eof _ _ => cases hg
  | word _ _ _ _ _ _ _ => cases hg
  | sym _ hsuf _ hspell =>
    cases hg
    refine ⟨fun us => ?_,hsuf⟩
    rw [hspell]
    simp

theorem Next.length_lt {g : Got} (h : Next ps g) (hg : g.tok ≠ .eof) :
    g.rest.length < ps.length := by
  cases h with
  | eof _ _ => exact absurd rfl hg
  | word _ _ _ _ _ hlt _ => exact hlt
  | sym _ _ hlt _ => exact hlt

def Cmd.All {ω : Type} (P : ω → Prop) : Cmd ω → Prop
  | .exec argv => ∀ w ∈ argv, P w
  | .redir cmd file _ _ => cmd.All P ∧ P file
  | .pipe left right => left.All P ∧ right.All P
  | .list left right => left.All P ∧ right.All P
  | .back cmd => cmd.All P

section Trees

variable {ω ω' : Type} {f g : ω → ω'} {P : ω → Prop} {c : Cmd ω} {rs : List (Redir ω)}

theorem map_wrap : (wrap c rs).map f = wrap (c.map f) (rs.map (Redir.map f)) := by
  induction rs generalizing c with
  | nil => rfl
  | cons r rs ih => exact ih

theorem map_backs (k : ℕ) : (backs k c).map f = backs k (c.map f) := by
  induction k generalizing c with
  | zero => rfl
  | succ k ih => exact ih

theorem all_wrap : (wrap c rs).All P ↔ c.All P ∧ ∀ r ∈ rs, P r.file := by
  induction rs generalizing c with
  | nil => simp [wrap]
  | cons r rs ih =>
    change (wrap (.redir c r.file r.mode r.fd) rs).All P ↔ _
    rw [ih,forall_mem_cons,Cmd.All,and_assoc]

theorem all_backs (k : ℕ) : (backs k c).All P ↔ c.All P := by
  induction k generalizing c with
  | zero => rfl
  | succ k ih => exact ih

theorem map_congr (h : c.All fun w => f w = g w) : c.map f = c.map g := by
  induction c with
  | exec argv => exact congrArg Cmd.exec (map_congr_left h)
  | redir cmd file mode fd ih => rw [Cmd.map,Cmd.map,ih h.1,h.2]
  | pipe left right ihl ihr | list left right ihl ihr => rw [Cmd.map,Cmd.map,ihl h.1,ihr h.2]
  | back cmd ih => rw [Cmd.map,Cmd.map,ih h]

theorem Cmd.All.mono {Q : ω → Prop} (h : c.All P) (hPQ : ∀ w, P w → Q w) : c.All Q := by
  induction c with
  | exec argv => exact fun w hw => hPQ w (h w hw)
  | redir cmd file mode fd ih => exact ⟨ih h.1,hPQ _ h.2⟩
  | pipe left right ihl ihr | list left right ihl ihr => exact ⟨ihl h.1,ihr h.2⟩
  | back cmd ih => exact ih h

theorem Cmd.All.and {Q : ω → Prop} (h : c.All P) (h' : c.All Q) : c.All fun w => P w ∧ Q w := by
  induction c with
  | exec argv => exact fun w hw => ⟨h w hw,h' w hw⟩
  | redir cmd file mode fd ih => exact ⟨ih h.1 h'.1,h.2,h'.2⟩
  | pipe left right ihl ihr | list left right ihl ihr => exact ⟨ihl h.1 h'.1,ihr h.2 h'.2⟩
  | back cmd ih => exact ih h h'

end Trees

theorem peek_cases {toks : UInt8 → Bool} (ht : SymTest toks) (ps : List UInt8) :
    (∃ y, (gettoken ps).tok = .sym y ∧ toks y.char = true ∧ (peek ps toks).1 = true) ∨
      (∀ y, (gettoken ps).tok = .sym y → toks y.char = false) ∧ (peek ps toks).1 = false := by
  have hpeek := peek_fst ht (next_gettoken ps)
  cases htok : (gettoken ps).tok with
  | eof | word =>
    rw [htok] at hpeek
    exact .inr ⟨fun y hy => Tok.noConfusion hy,hpeek⟩
  | sym y =>
    rw [htok] at hpeek
    cases hy : toks y.char with
    | true => exact .inl ⟨y,rfl,hy,hpeek.trans hy⟩
    | false =>
      refine .inr ⟨fun y' hy' => ?_,hpeek.trans hy⟩
      cases hy'
      exact hy

theorem symTest_of_char {toks : UInt8 → Bool} (h : ∀ c, toks c = true → (symOf c).isSome = true) :
    SymTest toks := by
  intro c hc
  by_contra hne
  have hsome := h c (Bool.eq_true_of_not_eq_false hne)
  rw [symOf_of_isWord hc] at hsome
  cases hsome

theorem symTest_redir : SymTest fun c => c = 60 || c = 62 := by
  refine symTest_of_char fun c hc => ?_
  simp only [Bool.or_eq_true,decide_eq_true_eq] at hc
  rcases hc with rfl | rfl <;> rfl

theorem symTest_stop : SymTest fun c => c = 124 || c = 41 || c = 38 || c = 59 := by
  refine symTest_of_char fun c hc => ?_
  simp only [Bool.or_eq_true,decide_eq_true_eq] at hc
  rcases hc with ((rfl | rfl) | rfl) | rfl <;> rfl

theorem tok_of_spells_sym (h : Spells ps (.sym y :: us)) :
    (gettoken ps).tok = .sym y ∧ Spells (gettoken ps).rest us := by
  have hnext := next_gettoken ps
  generalize gettoken ps = g at hnext
  cases hnext with
  | eof _ hspell => cases (hspell _).mp h
  | sym _ _ _ hspell =>
    obtain ⟨us',heq,hrest⟩ := (hspell _).mp h
    cases heq
    exact ⟨rfl,hrest⟩
  | word _ _ _ _ _ _ hspell =>
    obtain ⟨us',heq,-⟩ := (hspell _).mp h
    cases heq

theorem tok_of_spells_word {w : List UInt8} (h : Spells ps (.word w :: us)) :
    (gettoken ps).tok = .word ∧ Span.text ⟨(gettoken ps).q, (gettoken ps).eq⟩ = w ∧
      Spells (gettoken ps).rest us := by
  have hnext := next_gettoken ps
  generalize gettoken ps = g at hnext
  cases hnext with
  | eof _ hspell => cases (hspell _).mp h
  | sym _ _ _ hspell =>
    obtain ⟨us',heq,-⟩ := (hspell _).mp h
    cases heq
  | @word c w' eq _ _ _ _ _ _ _ hspell =>
    obtain ⟨us',heq,hrest⟩ := (hspell _).mp h
    cases heq
    exact ⟨rfl,text_mk (c :: w') eq,hrest⟩

/-- The first of a list of tokens, as `gettoken` returns it. -/
def headTok : List Token → Tok
  | [] => .eof
  | .sym y :: _ => .sym y
  | .word _ :: _ => .word

theorem tok_of_spells (h : Spells ps ts) : (gettoken ps).tok = headTok ts := by
  cases ts with
  | nil =>
    have hnext := next_gettoken ps
    generalize gettoken ps = g at hnext
    cases hnext with
    | eof _ _ => rfl
    | sym _ _ _ hspell | word _ _ _ _ _ _ hspell =>
      obtain ⟨us',heq,-⟩ := (hspell _).mp h
      cases heq
  | cons t ts =>
    cases t with
    | sym y => exact (tok_of_spells_sym h).1
    | word w => exact (tok_of_spells_word h).1

theorem peek_sym {b : UInt8} (hb : symOf b = some y) (hy : y ≠ .gt) :
    (peek ps fun c => c = b).1 = true ↔ (gettoken ps).tok = .sym y := by
  have htest : SymTest fun c => c = b := by
    refine symTest_of_char fun c hc => ?_
    rw [of_decide_eq_true hc,hb]
    rfl
  rcases peek_cases htest ps with ⟨y',htok,hchar,hpeek⟩ | ⟨hno,hpeek⟩
  · obtain rfl : y' = y := by
      rw [← of_decide_eq_true hchar] at hb
      cases y' <;> cases hb <;> first | rfl | exact absurd rfl hy
    exact iff_of_true hpeek htok
  · exact iff_of_false (ne_true_of_eq_false hpeek) fun htok =>
      of_decide_eq_false (hno y htok) (char_of_symOf hb)

theorem peek_amp : (peek ps fun c => c = 38).1 = true ↔ (gettoken ps).tok = .sym .amp :=
  peek_sym rfl Sym.noConfusion

theorem peek_semi : (peek ps fun c => c = 59).1 = true ↔ (gettoken ps).tok = .sym .semi :=
  peek_sym rfl Sym.noConfusion

theorem peek_pipe : (peek ps fun c => c = 124).1 = true ↔ (gettoken ps).tok = .sym .pipe :=
  peek_sym rfl Sym.noConfusion

theorem peek_lpar : (peek ps fun c => c = 40).1 = true ↔ (gettoken ps).tok = .sym .lpar :=
  peek_sym rfl Sym.noConfusion

theorem peek_rpar : (peek ps fun c => c = 41).1 = true ↔ (gettoken ps).tok = .sym .rpar :=
  peek_sym rfl Sym.noConfusion

theorem ok_of_bind {α β : Type} {x : Except Err α} {f : α → Except Err β} {r : β}
    (h : (x >>= f) = .ok r) : ∃ a, x = .ok a ∧ f a = .ok r := by
  cases x with
  | error e => cases h
  | ok a => exact ⟨a,rfl,h⟩

theorem redirOf_text {tok : Tok} (htok : tok = .sym y) (hy : y.char = 60 ∨ y.char = 62) (w : Span) :
    ∃ r, redirOf tok w = [r] ∧ redirTo y w.text = some (r.map Span.text) ∧ r.file = w := by
  subst htok
  cases y <;> first
    | exact ⟨_,rfl,rfl,rfl⟩
    | (rcases hy with hy | hy <;> cases hy)

theorem parseredirs_sound {n : ℕ} {r : List (Redir Span) × List UInt8}
    (h : parseredirs n ps = .ok r) (hs : ps <:+ s) :
    ∃ u, Redirs u (r.1.map (Redir.map Span.text)) ∧ Reads ps u r.2 ∧ ∀ x ∈ r.1, Good s x.file := by
  induction n generalizing ps r with
  | zero => cases h
  | succ n ih =>
    rw [parseredirs] at h
    simp only [peek_snd,gettoken_skip] at h
    rcases peek_cases symTest_redir ps with ⟨y,htok,hchar,hpeek⟩ | ⟨-,hpeek⟩
    · rw [if_pos hpeek] at h
      split at h
      · next hword =>
        obtain ⟨more,hmore,heq⟩ := ok_of_bind h
        obtain rfl := ok.inj heq
        have hsym := (next_gettoken ps).reads_sym htok
        obtain ⟨hgood,hread⟩ := (next_gettoken (gettoken ps).rest).good hword (hsym.suffix.trans hs)
        obtain ⟨u,hu,hrest,hall⟩ := ih hmore (hread.suffix.trans (hsym.suffix.trans hs))
        simp only [Bool.or_eq_true,decide_eq_true_eq] at hchar
        obtain ⟨x,hx,hto,hfile⟩ := redirOf_text htok hchar
          ⟨(gettoken (gettoken ps).rest).q,(gettoken (gettoken ps).rest).eq⟩
        refine ⟨_,?_,(hsym.trans hread).trans hrest,?_⟩
        · rw [hx]
          exact .cons hto hu
        · rw [hx]
          refine List.forall_mem_cons.mpr ⟨?_,hall⟩
          rw [hfile]
          exact hgood
      · cases h
    · rw [if_neg (ne_true_of_eq_false hpeek)] at h
      obtain rfl := ok.inj h
      exact ⟨[],.nil,Reads.skip ps,by simp⟩

theorem parseargs_sound {n argc : ℕ} {r : (List Span × List (Redir Span)) × List UInt8}
    (h : parseargs n argc ps = .ok r) (hs : ps <:+ s) :
    ∃ u, Words u (r.1.1.map Span.text) (r.1.2.map (Redir.map Span.text)) ∧ Reads ps u r.2 ∧
      (∀ w ∈ r.1.1, Good s w) ∧ (∀ x ∈ r.1.2, Good s x.file) ∧
      (r.1.1 = [] ∨ argc + r.1.1.length < MAXARGS) := by
  induction n generalizing ps r argc with
  | zero => cases h
  | succ n ih =>
    rw [parseargs] at h
    simp only [peek_snd,gettoken_skip] at h
    have hnone : Reads ps [] (skip ps) := Reads.skip ps
    split at h
    · obtain rfl := ok.inj h
      exact ⟨[],.nil,hnone,by simp,by simp,.inl rfl⟩
    split at h
    · next htok =>
      obtain rfl := ok.inj h
      refine ⟨[],.nil,?_,by simp,by simp,.inl rfl⟩
      have hnext := next_gettoken ps
      cases hg : gettoken ps with
      | mk tok q eq rest =>
        rw [hg] at hnext htok
        cases hnext with
        | eof hskip _ =>
          rw [hskip] at hnone
          exact hnone
        | sym _ _ _ _ => cases htok
        | word _ _ _ _ _ _ _ => cases htok
    · cases h
    · next htok =>
      split at h
      · cases h
      · next hargc =>
        obtain ⟨rs,hrs,h⟩ := ok_of_bind h
        obtain ⟨more,hmore,heq⟩ := ok_of_bind h
        obtain rfl := ok.inj heq
        obtain ⟨hgood,hread⟩ := (next_gettoken ps).good htok hs
        obtain ⟨u,hu,hur,hug⟩ := parseredirs_sound hrs (hread.suffix.trans hs)
        obtain ⟨v,hv,hvr,hvg,hvx,hlen⟩ := ih hmore (hur.suffix.trans (hread.suffix.trans hs))
        refine ⟨_,?_,(hread.trans hur).trans hvr,List.forall_mem_cons.mpr ⟨hgood,hvg⟩,?_,?_⟩
        · rw [map_cons,map_append]
          exact .cons hu hv
        · intro x hx
          rcases List.mem_append.mp hx with hx | hx
          · exact hug x hx
          · exact hvx x hx
        · right
          rw [length_cons]
          rcases hlen with hnil | hlen
          · rw [hnil,length_nil]
            omega
          · omega

theorem parseamps_sound {n : ℕ} {r : ℕ × List UInt8} (h : parseamps n ps = .ok r) :
    Reads ps (List.replicate r.1 (.sym .amp)) r.2 := by
  induction n generalizing ps r with
  | zero => cases h
  | succ n ih =>
    rw [parseamps] at h
    simp only [peek_snd,gettoken_skip,peek_amp] at h
    split at h
    · next htok =>
      have hread := (next_gettoken ps).reads_sym htok
      obtain ⟨more,hmore,heq⟩ := ok_of_bind h
      obtain rfl := ok.inj heq
      exact hread.trans (ih hmore)
    · obtain rfl := ok.inj h
      exact Reads.skip ps

theorem parseblock_succ (n : ℕ) : parseblock (n + 1) ps =
    if (gettoken ps).tok = .sym .lpar then do
      let cmd ← parseline n (gettoken ps).rest
      let close := gettoken cmd.2
      if close.tok = .sym .rpar then do
        let r ← parseredirs (close.rest.length + 1) close.rest
        pure (wrap cmd.1 r.1, r.2)
      else .error (.panic "syntax - missing )")
    else .error (.panic "parseblock") := by
  rw [parseblock]
  simp only [peek_snd,gettoken_skip,Bool.not_eq_true',← Bool.not_eq_true,peek_lpar,peek_rpar,ite_not]

/-- What a function of the parser has read is derived from its nonterminal, with the tree that it
returns. -/
def Parsed (s : List UInt8) (nt : Nt) (ps : List UInt8) (r : Cmd Span × List UInt8) : Prop :=
  ∃ u, Derives nt u (r.1.map Span.text) ∧ Reads ps u r.2 ∧ r.1.All (Good s)

theorem Parsed.of_reads {nt : Nt} {ps' : List UInt8} {r : Cmd Span × List UInt8}
    (h : Parsed s nt ps' r) (hread : Reads ps [] ps') : Parsed s nt ps r := by
  obtain ⟨u,hu,hr,hg⟩ := h
  exact ⟨u,hu,hread.trans hr,hg⟩

theorem parsesimple_sound {r : Cmd Span × List UInt8} (h : parsesimple ps = .ok r)
    (hs : ps <:+ s) : Parsed s .exec ps r := by
  obtain ⟨rs,hrs,h⟩ := ok_of_bind h
  obtain ⟨args,hargs,heq⟩ := ok_of_bind h
  obtain rfl := ok.inj heq
  obtain ⟨u,hu,hur,hug⟩ := parseredirs_sound hrs hs
  obtain ⟨v,hv,hvr,hvg,hvx,hlen⟩ := parseargs_sound hargs (hur.suffix.trans hs)
  refine ⟨u ++ v,?_,hur.trans hvr,?_⟩
  · rw [map_wrap,map_append,Cmd.map]
    refine .simple hu hv ?_
    rw [length_map]
    rcases hlen with hnil | hlen
    · rw [hnil]
      exact Nat.zero_le _
    · omega
  · rw [all_wrap]
    refine ⟨hvg,fun x hx => ?_⟩
    rcases List.mem_append.mp hx with hx | hx
    · exact hug x hx
    · exact hvx x hx

/-- The functions of the parser with fuel `n` are sound. -/
structure Sound (s : List UInt8) (n : ℕ) : Prop where
  line : ∀ {ps r}, ps <:+ s → parseline n ps = .ok r → Parsed s .line ps r
  pipe : ∀ {ps r}, ps <:+ s → parsepipe n ps = .ok r → Parsed s .pipe ps r
  exec : ∀ {ps r}, ps <:+ s → parseexec n ps = .ok r → Parsed s .exec ps r
  block : ∀ {ps r}, ps <:+ s → parseblock n ps = .ok r → Parsed s .exec ps r

namespace Sound

variable {n : ℕ} {r : Cmd Span × List UInt8}

theorem parseline (ih : Sound s n) (hs : ps <:+ s) (h : parseline (n+1) ps = .ok r) :
    Parsed s .line ps r := by
  rw [Shell.parseline] at h
  obtain ⟨cmd,hcmd,h⟩ := ok_of_bind h
  obtain ⟨amps,hamps,h⟩ := ok_of_bind h
  obtain ⟨u,hu,hur,hug⟩ := ih.pipe hs hcmd
  have har := hur.trans (parseamps_sound hamps)
  simp only [peek_snd,gettoken_skip,peek_semi] at h
  split at h
  · next htok =>
    have hsemi := (next_gettoken amps.2).reads_sym htok
    obtain ⟨more,hmore,heq⟩ := ok_of_bind h
    obtain rfl := ok.inj heq
    obtain ⟨v,hv,hvr,hvg⟩ := ih.line (hsemi.suffix.trans (har.suffix.trans hs)) hmore
    refine ⟨_,?_,har.trans (hsemi.trans hvr),(all_backs _).mpr hug,hvg⟩
    rw [Cmd.map,map_backs]
    exact .lines amps.1 hu hv
  · obtain rfl := ok.inj h
    refine ⟨_,?_,har.then_skip,(all_backs _).mpr hug⟩
    rw [map_backs]
    exact .line amps.1 hu

theorem parsepipe (ih : Sound s n) (hs : ps <:+ s) (h : parsepipe (n+1) ps = .ok r) :
    Parsed s .pipe ps r := by
  rw [Shell.parsepipe] at h
  obtain ⟨cmd,hcmd,h⟩ := ok_of_bind h
  obtain ⟨u,hu,hur,hug⟩ := ih.exec hs hcmd
  simp only [peek_snd,gettoken_skip,peek_pipe] at h
  split at h
  · next htok =>
    have hpipe := (next_gettoken cmd.2).reads_sym htok
    obtain ⟨more,hmore,heq⟩ := ok_of_bind h
    obtain rfl := ok.inj heq
    obtain ⟨v,hv,hvr,hvg⟩ := ih.pipe (hpipe.suffix.trans (hur.suffix.trans hs)) hmore
    exact ⟨_,.pipes hu hv,hur.trans (hpipe.trans hvr),hug,hvg⟩
  · obtain rfl := ok.inj h
    exact ⟨u,.pipe hu,hur.then_skip,hug⟩

theorem parseexec (ih : Sound s n) (hs : ps <:+ s) (h : parseexec (n+1) ps = .ok r) :
    Parsed s .exec ps r := by
  rw [Shell.parseexec] at h
  simp only [peek_snd] at h
  split at h
  · exact (ih.block (skip_suffix.trans hs) h).of_reads (Reads.skip ps)
  · exact (parsesimple_sound h (skip_suffix.trans hs)).of_reads (Reads.skip ps)

theorem parseblock (ih : Sound s n) (hs : ps <:+ s) (h : parseblock (n+1) ps = .ok r) :
    Parsed s .exec ps r := by
  rw [parseblock_succ] at h
  split at h
  · next htok =>
    have hopen := (next_gettoken ps).reads_sym htok
    obtain ⟨cmd,hcmd,h⟩ := ok_of_bind h
    obtain ⟨u,hu,hur,hug⟩ := ih.line (hopen.suffix.trans hs) hcmd
    dsimp only at h
    split at h
    · next htok' =>
      have hclose := (next_gettoken cmd.2).reads_sym htok'
      obtain ⟨rs,hrs,heq⟩ := ok_of_bind h
      obtain rfl := ok.inj heq
      have hread := (hopen.trans hur).trans hclose
      obtain ⟨v,hv,hvr,hvg⟩ := parseredirs_sound hrs (hread.suffix.trans hs)
      refine ⟨_,?_,(hopen.trans hur).trans (hclose.trans hvr),all_wrap.mpr ⟨hug,hvg⟩⟩
      rw [map_wrap]
      exact .block hu hv
    · cases h
  · cases h

end Sound

theorem parse_sound (s : List UInt8) (n : ℕ) : Sound s n := by
  induction n with
  | zero =>
    refine ⟨fun _ h => ?_,fun _ h => ?_,fun _ h => ?_,fun _ h => ?_⟩
    · rw [parseline] at h
      cases h
    · rw [parsepipe] at h
      cases h
    · rw [parseexec] at h
      cases h
    · rw [parseblock] at h
      cases h
  | succ n ih => exact ⟨ih.parseline,ih.parsepipe,ih.parseexec,ih.parseblock⟩

/-- The parser returns a result with the property, if the fuel lasts. -/
def Runs {α : Type} (x : Except Err α) (Q : α → Prop) : Prop :=
  x = .error .fuel ∨ ∃ r, x = .ok r ∧ Q r

section Runs

variable {α β : Type} {x : Except Err α} {f : α → Except Err β} {Q : α → Prop} {R : β → Prop}

theorem Runs.bind (h : Runs x Q) (hf : ∀ r, Q r → Runs (f r) R) : Runs (x >>= f) R := by
  rcases h with rfl | ⟨r,rfl,hr⟩
  · exact .inl rfl
  · exact hf r hr

theorem Runs.pure {r : α} (h : Q r) : Runs (.ok r) Q := .inr ⟨r,rfl,h⟩

end Runs

/-- A token that `parseredirs` stops at. -/
def NoRedir (v : List Token) : Prop :=
  ∀ y, headTok v = .sym y → (y.char = 60 || y.char = 62 : Bool) = false

theorem redirTo_char {w : List UInt8} {r : Redir (List UInt8)} (h : redirTo y w = some r) :
    (y.char = 60 || y.char = 62 : Bool) = true := by
  cases y <;> first | rfl | cases h

theorem redirOf_of_redirTo {r : Redir (List UInt8)} {w : Span}
    (h : redirTo y w.text = some r) : (redirOf (.sym y) w).map (Redir.map Span.text) = [r] := by
  cases y <;> cases h <;> rfl

theorem parseredirs_complete {rs : List (Redir (List UInt8))} (h : Redirs us rs) {n : ℕ}
    (hs : Spells ps (us ++ vs)) (hv : NoRedir vs) :
    Runs (parseredirs n ps) fun r => r.1.map (Redir.map Span.text) = rs ∧ Spells r.2 vs := by
  induction h generalizing n ps with
  | nil =>
    cases n with
    | zero => exact .inl rfl
    | succ n =>
      rw [parseredirs]
      simp only [peek_snd,gettoken_skip]
      rcases peek_cases symTest_redir ps with ⟨y,htok,hchar,-⟩ | ⟨-,hpeek⟩
      · rw [tok_of_spells hs] at htok
        rw [hv y htok] at hchar
        cases hchar
      · rw [if_neg (ne_true_of_eq_false hpeek)]
        exact .pure ⟨rfl,spells_skip.mpr hs⟩
  | @cons y w r ts rs hr h ih =>
    cases n with
    | zero => exact .inl rfl
    | succ n =>
      obtain ⟨htok,hs'⟩ := tok_of_spells_sym hs
      obtain ⟨hword,htext,hrest⟩ := tok_of_spells_word hs'
      rw [parseredirs]
      simp only [peek_snd,gettoken_skip]
      rcases peek_cases symTest_redir ps with ⟨y',-,-,hpeek⟩ | ⟨hno,-⟩
      · rw [if_pos hpeek,if_pos hword]
        refine (ih hrest).bind fun more hmore => .pure ⟨?_,hmore.2⟩
        rw [← htext] at hr
        rw [map_append,hmore.1,htok,redirOf_of_redirTo hr]
        rfl
      · have hchar := hno y htok
        rw [redirTo_char hr] at hchar
        cases hchar

/-- A token that the loop of `parseexec` stops at. -/
def Stops (v : List Token) : Prop :=
  headTok v = .eof ∨
    ∃ y, headTok v = .sym y ∧ (y.char = 124 || y.char = 41 || y.char = 38 || y.char = 59 : Bool) = true

theorem Stops.noRedir (h : Stops vs) : NoRedir vs := by
  intro y hy
  rcases h with h | ⟨y',h,hchar⟩
  · rw [h] at hy
    cases hy
  · rw [h] at hy
    cases hy
    cases y <;> first | rfl | cases hchar

theorem noRedir_words {ws : List (List UInt8)} {rs : List (Redir (List UInt8))}
    (h : Words us ws rs) (hv : Stops vs) : NoRedir (us ++ vs) := by
  cases h with
  | nil => exact hv.noRedir
  | cons _ _ => exact fun y hy => Tok.noConfusion hy

theorem parseargs_complete {ws : List (List UInt8)} {rs : List (Redir (List UInt8))}
    (h : Words us ws rs) {n argc : ℕ} (hs : Spells ps (us ++ vs)) (hv : Stops vs)
    (hlen : argc + ws.length < MAXARGS) :
    Runs (parseargs n argc ps) fun r => r.1.1.map Span.text = ws ∧
      r.1.2.map (Redir.map Span.text) = rs ∧ Spells r.2 vs := by
  induction h generalizing n ps argc with
  | nil =>
    cases n with
    | zero => exact .inl rfl
    | succ n =>
      rw [parseargs]
      simp only [peek_snd,gettoken_skip]
      rcases peek_cases symTest_stop ps with ⟨y,-,-,hpeek⟩ | ⟨hno,hpeek⟩
      · rw [if_pos hpeek]
        exact .pure ⟨rfl,rfl,spells_skip.mpr hs⟩
      rw [if_neg (ne_true_of_eq_false hpeek)]
      have htok := tok_of_spells hs
      rcases hv with hv | ⟨y,hv,hchar⟩
      · have hnext := next_gettoken ps
        rw [nil_append,hv] at htok
        generalize gettoken ps = g at hnext htok
        cases hnext with
        | sym _ _ _ _ => cases htok
        | word _ _ _ _ _ _ _ => cases htok
        | eof _ hspell =>
          refine .pure ⟨rfl,rfl,?_⟩
          obtain rfl : vs = [] := (hspell _).mp hs
          exact .nil
      · rw [hno y (htok.trans hv)] at hchar
        cases hchar
  | @cons ts us w ws rs rs' h hrest ih =>
    cases n with
    | zero => exact .inl rfl
    | succ n =>
      have hs' : Spells ps (.word w :: (ts ++ (us ++ vs))) := by
        rw [← append_assoc]
        exact hs
      obtain ⟨htok,htext,hspell⟩ := tok_of_spells_word hs'
      rw [length_cons] at hlen
      rw [parseargs]
      simp only [peek_snd,gettoken_skip]
      rcases peek_cases symTest_stop ps with ⟨y,hy,-,-⟩ | ⟨-,hpeek⟩
      · rw [htok] at hy
        cases hy
      · rw [if_neg (ne_true_of_eq_false hpeek)]
        simp only [htok]
        rw [if_neg (by omega)]
        refine (parseredirs_complete h hspell (noRedir_words hrest hv)).bind fun r hr => ?_
        refine (ih hr.2 (by omega)).bind fun more hmore => .pure ⟨?_,?_,hmore.2.2⟩
        · rw [map_cons,htext,hmore.1]
        · rw [map_append,hr.1,hmore.2.1]

theorem parseamps_complete {k n : ℕ} (hs : Spells ps (List.replicate k (.sym .amp) ++ vs))
    (hv : headTok vs ≠ .sym .amp) : Runs (parseamps n ps) fun r => r.1 = k ∧ Spells r.2 vs := by
  induction k generalizing n ps with
  | zero =>
    cases n with
    | zero => exact .inl rfl
    | succ n =>
      rw [parseamps]
      simp only [peek_snd,gettoken_skip,peek_amp]
      rw [if_neg ((tok_of_spells hs).trans_ne hv)]
      exact .pure ⟨rfl,spells_skip.mpr hs⟩
  | succ k ih =>
    cases n with
    | zero => exact .inl rfl
    | succ n =>
      rw [parseamps]
      simp only [peek_snd,gettoken_skip,peek_amp]
      rw [if_pos (tok_of_spells_sym hs).1]
      refine (ih (tok_of_spells_sym hs).2).bind fun r hr => .pure ⟨?_,hr.2⟩
      rw [hr.1]

def parseNt : Nt → ℕ → List UInt8 → Except Err (Cmd Span × List UInt8)
  | .line => parseline
  | .pipe => parsepipe
  | .exec => parseexec

/-- The symbols that may follow a nonterminal. -/
def followers : Nt → List Sym
  | .line => [.rpar]
  | .pipe => [.rpar, .amp, .semi]
  | .exec => [.rpar, .amp, .semi, .pipe]

/-- The tokens may follow a nonterminal. -/
def Follows (nt : Nt) (v : List Token) : Prop :=
  headTok v = .eof ∨ ∃ y ∈ followers nt, headTok v = .sym y

theorem Follows.ne_of_not_mem {nt : Nt} (h : Follows nt vs) (hy : y ∉ followers nt) :
    headTok vs ≠ .sym y := by
  intro htok
  rcases h with h | ⟨y',hy',h⟩
  · rw [h] at htok
    cases htok
  · rw [h] at htok
    cases htok
    exact hy hy'

theorem Follows.stops (h : Follows .exec vs) : Stops vs := by
  rcases h with h | ⟨y,hy,h⟩
  · exact .inl h
  · refine .inr ⟨y,h,?_⟩
    simp only [followers,mem_cons,not_mem_nil,or_false] at hy
    rcases hy with rfl | rfl | rfl | rfl <;> rfl

theorem Follows.mono {nt nt' : Nt} (h : Follows nt vs) (hsub : followers nt ⊆ followers nt') :
    Follows nt' vs := by
  rcases h with h | ⟨y,hy,h⟩
  · exact .inl h
  · exact .inr ⟨y,hsub hy,h⟩

/-- The result of the parser is the tree `c`, and the tokens `v` are left. -/
def Gives (c : Cmd (List UInt8)) (v : List Token) (r : Cmd Span × List UInt8) : Prop :=
  r.1.map Span.text = c ∧ Spells r.2 v

theorem parsesimple_complete {ws : List (List UInt8)} {rs rs' : List (Redir (List UInt8))}
    (h : Redirs ts rs) (hws : Words us ws rs') (hlen : ws.length ≤ MAXARGS-1)
    (hs : Spells ps (ts ++ us ++ vs)) (hv : Stops vs) :
    Runs (parsesimple ps) (Gives (wrap (.exec ws) (rs ++ rs')) vs) := by
  rw [append_assoc] at hs
  refine (parseredirs_complete h hs (noRedir_words hws hv)).bind fun r hr => ?_
  have hargc : 0 + ws.length < MAXARGS := by
    rw [Nat.zero_add]
    exact Nat.lt_succ_of_le hlen
  refine (parseargs_complete hws hr.2 hv hargc).bind fun a ha => .pure ⟨?_,ha.2.2⟩
  rw [map_wrap,map_append,hr.1,ha.2.1,Cmd.map,ha.1]

theorem headTok_simple {ws : List (List UInt8)} {rs rs' : List (Redir (List UInt8))}
    (h : Redirs ts rs) (hws : Words us ws rs') (hv : Stops vs) :
    headTok (ts ++ (us ++ vs)) ≠ .sym .lpar := by
  intro htok
  cases h with
  | @cons y _ _ _ _ hr _ =>
    obtain rfl : y = .lpar := Tok.sym.inj htok
    cases hr
  | nil =>
    cases hws with
    | cons _ _ => cases htok
    | nil =>
      rcases hv with hv | ⟨y,hv,hchar⟩
      · cases hv.symm.trans htok
      · obtain rfl : y = .lpar := Tok.sym.inj (hv.symm.trans htok)
        cases hchar

theorem parseblock_complete {c : Cmd (List UInt8)} {rs : List (Redir (List UInt8))} {n : ℕ}
    (ih : ∀ {ps vs}, Spells ps (ts ++ vs) → Follows .line vs → Runs (parseline n ps) (Gives c vs))
    (hrs : Redirs us rs) (hs : Spells ps (.sym .lpar :: (ts ++ .sym .rpar :: (us ++ vs))))
    (hv : Stops vs) : Runs (parseblock (n+1) ps) (Gives (wrap c rs) vs) := by
  obtain ⟨htok,hs'⟩ := tok_of_spells_sym hs
  rw [parseblock_succ,if_pos htok]
  refine (ih hs' (.inr ⟨.rpar,mem_cons_self,rfl⟩)).bind fun cmd hcmd => ?_
  obtain ⟨htok',hs''⟩ := tok_of_spells_sym hcmd.2
  dsimp only
  rw [if_pos htok']
  refine (parseredirs_complete hrs hs'' hv.noRedir).bind fun r hr => .pure ⟨?_,hr.2⟩
  rw [map_wrap,hr.1,hcmd.1]

theorem parsepipe_end {n : ℕ} {c : Cmd (List UInt8)} (h : Runs (parseexec n ps) (Gives c vs))
    (hv : headTok vs ≠ .sym .pipe) : Runs (parsepipe (n+1) ps) (Gives c vs) := by
  rw [parsepipe]
  simp only [peek_snd,gettoken_skip,peek_pipe]
  refine h.bind fun cmd hcmd => ?_
  rw [tok_of_spells hcmd.2,if_neg hv]
  exact .pure ⟨hcmd.1,spells_skip.mpr hcmd.2⟩

theorem parsepipe_pipe {n : ℕ} {c d : Cmd (List UInt8)}
    (h : Runs (parseexec n ps) (Gives c (.sym .pipe :: us)))
    (ih : ∀ {ps}, Spells ps us → Runs (parsepipe n ps) (Gives d vs)) :
    Runs (parsepipe (n+1) ps) (Gives (.pipe c d) vs) := by
  rw [parsepipe]
  simp only [peek_snd,gettoken_skip,peek_pipe]
  refine h.bind fun cmd hcmd => ?_
  obtain ⟨htok,hs⟩ := tok_of_spells_sym hcmd.2
  rw [if_pos htok]
  refine (ih hs).bind fun more hmore => .pure ⟨?_,hmore.2⟩
  rw [Cmd.map,hcmd.1,hmore.1]

theorem parseline_end {n k : ℕ} {c : Cmd (List UInt8)}
    (h : Runs (parsepipe n ps) (Gives c (List.replicate k (.sym .amp) ++ vs)))
    (hv : Follows .line vs) : Runs (parseline (n+1) ps) (Gives (backs k c) vs) := by
  rw [parseline]
  simp only [peek_snd,gettoken_skip,peek_semi]
  refine h.bind fun cmd hcmd => ?_
  refine (parseamps_complete hcmd.2 (hv.ne_of_not_mem (by decide))).bind fun a ha => ?_
  rw [tok_of_spells ha.2,if_neg (hv.ne_of_not_mem (by decide))]
  refine .pure ⟨?_,spells_skip.mpr ha.2⟩
  rw [map_backs,hcmd.1,ha.1]

theorem parseline_semi {n k : ℕ} {c d : Cmd (List UInt8)}
    (h : Runs (parsepipe n ps) (Gives c (List.replicate k (.sym .amp) ++ .sym .semi :: us)))
    (ih : ∀ {ps}, Spells ps us → Runs (parseline n ps) (Gives d vs)) :
    Runs (parseline (n+1) ps) (Gives (.list (backs k c) d) vs) := by
  rw [parseline]
  simp only [peek_snd,gettoken_skip,peek_semi]
  refine h.bind fun cmd hcmd => ?_
  refine (parseamps_complete hcmd.2 (fun htok => by cases htok)).bind fun a ha => ?_
  obtain ⟨htok,hs⟩ := tok_of_spells_sym ha.2
  rw [if_pos htok]
  refine (ih hs).bind fun more hmore => .pure ⟨?_,hmore.2⟩
  rw [Cmd.map,map_backs,hcmd.1,ha.1,hmore.1]

theorem follows_amps (k : ℕ) (hv : Follows .pipe vs) :
    Follows .pipe (List.replicate k (.sym .amp) ++ vs) := by
  cases k with
  | zero => exact hv
  | succ k => exact .inr ⟨.amp,by decide,rfl⟩

theorem parse_complete {nt : Nt} {c : Cmd (List UInt8)} (h : Derives nt ts c) {n : ℕ}
    (hs : Spells ps (ts ++ vs)) (hv : Follows nt vs) : Runs (parseNt nt n ps) (Gives c vs) := by
  induction h generalizing n ps vs with
  | line k h ih =>
    cases n with
    | zero => exact .inl (by rw [parseNt,parseline])
    | succ n =>
      rw [append_assoc] at hs
      exact parseline_end (ih hs (follows_amps k (hv.mono (by decide)))) hv
  | lines k h hrest ih ihrest =>
    cases n with
    | zero => exact .inl (by rw [parseNt,parseline])
    | succ n =>
      rw [append_assoc,append_assoc] at hs
      refine parseline_semi (ih hs (follows_amps k (.inr ⟨.semi,by decide,rfl⟩))) fun hs' => ?_
      exact ihrest hs' hv
  | pipe h ih =>
    cases n with
    | zero => exact .inl (by rw [parseNt,parsepipe])
    | succ n => exact parsepipe_end (ih hs (hv.mono (by decide))) (hv.ne_of_not_mem (by decide))
  | pipes h hrest ih ihrest =>
    cases n with
    | zero => exact .inl (by rw [parseNt,parsepipe])
    | succ n =>
      rw [append_assoc] at hs
      exact parsepipe_pipe (ih hs (.inr ⟨.pipe,by decide,rfl⟩)) fun hs' => ihrest hs' hv
  | @block ts us c rs h hrs ih =>
    have hs' : Spells ps (.sym .lpar :: (ts ++ .sym .rpar :: (us ++ vs))) := by
      rw [append_assoc] at hs
      exact hs
    cases n with
    | zero => exact .inl (by rw [parseNt,parseexec])
    | succ n =>
      rw [parseNt,parseexec]
      simp only [peek_snd,peek_lpar]
      rw [if_pos (tok_of_spells_sym hs').1]
      cases n with
      | zero => exact .inl (by rw [parseblock])
      | succ n => exact parseblock_complete ih hrs (spells_skip.mpr hs') hv.stops
  | @simple ts us ws rs rs' h hws hlen =>
    cases n with
    | zero => exact .inl (by rw [parseNt,parseexec])
    | succ n =>
      rw [parseNt,parseexec]
      simp only [peek_snd,peek_lpar]
      rw [tok_of_spells hs,append_assoc,if_neg (headTok_simple h hws hv.stops)]
      exact parsesimple_complete h hws hlen (spells_skip.mpr hs) hv.stops

section Halts

/-- The fuel lasts. -/
def Halts {α : Type} (x : Except Err α) : Prop := x ≠ .error .fuel

variable {α β : Type} {x : Except Err α} {f : α → Except Err β}

theorem Halts.bind (h : Halts x) (hf : ∀ r, x = .ok r → Halts (f r)) : Halts (x >>= f) := by
  cases x with
  | error e => exact fun he => h (congrArg Except.error (Except.error.inj he))
  | ok r => exact hf r rfl

theorem Halts.ok (r : α) : Halts (.ok r) := fun he => by cases he

theorem Halts.panic (msg : String) : Halts (.error (.panic msg) : Except Err α) :=
  fun he => Err.noConfusion (Except.error.inj he)

end Halts

theorem gettoken_length_lt (ps : List UInt8) (h : (gettoken ps).tok ≠ .eof) :
    (gettoken ps).rest.length < ps.length :=
  (next_gettoken ps).length_lt h

theorem parseredirs_halts {n : ℕ} (h : ps.length < n) : Halts (parseredirs n ps) := by
  induction n generalizing ps with
  | zero => exact absurd h (Nat.not_lt_zero _)
  | succ n ih =>
    rw [parseredirs]
    simp only [peek_snd,gettoken_skip]
    rcases peek_cases symTest_redir ps with ⟨y,htok,-,hpeek⟩ | ⟨-,hpeek⟩
    · rw [if_pos hpeek]
      split
      · next hword =>
        have hlt := gettoken_length_lt ps (by rw [htok]; exact Tok.noConfusion)
        have hlt' := gettoken_length_lt (gettoken ps).rest (by rw [hword]; exact Tok.noConfusion)
        exact (ih (by omega)).bind fun r _ => .ok _
      · exact .panic _
    · rw [if_neg (ne_true_of_eq_false hpeek)]
      exact .ok _

theorem parseredirs_length {n : ℕ} {r : List (Redir Span) × List UInt8}
    (h : parseredirs n ps = .ok r) : r.2.length ≤ ps.length := by
  obtain ⟨u,-,hread,-⟩ := parseredirs_sound h (suffix_refl ps)
  exact hread.suffix.length_le

theorem parseargs_halts {n argc : ℕ} (h : ps.length < n) : Halts (parseargs n argc ps) := by
  induction n generalizing ps argc with
  | zero => exact absurd h (Nat.not_lt_zero _)
  | succ n ih =>
    rw [parseargs]
    simp only [peek_snd,gettoken_skip]
    split
    · exact .ok _
    split
    · exact .ok _
    · exact .panic _
    · next htok =>
      split
      · exact .panic _
      · have hlt := gettoken_length_lt ps (by rw [htok]; exact Tok.noConfusion)
        refine (parseredirs_halts (Nat.lt_succ_self _)).bind fun r hr => ?_
        have hle := parseredirs_length hr
        exact (ih (by omega)).bind fun more _ => .ok _

theorem parseamps_halts {n : ℕ} (h : ps.length < n) : Halts (parseamps n ps) := by
  induction n generalizing ps with
  | zero => exact absurd h (Nat.not_lt_zero _)
  | succ n ih =>
    rw [parseamps]
    simp only [peek_snd,gettoken_skip,peek_amp]
    split
    · next htok =>
      have hlt := gettoken_length_lt ps (by rw [htok]; exact Tok.noConfusion)
      exact (ih (by omega)).bind fun r _ => .ok _
    · exact .ok _

theorem parsesimple_halts (ps : List UInt8) : Halts (parsesimple ps) :=
  (parseredirs_halts (Nat.lt_succ_self _)).bind fun _ _ =>
    (parseargs_halts (Nat.lt_succ_self _)).bind fun _ _ => .ok _

theorem Parsed.length_le {nt : Nt} {r : Cmd Span × List UInt8} (h : Parsed s nt ps r) :
    r.2.length ≤ ps.length := by
  obtain ⟨u,-,hread,-⟩ := h
  exact hread.suffix.length_le

/-- A call needs less fuel than its caller has left: it comes later in the cycle line, pipe, exec,
block, or an opening parenthesis has been read. -/
theorem parse_halts (n : ℕ) (ps : List UInt8) :
    (4 * ps.length + 4 ≤ n → Halts (parseline n ps)) ∧
    (4 * ps.length + 3 ≤ n → Halts (parsepipe n ps)) ∧
    (4 * ps.length + 2 ≤ n → Halts (parseexec n ps)) ∧
    (4 * ps.length + 1 ≤ n → Halts (parseblock n ps)) := by
  induction n generalizing ps with
  | zero => refine ⟨fun h => ?_,fun h => ?_,fun h => ?_,fun h => ?_⟩ <;> omega
  | succ n ih =>
    refine ⟨fun h => ?_,fun h => ?_,fun h => ?_,fun h => ?_⟩
    · rw [parseline]
      simp only [peek_snd,gettoken_skip,peek_semi]
      refine ((ih ps).2.1 (by omega)).bind fun cmd hcmd => ?_
      have hle := ((parse_sound ps n).pipe (suffix_refl ps) hcmd).length_le
      refine (parseamps_halts (Nat.lt_succ_self _)).bind fun a ha => ?_
      have hle' := (parseamps_sound ha).suffix.length_le
      split
      · next htok =>
        have hlt := gettoken_length_lt a.2 (by rw [htok]; exact Tok.noConfusion)
        exact ((ih _).1 (by omega)).bind fun more _ => .ok _
      · exact .ok _
    · rw [parsepipe]
      simp only [peek_snd,gettoken_skip,peek_pipe]
      refine ((ih ps).2.2.1 (by omega)).bind fun cmd hcmd => ?_
      have hle := ((parse_sound ps n).exec (suffix_refl ps) hcmd).length_le
      split
      · next htok =>
        have hlt := gettoken_length_lt cmd.2 (by rw [htok]; exact Tok.noConfusion)
        exact ((ih _).2.1 (by omega)).bind fun more _ => .ok _
      · exact .ok _
    · rw [parseexec]
      simp only [peek_snd]
      have hle := (skip_suffix (s := ps)).length_le
      split
      · exact (ih _).2.2.2 (by omega)
      · exact parsesimple_halts _
    rw [parseblock_succ]
    split
    · next htok =>
      have hlt := gettoken_length_lt ps (by rw [htok]; exact Tok.noConfusion)
      refine ((ih _).1 (by omega)).bind fun cmd _ => ?_
      dsimp only
      split
      · exact (parseredirs_halts (Nat.lt_succ_self _)).bind fun r _ => .ok _
      · exact .panic _
    · exact .panic _

/-- The bytes of words are still in the buffer. -/
def Intact (s : List UInt8) (buf : Buffer) : Prop :=
  ∀ b t, b :: t <:+ s → isWord b = true → buf (t.length + 1) = b

theorem intact_bufferOf (s : List UInt8) : Intact s (bufferOf s) := by
  rintro b t ⟨l,rfl⟩ -
  have hlen : (l ++ b :: t).length - (t.length+1) = l.length := by
    rw [length_append,length_cons,Nat.add_sub_cancel]
  rw [bufferOf,hlen,drop_left]
  rfl

theorem Intact.cut {buf : Buffer} {w : Span} (h : Intact s buf) (hw : Good s w) :
    Intact s (cut buf w) := by
  intro b t hsuf hb
  have hne : t.length + 1 ≠ w.eq.length := by
    -- otherwise the byte would be the one behind the word
    intro hlen
    have heq : w.eq <:+ s := by
      refine List.IsSuffix.trans ?_ hw.suffix
      rw [hw.split]
      exact suffix_append _ _
    have hsame : b :: t = w.eq := (suffix_of_suffix_length_le hsuf heq hlen.le).eq_of_length hlen
    have hword := hw.behind b (by rw [← hsame]; rfl)
    rw [hb] at hword
    cases hword
  rw [Shell.cut,update_of_ne hne]
  exact h b t hsuf hb

theorem cut_zero {buf : Buffer} {w : Span} {d : ℕ} (h : buf d = 0) : cut buf w d = 0 := by
  rw [cut]
  by_cases hd : d = w.eq.length
  · rw [hd,update_self]
  · rw [update_of_ne hd,h]

theorem foldl_cut_zero {buf : Buffer} {d : ℕ} (argv : List Span) (h : buf d = 0) :
    argv.foldl cut buf d = 0 := by
  induction argv generalizing buf with
  | nil => exact h
  | cons w argv ih => exact ih (cut_zero h)

theorem nulterminate_zero {c : Cmd Span} {buf : Buffer} {d : ℕ} (h : buf d = 0) :
    nulterminate c buf d = 0 := by
  induction c generalizing buf with
  | exec argv => exact foldl_cut_zero argv h
  | redir cmd file mode fd ih => exact cut_zero (ih h)
  | pipe left right ihl ihr | list left right ihl ihr => exact ihr (ihl h)
  | back cmd ih => exact ih h

theorem nulterminate_ends (c : Cmd Span) (buf : Buffer) :
    c.All fun w => nulterminate c buf w.eq.length = 0 := by
  induction c generalizing buf with
  | exec argv =>
    intro w hw
    obtain ⟨before,after,rfl⟩ := append_of_mem hw
    rw [nulterminate,foldl_append]
    exact foldl_cut_zero after (update_self _ _ _)
  | redir cmd file mode fd ih =>
    exact ⟨(ih buf).mono fun w hw => cut_zero hw,update_self _ _ _⟩
  | pipe left right ihl ihr | list left right ihl ihr =>
    exact ⟨(ihl buf).mono fun w hw => nulterminate_zero (c := right) hw,ihr _⟩
  | back cmd ih => exact ih buf

theorem Intact.nulterminate {c : Cmd Span} {buf : Buffer} (h : Intact s buf)
    (hc : c.All (Good s)) : Intact s (nulterminate c buf) := by
  induction c generalizing buf with
  | exec argv =>
    rw [Shell.nulterminate]
    induction argv generalizing buf with
    | nil => exact h
    | cons w argv ih =>
      obtain ⟨hw,hargv⟩ := List.forall_mem_cons.mp hc
      exact ih (h.cut hw) hargv
  | redir cmd file mode fd ih => exact (ih h hc.1).cut hc.2
  | pipe left right ihl ihr | list left right ihl ihr => exact ihr (ihl h hc.1) hc.2
  | back cmd ih => exact ih h hc

theorem Intact.cstr {buf : Buffer} (h : Intact s buf) (hs : 0 ∉ s) {w eq : List UInt8}
    (hw : ∀ b ∈ w, isWord b = true) (hsuf : w ++ eq <:+ s) (heq : buf eq.length = 0) :
    cstr buf (w ++ eq).length = w := by
  induction w with
  | nil =>
    rw [nil_append]
    cases eq with
    | nil => rfl
    | cons b t =>
      rw [length_cons] at heq ⊢
      rw [Shell.cstr,if_pos heq]
  | cons b w ih =>
    have hb := h b (w ++ eq) hsuf (hw b mem_cons_self)
    have hne : b ≠ 0 := by
      rintro rfl
      exact hs (hsuf.subset mem_cons_self)
    rw [cons_append,length_cons,Shell.cstr,hb,if_neg hne]
    rw [ih (fun b hb => hw b (mem_cons_of_mem _ hb)) ((suffix_cons b _).trans hsuf)]

theorem all_cstr {c : Cmd Span} (hs : 0 ∉ s) (hc : c.All (Good s)) :
    c.All fun w => cstr (nulterminate c (bufferOf s)) w.q.length = w.text := by
  have hintact := (intact_bufferOf s).nulterminate hc
  have hends := nulterminate_ends c (bufferOf s)
  refine (hc.and hends).mono fun w hw => ?_
  have hstr := hintact.cstr hs hw.1.word (hw.1.split ▸ hw.1.suffix) hw.2
  rw [← hw.1.split] at hstr
  exact hstr

theorem skip_of_spells_nil (h : Spells ps []) : skip ps = [] := by
  have htok := tok_of_spells h
  have hnext := next_gettoken ps
  generalize gettoken ps = g at hnext htok
  cases hnext with
  | eof hskip _ => exact hskip
  | sym _ _ _ _ => cases htok
  | word _ _ _ _ _ _ _ => cases htok

theorem spells_nil_of_skip (h : skip ps = []) : Spells ps [] := by
  rw [← spells_skip,h]
  exact .nil

theorem parsecmd_halts (s : List UInt8) : Halts (parsecmd s) := by
  refine ((parse_halts (4 * s.length + 4) s).1 le_rfl).bind fun cmd _ => ?_
  simp only [peek_snd]
  split
  · exact .panic _
  · exact .ok _

theorem parsecmd_sound {t : Cmd (List UInt8)} (hs : 0 ∉ s) (h : parsecmd s = .ok t) :
    Accepts s t := by
  obtain ⟨cmd,hcmd,h⟩ := ok_of_bind h
  simp only [peek_snd] at h
  split at h
  · cases h
  · next hskip =>
    obtain ⟨u,hu,hread,hgood⟩ := (parse_sound s _).line (suffix_refl s) hcmd
    obtain rfl := ok.inj h
    rw [map_congr (all_cstr hs hgood)]
    refine ⟨u,?_,hu⟩
    have hspell := (hread.spells []).mpr (spells_nil_of_skip (not_not.mp hskip))
    rw [append_nil] at hspell
    exact hspell

theorem parsecmd_complete {t : Cmd (List UInt8)} (hs : 0 ∉ s) (h : Accepts s t) :
    parsecmd s = .ok t := by
  obtain ⟨ts,hspell,hd⟩ := h
  rw [← append_nil ts] at hspell
  rcases parse_complete (n := 4 * s.length + 4) hd hspell (.inl rfl) with hfuel | ⟨cmd,hcmd,hmap,hnil⟩
  · exact absurd hfuel ((parse_halts (4 * s.length + 4) s).1 le_rfl)
  · obtain ⟨u,-,-,hgood⟩ := (parse_sound s _).line (suffix_refl s) hcmd
    have hline : parseline (4 * s.length + 4) s = .ok cmd := hcmd
    rw [parsecmd,hline]
    change (if (peek cmd.2 fun _ => false).2 ≠ [] then _ else _) = _
    rw [peek_snd,skip_of_spells_nil hnil,if_neg (not_not.mpr rfl),
      map_congr (all_cstr hs hgood),hmap]
    rfl

/-- `parsecmd` comes to an end on every string, and returns a tree if and only if the string is
derived from the grammar with this tree. The tree is the only one. -/
theorem parsecmd_iff_accepts (s : List UInt8) (hs : 0 ∉ s) :
    parsecmd s ≠ .error .fuel ∧ (∀ t, parsecmd s = .ok t ↔ Accepts s t) ∧
      ∀ t t', Accepts s t → Accepts s t' → t = t' := by
  refine ⟨parsecmd_halts s,fun t => ⟨parsecmd_sound hs,parsecmd_complete hs⟩,?_⟩
  intro t t' h h'
  exact ok.inj ((parsecmd_complete hs h).symm.trans (parsecmd_complete hs h'))

/-- `(a;b>c)&`. -/
theorem parsecmd_iff_accepts_block :
    Accepts [40, 97, 59, 98, 62, 99, 41, 38]
      (.back (.list (.exec [[97]]) (.redir (.exec [[98]]) [99] (O_WRONLY ||| O_CREATE) 1))) := by
  refine ((parsecmd_iff_accepts _ ?_).2.1 _).mp ?_
  · decide
  · decide +kernel

/-- The null pointer behind the arguments of a command has room in `argv`. -/
def Cmd.Short {ω : Type} : Cmd ω → Prop
  | .exec argv => argv.length < MAXARGS
  | .redir cmd _ _ _ => cmd.Short
  | .pipe left right => left.Short ∧ right.Short
  | .list left right => left.Short ∧ right.Short
  | .back cmd => cmd.Short

section Short

variable {ω ω' : Type} {c : Cmd ω}

theorem short_wrap {rs : List (Redir ω)} : (wrap c rs).Short ↔ c.Short := by
  induction rs generalizing c with
  | nil => rfl
  | cons r rs ih => exact ih

theorem short_backs (k : ℕ) : (backs k c).Short ↔ c.Short := by
  induction k generalizing c with
  | zero => rfl
  | succ k ih => exact ih

theorem short_map {f : ω → ω'} : (c.map f).Short ↔ c.Short := by
  induction c with
  | exec argv => rw [Cmd.map,Cmd.Short,Cmd.Short,length_map]
  | redir cmd file mode fd ih => exact ih
  | pipe left right ihl ihr | list left right ihl ihr => exact and_congr ihl ihr
  | back cmd ih => exact ih

theorem Derives.short {nt : Nt} {c : Cmd (List UInt8)} (h : Derives nt ts c) : c.Short := by
  induction h with
  | line k _ ih => exact (short_backs k).mpr ih
  | lines k _ _ ih ihr => exact ⟨(short_backs k).mpr ih,ihr⟩
  | pipe _ ih => exact ih
  | pipes _ _ ih ihr => exact ⟨ih,ihr⟩
  | block _ _ ih => exact short_wrap.mpr ih
  | simple _ _ hlen => exact short_wrap.mpr (Nat.lt_succ_of_le hlen)

end Short

/-- Every string in the tree is the word of the line that it was read as, and each array of
arguments has an entry left for the null pointer. -/
theorem nulterminate_keeps_words {t : Cmd (List UInt8)} (hs : 0 ∉ s) (h : parsecmd s = .ok t) :
    ∃ cmd rest, parseline (4 * s.length + 4) s = .ok (cmd, rest) ∧
      t = cmd.map (fun w => cstr (nulterminate cmd (bufferOf s)) w.q.length) ∧
      (cmd.All fun w => Good s w ∧ cstr (nulterminate cmd (bufferOf s)) w.q.length = w.text) ∧
      cmd.Short := by
  obtain ⟨cmd,hcmd,h⟩ := ok_of_bind h
  obtain ⟨u,hu,-,hgood⟩ := (parse_sound s _).line (suffix_refl s) hcmd
  refine ⟨cmd.1,cmd.2,hcmd,?_,hgood.and (all_cstr hs hgood),short_map.mp hu.short⟩
  dsimp only at h
  split at h
  · cases h
  · exact (ok.inj h).symm

/-- `a>b|c`. -/
theorem nulterminate_keeps_words_adjacent : ∃ cmd rest,
    parseline 24 [97, 62, 98, 124, 99] = .ok (cmd, rest) ∧
      cmd.All fun w => cstr (nulterminate cmd (bufferOf [97, 62, 98, 124, 99])) w.q.length =
        w.text := by
  obtain ⟨cmd,rest,hcmd,-,hall,-⟩ := nulterminate_keeps_words (s := [97,62,98,124,99])
    (t := .pipe (.redir (.exec [[97]]) [98] (O_WRONLY ||| O_CREATE) 1) (.exec [[99]]))
    (by decide) (by decide +kernel)
  exact ⟨cmd,rest,hcmd,hall.mono fun w hw => hw.2⟩

end Xv6Container.Shell
