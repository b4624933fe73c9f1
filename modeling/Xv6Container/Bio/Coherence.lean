import Xv6Container.Bio.Model
import Xv6Container.Lib.Slots
import Xv6Container.Lib.Tally

/-! # The buffer cache is coherent -/

namespace Xv6Container.Bio

open Function Run List Option

variable {disk : Key → Block BSIZE} {s t : State} {p q : Pid} {b c : BufId} {k : Key}

/-- The links form one circle through the head and all the buffers. -/
def Ringed (s : State) : Prop :=
  ∃ order : List BufId, s.links.Circular .head (order.map .buf) ∧ ∀ b, b ∈ order

def OneBuffer (s : State) : Prop :=
  ∀ b c, (s.buf b).key.dev ≠ 0 → (s.buf b).key = (s.buf c).key → b = c

/-- The buffer a process has a reference to, but not the lock of. -/
def Phase.waits : Phase → Option BufId
  | .user => none
  | .acquiring _ b => some b
  | .checking _ _ => none
  | .releasing b => some b

/-- The references to a buffer apart from the one of the process that holds the lock. -/
def waiters (s : State) (b : BufId) : ℕ := tally (fun p => (s.phase p).waits) b

/-- What holds of a buffer with new data (`u`), where the disk has `d` for its block and the block's
last data is `e`. -/
structure DataOk (x : Buf) (u : Bool) (d e : Block BSIZE) : Prop where
  dev : x.lock ≠ none → x.key.dev ≠ 0
  unsaved : u = true → x.lock ≠ none
  valid : x.dirty = true ∨ u = true → x.valid = true
  data : x.key.dev ≠ 0 → x.valid = true → x.data = e
  clean : x.key.dev ≠ 0 → x.dirty = false → u = false → d = e

/-- What holds of a buffer in the cache. -/
structure BufOk (disk : Key → Block BSIZE) (s : State) (b : BufId) : Prop where
  refcnt : (s.buf b).refcnt = (if (s.buf b).lock = none then 0 else 1) + waiters s b
  ready : ∀ p, (s.buf b).lock = some p →
    (s.buf b).valid = true ∨ ∃ k, s.phase p = .checking k b
  data : DataOk (s.buf b) (s.unsaved b) (s.disk (s.buf b).key)
    (latest disk s.trace (s.buf b).key)

/-- What holds of a process inside `bread`. -/
structure ProcOk (s : State) (p : Pid) : Prop where
  asked : ∀ k b, s.phase p = .acquiring k b ∨ s.phase p = .checking k b →
    (s.buf b).key = k ∧ k.dev ≠ 0
  locked : ∀ k b, s.phase p = .checking k b → (s.buf b).lock = some p

/-- What holds of the cache. -/
structure Inv (disk : Key → Block BSIZE) (s : State) : Prop where
  ring : Ringed s
  one : OneBuffer s
  buf : ∀ b, BufOk disk s b
  proc : ∀ p, ProcOk s p
  absent : ∀ k, k.dev ≠ 0 → (∀ b, (s.buf b).key ≠ k) → s.disk k = latest disk s.trace k
  legal : Legal disk s.trace

theorem scan_of_order {dir : Node → Node} {test : Buf → Bool} (order : List BufId)
    (hfind : Links.find dir .head (Node.test s test) (NBUF+1) (dir .head) =
      (order.map .buf).find? (Node.test s test)) :
    scan s dir test = order.find? fun b => test (s.buf b) := by
  rw [scan,hfind,find?_map]
  change (Option.map Node.buf (order.find? fun b => test (s.buf b))).bind Node.toBuf? = _
  cases order.find? fun b => test (s.buf b) with
  | none => rfl
  | some b => rfl

theorem length_order {order : List BufId} (h : s.links.Circular .head (order.map .buf)) :
    (order.map Node.buf).length < NBUF+1 := by
  have hnodup : order.Nodup := (List.nodup_cons.mp h.nodup).2.of_map
  have hcard := hnodup.length_le_card
  rw [Fintype.card_fin] at hcard
  rw [length_map]
  exact Nat.lt_succ_of_le hcard

theorem of_guard {c : Prop} [Decidable (¬ c)] {o : Option State}
    (h : (if ¬ c then none else o) = some t) : c ∧ o = some t := by
  rwa [ite_none_left_eq_some,not_not] at h

theorem setBuf_self (s : State) (b : BufId) (x : Buf) : (s.setBuf b x).buf b = x :=
  update_self ..

theorem bget_cases (h : Ringed s) (hget : bget s k = some (t, b)) :
    ((s.buf b).key = k ∧ t = s.setBuf b { s.buf b with refcnt := (s.buf b).refcnt + 1 }) ∨
    ((∀ c, (s.buf c).key ≠ k) ∧ (s.buf b).refcnt = 0 ∧ (s.buf b).dirty = false ∧
      t = s.setBuf b { s.buf b with key := k, valid := false, dirty := false, refcnt := 1 }) := by
  obtain ⟨order,hcirc,hall⟩ := h
  have hnext := fun test => scan_of_order order (hcirc.find_next (Node.test s test) (length_order hcirc))
  have hprev := fun test => scan_of_order order.reverse
    (by rw [map_reverse]; exact hcirc.find_prev (Node.test s test) (length_order hcirc))
  rw [bget,hnext,hprev] at hget
  cases hfound : order.find? fun b => decide ((s.buf b).key = k) with
  | some c =>
    rw [hfound] at hget
    obtain ⟨rfl,rfl⟩ := Prod.mk.inj (some.inj hget)
    have hkey := find?_some hfound
    exact .inl ⟨of_decide_eq_true hkey,rfl⟩
  | none =>
    rw [hfound] at hget
    have habsent : ∀ c, (s.buf c).key ≠ k := by
      intro c
      simpa using List.find?_eq_none.mp hfound c (hall c)
    cases hfree : order.reverse.find? fun b =>
        decide ((s.buf b).refcnt = 0 ∧ (s.buf b).dirty = false) with
    | some c =>
      rw [hfree] at hget
      obtain ⟨rfl,rfl⟩ := Prod.mk.inj (some.inj hget)
      have hunused := find?_some hfree
      obtain ⟨hrefs,hclean⟩ := of_decide_eq_true hunused
      exact .inr ⟨habsent,hrefs,hclean,rfl⟩
    | none =>
      rw [hfree] at hget
      cases hget

theorem iderw_cases (hrw : iderw s p b = some t) :
    (s.buf b).lock = some p ∧
      (((s.buf b).dirty = true ∧ t = { s.setBuf b { s.buf b with valid := true, dirty := false } with
        disk := update s.disk (s.buf b).key (s.buf b).data }) ∨
      ((s.buf b).dirty = false ∧ (s.buf b).valid = false ∧
        t = s.setBuf b { s.buf b with valid := true, data := s.disk (s.buf b).key })) := by
  rw [iderw] at hrw
  obtain ⟨hlock,hrw⟩ := of_guard hrw
  refine ⟨hlock,?_⟩
  cases hdirty : (s.buf b).dirty with
  | true =>
    rw [if_neg (by rw [hdirty]; simp),if_pos hdirty] at hrw
    exact .inl ⟨rfl,(some.inj hrw).symm⟩
  | false =>
    cases hvalid : (s.buf b).valid with
    | true =>
      rw [if_pos ⟨hvalid,hdirty⟩] at hrw
      cases hrw
    | false =>
      rw [if_neg (by rw [hvalid]; simp),if_neg (by rw [hdirty]; simp)] at hrw
      exact .inr ⟨rfl,rfl,(some.inj hrw).symm⟩

theorem waiters_eq {φ : Phase} (hphase : t.phase = update s.phase p φ) (c : BufId) :
    waiters t c + (if (s.phase p).waits = some c then 1 else 0) =
      waiters s c + (if φ.waits = some c then 1 else 0) := by
  have hfun : (fun q => (t.phase q).waits) =
      update (fun q => (s.phase q).waits) p φ.waits := by
    funext q
    rw [hphase]
    by_cases hq : q = p
    · rw [hq,update_self,update_self]
    · rw [update_of_ne hq,update_of_ne hq]
  rw [waiters,waiters,hfun]
  exact tally_update _

/-- A step that gives buffer `b` the value `x` and process `p` the phase `φ`, and touches no block
but the one in `b`. -/
structure Touches (b : BufId) (p : Pid) (x : Buf) (φ : Phase) (s t : State) : Prop where
  buf : t.buf = update s.buf b x
  phase : t.phase = update s.phase p φ
  key : x.key = (s.buf b).key
  unsaved : ∀ c, c ≠ b → t.unsaved c = s.unsaved c
  block : ∀ k, k ≠ (s.buf b).key → t.disk k = s.disk k ∧
    ∀ disk, latest disk t.trace k = latest disk s.trace k
  before : ∀ c, (s.phase p).waits = some c → c = b
  after : ∀ c, φ.waits = some c → c = b
  checking : ∀ k c, s.phase p = .checking k c → c = b
  lock : ∀ q, q ≠ p → (s.buf b).lock = some q → x.lock = some q
  refcnt : x.refcnt + (if (s.phase p).waits = some b then 1 else 0) +
      (if (s.buf b).lock = none then 0 else 1) =
    (s.buf b).refcnt + (if φ.waits = some b then 1 else 0) + (if x.lock = none then 0 else 1)

variable {x : Buf} {φ : Phase}

theorem key_of_update (hbuf : t.buf = update s.buf c x)
    (hx : x.key = (s.buf c).key) (b : BufId) : (t.buf b).key = (s.buf b).key := by
  rw [hbuf]
  by_cases hb : b = c
  · rw [hb,update_self,hx]
  · rw [update_of_ne hb]

theorem Touches.buf_self (ht : Touches b p x φ s t) : t.buf b = x := by
  rw [ht.buf,update_self]

theorem Touches.buf_of_ne (ht : Touches b p x φ s t) (hc : c ≠ b) : t.buf c = s.buf c := by
  rw [ht.buf,update_of_ne hc]

theorem Touches.phase_of_ne (ht : Touches b p x φ s t) (hq : q ≠ p) : t.phase q = s.phase q := by
  rw [ht.phase,update_of_ne hq]

theorem Touches.key_all (ht : Touches b p x φ s t) (c : BufId) : (t.buf c).key = (s.buf c).key :=
  key_of_update ht.buf ht.key c

theorem Touches.refcnt_eq (ht : Touches b p x φ s t) (hok : BufOk disk s b) :
    x.refcnt = (if x.lock = none then 0 else 1) + waiters t b := by
  have hwait := waiters_eq ht.phase b
  have hrefs := ht.refcnt
  have hwas := hok.refcnt
  omega

theorem Touches.bufOk (ht : Touches b p x φ s t) (h : Inv disk s) (hc : c ≠ b) :
    BufOk disk t c := by
  have hok := h.buf c
  refine ⟨?_,?_,?_⟩
  · have hwait := waiters_eq ht.phase c
    rw [if_neg fun he => hc (ht.before c he),if_neg fun he => hc (ht.after c he)] at hwait
    rw [ht.buf_of_ne hc,hok.refcnt]
    omega
  · intro q hq
    rw [ht.buf_of_ne hc] at hq ⊢
    refine (hok.ready q hq).imp_right fun hchk => ?_
    obtain ⟨k,hk⟩ := hchk
    refine ⟨k,?_⟩
    rw [ht.phase_of_ne]
    · exact hk
    · rintro rfl
      exact hc (ht.checking k c hk)
  rw [ht.buf_of_ne hc,ht.unsaved c hc]
  obtain ⟨hdev,hunsaved,hvalid,hdata,hclean⟩ := hok.data
  have hblock : (s.buf c).key.dev ≠ 0 → t.disk (s.buf c).key = s.disk (s.buf c).key ∧
      ∀ disk, latest disk t.trace (s.buf c).key = latest disk s.trace (s.buf c).key :=
    fun hd => ht.block (s.buf c).key fun he => hc (h.one c b hd he)
  refine ⟨hdev,hunsaved,hvalid,?_,?_⟩
  · intro hd hv
    rw [(hblock hd).2]
    exact hdata hd hv
  · intro hd hdirty hsaved
    rw [(hblock hd).1,(hblock hd).2]
    exact hclean hd hdirty hsaved

theorem Touches.procOk (ht : Touches b p x φ s t) (h : Inv disk s) (hq : q ≠ p) : ProcOk t q := by
  have hok := h.proc q
  refine ⟨?_,?_⟩
  · intro k c hphase
    rw [ht.phase_of_ne hq] at hphase
    rw [ht.key_all]
    exact hok.asked k c hphase
  intro k c hphase
  rw [ht.phase_of_ne hq] at hphase
  by_cases hc : c = b
  · rw [hc] at hphase ⊢
    rw [ht.buf_self]
    exact ht.lock q hq (hok.locked k b hphase)
  · rw [ht.buf_of_ne hc]
    exact hok.locked k c hphase

theorem Touches.ready (ht : Touches b p x φ s t) (hok : BufOk disk s b)
    (hp : ∀ k, s.phase p ≠ .checking k b) (hvalid : (s.buf b).valid = true → x.valid = true)
    (hq : (s.buf b).lock = some q) : x.valid = true ∨ ∃ k, t.phase q = .checking k b := by
  refine (hok.ready q hq).imp hvalid fun hchk => ?_
  obtain ⟨k,hk⟩ := hchk
  refine ⟨k,?_⟩
  rw [ht.phase_of_ne]
  · exact hk
  · rintro rfl
    exact hp k hk

theorem Inv.touch (h : Inv disk s) (ht : Touches b p x φ s t) (hring : Ringed t)
    (hlegal : Legal disk t.trace)
    (hready : ∀ q, x.lock = some q → x.valid = true ∨ ∃ k, t.phase q = .checking k b)
    (hdata : DataOk x (t.unsaved b) (t.disk x.key) (latest disk t.trace x.key))
    (hproc : ProcOk t p) : Inv disk t := by
  refine ⟨hring,?_,?_,?_,?_,hlegal⟩
  · intro c d
    rw [ht.key_all,ht.key_all]
    exact h.one c d
  · intro c
    by_cases hc : c = b
    · subst hc
      refine ⟨?_,?_,?_⟩
      · rw [ht.buf_self]
        exact ht.refcnt_eq (h.buf c)
      · rw [ht.buf_self]
        exact hready
      · rw [ht.buf_self]
        exact hdata
    · exact ht.bufOk h hc
  · intro q
    by_cases hq : q = p
    · rw [hq]
      exact hproc
    · exact ht.procOk h hq
  intro k hdev hnone
  have hne : ∀ c, (s.buf c).key ≠ k := by
    intro c
    rw [← ht.key_all c]
    exact hnone c
  obtain ⟨hdisk,hlatest⟩ := ht.block k (hne b).symm
  rw [hdisk,hlatest disk]
  exact h.absent k hdev hne

theorem BufOk.lock_of_unused (h : BufOk disk s b) (h0 : (s.buf b).refcnt = 0) :
    (s.buf b).lock = none ∧ waiters s b = 0 := by
  have href := h.refcnt
  rw [h0] at href
  by_cases hlock : (s.buf b).lock = none
  · rw [if_pos hlock] at href
    exact ⟨hlock,by omega⟩
  · rw [if_neg hlock] at href
    omega

theorem Inv.valid (h : Inv disk s) (hp : s.phase p = .user) (hlock : (s.buf b).lock = some p) :
    (s.buf b).valid = true := by
  rcases (h.buf b).ready p hlock with hv | ⟨k,hk⟩
  · exact hv
  · rw [hp] at hk
    cases hk

theorem procOk_idle (hacq : ∀ k b, t.phase p ≠ .acquiring k b)
    (hchk : ∀ k b, t.phase p ≠ .checking k b) : ProcOk t p :=
  ⟨fun k b hphase => (hphase.elim (hacq k b) (hchk k b)).elim,fun k b hb => (hchk k b hb).elim⟩

theorem procOk_user (hp : t.phase p = .user) : ProcOk t p := by
  apply procOk_idle
  all_goals
    rw [hp]
    exact nofun

theorem procOk_acquiring (hp : t.phase p = .acquiring k b) (hkey : (t.buf b).key = k)
    (hdev : k.dev ≠ 0) : ProcOk t p := by
  refine ⟨?_,?_⟩
  · intro k' c hphase
    rw [hp] at hphase
    rcases hphase with he | he
    · cases he
      exact ⟨hkey,hdev⟩
    · cases he
  · intro k' c hphase
    rw [hp] at hphase
    cases hphase

theorem Inv.found (h : Inv disk s) (hp : s.phase p = .user) (hdev : k.dev ≠ 0)
    (hkey : (s.buf b).key = k) :
    Inv disk ((s.setBuf b { s.buf b with refcnt := (s.buf b).refcnt + 1 }).setPhase p
      (.acquiring k b)) := by
  set t := (s.setBuf b { s.buf b with refcnt := (s.buf b).refcnt + 1 }).setPhase p
    (.acquiring k b)
  have htouch : Touches b p { s.buf b with refcnt := (s.buf b).refcnt + 1 } (.acquiring k b) s t := by
    refine ⟨rfl,rfl,rfl,fun _ _ => rfl,fun _ _ => ⟨rfl,fun _ => rfl⟩,?_,?_,?_,fun _ _ hq => hq,?_⟩
    · rw [hp]
      exact nofun
    · exact fun c he => (some.inj he).symm
    · rw [hp]
      exact nofun
    · rw [hp]
      simp only [Phase.waits,if_true,reduceCtorEq,if_false]
  obtain ⟨hd,hu,hv,hdata,hclean⟩ := (h.buf b).data
  refine h.touch htouch h.ring h.legal ?_ ⟨hd,hu,hv,hdata,hclean⟩ ?_
  · intro q hq
    exact htouch.ready (h.buf b) (by rw [hp]; exact nofun) id hq
  · exact procOk_acquiring (update_self ..) (by rw [htouch.buf_self]; exact hkey) hdev

/-- The second loop of `bget` gives an unused buffer to another block. -/
theorem Inv.rekey (h : Inv disk s) (hdev : k.dev ≠ 0) (habsent : ∀ c, (s.buf c).key ≠ k)
    (hrefs : (s.buf b).refcnt = 0) (hdirty : (s.buf b).dirty = false) :
    Inv disk (s.setBuf b { s.buf b with key := k, valid := false, dirty := false }) := by
  set x : Buf := { s.buf b with key := k, valid := false, dirty := false }
  obtain ⟨hlock,hwait⟩ := (h.buf b).lock_of_unused hrefs
  have hself := setBuf_self s b x
  have hother : ∀ c, c ≠ b → (s.setBuf b x).buf c = s.buf c := fun c hc => update_of_ne hc _ _
  have hsaved : s.unsaved b = false := by
    by_contra hu
    exact (h.buf b).data.unsaved (by simpa using hu) hlock
  -- nobody waits for the buffer or is about to look at it
  have hnobody : ∀ q k' c, s.phase q = .acquiring k' c ∨ s.phase q = .checking k' c → c ≠ b := by
    intro q k' c hq hc
    subst hc
    rcases hq with hq | hq
    · have hpos : 0 < waiters s c := tally_pos.mpr ⟨q,by rw [hq]; rfl⟩
      omega
    · rw [(h.proc q).locked k' c hq] at hlock
      cases hlock
  refine ⟨h.ring,?_,?_,?_,?_,h.legal⟩
  · intro c d hc he
    refine Slots.unique_change (P := fun x => x.key.dev ≠ 0) (k := Buf.key)
      (fun c d hc _ => h.one c d hc) hother ?_ c d hc (he ▸ hc) he
    rw [hself]
    exact fun _ c _ _ => habsent c
  · intro c
    by_cases hc : c = b
    · subst hc
      refine ⟨?_,?_,?_⟩
      · rw [hself]
        exact (h.buf c).refcnt
      · intro q hq
        rw [hself,show x.lock = none from hlock] at hq
        cases hq
      · rw [hself]
        refine ⟨fun _ => hdev,(h.buf c).data.unsaved,?_,nofun,?_⟩
        · rintro (hd | hd)
          · cases hd
          · cases hsaved.symm.trans hd
        · exact fun _ _ _ => h.absent k hdev habsent
    · refine ⟨?_,?_,?_⟩
      all_goals rw [hother c hc]
      · exact (h.buf c).refcnt
      · exact (h.buf c).ready
      · exact (h.buf c).data
  · intro q
    refine ⟨?_,?_⟩
    · intro k' c hq
      rw [hother c (hnobody q k' c hq)]
      exact (h.proc q).asked k' c hq
    · intro k' c hq
      rw [hother c (hnobody q k' c (.inr hq))]
      exact (h.proc q).locked k' c hq
  intro k' hk' hnone
  by_cases hold : (s.buf b).key = k'
  · rw [← hold] at hk' ⊢
    exact (h.buf b).data.clean hk' hdirty hsaved
  · apply h.absent k' hk'
    intro c
    by_cases hc : c = b
    · rw [hc]
      exact hold
    · rw [← hother c hc]
      exact hnone c

theorem Inv.bread (h : Inv disk s) (hdev : k.dev ≠ 0) (hstep : Bio.bread s p k = some t) :
    Inv disk t := by
  rw [Bio.bread] at hstep
  obtain ⟨hp,hstep⟩ := of_guard hstep
  obtain ⟨⟨u,b⟩,hget,rfl⟩ := map_eq_some_iff.mp hstep
  rcases bget_cases h.ring hget with ⟨hkey,rfl⟩ | ⟨habsent,hrefs,hdirty,rfl⟩
  · exact h.found hp hdev hkey
  · have hfound := (h.rekey hdev habsent hrefs hdirty).found hp hdev (by rw [setBuf_self])
    rw [setBuf_self,State.setBuf,State.setBuf,update_idem,hrefs] at hfound
    exact hfound

theorem Inv.acquiresleep (h : Inv disk s) (hstep : Bio.acquiresleep s p = some t) : Inv disk t := by
  rw [Bio.acquiresleep] at hstep
  split at hstep
  swap
  · cases hstep
  next k b hp =>
  obtain ⟨hlock,hstep⟩ := of_guard hstep
  cases hstep
  obtain ⟨hkey,hdev⟩ := (h.proc p).asked k b (.inl hp)
  set t := (s.setBuf b { s.buf b with lock := some p }).setPhase p (.checking k b)
  have htouch : Touches b p { s.buf b with lock := some p } (.checking k b) s t := by
    refine ⟨rfl,rfl,rfl,fun _ _ => rfl,fun _ _ => ⟨rfl,fun _ => rfl⟩,?_,nofun,?_,?_,?_⟩
    · rw [hp]
      exact fun c he => (some.inj he).symm
    · rw [hp]
      exact nofun
    · intro q _ hq
      rw [hlock] at hq
      cases hq
    · rw [hp,hlock]
      simp only [Phase.waits,if_true,reduceCtorEq,if_false]
  have hpt : t.phase p = .checking k b := update_self ..
  obtain ⟨-,hu,hv,hdata,hclean⟩ := (h.buf b).data
  refine h.touch htouch h.ring h.legal ?_ ⟨?_,fun _ => nofun,hv,hdata,hclean⟩ ⟨?_,?_⟩
  · intro q hq
    cases hq
    exact .inr ⟨k,hpt⟩
  · rw [hkey]
    exact fun _ => hdev
  · intro k' c hphase
    rw [hpt] at hphase
    rcases hphase with he | he
    · cases he
    · cases he
      rw [htouch.buf_self]
      exact ⟨hkey,hdev⟩
  · intro k' c hphase
    rw [hpt] at hphase
    cases hphase
    rw [htouch.buf_self]

theorem Inv.filled (h : Inv disk s) (hp : s.phase p = .checking k b) {d : Block BSIZE}
    (hd : d = latest disk s.trace k) :
    Inv disk (((s.setBuf b { s.buf b with valid := true, data := d }).setPhase p .user).record
      (.returned k d)) := by
  set x : Buf := { s.buf b with valid := true, data := d } with hx
  set t := ((s.setBuf b x).setPhase p .user).record (.returned k d) with ht
  have htouch : Touches b p x .user s t := by
    refine ⟨rfl,rfl,rfl,fun _ _ => rfl,fun _ _ => ⟨rfl,fun _ => rfl⟩,?_,nofun,?_,
      fun _ _ hq => hq,?_⟩
    · rw [hp]
      exact nofun
    · rw [hp]
      intro k' c he
      cases he
      rfl
    · rw [hp]
      simp only [hx,Phase.waits,reduceCtorEq,if_false]
  obtain ⟨hkey,-⟩ := (h.proc p).asked k b (.inr hp)
  obtain ⟨hdev,hu,hv,-,hclean⟩ := (h.buf b).data
  refine h.touch htouch h.ring ⟨hd,h.legal⟩ (fun _ _ => .inl rfl) ?_ (procOk_user (update_self ..))
  refine ⟨hdev,hu,fun _ => rfl,?_,hclean⟩
  intro _ _
  change d = latest disk s.trace (s.buf b).key
  rw [hkey]
  exact hd

theorem Inv.fill (h : Inv disk s) (hstep : Bio.fill s p = some t) : Inv disk t := by
  rw [Bio.fill] at hstep
  split at hstep
  swap
  · cases hstep
  next k b hp =>
  obtain ⟨hkey,hkdev⟩ := (h.proc p).asked k b (.inr hp)
  obtain ⟨-,-,hv,hdata,hclean⟩ := (h.buf b).data
  rw [hkey] at hdata hclean
  rw [map_eq_some_iff] at hstep
  obtain ⟨u,hread,rfl⟩ := hstep
  cases hvalid : (s.buf b).valid with
  | true =>
    rw [hvalid,if_pos rfl] at hread
    cases hread
    have hsame : s.setBuf b { s.buf b with valid := true, data := (s.buf b).data } = s := by
      rw [← hvalid,State.setBuf,update_eq_self]
    have hfilled := h.filled hp (hdata hkdev hvalid)
    rwa [hsame] at hfilled
  | false =>
    have hclear : (s.buf b).dirty = false ∧ s.unsaved b = false := by
      constructor
      · by_contra hd
        rw [hv (.inl (by simpa using hd))] at hvalid
        cases hvalid
      · by_contra hd
        rw [hv (.inr (by simpa using hd))] at hvalid
        cases hvalid
    rw [hvalid,if_neg nofun] at hread
    obtain ⟨-,⟨hd,-⟩ | ⟨-,-,rfl⟩⟩ := iderw_cases hread
    · rw [hclear.1] at hd
      cases hd
    · have hself : ((s.setBuf b { s.buf b with
          valid := true, data := s.disk (s.buf b).key }).buf b).data = s.disk (s.buf b).key := by
        rw [setBuf_self]
      rw [hself]
      apply h.filled hp
      rw [hkey]
      exact hclean hkdev hclear.1 hclear.2

theorem touches_held {x : Buf} (hp : s.phase p = .user) (hbuf : t.buf = update s.buf b x)
    (hphase : t.phase = s.phase) (hkey : x.key = (s.buf b).key)
    (hunsaved : ∀ c, c ≠ b → t.unsaved c = s.unsaved c)
    (hblock : ∀ k, k ≠ (s.buf b).key → t.disk k = s.disk k ∧
      ∀ disk, latest disk t.trace k = latest disk s.trace k)
    (hlock : x.lock = (s.buf b).lock) (hrefcnt : x.refcnt = (s.buf b).refcnt) :
    Touches b p x .user s t := by
  refine ⟨hbuf,?_,hkey,hunsaved,hblock,?_,nofun,?_,?_,?_⟩
  · rw [hphase,← hp,update_eq_self]
  · rw [hp]
    exact nofun
  · rw [hp]
    exact nofun
  · rw [hlock]
    exact fun _ _ hq => hq
  · rw [hp,hlock,hrefcnt]

theorem Inv.modify {d : Block BSIZE} (h : Inv disk s) (hlock : (s.buf b).lock = some p)
    (hstep : Bio.modify s p b d = some t) : Inv disk t := by
  rw [Bio.modify] at hstep
  obtain ⟨hp,hstep⟩ := of_guard hstep
  cases hstep
  have hvalid := h.valid hp hlock
  set t := ((s.setBuf b { s.buf b with data := d }).setUnsaved b true).record
    (.modified (s.buf b).key d)
  have htouch : Touches b p { s.buf b with data := d } .user s t := by
    refine touches_held hp rfl rfl rfl (fun c hc => update_of_ne hc _ _) ?_ rfl rfl
    intro k hk
    exact ⟨rfl,fun _ => if_neg hk⟩
  refine h.touch htouch h.ring h.legal (fun _ _ => .inl hvalid) ?_ (procOk_user hp)
  refine ⟨(h.buf b).data.dev,fun _ => ?_,fun _ => hvalid,fun _ _ => ?_,?_⟩
  · rw [hlock]
    exact nofun
  · exact (if_pos rfl).symm
  · intro _ _ hu
    rw [show t.unsaved b = true from update_self ..] at hu
    cases hu

theorem Inv.logWrite (h : Inv disk s) (hlock : (s.buf b).lock = some p)
    (hstep : Bio.logWrite s p b = some t) : Inv disk t := by
  rw [Bio.logWrite] at hstep
  obtain ⟨hp,hstep⟩ := of_guard hstep
  rw [ite_none_left_eq_some,ite_none_left_eq_some] at hstep
  obtain ⟨-,-,hstep⟩ := hstep
  cases hstep
  have hvalid := h.valid hp hlock
  obtain ⟨hdev,-,-,hdata,-⟩ := (h.buf b).data
  set t : State := { (s.setBuf b { s.buf b with dirty := true }).setUnsaved b false with
    log := { s.log with lh := Log.absorb s.log.lh (s.buf b).key.blockno } }
  have htouch : Touches b p { s.buf b with dirty := true } .user s t :=
    touches_held hp rfl rfl rfl (fun c hc => update_of_ne hc _ _)
      (fun _ _ => ⟨rfl,fun _ => rfl⟩) rfl rfl
  refine h.touch htouch h.ring h.legal (fun _ _ => .inl hvalid) ?_ (procOk_user hp)
  refine ⟨hdev,?_,fun _ => hvalid,hdata,nofun⟩
  rw [show t.unsaved b = false from update_self ..]
  exact nofun

theorem Inv.bwrite (h : Inv disk s) (hstep : Bio.bwrite s p b = some t) : Inv disk t := by
  rw [Bio.bwrite] at hstep
  obtain ⟨hp,hstep⟩ := of_guard hstep
  obtain ⟨hlock,hstep⟩ := of_guard hstep
  obtain ⟨u,hrw,rfl⟩ := map_eq_some_iff.mp hstep
  have hvalid := h.valid hp hlock
  obtain ⟨hdev,-,-,hdata,-⟩ := (h.buf b).data
  have hself := setBuf_self s b { s.buf b with dirty := true }
  obtain ⟨-,⟨-,rfl⟩ | ⟨hd,-⟩⟩ := iderw_cases hrw
  swap
  · rw [hself] at hd
    cases hd
  rw [hself]
  generalize ht : State.setUnsaved _ b false = t
  have htouch : Touches b p { s.buf b with valid := true, dirty := false } .user s t := by
    rw [← ht]
    refine touches_held hp (update_idem ..) rfl rfl (fun c hc => update_of_ne hc _ _) ?_ rfl rfl
    intro k hk
    exact ⟨update_of_ne hk _ _,fun _ => rfl⟩
  have hunsaved : t.unsaved b = false := by
    rw [← ht]
    exact update_self ..
  have hdisk : t.disk (s.buf b).key = (s.buf b).data := by
    rw [← ht]
    exact update_self ..
  have htrace : t.trace = s.trace := by rw [← ht]; rfl
  rw [← htrace] at hdata
  refine h.touch htouch ?_ (htrace ▸ h.legal) (fun _ _ => .inl rfl)
    ⟨hdev,?_,fun _ => rfl,fun hd _ => hdata hd hvalid,?_⟩ (procOk_user ?_)
  · rw [← ht]
    exact h.ring
  · rw [hunsaved]
    exact nofun
  · intro hd _ _
    exact hdisk.trans (hdata hd hvalid)
  · rw [htouch.phase,update_self]

theorem Inv.brelse (h : Inv disk s) (hsaved : s.unsaved b = false)
    (hstep : Bio.brelse s p b = some t) : Inv disk t := by
  rw [Bio.brelse] at hstep
  obtain ⟨hp,hstep⟩ := of_guard hstep
  obtain ⟨hlock,hstep⟩ := of_guard hstep
  cases hstep
  obtain ⟨-,-,hv,hdata,hclean⟩ := (h.buf b).data
  set t := (s.setBuf b { s.buf b with lock := none }).setPhase p (.releasing b)
  have hpt : t.phase p = .releasing b := update_self ..
  have htouch : Touches b p { s.buf b with lock := none } (.releasing b) s t := by
    refine ⟨rfl,rfl,rfl,fun _ _ => rfl,fun _ _ => ⟨rfl,fun _ => rfl⟩,?_,?_,?_,?_,?_⟩
    · rw [hp]
      exact nofun
    · exact fun c he => (some.inj he).symm
    · rw [hp]
      exact nofun
    · intro q hq he
      rw [hlock] at he
      exact absurd (some.inj he).symm hq
    · rw [hp,hlock]
      simp only [Phase.waits,if_true,reduceCtorEq,if_false]
  refine h.touch htouch h.ring h.legal nofun ⟨nofun,?_,hv,hdata,hclean⟩ (procOk_idle ?_ ?_)
  · rw [show t.unsaved b = false from hsaved]
    exact nofun
  all_goals
    rw [hpt]
    exact nofun

theorem Ringed.front (h : Ringed s) (b : BufId) :
    Ringed { s with links := (s.links.unlink (.buf b)).pushFront .head (.buf b) } := by
  obtain ⟨order,hcirc,hall⟩ := h
  obtain ⟨before,behind,rfl⟩ := append_of_mem (hall b)
  rw [map_append,map_cons] at hcirc
  have hnodup := (List.nodup_cons.mp hcirc.nodup).2
  have hnot : Node.buf b ∉ before.map Node.buf ++ behind.map Node.buf :=
    (List.nodup_middle.mp hnodup).notMem
  refine ⟨b :: (before ++ behind),?_,?_⟩
  · rw [map_cons,map_append]
    apply hcirc.unlink.pushFront
    intro hmem
    rcases List.mem_cons.mp hmem with he | hmem
    · cases he
    · exact hnot hmem
  · intro c
    have hc := hall c
    simp only [mem_append,mem_cons] at hc ⊢
    tauto

theorem Inv.unref (h : Inv disk s) (hstep : Bio.unref s p = some t) : Inv disk t := by
  rw [Bio.unref] at hstep
  split at hstep
  swap
  · cases hstep
  next b hp =>
  dsimp only at hstep
  set u := (s.setBuf b { s.buf b with refcnt := (s.buf b).refcnt - 1 }).setPhase p .user
  have hpos : 0 < (s.buf b).refcnt := by
    have hwait : 0 < waiters s b := tally_pos.mpr ⟨p,by rw [hp]; rfl⟩
    have href := (h.buf b).refcnt
    omega
  obtain ⟨hdev,hu,hv,hdata,hclean⟩ := (h.buf b).data
  have htouch : Touches b p { s.buf b with refcnt := (s.buf b).refcnt - 1 } .user s u := by
    refine ⟨rfl,rfl,rfl,fun _ _ => rfl,fun _ _ => ⟨rfl,fun _ => rfl⟩,?_,nofun,?_,
      fun _ _ hq => hq,?_⟩
    · rw [hp]
      exact fun c he => (some.inj he).symm
    · rw [hp]
      exact nofun
    · rw [hp]
      simp only [Phase.waits,if_true,reduceCtorEq,if_false]
      omega
  have hdone : Inv disk u := by
    refine h.touch htouch h.ring h.legal ?_ ⟨hdev,hu,hv,hdata,hclean⟩ (procOk_user (update_self ..))
    intro q hq
    exact htouch.ready (h.buf b) (by rw [hp]; exact nofun) id hq
  by_cases hlast : (s.buf b).refcnt - 1 = 0
  · rw [if_pos hlast] at hstep
    cases hstep
    exact ⟨hdone.ring.front b,hdone.one,fun c => ⟨(hdone.buf c).refcnt,(hdone.buf c).ready,
      (hdone.buf c).data⟩,fun q => ⟨(hdone.proc q).asked,(hdone.proc q).locked⟩,hdone.absent,
      hdone.legal⟩
  · rw [if_neg hlast] at hstep
    rw [← some.inj hstep]
    exact hdone

theorem Inv.step {a : Action} (h : Inv disk s) (hok : Proper s a) (hstep : step s a = some t) :
    Inv disk t := by
  cases a with
  | bread p k => exact h.bread hok hstep
  | acquiresleep p => exact h.acquiresleep hstep
  | fill p => exact h.fill hstep
  | modify p b d => exact h.modify hok hstep
  | logWrite p b => exact h.logWrite hok hstep
  | bwrite p b => exact h.bwrite hstep
  | brelse p b => exact h.brelse hok hstep
  | unref p => exact h.unref hstep
  | setLog v =>
    cases hstep
    exact ⟨h.ring,h.one,fun c => ⟨(h.buf c).refcnt,(h.buf c).ready,(h.buf c).data⟩,
      fun q => ⟨(h.proc q).asked,(h.proc q).locked⟩,h.absent,h.legal⟩

theorem circular_binit {bs order : List BufId} {L : Links Node}
    (hc : L.Circular .head (order.map .buf)) (hbs : bs.Nodup) (hdisj : bs.Disjoint order) :
    (binit bs L).Circular .head ((bs.reverse ++ order).map .buf) := by
  induction bs generalizing order L with
  | nil => exact hc
  | cons b bs ih =>
    obtain ⟨hb,hbs⟩ := List.nodup_cons.mp hbs
    have hnot : b ∉ order := hdisj mem_cons_self
    have hpush : (L.pushFront .head (.buf b)).Circular .head ((b :: order).map .buf) := by
      apply hc.pushFront
      intro hmem
      rcases List.mem_cons.mp hmem with he | hmem
      · cases he
      · obtain ⟨c,hc,he⟩ := List.mem_map.mp hmem
        cases he
        exact hnot hc
    have hrest := ih hpush hbs fun c hc hmem => by
      rcases List.mem_cons.mp hmem with rfl | hmem
      · exact hb hc
      · exact hdisj (mem_cons_of_mem b hc) hmem
    rw [binit,reverse_cons,append_assoc]
    exact hrest

theorem inv_boot (disk : Key → Block BSIZE) : Inv disk (boot disk) := by
  refine ⟨?_,?_,?_,fun p => procOk_user rfl,fun k _ _ => rfl,trivial⟩
  · refine ⟨(List.finRange NBUF).reverse ++ [],?_,fun b => by simp⟩
    exact circular_binit ⟨nodup_singleton _,rfl,rfl⟩ (nodup_finRange NBUF) (disjoint_nil_right _)
  · exact fun b c hdev _ => absurd rfl hdev
  intro b
  have hnone : waiters (boot disk) b = 0 := by
    apply Nat.eq_zero_of_not_pos
    intro hpos
    obtain ⟨p,hp⟩ := tally_pos.mp hpos
    cases hp
  refine ⟨by rw [hnone]; rfl,nofun,nofun,nofun,?_,nofun,fun _ _ _ => rfl⟩
  rintro (hd | hd)
  · cases hd
  · cases hd

end Xv6Container.Bio
