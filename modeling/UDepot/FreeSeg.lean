import UDepot.SegQueues
import UDepot.ScmProps

/-! Getting and returning free segments (`scm-seg-alloc`). A segment comes from the first queue
with segments that the flags allow; the range it lies in may have a callback that can refuse it.
The ways out after an error fall through each other. -/

namespace UDepot.Scm
open DevProperties List Option

def eagain : Int := 11

def einval : Int := 22

def enospc : Int := 28

/-- `struct scm_gfs_flags`. -/
structure GfsFlags where
  reloc : Bool
  thinProv : Bool
  propHard : Bool
  noBlocking : Bool
  propSetPreferred : PropSet
  propSetDefault : PropSet
  deriving DecidableEq, Repr

/-- `struct sto_capacity_mgr`, as far as getting and returning segments goes. -/
structure Mgr where
  segNr : Nat
  segSize : Nat
  grainSize : Nat
  devNr : Nat
  raid : Raid
  scmDevProps : DevProperties
  qs : SegQueues
  thinProvSegs : Nat
  exit : Bool

def SegQueue.freeq (q : SegQueue) (reloc : Bool) : List Nat := if reloc then q.relSegs else q.segs

namespace SegQueues

/-- One pass of `scm_seg_queues_get_queue`: the first queue of the set with segments. -/
def passQueue (s : SegQueues) (reloc : Bool) (props : PropSet) : Option Nat :=
  s.queues.findIdx? fun q => q.propSet.isSubsetOf props && !(q.freeq reloc).isEmpty

/-- `scm_seg_queues_get_queue`. When both passes find nothing, each queue that matches is
empty. -/
def getQueue (s : SegQueues) (flags : GfsFlags) : Except Int Nat :=
  match s.passQueue flags.reloc flags.propSetPreferred with
  | some k => .ok k
  | none =>
    match s.passQueue flags.reloc flags.propSetDefault with
    | some k => .ok k
    | none =>
      if s.queues.any fun q => q.propSet.isSubsetOf flags.propSetPreferred ||
          q.propSet.isSubsetOf flags.propSetDefault then .error (-eagain)
      else .error (-einval)

def dropHead (reloc : Bool) (q : SegQueue) : SegQueue :=
  if reloc then { q with relSegs := q.relSegs.tail } else { q with segs := q.segs.tail }

/-- `cds_queue_base_pop_head_ret_cnt` on the list that the flags choose. -/
def popHead (s : SegQueues) (k : Nat) (reloc : Bool) : Option (Nat × SegQueues) :=
  match s.queues[k]? with
  | none => none
  | some q =>
    match (q.freeq reloc).head? with
    | none => none
    | some i => some (i, { s with queues := s.queues.set k (dropHead reloc q) })

end SegQueues

def SegQueues.Full (s : SegQueues) (size : Nat) : Prop :=
  ∀ q ∈ s.queues, ∀ i, i ∈ q.segs ∨ i ∈ q.relSegs → (s.seg i).validNr = size

theorem mem_modify {α : Type} {l : List α} {k : Nat} {f : α → α} {a : α} (h : a ∈ l.modify k f) :
    a ∈ l ∨ ∃ b ∈ l, a = f b := by
  obtain ⟨n, hn⟩ := mem_iff_getElem?.mp h
  rw [getElem?_modify] at hn
  obtain ⟨b, hb, rfl⟩ := map_eq_some_iff.mp hn
  split
  · exact .inr ⟨b, mem_of_getElem? hb, rfl⟩
  · exact .inl (mem_of_getElem? hb)

namespace SegQueues

variable {s : SegQueues} {size i : Nat}

theorem Full.setSeg (h : s.Full size) (i : Nat) {seg : Seg} (hseg : seg.validNr = size) :
    (s.setSeg i seg).Full size := by
  intro q hq n hn
  by_cases hni : n = i
  · subst hni
    simpa [SegQueues.setSeg] using hseg
  · simpa [SegQueues.setSeg, hni] using h q hq n hn

theorem setState_validNr (state : SegState) (n : Nat) :
    ((s.setState i state).seg n).validNr = (s.seg n).validNr := by
  by_cases hn : n = i
  · subst hn
    simp [setState, setSeg]
  · simp [setState, setSeg, hn]

theorem Full.enqueue (h : s.Full size) (k : Nat) (hi : (s.seg i).validNr = size) :
    (s.enqueue k i).Full size := by
  intro q' hq' n hn
  refine (setState_validNr .free n).trans ?_
  rcases mem_modify hq' with hold | ⟨q, hq, rfl⟩
  · exact h q' hold n hn
  · simp only [mem_append, mem_singleton] at hn
    rcases hn with (hn | rfl) | hn
    · exact h q hq n (.inl hn)
    · exact hi
    · exact h q hq n (.inr hn)

theorem Full.enqueueRel (h : s.Full size) (k : Nat) (hi : (s.seg i).validNr = size) :
    (s.enqueueRel k i).Full size := by
  intro q' hq' n hn
  refine (setState_validNr .freeRel n).trans ?_
  rcases mem_modify hq' with hold | ⟨q, hq, rfl⟩
  · exact h q' hold n hn
  · simp only [mem_append, mem_singleton] at hn
    rcases hn with hn | hn | rfl
    · exact h q hq n (.inl hn)
    · exact h q hq n (.inr hn)
    · exact hi

end SegQueues

variable {f : Fill}

theorem SegQueues.Full.fillRound {relRem rsi : Nat} {st st' : SegQueues × Nat}
    (h : st.1.Full f.segSize) (hr : fillRound f relRem rsi st = some st') :
    st'.1.Full f.segSize := by
  have hvalid : ∀ {x seg : Seg}, x.init f.segSize f.prop f.qId = some seg →
      seg.validNr = f.segSize := by
    intro x seg
    fun_cases Seg.init x f.segSize f.prop f.qId with
    | case1 => rintro ⟨⟩
    | case2 =>
      rintro ⟨⟩
      rfl
  revert hr
  fun_cases Scm.fillRound f relRem rsi st with
  | case1 => rintro ⟨⟩
  | case2 seg hinit | case3 seg hinit =>
    rintro ⟨⟩
    exact h.setSeg _ (hvalid hinit)
  | case4 seg hinit =>
    rintro ⟨⟩
    exact (h.setSeg _ (hvalid hinit)).enqueueRel _ (by simpa [SegQueues.setSeg] using hvalid hinit)
  | case5 seg hinit =>
    rintro ⟨⟩
    exact (h.setSeg _ (hvalid hinit)).enqueue _ (by simpa [SegQueues.setSeg] using hvalid hinit)

theorem SegQueues.Full.fillRounds {relRem rsi : Nat} {s : SegQueues} {st : SegQueues × Nat}
    (h : s.Full f.segSize) (hr : fillRounds f relRem s rsi = some st) : st.1.Full f.segSize := by
  induction rsi generalizing st with
  | zero =>
    cases hr
    exact h
  | succ rsi ih =>
    obtain ⟨st₁, h₁, hround⟩ := bind_eq_some_iff.mp hr
    exact (ih h₁).fillRound hround

theorem SegQueues.Full.fillQueue {s s' : SegQueues} (h : s.Full f.segSize)
    (hr : fillQueue s f = some s') : s'.Full f.segSize := by
  revert hr
  fun_cases Scm.fillQueue s f with
  | case3 q hq hle =>
    intro hr
    obtain ⟨st, hst, rfl⟩ := map_eq_some_iff.mp hr
    exact h.fillRounds hst
  | _ => rintro ⟨⟩

theorem SegQueues.Full.initRanges {g : Geometry} {segNr sIdx : Nat} {ranges : DevProperties}
    {s s' : SegQueues} (h : s.Full g.segSize) (hr : initRanges g segNr ranges sIdx s = some s') :
    s'.Full g.segSize := by
  fun_induction Scm.initRanges g segNr ranges sIdx s with
  | case1 sIdx s =>
    cases hr
    exact h
  | case3 r ranges sIdx s qId hq hzero ih => exact ih h hr
  | case6 r ranges sIdx s qId hq hpos hle s₁ hfill ih =>
    exact ih (SegQueues.Full.fillQueue (f := g.fillOf r sIdx qId) h hfill) hr
  | _ => cases hr

theorem full_of_scmSegQueuesInit {g : Geometry} {masks : List Nat} {ranges : DevProperties}
    {s : SegQueues} (h : scmSegQueuesInit g masks ranges = .ok s) : s.Full g.segSize := by
  revert h
  fun_cases scmSegQueuesInit g masks ranges with
  | case2 hv s hrun =>
    rintro ⟨⟩
    refine SegQueues.Full.initRanges ?_ hrun
    intro q hq i hi
    obtain ⟨mask, -, rfl⟩ := mem_map.mp hq
    simp at hi
  | _ => rintro ⟨⟩

namespace Mgr

/-- `scm_get_segs_thin_prov`; `none` is `ENOSPC`. -/
def getSegsThinProv (m : Mgr) (segNr : Nat) : Option Mgr :=
  if m.thinProvSegs < segNr then none
  else some { m with thinProvSegs := m.thinProvSegs - segNr }

/-- `scm_put_segs_thin_prov`. -/
def putSegsThinProv (m : Mgr) (segNr : Nat) : Mgr :=
  { m with thinProvSegs := (m.thinProvSegs + segNr) % 2 ^ 64 }

/-- Back to the relocation list while it is short, else to the free list. -/
def requeue (m : Mgr) (i : Nat) : Mgr :=
  let qid := (m.qs.seg i).queueId
  let qs := m.qs.setSeg i ((m.qs.seg i).reset m.segSize)
  let relSize := (qs.queues[qid]?.map fun q => q.relSegs.length).getD 0
  { m with
    qs := if relSize < salsaMinRelSegments then qs.enqueueRel qid i else qs.enqueue qid i }

/-- `scm_put_free_seg`, and whether its assertion fails. -/
def scmPutFreeSeg (m : Mgr) (i : Nat) (thinProv : Bool) : Mgr × Bool :=
  let m' := m.requeue i
  (if thinProv then m'.putSegsThinProv 1 else m', (m.qs.seg i).validNr != 0)

/-- The callbacks of the ranges: an error or zero for an offset and a length. -/
abbrev AllocCb := RangeProp → Nat → Nat → Int

/-- The callback for the segment, and whether a `BUG_ON` fires in front of it. -/
def callback (m : Mgr) (cb : AllocCb) (i : Nat) : Int × Bool :=
  if m.devNr = 1 ∨ m.raid = .linear then
    let segLen := m.segSize * m.grainSize % 2 ^ 64
    let segOff := i * segLen % 2 ^ 64
    match find segOff m.scmDevProps 0 with
    | none => (0, true)
    | some rp => (if rp.rSegAllocCb ≠ 0 then cb rp segOff segLen else 0, decide (m.segNr ≤ i))
  else (0, false)

/-- What `scm_get_free_seg` returns and leaves behind, and whether an assertion has failed. -/
structure GetRes where
  err : Int
  segOut : Option Nat
  mgr : Mgr
  bug : Bool

/-- The exit `fail_reclaim_thin`. -/
def failReclaimThin (m : Mgr) (flags : GfsFlags) (err : Int) (bug : Bool) : GetRes :=
  ⟨err, none, if flags.thinProv then m.putSegsThinProv 1 else m, bug⟩

/-- The exit `fail_put`: the segment goes back like one that was in use. -/
def failPut (m : Mgr) (flags : GfsFlags) (i : Nat) (err : Int) (bug : Bool) : GetRes :=
  let put := m.scmPutFreeSeg i flags.thinProv
  failReclaimThin put.1 flags err (bug || put.2)

/-- From the search for a queue on, with the budget already taken; `none` if the call waits. -/
def getFromQueues (m : Mgr) (flags : GfsFlags) (cb : AllocCb) : Option GetRes :=
  match m.qs.getQueue flags with
  | .error err =>
    if err ≠ -eagain ∨ flags.noBlocking ∨ m.exit then some (m.failReclaimThin flags err false)
    else none
  | .ok k =>
    match m.qs.popHead k flags.reloc with
    | none => some (m.failReclaimThin flags eagain false)
    | some (i, qs) =>
      let m' := { m with qs := qs }
      let res := m'.callback cb i
      if res.1 ≠ 0 then some (m'.failPut flags i res.1 res.2)
      else some ⟨0, some i, m', res.2⟩

/-- `scm_get_free_seg`. -/
def scmGetFreeSeg (m : Mgr) (flags : GfsFlags) (cb : AllocCb) : Option GetRes :=
  if flags.reloc && flags.thinProv then some ⟨einval, none, m, false⟩
  else if flags.thinProv then
    match m.getSegsThinProv 1 with
    | none => some ⟨enospc, none, m, false⟩
    | some m' => m'.getFromQueues flags cb
  else m.getFromQueues flags cb

def freeNrs (m : Mgr) : List (Nat × Nat) :=
  m.qs.queues.map fun q => (q.segs.length, q.relSegs.length)

/-- Nothing was changed that counts: the lists are as long as before, the budget is as large, and
the segments' counters are the same. -/
structure SameCounts (m m' : Mgr) : Prop where
  free : m'.freeNrs = m.freeNrs
  thin : m'.thinProvSegs = m.thinProvSegs
  valid : ∀ i, (m'.qs.seg i).validNr = (m.qs.seg i).validNr
  reads : ∀ i, (m'.qs.seg i).outsReadNr = (m.qs.seg i).outsReadNr

def FailsClean (m : Mgr) (flags : GfsFlags) (cb : AllocCb) : Prop :=
  ∀ res, m.scmGetFreeSeg flags cb = some res → res.err ≠ 0 → m.SameCounts res.mgr ∧ res.bug = false

/-- The segment at the head of the queue that the flags lead to. -/
def headSeg (m : Mgr) (flags : GfsFlags) : Option Nat :=
  match m.qs.getQueue flags with
  | .error _ => none
  | .ok k => (m.qs.popHead k flags.reloc).map Prod.fst

/-- The segment that a call takes from a queue, if it comes so far. -/
def nextSeg (m : Mgr) (flags : GfsFlags) : Option Nat :=
  if flags.reloc && flags.thinProv then none
  else if flags.thinProv && m.thinProvSegs == 0 then none
  else m.headSeg flags

def NotRefused (m : Mgr) (flags : GfsFlags) (cb : AllocCb) : Prop :=
  ∀ i, m.nextSeg flags = some i → (m.callback cb i).1 = 0

/-- Free segments count all their grains as valid, as `segment_reset` leaves them. -/
structure FreeFull (m : Mgr) : Prop where
  full : m.qs.Full m.segSize
  pos : 0 < m.segSize
  thin_lt : m.thinProvSegs < 2 ^ 64

variable {m : Mgr} {flags : GfsFlags} {cb : AllocCb}

theorem SameCounts.refl (m : Mgr) : m.SameCounts m := ⟨rfl, rfl, fun _ => rfl, fun _ => rfl⟩

theorem put_get_thin {m' : Mgr} (h64 : m.thinProvSegs < 2 ^ 64)
    (h : m.getSegsThinProv 1 = some m') : m'.putSegsThinProv 1 = m := by
  unfold getSegsThinProv at h
  split at h
  · cases h
  · next hge =>
    cases h
    have : (m.thinProvSegs - 1 + 1) % 2 ^ 64 = m.thinProvSegs := by
      rw [Nat.sub_add_cancel (Nat.not_lt.mp hge), Nat.mod_eq_of_lt h64]
    simp only [putSegsThinProv, this]

variable {s' : SegQueues} {k : Nat} {reloc : Bool}

theorem popHead_cases {s : SegQueues} {i : Nat} (h : s.popHead k reloc = some (i, s')) :
    ∃ q, s.queues[k]? = some q ∧ (q.freeq reloc).head? = some i ∧
      s' = { s with queues := s.queues.set k (SegQueues.dropHead reloc q) } := by
  revert h
  fun_cases SegQueues.popHead s k reloc with
  | case3 q hq j hj =>
    rintro ⟨⟩
    exact ⟨q, hq, hj, rfl⟩
  | _ => rintro ⟨⟩

theorem mem_of_popHead {s : SegQueues} {i : Nat} (h : s.popHead k reloc = some (i, s')) :
    s'.seg = s.seg ∧ ∃ q ∈ s.queues, i ∈ q.segs ∨ i ∈ q.relSegs := by
  obtain ⟨q, hq, hi, rfl⟩ := popHead_cases h
  refine ⟨rfl, q, mem_of_getElem? hq, ?_⟩
  have hmem : i ∈ q.freeq reloc := mem_of_head? hi
  cases reloc with
  | false => exact .inl hmem
  | true => exact .inr hmem

theorem mem_dropHead {q : SegQueue} {i : Nat}
    (h : i ∈ (SegQueues.dropHead reloc q).segs ∨ i ∈ (SegQueues.dropHead reloc q).relSegs) :
    i ∈ q.segs ∨ i ∈ q.relSegs := by
  cases reloc with
  | false => exact h.imp_left mem_of_mem_tail
  | true => exact h.imp_right mem_of_mem_tail

theorem FreeFull.popHead {i : Nat} (h : m.FreeFull) (hpop : m.qs.popHead k reloc = some (i, s')) :
    FreeFull { m with qs := s' } := by
  obtain ⟨q, hq, -, rfl⟩ := popHead_cases hpop
  refine ⟨fun q' hq' n hn => ?_, h.pos, h.thin_lt⟩
  rcases mem_or_eq_of_mem_set hq' with hold | rfl
  · exact h.full q' hold n hn
  · exact h.full q (mem_of_getElem? hq) n (mem_dropHead hn)

theorem FreeFull.requeue (h : m.FreeFull) (i : Nat) : (m.requeue i).FreeFull := by
  have hset : (m.qs.setSeg i ((m.qs.seg i).reset m.segSize)).Full m.segSize :=
    h.full.setSeg i rfl
  have hi : ((m.qs.setSeg i ((m.qs.seg i).reset m.segSize)).seg i).validNr = m.segSize := by
    simp [SegQueues.setSeg, Seg.reset]
  refine ⟨?_, h.pos, h.thin_lt⟩
  unfold Mgr.requeue
  dsimp only
  split
  · exact hset.enqueueRel _ hi
  · exact hset.enqueue _ hi

theorem FreeFull.putSegsThinProv (h : m.FreeFull) (n : Nat) : (m.putSegsThinProv n).FreeFull :=
  ⟨h.full, h.pos, Nat.mod_lt _ (by decide)⟩

theorem FreeFull.scmPutFreeSeg (h : m.FreeFull) (i : Nat) (thinProv : Bool) :
    (m.scmPutFreeSeg i thinProv).1.FreeFull := by
  unfold Mgr.scmPutFreeSeg
  cases thinProv with
  | false => exact h.requeue i
  | true => exact (h.requeue i).putSegsThinProv 1

theorem FreeFull.failReclaimThin (h : m.FreeFull) (err : Int) (bug : Bool) :
    (m.failReclaimThin flags err bug).mgr.FreeFull := by
  unfold Mgr.failReclaimThin
  dsimp only
  split
  · exact h.putSegsThinProv 1
  · exact h

theorem FreeFull.getFromQueues {res : GetRes} (h : m.FreeFull)
    (hres : m.getFromQueues flags cb = some res) : res.mgr.FreeFull := by
  revert hres
  fun_cases Mgr.getFromQueues m flags cb with
  | case1 err hq herr =>
    rintro ⟨⟩
    exact h.failReclaimThin err false
  | case2 => rintro ⟨⟩
  | case3 k hq hpop =>
    rintro ⟨⟩
    exact h.failReclaimThin eagain false
  | case4 k hq i qs hpop =>
    rintro ⟨⟩
    exact ((h.popHead hpop).scmPutFreeSeg _ _).failReclaimThin _ _
  | case5 k hq i qs hpop =>
    rintro ⟨⟩
    exact h.popHead hpop

theorem FreeFull.getSegsThinProv {m' : Mgr} (h : m.FreeFull)
    (hget : m.getSegsThinProv 1 = some m') : m'.FreeFull := by
  obtain ⟨-, hget⟩ := Option.ite_none_left_eq_some.mp hget
  cases hget
  exact ⟨h.full, h.pos, Nat.lt_of_le_of_lt (Nat.sub_le _ _) h.thin_lt⟩

/-- Every call keeps the free segments full, whatever it returns. -/
theorem FreeFull.scmGetFreeSeg {res : GetRes} (h : m.FreeFull)
    (hres : m.scmGetFreeSeg flags cb = some res) : res.mgr.FreeFull := by
  revert hres
  fun_cases Mgr.scmGetFreeSeg m flags cb with
  | case1 | case2 =>
    rintro ⟨⟩
    exact h
  | case3 hboth hthin m' hget => exact (h.getSegsThinProv hget).getFromQueues
  | case4 => exact h.getFromQueues

/-- A segment that comes from a queue is put back with its grains still counted as valid: the
assertion of the normal way back fails. -/
theorem failPut_bug {i : Nat} (hfull : m.FreeFull) (err : Int) (bug : Bool)
    (h : m.qs.popHead k flags.reloc = some (i, s')) :
    (failPut { m with qs := s' } flags i err bug).bug = true := by
  obtain ⟨hseg, q, hq, hi⟩ := mem_of_popHead h
  have hvalid : (s'.seg i).validNr ≠ 0 := by
    rw [hseg, hfull.full q hq i hi]
    exact Nat.pos_iff_ne_zero.mp hfull.pos
  simp [failPut, failReclaimThin, scmPutFreeSeg, hvalid]

/-- From the queues on: only the budget is given back on an error, unless a callback refuses the
segment. -/
theorem getFromQueues_clean_iff (flags : GfsFlags) (cb : AllocCb) (hfull : m.FreeFull) :
    (∀ res, m.getFromQueues flags cb = some res → res.err ≠ 0 →
        SameCounts (if flags.thinProv then m.putSegsThinProv 1 else m) res.mgr ∧ res.bug = false) ↔
      ∀ i, m.headSeg flags = some i → (m.callback cb i).1 = 0 := by
  unfold getFromQueues headSeg
  cases hq : m.qs.getQueue flags with
  | error err =>
    refine iff_of_true ?_ (by simp)
    intro res h _
    dsimp only at h
    split at h
    · cases h
      exact ⟨.refl _, rfl⟩
    · cases h
  | ok k =>
    dsimp only
    cases hpop : m.qs.popHead k flags.reloc with
    | none =>
      refine iff_of_true ?_ (by simp)
      intro res h _
      cases h
      exact ⟨.refl _, rfl⟩
    | some p =>
      obtain ⟨i, s'⟩ := p
      have hsame : callback { m with qs := s' } cb i = m.callback cb i := rfl
      simp only [map_some, some.injEq, forall_eq', hsame]
      by_cases hcb : (m.callback cb i).1 = 0
      · refine iff_of_true ?_ hcb
        intro res h herr
        simp only [hcb, ne_eq, not_true_eq_false, if_false, some.injEq] at h
        exact absurd (congrArg GetRes.err h.symm) herr
      · refine iff_of_false (fun h => ?_) hcb
        have hclean := h _ (by rw [if_pos hcb]) hcb
        rw [failPut_bug hfull _ _ hpop] at hclean
        exact absurd hclean.2 (by decide)

theorem failsClean_iff (m : Mgr) (flags : GfsFlags) (cb : AllocCb) (hfull : m.FreeFull) :
    m.FailsClean flags cb ↔ m.NotRefused flags cb := by
  unfold FailsClean NotRefused scmGetFreeSeg nextSeg
  by_cases hboth : (flags.reloc && flags.thinProv) = true
  · simp only [hboth, if_true]
    refine iff_of_true ?_ (by simp)
    rintro res ⟨⟩ _
    exact ⟨.refl m, rfl⟩
  simp only [hboth]
  cases hthin : flags.thinProv with
  | false =>
    simpa [hthin] using getFromQueues_clean_iff flags cb hfull
  | true =>
    cases hget : m.getSegsThinProv 1 with
    | none =>
      have hzero : m.thinProvSegs = 0 := by simpa [getSegsThinProv] using hget
      refine iff_of_true ?_ (by simp [hzero])
      rintro res ⟨⟩ _
      exact ⟨.refl m, rfl⟩
    | some m' =>
      have hback : m'.putSegsThinProv 1 = m := put_get_thin hfull.thin_lt hget
      have hiff := getFromQueues_clean_iff flags cb (hfull.getSegsThinProv hget)
      rw [hthin, if_pos rfl, hback] at hiff
      obtain ⟨hge, hget⟩ := Option.ite_none_left_eq_some.mp hget
      cases hget
      have hne : m.thinProvSegs ≠ 0 := by omega
      simpa [hne, headSeg, callback] using hiff

/-- Two segments, one of them for relocation, in a range whose callback can refuse. -/
def twoSegs : Mgr where
  segNr := 2
  segSize := 8
  grainSize := 512
  devNr := 1
  raid := .linear
  scmDevProps := [⟨8192, .flash, 0, 1, 0, 0⟩]
  qs := ⟨[⟨[1], [0], .all⟩],
    fun i => ⟨8, 1, 255, 0, 255, false, 0, if i = 0 then .freeRel else .free, .flash⟩⟩
  thinProvSegs := 2
  exit := false

def thinFlags : GfsFlags := ⟨false, true, false, true, .all, .all⟩

/-- A refused segment: the assertion fails, and without it the budget grows by one. -/
theorem failsClean_refused :
    ((twoSegs.scmGetFreeSeg thinFlags fun _ _ _ => 5).map fun res =>
        (res.err, res.mgr.freeNrs, res.mgr.thinProvSegs, res.bug)) =
      some (5, [(1, 1)], 3, true) ∧
      ¬ twoSegs.FailsClean thinFlags fun _ _ _ => 5 := by
  refine ⟨by decide, fun h => ?_⟩
  have hclean := h _ rfl (by decide)
  exact absurd hclean.1.thin (by decide)

theorem freeFull_twoSegs : twoSegs.FreeFull := by
  refine ⟨fun _ _ _ _ => rfl, by decide, by decide⟩

theorem failsClean_accepted :
    twoSegs.FreeFull ∧ twoSegs.FailsClean thinFlags fun _ _ _ => 0 := by
  refine ⟨freeFull_twoSegs, (failsClean_iff _ _ _ freeFull_twoSegs).mpr ?_⟩
  intro i hi
  have h1 : twoSegs.nextSeg thinFlags = some 1 := by decide
  obtain rfl : 1 = i := Option.some.inj (h1.symm.trans hi)
  decide

end Mgr

end UDepot.Scm
