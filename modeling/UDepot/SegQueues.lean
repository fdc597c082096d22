import UDepot.DevProps
import UDepot.ScmInit
import Mathlib.Data.Nat.Bitwise

/-! The free queues of the capacity manager (`scm-seg-queues`). The segments of each range of
the device are initialised and put on the queue of the range's property, the first one of a
queue being kept for relocation. Ranges are counted in segments one by one, while a segment's
place on the device is its index: both agree only under conditions on the ranges. -/

namespace UDepot.Scm
open DevProperties List

inductive SegState where
  | invalid
  | free
  | freeRel
  | lsaAllocator
  | gc
  | gcXnp
  deriving DecidableEq, Repr

/-- `struct segment`, without its lists, its lock and its reverse map. -/
structure Seg where
  validNr : Nat
  outsReadNr : Nat
  ctlrId : Nat
  stream : Nat
  priv : Nat
  isReloc : Bool
  queueId : Nat
  state : SegState
  prop : ScmProperty
  deriving DecidableEq, Repr

def salsaInvalidPrivateId : Nat := 255

def salsaInvalidCtlrId : Nat := 255

/-- Memory that was set to zero. -/
def Seg.zero : Seg := ⟨0, 0, 0, 0, 0, false, 0, .invalid, .nvram⟩

/-- `segment_reset`. -/
def Seg.reset (seg : Seg) (pageNr : Nat) : Seg :=
  { seg with
    isReloc := false, stream := 0, priv := salsaInvalidPrivateId, ctlrId := salsaInvalidCtlrId,
    state := .invalid, validNr := pageNr }

/-- `segment_init`; `none` if the assertion of `segment_read_init` fails. -/
def Seg.init (seg : Seg) (pageNr : Nat) (prop : ScmProperty) (queueId : Nat) : Option Seg :=
  if seg.outsReadNr ≠ 0 then none
  else some { seg.reset pageNr with outsReadNr := 1, prop := prop, queueId := queueId }

/-- `struct scm_seg_queue`: the segments on its two lists, by index. -/
structure SegQueue where
  segs : List Nat
  relSegs : List Nat
  propSet : PropSet
  deriving DecidableEq, Repr

def SegQueue.occ (q : SegQueue) (i : Nat) : Nat := q.segs.count i + q.relSegs.count i

/-- The segments and the queues of `struct sto_capacity_mgr`. -/
structure SegQueues where
  queues : List SegQueue
  seg : Nat → Seg

namespace SegQueues

def Touched (s : SegQueues) (i : Nat) : Prop := (s.seg i).outsReadNr ≠ 0

def setSeg (s : SegQueues) (i : Nat) (seg : Seg) : SegQueues :=
  { s with seg := Function.update s.seg i seg }

def setState (s : SegQueues) (i : Nat) (state : SegState) : SegQueues :=
  s.setSeg i { s.seg i with state := state }

/-- `SEG_FREE` and the tail of `q_segs`. -/
def enqueue (s : SegQueues) (qId i : Nat) : SegQueues :=
  { s.setState i .free with
    queues := s.queues.modify qId fun q => { q with segs := q.segs ++ [i] } }

/-- `SEG_FREE_REL` and the tail of `q_rel_segs`. -/
def enqueueRel (s : SegQueues) (qId i : Nat) : SegQueues :=
  { s.setState i .freeRel with
    queues := s.queues.modify qId fun q => { q with relSegs := q.relSegs ++ [i] } }

/-- `scm_prop_find_queue`. -/
def findQueue (s : SegQueues) (p : ScmProperty) : Option Nat :=
  s.queues.findIdx? fun q => q.propSet.contains p

end SegQueues

def scmMaxQueues : Nat := 16

/-- The loop of `verify_masks` over the masks that follow, `m` being the union of those
before. -/
def verifyMasksFrom : List Nat → Nat → Bool
  | [], m => m == 2 ^ 5 - 1
  | mask :: masks, m => m &&& mask == 0 && verifyMasksFrom masks (m ||| mask)

def verifyMasks (masks : List Nat) : Bool :=
  decide (masks.length ≤ scmMaxQueues) && verifyMasksFrom masks 0

/-- `init_queues`. -/
def initQueues (masks : List Nat) : List SegQueue :=
  masks.map fun mask => ⟨[], [], ⟨mask % 2 ^ 8⟩⟩

/-- The arguments of `fill_queue`. -/
structure Fill where
  base : Nat
  nsegs : Nat
  nsegsReal : Nat
  segSize : Nat
  prop : ScmProperty
  qId : Nat

def Fill.d (f : Fill) : Nat := f.nsegsReal / f.nsegs

/-- Round `rsi` of the loop of `fill_queue`, with the count of the insertions so far. -/
def fillRound (f : Fill) (relRem rsi : Nat) (st : SegQueues × Nat) : Option (SegQueues × Nat) :=
  match (st.1.seg (f.base + rsi)).init f.segSize f.prop f.qId with
  | none => none
  | some seg =>
    let s := st.1.setSeg (f.base + rsi) seg
    if rsi % f.d ≠ 0 then some (s, st.2)
    else if f.nsegs ≤ st.2 then some (s, st.2 + 1)
    else if rsi < relRem then some (s.enqueueRel f.qId (f.base + rsi), st.2 + 1)
    else some (s.enqueue f.qId (f.base + rsi), st.2 + 1)

def fillRounds (f : Fill) (relRem : Nat) (s : SegQueues) : Nat → Option (SegQueues × Nat)
  | 0 => some (s, 0)
  | rsi + 1 => (fillRounds f relRem s rsi).bind (fillRound f relRem rsi)

/-- `fill_queue`; `none` if an assertion fails. -/
def fillQueue (s : SegQueues) (f : Fill) : Option SegQueues :=
  match s.queues[f.qId]? with
  | none => none
  | some q =>
    if salsaMinRelSegments < q.relSegs.length then none
    else
      (fillRounds f (salsaMinRelSegments - q.relSegs.length) s f.nsegsReal).map Prod.fst

/-- The sizes of a segment, in grains and in bytes. -/
structure Geometry where
  segSize : Nat
  bytesPerSegment : Nat
  pos : 0 < bytesPerSegment

namespace Geometry

variable (g : Geometry)

/-- `r_nsegs`. -/
def nSegs (r : RangeProp) : Nat := r.rLen / g.bytesPerSegment

/-- `r_nsegs_real`. -/
def nSegsReal (r : RangeProp) : Nat :=
  if r.rRealLen / g.bytesPerSegment ≤ g.nSegs r then g.nSegs r
  else r.rRealLen / g.bytesPerSegment

/-- `scm_cfg_get_segs_nr`. -/
def segNr (ranges : DevProperties) : Nat := sizeGrain g.bytesPerSegment ranges

/-- `scm_cfg_get_real_segs_nr`: the segments that memory is allocated for. -/
def realSegNr (ranges : DevProperties) : Nat := realSizeGrain g.bytesPerSegment ranges

/-- The call of `fill_queue` for a range whose segments start at `sIdx`. -/
def fillOf (r : RangeProp) (sIdx qId : Nat) : Fill :=
  ⟨sIdx, g.nSegs r, g.nSegsReal r, g.segSize, r.rProp, qId⟩

end Geometry

/-- The loop of `scm_seg_queues_init` over the ranges that follow. -/
def initRanges (g : Geometry) (segNr : Nat) : DevProperties → Nat → SegQueues → Option SegQueues
  | [], _, s => some s
  | r :: ranges, sIdx, s =>
    match s.findQueue r.rProp with
    | none => none
    | some qId =>
      if g.nSegs r = 0 then initRanges g segNr ranges sIdx s
      else if segNr < sIdx + g.nSegs r then none
      else
        match fillQueue s (g.fillOf r sIdx qId) with
        | none => none
        | some s' => initRanges g segNr ranges (sIdx + g.nSegs r) s'

inductive InitErr where
  | einval
  | assertion
  deriving DecidableEq, Repr

/-- `scm_seg_queues_init` on segments that are zero. -/
def scmSegQueuesInit (g : Geometry) (masks : List Nat) (ranges : DevProperties) :
    Except InitErr SegQueues :=
  if verifyMasks masks then
    match initRanges g (g.segNr ranges) ranges 0 ⟨initQueues masks, fun _ => .zero⟩ with
    | none => .error .assertion
    | some s => .ok s
  else .error .einval

/-! ### What one range adds to its queue -/

/-- The queue with the segments put on it in this order, the first ones up to the relocation
reserve on the relocation list. -/
def SegQueue.fill (q : SegQueue) (idxs : List Nat) : SegQueue :=
  { q with
    segs := q.segs ++ idxs.drop (salsaMinRelSegments - q.relSegs.length)
    relSegs := q.relSegs ++ idxs.take (salsaMinRelSegments - q.relSegs.length) }

namespace SegQueue

variable {q : SegQueue} {idxs : List Nat} {i : Nat}

@[simp] theorem fill_propSet : (q.fill idxs).propSet = q.propSet := rfl

@[simp] theorem fill_nil : q.fill [] = q := by simp [fill]

theorem fill_snoc_rel (h : idxs.length < salsaMinRelSegments - q.relSegs.length) :
    q.fill (idxs ++ [i]) =
      { q.fill idxs with relSegs := (q.fill idxs).relSegs ++ [i] } := by
  have htake : (idxs ++ [i]).take (salsaMinRelSegments - q.relSegs.length) = idxs ++ [i] :=
    take_of_length_le (by simpa using h)
  have hdrop : (idxs ++ [i]).drop (salsaMinRelSegments - q.relSegs.length) = [] :=
    drop_of_length_le (by simpa using h)
  simp [fill, htake, hdrop, take_of_length_le (Nat.le_of_lt h),
    drop_of_length_le (Nat.le_of_lt h)]

theorem fill_snoc (h : salsaMinRelSegments - q.relSegs.length ≤ idxs.length) :
    q.fill (idxs ++ [i]) = { q.fill idxs with segs := (q.fill idxs).segs ++ [i] } := by
  simp [fill, take_append_of_le_length h, drop_append_of_le_length h]

theorem occ_fill : (q.fill idxs).occ i = q.occ i + idxs.count i := by
  have hsplit : idxs.count i = (idxs.take (salsaMinRelSegments - q.relSegs.length)).count i +
      (idxs.drop (salsaMinRelSegments - q.relSegs.length)).count i := by
    rw [← count_append, take_append_drop]
  simp only [occ, fill, count_append]
  omega

end SegQueue

/-- The first segments that `fill_queue` inserts, in order: every `d`-th one. -/
def Fill.idxs (f : Fill) (t : Nat) : List Nat := (List.range t).map fun j => f.base + f.d * j

namespace Fill

variable {f : Fill}

@[simp] theorem length_idxs (t : Nat) : (f.idxs t).length = t := by simp [idxs]

theorem idxs_succ (t : Nat) : f.idxs (t + 1) = f.idxs t ++ [f.base + f.d * t] := by
  simp [idxs, range_succ]

theorem mem_idxs {t i : Nat} : i ∈ f.idxs t ↔ ∃ j < t, i = f.base + f.d * j := by
  simp [idxs, eq_comm]

theorem count_idxs (hd : 0 < f.d) (t i : Nat) :
    (f.idxs t).count i = if i ∈ f.idxs t then 1 else 0 := by
  have hnodup : (f.idxs t).Nodup := by
    refine nodup_range.map_on ?_
    intro a _ b _ hab
    exact Nat.eq_of_mul_eq_mul_left hd (by omega)
  split
  · next h => exact count_eq_one_of_mem hnodup h
  · next h => exact count_eq_zero_of_not_mem h

/-- How many rounds before `rsi` have counted an insertion. -/
def taken (f : Fill) (rsi : Nat) : Nat := (rsi + f.d - 1) / f.d

theorem taken_zero (hd : 0 < f.d) : f.taken 0 = 0 := by
  rw [taken, Nat.zero_add]
  exact Nat.div_eq_of_lt (by omega)

theorem taken_succ (hd : 0 < f.d) (rsi : Nat) : f.taken (rsi + 1) = rsi / f.d + 1 := by
  rw [taken, show rsi + 1 + f.d - 1 = rsi + f.d by omega, Nat.add_div_right _ hd]

theorem taken_of_dvd (hd : 0 < f.d) {rsi : Nat} (h : rsi % f.d = 0) : f.taken rsi = rsi / f.d := by
  obtain ⟨t, rfl⟩ := Nat.dvd_of_mod_eq_zero h
  rw [taken, Nat.mul_div_cancel_left t hd, show f.d * t + f.d - 1 = f.d - 1 + f.d * t by omega,
    Nat.add_mul_div_left _ _ hd, Nat.div_eq_of_lt (by omega), Nat.zero_add]

theorem taken_of_not_dvd (hd : 0 < f.d) {rsi : Nat} (h : rsi % f.d ≠ 0) :
    f.taken rsi = rsi / f.d + 1 := by
  have hsplit := Nat.div_add_mod rsi f.d
  have hlt := Nat.mod_lt rsi hd
  rw [taken, show rsi + f.d - 1 = rsi % f.d - 1 + f.d * (rsi / f.d + 1) by rw [Nat.mul_add]; omega,
    Nat.add_mul_div_left _ _ hd, Nat.div_eq_of_lt (by omega), Nat.zero_add]

theorem le_taken_nsegsReal (hn : 0 < f.nsegs) (hle : f.nsegs ≤ f.nsegsReal) :
    f.nsegs ≤ f.taken f.nsegsReal := by
  have hd : 0 < f.d := Nat.div_pos hle hn
  rw [taken, Nat.le_div_iff_mul_le hd]
  have := Nat.mul_div_le f.nsegsReal f.nsegs
  rw [← d] at this
  omega

end Fill

namespace SegQueues

variable {s : SegQueues} {i k : Nat}

@[simp] theorem setSeg_queues (seg : Seg) : (s.setSeg i seg).queues = s.queues := rfl

theorem touched_setSeg {seg : Seg} (h : seg.outsReadNr ≠ 0) :
    (s.setSeg i seg).Touched k ↔ s.Touched k ∨ k = i := by
  unfold Touched setSeg
  grind

@[simp] theorem touched_enqueue (qId : Nat) : (s.enqueue qId i).Touched k ↔ s.Touched k := by
  by_cases hk : k = i
  · subst hk
    simp [Touched, enqueue, setState, setSeg]
  · simp [Touched, enqueue, setState, setSeg, hk]

@[simp] theorem touched_enqueueRel (qId : Nat) : (s.enqueueRel qId i).Touched k ↔ s.Touched k := by
  by_cases hk : k = i
  · subst hk
    simp [Touched, enqueueRel, setState, setSeg]
  · simp [Touched, enqueueRel, setState, setSeg, hk]

end SegQueues

theorem Seg.init_eq_some {seg seg' : Seg} {pageNr qId : Nat} {prop : ScmProperty}
    (h : seg.init pageNr prop qId = some seg') : seg.outsReadNr = 0 ∧ seg'.outsReadNr = 1 := by
  unfold Seg.init at h
  split at h
  · cases h
  · next h0 =>
    cases h
    exact ⟨not_not.mp h0, rfl⟩

theorem set_modify_of_get {α : Type} (l : List α) (k : Nat) (a : α) (g : α → α) (h : k < l.length) :
    (l.set k a).modify k g = l.set k (g a) := by
  apply ext_getElem?
  intro j
  grind

/-- What the first rounds have done, and that each met a fresh segment. -/
structure Filled (f : Fill) (q : SegQueue) (s : SegQueues) (rsi : Nat) (s' : SegQueues)
    (inserted : Nat) : Prop where
  count : inserted = f.taken rsi
  fresh : ∀ i, f.base ≤ i → i < f.base + rsi → ¬ s.Touched i
  touched : ∀ i, s'.Touched i ↔ s.Touched i ∨ (f.base ≤ i ∧ i < f.base + rsi)
  queues : s'.queues = s.queues.set f.qId (q.fill (f.idxs (min f.nsegs inserted)))

variable {rsi : Nat}

theorem Filled.round {f : Fill} {q : SegQueue} {s s₁ s' : SegQueues} {n₁ n' : Nat} (hd : 0 < f.d)
    (hq : s.queues[f.qId]? = some q) (h : Filled f q s rsi s₁ n₁)
    (hr : fillRound f (salsaMinRelSegments - q.relSegs.length) rsi (s₁, n₁) = some (s', n')) :
    Filled f q s (rsi + 1) s' n' := by
  unfold fillRound at hr
  have hlen : f.qId < s.queues.length := (List.getElem?_eq_some_iff.mp hq).1
  have hmin : salsaMinRelSegments - q.relSegs.length ≤ 1 := Nat.sub_le _ _
  cases hinit : (s₁.seg (f.base + rsi)).init f.segSize f.prop f.qId with
  | none => simp [hinit] at hr
  | some seg =>
    obtain ⟨h0, h1⟩ := Seg.init_eq_some hinit
    have hnot : ¬ s₁.Touched (f.base + rsi) := not_not.mpr h0
    have hfresh : ∀ i, f.base ≤ i → i < f.base + (rsi + 1) → ¬ s.Touched i := by
      intro i hge hlt ht
      rcases Nat.lt_or_ge i (f.base + rsi) with hi | hi
      · exact h.fresh i hge hi ht
      · have : i = f.base + rsi := by omega
        exact hnot ((h.touched _).mpr (.inl (this ▸ ht)))
    have htouched : ∀ i, (s₁.setSeg (f.base + rsi) seg).Touched i ↔
        s.Touched i ∨ (f.base ≤ i ∧ i < f.base + (rsi + 1)) := by
      intro i
      rw [SegQueues.touched_setSeg (by omega), h.touched, or_assoc]
      refine or_congr_right ⟨fun h => by omega, fun h => by omega⟩
    simp only [hinit] at hr
    split at hr
    · -- a segment that is skipped
      next hmod =>
      cases hr
      have hcount : n₁ = f.taken (rsi + 1) := by
        rw [h.count, Fill.taken_of_not_dvd hd hmod, Fill.taken_succ hd]
      exact ⟨hcount, hfresh, htouched, h.queues⟩
    · next hmod =>
      have hmod : rsi % f.d = 0 := not_not.mp hmod
      have htake : n₁ = rsi / f.d := by rw [h.count, Fill.taken_of_dvd hd hmod]
      have hcount : n₁ + 1 = f.taken (rsi + 1) := by rw [htake, Fill.taken_succ hd]
      have hrsi : f.d * n₁ = rsi := by rw [htake, Nat.mul_div_cancel' (Nat.dvd_of_mod_eq_zero hmod)]
      split at hr
      · next hfull =>
        cases hr
        refine ⟨hcount, hfresh, htouched, ?_⟩
        rw [Nat.min_eq_left (by omega)]
        simpa [Nat.min_eq_left hfull] using h.queues
      · next hroom =>
        have hidx : f.idxs (min f.nsegs (n₁ + 1)) = f.idxs n₁ ++ [f.base + rsi] := by
          rw [Nat.min_eq_right (by omega), Fill.idxs_succ, hrsi]
        have hqueues : s₁.queues = s.queues.set f.qId (q.fill (f.idxs n₁)) := by
          rw [h.queues, Nat.min_eq_right (by omega)]
        split at hr
        · -- the first segment of a queue without a relocation segment
          next hrel =>
          cases hr
          refine ⟨hcount, hfresh, fun i => by simpa using htouched i, ?_⟩
          have hn : n₁ < salsaMinRelSegments - q.relSegs.length := by
            have : rsi = 0 := by omega
            rw [htake, this, Nat.zero_div]
            omega
          rw [hidx, SegQueue.fill_snoc_rel (by simpa using hn)]
          simp only [SegQueues.enqueueRel, SegQueues.setSeg_queues, hqueues]
          exact set_modify_of_get _ _ _ _ hlen
        · next hrel =>
          cases hr
          refine ⟨hcount, hfresh, fun i => by simpa using htouched i, ?_⟩
          have hn : salsaMinRelSegments - q.relSegs.length ≤ n₁ := by
            rcases Nat.eq_zero_or_pos n₁ with h0 | hpos
            · rw [h0, Nat.mul_zero] at hrsi
              omega
            · omega
          rw [hidx, SegQueue.fill_snoc (by simpa using hn)]
          simp only [SegQueues.enqueue, SegQueues.setSeg_queues, hqueues]
          exact set_modify_of_get _ _ _ _ hlen

variable {s s' : SegQueues}

theorem Filled.of_fillRounds {f : Fill} {q : SegQueue} {n : Nat} (hd : 0 < f.d)
    (hq : s.queues[f.qId]? = some q)
    (h : fillRounds f (salsaMinRelSegments - q.relSegs.length) s rsi = some (s', n)) :
    Filled f q s rsi s' n := by
  induction rsi generalizing s' n with
  | zero =>
    cases h
    refine ⟨(Fill.taken_zero hd).symm, fun i hge hlt => by omega, fun i => ?_, ?_⟩
    · exact ⟨.inl, fun h => h.resolve_right (by omega)⟩
    · obtain ⟨hlt, rfl⟩ := List.getElem?_eq_some_iff.mp hq
      simp [Fill.idxs]
  | succ rsi ih =>
    obtain ⟨⟨s₁, n₁⟩, h₁, hr⟩ := Option.bind_eq_some_iff.mp h
    exact (ih h₁).round hd hq hr

theorem fillRound_isSome {f : Fill} {relRem n : Nat} {s : SegQueues}
    (h : ¬ s.Touched (f.base + rsi)) : ∃ st, fillRound f relRem rsi (s, n) = some st := by
  have h0 : (s.seg (f.base + rsi)).outsReadNr = 0 := not_not.mp h
  fun_cases fillRound f relRem rsi (s, n) with
  | case1 hinit => simp [Seg.init, h0] at hinit
  | _ => exact ⟨_, rfl⟩

theorem fillRounds_isSome {f : Fill} {q : SegQueue} {s : SegQueues} (hd : 0 < f.d)
    (hq : s.queues[f.qId]? = some q) (rsi : Nat)
    (hfresh : ∀ i, f.base ≤ i → i < f.base + rsi → ¬ s.Touched i) :
    ∃ st, fillRounds f (salsaMinRelSegments - q.relSegs.length) s rsi = some st := by
  induction rsi with
  | zero => exact ⟨_, rfl⟩
  | succ rsi ih =>
    obtain ⟨⟨s₁, n₁⟩, h₁⟩ := ih fun i hge hlt => hfresh i hge (by omega)
    have hnot : ¬ s₁.Touched (f.base + rsi) := by
      rw [(Filled.of_fillRounds hd hq h₁).touched]
      rintro (h | h)
      · exact hfresh _ (by omega) (by omega) h
      · omega
    obtain ⟨st, hst⟩ := fillRound_isSome hnot
    exact ⟨st, by rw [fillRounds, h₁, Option.bind_some, hst]⟩

/-- `fill_queue` as a whole: all real segments were fresh and are initialised, and the queue
gets as many of them as the range has. -/
structure QueueFilled (f : Fill) (q : SegQueue) (s s' : SegQueues) : Prop where
  fresh : ∀ i, f.base ≤ i → i < f.base + f.nsegsReal → ¬ s.Touched i
  touched : ∀ i, s'.Touched i ↔ s.Touched i ∨ (f.base ≤ i ∧ i < f.base + f.nsegsReal)
  queues : s'.queues = s.queues.set f.qId (q.fill (f.idxs f.nsegs))

section FillQueue

variable {f : Fill} {q : SegQueue} {s s' : SegQueues}

theorem QueueFilled.of_fillQueue (hn : 0 < f.nsegs) (hle : f.nsegs ≤ f.nsegsReal)
    (hq : s.queues[f.qId]? = some q) (h : fillQueue s f = some s') : QueueFilled f q s s' := by
  have hd : 0 < f.d := Nat.div_pos hle hn
  simp only [fillQueue, hq] at h
  split at h
  · cases h
  · obtain ⟨⟨s₁, n₁⟩, h₁, rfl⟩ := Option.map_eq_some_iff.mp h
    have hf : Filled f q s f.nsegsReal s₁ n₁ := .of_fillRounds hd hq h₁
    refine ⟨hf.fresh, hf.touched, ?_⟩
    rw [hf.queues, hf.count, Nat.min_eq_left (Fill.le_taken_nsegsReal hn hle)]

theorem fillQueue_isSome (hn : 0 < f.nsegs) (hle : f.nsegs ≤ f.nsegsReal)
    (hq : s.queues[f.qId]? = some q) (hrel : q.relSegs.length ≤ salsaMinRelSegments)
    (hfresh : ∀ i, f.base ≤ i → i < f.base + f.nsegsReal → ¬ s.Touched i) :
    ∃ s', fillQueue s f = some s' := by
  obtain ⟨st, hst⟩ := fillRounds_isSome (Nat.div_pos hle hn) hq f.nsegsReal hfresh
  exact ⟨st.1, by simp [fillQueue, hq, Nat.not_lt.mpr hrel, hst]⟩

end FillQueue

/-! ### The run over the ranges -/

namespace Geometry

variable (g : Geometry)

def segs (ranges : DevProperties) : Nat := (ranges.map g.nSegs).sum

@[simp] theorem segs_nil : g.segs [] = 0 := rfl

@[simp] theorem segs_cons (r : RangeProp) (ranges : DevProperties) :
    g.segs (r :: ranges) = g.nSegs r + g.segs ranges := by
  simp [segs]

@[simp] theorem segs_append (front back : DevProperties) :
    g.segs (front ++ back) = g.segs front + g.segs back := by
  simp [segs]

theorem segNr_eq (ranges : DevProperties) : g.segNr ranges = g.segs ranges % 2 ^ 64 := by
  rw [segNr, sizeGrain_eq]
  rfl

theorem nSegs_le_nSegsReal (r : RangeProp) : g.nSegs r ≤ g.nSegsReal r := by
  unfold nSegsReal
  split <;> omega

theorem exists_first_of_segs_pos {ranges : DevProperties} (h : 0 < g.segs ranges) :
    ∃ front r back, ranges = front ++ r :: back ∧ g.segs front = 0 ∧ 0 < g.nSegs r := by
  induction ranges with
  | nil => simp at h
  | cons r ranges ih =>
    rcases Nat.eq_zero_or_pos (g.nSegs r) with h0 | hpos
    · obtain ⟨front, q, back, rfl, hf, hq⟩ := ih (by simpa [h0] using h)
      exact ⟨r :: front, q, back, rfl, by simp [h0, hf], hq⟩
    · exact ⟨[], r, ranges, rfl, rfl, hpos⟩

end Geometry

section Run

variable {g : Geometry} {segNr : Nat}

theorem initRanges_append (front back : DevProperties) (sIdx : Nat) (s : SegQueues) :
    initRanges g segNr (front ++ back) sIdx s =
      (initRanges g segNr front sIdx s).bind (initRanges g segNr back (sIdx + g.segs front)) := by
  induction front generalizing sIdx s with
  | nil => simp [initRanges]
  | cons r front ih =>
    simp only [cons_append, initRanges, g.segs_cons]
    cases s.findQueue r.rProp with
    | none => rfl
    | some qId =>
      dsimp only
      split
      · next h0 => rw [ih, h0, Nat.zero_add]
      · split
        · rfl
        · cases fillQueue s (g.fillOf r sIdx qId) with
          | none => rfl
          | some s' => simp only [ih, Nat.add_assoc]

variable {ranges : DevProperties} {sIdx : Nat}

theorem initRanges_cons_some {r : RangeProp} (hn : 0 < g.nSegs r)
    (h : initRanges g segNr (r :: ranges) sIdx s = some s') :
    ∃ qId q s₁, s.findQueue r.rProp = some qId ∧ s.queues[qId]? = some q ∧
      sIdx + g.nSegs r ≤ segNr ∧ QueueFilled (g.fillOf r sIdx qId) q s s₁ ∧
      initRanges g segNr ranges (sIdx + g.nSegs r) s₁ = some s' := by
  simp only [initRanges] at h
  cases hfind : s.findQueue r.rProp with
  | none => simp [hfind] at h
  | some qId =>
    simp only [hfind, if_neg (Nat.pos_iff_ne_zero.mp hn)] at h
    split at h
    · cases h
    · next hle =>
      cases hfill : fillQueue s (g.fillOf r sIdx qId) with
      | none => simp [hfill] at h
      | some s₁ =>
        simp only [hfill] at h
        obtain ⟨hlt, -⟩ := List.findIdx?_eq_some_iff_getElem.mp hfind
        refine ⟨qId, _, s₁, rfl, getElem?_eq_getElem hlt, by omega, ?_, h⟩
        exact .of_fillQueue hn (g.nSegs_le_nSegsReal r) (getElem?_eq_getElem hlt) hfill

theorem initRanges_cons_zero {r : RangeProp} (hn : g.nSegs r = 0)
    (h : initRanges g segNr (r :: ranges) sIdx s = some s') :
    initRanges g segNr ranges sIdx s = some s' := by
  simp only [initRanges, hn, if_true] at h
  split at h
  · cases h
  · exact h

/-- An invariant of the manager that a filled queue keeps is kept by the run. -/
theorem initRanges_invariant (P : Nat → SegQueues → Prop)
    (hstep : ∀ r sIdx qId q s s', 0 < g.nSegs r → s.queues[qId]? = some q → P sIdx s →
      QueueFilled (g.fillOf r sIdx qId) q s s' → P (sIdx + g.nSegs r) s') (h0 : P sIdx s)
    (h : initRanges g segNr ranges sIdx s = some s') : P (sIdx + g.segs ranges) s' := by
  induction ranges generalizing sIdx s with
  | nil =>
    cases h
    exact h0
  | cons r ranges ih =>
    rw [g.segs_cons, ← Nat.add_assoc]
    rcases Nat.eq_zero_or_pos (g.nSegs r) with hn | hn
    · rw [hn, Nat.add_zero]
      exact ih h0 (initRanges_cons_zero hn h)
    · obtain ⟨qId, q, s₁, -, hq, -, hfill, hrest⟩ := initRanges_cons_some hn h
      exact ih (hstep r sIdx qId q s s₁ hn hq h0 hfill) hrest

theorem initRanges_segs_le (h : initRanges g segNr ranges sIdx s = some s') :
    g.segs ranges = 0 ∨ sIdx + g.segs ranges ≤ segNr := by
  induction ranges generalizing sIdx s with
  | nil => exact .inl rfl
  | cons r ranges ih =>
    rw [g.segs_cons]
    rcases Nat.eq_zero_or_pos (g.nSegs r) with hn | hn
    · simpa [hn] using ih (initRanges_cons_zero hn h)
    · obtain ⟨qId, q, s₁, -, -, hle, -, hrest⟩ := initRanges_cons_some hn h
      rcases ih hrest with h0 | h0
      · exact .inr (by omega)
      · exact .inr (by omega)

end Run

end UDepot.Scm
