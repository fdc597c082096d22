import UDepot.DevProps
import Mathlib.Data.Nat.Bitwise

/-! The mapping of the queues of the capacity manager to streams
(`scm_seg_queues_map_to_streams`). Hot streams have high numbers and good storage has queues with
low ones, so both are counted against each other; where the counts differ, the first streams share
the last queue, or the first stream gets all the last queues. -/

namespace UDepot.Scm
open List

structure StreamArgs where
  qsProps : Nat → PropSet
  qsSize : Nat → Nat
  qsNr : Nat
  streamsNr : Nat
  qsNr_pos : 0 < qsNr
  qsNr_lt : qsNr < 2 ^ 32
  streamsNr_pos : 0 < streamsNr
  streamsNr_lt : streamsNr < 2 ^ 16

/-- An element of `stream_props` and `stream_size`, with the queues that were read for it. -/
structure Stream where
  props : PropSet
  size : Nat
  queues : List Nat
  deriving DecidableEq, Repr

namespace StreamArgs

variable (a : StreamArgs)

def one (qid : Nat) : Stream := ⟨a.qsProps qid, a.qsSize qid, [qid]⟩

def add (x : Nat) (s : Stream) : Stream :=
  ⟨s.props.union (a.qsProps x), (s.size + a.qsSize x) % 2 ^ 64, s.queues ++ [x]⟩

/-- The loop for the first stream, at most `fuel` rounds. The counter is unsigned. -/
def gather : Nat → Nat → Stream → Option Stream
  | 0, _, _ => none
  | fuel + 1, x, s =>
    let d := a.qsNr - a.streamsNr
    if a.qsNr - d - 1 ≤ x ∧ x < a.qsNr then gather fuel ((x + (2 ^ 32 - 1)) % 2 ^ 32) (a.add x s)
    else some s

/-- More streams than queues. -/
def sharing (sid : Nat) : Stream :=
  let r := a.streamsNr - a.qsNr
  let lastQid := a.qsNr - 1
  let lastSizePart := a.qsSize lastQid / (r + 1)
  let lastSizeRem := a.qsSize lastQid - lastSizePart * r
  if sid ≤ r then ⟨a.qsProps lastQid, if sid = r then lastSizeRem else lastSizePart, [lastQid]⟩
  else a.one (a.qsNr - (sid - r) - 1)

/-- `scm_seg_queues_map_to_streams`. -/
def mapToStreams : Option (List Stream) :=
  if a.qsNr = a.streamsNr then
    some ((List.range a.streamsNr).map fun sid => a.one (a.qsNr - sid - 1))
  else if a.qsNr < a.streamsNr then some ((List.range a.streamsNr).map a.sharing)
  else
    (a.gather (a.qsNr + 1) (a.qsNr - 1) ⟨.empty, 0, []⟩).map fun first =>
      let d := a.qsNr - a.streamsNr
      (List.range a.streamsNr).map fun sid =>
        if sid = 0 then first else a.one (a.qsNr - sid - d - 1)

/-- The sizes of `n` queues from `k` on, as a number. -/
def sizes (k n : Nat) : Nat := ((List.range' k n).map a.qsSize).sum

/-- The property set of a stream is the union of those of its queues. -/
def IsUnion (s : Stream) : Prop :=
  ∀ b, s.props.mask.testBit b = true ↔ ∃ q ∈ s.queues, (a.qsProps q).mask.testBit b = true

/-- The queues from `k` on are mapped to `streams`. -/
structure Conserves (k : Nat) (streams : List Stream) : Prop where
  everyQueue : ∀ q, k ≤ q → q < a.qsNr → ∃ s ∈ streams, q ∈ s.queues
  everyStream : ∀ s ∈ streams, s.queues ≠ []
  within : ∀ s ∈ streams, ∀ q ∈ s.queues, k ≤ q ∧ q < a.qsNr
  order : streams.Pairwise fun s s' => ∀ q ∈ s.queues, ∀ q' ∈ s'.queues, q' ≤ q
  size : (streams.map Stream.size).sum = a.sizes k (a.qsNr - k)
  union : ∀ s ∈ streams, a.IsUnion s

/-! ## Sizes -/

variable {a}

theorem sizes_succ (k n : Nat) : a.sizes k (n + 1) = a.sizes k n + a.qsSize (k + n) := by
  rw [sizes, range'_concat, map_append, sum_append, Nat.one_mul]
  simp [sizes]

theorem sizes_add (k m n : Nat) : a.sizes k (m + n) = a.sizes k m + a.sizes (k + m) n := by
  induction n with
  | zero => simp [sizes]
  | succ n ih => rw [← Nat.add_assoc, sizes_succ, sizes_succ, ih, Nat.add_assoc k m n,
    Nat.add_assoc]

/-! ## One queue after the other -/

theorem one_isUnion (q : Nat) : a.IsUnion (a.one q) := fun b => by simp [one]

variable {k : Nat} {streams : List Stream}

theorem Conserves.append_one (h : a.Conserves (k + 1) streams) (hk : k < a.qsNr) :
    a.Conserves k (streams ++ [a.one k]) where
  everyQueue q hle hlt := by
    rcases Nat.eq_or_lt_of_le hle with rfl | hlt'
    · exact ⟨a.one k, by simp, by simp [one]⟩
    · obtain ⟨s, hs, hq⟩ := h.everyQueue q hlt' hlt
      exact ⟨s, mem_append_left _ hs, hq⟩
  everyStream s hs := by
    rcases mem_append.mp hs with hs | hs
    · exact h.everyStream s hs
    · rw [mem_singleton.mp hs]
      exact cons_ne_nil _ _
  within s hs q hq := by
    rcases mem_append.mp hs with hs | hs
    · have := h.within s hs q hq
      omega
    · rw [mem_singleton.mp hs] at hq
      rw [mem_singleton.mp hq]
      exact ⟨Nat.le_refl _, hk⟩
  order := by
    refine pairwise_append.mpr ⟨h.order, pairwise_singleton _ _, fun s hs s' hs' => ?_⟩
    intro q hq q' hq'
    rw [mem_singleton.mp hs'] at hq'
    rw [mem_singleton.mp hq']
    have := (h.within s hs q hq).1
    omega
  size := by
    obtain ⟨n, hn⟩ : ∃ n, a.qsNr - k = 1 + n := ⟨a.qsNr - k - 1, by omega⟩
    have hsub : a.qsNr - (k + 1) = n := by omega
    have hsum := h.size
    rw [hsub] at hsum
    rw [hn, sizes_add, map_append, sum_append, hsum, Nat.add_comm]
    simp [sizes, one]
  union s hs := by
    rcases mem_append.mp hs with hs | hs
    · exact h.union s hs
    · rw [mem_singleton.mp hs]
      exact one_isUnion k

variable (a) in
/-- One stream for each of the first `k` queues, from the last of them on. -/
def descending : Nat → List Stream
  | 0 => []
  | k + 1 => a.one k :: descending k

theorem Conserves.append_descending (h : a.Conserves k streams) (hk : k ≤ a.qsNr) :
    a.Conserves 0 (streams ++ a.descending k) := by
  induction k generalizing streams with
  | zero =>
    rw [descending, append_nil]
    exact h
  | succ k ih =>
    rw [descending, append_cons]
    exact ih (h.append_one hk) (Nat.le_of_succ_le hk)

theorem map_range_one (k : Nat) :
    (List.range k).map (fun i => a.one (k - i - 1)) = a.descending k := by
  induction k with
  | zero => rfl
  | succ k ih =>
    rw [range_succ_eq_map, map_cons, map_map, descending, ← ih]
    congr 1
    refine map_congr_left fun i _ => ?_
    rw [Function.comp_apply, Nat.succ_sub_succ]

theorem descending_length (k : Nat) : (a.descending k).length = k := by
  induction k with
  | zero => rfl
  | succ k ih => rw [descending, length_cons, ih]

theorem descending_size (k : Nat) : ((a.descending k).map Stream.size).sum = a.sizes 0 k := by
  induction k with
  | zero => rfl
  | succ k ih =>
    rw [descending, map_cons, sum_cons, ih, sizes_succ, Nat.zero_add, Nat.add_comm]
    rfl

/-! ## The last queue for the first streams -/

theorem Conserves.nil : a.Conserves a.qsNr [] where
  everyQueue q hle hlt := absurd hlt (Nat.not_lt.mpr hle)
  everyStream _ hs := absurd hs not_mem_nil
  within _ hs := absurd hs not_mem_nil
  order := .nil
  size := by rw [Nat.sub_self]; rfl
  union _ hs := absurd hs not_mem_nil

theorem conserves_last (hne : streams ≠ [])
    (hq : ∀ s ∈ streams, s.queues = [a.qsNr - 1] ∧ s.props = a.qsProps (a.qsNr - 1))
    (hsum : (streams.map Stream.size).sum = a.qsSize (a.qsNr - 1)) :
    a.Conserves (a.qsNr - 1) streams := by
  have hpos := a.qsNr_pos
  have hmem : ∀ s ∈ streams, ∀ q ∈ s.queues, q = a.qsNr - 1 := by
    intro s hs q hqs
    rw [(hq s hs).1] at hqs
    exact mem_singleton.mp hqs
  refine ⟨fun q hle hlt => ?_, fun s hs => ?_, fun s hs q hqs => ?_, ?_, ?_, fun s hs b => ?_⟩
  · obtain ⟨s, hs⟩ := exists_mem_of_ne_nil _ hne
    refine ⟨s, hs, ?_⟩
    rw [(hq s hs).1, mem_singleton]
    omega
  · rw [(hq s hs).1]
    exact cons_ne_nil _ _
  · rw [hmem s hs q hqs]
    omega
  · refine pairwise_of_forall_mem_list fun s hs s' hs' q hqs q' hqs' => ?_
    rw [hmem s hs q hqs, hmem s' hs' q' hqs']
  · rw [hsum, show a.qsNr - (a.qsNr - 1) = 0 + 1 by omega, sizes_succ]
    simp [sizes]
  · rw [(hq s hs).1, (hq s hs).2]
    simp

theorem sharing_first {sid : Nat} (h : sid ≤ a.streamsNr - a.qsNr) :
    (a.sharing sid).queues = [a.qsNr - 1] ∧ (a.sharing sid).props = a.qsProps (a.qsNr - 1) := by
  rw [sharing, if_pos h]
  exact ⟨rfl, rfl⟩

theorem sharing_sum :
    (((List.range (a.streamsNr - a.qsNr + 1)).map a.sharing).map Stream.size).sum =
      a.qsSize (a.qsNr - 1) := by
  generalize hr : a.streamsNr - a.qsNr = r
  generalize hsize : a.qsSize (a.qsNr - 1) = size
  have hpart : ∀ sid < r, (a.sharing sid).size = size / (r + 1) := by
    intro sid hlt
    rw [sharing, hr, hsize, if_pos hlt.le]
    exact if_neg hlt.ne
  have hrem : (a.sharing r).size = size - size / (r + 1) * r := by
    rw [sharing, hr, hsize, if_pos (Nat.le_refl r)]
    exact if_pos rfl
  have hparts : ∀ m ≤ r, (((List.range m).map a.sharing).map Stream.size).sum =
      m * (size / (r + 1)) := by
    intro m hm
    induction m with
    | zero => rw [Nat.zero_mul]; rfl
    | succ m ih =>
      rw [range_succ, map_append, map_append, sum_append, ih (by omega),
        Nat.succ_mul]
      simp [hpart m (by omega)]
  have hle : size / (r + 1) * r ≤ size :=
    (Nat.mul_le_mul_left _ (Nat.le_succ r)).trans (Nat.div_mul_le_self size (r + 1))
  rw [range_succ, map_append, map_append, sum_append, hparts r (Nat.le_refl r),
    map_singleton, map_singleton, sum_singleton, hrem, Nat.mul_comm,
    Nat.add_sub_cancel' hle]

theorem map_sharing (h : a.qsNr < a.streamsNr) :
    (List.range a.streamsNr).map a.sharing =
      (List.range (a.streamsNr - a.qsNr + 1)).map a.sharing ++ a.descending (a.qsNr - 1) := by
  have hpos := a.qsNr_pos
  have hsplit : a.streamsNr = (a.streamsNr - a.qsNr + 1) + (a.qsNr - 1) := by omega
  conv_lhs => rw [hsplit]
  rw [range_add, map_append, map_map, ← map_range_one]
  congr 1
  refine map_congr_left fun i _ => ?_
  rw [Function.comp_apply, sharing, if_neg (by omega)]
  congr 1
  omega

/-! ## The last queues for the first stream -/

variable (a) in
/-- The first stream after `n` further rounds, down to queue `k`. -/
def addFrom (k : Nat) : Nat → Stream → Stream
  | 0, s => s
  | n + 1, s => addFrom k n (a.add (k + n) s)

/-- The counter as it is with `n` rounds to go, also when it has passed zero. -/
theorem gather_eq (h : a.streamsNr < a.qsNr) (n fuel : Nat) (s : Stream) (hn : n < fuel)
    (hle : a.streamsNr - 1 + n ≤ a.qsNr) :
    a.gather fuel ((a.streamsNr - 1 + n + (2 ^ 32 - 1)) % 2 ^ 32) s =
      some (a.addFrom (a.streamsNr - 1) n s) := by
  have hpos := a.streamsNr_pos
  have h32 := a.qsNr_lt
  have hlow : a.qsNr - (a.qsNr - a.streamsNr) - 1 = a.streamsNr - 1 := by omega
  induction n generalizing fuel s with
  | zero =>
    obtain ⟨fuel, rfl⟩ : ∃ m, fuel = m + 1 := ⟨fuel - 1, by omega⟩
    rw [gather, addFrom, hlow]
    exact if_neg (by omega)
  | succ n ih =>
    obtain ⟨fuel, rfl⟩ : ∃ m, fuel = m + 1 := ⟨fuel - 1, by omega⟩
    have hx : (a.streamsNr - 1 + (n + 1) + (2 ^ 32 - 1)) % 2 ^ 32 = a.streamsNr - 1 + n := by omega
    rw [hx, gather, addFrom, hlow, if_pos (by omega)]
    exact ih fuel _ (by omega) (by omega)

theorem addFrom_queues (k n : Nat) (s : Stream) (q : Nat) :
    q ∈ (a.addFrom k n s).queues ↔ q ∈ s.queues ∨ k ≤ q ∧ q < k + n := by
  induction n generalizing s with
  | zero =>
    rw [addFrom]
    exact (or_iff_left (by omega)).symm
  | succ n ih =>
    rw [addFrom, ih, add, mem_append, mem_singleton, or_assoc]
    exact or_congr_right (by omega)

theorem addFrom_isUnion {n : Nat} {s : Stream} (hs : a.IsUnion s) :
    a.IsUnion (a.addFrom k n s) := by
  induction n generalizing s with
  | zero => exact hs
  | succ n ih =>
    refine ih fun b => ?_
    have hb := hs b
    simp only [add, PropSet.union, Nat.testBit_or, Bool.or_eq_true, hb, mem_append,
      mem_singleton]
    constructor
    · rintro (⟨q, hq, h⟩ | h)
      · exact ⟨q, .inl hq, h⟩
      · exact ⟨k + n, .inr rfl, h⟩
    · rintro ⟨q, hq | rfl, h⟩
      · exact .inl ⟨q, hq, h⟩
      · exact .inr h

theorem addFrom_size {n : Nat} {s : Stream} (hs : s.size < 2 ^ 64) :
    (a.addFrom k n s).size = (s.size + a.sizes k n) % 2 ^ 64 := by
  induction n generalizing s with
  | zero => exact (Nat.mod_eq_of_lt hs).symm
  | succ n ih =>
    rw [addFrom, ih (Nat.mod_lt _ (Nat.two_pow_pos 64)), add, sizes_succ, Nat.mod_add_mod]
    congr 1
    omega

variable (a) in
/-- The first stream where it gets several queues. -/
def gathered : Stream :=
  a.addFrom (a.streamsNr - 1) (a.qsNr - (a.streamsNr - 1)) ⟨.empty, 0, []⟩

theorem gathered_size :
    a.gathered.size = a.sizes (a.streamsNr - 1) (a.qsNr - (a.streamsNr - 1)) % 2 ^ 64 := by
  rw [gathered, addFrom_size (Nat.two_pow_pos 64), Nat.zero_add]

theorem mem_gathered (h : a.streamsNr < a.qsNr) (q : Nat) :
    q ∈ a.gathered.queues ↔ a.streamsNr - 1 ≤ q ∧ q < a.qsNr := by
  rw [gathered, addFrom_queues]
  have hsum : a.streamsNr - 1 + (a.qsNr - (a.streamsNr - 1)) = a.qsNr := by omega
  rw [hsum]
  exact or_iff_right not_mem_nil

theorem gathered_isUnion : a.IsUnion a.gathered :=
  addFrom_isUnion fun b => by simp [PropSet.empty]

theorem conserves_gathered (h : a.streamsNr < a.qsNr)
    (hsize : a.sizes (a.streamsNr - 1) (a.qsNr - (a.streamsNr - 1)) < 2 ^ 64) :
    a.Conserves (a.streamsNr - 1) [a.gathered] := by
  have hmem := mem_gathered h
  refine ⟨fun q hle hlt => ⟨_, mem_singleton_self _, (hmem q).mpr ⟨hle, hlt⟩⟩, fun s hs => ?_,
    fun s hs q hq => ?_, pairwise_singleton _ _, ?_, fun s hs => ?_⟩
  · rw [mem_singleton.mp hs]
    exact ne_nil_of_mem ((hmem (a.streamsNr - 1)).mpr ⟨Nat.le_refl _, by omega⟩)
  · rw [mem_singleton.mp hs] at hq
    exact (hmem q).mp hq
  · rw [map_singleton, sum_singleton, gathered_size, Nat.mod_eq_of_lt hsize]
  · rw [mem_singleton.mp hs]
    exact gathered_isUnion

theorem mapToStreams_fewer (h : a.streamsNr < a.qsNr) :
    a.mapToStreams = some (a.gathered :: a.descending (a.streamsNr - 1)) := by
  have hpos := a.streamsNr_pos
  have h32 := a.qsNr_lt
  have hrun := gather_eq h (a.qsNr - (a.streamsNr - 1)) (a.qsNr + 1) ⟨.empty, 0, []⟩ (by omega)
    (by omega)
  have hx : (a.streamsNr - 1 + (a.qsNr - (a.streamsNr - 1)) + (2 ^ 32 - 1)) % 2 ^ 32 =
    a.qsNr - 1 := by
    omega
  rw [hx] at hrun
  have hrange : List.range a.streamsNr = 0 :: (List.range (a.streamsNr - 1)).map Nat.succ := by
    rw [← range_succ_eq_map, Nat.sub_add_cancel hpos]
  have hrest : (List.range (a.streamsNr - 1)).map
      (fun i => a.one (a.qsNr - (i + 1) - (a.qsNr - a.streamsNr) - 1)) =
        a.descending (a.streamsNr - 1) := by
    rw [← map_range_one]
    refine map_congr_left fun i _ => congrArg a.one ?_
    omega
  have hstreams : (List.range a.streamsNr).map (fun sid => if sid = 0 then a.gathered else
      a.one (a.qsNr - sid - (a.qsNr - a.streamsNr) - 1)) =
        a.gathered :: a.descending (a.streamsNr - 1) := by
    rw [hrange, map_cons, map_map, if_pos rfl, ← hrest]
    rfl
  rw [mapToStreams, if_neg (by omega), if_neg (by omega), hrun, Option.map_some]
  exact congrArg some hstreams

/-! ## All queues -/

/-- The queues are mapped to the streams as they should be exactly when the sizes that the first
stream adds up fit in 64 bits. -/
theorem mapToStreams_conserves_iff (a : StreamArgs) :
    (∃ streams, a.mapToStreams = some streams ∧ streams.length = a.streamsNr ∧
      a.Conserves 0 streams) ↔
      (a.streamsNr < a.qsNr → a.sizes (a.streamsNr - 1) (a.qsNr - (a.streamsNr - 1)) < 2 ^ 64) := by
  have hpos := a.qsNr_pos
  have hspos := a.streamsNr_pos
  rcases Nat.lt_trichotomy a.qsNr a.streamsNr with hlt | heq | hgt
  · refine iff_of_true ⟨(List.range a.streamsNr).map a.sharing, ?_, ?_, ?_⟩
      fun h => absurd h (by omega)
    · rw [mapToStreams, if_neg (by omega), if_pos hlt]
    · rw [length_map, length_range]
    · rw [map_sharing hlt]
      refine (conserves_last ?_ (fun s hs => ?_) sharing_sum).append_descending (by omega)
      · exact ne_nil_of_mem (mem_map_of_mem (mem_range.mpr (Nat.succ_pos _)))
      · obtain ⟨sid, hsid, rfl⟩ := mem_map.mp hs
        exact sharing_first (Nat.lt_succ_iff.mp (mem_range.mp hsid))
  · refine iff_of_true ⟨a.descending a.qsNr, ?_, ?_, ?_⟩ fun h => absurd h (by omega)
    · rw [mapToStreams, if_pos heq, ← heq, map_range_one]
    · rw [descending_length, heq]
    · exact Conserves.nil.append_descending (Nat.le_refl _)
  · rw [mapToStreams_fewer hgt]
    constructor
    · rintro ⟨streams, hrun, -, h⟩ -
      cases hrun
      have hsize := h.size
      have htotal : a.qsNr - 0 = (a.streamsNr - 1) + (a.qsNr - (a.streamsNr - 1)) := by omega
      rw [htotal, sizes_add, map_cons, sum_cons, descending_size, gathered_size,
        Nat.zero_add] at hsize
      have hmod := Nat.mod_lt (a.sizes (a.streamsNr - 1) (a.qsNr - (a.streamsNr - 1)))
        (Nat.two_pow_pos 64)
      omega
    · intro h
      refine ⟨_, rfl, ?_, ?_⟩
      · rw [length_cons, descending_length]
        omega
      · exact (conserves_gathered hgt (h hgt)).append_descending (by omega)

/-- Two queues of half the range of the counter, and one stream. -/
def halves : StreamArgs :=
  ⟨fun q => ⟨2 ^ q⟩, fun _ => 2 ^ 63, 2, 1, Nat.succ_pos 1, Nat.lt_of_sub_eq_succ rfl,
    Nat.succ_pos 0,
    Nat.lt_of_sub_eq_succ rfl⟩

theorem halves_lost : halves.mapToStreams = some [⟨⟨3⟩, 0, [1, 0]⟩] ∧
    ¬ ∃ streams, halves.mapToStreams = some streams ∧ halves.Conserves 0 streams := by
  have hrun : halves.mapToStreams = some [⟨⟨3⟩, 0, [1, 0]⟩] := by decide
  refine ⟨hrun, ?_⟩
  rintro ⟨streams, hrun', h⟩
  rw [hrun] at hrun'
  cases hrun'
  exact absurd h.size (by decide)

end StreamArgs

end UDepot.Scm
