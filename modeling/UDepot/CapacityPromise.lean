import UDepot.ScmInit
import UDepot.AllocatorRun
import UDepot.Lib.NextFit

/-! What the admitted capacity promises. `provision_grains` counts the grains of records and
tables, while the allocator fills one segment after the other: the reserved grains of a
segment and the tail that the next record does not fit into are lost. So it packs records
next-fit into the data grains of the segments. -/

namespace UDepot.Allocator
open NextFit

variable (c : Ctlr)

/-- One stream with one thread: the cursors of the staged segments, the segments that may be
taken, and `used_capacity_`. -/
structure Stream where
  stage : List Nat
  free : Nat
  used : Nat
  deriving DecidableEq, Repr

/-- The loop over the staged segments in `allocator_allocate_grains`: those without room are
recycled, and one that is filled leaves the queue. -/
def walkStage (len : Nat) : List Nat → Option (List Nat)
  | [] => none
  | nr3 :: rest =>
    match segNextRange c.segSize nr3 len with
    | some (_, next) => some (if c.segSize = next then rest else next :: rest)
    | none => walkStage len rest

/-- `SalsaCtlr::allocate_grains`; `none` is a refusal. -/
def Stream.allocateGrains (x : Stream) (len : Nat) : Option Stream :=
  if c.segSize < len + c.reservedPerSeg then none
  else if c.maxCapacity < x.used + len then none
  else
    match walkStage c len x.stage with
    | some stage => some ⟨stage, x.free, x.used + len⟩
    | none =>
      -- a new segment, with its metadata reserved, and another round
      if x.free = 0 then none
      else
        match walkStage c len [c.reservedPerSeg] with
        | some stage => some ⟨stage, x.free - 1, x.used + len⟩
        | none => none

def Stream.allocateAll (x : Stream) : List Nat → Option Stream
  | [] => some x
  | len :: rest => (x.allocateGrains c len).bind fun x' => x'.allocateAll rest

/-- The stream of a controller on `free` segments. -/
def Stream.start (free : Nat) : Stream := ⟨[], free, 0⟩

/-! ## The allocator packs next-fit -/

/-- With `n` of `limit` segments taken and `cur` data grains of the last one. -/
def Stream.at (limit used : Nat) (x : Nat × Nat) : Stream :=
  ⟨if x.2 = c.dataGrains then [] else [c.reservedPerSeg + x.2], limit - x.1, used⟩

variable {len : Nat} {x : Nat × Nat}

theorem walkStage_single {cur : Nat} (hlen : 1 ≤ len) (hcur : cur ≤ c.dataGrains)
    (hfit : len ≤ c.dataGrains) : walkStage c len [c.reservedPerSeg + cur] =
      if cur + len ≤ c.dataGrains then
        some (if cur + len = c.dataGrains then [] else [c.reservedPerSeg + (cur + len)])
      else none := by
  have hlt := c.reserved_lt
  have h31 := c.size_lt
  unfold Ctlr.dataGrains at hcur hfit ⊢
  rw [walkStage, segNextRange_eq (by omega)]
  by_cases h : cur + len ≤ c.segSize - c.reservedPerSeg
  · rw [if_neg (by omega), if_pos h]
    by_cases hfull : cur + len = c.segSize - c.reservedPerSeg
    · rw [if_pos hfull]
      exact congrArg some (if_pos (by omega))
    · rw [if_neg hfull]
      refine congrArg some ((if_neg (by omega)).trans ?_)
      rw [Nat.add_assoc]
  · rw [if_pos (by omega), if_neg h]
    rfl

theorem dataGrains_pos : 1 ≤ c.dataGrains := Nat.sub_pos_of_lt c.reserved_lt

theorem allocateGrains_at {limit used : Nat} (hn : x.1 ≤ limit) (hcur : x.2 ≤ c.dataGrains)
    (hlen : 1 ≤ len ∧ len ≤ c.dataGrains) (hcap : used + len ≤ c.maxCapacity) :
    (Stream.at c limit used x).allocateGrains c len =
      if (place c.dataGrains x len).1 ≤ limit then
        some (Stream.at c limit (used + len) (place c.dataGrains x len))
      else none := by
  have hsize : ¬ c.segSize < len + c.reservedPerSeg := by
    have := hlen.2
    unfold Ctlr.dataGrains at this
    have := c.reserved_lt
    omega
  -- a record that goes into a new segment
  have hnew : walkStage c len [c.reservedPerSeg] =
      some (if len = c.dataGrains then [] else [c.reservedPerSeg + len]) := by
    have h := walkStage_single c hlen.1 (Nat.zero_le _) hlen.2
    rw [Nat.zero_add, if_pos hlen.2] at h
    exact h
  have hopen : walkStage c len (Stream.at c limit used x).stage =
      if x.2 + len ≤ c.dataGrains then
        some (if x.2 + len = c.dataGrains then [] else [c.reservedPerSeg + (x.2 + len)])
      else none := by
    rw [Stream.at]
    dsimp only
    by_cases hfull : x.2 = c.dataGrains
    · rw [if_pos hfull, if_neg (by omega)]
      rfl
    · rw [if_neg hfull]
      exact walkStage_single c hlen.1 hcur hlen.2
  have hadmit : ¬ c.maxCapacity < (Stream.at c limit used x).used + len := Nat.not_lt.mpr hcap
  rw [Stream.allocateGrains, if_neg hsize, if_neg hadmit, hopen, hnew, place]
  by_cases hfit : x.2 + len ≤ c.dataGrains
  · rw [if_pos hfit, if_pos hfit, if_pos hn]
    rfl
  · rw [if_neg hfit, if_neg hfit]
    grind [Stream.at, Nat.sub_sub]

theorem place_le (hlen : len ≤ c.dataGrains) : (place c.dataGrains x len).2 ≤ c.dataGrains := by
  rw [place]
  split
  · assumption
  · exact hlen

/-- All of the records find room exactly when their packing takes no more segments. -/
theorem allocateAll_at {limit used : Nat} {recs : List Nat} (hn : x.1 ≤ limit)
    (hcur : x.2 ≤ c.dataGrains) (hrecs : ∀ len ∈ recs, 1 ≤ len ∧ len ≤ c.dataGrains)
    (hcap : used + recs.sum ≤ c.maxCapacity) :
    ((Stream.at c limit used x).allocateAll c recs).isSome ↔
      (pack c.dataGrains x recs).1 ≤ limit := by
  induction recs generalizing x used with
  | nil => exact iff_of_true rfl hn
  | cons len recs ih =>
    have hlen := hrecs len List.mem_cons_self
    rw [List.sum_cons] at hcap
    rw [Stream.allocateAll, allocateGrains_at c hn hcur hlen (by omega)]
    by_cases hfit : (place c.dataGrains x len).1 ≤ limit
    · rw [if_pos hfit]
      exact ih hfit (place_le c hlen.2) (fun l hl => hrecs l (List.mem_cons_of_mem _ hl)) (by omega)
    · rw [if_neg hfit]
      have hle := le_pack c.dataGrains (place c.dataGrains x len) recs
      exact iff_of_false nofun fun h => hfit (hle.trans h)

theorem start_eq (limit : Nat) : Stream.start limit = Stream.at c limit 0 (0, c.dataGrains) := by
  rw [Stream.start, Stream.at, if_pos rfl]
  rfl

/-- No record within the capacity is refused, whatever the records are, exactly when the least
sum of records for one segment more is beyond the capacity. -/
theorem never_refused_iff (limit : Nat) :
    (∀ recs : List Nat, (∀ len ∈ recs, 1 ≤ len ∧ len + c.reservedPerSeg ≤ c.segSize) →
      recs.sum ≤ c.maxCapacity → ((Stream.start limit).allocateAll c recs).isSome) ↔
      c.maxCapacity < leastSum c.dataGrains (limit + 1) := by
  rw [← bins_le_iff (dataGrains_pos c)]
  apply forall_congr'
  intro recs
  have hsizes : (∀ len ∈ recs, 1 ≤ len ∧ len + c.reservedPerSeg ≤ c.segSize) ↔
      ∀ len ∈ recs, 1 ≤ len ∧ len ≤ c.dataGrains := by
    apply forall₂_congr
    intro len _
    unfold Ctlr.dataGrains
    have := c.reserved_lt
    omega
  rw [hsizes]
  refine imp_congr_right fun hrecs => imp_congr_right fun hsum => ?_
  rw [start_eq c]
  exact allocateAll_at c (Nat.zero_le _) (Nat.le_refl _) hrecs (by omega)

end UDepot.Allocator

namespace UDepot.Scm.Params
open Allocator NextFit

variable (p : Params)

theorem segmentSize_lt (h : p.init = true) : p.segmentSize < 2 ^ 31 := by
  simp only [init, checkParameters, Bool.and_eq_true, decide_eq_true_eq] at h
  have := h.2.1.2
  omega

/-- A controller that reserves `reserved` grains of each segment for metadata. -/
def ctlr (h : p.init = true) (reserved : Nat) (hres : reserved < p.segmentSize) : Ctlr :=
  ⟨p.segmentSize, reserved, p.maxCapacity, hres, p.segmentSize_lt h⟩

/-- A device of 100 segments of eight grains of 4 KiB. -/
def hundredSegs (overprovision : Nat) : Params := .parse 3276800 4096 8 overprovision

theorem hundredSegs_init : (hundredSegs 100).init = true := by decide

theorem hundredSegs_spare_init : (hundredSegs 600).init = true := by decide

end UDepot.Scm.Params
