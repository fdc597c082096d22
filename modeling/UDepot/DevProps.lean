import Mathlib.Data.List.Basic
import Mathlib.Tactic.Ring

/-! The property ranges of a device (`scm-dev-properties`): a device is a list of consecutive
byte ranges, each of one class of storage. Lists are copied up to a limit, cut at a limit and
appended with compatible neighbours merged. Byte counts are 64 bits wide. -/

namespace UDepot.Scm

inductive ScmProperty where
  | nvram
  | flash
  | smrConv
  | smrSeq1
  | smrSeq2
  deriving DecidableEq, Repr

/-- The number of the property in `enum scm_property`: its bit in a property set. -/
def ScmProperty.bit : ScmProperty → Nat
  | .nvram => 0
  | .flash => 1
  | .smrConv => 2
  | .smrSeq1 => 3
  | .smrSeq2 => 4

/-- `struct scm_prop_set`. -/
structure PropSet where
  mask : Nat
  deriving DecidableEq, Repr

namespace PropSet

def all : PropSet := ⟨2 ^ 5 - 1⟩

def empty : PropSet := ⟨0⟩

def contains (s : PropSet) (p : ScmProperty) : Bool := s.mask &&& 1 <<< p.bit != 0

def isSubsetOf (s t : PropSet) : Bool := s.mask &&& t.mask == s.mask

def union (s t : PropSet) : PropSet := ⟨s.mask ||| t.mask⟩

end PropSet

/-- `struct scm_dev_range_prop`. A range's device and its allocation callback are pointers;
`0` is `NULL`. -/
structure RangeProp where
  rLen : Nat
  rProp : ScmProperty
  rDmDev : Nat
  rSegAllocCb : Nat
  zoneLen : Nat
  rRealLen : Nat
  deriving DecidableEq, Repr

def RangeProp.default (bytes : Nat) : RangeProp := ⟨bytes, .flash, 0, 0, 0, 0⟩

def scmDevRangesMax : Nat := 16

/-- The ranges in use of `struct scm_dev_properties`. -/
abbrev DevProperties := List RangeProp

namespace DevProperties

def total (ps : DevProperties) : Nat := (ps.map RangeProp.rLen).sum

@[simp] theorem total_nil : total [] = 0 := rfl

@[simp] theorem total_cons (r : RangeProp) (ps : DevProperties) :
    total (r :: ps) = r.rLen + total ps := by
  simp [total]

@[simp] theorem total_append (ps qs : DevProperties) : total (ps ++ qs) = total ps + total qs := by
  simp [total]

/-- `scm_dev_props_size_grain_set`. -/
def sizeGrainSet (grain : Nat) (set : PropSet) (ps : DevProperties) : Nat :=
  (ps.map fun r => if set.contains r.rProp then r.rLen / grain else 0).sum % 2 ^ 64

/-- `scm_dev_props_size_grain`. -/
def sizeGrain (grain : Nat) (ps : DevProperties) : Nat := sizeGrainSet grain .all ps

/-- `scm_dev_props_size`. -/
def size (ps : DevProperties) : Nat := sizeGrain 1 ps

/-- `scm_dev_props_real_size_grain` at every property. -/
def realSizeGrain (grain : Nat) (ps : DevProperties) : Nat :=
  (ps.map fun r => (if r.rRealLen ≠ 0 then r.rRealLen else r.rLen) / grain).sum % 2 ^ 64

@[simp] theorem contains_all (p : ScmProperty) : PropSet.all.contains p = true := by
  cases p <;> rfl

theorem sizeGrain_eq (grain : Nat) (ps : DevProperties) :
    sizeGrain grain ps = (ps.map fun r => r.rLen / grain).sum % 2 ^ 64 := by
  simp [sizeGrain, sizeGrainSet]

theorem size_eq (ps : DevProperties) : size ps = total ps % 2 ^ 64 := by
  simp [size, sizeGrain_eq, total]

/-- The loop of `scm_dev_props_copy`: the ranges copied while `remLen` bytes may still be. -/
def copy : DevProperties → Nat → DevProperties
  | [], _ => []
  | r :: src, remLen =>
    if 0 < remLen then
      { r with rLen := min r.rLen remLen } :: copy src (remLen - min r.rLen remLen)
    else []

/-- `scm_dev_props_copy_full`. -/
def copyFull (src : DevProperties) : DevProperties := copy src (size src)

/-- `scm_dev_props_truncate_grain`. When the loop ends because nothing remains, the ranges
that follow stay. -/
def truncateGrain (grain : Nat) : DevProperties → Nat → DevProperties
  | [], _ => []
  | r :: ps, remGrains =>
    if 0 < remGrains then
      if grain * remGrains % 2 ^ 64 < r.rLen then [{ r with rLen := grain * remGrains % 2 ^ 64 }]
      else r :: truncateGrain grain ps (remGrains - r.rLen / grain)
    else r :: ps

/-- `scm_dev_props_truncate`. -/
def truncate (ps : DevProperties) (maxLen : Nat) : DevProperties := truncateGrain 1 ps maxLen

/-- `scm_dev_range_props_compatible`; `none` is its `BUG_ON`. -/
def compatible (p1 p2 : RangeProp) : Option Bool :=
  if p1.rProp ≠ p2.rProp then some false
  else if p1.rDmDev ≠ p2.rDmDev then some false
  else
    match p1.rProp with
    | .flash | .smrConv => some true
    | .smrSeq1 | .smrSeq2 => some (p1.zoneLen == p2.zoneLen)
    | .nvram => none

/-- `scm_dev_props_add_range_prop`. -/
def addRangeProp (props : DevProperties) (new : RangeProp) : Option DevProperties :=
  match props.getLast? with
  | none => some [new]
  | some last =>
    match compatible last new with
    | none => none
    | some true =>
      some (props.dropLast ++ [{ last with rLen := (last.rLen + new.rLen) % 2 ^ 64 }])
    | some false => if scmDevRangesMax ≤ props.length then none else some (props ++ [new])

/-- `scm_dev_props_append`. -/
def append (p1 p2 : DevProperties) : Option DevProperties := p2.foldlM addRangeProp p1

/-- `scm_dev_props_find`, from the range that starts at `len` on. -/
def find (offset : Nat) : DevProperties → Nat → Option RangeProp
  | [], _ => none
  | r :: ps, len =>
    if offset < (len + r.rLen) % 2 ^ 64 then some r else find offset ps ((len + r.rLen) % 2 ^ 64)

/-- `ps` is `src` up to some point, the last range possibly shortened. -/
inductive Cut : DevProperties → DevProperties → Prop
  | nil (src : DevProperties) : Cut [] src
  | last (r : RangeProp) (len : Nat) (src : DevProperties) (h : len ≤ r.rLen) :
      Cut [{ r with rLen := len }] (r :: src)
  | cons (r : RangeProp) {ps src : DevProperties} (h : Cut ps src) : Cut (r :: ps) (r :: src)

variable {src : DevProperties} {rem len : Nat}

@[simp] theorem copy_zero (src : DevProperties) : copy src 0 = [] := by
  cases src <;> simp [copy]

theorem copy_cons_of_le (r : RangeProp) (src : DevProperties) (hpos : 0 < rem) (h : r.rLen ≤ rem) :
    copy (r :: src) rem = r :: copy src (rem - r.rLen) := by
  simp [copy, hpos, Nat.min_eq_left h]

theorem copy_cons_of_ge (r : RangeProp) (src : DevProperties) (hpos : 0 < rem) (h : rem ≤ r.rLen) :
    copy (r :: src) rem = [{ r with rLen := rem }] := by
  simp [copy, hpos, Nat.min_eq_right h]

theorem cut_copy (src : DevProperties) (rem : Nat) : Cut (copy src rem) src := by
  induction src generalizing rem with
  | nil => exact .nil []
  | cons r src ih =>
    rcases Nat.eq_zero_or_pos rem with rfl | hpos
    · simpa using Cut.nil (r :: src)
    rcases Nat.lt_or_ge rem r.rLen with hlt | hle
    · rw [copy_cons_of_ge r src hpos (Nat.le_of_lt hlt)]
      exact .last r rem src (Nat.le_of_lt hlt)
    · rw [copy_cons_of_le r src hpos hle]
      exact .cons r (ih _)

theorem total_copy (src : DevProperties) (rem : Nat) :
    total (copy src rem) = min rem (total src) := by
  induction src generalizing rem with
  | nil => simp [copy]
  | cons r src ih =>
    rcases Nat.eq_zero_or_pos rem with rfl | hpos
    · simp
    rcases Nat.lt_or_ge rem r.rLen with hlt | hle
    · rw [copy_cons_of_ge r src hpos (Nat.le_of_lt hlt)]
      simp only [total_cons, total_nil]
      omega
    · rw [copy_cons_of_le r src hpos hle, total_cons, ih, total_cons]
      omega

theorem copy_of_total_lt (src : DevProperties) (h : total src < rem) : copy src rem = src := by
  induction src generalizing rem with
  | nil => rfl
  | cons r src ih =>
    rw [total_cons] at h
    rw [copy_cons_of_le r src (by omega) (by omega), ih (by omega)]

def OnBoundary (src : DevProperties) (len : Nat) : Prop := ∃ k, total (src.take k) = len

theorem onBoundary_zero (src : DevProperties) : OnBoundary src 0 := ⟨0, by simp⟩

theorem onBoundary_cons {r : RangeProp} (hpos : 0 < len) :
    OnBoundary (r :: src) len ↔ r.rLen ≤ len ∧ OnBoundary src (len - r.rLen) := by
  constructor
  · rintro ⟨k, hk⟩
    cases k with
    | zero => simp at hk; omega
    | succ k =>
      rw [List.take_succ_cons, total_cons] at hk
      exact ⟨by omega, k, by omega⟩
  · rintro ⟨hle, k, hk⟩
    exact ⟨k + 1, by rw [List.take_succ_cons, total_cons]; omega⟩

theorem truncate_zero (ps : DevProperties) : truncate ps 0 = ps := by
  cases ps <;> simp [truncate, truncateGrain]

theorem truncateGrain_cons_of_lt (grain : Nat) (r : RangeProp) (ps : DevProperties) (hpos : 0 < rem)
    (h64 : grain * rem < 2 ^ 64) (h : grain * rem < r.rLen) :
    truncateGrain grain (r :: ps) rem = [{ r with rLen := grain * rem }] := by
  rw [truncateGrain, if_pos hpos, Nat.mod_eq_of_lt h64, if_pos h]

theorem truncateGrain_cons_of_le (grain : Nat) (r : RangeProp) (ps : DevProperties) (hpos : 0 < rem)
    (h64 : grain * rem < 2 ^ 64) (h : r.rLen ≤ grain * rem) :
    truncateGrain grain (r :: ps) rem =
      r :: truncateGrain grain ps (rem - r.rLen / grain) := by
  rw [truncateGrain, if_pos hpos, Nat.mod_eq_of_lt h64, if_neg (Nat.not_lt.mpr h)]

theorem truncate_cons_of_lt (r : RangeProp) (ps : DevProperties) (hpos : 0 < rem)
    (h64 : rem < 2 ^ 64) (h : rem < r.rLen) :
    truncate (r :: ps) rem = [{ r with rLen := rem }] := by
  rw [truncate, truncateGrain_cons_of_lt 1 r ps hpos (by omega) (by omega), Nat.one_mul]

theorem truncate_cons_of_le (r : RangeProp) (ps : DevProperties) (hpos : 0 < rem)
    (h64 : rem < 2 ^ 64) (h : r.rLen ≤ rem) :
    truncate (r :: ps) rem = r :: truncate ps (rem - r.rLen) := by
  rw [truncate, truncateGrain_cons_of_le 1 r ps hpos (by omega) (by omega), Nat.div_one]
  rfl

/-- Truncation stops short of a boundary: there it leaves the list as it is. -/
theorem truncate_of_onBoundary (src : DevProperties) (h64 : rem < 2 ^ 64) (h : OnBoundary src rem) :
    truncate src rem = src := by
  induction src generalizing rem with
  | nil => rfl
  | cons r src ih =>
    rcases Nat.eq_zero_or_pos rem with rfl | hpos
    · exact truncate_zero _
    obtain ⟨hle, hb⟩ := (onBoundary_cons hpos).mp h
    rw [truncate_cons_of_le r src hpos h64 hle, ih (by omega) hb]

/-- Inside a range, copying up to the limit and truncating at it do the same. -/
theorem truncate_eq_copy (src : DevProperties) (h64 : rem < 2 ^ 64) (h : ¬ OnBoundary src rem)
    (hlt : rem < total src) : truncate src rem = copy src rem := by
  induction src generalizing rem with
  | nil => simp at hlt
  | cons r src ih =>
    have hpos : 0 < rem := Nat.pos_of_ne_zero fun h0 => h (h0 ▸ onBoundary_zero _)
    rcases Nat.lt_or_ge rem r.rLen with hr | hr
    · rw [truncate_cons_of_lt r src hpos h64 hr, copy_cons_of_ge r src hpos (Nat.le_of_lt hr)]
    · have hb : ¬ OnBoundary src (rem - r.rLen) := fun hb => h ((onBoundary_cons hpos).mpr ⟨hr, hb⟩)
      rw [total_cons] at hlt
      rw [truncate_cons_of_le r src hpos h64 hr, copy_cons_of_le r src hpos hr,
        ih (by omega) hb (by omega)]

theorem truncateGrain_of_total_le {grain : Nat} (ps : DevProperties) (h64 : grain * rem < 2 ^ 64)
    (h : total ps ≤ grain * rem) : truncateGrain grain ps rem = ps := by
  induction ps generalizing rem with
  | nil => rfl
  | cons r ps ih =>
    rcases Nat.eq_zero_or_pos rem with rfl | hpos
    · simp [truncateGrain]
    rw [total_cons] at h
    have hdiv : grain * (r.rLen / grain) ≤ r.rLen := Nat.mul_div_le r.rLen grain
    have hsub : grain * (rem - r.rLen / grain) = grain * rem - grain * (r.rLen / grain) :=
      Nat.mul_sub ..
    rw [truncateGrain_cons_of_le grain r ps hpos h64 (by omega), ih (by omega) (by omega)]

theorem copy_copy (src : DevProperties) (h : len ≤ rem) :
    copy (copy src rem) len = copy src len := by
  induction src generalizing len rem with
  | nil => rfl
  | cons r src ih =>
    rcases Nat.eq_zero_or_pos len with rfl | hpos
    · simp
    rcases Nat.lt_or_ge rem r.rLen with hlt | hle
    · rw [copy_cons_of_ge r src (by omega) (by omega), copy_cons_of_ge r src hpos (by omega),
        copy_cons_of_ge _ [] hpos h]
    · rw [copy_cons_of_le r src (by omega) hle]
      rcases Nat.lt_or_ge len r.rLen with hlen | hlen
      · rw [copy_cons_of_ge r _ hpos (by omega), copy_cons_of_ge r src hpos (by omega)]
      · rw [copy_cons_of_le r _ hpos hlen, copy_cons_of_le r src hpos hlen, ih (by omega)]

theorem onBoundary_copy (src : DevProperties) (h : len < rem) :
    OnBoundary (copy src rem) len ↔ OnBoundary src len := by
  induction src generalizing len rem with
  | nil => rfl
  | cons r src ih =>
    rcases Nat.eq_zero_or_pos len with rfl | hpos
    · exact iff_of_true (onBoundary_zero _) (onBoundary_zero _)
    rcases Nat.lt_or_ge rem r.rLen with hlt | hle
    · rw [copy_cons_of_ge r src (by omega) (by omega), onBoundary_cons hpos, onBoundary_cons hpos]
      exact iff_of_false (fun hb => absurd hb.1 (by simpa using h))
        (fun hb => absurd hb.1 (by omega))
    · rw [copy_cons_of_le r src (by omega) hle, onBoundary_cons hpos, onBoundary_cons hpos]
      exact and_congr_right fun hlen => ih (by omega)

theorem onBoundary_total (src : DevProperties) : OnBoundary src (total src) :=
  ⟨src.length, by simp⟩

/-- A limit of just the source's bytes drops the empty ranges at its end. -/
theorem copy_total_eq_iff (src : DevProperties) :
    copy src (total src) = src ↔ ∀ r ∈ src.getLast?, r.rLen ≠ 0 := by
  induction src with
  | nil => simp [copy]
  | cons r src ih =>
    rw [total_cons]
    cases src with
    | nil =>
      rcases Nat.eq_zero_or_pos r.rLen with h0 | hpos
      · simp [h0]
      · simp [copy, hpos]
        omega
    | cons q src =>
      have hlast : (r :: q :: src).getLast? = (q :: src).getLast? := by simp
      rw [hlast, ← ih]
      rcases Nat.eq_zero_or_pos (r.rLen + total (q :: src)) with h0 | hpos
      · have hq : total (q :: src) = 0 := by omega
        rw [h0, hq]
        simp
      · rw [copy_cons_of_le r _ hpos (by omega), Nat.add_sub_cancel_left]
        simp

theorem size_le_total (src : DevProperties) : size src ≤ total src := by
  rw [size_eq]
  exact Nat.mod_le _ _

theorem total_copyFull (src : DevProperties) : total (copyFull src) = size src := by
  rw [copyFull, total_copy, Nat.min_eq_left (size_le_total src)]

/-- Where a limit falls when both ways of applying it agree: at the size of the source, inside
one of its ranges, or beyond its end if the last range is not empty. -/
def LimitAgrees (src : DevProperties) (maxLen : Nat) : Prop :=
  maxLen = size src ∨ (maxLen < size src ∧ ¬ OnBoundary src maxLen) ∨
    (total src < maxLen ∧ ∀ r ∈ src.getLast?, r.rLen ≠ 0)

/-- The limited copy and the truncated full copy are the same list, a cut of the source with
as many bytes as the limit and the source allow. -/
def CopyIsTruncate (src : DevProperties) (maxLen : Nat) : Prop :=
  copy src maxLen = truncate (copyFull src) maxLen ∧
    (Cut (copy src maxLen) src ∧ total (copy src maxLen) = min maxLen (total src)) ∧
    Cut (truncate (copyFull src) maxLen) src ∧
    total (truncate (copyFull src) maxLen) = min maxLen (total src)

/-- The copy with a limit is right for every limit, so only the equality is in question. -/
theorem copyIsTruncate_iff_eq (src : DevProperties) (maxLen : Nat) :
    CopyIsTruncate src maxLen ↔ copy src maxLen = truncate (copyFull src) maxLen := by
  refine ⟨And.left, fun h => ⟨h, ⟨cut_copy src maxLen, total_copy src maxLen⟩, ?_, ?_⟩⟩
  · exact h ▸ cut_copy src maxLen
  · exact h ▸ total_copy src maxLen

theorem truncate_copyFull_at_size (src : DevProperties) :
    truncate (copyFull src) (size src) = copy src (size src) := by
  have h64 : size src < 2 ^ 64 := by rw [size_eq]; exact Nat.mod_lt _ (by decide)
  exact truncate_of_onBoundary _ h64 (total_copyFull src ▸ onBoundary_total _)

theorem truncate_copyFull_below {maxLen : Nat} (h64 : maxLen < 2 ^ 64) (h : maxLen < size src) :
    copy src maxLen = truncate (copyFull src) maxLen ↔ ¬ OnBoundary src maxLen := by
  have hb : OnBoundary (copyFull src) maxLen ↔ OnBoundary src maxLen := onBoundary_copy src h
  constructor
  · intro heq hon
    rw [truncate_of_onBoundary _ h64 (hb.mpr hon)] at heq
    have htot : min maxLen (total src) = size src := by
      rw [← total_copy, heq, total_copyFull]
    omega
  · intro hon
    rw [truncate_eq_copy _ h64 (fun h' => hon (hb.mp h')) (by rwa [total_copyFull]), copyFull,
      copy_copy src (Nat.le_of_lt h)]

theorem truncate_copyFull_above {maxLen : Nat} (h64 : maxLen < 2 ^ 64) (h : size src < maxLen) :
    copy src maxLen = truncate (copyFull src) maxLen ↔
      total src < maxLen ∧ ∀ r ∈ src.getLast?, r.rLen ≠ 0 := by
  have hkeep : truncate (copyFull src) maxLen = copyFull src :=
    truncateGrain_of_total_le _ (by omega) (by rw [total_copyFull]; omega)
  have hsize : total src < 2 ^ 64 → size src = total src := fun hlt => by
    rw [size_eq, Nat.mod_eq_of_lt hlt]
  rw [hkeep]
  constructor
  · intro heq
    have htot : min maxLen (total src) = size src := by
      rw [← total_copy, heq, total_copyFull]
    have hlt : total src < maxLen := by omega
    refine ⟨hlt, (copy_total_eq_iff src).mp ?_⟩
    rw [copy_of_total_lt src hlt, copyFull, hsize (by omega)] at heq
    exact heq.symm
  · rintro ⟨hlt, hlast⟩
    rw [copy_of_total_lt src hlt, copyFull, hsize (by omega), (copy_total_eq_iff src).mpr hlast]

theorem copyIsTruncate_iff (src : DevProperties) (maxLen : Nat) (h64 : maxLen < 2 ^ 64) :
    CopyIsTruncate src maxLen ↔ LimitAgrees src maxLen := by
  have hle : size src ≤ total src := size_le_total src
  rw [copyIsTruncate_iff_eq, LimitAgrees]
  rcases Nat.lt_trichotomy maxLen (size src) with hlt | rfl | hgt
  · rw [truncate_copyFull_below h64 hlt]
    constructor
    · exact fun h => .inr (.inl ⟨hlt, h⟩)
    · rintro (h | h | h)
      · omega
      · exact h.2
      · omega
  · exact iff_of_true (truncate_copyFull_at_size src).symm (.inl rfl)
  · rw [truncate_copyFull_above h64 hgt]
    constructor
    · exact fun h => .inr (.inr h)
    · rintro (h | h | h)
      · omega
      · omega
      · exact h

/-- A limit at the end of the first of two ranges: the copy stops there, the truncation leaves
both. -/
theorem copyIsTruncate_fails_on_boundary :
    copy [.default 100, .default 200] 100 = [.default 100] ∧
      truncate (copyFull [.default 100, .default 200]) 100 = [.default 100, .default 200] ∧
      ¬ CopyIsTruncate [.default 100, .default 200] 100 := by
  refine ⟨by decide, by decide, fun h => ?_⟩
  exact absurd h.1 (by decide)

theorem copyIsTruncate_within_range :
    (150 : Nat) < 2 ^ 64 ∧ CopyIsTruncate [.default 100, .default 200] 150 := by
  refine ⟨by decide, (copyIsTruncate_iff _ 150 (by decide)).mpr (.inr (.inl ⟨by decide, ?_⟩))⟩
  rw [onBoundary_cons (by decide), onBoundary_cons (by decide)]
  exact fun h => absurd h.2.1 (by decide)

end DevProperties

end UDepot.Scm
