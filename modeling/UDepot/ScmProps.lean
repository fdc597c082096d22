import UDepot.DevProps
import Mathlib.Algebra.BigOperators.Ring.List
import Mathlib.Algebra.Order.BigOperators.Group.List
import Mathlib.Algebra.Group.Action.Defs

/-! The size of the device that the capacity manager makes of the underlying devices
(`scm_cfg_set_scm_props`): one device, several one after the other, or a RAID of several. Sizes
are counted in sectors and in segments, each with its own rounding. -/

namespace UDepot.Scm
open DevProperties List

def sectorSize : Nat := 512

/-- `SEC2B`. -/
def sec2b (sectors : Nat) : Nat := sectors * sectorSize % 2 ^ 64

inductive Raid where
  | linear
  | raid0
  | raid5
  deriving DecidableEq, Repr

inductive SetErr where
  | einval
  | bug
  deriving DecidableEq, Repr

/-- The part of `struct scm_parameters` that is read. There is a first device, `dev0`, and
`dev_nr` counts it with the others. -/
structure Cfg where
  segmentSize : Nat
  grainSize : Nat
  raid : Raid
  dev0 : DevProperties
  devs : List DevProperties
  deriving DecidableEq, Repr

/-- What is set: `cfg_scm_props` and `dev_size_raw`. -/
structure ScmDev where
  scmProps : DevProperties
  devSizeRaw : Nat
  deriving DecidableEq, Repr

namespace Cfg

variable (cfg : Cfg)

def devNr : Nat := cfg.devs.length + 1

/-- `cfg_dev_props`. -/
def devProps : List DevProperties := cfg.dev0 :: cfg.devs

/-- `segment_size` in bytes. -/
def segBytes : Nat := cfg.segmentSize * cfg.grainSize % 2 ^ 64

def segSectors : Nat := cfg.segBytes / sectorSize

/-- The number of devices with data. -/
def raidN : Nat :=
  match cfg.raid with
  | .raid5 => cfg.devNr - 1
  | _ => cfg.devNr

def wholeSectors (sectors : Nat) : Nat := sectors / cfg.segSectors * cfg.segSectors

/-- The sectors of the first device up to the target, `0` being no target. -/
def rawSectors (targetLen : Nat) : Nat :=
  if targetLen ≠ 0 then min (sizeGrain sectorSize cfg.dev0) targetLen
  else sizeGrain sectorSize cfg.dev0

def setSingle (targetLen : Nat) : ScmDev :=
  ⟨copy cfg.dev0 (sec2b (cfg.wholeSectors (cfg.rawSectors targetLen))),
    sec2b (cfg.rawSectors targetLen)⟩

/-- The ranges of all devices, one device after the other; `none` if a `BUG_ON` fires. -/
def linearProps : Option DevProperties := cfg.devProps.foldlM append []

def cutAt (targetLen : Nat) (ps : DevProperties) : DevProperties :=
  if targetLen ≠ 0 then truncateGrain sectorSize ps targetLen else ps

/-- What the loop over the other devices finds smaller goes to `min_capacity`, which is set
again after the loop: the capacity is that of the first device. -/
def setRaid : ScmDev :=
  let minRawCapacity := sizeGrain sectorSize cfg.dev0
  let minCapacity := cfg.wholeSectors minRawCapacity
  ⟨[.default (sec2b (cfg.raidN * minCapacity))], sec2b (cfg.raidN * minRawCapacity)⟩

/-- `scm_cfg_set_scm_props`, with `targetLen` in sectors. -/
def setScmProps (targetLen : Nat) : Except SetErr ScmDev :=
  if cfg.segSectors = 0 then .error .einval
  else if cfg.devNr = 1 then .ok (cfg.setSingle targetLen)
  else
    match cfg.raid with
    | .linear =>
      match cfg.linearProps with
      | none => .error .bug
      | some ps => .ok ⟨cutAt targetLen ps, sec2b (sizeGrain sectorSize ps)⟩
    | .raid0 | .raid5 =>
      if cfg.segmentSize % cfg.raidN ≠ 0 then .error .einval else .ok cfg.setRaid

def wholeBytes (dev : DevProperties) : Nat := total dev / cfg.segBytes * cfg.segBytes

/-- What the devices hold: the whole segments of each, or in a RAID the smallest device for
each of those with data. -/
def holds : Nat :=
  if cfg.devNr = 1 ∨ cfg.raid = .linear then (cfg.devProps.map cfg.wholeBytes).sum
  else cfg.raidN * (cfg.devs.map total).foldl min (total cfg.dev0)

structure Real (targetLen : Nat) (scm : ScmDev) : Prop where
  whole : cfg.segBytes ∣ size scm.scmProps
  target : targetLen ≠ 0 → size scm.scmProps ≤ sectorSize * targetLen
  held : size scm.scmProps ≤ cfg.holds

structure Counted (targetLen : Nat) : Prop where
  bytes : ∀ dev ∈ cfg.devProps, cfg.devNr * total dev < 2 ^ 64
  target : sectorSize * targetLen < 2 ^ 64

end Cfg

namespace DevProperties

variable {ps : DevProperties} {grain rem : Nat}

theorem total_addRangeProp {qs : DevProperties} {r : RangeProp} (h64 : total ps + r.rLen < 2 ^ 64)
    (h : addRangeProp ps r = some qs) : total qs = total ps + r.rLen := by
  unfold addRangeProp at h
  rcases eq_nil_or_concat ps with rfl | ⟨front, last, rfl⟩
  · simp only [List.getLast?_nil, Option.some.injEq] at h
    subst h
    simp
  · simp only [concat_eq_append, List.getLast?_concat, dropLast_concat, total_append,
      total_cons, total_nil] at h h64 ⊢
    split at h
    · cases h
    · cases h
      simp only [total_append, total_cons, total_nil]
      rw [Nat.mod_eq_of_lt (by omega)]
      omega
    · split at h
      · cases h
      · cases h
        simp only [total_append, total_cons, total_nil, Nat.add_zero]

theorem total_append_props {qs rs : DevProperties} (h64 : total ps + total qs < 2 ^ 64)
    (h : append ps qs = some rs) : total rs = total ps + total qs := by
  induction qs generalizing ps with
  | nil => simp_all [append]
  | cons r qs ih =>
    rw [total_cons] at h64
    simp only [append, foldlM_cons, Option.bind_eq_bind, Option.bind_eq_some_iff] at h
    obtain ⟨ps', hadd, hrest⟩ := h
    have hps : total ps' = total ps + r.rLen := total_addRangeProp (by omega) hadd
    rw [ih (by omega) hrest, hps, total_cons, Nat.add_assoc]

theorem total_foldlM_append {devs : List DevProperties} {rs : DevProperties}
    (h64 : total ps + (devs.map total).sum < 2 ^ 64) (h : devs.foldlM append ps = some rs) :
    total rs = total ps + (devs.map total).sum := by
  induction devs generalizing ps with
  | nil => simp_all
  | cons dev devs ih =>
    rw [map_cons, sum_cons] at h64
    simp only [foldlM_cons, Option.bind_eq_bind, Option.bind_eq_some_iff] at h
    obtain ⟨ps', hadd, hrest⟩ := h
    have hps : total ps' = total ps + total dev := total_append_props (by omega) hadd
    rw [ih (by omega) hrest, hps, map_cons, sum_cons, Nat.add_assoc]

def grains (grain : Nat) (ps : DevProperties) : Nat := (ps.map fun r => r.rLen / grain).sum

@[simp] theorem grains_nil (grain : Nat) : grains grain [] = 0 := rfl

@[simp] theorem grains_cons (grain : Nat) (r : RangeProp) (ps : DevProperties) :
    grains grain (r :: ps) = r.rLen / grain + grains grain ps := by
  simp [grains]

theorem grains_mul_le (grain : Nat) (ps : DevProperties) : grain * grains grain ps ≤ total ps := by
  induction ps with
  | nil => simp
  | cons r ps ih =>
    have hr : grain * (r.rLen / grain) ≤ r.rLen := Nat.mul_div_le r.rLen grain
    rw [grains_cons, total_cons, Nat.mul_add]
    omega

/-- A list without rounding losses has only whole grains in it. -/
theorem dvd_of_total_le (h : total ps ≤ grain * grains grain ps) : ∀ r ∈ ps, grain ∣ r.rLen := by
  induction ps with
  | nil => simp
  | cons r ps ih =>
    have hr : grain * (r.rLen / grain) ≤ r.rLen := Nat.mul_div_le r.rLen grain
    have hps : grain * grains grain ps ≤ total ps := grains_mul_le grain ps
    rw [grains_cons, total_cons, Nat.mul_add] at h
    rintro q (_ | ⟨_, hq⟩)
    · exact Dvd.intro (r.rLen / grain) (by omega)
    · exact ih (by omega) q hq

theorem grains_mul_of_dvd (h : ∀ r ∈ ps, grain ∣ r.rLen) : grain * grains grain ps = total ps := by
  induction ps with
  | nil => simp
  | cons r ps ih =>
    rw [forall_mem_cons] at h
    rw [grains_cons, total_cons, Nat.mul_add, Nat.mul_div_cancel' h.1, ih h.2]

theorem truncateGrain_cases (ps : DevProperties) (h64 : grain * rem < 2 ^ 64) :
    truncateGrain grain ps rem = ps ∨
      ∃ front r back, ps = front ++ r :: back ∧ grains grain front < rem ∧
        grain * (rem - grains grain front) < r.rLen ∧
        truncateGrain grain ps rem =
          front ++ [{ r with rLen := grain * (rem - grains grain front) }] := by
  induction ps generalizing rem with
  | nil => exact .inl rfl
  | cons r ps ih =>
    rcases Nat.eq_zero_or_pos rem with rfl | hpos
    · exact .inl (by simp [truncateGrain])
    rcases Nat.lt_or_ge (grain * rem) r.rLen with hlt | hle
    · exact .inr ⟨[], r, ps, rfl, hpos, hlt, truncateGrain_cons_of_lt grain r ps hpos h64 hlt⟩
    · rw [truncateGrain_cons_of_le grain r ps hpos h64 hle]
      have hle' : grain * (rem - r.rLen / grain) ≤ grain * rem :=
        Nat.mul_le_mul_left grain (Nat.sub_le _ _)
      have h64' : grain * (rem - r.rLen / grain) < 2 ^ 64 := by omega
      rcases ih h64' with hkeep | ⟨front, q, back, hps, hlt, hq, hcut⟩
      · exact .inl (by rw [hkeep])
      · refine .inr ⟨r :: front, q, back, by rw [hps, cons_append], ?_, ?_, ?_⟩
        · rw [grains_cons]
          omega
        · rwa [grains_cons, ← Nat.sub_sub]
        · rw [hcut, grains_cons, ← Nat.sub_sub, cons_append]

/-- The bytes end inside a range of the list, behind ranges of whole grains only. -/
def EndsInside (grain bytes : Nat) (ps : DevProperties) : Prop :=
  ∃ front r back, ps = front ++ r :: back ∧ (∀ q ∈ front, grain ∣ q.rLen) ∧
    total front < bytes ∧ bytes < total front + r.rLen

theorem total_truncateGrain_of_endsInside (h64 : grain * rem < 2 ^ 64)
    (h : EndsInside grain (grain * rem) ps) : total (truncateGrain grain ps rem) = grain * rem := by
  obtain ⟨front, r, back, rfl, hdvd, hlt, hgt⟩ := h
  induction front generalizing rem with
  | nil =>
    simp only [total_nil, Nat.zero_add] at hlt hgt
    rw [nil_append, truncateGrain_cons_of_lt grain r back (Nat.pos_of_mul_pos_left hlt) h64 hgt]
    simp
  | cons q front ih =>
    rw [forall_mem_cons] at hdvd
    rw [total_cons] at hlt hgt
    have hq : grain * (q.rLen / grain) = q.rLen := Nat.mul_div_cancel' hdvd.1
    have hsub : grain * (rem - q.rLen / grain) = grain * rem - q.rLen := by
      rw [Nat.mul_sub, hq]
    have hpos : 0 < rem := Nat.pos_of_mul_pos_left (Nat.zero_lt_of_lt hlt)
    rw [cons_append, truncateGrain_cons_of_le grain q _ hpos h64 (by omega), total_cons,
      ih (by omega) hdvd.2 (by omega) (by omega)]
    omega

/-- The truncated list keeps to the limit in two ways only. -/
theorem total_truncateGrain_le_iff (hgrain : 0 < grain) (h64 : grain * rem < 2 ^ 64) :
    total (truncateGrain grain ps rem) ≤ grain * rem ↔
      total ps ≤ grain * rem ∨ EndsInside grain (grain * rem) ps := by
  constructor
  · intro h
    rcases truncateGrain_cases ps h64 with hkeep | ⟨front, r, back, hps, hlt, hr, hcut⟩
    · exact .inl (hkeep ▸ h)
    · simp only [hcut, total_append, total_cons, total_nil, Nat.add_zero, Nat.mul_sub] at h
      rw [Nat.mul_sub] at hr
      have hfront : grain * grains grain front ≤ total front := grains_mul_le grain front
      have hlt' : grain * grains grain front < grain * rem :=
        Nat.mul_lt_mul_of_pos_left hlt hgrain
      have hdvd : ∀ q ∈ front, grain ∣ q.rLen := dvd_of_total_le (by omega)
      have hmul : grain * grains grain front = total front := grains_mul_of_dvd hdvd
      exact .inr ⟨front, r, back, hps, hdvd, by omega, by omega⟩
  · rintro (h | h)
    · rw [truncateGrain_of_total_le ps h64 h]
      exact h
    · exact Nat.le_of_eq (total_truncateGrain_of_endsInside h64 h)

end DevProperties

namespace Cfg

variable (cfg : Cfg)

/-- One device: its segments are whole sectors, or its sectors happen to give whole segments. -/
def SingleReal (targetLen : Nat) : Prop :=
  sectorSize ∣ cfg.segBytes ∨
    cfg.segBytes ∣ sectorSize * cfg.wholeSectors (cfg.rawSectors targetLen)

/-- Devices one after the other: each is a whole number of segments and all of them are within
the target, or the target is itself such a number, held by the devices, and ends inside a
range. -/
def LinearReal (targetLen : Nat) : Prop :=
  ∀ ps, cfg.linearProps = some ps →
    ((targetLen = 0 ∨ (cfg.devProps.map total).sum ≤ sectorSize * targetLen) ∧
        ∀ dev ∈ cfg.devProps, cfg.segBytes ∣ total dev) ∨
      (targetLen ≠ 0 ∧ EndsInside sectorSize (sectorSize * targetLen) ps ∧
        cfg.segBytes ∣ sectorSize * targetLen ∧ sectorSize * targetLen ≤ cfg.holds)

/-- A RAID: no device is smaller than the whole segments of the first, and all of them together
are within the target. -/
def RaidReal (targetLen : Nat) : Prop :=
  let first := cfg.wholeSectors (sizeGrain sectorSize cfg.dev0)
  (sectorSize ∣ cfg.segBytes ∨ cfg.segBytes ∣ sectorSize * (cfg.raidN * first)) ∧
    (targetLen ≠ 0 → cfg.raidN * first ≤ targetLen) ∧
    ∀ dev ∈ cfg.devs, sectorSize * first ≤ total dev

/-- The configurations that give a real size, if they give one at all. -/
def CapacityReal (targetLen : Nat) : Prop :=
  cfg.segSectors ≠ 0 →
    if cfg.devNr = 1 then cfg.SingleReal targetLen
    else
      match cfg.raid with
      | .linear => cfg.LinearReal targetLen
      | .raid0 | .raid5 => cfg.segmentSize % cfg.raidN = 0 → cfg.RaidReal targetLen

variable {cfg} {targetLen : Nat}

theorem wholeSectors_le (n : Nat) : cfg.wholeSectors n ≤ n := Nat.div_mul_le_self _ _

theorem sectors_le_total (ps : DevProperties) :
    sectorSize * sizeGrain sectorSize ps ≤ total ps := by
  rw [sizeGrain_eq]
  exact Nat.le_trans (Nat.mul_le_mul_left _ (Nat.mod_le _ _)) (grains_mul_le sectorSize ps)

theorem first_le_total (cfg : Cfg) : sectorSize * cfg.wholeSectors (sizeGrain sectorSize cfg.dev0) ≤
    total cfg.dev0 :=
  Nat.le_trans (Nat.mul_le_mul_left _ (wholeSectors_le _)) (sectors_le_total cfg.dev0)

theorem dvd_of_sector_dvd (h : sectorSize ∣ cfg.segBytes) (k n : Nat) :
    cfg.segBytes ∣ sectorSize * (k * cfg.wholeSectors n) := by
  have hseg : cfg.segSectors * sectorSize = cfg.segBytes := Nat.div_mul_cancel h
  refine ⟨k * (n / cfg.segSectors), ?_⟩
  rw [← hseg, wholeSectors]
  ring

theorem sec2b_of_lt {n : Nat} (h : sectorSize * n < 2 ^ 64) : sec2b n = sectorSize * n := by
  rw [sec2b, Nat.mul_comm, Nat.mod_eq_of_lt h]

theorem le_foldl_min (x a : Nat) (l : List Nat) : x ≤ l.foldl min a ↔ x ≤ a ∧ ∀ b ∈ l, x ≤ b := by
  induction l generalizing a with
  | nil => simp
  | cons b l ih =>
    rw [foldl_cons, ih, Nat.le_min, forall_mem_cons, and_assoc]

theorem wholeBytes_le (dev : DevProperties) : cfg.wholeBytes dev ≤ total dev :=
  Nat.div_mul_le_self _ _

theorem le_wholeBytes {dev : DevProperties} {n : Nat} (hdvd : cfg.segBytes ∣ n)
    (hle : n ≤ total dev) : n ≤ cfg.wholeBytes dev := by
  calc n = n / cfg.segBytes * cfg.segBytes := (Nat.div_mul_cancel hdvd).symm
    _ ≤ total dev / cfg.segBytes * cfg.segBytes :=
      Nat.mul_le_mul_right _ (Nat.div_le_div_right hle)

theorem sum_le_wholeBytes_iff (devs : List DevProperties) :
    (devs.map total).sum ≤ (devs.map cfg.wholeBytes).sum ↔
      ∀ dev ∈ devs, cfg.segBytes ∣ total dev := by
  induction devs with
  | nil => simp
  | cons dev devs ih =>
    have hdev : cfg.wholeBytes dev ≤ total dev := wholeBytes_le dev
    have hdevs : (devs.map cfg.wholeBytes).sum ≤ (devs.map total).sum :=
      sum_le_sum fun d _ => wholeBytes_le d
    rw [forall_mem_cons, ← ih, map_cons, map_cons, sum_cons, sum_cons]
    constructor
    · intro h
      exact ⟨Dvd.intro_left (total dev / cfg.segBytes) (show cfg.wholeBytes dev = _ by omega),
        by omega⟩
    · rintro ⟨hdvd, hrest⟩
      have hwhole : cfg.wholeBytes dev = total dev := Nat.div_mul_cancel hdvd
      omega

theorem Counted.total_lt (hc : cfg.Counted targetLen) {dev : DevProperties}
    (h : dev ∈ cfg.devProps) : total dev < 2 ^ 64 :=
  Nat.lt_of_le_of_lt (Nat.le_mul_of_pos_left _ (Nat.succ_pos _)) (hc.bytes dev h)

theorem Counted.sum_lt (hc : cfg.Counted targetLen) : (cfg.devProps.map total).sum < 2 ^ 64 := by
  -- every device has at most an equal share of the bytes that can be counted
  have hshare : ∀ n ∈ cfg.devProps.map total, n ≤ (2 ^ 64 - 1) / cfg.devNr := by
    intro n hn
    obtain ⟨dev, hdev, rfl⟩ := mem_map.mp hn
    rw [Nat.le_div_iff_mul_le (show 0 < cfg.devNr from Nat.succ_pos _), Nat.mul_comm]
    exact Nat.le_pred_of_lt (hc.bytes dev hdev)
  have hsum := sum_le_card_nsmul _ _ hshare
  have hlen : (cfg.devProps.map total).length = cfg.devNr := by simp [devProps, devNr]
  rw [hlen, smul_eq_mul] at hsum
  have := Nat.mul_div_le (2 ^ 64 - 1) cfg.devNr
  omega

theorem single_real_iff (hc : cfg.Counted targetLen) (hone : cfg.devNr = 1) :
    cfg.Real targetLen (cfg.setSingle targetLen) ↔ cfg.SingleReal targetLen := by
  have hraw : cfg.rawSectors targetLen ≤ sizeGrain sectorSize cfg.dev0 := by
    unfold rawSectors
    split
    · exact Nat.min_le_left _ _
    · exact Nat.le_refl _
  have hX : sectorSize * cfg.wholeSectors (cfg.rawSectors targetLen) ≤ total cfg.dev0 :=
    Nat.le_trans (Nat.mul_le_mul_left _ (Nat.le_trans (wholeSectors_le _) hraw))
      (sectors_le_total cfg.dev0)
  have h64 : total cfg.dev0 < 2 ^ 64 := hc.total_lt mem_cons_self
  have hsize : size (cfg.setSingle targetLen).scmProps =
      sectorSize * cfg.wholeSectors (cfg.rawSectors targetLen) := by
    rw [setSingle, size_eq, total_copy, sec2b_of_lt (by omega), Nat.min_eq_left hX,
      Nat.mod_eq_of_lt (by omega)]
  have hholds : cfg.holds = cfg.wholeBytes cfg.dev0 := by
    have hdevs : cfg.devs = [] := eq_nil_of_length_eq_zero (by simpa [devNr] using hone)
    simp [holds, hone, devProps, hdevs]
  constructor
  · exact fun h => .inr (hsize ▸ h.whole)
  · intro h
    have hdvd : cfg.segBytes ∣ sectorSize * cfg.wholeSectors (cfg.rawSectors targetLen) := by
      rcases h with h | h
      · simpa using dvd_of_sector_dvd h 1 (cfg.rawSectors targetLen)
      · exact h
    refine ⟨hsize ▸ hdvd, fun ht => ?_, hsize ▸ hholds ▸ le_wholeBytes hdvd hX⟩
    rw [hsize]
    refine Nat.mul_le_mul_left _ (Nat.le_trans (wholeSectors_le _) ?_)
    rw [rawSectors, if_pos ht]
    exact Nat.min_le_right _ _

theorem total_cutAt_le (hc : cfg.Counted targetLen) (ps : DevProperties) :
    total (cutAt targetLen ps) ≤ total ps := by
  unfold cutAt
  split
  · rcases truncateGrain_cases ps hc.target with h | ⟨front, r, back, hps, _, hr, h⟩
    · exact Nat.le_of_eq (congrArg total h)
    · rw [h, hps]
      simp only [total_append, total_cons, total_nil]
      omega
  · exact Nat.le_refl _

theorem linear_real_iff (hc : cfg.Counted targetLen) (hlin : cfg.raid = .linear)
    {ps : DevProperties} (hps : cfg.linearProps = some ps) :
    cfg.Real targetLen ⟨cutAt targetLen ps, sec2b (sizeGrain sectorSize ps)⟩ ↔
      ((targetLen = 0 ∨ (cfg.devProps.map total).sum ≤ sectorSize * targetLen) ∧
          ∀ dev ∈ cfg.devProps, cfg.segBytes ∣ total dev) ∨
        (targetLen ≠ 0 ∧ EndsInside sectorSize (sectorSize * targetLen) ps ∧
          cfg.segBytes ∣ sectorSize * targetLen ∧ sectorSize * targetLen ≤ cfg.holds) := by
  have hsum : (cfg.devProps.map total).sum < 2 ^ 64 := hc.sum_lt
  have htotal : total ps = (cfg.devProps.map total).sum := by
    simpa using total_foldlM_append (by simpa using hsum) hps
  have hsize : size (cutAt targetLen ps) = total (cutAt targetLen ps) := by
    have := total_cutAt_le hc ps
    rw [size_eq, Nat.mod_eq_of_lt (by omega)]
  have hholds : cfg.holds = (cfg.devProps.map cfg.wholeBytes).sum := by simp [holds, hlin]
  have hwhole : total ps ≤ cfg.holds ↔ ∀ dev ∈ cfg.devProps, cfg.segBytes ∣ total dev := by
    rw [htotal, hholds, sum_le_wholeBytes_iff]
  have hdvd : (∀ dev ∈ cfg.devProps, cfg.segBytes ∣ total dev) → cfg.segBytes ∣ total ps := by
    intro h
    rw [htotal]
    exact dvd_sum fun n hn => by
      obtain ⟨dev, hdev, rfl⟩ := mem_map.mp hn
      exact h dev hdev
  rcases Nat.eq_zero_or_pos targetLen with rfl | hpos
  · have hcut : cutAt 0 ps = ps := rfl
    rw [hcut] at hsize ⊢
    constructor
    · exact fun h => .inl ⟨.inl rfl, hwhole.mp (hsize ▸ h.held)⟩
    · rintro (⟨-, h⟩ | ⟨h, -⟩)
      · exact ⟨hsize ▸ hdvd h, fun h => absurd rfl h, hsize ▸ hwhole.mpr h⟩
      · exact absurd rfl h
  · have hne : targetLen ≠ 0 := Nat.pos_iff_ne_zero.mp hpos
    have hcut : cutAt targetLen ps = truncateGrain sectorSize ps targetLen := if_pos hne
    have hle : total (truncateGrain sectorSize ps targetLen) ≤ sectorSize * targetLen ↔ _ :=
      total_truncateGrain_le_iff (show 0 < sectorSize by decide) hc.target
    rw [← htotal]
    constructor
    · intro h
      have ht : total (truncateGrain sectorSize ps targetLen) ≤ sectorSize * targetLen :=
        hcut ▸ hsize ▸ h.target hne
      rcases hle.mp ht with hall | hin
      · have hkeep := truncateGrain_of_total_le ps hc.target hall
        refine .inl ⟨.inr hall, hwhole.mp ?_⟩
        rw [← hkeep, ← hcut, ← hsize]
        exact h.held
      · have hexact := total_truncateGrain_of_endsInside hc.target hin
        refine .inr ⟨hne, hin, ?_, ?_⟩
        · rw [← hexact, ← hcut, ← hsize]
          exact h.whole
        · rw [← hexact, ← hcut, ← hsize]
          exact h.held
    · rintro (⟨h0 | hall, h⟩ | ⟨-, hin, hd, hh⟩)
      · exact absurd h0 hne
      · have hkeep := truncateGrain_of_total_le ps hc.target hall
        rw [hcut, hkeep] at hsize ⊢
        exact ⟨hsize ▸ hdvd h, fun _ => hsize ▸ hall, hsize ▸ hwhole.mpr h⟩
      · have hexact := total_truncateGrain_of_endsInside hc.target hin
        rw [hcut] at hsize ⊢
        rw [hexact] at hsize
        exact ⟨hsize ▸ hd, fun _ => Nat.le_of_eq hsize, hsize ▸ hh⟩

theorem raid_real_iff (hc : cfg.Counted targetLen) (hmany : cfg.devNr ≠ 1)
    (hraid : cfg.raid ≠ .linear) : cfg.Real targetLen cfg.setRaid ↔ cfg.RaidReal targetLen := by
  have hpos : 0 < cfg.raidN := by
    unfold raidN
    split <;> (unfold devNr at *; omega)
  have hle : cfg.raidN ≤ cfg.devNr := by
    unfold raidN
    split <;> omega
  have hfirst := first_le_total cfg
  have hbytes := hc.bytes cfg.dev0 mem_cons_self
  unfold RaidReal
  generalize hfst : cfg.wholeSectors (sizeGrain sectorSize cfg.dev0) = first at hfirst ⊢
  have hmul : sectorSize * (cfg.raidN * first) = cfg.raidN * (sectorSize * first) := by ring
  have h64 : sectorSize * (cfg.raidN * first) < 2 ^ 64 := by
    rw [hmul]
    exact Nat.lt_of_le_of_lt (Nat.mul_le_mul hle hfirst) hbytes
  have hsize : size cfg.setRaid.scmProps = sectorSize * (cfg.raidN * first) := by
    simp only [setRaid, hfst, size_eq, total_cons, total_nil, RangeProp.default, sec2b_of_lt h64,
      Nat.add_zero, Nat.mod_eq_of_lt h64]
  have hholds : sectorSize * (cfg.raidN * first) ≤ cfg.holds ↔
      ∀ dev ∈ cfg.devs, sectorSize * first ≤ total dev := by
    rw [holds, if_neg (by simp [hmany, hraid]), hmul, Nat.mul_le_mul_left_iff hpos, le_foldl_min,
      forall_mem_map]
    exact and_iff_right hfirst
  constructor
  · intro h
    refine ⟨.inr (hsize ▸ h.whole), fun ht => ?_, hholds.mp (hsize ▸ h.held)⟩
    exact Nat.le_of_mul_le_mul_left (hsize ▸ h.target ht) (show 0 < sectorSize by decide)
  · rintro ⟨hdvd, ht, hdevs⟩
    refine ⟨?_, fun h => ?_, hsize ▸ hholds.mpr hdevs⟩
    · rw [hsize]
      rcases hdvd with h | h
      · exact hfst ▸ dvd_of_sector_dvd h cfg.raidN _
      · exact h
    · rw [hsize]
      exact Nat.mul_le_mul_left _ (ht h)

theorem setScmProps_real_iff (cfg : Cfg) (targetLen : Nat) (hc : cfg.Counted targetLen) :
    (∀ scm, cfg.setScmProps targetLen = .ok scm → cfg.Real targetLen scm) ↔
      cfg.CapacityReal targetLen := by
  unfold setScmProps CapacityReal
  by_cases hseg : cfg.segSectors = 0
  · simp [hseg]
  by_cases hone : cfg.devNr = 1
  · simp [hseg, hone, single_real_iff hc hone]
  simp only [hseg, hone, if_false, ne_eq, not_false_eq_true, true_implies]
  cases hraid : cfg.raid with
  | linear =>
    simp only [LinearReal]
    cases hps : cfg.linearProps with
    | none => simp
    | some ps => simpa using linear_real_iff hc hraid hps
  | raid0 | raid5 =>
    by_cases halign : cfg.segmentSize % cfg.raidN = 0
    · simpa [halign] using raid_real_iff hc hone (by simp [hraid])
    · simp [halign]

/-- Devices of ten segments and of one. -/
def unevenRaid : Cfg := ⟨2, 512, .raid0, [.default 10240], [[.default 1024]]⟩

/-- Twenty segments are promised where two can be held. -/
theorem setScmProps_unreal :
    unevenRaid.setScmProps 0 = .ok ⟨[.default 20480], 20480⟩ ∧ unevenRaid.holds = 2048 ∧
      ¬ ∀ scm, unevenRaid.setScmProps 0 = .ok scm → unevenRaid.Real 0 scm := by
  refine ⟨by decide, by decide, fun h => ?_⟩
  exact absurd (h ⟨[.default 20480], 20480⟩ (by decide)).held (by decide)

/-- Two devices of ten segments, and a target of all their sectors. -/
def evenRaid : Cfg := ⟨2, 512, .raid0, [.default 10240], [[.default 10240]]⟩

theorem setScmProps_real_even :
    evenRaid.Counted 40 ∧
      ∀ scm, evenRaid.setScmProps 40 = .ok scm → evenRaid.Real 40 scm := by
  have hc : evenRaid.Counted 40 := ⟨by decide, by decide⟩
  refine ⟨hc, (setScmProps_real_iff evenRaid 40 hc).mpr fun _ => ?_⟩
  exact fun _ => ⟨.inl (by decide), by decide, by decide⟩

end Cfg

end UDepot.Scm
