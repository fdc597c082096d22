import UDepot.DeviceMd

/-! The capacity manager as `init_local` starts it (`Scm::init`): the segments of the device,
the capacity that is admitted, and which sizes are accepted. It runs in simulation, so the
bound of its own on the number of grains is not checked. -/

namespace UDepot.Scm
open DeviceMd

/-- The parameters that `init_local` passes, with the overprovisioning in thousandths. -/
structure Params where
  devSizeRaw : Nat
  grainSize : Nat
  segmentSize : Nat
  overprovision : Nat
  deriving DecidableEq, Repr

/-- `scm_usr_init_cfg`: the grain size is 32 bits wide from here on. -/
def Params.parse (devSize grainSize segmentSize overprovision : Nat) : Params :=
  ⟨devSize, grainSize % 2 ^ 32, segmentSize, overprovision⟩

def salsaMinRelSegments : Nat := 1

namespace Params

variable (p : Params)

def segSizeb : Nat := p.grainSize * p.segmentSize % 2 ^ 64

/-- The sectors of the device in bytes, which is what `scm_cfg_set_scm_props` leaves in
`dev_size_raw`. -/
def rawSize : Nat := p.devSizeRaw / 2 ^ 9 * 2 ^ 9

/-- `scm_cfg_set_scm_props` for one device: the sectors of its whole segments, in bytes. -/
def propsSize : Option Nat :=
  let segSectors := p.segSizeb / 2 ^ 9
  if segSectors = 0 then none
  else some (p.devSizeRaw / 2 ^ 9 / segSectors * segSectors * 2 ^ 9)

/-- `scm_get_dev_size`. -/
def devSize : Nat := p.propsSize.getD 0

/-- `scm_cfg_get_segs_nr`. -/
def segNr : Nat := p.devSize / p.segSizeb

def maxCapacity : Nat :=
  p.rawSize / p.grainSize * ((2 ^ 64 + 1000 - p.overprovision) % 2 ^ 64) % 2 ^ 64 / 1000

def maxCapacityReloc : Nat := (p.maxCapacity + p.segmentSize * 2) % 2 ^ 64

/-- `used` streams are registered and `streamNr` are to be. -/
def hasEnoughSpareSegments (devSize used streamNr : Nat) : Bool :=
  let totSegs := alignDown devSize p.segSizeb / p.segSizeb
  let usedSegs := alignDown (p.maxCapacityReloc * p.grainSize % 2 ^ 64) p.segSizeb / p.segSizeb
  let minSegNr := salsaMinRelSegments + (used + streamNr) % 2 ^ 32
  let spareSegNr := if usedSegs < totSegs then totSegs - usedSegs else 0
  !(decide (spareSegNr < minSegNr) ||
    decide (devSize ≤ p.maxCapacityReloc * p.grainSize % 2 ^ 64))

def isPowerOfTwo (x : Nat) : Bool := decide (0 < x) && x &&& (x - 1) == 0

/-- `check_sto_capacity_mgr_parameters`, in simulation. -/
def checkParameters : Bool :=
  isPowerOfTwo p.grainSize && p.segmentSize != 0 && decide (p.segmentSize ≤ 2 ^ 31 - 2) &&
    decide (p.segmentSize * p.grainSize * salsaMinRelSegments % 2 ^ 64 ≤ p.devSize)

/-- `Scm::init`. -/
def init : Bool :=
  p.propsSize.isSome && p.devSize != 0 &&
    p.hasEnoughSpareSegments (alignDown p.rawSize p.segSizeb) 0 3 && p.checkParameters

/-- The store registers with its streams and one for relocations, then the directory with
one. -/
def registers (streams : Nat) : Bool :=
  p.hasEnoughSpareSegments p.devSize 0 (streams + 1) &&
    p.hasEnoughSpareSegments p.devSize (streams + 1) 1

/-- The segments that are not kept back for relocations or as the open ones of the streams. -/
def dataSegs (streams : Nat) : Nat := p.segNr - (salsaMinRelSegments + (streams + 2))

theorem segNr_mul_le : p.segNr * p.segSizeb ≤ p.devSizeRaw := by
  have h9 : p.devSize ≤ p.devSizeRaw := by
    rw [devSize, propsSize]
    split
    · exact Nat.zero_le _
    · have h1 := Nat.div_mul_le_self (p.devSizeRaw / 2 ^ 9) (p.segSizeb / 2 ^ 9)
      have h2 := Nat.div_mul_le_self p.devSizeRaw (2 ^ 9)
      have h3 := Nat.mul_le_mul_right (2 ^ 9) h1
      exact h3.trans h2
  exact (Nat.div_mul_le_self _ _).trans h9

end Params

end UDepot.Scm
