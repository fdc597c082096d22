import UDepot.Map
import UDepot.Record

/-! The metadata of the device (`metadata.cc`) and the initialisation that looks for it
(`init_local`). A store that starts for the first time puts it near the end of the
device, at an offset that depends on the grain size; a later start reads it at the offset
that its own configuration gives, and takes its grain and segment size over.

Whether the directory is restored is decided by a comparison of seeds, which are readings
of the clock. Reads and writes of the device are complete; the capacity manager and the
controllers start or fail as the environment says. -/

namespace UDepot.DeviceMd
open Bytes List

/-- `salsa_dev_md` without its checksum. -/
@[ext] structure SalsaDevMd where
  physicalSize : Nat
  logicalSize : Nat
  segmentSize : Nat
  grainSize : Nat
  seed : Nat
  deriving DecidableEq, Repr

/-- `sizeof(salsa_dev_md)`. -/
def devMdSizeb : Nat := 44

def seedG : Nat := 0xDEADBEEF

structure Dev where
  bytes : Nat → UInt8
  size : Nat

def alignDown (val alignment : Nat) : Nat :=
  if alignment = 0 then 0 else val / alignment * alignment

def fieldBytes (md : SalsaDevMd) : List UInt8 :=
  le 8 md.physicalSize ++ le 8 md.logicalSize ++ le 8 md.segmentSize ++ le 8 md.grainSize ++
    le 8 md.seed

def checksum (crc32 : Nat → List UInt8 → Nat) (md : SalsaDevMd) : Nat :=
  crc32 (crc32 md.seed (fieldBytes md) % 2 ^ 32) (le 4 seedG) % 2 ^ 32

def encode (crc32 : Nat → List UInt8 → Nat) (md : SalsaDevMd) : List UInt8 :=
  fieldBytes md ++ le 4 (checksum crc32 md)

def fieldsAt (m : Nat → UInt8) (off : Nat) : SalsaDevMd :=
  ⟨leNat (read m off 8), leNat (read m (off + 8) 8), leNat (read m (off + 16) 8),
    leNat (read m (off + 24) 8), leNat (read m (off + 32) 8)⟩

/-- `dev_md_grain_offset`. -/
def devMdGrainOffset (size grainSize : Nat) : Nat :=
  if alignUp devMdSizeb grainSize < alignDown size grainSize then
    alignDown size grainSize - alignUp devMdSizeb grainSize
  else 0

/-- `uDepotSalsaMD`. -/
structure SalsaMD where
  seed : Nat
  grainSize : Nat
  restored : Bool
  devMd : SalsaDevMd
  deriving DecidableEq, Repr

namespace SalsaMD

def new (clock grainSize : Nat) : SalsaMD := ⟨clock, grainSize, false, ⟨0, 0, 0, 0, 0⟩⟩

def init (x : SalsaMD) (devMd : SalsaDevMd) : SalsaMD where
  seed := devMd.seed
  grainSize := devMd.grainSize
  restored := x.seed != devMd.seed
  devMd := devMd

/-- The length of the padding is 32 bits wide. -/
def padB (x : SalsaMD) : Nat := (alignUp devMdSizeb x.grainSize - devMdSizeb) % 2 ^ 32

def validateDevMd (crc32 : Nat → List UInt8 → Nat) (x : SalsaMD) (dev : Dev) : Option SalsaDevMd :=
  let off := devMdGrainOffset dev.size x.grainSize
  let md := fieldsAt dev.bytes off
  -- a read over the end of the device is short
  if dev.size < off + (devMdSizeb + x.padB) then none
  else if checksum crc32 md = leNat (read dev.bytes (off + 40) 4) then some md
  else none

def persistDevMd (crc32 : Nat → List UInt8 → Nat) (pad : Nat → UInt8) (x : SalsaMD) (dev : Dev) :
    Dev :=
  { dev with
    bytes := write dev.bytes (devMdGrainOffset dev.size x.grainSize)
      (encode crc32 x.devMd ++ read pad 0 x.padB) }

def checkDevSize (x : SalsaMD) (size segmentSize : Nat) : Bool :=
  let logicalSize := alignDown size (segmentSize * x.grainSize % 2 ^ 64)
  let off := devMdGrainOffset size x.grainSize
  !(off == 0 || decide (off < logicalSize))

def defaultDevMd (x : SalsaMD) (size grainSize segmentSize : Nat) : SalsaDevMd :=
  ⟨size, 0, segmentSize, grainSize, x.seed⟩

def getDevSize (x : SalsaMD) : Nat := x.devMd.physicalSize - alignUp devMdSizeb x.grainSize

end SalsaMD

/-! ## The configuration -/

/-- `direct` are the types of store whose grains are aligned for direct access. -/
structure Conf where
  direct : Bool
  size : Nat
  grainSize : Nat
  segmentSize : Nat
  forceDestroy : Bool
  deriving DecidableEq, Repr

def roundDownPow2 (val : Nat) : Nat := if val = 0 then 0 else 2 ^ Nat.log2 val

def sanitizeGrainSize (grainSize : Nat) : Nat := roundDownPow2 (max 1 grainSize)

def sanitizeSegmentSize (pageSize grainSize segmentSize : Nat) : Nat :=
  let stepSize := if grainSize < pageSize then pageSize / grainSize else 1
  max 1 (alignDown segmentSize stepSize)

/-- `validate_and_sanitize_parameters`. -/
def Conf.sanitize (pageSize : Nat) (conf : Conf) : Conf :=
  let grainSize := sanitizeGrainSize
    (if conf.direct then alignUp conf.grainSize 512 % 2 ^ 64 else conf.grainSize)
  { conf with
    grainSize := grainSize
    segmentSize := sanitizeSegmentSize pageSize grainSize conf.segmentSize
    size := min (grainSize * (unusedPba - 1) % 2 ^ 64) conf.size }

/-! ## Initialisation -/

inductive InitErr where
  | einval
  | enotsup
  | scm (rc : Nat)
  | ctlr (rc : Nat)
  deriving DecidableEq, Repr

/-- `scmInit` and `ctlrInit` start the capacity manager and the controllers for a size, grain
size and segment size; `grows` tells files from devices. -/
structure Env where
  pageSize : Nat
  crc32 : Nat → List UInt8 → Nat
  scmInit : Nat → Nat → Nat → Option Nat
  ctlrInit : Nat → Nat → Option Nat
  grows : Bool
  pad : Nat → UInt8

def registerLocalRegion (env : Env) (size : Nat) (dev : Dev) : Except InitErr Dev :=
  if dev.size < size then
    if env.grows then .ok ⟨fun a => if a < dev.size then dev.bytes a else 0, size⟩
    else .error .enotsup
  else .ok dev

/-- The search for a segment size with little waste, downwards from `ns`. -/
def bestSegment (pageSize grainSize sizeM newSegMin : Nat) : Nat → Nat → Nat → Nat → Nat
  | 0, _, _, best => best
  | fuel + 1, ns, minWaste, best =>
    if newSegMin < ns then
      let netSize := (sizeM + (2 ^ 64 - grainSize)) % 2 ^ 64
      let waste := netSize - alignDown netSize (ns * grainSize % 2 ^ 64)
      let next := sanitizeSegmentSize pageSize grainSize (ns - 1)
      if waste < minWaste then bestSegment pageSize grainSize sizeM newSegMin fuel next waste ns
      else bestSegment pageSize grainSize sizeM newSegMin fuel next minWaste best
    else best

def smallerSegment (pageSize grainSize sizeM segmentSize : Nat) : Option Nat :=
  if segmentSize ≤ 1 then none
  else
    let n := sanitizeSegmentSize pageSize grainSize (segmentSize - 1)
    some (bestSegment pageSize grainSize sizeM (segmentSize / 2) n n (2 ^ 64 - 1) n)

theorem sanitizeSegmentSize_le (pageSize grainSize segmentSize : Nat) :
    sanitizeSegmentSize pageSize grainSize segmentSize ≤ max 1 segmentSize := by
  have hdown : ∀ a, alignDown segmentSize a ≤ segmentSize := by
    intro a
    rw [alignDown]
    split
    · exact Nat.zero_le _
    · exact Nat.div_mul_le_self _ _
  rw [sanitizeSegmentSize]
  exact max_le_max (Nat.le_refl 1) (hdown _)

theorem bestSegment_le {pageSize grainSize sizeM newSegMin fuel ns minWaste best n : Nat}
    (hns : ns ≤ n) (hbest : best ≤ n) (hn : 1 ≤ n) :
    bestSegment pageSize grainSize sizeM newSegMin fuel ns minWaste best ≤ n := by
  induction fuel generalizing ns minWaste best with
  | zero => exact hbest
  | succ fuel ih =>
    have hnext := sanitizeSegmentSize_le pageSize grainSize (ns - 1)
    rw [bestSegment]
    split
    · dsimp only
      split
      · exact ih (by omega) hns
      · exact ih (by omega) hbest
    · exact hbest

variable {grainSize segmentSize size : Nat} {x : SalsaMD}

theorem smallerSegment_lt {pageSize sizeM n : Nat}
    (h : smallerSegment pageSize grainSize sizeM segmentSize = some n) : n < segmentSize := by
  rw [smallerSegment] at h
  split at h
  · cases h
  · rename_i hseg
    obtain rfl := Option.some.inj h
    have hle := sanitizeSegmentSize_le pageSize grainSize (segmentSize - 1)
    have hbest := @bestSegment_le pageSize grainSize sizeM (segmentSize / 2)
      (sanitizeSegmentSize pageSize grainSize (segmentSize - 1))
      (sanitizeSegmentSize pageSize grainSize (segmentSize - 1)) (2 ^ 64 - 1)
      (sanitizeSegmentSize pageSize grainSize (segmentSize - 1)) (segmentSize - 1)
      (by omega) (by omega) (by omega)
    omega

/-- The loop of `init_local`, with whether metadata was found. Without it, smaller segments
are tried. -/
def initLoop (env : Env) (forceDestroy : Bool) (dev : Dev) (x : SalsaMD)
    (sizeM grainSize segmentSize : Nat) : Except InitErr (SalsaMD × Bool) :=
  match if forceDestroy then none else x.validateDevMd env.crc32 dev with
  | some devMd =>
    let x := x.init devMd
    if x.checkDevSize dev.size devMd.segmentSize then
      if dev.size ≠ devMd.physicalSize then .error .einval
      else
        match env.scmInit x.getDevSize devMd.grainSize devMd.segmentSize with
        | some rc => .error (.scm rc)
        | none => .ok (x, true)
    else .error .einval
  | none =>
    let x := x.init (x.defaultDevMd dev.size grainSize segmentSize)
    if x.checkDevSize dev.size segmentSize then
      match env.scmInit x.getDevSize grainSize segmentSize with
      | none => .ok (x, false)
      | some _ =>
        if sanitizeSegmentSize env.pageSize grainSize (segmentSize / 2) ≤ 1 then .error .einval
        else
          initLoop env forceDestroy dev x x.getDevSize grainSize
            (sanitizeSegmentSize env.pageSize grainSize (segmentSize / 2))
    else
      match _h : smallerSegment env.pageSize grainSize sizeM segmentSize with
      | none => .error .einval
      | some n => initLoop env forceDestroy dev x sizeM grainSize n
termination_by segmentSize
decreasing_by
  · have hle := sanitizeSegmentSize_le env.pageSize grainSize (segmentSize / 2)
    omega
  · exact smallerSegment_lt _h

/-- How the directory map starts. -/
inductive Path where
  | restore
  | grow
  deriving DecidableEq, Repr

structure Started where
  md : SalsaMD
  segmentSize : Nat
  grainSize : Nat
  path : Path
  dev : Dev

/-- `init_local` behind the registration of the device. -/
def initOn (env : Env) (conf : Conf) (clock : Nat) (dev : Dev) : Except InitErr Started :=
  match initLoop env conf.forceDestroy dev (.new clock conf.grainSize) dev.size conf.grainSize
      conf.segmentSize with
  | .error e => .error e
  | .ok (x, restored) =>
    match env.ctlrInit x.devMd.grainSize x.devMd.segmentSize with
    | some rc => .error (.ctlr rc)
    | none =>
      .ok {
        md := x
        segmentSize := x.devMd.segmentSize
        grainSize := x.devMd.grainSize
        path := if x.restored then .restore else .grow
        dev := if restored then dev else x.persistDevMd env.crc32 env.pad dev }

/-- `init_local` at the time `clock`. -/
def initLocal (env : Env) (conf : Conf) (clock : Nat) (dev : Dev) : Except InitErr Started :=
  match registerLocalRegion env conf.size dev with
  | .error e => .error e
  | .ok dev => initOn env conf clock dev

def start (env : Env) (conf : Conf) (clock : Nat) (dev : Dev) : Except InitErr Started :=
  initLocal env (conf.sanitize env.pageSize) clock dev

/-! ## What is read is what was written -/

structure SalsaDevMd.Fits (md : SalsaDevMd) : Prop where
  physicalSize : md.physicalSize < 2 ^ 64
  logicalSize : md.logicalSize < 2 ^ 64
  segmentSize : md.segmentSize < 2 ^ 64
  grainSize : md.grainSize < 2 ^ 64
  seed : md.seed < 2 ^ 64

variable {crc32 : Nat → List UInt8 → Nat} {m : Nat → UInt8} {off : Nat} {md : SalsaDevMd}

theorem read_fields (m : Nat → UInt8) (off : Nat) :
    read m off 44 = read m off 8 ++ (read m (off + 8) 8 ++ (read m (off + 16) 8 ++
      (read m (off + 24) 8 ++ (read m (off + 32) 8 ++ read m (off + 40) 4)))) := by
  have h1 : read m off 44 = read m off 8 ++ read m (off + 8) 36 := read_add m off 8 36
  have h2 : read m (off + 8) 36 = read m (off + 8) 8 ++ read m (off + 16) 28 :=
    read_add m (off + 8) 8 28
  have h3 : read m (off + 16) 28 = read m (off + 16) 8 ++ read m (off + 24) 20 :=
    read_add m (off + 16) 8 20
  have h4 : read m (off + 24) 20 = read m (off + 24) 8 ++ read m (off + 32) 12 :=
    read_add m (off + 24) 8 12
  have h5 : read m (off + 32) 12 = read m (off + 32) 8 ++ read m (off + 40) 4 :=
    read_add m (off + 32) 8 4
  rw [h1, h2, h3, h4, h5]

/-- The metadata lies at `off`, field by field. -/
structure Stored (crc32 : Nat → List UInt8 → Nat) (m : Nat → UInt8) (off : Nat) (md : SalsaDevMd) :
    Prop where
  physicalSize : read m off 8 = le 8 md.physicalSize
  logicalSize : read m (off + 8) 8 = le 8 md.logicalSize
  segmentSize : read m (off + 16) 8 = le 8 md.segmentSize
  grainSize : read m (off + 24) 8 = le 8 md.grainSize
  seed : read m (off + 32) 8 = le 8 md.seed
  csum : read m (off + 40) 4 = le 4 (checksum crc32 md)

theorem stored_iff : Stored crc32 m off md ↔ read m off 44 = encode crc32 md := by
  simp only [read_fields, encode, fieldBytes, append_assoc]
  constructor
  · intro h
    rw [h.physicalSize, h.logicalSize, h.segmentSize, h.grainSize, h.seed, h.csum]
  · intro h
    obtain ⟨h1, h⟩ := append_inj h (by simp)
    obtain ⟨h2, h⟩ := append_inj h (by simp)
    obtain ⟨h3, h⟩ := append_inj h (by simp)
    obtain ⟨h4, h⟩ := append_inj h (by simp)
    obtain ⟨h5, h6⟩ := append_inj h (by simp)
    exact ⟨h1, h2, h3, h4, h5, h6⟩

theorem leNat_read_le {k x : Nat} {a : Nat} (h : read m a k = le k x) (hx : x < 2 ^ (8 * k)) :
    leNat (read m a k) = x := by
  rw [h, leNat_le, Nat.mod_eq_of_lt hx]

theorem checksum_lt (crc32 : Nat → List UInt8 → Nat) (md : SalsaDevMd) :
    checksum crc32 md < 2 ^ 32 := Nat.mod_lt _ (by decide)

theorem Stored.fieldsAt (h : Stored crc32 m off md) (hf : md.Fits) : fieldsAt m off = md := by
  ext
  · exact leNat_read_le h.physicalSize hf.physicalSize
  · exact leNat_read_le h.logicalSize hf.logicalSize
  · exact leNat_read_le h.segmentSize hf.segmentSize
  · exact leNat_read_le h.grainSize hf.grainSize
  · exact leNat_read_le h.seed hf.seed

theorem le_leNat_read (m : Nat → UInt8) (a k : Nat) : le k (leNat (read m a k)) = read m a k := by
  have h := le_leNat (read m a k)
  rwa [read_length] at h

theorem stored_fieldsAt (h : checksum crc32 (fieldsAt m off) = leNat (read m (off + 40) 4)) :
    Stored crc32 m off (fieldsAt m off) where
  physicalSize := (le_leNat_read m off 8).symm
  logicalSize := (le_leNat_read m (off + 8) 8).symm
  segmentSize := (le_leNat_read m (off + 16) 8).symm
  grainSize := (le_leNat_read m (off + 24) 8).symm
  seed := (le_leNat_read m (off + 32) 8).symm
  csum := by rw [h, le_leNat_read]

theorem padB_le (x : SalsaMD) : x.padB ≤ alignUp devMdSizeb x.grainSize - devMdSizeb :=
  Nat.mod_le _ _

theorem le_alignUp {x y : Nat} (hy : 0 < y) : x ≤ alignUp x y := by
  rw [alignUp, Nat.mul_comm]
  exact le_udivRoundUp hy

theorem alignDown_le (x y : Nat) : alignDown x y ≤ x := by
  rw [alignDown]
  split
  · exact Nat.zero_le _
  · exact Nat.div_mul_le_self _ _

theorem devMdGrainOffset_fits (h : devMdGrainOffset size grainSize ≠ 0) :
    devMdGrainOffset size grainSize + alignUp devMdSizeb grainSize ≤ size := by
  have hdown := alignDown_le size grainSize
  rw [devMdGrainOffset] at h ⊢
  split
  · omega
  · rename_i hlt
    rw [if_neg hlt] at h
    exact absurd rfl h

theorem validateDevMd_of_stored {dev : Dev} (hg : 0 < x.grainSize)
    (h0 : devMdGrainOffset dev.size x.grainSize ≠ 0) (hf : md.Fits)
    (h : Stored crc32 dev.bytes (devMdGrainOffset dev.size x.grainSize) md) :
    x.validateDevMd crc32 dev = some md := by
  have hfits := devMdGrainOffset_fits h0
  have hpad := padB_le x
  have hsize : devMdSizeb ≤ alignUp devMdSizeb x.grainSize := le_alignUp hg
  rw [SalsaMD.validateDevMd, h.fieldsAt hf, if_neg (by omega), if_pos]
  exact (leNat_read_le h.csum (checksum_lt crc32 md)).symm

theorem stored_of_validateDevMd {dev : Dev} (h : x.validateDevMd crc32 dev = some md) :
    Stored crc32 dev.bytes (devMdGrainOffset dev.size x.grainSize) md := by
  rw [SalsaMD.validateDevMd] at h
  split at h
  · cases h
  · split at h
    · rename_i hsum
      obtain rfl := Option.some.inj h
      exact stored_fieldsAt hsum
    · cases h

/-! ## Stores on a device -/

/-- A device with a store: its metadata is where the store has put it, and the segments end
in front of it. -/
structure Persisted (crc32 : Nat → List UInt8 → Nat) (dev : Dev) (md : SalsaDevMd) : Prop where
  fits : md.Fits
  grain_pos : 0 < md.grainSize
  physicalSize : md.physicalSize = dev.size
  offset : devMdGrainOffset dev.size md.grainSize ≠ 0
  logical : alignDown dev.size (md.segmentSize * md.grainSize % 2 ^ 64) ≤
    devMdGrainOffset dev.size md.grainSize
  stored : Stored crc32 dev.bytes (devMdGrainOffset dev.size md.grainSize) md

theorem checkDevSize_iff :
    x.checkDevSize size segmentSize = true ↔
      devMdGrainOffset size x.grainSize ≠ 0 ∧
        alignDown size (segmentSize * x.grainSize % 2 ^ 64) ≤
          devMdGrainOffset size x.grainSize := by
  simp only [SalsaMD.checkDevSize, Bool.not_eq_true', Bool.or_eq_false_iff, beq_eq_false_iff_ne,
    decide_eq_false_iff_not, Nat.not_lt, ne_eq]

theorem encode_length (crc32 : Nat → List UInt8 → Nat) (md : SalsaDevMd) :
    (encode crc32 md).length = 44 := by
  simp [encode, fieldBytes]

theorem persistDevMd_persisted {dev : Dev} (pad : Nat → UInt8) (hf : x.devMd.Fits)
    (hgrain : x.devMd.grainSize = x.grainSize) (hpos : 0 < x.grainSize)
    (hsize : x.devMd.physicalSize = dev.size)
    (hcheck : x.checkDevSize dev.size x.devMd.segmentSize = true) :
    Persisted crc32 (x.persistDevMd crc32 pad dev) x.devMd := by
  obtain ⟨hoff, hlog⟩ := checkDevSize_iff.mp hcheck
  refine ⟨hf, by rwa [hgrain], hsize, ?_, ?_, ?_⟩
  · rw [hgrain]
    exact hoff
  · rw [hgrain]
    exact hlog
  · rw [stored_iff, hgrain]
    have hread := read_write_append dev.bytes (devMdGrainOffset dev.size x.grainSize)
      (encode crc32 x.devMd) (read pad 0 x.padB)
    rw [encode_length] at hread
    exact hread

/-! ## One start -/

variable {env : Env} {conf : Conf} {clock : Nat} {dev : Dev}

theorem initLoop_found {sizeM : Nat} (hv : x.validateDevMd env.crc32 dev = some md) :
    initLoop env false dev x sizeM grainSize segmentSize =
      if (x.init md).checkDevSize dev.size md.segmentSize then
        if dev.size ≠ md.physicalSize then .error .einval
        else
          match env.scmInit (x.init md).getDevSize md.grainSize md.segmentSize with
          | some rc => .error (.scm rc)
          | none => .ok (x.init md, true)
      else .error .einval := by
  rw [initLoop]
  simp only [Bool.false_eq_true, ↓reduceIte, hv]

theorem validateDevMd_congr {x y : SalsaMD} (h : y.grainSize = x.grainSize) :
    y.validateDevMd crc32 dev = x.validateDevMd crc32 dev := by
  cases x
  cases y
  dsimp only at h
  subst h
  rfl

theorem init_default_congr {y : SalsaMD} (h : y.seed = x.seed) (size grainSize n : Nat) :
    y.init (y.defaultDevMd size grainSize n) = x.init (x.defaultDevMd size grainSize n) := by
  simp only [SalsaMD.init, SalsaMD.defaultDevMd, h]

theorem initLoop_fresh {forceDestroy found : Bool} {x y : SalsaMD}
    {sizeM grainSize segmentSize : Nat} (hg : x.grainSize = grainSize)
    (hv : (if forceDestroy then none else x.validateDevMd env.crc32 dev) = none)
    (h : initLoop env forceDestroy dev x sizeM grainSize segmentSize = .ok (y, found)) :
    found = false ∧ ∃ n ≤ segmentSize, y = x.init (x.defaultDevMd dev.size grainSize n) ∧
      y.checkDevSize dev.size n = true := by
  have hv' : ∀ {x : SalsaMD} (n : Nat), x.grainSize = grainSize →
      (if forceDestroy then none else x.validateDevMd env.crc32 dev) = none →
      (if forceDestroy then none else
        (x.init (x.defaultDevMd dev.size grainSize n)).validateDevMd env.crc32 dev) = none := by
    intro x n hg hv
    rwa [@validateDevMd_congr env.crc32 dev x (x.init (x.defaultDevMd dev.size grainSize n))
      hg.symm]
  fun_induction initLoop env forceDestroy dev x sizeM grainSize segmentSize with
  | case5 x sizeM n hn x' hcheck hscm =>
    subst x'
    cases h
    exact ⟨rfl, n, Nat.le_refl _, rfl, hcheck⟩
  | case7 x sizeM n hn x' hcheck rc hscm hlt ih =>
    obtain ⟨hfound, k, hk, hy, hck⟩ := ih rfl (hv' n hg hv) h
    have hle := sanitizeSegmentSize_le env.pageSize grainSize (n / 2)
    exact ⟨hfound, k, by omega, hy.trans (init_default_congr rfl _ _ _), hck⟩
  | case9 x sizeM n hn x' hcheck n' hn' ih =>
    obtain ⟨hfound, k, hk, hy, hck⟩ := ih rfl (hv' n hg hv) h
    have hlt := smallerSegment_lt hn'
    exact ⟨hfound, k, by omega, hy.trans (init_default_congr rfl _ _ _), hck⟩
  | _ => simp_all

theorem initLoop_fresh_restored {forceDestroy found : Bool} {x y : SalsaMD}
    {sizeM grainSize segmentSize : Nat} (hg : x.grainSize = grainSize)
    (hv : (if forceDestroy then none else x.validateDevMd env.crc32 dev) = none)
    (h : initLoop env forceDestroy dev x sizeM grainSize segmentSize = .ok (y, found)) :
    y.restored = false := by
  obtain ⟨-, n, -, rfl, -⟩ := initLoop_fresh hg hv h
  simp [SalsaMD.init, SalsaMD.defaultDevMd]

theorem sanitizeGrainSize_pos (grainSize : Nat) : 0 < sanitizeGrainSize grainSize := by
  have hmax : max 1 grainSize ≠ 0 := by omega
  rw [sanitizeGrainSize, roundDownPow2, if_neg hmax]
  exact Nat.two_pow_pos _

theorem sanitize_grainSize_pos (pageSize : Nat) (conf : Conf) :
    0 < (conf.sanitize pageSize).grainSize := sanitizeGrainSize_pos _

/-- The start of a store takes the metadata on the device over and goes on to restore the
directory. -/
def Recognised (md : SalsaDevMd) : Except InitErr Started → Prop
  | .error _ => False
  | .ok s => s.path = .restore ∧ s.md.devMd = md ∧ s.grainSize = md.grainSize ∧
      s.segmentSize = md.segmentSize

theorem new_grainSize (clock grainSize : Nat) :
    (SalsaMD.new clock grainSize).grainSize = grainSize :=
  rfl

/-- A store that is recognised was found, on a device of its size and under another seed. -/
theorem initOn_recognised (hd : conf.forceDestroy = false)
    (h : Recognised md (initOn env conf clock dev)) :
    (SalsaMD.new clock conf.grainSize).validateDevMd env.crc32 dev = some md ∧
      dev.size = md.physicalSize ∧ clock ≠ md.seed := by
  revert h
  fun_cases initOn env conf clock dev with
  | case3 y found hl hctlr =>
    rintro ⟨hpath, hmd, -, -⟩
    rw [hd] at hl
    cases hv : (SalsaMD.new clock conf.grainSize).validateDevMd env.crc32 dev with
    | none =>
      rw [@initLoop_fresh_restored env dev false found _ y _ _ _
        (new_grainSize clock conf.grainSize) hv hl] at hpath
      cases hpath
    | some md' =>
      rw [initLoop_found hv] at hl
      split at hl
      · split at hl
        · cases hl
        · rename_i hsize
          split at hl
          · cases hl
          · cases hl
            obtain rfl : md' = md := hmd
            refine ⟨rfl, not_not.mp hsize, ?_⟩
            rintro rfl
            simp [SalsaMD.init, SalsaMD.new] at hpath
      · cases hl
  | _ => exact False.elim

theorem initOn_ok {restored : Bool}
    (h : initLoop env conf.forceDestroy dev (.new clock conf.grainSize) dev.size conf.grainSize
      conf.segmentSize = .ok (x, restored))
    (hctlr : env.ctlrInit x.devMd.grainSize x.devMd.segmentSize = none) :
    initOn env conf clock dev = .ok {
      md := x
      segmentSize := x.devMd.segmentSize
      grainSize := x.devMd.grainSize
      path := if x.restored then .restore else .grow
      dev := if restored then dev else x.persistDevMd env.crc32 env.pad dev } := by
  rw [initOn, h]
  dsimp only
  rw [hctlr]

/-- Metadata that is found is taken over, and the seeds decide how the directory starts. -/
theorem initOn_found (hd : conf.forceDestroy = false) (hp : Persisted env.crc32 dev md)
    (hv : (SalsaMD.new clock conf.grainSize).validateDevMd env.crc32 dev = some md)
    (hscm : ∀ size, env.scmInit size md.grainSize md.segmentSize = none)
    (hctlr : env.ctlrInit md.grainSize md.segmentSize = none) :
    initOn env conf clock dev = .ok {
      md := (SalsaMD.new clock conf.grainSize).init md
      segmentSize := md.segmentSize
      grainSize := md.grainSize
      path := if clock != md.seed then .restore else .grow
      dev := dev } := by
  have hcheck : ((SalsaMD.new clock conf.grainSize).init md).checkDevSize dev.size md.segmentSize =
    true := checkDevSize_iff.mpr ⟨hp.offset, hp.logical⟩
  have hloop : initLoop env conf.forceDestroy dev (.new clock conf.grainSize) dev.size
      conf.grainSize
      conf.segmentSize = .ok ((SalsaMD.new clock conf.grainSize).init md, true) := by
    rw [hd, initLoop_found hv, if_pos hcheck, if_neg (not_not.mpr hp.physicalSize.symm), hscm]
  exact initOn_ok hloop hctlr

theorem exists_stored_only {off off' : Nat} (h : off' ≠ off) (crc32 : Nat → List UInt8 → Nat)
    (md : SalsaDevMd) : ∃ m, Stored crc32 m off md ∧ ¬ Stored crc32 m off' md := by
  have hlen := encode_length crc32 md
  -- the byte to spoil: the last one if the other offset is behind, else the first one
  obtain ⟨i, hi, hout⟩ : ∃ i < 44, off' + i < off ∨ off + 44 ≤ off' + i := by
    rcases Nat.lt_or_gt_of_ne h with h | h
    · exact ⟨0, by omega, by omega⟩
    · exact ⟨43, by omega, by omega⟩
  have hi' : i < (encode crc32 md).length := by omega
  refine ⟨Bytes.write (fun _ => (encode crc32 md)[i] + 1) off (encode crc32 md), ?_, ?_⟩
  · have hread := read_write_append (fun _ => (encode crc32 md)[i] + 1) off (encode crc32 md) []
    rw [append_nil, hlen] at hread
    exact stored_iff.mpr hread
  · rw [stored_iff]
    intro hread
    have hbyte := getElem_of_eq hread (i := i) (by rw [read_length]; exact hi)
    rw [read_getElem, write_outside _ _ (by omega)] at hbyte
    have hne : (encode crc32 md)[i] + 1 ≠ (encode crc32 md)[i] := by
      simp
    exact hne hbyte

theorem initLocal_recognises_iff (hd : conf.forceDestroy = false) (hg : 0 < conf.grainSize)
    (hp : ∃ m, Persisted env.crc32 ⟨m, size⟩ md)
    (hscm : ∀ size, env.scmInit size md.grainSize md.segmentSize = none)
    (hctlr : env.ctlrInit md.grainSize md.segmentSize = none) :
    (∀ m, Persisted env.crc32 ⟨m, size⟩ md → Recognised md (initLocal env conf clock ⟨m, size⟩)) ↔
      conf.size ≤ size ∧
        devMdGrainOffset size conf.grainSize = devMdGrainOffset size md.grainSize ∧
          clock ≠ md.seed := by
  obtain ⟨m0, hp0⟩ := hp
  constructor
  · intro h
    have hsize : conf.size ≤ size := by
      by_contra hgt
      have hrec := h m0 hp0
      rw [initLocal, registerLocalRegion, if_pos (Nat.lt_of_not_le hgt)] at hrec
      by_cases hg : env.grows = true
      · rw [if_pos hg] at hrec
        exact hgt ((initOn_recognised hd hrec).2.1.trans hp0.physicalSize).le
      · rw [if_neg hg] at hrec
        exact hrec
    have hfound : ∀ m, Persisted env.crc32 ⟨m, size⟩ md →
        (SalsaMD.new clock conf.grainSize).validateDevMd env.crc32 ⟨m, size⟩ = some md ∧
          clock ≠ md.seed := by
      intro m hm
      have hrec := h m hm
      rw [initLocal, registerLocalRegion, if_neg (Nat.not_lt.mpr hsize)] at hrec
      obtain ⟨hv, -, hseed⟩ := initOn_recognised hd hrec
      exact ⟨hv, hseed⟩
    refine ⟨hsize, ?_, (hfound m0 hp0).2⟩
    by_contra hne
    obtain ⟨m, hat, hnot⟩ := exists_stored_only hne env.crc32 md
    have hm : Persisted env.crc32 ⟨m, size⟩ md :=
      ⟨hp0.fits, hp0.grain_pos, hp0.physicalSize, hp0.offset, hp0.logical, hat⟩
    exact hnot (stored_of_validateDevMd (hfound m hm).1)
  · rintro ⟨hsize, hoff, hseed⟩ m hm
    rw [initLocal, registerLocalRegion, if_neg (Nat.not_lt.mpr hsize)]
    have hv : (SalsaMD.new clock conf.grainSize).validateDevMd env.crc32 ⟨m, size⟩ = some md := by
      refine validateDevMd_of_stored hg ?_ hm.fits ?_
      · rw [new_grainSize, hoff]
        exact hm.offset
      · rw [new_grainSize, hoff]
        exact hm.stored
    dsimp only
    rw [initOn_found hd hm hv hscm hctlr]
    exact ⟨if_pos (bne_iff_ne.mpr hseed), rfl, rfl, rfl⟩

/-- A store of this size and metadata is recognised by a start, whatever else is on the
device, exactly when the configuration does not enlarge the device, gives the same offset
of the metadata, and the clock differs from the seed. -/
theorem start_recognises_iff (hd : conf.forceDestroy = false) {size : Nat}
    (hp : ∃ m, Persisted env.crc32 ⟨m, size⟩ md)
    (hscm : ∀ size, env.scmInit size md.grainSize md.segmentSize = none)
    (hctlr : env.ctlrInit md.grainSize md.segmentSize = none) :
    (∀ m, Persisted env.crc32 ⟨m, size⟩ md → Recognised md (start env conf clock ⟨m, size⟩)) ↔
      (conf.sanitize env.pageSize).size ≤ size ∧
        devMdGrainOffset size (conf.sanitize env.pageSize).grainSize =
          devMdGrainOffset size md.grainSize ∧ clock ≠ md.seed := by
  have hd' : (conf.sanitize env.pageSize).forceDestroy = false := by
    rw [Conf.sanitize]
    exact hd
  exact initLocal_recognises_iff hd' (sanitize_grainSize_pos env.pageSize conf) hp hscm hctlr

/-! ## Two starts -/

/-- An environment in which everything starts. -/
def plain : Env := ⟨4096, fun _ bs => bs.length, fun _ _ _ => none, fun _ _ => none, true,
    fun _ => 0⟩

/-- A store on a device of a segment and a page, created at the time 5 with grains of 512. -/
def small : Conf := ⟨false, 0, 512, 2048, false⟩

def smallMd : SalsaDevMd := ⟨1052672, 0, 2048, 512, 5⟩

def smallDev : Dev :=
  (SalsaMD.new 5 512 |>.init smallMd).persistDevMd plain.crc32 plain.pad ⟨fun _ => 0, 1052672⟩

theorem smallDev_persisted : Persisted plain.crc32 smallDev smallMd :=
  persistDevMd_persisted plain.pad ⟨by decide, by decide, by decide, by decide, by decide⟩ rfl
    (by decide) rfl (by decide)

theorem start_recognises_small :
    Persisted plain.crc32 smallDev smallMd ∧
      Recognised smallMd (start plain { small with segmentSize := 4096 } 6 smallDev) :=
  ⟨smallDev_persisted, (start_recognises_iff rfl ⟨_, smallDev_persisted⟩ (fun _ => rfl) rfl).mpr
    (by decide) _ smallDev_persisted⟩

/-- The same configuration at the same time on the clock, and another grain size: both start
the store anew. -/
theorem start_not_recognised :
    (∃ s, start plain small 5 smallDev = .ok s ∧ s.path = .grow) ∧
      ∃ s, start plain { small with grainSize := 4096, segmentSize := 256 } 6 smallDev = .ok s ∧
        s.path = .grow ∧ s.md.devMd.grainSize = 4096 := by
  have hconf : small.sanitize plain.pageSize = small := by decide +kernel
  have hconf' : Conf.sanitize plain.pageSize { small with grainSize := 4096, segmentSize := 256 } =
    { small with grainSize := 4096, segmentSize := 256 } := by decide +kernel
  have hv : (SalsaMD.new 5 512).validateDevMd plain.crc32 smallDev = some smallMd :=
    validateDevMd_of_stored (by decide) (by decide) smallDev_persisted.fits
      smallDev_persisted.stored
  have hv' : (SalsaMD.new 6 4096).validateDevMd plain.crc32 smallDev = none := by decide +kernel
  refine ⟨?_, ?_⟩
  · rw [start, hconf]
    exact ⟨_, initOn_found rfl smallDev_persisted hv (fun _ => rfl) rfl, rfl⟩
  · rw [start, hconf', initLocal, registerLocalRegion, if_neg (by decide)]
    have hfresh : initLoop plain false smallDev (.new 6 4096) smallDev.size 4096 256 =
        .ok ((SalsaMD.new 6 4096).init ((SalsaMD.new 6 4096).defaultDevMd smallDev.size 4096 256),
          false) := by
      rw [initLoop, if_neg (by decide), hv']
      dsimp only
      rw [if_pos (by decide)]
      rfl
    exact ⟨_, initOn_ok hfresh rfl, rfl, rfl⟩

end UDepot.DeviceMd
