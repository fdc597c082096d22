import UDepot.SegQueues
import Mathlib.Logic.Function.Basic
import Mathlib.Logic.Relation

/-! The bins of the garbage collector (`gc-nbin.c`): a destaged segment waits in the bin of its
number of valid grains, or on a waiting list first, and moves when grains of it are invalidated.

The policies with three bins, with `n` bins and the three `XNP` ones that can be chosen are
modelled. The order inside a bin is not, and which segment the collector takes is left open. -/

namespace UDepot.Scm
open Function Option

inductive GcType where
  | salsa3bin
  | salsaNbin
  | nbinHeatSeg
  | nbinXnpHeatSeg
  | nbinXnpOvrwHeatSeg
  | nbinXnpIntrptSafe
  deriving DecidableEq, Repr

/-- `struct gc_parameters`, with the size and the number of segments. The bounds are those that
`gc_salsa_ctr` asserts and `check_sto_capacity_mgr_parameters` checks. -/
structure GcParameters where
  gc : GcType
  binNr : Nat
  xnpPct : Nat
  xnpHotPct : Nat
  segSize : Nat
  segNr : Nat
  binNr_pos : 0 < binNr
  segSize_pos : 0 < segSize
  segSize_lt : segSize < 2 ^ 31

def salsaMaxPrivateId : Nat := 2 ^ 8 - 1

/-- What marks a segment on a waiting list. -/
def xnpBinId : Nat := salsaMaxPrivateId - 2

/-- `MED_BIN_THRESHOLD` and `HIGH_BIN_THRESHOLD` are computed in the width of the variable they
are given. -/
def medBinThreshold (width segSize : Nat) : Nat := segSize * 120 % 2 ^ width / 400

def highBinThreshold (width segSize : Nat) : Nat := segSize * 180 % 2 ^ width / 400

def threeBin (width segSize validNr : Nat) : Nat :=
  let nfree := segSize - validNr
  if nfree < medBinThreshold width segSize then 0
  else if nfree < highBinThreshold width segSize then 1
  else 2

def gcSalsaBinDiv (segSize binNr : Nat) : Nat :=
  segSize / binNr + if segSize % binNr ≠ 0 then 1 else 0

/-- The places where a bin is computed. -/
inductive BinSite where
  | destage
  | invalidate
  | pop
  | cherryPick
  | tryPop
  | failedReloc
  deriving DecidableEq, Repr

namespace GcParameters

variable (p : GcParameters)

/-- The number of bins that `gc_salsa_ctr` goes on with. -/
def bins : Nat :=
  if p.segSize < p.binNr ∨ salsaMaxPrivateId - 1 < p.binNr then
    min p.segSize (salsaMaxPrivateId - 2)
  else p.binNr

/-- `gc->bin_nr`. -/
def gcBinNr : Nat := if p.gc = .salsa3bin then 3 else p.bins + 1

/-- `gc->bin_div`. -/
def binDiv : Nat := if p.gc = .salsa3bin then 1 else gcSalsaBinDiv p.segSize p.bins

/-- `gc->xnp_levels`. -/
def xnpLevels : Nat :=
  match p.gc with
  | .salsa3bin | .salsaNbin | .nbinHeatSeg => 0
  | .nbinXnpHeatSeg | .nbinXnpOvrwHeatSeg | .nbinXnpIntrptSafe =>
    if min p.xnpHotPct 30 = 0 then 1 else 2

/-- `gc->xnp_thr`. Three segments are not counted, one kept for relocation and two of the
stream. -/
def xnpThr (lvl : Nat) : Nat :=
  let pct := min (if lvl = 0 then p.xnpPct else p.xnpHotPct) 30
  let thr := (p.segNr + (2 ^ 64 - 3)) % 2 ^ 64 * pct % 2 ^ 64 / 100 % 2 ^ 32
  if 1 < thr then thr else 2

def xnpLvl (stream : Nat) : Nat := if stream < p.xnpLevels then stream else p.xnpLevels - 1

def divBin (validNr : Nat) : Nat := validNr / p.binDiv

/-- `gc_salsa_n_seg2bin`. -/
def seg2bin (validNr : Nat) : Nat :=
  if p.segSize = validNr then p.gcBinNr - 1 else validNr / p.binDiv

/-- The formula at each place. In `gc_salsa_seg_destaged` the segment size is 32 bits wide, in
`gc_salsa_return_failed_reloc_seg` 64. -/
def binAt (site : BinSite) : Nat → Nat :=
  match p.gc, site with
  | .salsa3bin, .failedReloc => threeBin 64 p.segSize
  | .salsa3bin, _ => threeBin 32 p.segSize
  | .nbinXnpOvrwHeatSeg, .tryPop | .nbinXnpOvrwHeatSeg, .failedReloc => p.divBin
  | .nbinXnpOvrwHeatSeg, _ => p.seg2bin
  | .nbinXnpIntrptSafe, .cherryPick => p.seg2bin
  | _, _ => p.divBin

/-- The bin of the policy is the one a segment is destaged to. -/
def policyBin : Nat → Nat := p.binAt .destage

end GcParameters

/-- The segments, `gc->xnp_wait` and `gc->seg_bmap`. -/
structure GcState where
  seg : Nat → Seg
  xnpWait : Nat → List Nat
  segBmap : Nat → Bool

namespace GcState

variable (p : GcParameters) (s : GcState)

def setSeg (i : Nat) (x : Seg) : GcState := { s with seg := update s.seg i x }

def setWait (lvl : Nat) (l : List Nat) : GcState :=
  { s with xnpWait := update s.xnpWait lvl l }

def validNr (i : Nat) : Nat := (s.seg i).validNr

/-- `segment_putn`. -/
def putn (i n : Nat) : GcState := s.setSeg i { s.seg i with validNr := s.validNr i - n }

/-- `gc_salsa_n_segment_add_to_bin`. -/
def addToBin (i bin : Nat) : GcState := s.setSeg i { s.seg i with priv := bin }

/-- The same, followed by `gc_salsa_n_segment_locks_activate`. -/
def insert (i bin : Nat) : GcState := s.setSeg i { s.seg i with priv := bin, state := .gc }

/-- `gc_recycle_seg_on_zero_valid_pages`: the segment is free again. -/
def recycle (i : Nat) : GcState :=
  s.setSeg i { (s.seg i).reset p.segSize with state := .free }

def popInto (site : BinSite) : Option Nat → GcState
  | none => s
  | some j => s.insert j (p.binAt site (s.validNr j))

/-- `gc_xnp_pushone_popone`, and what its callers do with the segment that is popped. -/
def pushonePopone (i : Nat) : GcState :=
  let lvl := p.xnpLvl (s.seg i).stream
  let lst := s.xnpWait lvl ++ [i]
  let x := { s.seg i with state := .gcXnp, priv := xnpBinId }
  if p.xnpThr lvl ≤ lst.length then
    ((s.setWait lvl lst.tail).setSeg i x).popInto p .pop lst.head?
  else (s.setWait lvl lst).setSeg i x

/-- `seg_write` and `seg_relocate` of the policies. -/
def segDestaged (i : Nat) : GcState :=
  let validNr := s.validNr i
  let bin := p.binAt .destage validNr
  match p.gc with
  | .salsa3bin => s.insert i bin
  | .salsaNbin | .nbinHeatSeg => if validNr = 0 then s.recycle p i else s.insert i bin
  | .nbinXnpHeatSeg | .nbinXnpIntrptSafe =>
    if validNr = 0 then s.recycle p i
    else if !(s.seg i).isReloc then s.pushonePopone p i
    else s.insert i bin
  | .nbinXnpOvrwHeatSeg =>
    if validNr = 0 then s.recycle p i
    else if p.segSize = validNr then s.insert i bin
    else s.pushonePopone p i

def rebin (i : Nat) : GcState :=
  let newbin := p.binAt .invalidate (s.validNr i)
  if newbin ≠ (s.seg i).priv then s.addToBin i newbin else s

/-- `gc_salsa_n_page_invalidate_common`. -/
def pageInvalidateCommon (i : Nat) : GcState :=
  if (s.seg i).state ≠ .gc then s
  else if s.validNr i = 0 then s.recycle p i
  else s.rebin p i

/-- `gc_salsa_page_invalidate` after the grains were subtracted. -/
def pageInvalidate3 (i : Nat) : GcState :=
  let nfree := p.segSize - s.validNr i
  if (s.seg i).state ≠ .gc then s
  else if s.validNr i = 0 then s.recycle p i
  else if medBinThreshold 32 p.segSize = nfree then s.addToBin i 1
  else if highBinThreshold 32 p.segSize = nfree then s.addToBin i 2
  else s

def cherryPickThr : Nat := p.segSize * 10 / 100

/-- `gc_salsa_n_xnp_try_cherry_pick`; `none` is `ENOENT`. -/
def tryCherryPick (i : Nat) : Option GcState :=
  let lvl := p.xnpLvl (s.seg i).stream
  if ¬ (s.validNr i < cherryPickThr p ∧ xnpBinId = (s.seg i).priv) then none
  else if i ∉ s.xnpWait lvl then none
  else
    let s1 := s.setWait lvl ((s.xnpWait lvl).erase i)
    if s.validNr i = 0 then some (s1.recycle p i)
    else some (s1.insert i (p.binAt .cherryPick (s.validNr i)))

/-- `gc_salsa_n_xnp_ovrw_page_invalidate` after the grains were subtracted. -/
def pageInvalidateOvrw (i : Nat) : GcState :=
  match s.tryCherryPick p i with
  | some s1 => s1
  | none =>
    if (s.seg i).state ≠ .gc then s
    else if s.validNr i = 0 then s.recycle p i
    else if p.segSize - 1 = s.validNr i then s.pushonePopone p i
    else s.rebin p i

/-- `page_invalidate` of the policies. -/
def pageInvalidate (i n : Nat) : GcState :=
  let s1 := s.putn i n
  match p.gc with
  | .salsa3bin => s1.pageInvalidate3 p i
  | .salsaNbin | .nbinHeatSeg | .nbinXnpHeatSeg => s1.pageInvalidateCommon p i
  | .nbinXnpOvrwHeatSeg => s1.pageInvalidateOvrw p i
  | .nbinXnpIntrptSafe => { s1 with segBmap := update s1.segBmap i true }

/-- `gc_salsa_n_xnp_intrpt_safe_update_segs` for one segment. -/
def updateSeg (i : Nat) : GcState :=
  let s1 := { s with segBmap := update s.segBmap i false }
  match s1.tryCherryPick p i with
  | some s2 => s2
  | none => s1.pageInvalidateCommon p i

/-- `gc_salsa_n_xnp_try_pop_one`. -/
def tryPopOne : GcState :=
  match (List.range p.xnpLevels).find? fun lvl => !(s.xnpWait lvl).isEmpty with
  | none => s
  | some lvl =>
    (s.setWait lvl (s.xnpWait lvl).tail).popInto p .tryPop (s.xnpWait lvl).head?

/-- `gc_salsa_return_failed_reloc_seg` and `gc_salsa_n_return_failed_reloc_seg`. -/
def returnFailedRelocSeg (i : Nat) : GcState := s.insert i (p.binAt .failedReloc (s.validNr i))

/-- Before the first segment is taken. -/
def init : GcState :=
  ⟨fun _ => { Seg.zero.reset p.segSize with state := .free }, fun _ => [], fun _ => false⟩

inductive Act where
  | allocate (i : Nat) (isReloc : Bool) (stream : Nat)
  | segDestaged (i : Nat)
  | pageInvalidate (i n : Nat)
  | pageInvalidateReloc (i n : Nat)
  | updateSeg (i : Nat)
  | select (i : Nat)
  | returnFailedRelocSeg (i : Nat)
  | released (i : Nat)
  | tryPopOne
  deriving DecidableEq, Repr

/-- One call. No more grains are invalidated than are valid, which is checked, and relocation
invalidates grains of the segment it has taken out of its bin, or of one not yet destaged. -/
def step : Act → Option GcState
  | .allocate i isReloc stream =>
    if (s.seg i).state = .free then
      some (s.setSeg i { s.seg i with
        isReloc := isReloc, stream := stream, state := .lsaAllocator })
    else none
  | .segDestaged i =>
    if (s.seg i).state = .lsaAllocator then some (s.segDestaged p i) else none
  | .pageInvalidate i n =>
    -- the second condition is an assertion of `gc_salsa_page_invalidate`
    if n ≤ s.validNr i ∧ (p.gc = .salsa3bin → s.validNr i - n < p.segSize) then
      some (s.pageInvalidate p i n)
    else none
  | .pageInvalidateReloc i n =>
    if n ≤ s.validNr i ∧ (s.seg i).state ≠ .gc ∧ (s.seg i).state ≠ .gcXnp then some (s.putn i n)
    else none
  | .updateSeg i =>
    if p.gc = .nbinXnpIntrptSafe ∧ s.segBmap i = true then some (s.updateSeg p i) else none
  | .select i =>
    if (s.seg i).state = .gc then some (s.setSeg i { s.seg i with state := .invalid }) else none
  | .returnFailedRelocSeg i =>
    if (s.seg i).state = .invalid then some (s.returnFailedRelocSeg p i) else none
  | .released i =>
    if (s.seg i).state = .invalid ∧ s.validNr i = 0 then some (s.recycle p i) else none
  | .tryPopOne => some (s.tryPopOne p)

def Reach (s : GcState) : Prop :=
  Relation.ReflTransGen (fun s s' => ∃ act, step p s act = some s') (init p) s

/-- A segment in a bin, with no update of it left to make, is in the bin of the policy. -/
def Reflects : Prop :=
  ∀ i, (s.seg i).state = .gc → s.segBmap i = false →
    (s.seg i).priv = p.policyBin (s.validNr i) ∧ (s.seg i).priv < p.gcBinNr ∧
      (s.seg i).priv ≠ xnpBinId

end GcState

namespace GcParameters

variable (p : GcParameters)

/-- In every run the bins reflect the valid grains, and every formula of the policy gives the
same bin. -/
def BinsReflect : Prop :=
  (∀ s, GcState.Reach p s → s.Reflects p) ∧
    ∀ site validNr, validNr ≤ p.segSize → p.binAt site validNr = p.policyBin validNr

/-- Three bins reflect only the smallest segments. Otherwise no segment may have 253 whole bins,
and where the last bin is kept for full segments the others have to fill the segment. -/
def Reflecting : Prop :=
  match p.gc with
  | .salsa3bin => p.segSize ≤ 2
  | .salsaNbin | .nbinHeatSeg | .nbinXnpHeatSeg => p.segSize < xnpBinId * p.binDiv
  | .nbinXnpOvrwHeatSeg | .nbinXnpIntrptSafe => p.bins ∣ p.segSize ∧ p.bins < xnpBinId

/-! ## The formulas -/

section Formulas

variable {p : GcParameters} {v : Nat}

theorem bins_pos : 0 < p.bins := by
  have h1 := p.binNr_pos
  have h2 := p.segSize_pos
  rw [bins]
  split
  · exact Nat.lt_min.mpr ⟨h2, by decide⟩
  · exact h1

theorem bins_le : p.bins ≤ p.segSize ∧ p.bins ≤ salsaMaxPrivateId - 1 := by
  rw [bins]
  split
  · exact ⟨Nat.min_le_left _ _, (Nat.min_le_right _ _).trans (by decide)⟩
  · rename_i h
    rw [not_or] at h
    exact ⟨Nat.not_lt.mp h.1, Nat.not_lt.mp h.2⟩

variable {segSize : Nat}

theorem le_mul_gcSalsaBinDiv {binNr : Nat} (hb : 0 < binNr) :
    segSize ≤ gcSalsaBinDiv segSize binNr * binNr := by
  have h := Nat.div_add_mod segSize binNr
  have hlt := Nat.mod_lt segSize hb
  rw [gcSalsaBinDiv, Nat.add_mul, Nat.mul_comm (segSize / binNr)]
  split
  · rw [Nat.one_mul]
    omega
  · rename_i h0
    have h0 := Decidable.not_not.mp h0
    omega

theorem gcSalsaBinDiv_mul_eq_iff {binNr : Nat} :
    gcSalsaBinDiv segSize binNr * binNr = segSize ↔ binNr ∣ segSize := by
  constructor
  · intro h
    exact ⟨_, by rw [Nat.mul_comm, h]⟩
  · intro h
    rw [gcSalsaBinDiv, if_neg (by simpa using Nat.mod_eq_zero_of_dvd h), Nat.add_zero]
    exact Nat.div_mul_cancel h

theorem binDiv_eq (h : p.gc ≠ .salsa3bin) : p.binDiv = gcSalsaBinDiv p.segSize p.bins := by
  rw [binDiv, if_neg h]

theorem gcBinNr_eq (h : p.gc ≠ .salsa3bin) : p.gcBinNr = p.bins + 1 := by
  rw [gcBinNr, if_neg h]

theorem segSize_le_mul (h : p.gc ≠ .salsa3bin) : p.segSize ≤ p.binDiv * p.bins := by
  rw [binDiv_eq h]
  exact le_mul_gcSalsaBinDiv bins_pos

theorem binDiv_pos (h : p.gc ≠ .salsa3bin) : 0 < p.binDiv := by
  have hle := segSize_le_mul h
  have hpos := p.segSize_pos
  exact Nat.pos_of_mul_pos_right (hpos.trans_le hle)

theorem divBin_le_bins (h : p.gc ≠ .salsa3bin) (hv : v ≤ p.segSize) : p.divBin v ≤ p.bins :=
  Nat.div_le_of_le_mul (hv.trans (segSize_le_mul h))

theorem divBin_segSize_iff (h : p.gc ≠ .salsa3bin) :
    p.divBin p.segSize = p.bins ↔ p.bins ∣ p.segSize := by
  have hle := segSize_le_mul h
  rw [← gcSalsaBinDiv_mul_eq_iff, ← binDiv_eq h]
  constructor
  · intro heq
    have hback := Nat.div_mul_le_self p.segSize p.binDiv
    rw [divBin] at heq
    rw [heq, Nat.mul_comm] at hback
    exact Nat.le_antisymm hback hle
  · intro heq
    rw [divBin]
    conv_lhs => rw [← heq]
    exact Nat.mul_div_cancel_left _ (binDiv_pos h)

/-- The bin kept for full segments is where the other formula puts them when the bins fill the
segment. -/
theorem seg2bin_eq_divBin_iff (h : p.gc ≠ .salsa3bin) :
    (∀ v, v ≤ p.segSize → p.seg2bin v = p.divBin v) ↔ p.bins ∣ p.segSize := by
  rw [← divBin_segSize_iff h]
  constructor
  · intro heq
    have := heq p.segSize (Nat.le_refl _)
    rw [seg2bin, if_pos rfl, gcBinNr_eq h] at this
    exact this.symm
  · intro heq v _
    rw [seg2bin]
    split
    · rename_i hfull
      rw [gcBinNr_eq h, ← hfull, heq]
      rfl
    · rfl

theorem medBinThreshold_le (width segSize : Nat) :
    medBinThreshold width segSize * 400 ≤ segSize * 120 :=
  (Nat.div_mul_le_self _ _).trans (Nat.mod_le _ _)

theorem highBinThreshold_le (width segSize : Nat) :
    highBinThreshold width segSize * 400 ≤ segSize * 180 :=
  (Nat.div_mul_le_self _ _).trans (Nat.mod_le _ _)

theorem thresholds_small (h : segSize ≤ 2) (width : Nat) :
    medBinThreshold width segSize = 0 ∧ highBinThreshold width segSize = 0 := by
  have hmed := medBinThreshold_le width segSize
  have hhigh := highBinThreshold_le width segSize
  omega

theorem threeBin_small (h : segSize ≤ 2) (width : Nat) : threeBin width segSize v = 2 := by
  obtain ⟨hmed, hhigh⟩ := thresholds_small h width
  rw [threeBin, hmed, hhigh]
  rfl

theorem binAt_cases (h : p.gc ≠ .salsa3bin) (site : BinSite) : p.binAt site = p.divBin ∨
    p.binAt site = p.seg2bin ∧ (p.gc = .nbinXnpOvrwHeatSeg ∨ p.gc = .nbinXnpIntrptSafe) := by
  unfold binAt
  split <;> simp_all

/-- With one formula at all places, a policy of `n` bins agrees with itself. -/
theorem binAt_eq_divBin (h : p.gc ≠ .salsa3bin)
    (heq : p.gc = .nbinXnpOvrwHeatSeg ∨ p.gc = .nbinXnpIntrptSafe → p.bins ∣ p.segSize)
    (site : BinSite) (hv : v ≤ p.segSize) : p.binAt site v = p.divBin v := by
  rcases binAt_cases h site with hs | ⟨hs, hg⟩
  · rw [hs]
  · rw [hs, (seg2bin_eq_divBin_iff h).mpr (heq hg) v hv]

theorem Reflecting.divides (h : p.Reflecting)
    (hg : p.gc = .nbinXnpOvrwHeatSeg ∨ p.gc = .nbinXnpIntrptSafe) : p.bins ∣ p.segSize := by
  rcases hg with hg | hg
  all_goals
    rw [Reflecting, hg] at h
    exact h.1

theorem Reflecting.small (h : p.Reflecting) (hg : p.gc = .salsa3bin) : p.segSize ≤ 2 := by
  rw [Reflecting, hg] at h
  exact h

theorem Reflecting.lt_mul (h : p.Reflecting) (hg : p.gc ≠ .salsa3bin) :
    p.segSize < xnpBinId * p.binDiv := by
  have hmul : p.bins < xnpBinId → p.segSize < xnpBinId * p.binDiv := by
    intro hb
    have hle := segSize_le_mul hg
    rw [Nat.mul_comm] at hle
    exact hle.trans_lt (Nat.mul_lt_mul_of_pos_right hb (binDiv_pos hg))
  revert h
  fun_cases Reflecting p with
  | case1 => contradiction
  | case2 | case3 | case4 => exact id
  | case5 | case6 => exact fun h => hmul h.2

theorem binAt_three (hg : p.gc = .salsa3bin) (h : p.segSize ≤ 2) (site : BinSite) :
    p.binAt site v = 2 := by
  cases site
  all_goals
    simp only [binAt, hg]
    exact threeBin_small h _

theorem Reflecting.binAt_eq (h : p.Reflecting) (site : BinSite) (hv : v ≤ p.segSize) :
    p.binAt site v = p.policyBin v := by
  by_cases hg : p.gc = .salsa3bin
  · have h2 := binAt_three (v := v) hg (h.small hg)
    rw [policyBin, h2 site, h2]
  · rw [policyBin, binAt_eq_divBin hg h.divides site hv,
      binAt_eq_divBin hg h.divides .destage hv]

theorem Reflecting.policyBin_ok (h : p.Reflecting) (hv : v ≤ p.segSize) :
    p.policyBin v < p.gcBinNr ∧ p.policyBin v ≠ xnpBinId := by
  by_cases hg : p.gc = .salsa3bin
  · have h2 : p.policyBin v = 2 := binAt_three hg (h.small hg) .destage
    rw [h2, gcBinNr, if_pos hg]
    decide
  · have hlt := (hv.trans_lt (h.lt_mul hg))
    rw [Nat.mul_comm] at hlt
    rw [policyBin, binAt_eq_divBin hg h.divides .destage hv, gcBinNr_eq hg]
    exact ⟨Nat.lt_succ_of_le (divBin_le_bins hg hv), (Nat.div_lt_of_lt_mul hlt).ne⟩

end Formulas

end GcParameters

/-! ## What a call does -/

namespace GcState

variable {p : GcParameters} {s s' : GcState} {i n : Nat} {x : Seg}

def SegOk (p : GcParameters) (dirty : Bool) (x : Seg) : Prop :=
  x.validNr ≤ p.segSize ∧ (x.state = .gc → dirty = false → x.priv = p.policyBin x.validNr)

def Inv (p : GcParameters) (s : GcState) : Prop := ∀ i, SegOk p (s.segBmap i) (s.seg i)

/-- All is in order but perhaps the bin of `i`. -/
structure Near (p : GcParameters) (s : GcState) (i : Nat) : Prop where
  others : ∀ j, j ≠ i → SegOk p (s.segBmap j) (s.seg j)
  le : s.validNr i ≤ p.segSize

theorem Inv.near (h : Inv p s) (i : Nat) : Near p s i := ⟨fun j _ => h j, (h i).1⟩

theorem Near.inv (h : Near p s i) (hi : SegOk p (s.segBmap i) (s.seg i)) : Inv p s := fun j => by
  by_cases hj : j = i
  · rw [hj]
    exact hi
  · exact h.others j hj

theorem Near.of_not_gc (h : Near p s i) (hi : (s.seg i).state ≠ .gc) : Inv p s :=
  h.inv ⟨h.le, fun hgc => absurd hgc hi⟩

theorem Inv.setWait (h : Inv p s) (lvl : Nat) (l : List Nat) : Inv p (s.setWait lvl l) :=
  fun j => h j

theorem Near.setWait (h : Near p s i) (lvl : Nat) (l : List Nat) : Near p (s.setWait lvl l) i :=
  ⟨h.others, h.le⟩

theorem Near.set (h : Near p s i) (hx : x.validNr ≤ p.segSize) : Near p (s.setSeg i x) i := by
  refine ⟨fun j hj => ?_, ?_⟩
  · change SegOk p (s.segBmap j) (update s.seg i x j)
    rw [update_of_ne hj]
    exact h.others j hj
  · change (update s.seg i x i).validNr ≤ _
    rw [update_self]
    exact hx

theorem Near.setSeg (h : Near p s i) (hx : SegOk p (s.segBmap i) x) : Inv p (s.setSeg i x) := by
  refine (h.set hx.1).inv ?_
  change SegOk p (s.segBmap i) (update s.seg i x i)
  rw [update_self]
  exact hx

theorem Near.recycle (h : Near p s i) : Inv p (s.recycle p i) :=
  h.setSeg ⟨Nat.le_refl _, nofun⟩

section Reflecting

variable (hp : p.Reflecting)
include hp

theorem Near.insert (h : Near p s i) (site : BinSite) :
    Inv p (s.insert i (p.binAt site (s.validNr i))) :=
  h.setSeg ⟨h.le, fun _ _ => hp.binAt_eq site h.le⟩

theorem Near.addToBin (h : Near p s i) (site : BinSite) :
    Inv p (s.addToBin i (p.binAt site (s.validNr i))) :=
  h.setSeg ⟨h.le, fun _ _ => hp.binAt_eq site h.le⟩

theorem Inv.popInto (h : Inv p s) (site : BinSite) (o : Option Nat) :
    Inv p (s.popInto p site o) := by
  cases o with
  | none => exact h
  | some j => exact (h.near j).insert hp site

theorem Near.pushonePopone (h : Near p s i) : Inv p (s.pushonePopone p i) := by
  have hok : SegOk p (s.segBmap i) { s.seg i with state := .gcXnp, priv := xnpBinId } :=
    ⟨h.le, nofun⟩
  unfold GcState.pushonePopone
  dsimp only
  split
  · exact Inv.popInto hp ((h.setWait _ _).setSeg hok) _ _
  · exact (h.setWait _ _).setSeg hok

theorem Near.rebin (h : Near p s i) : Inv p (s.rebin p i) := by
  unfold GcState.rebin
  dsimp only
  split
  · exact h.addToBin hp .invalidate
  · rename_i hsame
    refine h.inv ⟨h.le, fun _ _ => ?_⟩
    rw [← Decidable.not_not.mp hsame]
    exact hp.binAt_eq .invalidate h.le

theorem Near.pageInvalidateCommon (h : Near p s i) : Inv p (s.pageInvalidateCommon p i) := by
  unfold GcState.pageInvalidateCommon
  split
  · exact h.of_not_gc ‹_›
  split
  · exact h.recycle
  · exact h.rebin hp

theorem Near.tryCherryPick (h : Near p s i) (hs : s.tryCherryPick p i = some s') : Inv p s' := by
  revert hs
  fun_cases GcState.tryCherryPick p s i with
  | case3 =>
    rintro ⟨⟩
    exact (h.setWait _ _).recycle
  | case4 =>
    rintro ⟨⟩
    exact (h.setWait _ _).insert hp .cherryPick
  | _ => rintro ⟨⟩

theorem Near.pageInvalidateOvrw (h : Near p s i) : Inv p (s.pageInvalidateOvrw p i) := by
  fun_cases GcState.pageInvalidateOvrw p s i with
  | case1 s1 hs => exact h.tryCherryPick hp hs
  | case2 _ hgc => exact h.of_not_gc hgc
  | case3 => exact h.recycle
  | case4 => exact h.pushonePopone hp
  | case5 => exact h.rebin hp

/-- The segments of three bins are all in the last one. -/
theorem Inv.pageInvalidate3 (h : Inv p s) (hg : p.gc = .salsa3bin)
    (hlt : s.validNr i - n < p.segSize) : Inv p ((s.putn i n).pageInvalidate3 p i) := by
  have hsmall := hp.small hg
  have h2 : ∀ v, p.policyBin v = 2 := fun v => GcParameters.binAt_three hg hsmall .destage
  have hnear : Near p (s.putn i n) i := (h.near i).set ((Nat.sub_le _ _).trans (h i).1)
  have hseg : (s.putn i n).seg i = { s.seg i with validNr := s.validNr i - n } :=
    update_self _ _ _
  obtain ⟨hmed, hhigh⟩ := GcParameters.thresholds_small hsmall 32
  have hv : (s.putn i n).validNr i = s.validNr i - n := by rw [validNr, hseg]
  unfold GcState.pageInvalidate3
  dsimp only
  split
  · exact hnear.of_not_gc ‹_›
  split
  · exact hnear.recycle
  · -- some grain is not valid, so neither threshold is hit
    rw [hmed, hhigh, hv, if_neg (by omega), if_neg (by omega)]
    refine hnear.inv ⟨hnear.le, fun hgc hd => ?_⟩
    rw [hseg] at hgc ⊢
    rw [h2]
    have hold := (h i).2 hgc hd
    rwa [h2] at hold

theorem Inv.pageInvalidate (h : Inv p s) (hlt : p.gc = .salsa3bin → s.validNr i - n < p.segSize) :
    Inv p (s.pageInvalidate p i n) := by
  have hnear : Near p (s.putn i n) i := (h.near i).set ((Nat.sub_le _ _).trans (h i).1)
  unfold GcState.pageInvalidate
  dsimp only
  split
  · exact h.pageInvalidate3 hp ‹_› (hlt ‹_›)
  · exact hnear.pageInvalidateCommon hp
  · exact hnear.pageInvalidateCommon hp
  · exact hnear.pageInvalidateCommon hp
  · exact hnear.pageInvalidateOvrw hp
  · -- the update is left to `update_segs`
    intro j
    by_cases hj : j = i
    · subst hj
      refine ⟨hnear.le, fun _ hd => ?_⟩
      simp only [update_self, Bool.true_eq_false] at hd
    · have hother := hnear.others j hj
      dsimp only
      rwa [update_of_ne hj]

theorem Near.updateSeg (h : Near p s i) : Inv p (s.updateSeg p i) := by
  have hnear : Near p { s with segBmap := update s.segBmap i false } i := by
    refine ⟨fun j hj => ?_, h.le⟩
    dsimp only
    rw [update_of_ne hj]
    exact h.others j hj
  unfold GcState.updateSeg
  dsimp only
  split
  · exact hnear.tryCherryPick hp ‹_›
  · exact hnear.pageInvalidateCommon hp

theorem Near.segDestaged (h : Near p s i) : Inv p (s.segDestaged p i) := by
  fun_cases GcState.segDestaged p s i with
  | case2 | case4 | case6 | case9 | case12 => exact h.recycle
  | case7 | case10 | case14 => exact h.pushonePopone hp
  | _ => exact h.insert hp .destage

theorem Inv.tryPopOne (h : Inv p s) : Inv p (s.tryPopOne p) := by
  unfold GcState.tryPopOne
  split
  · exact h
  · exact (h.setWait _ _).popInto hp _ _

theorem Inv.step {act : Act} (h : Inv p s) (hs : s.step p act = some s') : Inv p s' := by
  revert hs
  fun_cases GcState.step p s act with
  | case1 i | case11 i =>
    rintro ⟨⟩
    exact (h.near i).setSeg ⟨(h i).1, nofun⟩
  | case3 i =>
    rintro ⟨⟩
    exact (h.near i).segDestaged hp
  | case5 i n hc =>
    rintro ⟨⟩
    exact h.pageInvalidate hp hc.2
  | case7 i n hc =>
    rintro ⟨⟩
    exact (h.near i).setSeg ⟨(Nat.sub_le _ _).trans (h i).1, fun hgc => absurd hgc hc.2.1⟩
  | case9 i =>
    rintro ⟨⟩
    exact (h.near i).updateSeg hp
  | case13 i =>
    rintro ⟨⟩
    exact (h.near i).insert hp .failedReloc
  | case15 i =>
    rintro ⟨⟩
    exact (h.near i).recycle
  | case17 =>
    rintro ⟨⟩
    exact h.tryPopOne hp
  | _ => rintro ⟨⟩

theorem Reach.inv (h : Reach p s) : Inv p s := by
  induction h with
  | refl => exact fun i => ⟨Nat.le_refl _, nofun⟩
  | tail _ hstep ih =>
    obtain ⟨act, hs⟩ := hstep
    exact ih.step hp hs

theorem Inv.reflects (h : Inv p s) : s.Reflects p := by
  intro i hgc hd
  have heq := (h i).2 hgc hd
  rw [heq]
  exact ⟨rfl, hp.policyBin_ok (h i).1⟩

end Reflecting

/-! ## Runs with one segment -/

def one (p : GcParameters) (x : Seg) : GcState := (init p).setSeg 0 x

@[simp] theorem one_seg : (one p x).seg 0 = x := by
  change update (init p).seg 0 x 0 = x
  exact update_self _ _ _

@[simp] theorem one_validNr : (one p x).validNr 0 = x.validNr := by rw [validNr, one_seg]

@[simp] theorem one_setSeg {y : Seg} : (one p x).setSeg 0 y = one p y := by
  simp only [one, setSeg, update_idem]

theorem Reach.step (h : Reach p s) (act : Act) (hs : s.step p act = some s') : Reach p s' :=
  Relation.ReflTransGen.tail h ⟨act, hs⟩

/-- A segment for relocated grains, of which `v` are still valid. -/
def filled (p : GcParameters) (v : Nat) : Seg :=
  { Seg.zero.reset p.segSize with isReloc := true, state := .lsaAllocator, validNr := v }

def binned (p : GcParameters) (v bin : Nat) : Seg :=
  { filled p v with priv := bin, state := .gc }

variable {v : Nat}

theorem reach_filled (hv : v ≤ p.segSize) : Reach p (one p (filled p v)) := by
  have h1 : Reach p (one p (filled p p.segSize)) :=
    Relation.ReflTransGen.single ⟨.allocate 0 true 0, rfl⟩
  refine h1.step (.pageInvalidateReloc 0 (p.segSize - v)) ?_
  have hguard : p.segSize - v ≤ (one p (filled p p.segSize)).validNr 0 ∧
      ((one p (filled p p.segSize)).seg 0).state ≠ .gc ∧
      ((one p (filled p p.segSize)).seg 0).state ≠ .gcXnp := by
    rw [one_validNr, one_seg]
    exact ⟨Nat.sub_le _ _, nofun, nofun⟩
  rw [GcState.step, if_pos hguard, putn, one_validNr, one_seg, one_setSeg]
  simp only [filled, Nat.sub_sub_self hv]

theorem reach_destaged (hv : v ≤ p.segSize) : Reach p ((one p (filled p v)).segDestaged p 0) := by
  refine (reach_filled hv).step (.segDestaged 0) ?_
  rw [GcState.step, if_pos (by rw [one_seg]; rfl)]

theorem Reflects.one (h : (one p x).Reflects p) (hgc : x.state = .gc) :
    x.priv = p.policyBin x.validNr ∧ x.priv < p.gcBinNr ∧ x.priv ≠ xnpBinId := by
  have := h 0 (by rw [one_seg]; exact hgc) rfl
  rwa [one_seg, one_validNr] at this

theorem segDestaged_filled (hv : v ≠ 0) (hfull : p.gc = .nbinXnpOvrwHeatSeg → v = p.segSize) :
    (one p (filled p v)).segDestaged p 0 =
      one p (binned p v (p.policyBin v)) := by
  have hins : (one p (filled p v)).insert 0 (p.binAt .destage v) =
      one p (binned p v (p.policyBin v)) := by
    rw [insert, one_setSeg, one_seg]
    rfl
  have hvalid : (filled p v).validNr = v := rfl
  have hreloc : (filled p v).isReloc = true := rfl
  cases hg : p.gc <;>
    simp [GcState.segDestaged, hg, hvalid, hreloc, hv, hins]
  exact fun hne => absurd (hfull hg).symm hne

theorem reach_binned (hv : v ≤ p.segSize) (h0 : v ≠ 0)
    (hfull : p.gc = .nbinXnpOvrwHeatSeg → v = p.segSize) :
    Reach p (one p (binned p v (p.policyBin v))) := by
  rw [← segDestaged_filled h0 hfull]
  exact reach_destaged hv

/-- A policy with 253 whole bins has a segment in the bin of the marker. -/
theorem marker_reached (hg : p.gc ≠ .salsa3bin) (hg' : p.gc ≠ .nbinXnpOvrwHeatSeg)
    (hpol : p.policyBin = p.divBin) (hle : xnpBinId * p.binDiv ≤ p.segSize) :
    ∃ s, Reach p s ∧ ¬ s.Reflects p := by
  have hpos := GcParameters.binDiv_pos hg
  have h0 : xnpBinId * p.binDiv ≠ 0 := (Nat.mul_pos (by decide) hpos).ne'
  refine ⟨_, reach_binned hle h0 fun h => absurd h hg', fun h => ?_⟩
  apply (h.one rfl).2.2
  rw [hpol]
  exact Nat.mul_div_cancel _ hpos

theorem two_le_xnpThr (lvl : Nat) : 2 ≤ p.xnpThr lvl := by
  have h : ∀ thr, 2 ≤ if 1 < thr then thr else 2 := by
    intro thr
    split <;> omega
  exact h _

theorem xnpLevels_pos (hg : p.gc = .nbinXnpOvrwHeatSeg) : 0 < p.xnpLevels := by
  simp only [GcParameters.xnpLevels, hg]
  split <;> decide

/-- A segment that is not full comes to its bin over the waiting list. -/
theorem reach_popped (hg : p.gc = .nbinXnpOvrwHeatSeg) (hv : v < p.segSize) (h0 : v ≠ 0) :
    ∃ s, Reach p s ∧ (s.seg 0).state = .gc ∧ (s.seg 0).priv = p.divBin v ∧
      s.segBmap 0 = false := by
  have hlvl : p.xnpLvl (filled p v).stream = 0 := if_pos (xnpLevels_pos hg)
  have hthr := two_le_xnpThr (p := p) 0
  -- it is the only one on the list, which is too short for a segment to be popped
  have hpush : (one p (filled p v)).segDestaged p 0 =
      ((one p (filled p v)).setWait 0 [0]).setSeg 0
        { filled p v with state := .gcXnp, priv := xnpBinId } := by
    simp only [GcState.segDestaged, hg, one_validNr]
    rw [if_neg (show ¬ (filled p v).validNr = 0 from h0),
      if_neg (show ¬ p.segSize = (filled p v).validNr from hv.ne')]
    simp only [GcState.pushonePopone, one_seg, hlvl]
    exact if_neg (Nat.not_le.mpr hthr)
  have hreach := reach_destaged (p := p) hv.le
  rw [hpush] at hreach
  refine ⟨_, hreach.step .tryPopOne rfl, ?_⟩
  have hfind : (List.range p.xnpLevels).find? (fun lvl => !((((one p (filled p v)).setWait 0
      [0]).setSeg 0 { filled p v with state := .gcXnp, priv := xnpBinId }).xnpWait lvl).isEmpty) =
      some 0 := by
    obtain ⟨n, hn⟩ := Nat.exists_eq_succ_of_ne_zero (xnpLevels_pos hg).ne'
    rw [hn, Nat.succ_eq_add_one, List.range_succ_eq_map]
    rfl
  unfold GcState.tryPopOne
  rw [hfind]
  have hsite : p.binAt .tryPop = p.divBin := by simp only [GcParameters.binAt, hg]
  exact ⟨rfl, congrFun hsite v, rfl⟩

theorem pageInvalidate_binned {bin : Nat} (hg : p.gc = .salsa3bin) (hn : n < p.segSize)
    (hmed : medBinThreshold 32 p.segSize ≠ n) (hhigh : highBinThreshold 32 p.segSize ≠ n) :
    (one p (binned p p.segSize bin)).pageInvalidate p 0 n =
      one p (binned p (p.segSize - n) bin) := by
  have hput : (one p (binned p p.segSize bin)).putn 0 n = one p (binned p (p.segSize - n) bin) := by
    rw [putn, one_validNr, one_seg, one_setSeg]
    rfl
  have hvalid : (binned p (p.segSize - n) bin).validNr = p.segSize - n := rfl
  have hnfree : p.segSize - (p.segSize - n) = n := Nat.sub_sub_self hn.le
  simp only [GcState.pageInvalidate, hg, hput, GcState.pageInvalidate3, one_seg, one_validNr,
    hvalid, hnfree]
  have hgc : ¬ (binned p (p.segSize - n) bin).state ≠ .gc := fun h => h rfl
  rw [if_neg hgc, if_neg (Nat.sub_pos_of_lt hn).ne', if_neg hmed, if_neg hhigh]

theorem reach_jumped (hg : p.gc = .salsa3bin) (h0 : 0 < n) (hn : n < p.segSize)
    (hmed : medBinThreshold 32 p.segSize ≠ n) (hhigh : highBinThreshold 32 p.segSize ≠ n) :
    Reach p (one p (binned p (p.segSize - n) (p.policyBin p.segSize))) := by
  have hpos := p.segSize_pos
  have hreach := reach_binned (p := p) (Nat.le_refl _) hpos.ne' fun _ => rfl
  refine hreach.step (.pageInvalidate 0 n) ?_
  rw [← pageInvalidate_binned hg hn hmed hhigh]
  refine if_pos ?_
  rw [one_validNr]
  exact ⟨hn.le, fun _ => Nat.sub_lt hpos h0⟩

theorem threeBin_sub (width : Nat) {segSize : Nat} (hn : n ≤ segSize) :
    threeBin width segSize (segSize - n) =
      if n < medBinThreshold width segSize then 0
      else if n < highBinThreshold width segSize then 1 else 2 := by
  rw [threeBin, Nat.sub_sub_self hn]

/-- With three grains or more a segment of three bins can skip a threshold, or a wrap has made
both zero where a segment is destaged. -/
theorem threshold_skipped (hg : p.gc = .salsa3bin) (h : 2 < p.segSize)
    (hagree : ∀ site v, v ≤ p.segSize → p.binAt site v = p.policyBin v) :
    ∃ s, Reach p s ∧ ¬ s.Reflects p := by
  have hmed := GcParameters.medBinThreshold_le 32 p.segSize
  have hhigh := GcParameters.highBinThreshold_le 32 p.segSize
  have hpol : p.policyBin = threeBin 32 p.segSize := by
    simp only [GcParameters.policyBin, GcParameters.binAt, hg]
  have hfull := threeBin_sub (n := 0) 32 (Nat.zero_le p.segSize)
  rw [Nat.sub_zero] at hfull
  have hskip : ∀ n, 0 < n → n < p.segSize → medBinThreshold 32 p.segSize ≠ n →
      highBinThreshold 32 p.segSize ≠ n →
      threeBin 32 p.segSize p.segSize ≠ threeBin 32 p.segSize (p.segSize - n) →
      ∃ s, Reach p s ∧ ¬ s.Reflects p := by
    intro n h0 hn h1 h2 hne
    refine ⟨_, reach_jumped hg h0 hn h1 h2, fun hr => hne ?_⟩
    have heq := (hr.one rfl).1
    rwa [hpol] at heq
  by_cases h1 : 0 < medBinThreshold 32 p.segSize
  · -- from the first bin over the first threshold, and not onto the second
    obtain ⟨n, hn, hlt, hne⟩ : ∃ n, medBinThreshold 32 p.segSize < n ∧ n < p.segSize ∧
        highBinThreshold 32 p.segSize ≠ n := by
      by_cases hh : highBinThreshold 32 p.segSize = medBinThreshold 32 p.segSize + 1
      · exact ⟨medBinThreshold 32 p.segSize + 2, by omega, by omega, by omega⟩
      · exact ⟨medBinThreshold 32 p.segSize + 1, by omega, by omega, hh⟩
    refine hskip n (by omega) hlt hn.ne hne ?_
    rw [hfull, if_pos h1, threeBin_sub _ hlt.le, if_neg (by omega)]
    split <;> decide
  by_cases h2 : 0 < highBinThreshold 32 p.segSize
  · -- from the second bin over the second threshold
    refine hskip (highBinThreshold 32 p.segSize + 1) (by omega) (by omega) (by omega) (by omega) ?_
    rw [hfull, if_neg h1, if_pos h2, threeBin_sub _ (by omega), if_neg (by omega),
      if_neg (by omega)]
    decide
  · -- a failed relocation computes in 64 bits
    have hlt := p.segSize_lt
    have hagree' := hagree .failedReloc p.segSize (Nat.le_refl _)
    have h64 : 0 < highBinThreshold 64 p.segSize := by
      rw [highBinThreshold, Nat.mod_eq_of_lt (by omega)]
      exact Nat.div_pos (by omega) (by decide)
    have hfull' := threeBin_sub (n := 0) 64 (Nat.zero_le p.segSize)
    rw [Nat.sub_zero, if_pos h64] at hfull'
    simp only [GcParameters.binAt, hg, hpol, hfull, hfull', if_neg h1, if_neg h2] at hagree'
    split at hagree' <;> omega

end GcState

namespace GcParameters

variable {p : GcParameters}

/-- Where a second formula is in use, the bins have to fill the segment. -/
theorem BinsReflect.divides (h : p.BinsReflect)
    (hg : p.gc = .nbinXnpOvrwHeatSeg ∨ p.gc = .nbinXnpIntrptSafe) : p.bins ∣ p.segSize := by
  have hne : p.gc ≠ .salsa3bin := by rcases hg with hg | hg <;> simp [hg]
  apply (seg2bin_eq_divBin_iff hne).mp
  intro v hv
  rcases hg with hg | hg
  · have := h.2 .tryPop v hv
    simp only [policyBin, binAt, hg] at this
    exact this.symm
  · have := h.2 .cherryPick v hv
    simpa only [policyBin, binAt, hg] using this

/-- The bins of full segments, or the last ones below, have the number of the marker. -/
theorem BinsReflect.bins_lt (h : p.BinsReflect) (hg : p.gc = .nbinXnpOvrwHeatSeg) :
    p.bins < xnpBinId := by
  have hne : p.gc ≠ .salsa3bin := by simp [hg]
  have hpos := binDiv_pos hne
  have hmul := gcSalsaBinDiv_mul_eq_iff.mpr (h.divides (.inl hg))
  rw [← binDiv_eq hne] at hmul
  have h254 := (bins_le (p := p)).2
  by_contra hlt
  have hcases : p.bins = xnpBinId ∨ p.bins = xnpBinId + 1 := by
    unfold xnpBinId salsaMaxPrivateId at *
    omega
  rcases hcases with hb | hb
  · -- a full segment is in the last bin
    have hr := h.1 _ (GcState.reach_binned (Nat.le_refl _) p.segSize_pos.ne' fun _ => rfl)
    apply (hr.one rfl).2.2
    change p.policyBin p.segSize = xnpBinId
    simp only [policyBin, binAt, hg, seg2bin, if_true, gcBinNr_eq hne, Nat.add_sub_cancel, hb]
  · rw [hb, Nat.mul_add, Nat.mul_one, Nat.mul_comm] at hmul
    have hlt : xnpBinId * p.binDiv < p.segSize := by omega
    have h0 : xnpBinId * p.binDiv ≠ 0 := (Nat.mul_pos (by decide) hpos).ne'
    obtain ⟨s, hreach, hgc, hpriv, hd⟩ := GcState.reach_popped hg hlt h0
    apply (h.1 s hreach 0 hgc hd).2.2
    rw [hpriv]
    exact Nat.mul_div_cancel _ hpos

theorem BinsReflect.lt_mul (h : p.BinsReflect) (hg : p.gc ≠ .salsa3bin)
    (hg' : p.gc ≠ .nbinXnpOvrwHeatSeg) : p.segSize < xnpBinId * p.binDiv := by
  have hpol : p.policyBin = p.divBin := by
    unfold policyBin binAt
    split <;> first | rfl | contradiction
  by_contra hle
  obtain ⟨s, hreach, hs⟩ := GcState.marker_reached hg hg' hpol (Nat.not_lt.mp hle)
  exact hs (h.1 s hreach)

/-- The bins reflect the valid grains in every run, and all formulas agree, for exactly these
sizes. -/
theorem binsReflect_iff (p : GcParameters) : p.BinsReflect ↔ p.Reflecting := by
  constructor
  · intro h
    fun_cases Reflecting p with
    | case1 hg =>
      by_contra hlt
      obtain ⟨s, hreach, hs⟩ := GcState.threshold_skipped hg (Nat.not_le.mp hlt) h.2
      exact hs (h.1 s hreach)
    | case2 hg | case3 hg | case4 hg => exact h.lt_mul (by simp [hg]) (by simp [hg])
    | case5 hg => exact ⟨h.divides (.inl hg), h.bins_lt hg⟩
    | case6 hg =>
      have hne : p.gc ≠ .salsa3bin := by simp [hg]
      have hdvd := h.divides (.inr hg)
      have hlt := h.lt_mul hne (by simp [hg])
      have hmul := gcSalsaBinDiv_mul_eq_iff.mpr hdvd
      rw [← binDiv_eq hne] at hmul
      rw [← hmul, Nat.mul_comm] at hlt
      exact ⟨hdvd, Nat.lt_of_mul_lt_mul_right hlt⟩
  · intro h
    exact ⟨fun s hreach => (GcState.Reach.inv h hreach).reflects h,
      fun site v hv => h.binAt_eq site hv⟩

/-- Three bins for segments of a hundred grains, with thresholds at 30 and 45 free ones. -/
def hundredGrains : GcParameters :=
  ⟨.salsa3bin, 3, 10, 0, 100, 1000, Nat.succ_pos 2, Nat.succ_pos 99, by decide⟩

/-- Half of a full segment is invalidated at once, and it stays in the bin of full ones. -/
theorem hundredGrains_stale :
    ∃ s1 s2 s3, (GcState.init hundredGrains).step hundredGrains (.allocate 0 false 0) = some s1 ∧
      s1.step hundredGrains (.segDestaged 0) = some s2 ∧
      s2.step hundredGrains (.pageInvalidate 0 50) = some s3 ∧
      (s3.seg 0).state = .gc ∧ (s3.seg 0).priv = 0 ∧ s3.validNr 0 = 50 ∧
      hundredGrains.policyBin 50 = 2 :=
  ⟨_, _, _, rfl, rfl, rfl, rfl, rfl, rfl, rfl⟩

end GcParameters

end UDepot.Scm
