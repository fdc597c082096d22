import UDepot.GrainLimit
import UDepot.CapacityPromise

/-! Where things lie on the device. The metadata of the device is put near its end, by its size and
the grain size; the capacity manager counts segments from the size that is left; the allocator
hands out grains from the front of a segment and leaves the last ones to its metadata, which finds
its segment by a division of its own. -/

namespace UDepot.Allocator
open Function

/-! ## Only the free segments are used -/

def Pc.segs (w : Pc) : List Nat := w.fresh ++ w.passing

/-- Every segment in use is one of `ps`. -/
structure Known (ps : List Nat) (s : State) : Prop where
  stage : ∀ a, ∀ p ∈ s.stage a, p ∈ ps
  done : ∀ a, ∀ p ∈ s.done a, p ∈ ps
  free : ∀ p ∈ s.free, p ∈ ps
  gc : ∀ p ∈ s.gc, p ∈ ps
  held : ∀ t, ∀ p ∈ (s.pc t).segs, p ∈ ps
  handed : ∀ p, (s.seg p).handed ≠ [] → p ∈ ps

namespace Known

variable {c : Ctlr} {ps : List Nat} {s s' : State} {t a p : Nat}

theorem setPc (k : Known ps s) {w : Pc} (hw : ∀ p ∈ w.segs, p ∈ ps) : Known ps (s.setPc t w) := by
  refine ⟨k.stage, k.done, k.free, k.gc, ?_, k.handed⟩
  exact (forall_update_iff s.pc fun _ w => ∀ p ∈ w.segs, p ∈ ps).mpr ⟨hw, fun u _ => k.held u⟩

theorem setPcNone (k : Known ps s) {w : Pc} (hw : w.segs = []) : Known ps (s.setPc t w) :=
  k.setPc (by simp [hw])

theorem setSeg (k : Known ps s) {x : Seg} (hx : x.handed ≠ [] → p ∈ ps) :
    Known ps (s.setSeg p x) := by
  refine ⟨k.stage, k.done, k.free, k.gc, k.held, ?_⟩
  exact (forall_update_iff s.seg fun q x => x.handed ≠ [] → q ∈ ps).mpr ⟨hx, fun q _ => k.handed q⟩

variable {l : List Nat}

theorem setStage (k : Known ps s) (hl : ∀ p ∈ l, p ∈ ps) : Known ps (s.setStage a l) := by
  refine ⟨?_, k.done, k.free, k.gc, k.held, k.handed⟩
  exact (forall_update_iff s.stage fun _ l => ∀ p ∈ l, p ∈ ps).mpr ⟨hl, fun b _ => k.stage b⟩

theorem setDone (k : Known ps s) (hl : ∀ p ∈ l, p ∈ ps) :
    Known ps { s with done := update s.done a l } := by
  refine ⟨k.stage, ?_, k.free, k.gc, k.held, k.handed⟩
  exact (forall_update_iff s.done fun _ l => ∀ p ∈ l, p ∈ ps).mpr ⟨hl, fun b _ => k.done b⟩

/-- The locks, the flags and the counter name no segment. -/
theorem congr (k : Known ps s) (hseg : s'.seg = s.seg) (hstage : s'.stage = s.stage)
    (hdone : s'.done = s.done) (hfree : s'.free = s.free) (hgc : s'.gc = s.gc)
    (hpc : s'.pc = s.pc) : Known ps s' :=
  ⟨hstage ▸ k.stage, hdone ▸ k.done, hfree ▸ k.free, hgc ▸ k.gc, hpc ▸ k.held, hseg ▸ k.handed⟩

theorem setLock (k : Known ps s) (o : Option Nat) : Known ps (s.setLock a o) :=
  k.congr rfl rfl rfl rfl rfl rfl

theorem setAllocating (k : Known ps s) (b : Bool) : Known ps (s.setAllocating a b) :=
  k.congr rfl rfl rfl rfl rfl rfl

theorem unprovision (k : Known ps s) (len : Nat) : Known ps (s.unprovision len) :=
  k.congr rfl rfl rfl rfl rfl rfl

theorem giveBack (k : Known ps s) (r : Range) : Known ps (s.giveBack p r) :=
  k.setSeg (k.handed p)

theorem idle (k : Known ps s) : Known ps (s.setPc t .idle) := k.setPcNone rfl

theorem enqueueDone (k : Known ps s) (hp : p ∈ ps) : Known ps (s.enqueueDone a p) := by
  refine (k.setSeg fun _ => hp).setDone fun q hq => ?_
  rcases List.mem_append.mp hq with hq | hq
  · exact k.done a q hq
  · rw [List.mem_singleton.mp hq]
    exact hp

theorem cons (k : Known ps s) (h : s.stage a = p :: l) : p ∈ ps ∧ ∀ q ∈ l, q ∈ ps := by
  have hall := k.stage a
  rw [h] at hall
  exact ⟨hall p List.mem_cons_self, fun q hq => hall q (List.mem_cons_of_mem _ hq)⟩

theorem singleton (hp : p ∈ ps) : ∀ q ∈ [p], q ∈ ps := fun q hq => by
  rw [List.mem_singleton.mp hq]
  exact hp

theorem walk (k : Known ps s) (len : Nat) : Known ps (s.walk c t a len) := by
  fun_cases State.walk c s t a len with
  | case1 p l hst idx next hr x s1 s2 =>
    obtain ⟨hp, hl⟩ := k.cons hst
    subst s2
    split
    · exact (((k.setSeg fun _ => hp).setStage hl).setLock none).idle
    · exact ((k.setSeg fun _ => hp).setLock none).idle
  | case2 p l hst =>
    obtain ⟨hp, hl⟩ := k.cons hst
    exact ((k.setStage hl).giveBack (s.rest c p)).setPc (singleton hp)
  | case3 p l hst =>
    exact (k.setStage (k.cons hst).2).giveBack (s.rest c p)
  | case4 => exact ((k.setLock none).unprovision len).idle
  | case5 => exact ((k.setAllocating true).setLock none).setPcNone rfl

theorem drain (k : Known ps s) : Known ps (s.drain c t a) := by
  unfold State.drain
  split
  · rename_i p l hst
    obtain ⟨hp, hl⟩ := k.cons hst
    have k' := (k.setStage (a := a) hl).giveBack (p := p) (s.rest c p)
    dsimp only
    split
    · exact (k'.setLock (some t)).setPc (singleton hp)
    · exact k'
  · exact k

theorem release (k : Known ps s) {r : Range} (hr : s.MayRelease p r) :
    Known ps (s.release t a p r) := by
  obtain ⟨-, ⟨h, hh, -⟩, -⟩ := hr
  have hp : p ∈ ps := k.handed p (List.ne_nil_of_mem hh)
  unfold State.release
  dsimp only
  split
  · exact (k.giveBack r).setPc (singleton hp)
  · exact k.giveBack r

theorem step {act : Act} (k : Known ps s) (h : s.step c t act = some s') : Known ps s' := by
  have hheld : ∀ {q : Pc} {p : Nat}, s.pc t = q → p ∈ q.segs → p ∈ ps :=
    fun hq hp => k.held t _ (hq ▸ hp)
  revert h
  fun_cases State.step c s t act with
  | case1 a len =>
    rintro ⟨⟩
    have k' : Known ps { s with used := (s.used + len) % 2 ^ 64 } :=
      k.congr rfl rfl rfl rfl rfl rfl
    exact (k'.setLock (some t)).setPcNone rfl
  | case3 =>
    rintro ⟨⟩
    exact k.walk _
  | case5 a len p hpc =>
    rintro ⟨⟩
    exact (k.enqueueDone (hheld hpc List.mem_cons_self)).setPcNone rfl
  | case6 a p hpc =>
    rintro ⟨⟩
    exact ((k.enqueueDone (hheld hpc List.mem_cons_self)).setLock none).idle
  | case7 a p hpc =>
    rintro ⟨⟩
    exact (k.enqueueDone (hheld hpc List.mem_cons_self)).idle
  | case9 a len =>
    rintro ⟨⟩
    exact ((k.setAllocating false).unprovision len).idle
  | case10 a len p hpc hp =>
    rintro ⟨⟩
    have hp := k.free p hp
    have k' : Known ps { s with free := s.free.erase p } :=
      ⟨k.stage, k.done, fun q hq => k.free q (List.mem_of_mem_erase hq), k.gc, k.held, k.handed⟩
    exact (k'.setSeg fun _ => hp).setPc (singleton hp)
  | case13 a len p hpc =>
    rintro ⟨⟩
    refine (k.setStage fun q hq => ?_).setPcNone rfl
    rcases List.mem_append.mp hq with hq | hq
    · exact k.stage a q hq
    · exact singleton (hheld hpc List.mem_cons_self) q hq
  | case16 =>
    rintro ⟨⟩
    exact ((k.setLock (some t)).setAllocating false).setPcNone rfl
  | case19 =>
    rintro ⟨⟩
    exact k.drain
  | case21 a p r hr =>
    rintro ⟨⟩
    exact k.release hr.2
  | case23 a p l hd =>
    rintro ⟨⟩
    have hdone := k.done a
    rw [hd] at hdone
    have hp : p ∈ ps := hdone p List.mem_cons_self
    have k' := (k.setSeg (x := { s.seg p with destaged := (s.seg p).life :: (s.seg p).destaged })
      fun _ => hp).setDone (a := a) fun q hq => hdone q (List.mem_cons_of_mem _ hq)
    refine ⟨k'.stage, k'.done, k'.free, fun q hq => ?_, k'.held, k'.handed⟩
    rcases List.mem_append.mp hq with hq | hq
    · exact k.gc q hq
    · exact singleton hp q hq
  | case25 p hp =>
    rintro ⟨⟩
    refine ⟨k.stage, k.done, fun q hq => ?_, fun q hq => k.gc q (List.mem_of_mem_erase hq), k.held,
      k.handed⟩
    rcases List.mem_append.mp hq with hq | hq
    · exact k.free q hq
    · exact singleton (k.gc p hp) q hq
  | case27 len =>
    rintro ⟨⟩
    exact k.unprovision len
  | _ => rintro ⟨⟩

end Known

theorem run_known {c : Ctlr} {ps : List Nat} {s : State}
    (hr : Relation.ReflTransGen (OkStep c) (init ps) s) : Known ps s := by
  induction hr with
  | refl => exact ⟨nofun, nofun, fun _ hp => hp, nofun, nofun, fun _ h => absurd rfl h⟩
  | tail _ hs ih =>
    obtain ⟨t, act, -, hs⟩ := hs
    exact ih.step hs

end UDepot.Allocator

namespace UDepot.DeviceMd
open Allocator

variable {env : Env} {conf : Conf} {clock op : Nat} {dev : Dev} {st : Started}

/-! ## Ranges of bytes -/

structure ByteRange where
  start : Nat
  len : Nat
  deriving DecidableEq, Repr

namespace ByteRange

def Apart (r r' : ByteRange) : Prop :=
  r.len = 0 ∨ r'.len = 0 ∨ r.start + r.len ≤ r'.start ∨ r'.start + r'.len ≤ r.start

def Within (r : ByteRange) (lo hi : Nat) : Prop := lo ≤ r.start ∧ r.start + r.len ≤ hi

theorem Within.apart {r r' : ByteRange} {a b c d : Nat} (h : r.Within a b) (h' : r'.Within c d)
    (hbc : b ≤ c) : r.Apart r' :=
  .inr (.inr (.inl (h.2.trans (hbc.trans h'.1))))

theorem Apart.symm {r r' : ByteRange} (h : r.Apart r') : r'.Apart r := by
  unfold Apart at h ⊢
  omega

end ByteRange

/-! ## Where the modules put things -/

/-- `grain_to_seg_idx` of the capacity manager. -/
def scmSegIdx (p : Scm.Params) (grain : Nat) : Nat := grain / p.segmentSize

namespace SalsaMD

/-- The index in `persist_seg_md`. -/
def segIdx (x : SalsaMD) (grain : Nat) : Nat := grain / x.devMd.segmentSize

/-- The size of `seg_ts_m`. -/
def segTsSize (x : SalsaMD) : Nat :=
  x.devMd.physicalSize / (x.devMd.segmentSize * x.devMd.grainSize % 2 ^ 64)

end SalsaMD

namespace Started

variable (st)

/-- What both controllers reserve in a segment. -/
def reserved : Nat := getSegMdSize st.md.grainSize

/-- `persist_dev_md`. -/
def devMdRange : ByteRange :=
  ⟨devMdGrainOffset st.dev.size st.md.grainSize, devMdSizeb + st.md.padB⟩

/-- The grain that `allocator_allocate_segment` passes on for the metadata. -/
def segMdGrain (p : Nat) : Nat := p * st.segmentSize + st.segmentSize - st.reserved

/-- `persist_seg_md`. -/
def segMdRange (p : Nat) : ByteRange :=
  ⟨st.segMdGrain p * st.md.grainSize,
    segMdSizeb + (alignUp segMdSizeb st.md.grainSize - segMdSizeb) % 2 ^ 32⟩

/-- The bytes of grains handed out in segment `p`. -/
def dataRange (p : Nat) (r : Range) : ByteRange :=
  ⟨(p * st.segmentSize + r.off) * st.grainSize, r.len * st.grainSize⟩

def liveRanges (s : State) (p : Nat) : List ByteRange :=
  ((s.seg p).handed.filter fun r => r.life = (s.seg p).life).map (st.dataRange p)

def layout (op : Nat) (s : State) : List ByteRange :=
  st.devMdRange :: ((List.range (st.scmParams op).segNr).map st.segMdRange ++
    (List.range (st.scmParams op).segNr).flatMap (st.liveRanges s))

/-- The grains of a record, of a size that memory can hold, or of a directory table. -/
def AllocLen (len : Nat) : Prop :=
  (∃ bytes < 2 ^ 63, putKeyvalPrefixSize + putKeyvalSuffixSize ≤ bytes ∧
    len = udivRoundUp bytes st.grainSize) ∨ len = st.segmentSize - st.reserved

def StoreAct : Act → Prop
  | .allocateGrains _ len => st.AllocLen len
  | .release _ _ r => st.AllocLen r.len
  | _ => True

/-- The runs of the allocators on the segments `ps`. Where no cursor behind the reserved grains
has grains in front of it, nothing is ever handed out. -/
inductive Run (op : Nat) (ps : List Nat) : State → Prop where
  | allocating {s : State} (hinit : (st.scmParams op).init = true)
      (hres : st.reserved < (st.scmParams op).segmentSize)
      (hr : Relation.ReflTransGen
        (fun s s' => ∃ t act, st.StoreAct act ∧
          s.step ((st.scmParams op).ctlr hinit st.reserved hres) t act = some s') (init ps) s) :
      Run op ps s
  | full (hnone : ∀ nr3 len, st.reserved ≤ nr3 → segNextRange st.segmentSize nr3 len = none) :
      Run op ps (init ps)

end Started

/-- `init_local` went through: the capacity manager took the sizes, and its grain size is the
store's, as is asserted behind it. -/
structure Accepted (env : Env) (conf : Conf) (clock op : Nat) (dev : Dev) (st : Started) :
    Prop where
  start : start env conf clock dev = .ok st
  scm : ∀ {size grainSize segmentSize}, env.scmInit size grainSize segmentSize = none →
    (Scm.Params.parse size grainSize segmentSize op).init = true
  grain : (st.scmParams op).grainSize = st.grainSize

/-! ## What the loop checks -/

theorem start_checked (h : start env conf clock dev = .ok st) :
    Checked env st.dev.size st.md ∧ st.segmentSize = st.md.devMd.segmentSize ∧
      st.grainSize = st.md.devMd.grainSize := by
  rw [start, initLocal] at h
  split at h
  · cases h
  · rw [initOn] at h
    split at h
    · cases h
    · rename_i x restored hl
      split at h
      · cases h
      · obtain rfl := Except.ok.inj h
        have hc := initLoop_checked hl
        cases restored
        · exact ⟨hc, rfl, rfl⟩
        · exact ⟨hc, rfl, rfl⟩

/-! ## Sizes that are accepted -/

theorem alignUp_sub_lt {x y : Nat} (hy : 0 < y) : alignUp x y < x + y := by
  have hle := Nat.mul_div_le (x + y - 1) y
  rw [alignUp, udivRoundUp]
  omega

theorem padded_eq {x g : Nat} (hg : 0 < g) (h32 : g < 2 ^ 32) :
    x + (alignUp x g - x) % 2 ^ 32 = alignUp x g := by
  have hle : x ≤ alignUp x g := le_alignUp hg
  have hlt : alignUp x g < x + g := alignUp_sub_lt hg
  rw [Nat.mod_eq_of_lt (by omega)]
  omega

theorem grains_le_devMdGrainOffset {size g n : Nat} (hg : 0 < g) (h0 : devMdGrainOffset size g ≠ 0)
    (hn : n * g ≤ size - alignUp devMdSizeb g) : n * g ≤ devMdGrainOffset size g := by
  have hfits := devMdGrainOffset_fits h0
  rw [devMdGrainOffset] at h0 ⊢
  split at h0
  · rename_i hlt
    rw [if_pos hlt]
    have hsum : (n + udivRoundUp devMdSizeb g) * g ≤ size := by
      have hup : alignUp devMdSizeb g = udivRoundUp devMdSizeb g * g := Nat.mul_comm _ _
      have hdown := alignDown_le size g
      rw [Nat.add_mul, ← hup]
      omega
    have hdiv : n + udivRoundUp devMdSizeb g ≤ size / g := (Nat.le_div_iff_mul_le hg).mpr hsum
    have hmul := Nat.mul_le_mul_right g hdiv
    have hup : alignUp devMdSizeb g = udivRoundUp devMdSizeb g * g := Nat.mul_comm _ _
    rw [Nat.add_mul, ← hup] at hmul
    rw [alignDown, if_neg hg.ne']
    omega
  · exact absurd rfl h0

namespace Accepted

variable (h : Accepted env conf clock op dev st)
include h

theorem md_grainSize : st.md.grainSize = st.grainSize := by
  obtain ⟨hc, -, hg⟩ := start_checked h.start
  rw [hc.grain, hg]

theorem init : (st.scmParams op).init = true := by
  obtain ⟨hc, hs, hg⟩ := start_checked h.start
  rw [Started.scmParams, hs, hg]
  exact h.scm hc.scm

theorem grainSize_lt : st.grainSize < 2 ^ 32 := by
  have hg := h.grain
  change st.grainSize % 2 ^ 32 = st.grainSize at hg
  rw [← hg]
  exact Nat.mod_lt _ (Nat.two_pow_pos 32)

theorem segmentSize_lt : st.segmentSize < 2 ^ 31 := (st.scmParams op).segmentSize_lt h.init

theorem segSizeb : (st.scmParams op).segSizeb = st.segmentSize * st.grainSize := by
  rw [Scm.Params.segSizeb, h.grain, Nat.mul_comm]
  apply Nat.mod_eq_of_lt
  calc st.segmentSize * st.grainSize ≤ 2 ^ 31 * 2 ^ 32 :=
        Nat.mul_le_mul h.segmentSize_lt.le h.grainSize_lt.le
    _ < 2 ^ 64 := by decide

theorem sector_le : 512 ≤ st.segmentSize * st.grainSize := by
  have hi := h.init
  simp only [Scm.Params.init, Bool.and_eq_true] at hi
  have hprops := hi.1.1.1
  rw [Scm.Params.propsSize, h.segSizeb] at hprops
  split at hprops
  · cases hprops
  · omega

theorem grainSize_pos : 0 < st.grainSize :=
  Nat.pos_of_ne_zero fun h0 => by
    have hs := h.sector_le
    rw [h0, Nat.mul_zero] at hs
    omega

theorem segmentSize_pos : 0 < st.segmentSize :=
  Nat.pos_of_ne_zero fun h0 => by
    have hs := h.sector_le
    rw [h0, Nat.zero_mul] at hs
    omega

theorem reserved_mul : st.reserved * st.grainSize = alignUp segMdSizeb st.grainSize := by
  rw [Started.reserved, getSegMdSize, h.md_grainSize, alignUp,
    Nat.mul_div_cancel_left _ h.grainSize_pos, Nat.mul_comm]

theorem reserved_le : st.reserved ≤ st.segmentSize := by
  have hs := h.sector_le
  have hlt : alignUp segMdSizeb st.grainSize < segMdSizeb + st.grainSize :=
    alignUp_sub_lt h.grainSize_pos
  rw [← h.reserved_mul] at hlt
  have h53 : segMdSizeb = 53 := rfl
  have hmul : st.reserved * st.grainSize < (st.segmentSize + 1) * st.grainSize := by
    rw [Nat.succ_mul]
    omega
  exact Nat.lt_succ_iff.mp (Nat.lt_of_mul_lt_mul_right hmul)

theorem devMdGrainOffset_ne_zero : devMdGrainOffset st.dev.size st.grainSize ≠ 0 := by
  obtain ⟨hc, -, -⟩ := start_checked h.start
  have hd := hc.devSize
  rw [SalsaMD.checkDevSize, h.md_grainSize] at hd
  intro h0
  simp [h0] at hd

theorem segs_le : (st.scmParams op).segNr * st.segmentSize * st.grainSize ≤
    st.dev.size - alignUp devMdSizeb st.grainSize := by
  obtain ⟨hc, -, -⟩ := start_checked h.start
  have hle := (st.scmParams op).segNr_mul_le
  have hraw : (st.scmParams op).devSizeRaw = st.dev.size - alignUp devMdSizeb st.grainSize := by
    change st.md.getDevSize = _
    rw [SalsaMD.getDevSize, hc.physical, h.md_grainSize]
  rw [h.segSizeb, hraw, ← Nat.mul_assoc] at hle
  exact hle

/-- Every segment ends in front of the device's metadata. -/
theorem seg_le_devMd {p : Nat} (hp : p < (st.scmParams op).segNr) :
    (p + 1) * st.segmentSize * st.grainSize ≤ st.devMdRange.start := by
  have hoff := grains_le_devMdGrainOffset h.grainSize_pos h.devMdGrainOffset_ne_zero h.segs_le
  have hseg : (p + 1) * st.segmentSize * st.grainSize ≤
      (st.scmParams op).segNr * st.segmentSize * st.grainSize :=
    Nat.mul_le_mul_right _ (Nat.mul_le_mul_right _ hp)
  rw [Started.devMdRange, h.md_grainSize]
  exact hseg.trans hoff

/-! ### The ranges between the borders -/

theorem devMdRange_within : st.devMdRange.Within st.devMdRange.start st.dev.size := by
  refine ⟨Nat.le_refl _, ?_⟩
  have hfits := devMdGrainOffset_fits h.devMdGrainOffset_ne_zero
  have hpad : devMdSizeb + st.md.padB = alignUp devMdSizeb st.grainSize := by
    rw [SalsaMD.padB, h.md_grainSize]
    exact padded_eq h.grainSize_pos h.grainSize_lt
  rw [Started.devMdRange, h.md_grainSize, hpad]
  exact hfits

theorem segMdRange_within (p : Nat) :
    (st.segMdRange p).Within ((p * st.segmentSize + (st.segmentSize - st.reserved)) * st.grainSize)
      ((p + 1) * st.segmentSize * st.grainSize) := by
  have hres := h.reserved_le
  have hgrain : st.segMdGrain p = p * st.segmentSize + (st.segmentSize - st.reserved) :=
    Nat.add_sub_assoc hres _
  have hlen : segMdSizeb + (alignUp segMdSizeb st.grainSize - segMdSizeb) % 2 ^ 32 =
      st.reserved * st.grainSize := by
    rw [h.reserved_mul]
    exact padded_eq h.grainSize_pos h.grainSize_lt
  rw [Started.segMdRange, h.md_grainSize, hgrain, hlen]
  refine ⟨Nat.le_refl _, ?_⟩
  dsimp only
  rw [← Nat.add_mul, Nat.succ_mul]
  exact Nat.mul_le_mul_right _ (by omega)

omit h in
theorem dataRange_within {p : Nat} {r : Range} (hr : r.off + r.len ≤ st.segmentSize - st.reserved) :
    (st.dataRange p r).Within (p * st.segmentSize * st.grainSize)
      ((p * st.segmentSize + (st.segmentSize - st.reserved)) * st.grainSize) := by
  refine ⟨Nat.mul_le_mul_right _ (Nat.le_add_right _ _), ?_⟩
  rw [Started.dataRange]
  dsimp only
  rw [← Nat.add_mul]
  exact Nat.mul_le_mul_right _ (by omega)

omit h in
theorem dataRange_apart {p : Nat} {r r' : Range} (hr : r.Apart r') :
    (st.dataRange p r).Apart (st.dataRange p r') := by
  rcases hr with hr | hr | hr | hr
  · exact .inl (by rw [Started.dataRange, hr, Nat.zero_mul])
  · exact .inr (.inl (by rw [Started.dataRange, hr, Nat.zero_mul]))
  · refine .inr (.inr (.inl ?_))
    rw [Started.dataRange, Started.dataRange]
    dsimp only
    rw [← Nat.add_mul]
    exact Nat.mul_le_mul_right _ (by omega)
  · refine .inr (.inr (.inr ?_))
    rw [Started.dataRange, Started.dataRange]
    dsimp only
    rw [← Nat.add_mul]
    exact Nat.mul_le_mul_right _ (by omega)

end Accepted

/-! ## The lengths that are asked for -/

theorem Accepted.allocLen_ok (h : Accepted env conf clock op dev st) {len : Nat}
    (hres : st.reserved < st.segmentSize) (hl : st.AllocLen len) :
    1 ≤ len ∧ len + st.reserved < 2 ^ 64 := by
  have hseg := h.segmentSize_lt
  rcases hl with ⟨bytes, hlt, hle, rfl⟩ | rfl
  · have h16 : putKeyvalPrefixSize + putKeyvalSuffixSize = 16 := rfl
    have hpos : 0 < udivRoundUp bytes st.grainSize := udivRoundUp_pos h.grainSize_pos (by omega)
    have hup : alignUp bytes st.grainSize < bytes + st.grainSize := alignUp_sub_lt h.grainSize_pos
    have hmul : udivRoundUp bytes st.grainSize ≤ alignUp bytes st.grainSize :=
      Nat.le_mul_of_pos_left _ h.grainSize_pos
    have h32 := h.grainSize_lt
    omega
  · omega

/-- The allocators keep what they hand out apart, in front of the metadata and in `ps`. -/
theorem Accepted.run_data (h : Accepted env conf clock op dev st) {ps : List Nat} {s : State}
    (hps : ps.Nodup) (hr : st.Run op ps s) (p : Nat) :
    ((s.seg p).handed.Pairwise fun r r' => r.life = r'.life → r.Apart r') ∧
      (∀ r ∈ (s.seg p).handed, r.off + r.len ≤ st.segmentSize - st.reserved) ∧
      ((s.seg p).handed ≠ [] → p ∈ ps) := by
  cases hr with
  | full => exact ⟨.nil, nofun, fun hne => absurd rfl hne⟩
  | allocating hinit hres hr =>
    have hok : Relation.ReflTransGen (OkStep ((st.scmParams op).ctlr hinit st.reserved hres))
        (Allocator.init ps) s := by
      refine Relation.ReflTransGen.mono (fun s s' => ?_) _ _ hr
      rintro ⟨t, act, hact, hs⟩
      refine ⟨t, act, ?_, hs⟩
      cases act with
      | allocateGrains a len => exact h.allocLen_ok hres hact
      | release a p r => exact (h.allocLen_ok hres hact).1
      | walk | passOn | allocateSegment | stage | relock | drain | destage | putFreeSeg
        | invalidate => trivial
    obtain ⟨place, i⟩ := run_inv _ hps hok
    exact ⟨i.exclusive.apart p, i.exclusive.inside p, (run_known hok).handed p⟩

/-! ## The layout -/

theorem Started.mem_liveRanges {s : State} {p : Nat} {b : ByteRange} (hb : b ∈ st.liveRanges s p) :
    ∃ r ∈ (s.seg p).handed, st.dataRange p r = b := by
  obtain ⟨r, hr, rfl⟩ := List.mem_map.mp hb
  exact ⟨r, (List.mem_filter.mp hr).1, rfl⟩

theorem liveRanges_pairwise {s : State} {p : Nat}
    (ha : (s.seg p).handed.Pairwise fun r r' => r.life = r'.life → r.Apart r') :
    (st.liveRanges s p).Pairwise ByteRange.Apart := by
  rw [Started.liveRanges, List.pairwise_map]
  refine (ha.filter _).imp_of_mem fun hr hr' hap => ?_
  have hl := of_decide_eq_true (List.mem_filter.mp hr).2
  have hl' := of_decide_eq_true (List.mem_filter.mp hr').2
  exact Accepted.dataRange_apart (hap (hl.trans hl'.symm))

/-- The two modules find the segment of a grain by the same index, which has a time stamp. -/
def Started.IndexAgrees (st : Started) (op : Nat) : Prop :=
  ∀ p < (st.scmParams op).segNr, ∀ k < st.segmentSize,
    scmSegIdx (st.scmParams op) (p * st.segmentSize + k) = p ∧
      st.md.segIdx (p * st.segmentSize + k) = p ∧ p < st.md.segTsSize

theorem Accepted.indexAgrees (h : Accepted env conf clock op dev st) : st.IndexAgrees op := by
  intro p hp k hk
  obtain ⟨hc, hs, hg⟩ := start_checked h.start
  have hpos := h.segmentSize_pos
  have hidx : (p * st.segmentSize + k) / st.segmentSize = p := by
    rw [Nat.mul_comm, Nat.mul_add_div hpos, Nat.div_eq_of_lt hk, Nat.add_zero]
  refine ⟨hidx, ?_, ?_⟩
  · rw [SalsaMD.segIdx, ← hs]
    exact hidx
  · have hsegb := h.segSizeb
    rw [Scm.Params.segSizeb, h.grain, Nat.mul_comm] at hsegb
    change st.segmentSize * st.grainSize % 2 ^ 64 = _ at hsegb
    rw [SalsaMD.segTsSize, ← hs, ← hg, hsegb, hc.physical]
    have hle : (p + 1) * st.segmentSize * st.grainSize ≤
        (st.scmParams op).segNr * st.segmentSize * st.grainSize :=
      Nat.mul_le_mul_right _ (Nat.mul_le_mul_right _ hp)
    have hsegs := h.segs_le
    have hsec := h.sector_le
    rw [Nat.mul_assoc] at hle
    have hdev : (p + 1) * (st.segmentSize * st.grainSize) ≤ st.dev.size := by omega
    exact (Nat.le_div_iff_mul_le (by omega)).mpr hdev

/-- On a device whose sizes are accepted, in every run of the allocators on its segments, the
metadata of the device, the metadata of the segments and what is handed out and alive lie apart
and inside of the device; nothing is handed out elsewhere, and the modules agree on segments. -/
theorem layout_disjoint (h : Accepted env conf clock op dev st) {ps : List Nat} (hps : ps.Nodup)
    (hsegs : ∀ p ∈ ps, p < (st.scmParams op).segNr) {s : State} (hr : st.Run op ps s) :
    (st.layout op s).Pairwise ByteRange.Apart ∧
      (∀ b ∈ st.layout op s, b.start + b.len ≤ st.dev.size) ∧
      (∀ p, (s.seg p).handed ≠ [] → p < (st.scmParams op).segNr) ∧ st.IndexAgrees op := by
  have hdata := h.run_data hps hr
  have hmd := h.devMdRange_within
  -- a live range lies in the part of its segment in front of the metadata
  have hlive : ∀ p, ∀ b ∈ st.liveRanges s p, b.Within (p * st.segmentSize * st.grainSize)
      ((p * st.segmentSize + (st.segmentSize - st.reserved)) * st.grainSize) := by
    intro p b hb
    obtain ⟨r, hr, rfl⟩ := Started.mem_liveRanges hb
    exact Accepted.dataRange_within ((hdata p).2.1 r hr)
  have hseg : ∀ p, ∀ b ∈ st.liveRanges s p, b.Within (p * st.segmentSize * st.grainSize)
      ((p + 1) * st.segmentSize * st.grainSize) := by
    intro p b hb
    refine ⟨(hlive p b hb).1, (hlive p b hb).2.trans (Nat.mul_le_mul_right _ ?_)⟩
    rw [Nat.succ_mul]
    omega
  have hsmd : ∀ p, (st.segMdRange p).Within (p * st.segmentSize * st.grainSize)
      ((p + 1) * st.segmentSize * st.grainSize) := fun p =>
    ⟨(Nat.mul_le_mul_right _ (Nat.le_add_right _ _)).trans (h.segMdRange_within p).1,
      (h.segMdRange_within p).2⟩
  have hborder : ∀ {p q : Nat}, p < q →
      (p + 1) * st.segmentSize * st.grainSize ≤ q * st.segmentSize * st.grainSize := fun hpq =>
    Nat.mul_le_mul_right _ (Nat.mul_le_mul_right _ hpq)
  -- everything behind the head of the layout lies in a segment
  have hin : ∀ b ∈ (List.range (st.scmParams op).segNr).map st.segMdRange ++
      (List.range (st.scmParams op).segNr).flatMap (st.liveRanges s),
      b.Within 0 st.devMdRange.start := by
    intro b hb
    rcases List.mem_append.mp hb with hb | hb
    · obtain ⟨p, hp, rfl⟩ := List.mem_map.mp hb
      exact ⟨Nat.zero_le _, (hsmd p).2.trans (h.seg_le_devMd (List.mem_range.mp hp))⟩
    · obtain ⟨p, hp, hb⟩ := List.mem_flatMap.mp hb
      exact ⟨Nat.zero_le _, (hseg p b hb).2.trans (h.seg_le_devMd (List.mem_range.mp hp))⟩
  refine ⟨?_, ?_, fun p hne => hsegs p ((hdata p).2.2 hne), h.indexAgrees⟩
  · refine List.pairwise_cons.mpr ⟨fun b hb => ((hin b hb).apart hmd (Nat.le_refl _)).symm, ?_⟩
    refine List.pairwise_append.mpr ⟨?_, ?_, ?_⟩
    · rw [List.pairwise_map]
      exact List.pairwise_lt_range.imp fun hpq => (hsmd _).apart (hsmd _) (hborder hpq)
    · refine List.pairwise_flatMap.mpr ⟨fun p _ => liveRanges_pairwise (hdata p).1, ?_⟩
      exact List.pairwise_lt_range.imp fun hpq b hb b' hb' =>
        (hseg _ b hb).apart (hseg _ b' hb') (hborder hpq)
    · intro b hb b' hb'
      obtain ⟨p, -, rfl⟩ := List.mem_map.mp hb
      obtain ⟨q, -, hb'⟩ := List.mem_flatMap.mp hb'
      rcases Nat.lt_trichotomy p q with hpq | rfl | hpq
      · exact (hsmd p).apart (hseg q b' hb') (hborder hpq)
      · exact ((hlive p b' hb').apart (h.segMdRange_within p) (Nat.le_refl _)).symm
      · exact ((hseg q b' hb').apart (hsmd p) (hborder hpq)).symm
  · intro b hb
    rcases List.mem_cons.mp hb with rfl | hb
    · exact hmd.2
    · exact (hin b hb).2.trans (hmd.1.trans ((Nat.le_add_right _ _).trans hmd.2))

/-! ## A store that starts anew -/

/-- The grain size of a configuration is a power of two, which 32 bits hold or make zero: the
assertion holds without a look at the device. -/
theorem Accepted.of_sanitized (hst : DeviceMd.start env conf clock dev = .ok st)
    (hscm : ∀ {size grainSize segmentSize}, env.scmInit size grainSize segmentSize = none →
      (Scm.Params.parse size grainSize segmentSize op).init = true)
    (hg : st.grainSize = (conf.sanitize env.pageSize).grainSize) :
    Accepted env conf clock op dev st := by
  refine ⟨hst, hscm, ?_⟩
  obtain ⟨hc, hs, hmd⟩ := start_checked hst
  have hinit : (st.scmParams op).init = true := by
    rw [Started.scmParams, hs, hmd]
    exact hscm hc.scm
  obtain ⟨k, hk⟩ : ∃ k, st.grainSize = 2 ^ k := by
    rw [hg, Conf.sanitize, sanitizeGrainSize, roundDownPow2]
    dsimp only
    rw [if_neg (by omega)]
    exact ⟨_, rfl⟩
  change st.grainSize % 2 ^ 32 = st.grainSize
  by_cases h32 : k < 32
  · rw [hk]
    exact Nat.mod_eq_of_lt (Nat.pow_lt_pow_right (by omega) h32)
  · have hzero : (st.scmParams op).grainSize = 0 := by
      change st.grainSize % 2 ^ 32 = 0
      rw [hk]
      exact Nat.mod_eq_zero_of_dvd (Nat.pow_dvd_pow 2 (by omega))
    simp [Scm.Params.init, Scm.Params.checkParameters, hzero, Scm.Params.isPowerOfTwo] at hinit

theorem ctlr_congr {p q : Scm.Params} (hpq : p = q) {r r' : Nat} (hr : r = r') (hp : p.init = true)
    (hq : q.init = true) (hres : r < p.segmentSize) (hres' : r' < q.segmentSize) :
    p.ctlr hp r hres = q.ctlr hq r' hres' := by
  subst hpq hr
  rfl

theorem oneGib_init : (Scm.Params.parse (2 ^ 30) 32 (2 ^ 20) 200).init = true := by decide

/-- A store of 1 GiB with a record of 96 bytes in the first of its segments. -/
theorem oneGib_layout : ∃ st, Accepted scmEnv oneGib 5 200 (fileOf (2 ^ 30)) st ∧
    ∃ s, st.Run 200 [0, 1] s ∧ (s.seg 0).handed = [⟨1, 0, 3⟩] ∧
      (st.layout 200 s).Pairwise ByteRange.Apart ∧
      (∀ b ∈ st.layout 200 s, b.start + b.len ≤ st.dev.size) ∧
      (∀ p, (s.seg p).handed ≠ [] → p < (st.scmParams 200).segNr) ∧ st.IndexAgrees 200 := by
  obtain ⟨st, hst, hg, hs, hd⟩ :=
    @oneGib_start (2 ^ 30) (by decide) (by decide) (by decide)
  have hacc : Accepted scmEnv oneGib 5 200 (fileOf (2 ^ 30)) st := by
    refine .of_sanitized hst (fun h => by_contra fun hn => ?_) ?_
    · have hsome := (if_neg hn).symm.trans h
      cases hsome
    · rw [oneGib_sanitize, hg]
      rfl
  have hp : st.scmParams 200 = .parse (2 ^ 30) 32 (2 ^ 20) 200 := by
    rw [Started.scmParams, hg, hs, hd]
  have hr : st.reserved = 2 := by
    rw [Started.reserved, hacc.md_grainSize, hg]
    decide
  have hres : st.reserved < (st.scmParams 200).segmentSize := by
    rw [hr, hp]
    decide
  have hc := ctlr_congr hp hr hacc.init oneGib_init hres (by decide)
  have hcheck : ((exec ((Scm.Params.parse (2 ^ 30) 32 (2 ^ 20) 200).ctlr oneGib_init 2 (by decide))
      (init [0, 1]) (firstAlloc 3)).map fun s => decide ((s.seg 0).handed = [⟨1, 0, 3⟩])) =
        some true := by
    decide
  obtain ⟨s, hrun, hres'⟩ := Option.map_eq_some_iff.mp hcheck
  rw [← hc] at hrun
  have hlen : st.AllocLen 3 := .inl ⟨96, by decide, by decide, by rw [hg]; decide⟩
  have hacts : ∀ x ∈ firstAlloc 3, st.StoreAct x.2 := by
    simp [firstAlloc, Started.StoreAct, hlen]
  have hstore : st.Run 200 [0, 1] s := .allocating hacc.init hres (exec_steps hacts hrun)
  refine ⟨st, hacc, s, hstore, of_decide_eq_true hres', ?_⟩
  refine layout_disjoint hacc (by decide) (fun p hmem => ?_) hstore
  rw [hp]
  have hnr : (Scm.Params.parse (2 ^ 30) 32 (2 ^ 20) 200).segNr = 32 := by decide
  simp only [List.mem_cons, List.not_mem_nil, or_false] at hmem
  omega

end UDepot.DeviceMd
