import UDepot.ScmInit
import UDepot.AllocatorRun

/-! The addresses of an entry have 39 bits, the largest of which marks an unused one. The
configuration bounds the size it asks for accordingly; `register_local_region` then takes the
size of the device, whatever it is, and the segments are counted from that. -/

namespace UDepot.DeviceMd
open Allocator

variable {env : Env} {conf : Conf} {clock : Nat} {dev : Dev} {st : Started}

/-- `sizeof(salsa_seg_md)`. -/
def segMdSizeb : Nat := 53

/-- `get_seg_md_size`, the grains that are reserved in each segment. -/
def getSegMdSize (grainSize : Nat) : Nat := alignUp segMdSizeb grainSize / grainSize

def Started.scmParams (st : Started) (overprovision : Nat) : Scm.Params :=
  .parse st.md.getDevSize st.grainSize st.segmentSize overprovision

/-- `allocator_allocate_grains` returns `grain`: some segment has its cursor somewhere behind
the reserved grains, and the length is one that `allocate_grains` accepts. -/
def HandsOut (p : Scm.Params) (reserved grain : Nat) : Prop :=
  ∃ i < p.segNr, ∃ nr3 len idx next, reserved ≤ nr3 ∧ 1 ≤ len ∧ len + reserved ≤ p.segmentSize ∧
    segNextRange p.segmentSize nr3 len = some (idx, next) ∧
      grain = i * p.segmentSize + idx - reserved

/-- An entry holds the address, and does not become an unused one by it. -/
def Storable (grain : Nat) : Prop :=
  ∀ e : HashEntry, (e.setPba grain).pba = grain ∧ (e.setPba grain).used = true

theorem storable_iff (grain : Nat) : Storable grain ↔ grain < unusedPba := by
  constructor
  · intro h
    obtain ⟨hpba, hused⟩ := h .fresh
    have hlt : grain < 2 ^ 39 := by
      rw [← hpba]
      exact (HashEntry.fresh.setPba grain).pba_lt
    rw [HashEntry.used, hpba, bne_iff_ne] at hused
    unfold unusedPba at hused ⊢
    omega
  · intro h e
    refine ⟨?_, e.setPba_used h⟩
    rw [HashEntry.setPba_pba]
    unfold unusedPba at h
    exact Nat.mod_eq_of_lt (by omega)

/-! ## The size of the device -/

structure Checked (env : Env) (size : Nat) (y : SalsaMD) : Prop where
  devSize : y.checkDevSize size y.devMd.segmentSize = true
  scm : env.scmInit y.getDevSize y.devMd.grainSize y.devMd.segmentSize = none
  physical : y.devMd.physicalSize = size
  grain : y.grainSize = y.devMd.grainSize

theorem initLoop_checked {forceDestroy found : Bool} {x y : SalsaMD}
    {sizeM grainSize segmentSize : Nat}
    (h : initLoop env forceDestroy dev x sizeM grainSize segmentSize = .ok (y, found)) :
    Checked env dev.size y := by
  fun_induction initLoop env forceDestroy dev x sizeM grainSize segmentSize with
  | case3 x sizeM n md hv x' hcheck hsize hscm =>
    subst x'
    cases h
    exact ⟨hcheck, hscm, (not_not.mp hsize).symm, rfl⟩
  | case5 x sizeM n hv x' hcheck hscm =>
    subst x'
    cases h
    exact ⟨hcheck, hscm, rfl, rfl⟩
  | case7 x sizeM n hv x' hcheck rc hscm hlt ih | case9 x sizeM n hv x' hcheck n' hn ih =>
    exact ih h
  | _ => cases h

/-- The store is laid out on the whole device, also where it is larger than the size of the
configuration. -/
theorem start_getDevSize (h : start env conf clock dev = .ok st) :
    st.md.getDevSize =
      max dev.size (conf.sanitize env.pageSize).size - alignUp devMdSizeb st.grainSize := by
  have hon : ∀ {d : Dev}, initOn env (conf.sanitize env.pageSize) clock d = .ok st →
      st.md.getDevSize = d.size - alignUp devMdSizeb st.grainSize := by
    intro d
    fun_cases initOn env (conf.sanitize env.pageSize) clock d with
    | case3 x restored hl hctlr =>
      rintro ⟨⟩
      have hc := initLoop_checked hl
      rw [SalsaMD.getDevSize, hc.physical, hc.grain]
    | _ => rintro ⟨⟩
  rw [start, initLocal, registerLocalRegion] at h
  split at h
  · cases h
  · rename_i d hd
    rw [hon h]
    split at hd
    · split at hd
      · obtain rfl := Except.ok.inj hd
        rw [max_eq_right (by omega)]
      · cases hd
    · obtain rfl := Except.ok.inj hd
      rw [max_eq_left (by omega)]

/-! ## The addresses -/

variable {p : Scm.Params}

theorem HandsOut.lt {reserved grain : Nat} (h : HandsOut p reserved grain) :
    reserved < p.segmentSize ∧ grain + reserved < p.segNr * p.segmentSize := by
  obtain ⟨i, hi, nr3, len, idx, next, hnr3, hlen, hfit, hnext, rfl⟩ := h
  rw [segNextRange] at hnext
  split at hnext
  · cases hnext
  · rename_i hroom
    simp only [Option.some.injEq, Prod.mk.injEq] at hnext
    obtain ⟨rfl, _⟩ := hnext
    have hmul : (i + 1) * p.segmentSize ≤ p.segNr * p.segmentSize := Nat.mul_le_mul_right _ hi
    rw [Nat.succ_mul] at hmul
    omega

theorem handsOut_last {reserved : Nat} (hres : reserved < p.segmentSize)
    (h64 : p.segmentSize < 2 ^ 64) (hseg : 0 < p.segNr) :
    HandsOut p reserved (p.segNr * p.segmentSize - 1 - reserved) := by
  refine ⟨p.segNr - 1, by omega, p.segmentSize - 1, 1, p.segmentSize - 1, p.segmentSize, by omega,
    Nat.le_refl 1, by omega, ?_, ?_⟩
  · rw [segNextRange, Nat.sub_add_cancel (by omega), Nat.mod_eq_of_lt h64]
    exact if_neg (by omega)
  · have hmul : p.segNr * p.segmentSize = (p.segNr - 1) * p.segmentSize + p.segmentSize := by
      rw [← Nat.succ_mul]
      congr 1
      omega
    omega

/-- Every address fits exactly when the data of the last segment ends in time. -/
theorem handsOut_storable_iff (reserved : Nat) (h64 : p.segmentSize < 2 ^ 64) :
    (∀ grain, HandsOut p reserved grain → grain < unusedPba ∧ Storable grain) ↔
      p.segmentSize ≤ reserved ∨ p.segNr * p.segmentSize ≤ unusedPba + reserved := by
  constructor
  · intro h
    by_contra hn
    rw [not_or, not_le, not_le] at hn
    obtain ⟨hres, hlt⟩ := hn
    have hseg : 0 < p.segNr := by
      by_contra h0
      rw [Nat.eq_zero_of_not_pos h0, Nat.zero_mul] at hlt
      omega
    have := (h _ (handsOut_last hres h64 hseg)).1
    omega
  · intro h grain hg
    obtain ⟨hres, hlt⟩ := hg.lt
    have hfit : grain < unusedPba := by omega
    exact ⟨hfit, (storable_iff grain).mpr hfit⟩

/-- For a store that has started, every address that an allocator hands out fits an entry
exactly when the whole segments in front of the device's metadata have few enough grains. The
device is as large as it is, or as the configuration made it. -/
theorem start_addresses_fit_iff (h : start env conf clock dev = .ok st)
    (h64 : st.segmentSize < 2 ^ 64) (overprovision : Nat) :
    (∀ grain, HandsOut (st.scmParams overprovision) (getSegMdSize st.grainSize) grain →
      grain < unusedPba ∧ Storable grain) ↔
      st.segmentSize ≤ getSegMdSize st.grainSize ∨
        (Scm.Params.parse
          (max dev.size (conf.sanitize env.pageSize).size - alignUp devMdSizeb st.grainSize)
          st.grainSize st.segmentSize overprovision).segNr * st.segmentSize ≤
            unusedPba + getSegMdSize st.grainSize := by
  rw [← start_getDevSize h]
  exact handsOut_storable_iff _ h64

/-! ## A large file -/

/-- The capacity manager decides, with an overprovisioning of 20%. -/
def scmEnv : Env where
  pageSize := 4096
  crc32 _ bs := bs.length
  scmInit size grainSize segmentSize :=
    if (Scm.Params.parse size grainSize segmentSize 200).init then none else some 22
  ctlrInit _ _ := none
  grows := true
  pad _ := 0

/-- A store of 1 GiB is asked for, with grains of 32 bytes. -/
def oneGib : Conf := ⟨false, 2 ^ 30, 32, 2 ^ 20, true⟩

def fileOf (size : Nat) : Dev := ⟨fun _ => 0, size + 64⟩

theorem oneGib_sanitize : oneGib.sanitize scmEnv.pageSize = oneGib := by decide +kernel

theorem oneGib_start {size : Nat} (hreg : oneGib.size ≤ (fileOf size).size)
    (hcheck : ((SalsaMD.new 5 32).init ((SalsaMD.new 5 32).defaultDevMd (fileOf size).size 32
      (2 ^ 20))).checkDevSize (fileOf size).size (2 ^ 20) = true)
    (hscm : (Scm.Params.parse size 32 (2 ^ 20) 200).init = true) :
    ∃ st, start scmEnv oneGib 5 (fileOf size) = .ok st ∧ st.grainSize = 32 ∧
      st.segmentSize = 2 ^ 20 ∧ st.md.getDevSize = size := by
  have hdev : ((SalsaMD.new 5 32).init ((SalsaMD.new 5 32).defaultDevMd (fileOf size).size 32
      (2 ^ 20))).getDevSize = size := by
    have hmd : alignUp devMdSizeb 32 = 64 := by decide
    change size + 64 - alignUp devMdSizeb 32 = size
    rw [hmd, Nat.add_sub_cancel]
  have hnone : scmEnv.scmInit size 32 (2 ^ 20) = none := if_pos hscm
  have hloop : initLoop scmEnv true (fileOf size) (.new 5 32) (fileOf size).size 32 (2 ^ 20) =
      .ok ((SalsaMD.new 5 32).init ((SalsaMD.new 5 32).defaultDevMd (fileOf size).size 32
        (2 ^ 20)), false) := by
    rw [initLoop, if_pos rfl]
    dsimp only
    rw [if_pos hcheck, hdev, hnone]
  rw [start, oneGib_sanitize, initLocal, registerLocalRegion, if_neg (Nat.not_lt.mpr hreg)]
  exact ⟨_, initOn_ok hloop rfl, rfl, rfl, hdev⟩

/-- The file has 32 TiB already. The store takes them all, and the address `2 ^ 39` that it
hands out is read back as 0. -/
theorem large_file_wraps : ∃ st, start scmEnv oneGib 5 (fileOf (2 ^ 45)) = .ok st ∧
    HandsOut (st.scmParams 200) (getSegMdSize st.grainSize) (2 ^ 39) ∧
      (HashEntry.fresh.setPba (2 ^ 39)).pba = 0 := by
  obtain ⟨st, hst, hg, hs, hd⟩ :=
    @oneGib_start (2 ^ 45) (by decide) (by decide) (by decide)
  refine ⟨st, hst, ?_, rfl⟩
  rw [Started.scmParams, hg, hs, hd]
  exact ⟨2 ^ 19, by decide, 2, 1, 2, 3, by decide, by decide, by decide, by decide, by decide⟩

/-- On a file of 1 GiB every address fits. -/
theorem small_file_fits : ∃ st, start scmEnv oneGib 5 (fileOf (2 ^ 30)) = .ok st ∧
    ∀ grain, HandsOut (st.scmParams 200) (getSegMdSize st.grainSize) grain →
      grain < unusedPba ∧ Storable grain := by
  obtain ⟨st, hst, hg, hs, _⟩ :=
    @oneGib_start (2 ^ 30) (by decide) (by decide) (by decide)
  refine ⟨st, hst, (start_addresses_fit_iff hst (by rw [hs]; decide) 200).mpr (.inr ?_)⟩
  rw [oneGib_sanitize, hg, hs]
  decide

end UDepot.DeviceMd
