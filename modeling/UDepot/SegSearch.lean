import UDepot.DeviceMd
import Mathlib.Logic.Relation

/-! The search of `init_local` for a segment size. A size for which the metadata of the device has
no room behind the last segment is followed by the one that wastes least among those above its
half; a size that the capacity manager refuses is halved. Both go through
`sanitize_segment_size`, which aligns to pages and never gives zero. -/

namespace UDepot.DeviceMd

/-! ## Alignment -/

def stepSize (pageSize grainSize : Nat) : Nat :=
  if grainSize < pageSize then pageSize / grainSize else 1

section Alignment

variable {pageSize grainSize n m : Nat}

theorem sanitizeSegmentSize_eq :
    sanitizeSegmentSize pageSize grainSize n = max 1 (alignDown n (stepSize pageSize grainSize)) :=
  rfl

theorem stepSize_pos (hg : 0 < grainSize) : 0 < stepSize pageSize grainSize := by
  rw [stepSize]
  split
  · rename_i hlt
    exact Nat.div_pos hlt.le hg
  · exact Nat.one_pos

theorem le_alignDown {a : Nat} (ha : 0 < a) (hm : a ∣ m) (hle : m ≤ n) : m ≤ alignDown n a := by
  obtain ⟨k, rfl⟩ := hm
  rw [alignDown, if_neg ha.ne', Nat.mul_comm a]
  exact Nat.mul_le_mul_right a ((Nat.le_div_iff_mul_le ha).mpr (Nat.mul_comm a k ▸ hle))

theorem dvd_alignDown (n a : Nat) : a ∣ alignDown n a := by
  rw [alignDown]
  split
  · exact Nat.dvd_zero a
  · exact Nat.dvd_mul_left _ _

theorem le_sanitizeSegmentSize (hg : 0 < grainSize) (hm : stepSize pageSize grainSize ∣ m)
    (hle : m ≤ n) : m ≤ sanitizeSegmentSize pageSize grainSize n :=
  (le_alignDown (stepSize_pos hg) hm hle).trans (Nat.le_max_right _ _)

theorem dvd_sanitizeSegmentSize
    (h : 1 < sanitizeSegmentSize pageSize grainSize n ∨ stepSize pageSize grainSize ≤ n)
    (hg : 0 < grainSize) :
    stepSize pageSize grainSize ∣ sanitizeSegmentSize pageSize grainSize n := by
  have hdvd := dvd_alignDown n (stepSize pageSize grainSize)
  have hone : 1 ≤ alignDown n (stepSize pageSize grainSize) := by
    rcases h with h | h
    · rw [sanitizeSegmentSize_eq] at h
      omega
    · exact (stepSize_pos hg).trans_le (le_alignDown (stepSize_pos hg) (Nat.dvd_refl _) h)
  rwa [sanitizeSegmentSize_eq, Nat.max_eq_right hone]

theorem sanitizeSegmentSize_pos : 0 < sanitizeSegmentSize pageSize grainSize n :=
  Nat.lt_of_lt_of_le Nat.one_pos (Nat.le_max_left _ _)

theorem stepSize_mul {i j : Nat} (hp : pageSize = 2 ^ i) (hg : grainSize = 2 ^ j)
    (hlt : grainSize < pageSize) : stepSize pageSize grainSize * grainSize = pageSize := by
  rw [stepSize, if_pos hlt]
  rw [hp, hg] at hlt ⊢
  exact Nat.div_mul_cancel (Nat.pow_dvd_pow 2 ((Nat.pow_lt_pow_iff_right (by decide)).mp hlt).le)

/-- For powers of two, being aligned is being a multiple of the page in bytes. -/
theorem page_dvd_iff {i j : Nat} (hp : pageSize = 2 ^ i) (hg : grainSize = 2 ^ j) :
    pageSize ∣ n * grainSize ↔ stepSize pageSize grainSize ∣ n := by
  by_cases hlt : grainSize < pageSize
  · have hpos : 0 < grainSize := hg ▸ Nat.two_pow_pos j
    conv_lhs => rw [← stepSize_mul hp hg hlt]
    exact Nat.mul_dvd_mul_iff_right hpos
  · rw [stepSize, if_neg hlt]
    refine iff_of_true ?_ (Nat.one_dvd _)
    rw [hp, hg] at hlt ⊢
    exact Nat.dvd_mul_left_of_dvd (Nat.pow_dvd_pow 2 ((Nat.pow_le_pow_iff_right (by decide)).mp
      (Nat.not_lt.mp hlt))) n

end Alignment

/-! ## The inner loop -/

def loopWaste (grainSize sizeM ns : Nat) : Nat :=
  let netSize := (sizeM + (2 ^ 64 - grainSize)) % 2 ^ 64
  netSize - alignDown netSize (ns * grainSize % 2 ^ 64)

section Loop

variable {pageSize grainSize sizeM newSegMin : Nat}

theorem loopWaste_le (n : Nat) : loopWaste grainSize sizeM n ≤ 2 ^ 64 - 1 :=
  (Nat.sub_le _ _).trans (Nat.le_pred_of_lt (Nat.mod_lt _ (Nat.two_pow_pos 64)))

theorem bestSegment_succ (fuel ns minWaste best : Nat) :
    bestSegment pageSize grainSize sizeM newSegMin (fuel + 1) ns minWaste best =
      if newSegMin < ns then
        if loopWaste grainSize sizeM ns < minWaste then
          bestSegment pageSize grainSize sizeM newSegMin fuel
            (sanitizeSegmentSize pageSize grainSize (ns - 1)) (loopWaste grainSize sizeM ns) ns
        else
          bestSegment pageSize grainSize sizeM newSegMin fuel
            (sanitizeSegmentSize pageSize grainSize (ns - 1)) minWaste best
      else best := rfl

variable {ns : Nat}

theorem sanitize_pred_lt (pageSize grainSize : Nat) (hmin : 1 ≤ newSegMin) (hns : newSegMin < ns) :
    sanitizeSegmentSize pageSize grainSize (ns - 1) < ns := by
  have := sanitizeSegmentSize_le pageSize grainSize (ns - 1)
  omega

/-- The loop ends: the candidate itself is enough fuel. -/
theorem bestSegment_fuel (hmin : 1 ≤ newSegMin) {fuel : Nat} (h : ns ≤ fuel)
    (minWaste best k : Nat) :
    bestSegment pageSize grainSize sizeM newSegMin (fuel + k) ns minWaste best =
      bestSegment pageSize grainSize sizeM newSegMin fuel ns minWaste best := by
  induction fuel generalizing ns minWaste best with
  | zero =>
    have h0 : ¬ newSegMin < ns := by omega
    cases k with
    | zero => rfl
    | succ k => rw [Nat.zero_add, bestSegment_succ, if_neg h0]; rfl
  | succ fuel ih =>
    rw [Nat.add_right_comm, bestSegment_succ, bestSegment_succ]
    by_cases hns : newSegMin < ns
    · have hlt := sanitize_pred_lt pageSize grainSize hmin hns
      rw [if_pos hns, if_pos hns, ih (by omega), ih (by omega)]
    · rw [if_neg hns, if_neg hns]

def Candidate (pageSize grainSize newSegMin ns m : Nat) : Prop :=
  newSegMin < m ∧ m ≤ ns ∧ stepSize pageSize grainSize ∣ m

/-- What the loop found from `ns` on: nothing better than it had, or the best candidate. -/
def Found (pageSize grainSize sizeM newSegMin ns minWaste best r : Nat) : Prop :=
  (r = best ∧ ∀ m, Candidate pageSize grainSize newSegMin ns m →
    minWaste ≤ loopWaste grainSize sizeM m) ∨
  (Candidate pageSize grainSize newSegMin ns r ∧ loopWaste grainSize sizeM r < minWaste ∧
    ∀ m, Candidate pageSize grainSize newSegMin ns m →
      loopWaste grainSize sizeM r ≤ loopWaste grainSize sizeM m)

theorem Candidate.cases {m : Nat} (hg : 0 < grainSize)
    (h : Candidate pageSize grainSize newSegMin ns m) :
    m = ns ∨ Candidate pageSize grainSize newSegMin
      (sanitizeSegmentSize pageSize grainSize (ns - 1)) m := by
  obtain ⟨hlt, hle, hdvd⟩ := h
  by_cases heq : m = ns
  · exact .inl heq
  · exact .inr ⟨hlt, le_sanitizeSegmentSize hg hdvd (by omega), hdvd⟩

theorem Candidate.mono {ns' m : Nat} (h : Candidate pageSize grainSize newSegMin ns m)
    (hle : ns ≤ ns') : Candidate pageSize grainSize newSegMin ns' m :=
  ⟨h.1, h.2.1.trans hle, h.2.2⟩

theorem bestSegment_found (sizeM : Nat) (hg : 0 < grainSize) (hmin : 1 ≤ newSegMin) {fuel : Nat}
    (hfuel : ns ≤ fuel) (hns : newSegMin < ns → stepSize pageSize grainSize ∣ ns)
    (minWaste best : Nat) :
    Found pageSize grainSize sizeM newSegMin ns minWaste best
      (bestSegment pageSize grainSize sizeM newSegMin fuel ns minWaste best) := by
  induction fuel generalizing ns minWaste best with
  | zero => exact .inl ⟨rfl, fun m hm => absurd hm.1 (by have := hm.2.1; omega)⟩
  | succ fuel ih =>
    rw [bestSegment_succ]
    by_cases hlt : newSegMin < ns
    · have hnext := sanitize_pred_lt pageSize grainSize hmin hlt
      have hself : Candidate pageSize grainSize newSegMin ns ns := ⟨hlt, Nat.le_refl _, hns hlt⟩
      have hdvd : newSegMin < sanitizeSegmentSize pageSize grainSize (ns - 1) →
          stepSize pageSize grainSize ∣ sanitizeSegmentSize pageSize grainSize (ns - 1) :=
        fun h => dvd_sanitizeSegmentSize (.inl (by omega)) hg
      have ih := ih (by omega) hdvd
      rw [if_pos hlt]
      split
      · rename_i hw
        -- `ns` is the best so far, and what comes after it may be better
        rcases ih (loopWaste grainSize sizeM ns) ns with ⟨hr, hall⟩ | ⟨hr, hless, hall⟩
        · rw [hr]
          refine .inr ⟨hself, hw, fun m hm => ?_⟩
          rcases hm.cases hg with rfl | hm
          · exact Nat.le_refl _
          · exact hall m hm
        · refine .inr ⟨hr.mono hnext.le, hless.trans hw, fun m hm => ?_⟩
          rcases hm.cases hg with rfl | hm
          · exact hless.le
          · exact hall m hm
      · rename_i hw
        rcases ih minWaste best with ⟨hr, hall⟩ | ⟨hr, hless, hall⟩
        · refine .inl ⟨hr, fun m hm => ?_⟩
          rcases hm.cases hg with rfl | hm
          · exact Nat.not_lt.mp hw
          · exact hall m hm
        · refine .inr ⟨hr.mono hnext.le, hless, fun m hm => ?_⟩
          rcases hm.cases hg with rfl | hm
          · exact hless.le.trans (Nat.not_lt.mp hw)
          · exact hall m hm
    · rw [if_neg hlt]
      exact .inl ⟨rfl, fun m hm => absurd (hm.1.trans_le hm.2.1) hlt⟩

/-- What is tried after a rejected size: the best candidate above its half if there is one, and
an aligned size if there is one below it. -/
theorem smallerSegment_spec {segmentSize r : Nat} (hg : 0 < grainSize)
    (h : smallerSegment pageSize grainSize sizeM segmentSize = some r) :
    0 < r ∧ r < segmentSize ∧
      (stepSize pageSize grainSize < segmentSize → stepSize pageSize grainSize ∣ r) ∧
      ∀ m, segmentSize / 2 < m → m < segmentSize → stepSize pageSize grainSize ∣ m →
        segmentSize / 2 < r ∧ loopWaste grainSize sizeM r ≤ loopWaste grainSize sizeM m := by
  have hlt := smallerSegment_lt h
  rw [smallerSegment] at h
  split at h
  · cases h
  rename_i hseg
  have hr := Option.some.inj h
  have hmin : 1 ≤ segmentSize / 2 := by omega
  have hfound := bestSegment_found sizeM hg hmin (Nat.le_refl
    (sanitizeSegmentSize pageSize grainSize (segmentSize - 1)))
    (fun h => dvd_sanitizeSegmentSize (.inl (by omega)) hg) (2 ^ 64 - 1)
    (sanitizeSegmentSize pageSize grainSize (segmentSize - 1))
  rw [hr] at hfound
  have hcand : ∀ m, segmentSize / 2 < m → m < segmentSize → stepSize pageSize grainSize ∣ m →
      Candidate pageSize grainSize (segmentSize / 2)
        (sanitizeSegmentSize pageSize grainSize (segmentSize - 1)) m :=
    fun m hm hlt hdvd => ⟨hm, le_sanitizeSegmentSize hg hdvd (by omega), hdvd⟩
  rcases hfound with ⟨heq, hall⟩ | ⟨hc, -, hall⟩
  · refine ⟨heq ▸ sanitizeSegmentSize_pos, hlt, fun hstep => ?_, fun m hm hlt' hdvd => ?_⟩
    · rw [heq]
      exact dvd_sanitizeSegmentSize (.inr (by omega)) hg
    · have hc := hcand m hm hlt' hdvd
      exact ⟨heq ▸ hc.1.trans_le hc.2.1, (loopWaste_le r).trans (hall m hc)⟩
  · exact ⟨(Nat.zero_le _).trans_lt hc.1, hlt, fun _ => hc.2.2,
      fun m hm hlt' hdvd => ⟨hc.1, hall m (hcand m hm hlt' hdvd)⟩⟩

end Loop

/-! ## Waste at the end of the device -/

def endWaste (size grainSize n : Nat) : Nat :=
  devMdGrainOffset size grainSize - alignDown (devMdGrainOffset size grainSize) (n * grainSize)

theorem alignUp_devMdSizeb {grainSize : Nat} (h : devMdSizeb ≤ grainSize) :
    alignUp devMdSizeb grainSize = grainSize := by
  have h44 : 0 < devMdSizeb := by decide
  rw [alignUp, udivRoundUp, Nat.div_eq_of_lt_le (k := 1) (by omega) (by omega), Nat.mul_one]

/-- With metadata of one grain the loop computes the waste, up to the bytes behind the last
grain. -/
theorem loopWaste_eq {size grainSize n : Nat} (hmd : devMdSizeb ≤ grainSize) (hsize : size < 2 ^ 64)
    (hoff : devMdGrainOffset size grainSize ≠ 0) (hn : 0 < n) (hfit : n * grainSize < 2 ^ 64) :
    loopWaste grainSize size n = endWaste size grainSize n + size % grainSize := by
  have hg : 0 < grainSize := Nat.lt_of_lt_of_le (by decide) hmd
  have hng : 0 < n * grainSize := Nat.mul_pos hn hg
  have hoffEq : devMdGrainOffset size grainSize = (size / grainSize - 1) * grainSize := by
    rw [devMdGrainOffset, alignUp_devMdSizeb hmd, alignDown, if_neg hg.ne'] at hoff ⊢
    split at hoff
    · rename_i h
      rw [if_pos h, Nat.sub_mul, Nat.one_mul]
    · exact absurd rfl hoff
  have hq : 0 < size / grainSize - 1 := by
    by_contra h
    rw [hoffEq, Nat.eq_zero_of_not_pos h, Nat.zero_mul] at hoff
    exact hoff rfl
  have hdm := Nat.div_add_mod size grainSize
  have hnet : (size + (2 ^ 64 - grainSize)) % 2 ^ 64 =
      (size / grainSize - 1) * grainSize + size % grainSize := by
    have h1 : (size / grainSize - 1) * grainSize + grainSize = grainSize * (size / grainSize) := by
      rw [← Nat.succ_mul, Nat.succ_eq_add_one, Nat.sub_add_cancel (by omega), Nat.mul_comm]
    have hle : grainSize ≤ size := by
      have := Nat.le_of_lt (Nat.lt_of_lt_of_le hq (Nat.sub_le _ _))
      exact (Nat.div_pos_iff.mp (by omega)).2
    rw [show size + (2 ^ 64 - grainSize) = (size / grainSize - 1) * grainSize + size % grainSize +
      2 ^ 64 by omega, Nat.add_mod_right]
    exact Nat.mod_eq_of_lt (by omega)
  have hdiv : ((size / grainSize - 1) * grainSize + size % grainSize) / (n * grainSize) =
      (size / grainSize - 1) * grainSize / (n * grainSize) := by
    rw [Nat.mul_comm n, ← Nat.div_div_eq_div_mul, ← Nat.div_div_eq_div_mul,
      Nat.mul_comm, Nat.mul_add_div hg, Nat.div_eq_of_lt (Nat.mod_lt _ hg), Nat.add_zero,
      Nat.mul_div_cancel_left _ hg]
  rw [loopWaste, endWaste, hnet, hoffEq, Nat.mod_eq_of_lt hfit, alignDown, alignDown,
    if_neg hng.ne', if_neg hng.ne', hdiv]
  have hle := Nat.div_mul_le_self ((size / grainSize - 1) * grainSize) (n * grainSize)
  omega

/-! ## The outer loop -/

/-- One round of the loop of `init_local`: the metadata, the size of the store and the segment
size it begins with. -/
structure Try where
  md : SalsaMD
  sizeM : Nat
  segmentSize : Nat

def Try.fresh (dev : Dev) (grainSize : Nat) (t : Try) : SalsaMD :=
  t.md.init (t.md.defaultDevMd dev.size grainSize t.segmentSize)

/-- `check_dev_size` fails. -/
def Try.Rejected (dev : Dev) (grainSize : Nat) (t : Try) : Prop :=
  (t.fresh dev grainSize).checkDevSize dev.size t.segmentSize = false

/-- The round that follows, if the loop goes on. -/
def retry (env : Env) (forceDestroy : Bool) (dev : Dev) (grainSize : Nat) (t : Try) : Option Try :=
  match if forceDestroy then none else t.md.validateDevMd env.crc32 dev with
  | some _ => none
  | none =>
    let x := t.fresh dev grainSize
    if x.checkDevSize dev.size t.segmentSize then
      match env.scmInit x.getDevSize grainSize t.segmentSize with
      | none => none
      | some _ =>
        let n := sanitizeSegmentSize env.pageSize grainSize (t.segmentSize / 2)
        if n ≤ 1 then none else some ⟨x, x.getDevSize, n⟩
    else
      (smallerSegment env.pageSize grainSize t.sizeM t.segmentSize).map fun n => ⟨x, t.sizeM, n⟩

section Rounds

variable {env : Env} {forceDestroy : Bool} {dev : Dev} {grainSize : Nat} {t t' : Try}

/-- A round follows because the capacity manager refused, or because there is no room for the
metadata. -/
theorem retry_cases (h : retry env forceDestroy dev grainSize t = some t') :
    (¬ t.Rejected dev grainSize ∧ 1 < t'.segmentSize ∧
      t'.segmentSize = sanitizeSegmentSize env.pageSize grainSize (t.segmentSize / 2)) ∨
    (t.Rejected dev grainSize ∧
      smallerSegment env.pageSize grainSize t.sizeM t.segmentSize = some t'.segmentSize) := by
  revert h
  fun_cases retry env forceDestroy dev grainSize t with
  | case4 hv x hcheck rc hscm n hn =>
    subst x
    rintro ⟨⟩
    refine .inl ⟨?_, Nat.not_le.mp hn, rfl⟩
    rw [Try.Rejected, hcheck]
    exact Bool.noConfusion
  | case5 hv x hcheck =>
    intro h
    obtain ⟨n, hn, rfl⟩ := Option.map_eq_some_iff.mp h
    exact .inr ⟨Bool.eq_false_iff.mpr hcheck, hn⟩
  | _ => rintro ⟨⟩

theorem initLoop_retry (h : retry env forceDestroy dev grainSize t = some t') :
    initLoop env forceDestroy dev t.md t.sizeM grainSize t.segmentSize =
      initLoop env forceDestroy dev t'.md t'.sizeM grainSize t'.segmentSize := by
  have hfresh : t.md.init (t.md.defaultDevMd dev.size grainSize t.segmentSize) =
    t.fresh dev grainSize := rfl
  revert h
  fun_cases retry env forceDestroy dev grainSize t with
  | case4 hv x hcheck rc hscm n hn =>
    subst x
    rintro ⟨⟩
    rw [initLoop, hv]
    dsimp only
    rw [hfresh, if_pos hcheck, hscm]
    exact if_neg hn
  | case5 hv x hcheck =>
    subst x
    intro h
    obtain ⟨n, hn, rfl⟩ := Option.map_eq_some_iff.mp h
    rw [initLoop, hv]
    dsimp only
    rw [hfresh, if_neg hcheck]
    split
    · rename_i hnone
      cases hnone.symm.trans hn
    · rename_i m hm
      cases hm.symm.trans hn
      rfl
  | _ => rintro ⟨⟩

theorem retry_lt (hg : 0 < grainSize) (h : retry env forceDestroy dev grainSize t = some t') :
    t'.segmentSize < t.segmentSize ∧ 0 < t'.segmentSize := by
  rcases retry_cases h with ⟨-, hn, heq⟩ | ⟨-, hn⟩
  · have hle := sanitizeSegmentSize_le env.pageSize grainSize (t.segmentSize / 2)
    omega
  · have hspec := smallerSegment_spec hg hn
    exact ⟨hspec.2.1, hspec.1⟩

/-- A size of one page or less was rejected, and grains are smaller than pages. -/
def Try.Lifted (env : Env) (dev : Dev) (grainSize : Nat) (t : Try) : Prop :=
  grainSize < env.pageSize ∧ t.Rejected dev grainSize ∧ t.segmentSize * grainSize ≤ env.pageSize

variable {i j : Nat}

theorem page_dvd_sanitize_iff (hp : env.pageSize = 2 ^ i) (hg : grainSize = 2 ^ j) (n : Nat) :
    env.pageSize ∣ sanitizeSegmentSize env.pageSize grainSize n * grainSize ↔
      (grainSize < env.pageSize → env.pageSize ≤ n * grainSize) := by
  have hpos : 0 < grainSize := hg ▸ Nat.two_pow_pos j
  rw [page_dvd_iff hp hg]
  by_cases hlt : grainSize < env.pageSize
  · have hmul := stepSize_mul hp hg hlt
    have hle : env.pageSize ≤ n * grainSize ↔ stepSize env.pageSize grainSize ≤ n := by
      conv_lhs => rw [← hmul]
      exact Nat.mul_le_mul_right_iff hpos
    rw [hle]
    constructor
    · intro hdvd _
      by_contra hn
      have hzero : alignDown n (stepSize env.pageSize grainSize) = 0 := by
        rw [alignDown]
        split
        · rfl
        · rw [Nat.div_eq_of_lt (Nat.not_le.mp hn), Nat.zero_mul]
      rw [sanitizeSegmentSize_eq, hzero] at hdvd
      rw [Nat.dvd_one.mp hdvd, Nat.one_mul] at hmul
      omega
    · intro hn
      exact dvd_sanitizeSegmentSize (.inr (hn hlt)) hpos
  · refine iff_of_true ?_ fun h => absurd h hlt
    rw [stepSize, if_neg hlt]
    exact Nat.one_dvd _

theorem retry_page_dvd_iff (hp : env.pageSize = 2 ^ i) (hg : grainSize = 2 ^ j)
    (h : retry env forceDestroy dev grainSize t = some t') :
    env.pageSize ∣ t'.segmentSize * grainSize ↔ ¬ t.Lifted env dev grainSize := by
  have hpos : 0 < grainSize := hg ▸ Nat.two_pow_pos j
  rcases retry_cases h with ⟨hrej, hn, heq⟩ | ⟨hrej, hn⟩
  · refine iff_of_true ?_ fun hl => hrej hl.2.1
    rw [page_dvd_iff hp hg]
    rw [heq] at hn ⊢
    exact dvd_sanitizeSegmentSize (.inl hn) hpos
  · obtain ⟨hr0, hrlt, hdvd, -⟩ := smallerSegment_spec hpos hn
    rw [page_dvd_iff hp hg]
    by_cases hlt : grainSize < env.pageSize
    · have hmul := stepSize_mul hp hg hlt
      have hle : t.segmentSize * grainSize ≤ env.pageSize ↔
          t.segmentSize ≤ stepSize env.pageSize grainSize := by
        conv_lhs => rw [← hmul]
        exact Nat.mul_le_mul_right_iff hpos
      constructor
      · intro hd hl
        have := Nat.le_of_dvd hr0 hd
        have := hle.mp hl.2.2
        omega
      · intro hl
        refine hdvd ?_
        by_contra hs
        exact hl ⟨hlt, hrej, hle.mpr (Nat.not_lt.mp hs)⟩
    · refine iff_of_true ?_ fun hl => hlt hl.1
      rw [stepSize, if_neg hlt]
      exact Nat.one_dvd _

/-- Among the sizes between half and the rejected one that are multiples of the page, the next
one wastes the fewest bytes, and is one of them if there is one. -/
def Best (env : Env) (dev : Dev) (grainSize : Nat) (t t' : Try) : Prop :=
  ∀ m, t.segmentSize / 2 < m → m < t.segmentSize → env.pageSize ∣ m * grainSize →
    t.segmentSize / 2 < t'.segmentSize ∧
      endWaste dev.size grainSize t'.segmentSize ≤ endWaste dev.size grainSize m

/-- The metadata of the device takes one grain, no size was halved yet, and no product wraps. -/
def Try.WholeDevice (dev : Dev) (grainSize : Nat) (t : Try) : Prop :=
  devMdSizeb ≤ grainSize ∧ t.sizeM = dev.size ∧ t.segmentSize * grainSize < 2 ^ 64

theorem retry_best (hp : env.pageSize = 2 ^ i) (hg : grainSize = 2 ^ j) (hdev : dev.size < 2 ^ 64)
    (hrej : t.Rejected dev grainSize) (hwhole : t.WholeDevice dev grainSize)
    (h : retry env forceDestroy dev grainSize t = some t') : Best env dev grainSize t t' := by
  have hpos : 0 < grainSize := hg ▸ Nat.two_pow_pos j
  obtain ⟨hmd, hsize, hfit⟩ := hwhole
  intro m hm hlt hdvd
  rcases retry_cases h with ⟨hrej', -, -⟩ | ⟨-, hn⟩
  · exact absurd hrej hrej'
  obtain ⟨hr0, hrlt, -, hbest⟩ := smallerSegment_spec hpos hn
  obtain ⟨hhalf, hle⟩ := hbest m hm hlt ((page_dvd_iff hp hg).mp hdvd)
  refine ⟨hhalf, ?_⟩
  by_cases hoff : devMdGrainOffset dev.size grainSize = 0
  · -- a device without room for a segment has nothing to waste
    rw [endWaste, hoff, Nat.zero_sub]
    exact Nat.zero_le _
  · have hfits : ∀ n, n < t.segmentSize → n * grainSize < 2 ^ 64 := fun n hn =>
      (Nat.mul_le_mul_right grainSize hn.le).trans_lt hfit
    rw [hsize, loopWaste_eq hmd hdev hoff hr0 (hfits _ hrlt),
      loopWaste_eq hmd hdev hoff (by omega) (hfits _ hlt)] at hle
    exact Nat.le_of_add_le_add_right hle

end Rounds

namespace Conf

variable (conf : Conf) (env : Env) (dev : Dev)

/-- The grain size that a start of the store goes on with. -/
def grain : Nat := (conf.sanitize env.pageSize).grainSize

def first (clock : Nat) : Try :=
  ⟨.new clock (conf.grain env), dev.size, (conf.sanitize env.pageSize).segmentSize⟩

def loopFrom (t : Try) : Except InitErr (SalsaMD × Bool) :=
  initLoop env conf.forceDestroy dev t.md t.sizeM (conf.grain env) t.segmentSize

def next : Try → Option Try := retry env conf.forceDestroy dev (conf.grain env)

/-- The inner loop of a round with `k` rounds of its own more than the candidate it begins
with. -/
def inner (t : Try) (k : Nat) : Nat :=
  let n := sanitizeSegmentSize env.pageSize (conf.grain env) (t.segmentSize - 1)
  bestSegment env.pageSize (conf.grain env) t.sizeM (t.segmentSize / 2) (n + k) n (2 ^ 64 - 1) n

theorem exists_grain_pow : ∃ j, conf.grain env = 2 ^ j := by
  have h : ∀ g, ∃ j, sanitizeGrainSize g = 2 ^ j := fun g =>
    ⟨_, if_neg (Nat.lt_of_lt_of_le Nat.one_pos (Nat.le_max_left 1 g)).ne'⟩
  exact h _

structure Usable (t t' : Try) : Prop where
  goesOn : conf.loopFrom env dev t = conf.loopFrom env dev t'
  smaller : t'.segmentSize < t.segmentSize
  pos : 0 < t'.segmentSize * conf.grain env
  aligned : env.pageSize ∣ t'.segmentSize * conf.grain env ↔ ¬ t.Lifted env dev (conf.grain env)
  best : t.Rejected dev (conf.grain env) → t.WholeDevice dev (conf.grain env) →
    Best env dev (conf.grain env) t t'

/-- For every device, grain size and configured segment size both loops end, and each size tried
is positive and below the one before. It is a multiple of the page unless the size before was
rejected and had at most one page, and the first is if one page at least was configured. It wastes
the fewest bytes if the metadata takes one grain and no size was halved before. -/
theorem search_usable {i : Nat} (hp : env.pageSize = 2 ^ i) (hdev : dev.size < 2 ^ 64)
    (clock : Nat) :
    WellFounded (fun t' t => conf.next env dev t = some t') ∧
      (∀ t : Try, 1 < t.segmentSize → ∀ k, conf.inner env t k = conf.inner env t 0) ∧
      (env.pageSize ∣ (conf.first env dev clock).segmentSize * conf.grain env ↔
        (conf.grain env < env.pageSize → env.pageSize ≤ conf.segmentSize * conf.grain env)) ∧
      ∀ t t', conf.next env dev t = some t' → conf.Usable env dev t t' := by
  obtain ⟨j, hg⟩ := conf.exists_grain_pow env
  have hpos : 0 < conf.grain env := hg ▸ Nat.two_pow_pos j
  refine ⟨?_, fun t hseg k => ?_, ?_, fun t t' h => ?_⟩
  · refine Subrelation.wf (fun h => ?_) (measure Try.segmentSize).wf
    exact (retry_lt hpos h).1
  · exact bestSegment_fuel (by omega) (Nat.le_refl _) _ _ k
  · exact page_dvd_sanitize_iff hp hg conf.segmentSize
  · have hlt := retry_lt hpos h
    exact ⟨initLoop_retry h, hlt.1, Nat.mul_pos hlt.2 hpos, retry_page_dvd_iff hp hg h,
      fun hrej hwhole => retry_best hp hg hdev hrej hwhole h⟩

/-- A system with pages of 4 KiB, on which every capacity manager starts. -/
def plainEnv : Env := ⟨4096, fun _ _ => 0, fun _ _ _ => none, fun _ _ => none, false, fun _ => 0⟩

def emptyDev (size : Nat) : Dev := ⟨fun _ => 0, size⟩

/-- A megabyte is not left with segments of 16 pages, which leave no room for metadata, but with
segments of 15, which waste nothing. -/
theorem search_megabyte :
    ∃ t', Conf.next ⟨false, 2 ^ 20, 4096, 16, true⟩ plainEnv (emptyDev (2 ^ 20))
        (Conf.first ⟨false, 2 ^ 20, 4096, 16, true⟩ plainEnv (emptyDev (2 ^ 20)) 0) = some t' ∧
      t'.segmentSize = 15 ∧
      Conf.Usable ⟨false, 2 ^ 20, 4096, 16, true⟩ plainEnv (emptyDev (2 ^ 20))
        (Conf.first ⟨false, 2 ^ 20, 4096, 16, true⟩ plainEnv (emptyDev (2 ^ 20)) 0) t' := by
  have h := search_usable ⟨false, 2 ^ 20, 4096, 16, true⟩ plainEnv (emptyDev (2 ^ 20)) (i := 12) rfl
    (show 2 ^ 20 < 2 ^ 64 by decide) 0
  exact ⟨_, rfl, by decide +kernel, h.2.2.2 _ _ rfl⟩

/-- Three pages, in segments of one page of eight grains: after this size one grain is tried,
which is no multiple of the page. -/
theorem search_lifted :
    ∃ t', Conf.next ⟨false, 12288, 512, 8, true⟩ plainEnv (emptyDev 12288)
        (Conf.first ⟨false, 12288, 512, 8, true⟩ plainEnv (emptyDev 12288) 0) = some t' ∧
      t'.segmentSize = 1 ∧ Conf.grain ⟨false, 12288, 512, 8, true⟩ plainEnv = 512 ∧
      ¬ plainEnv.pageSize ∣ 1 * 512 :=
  ⟨_, rfl, by decide +kernel, by decide +kernel, by decide⟩

end Conf

end UDepot.DeviceMd
