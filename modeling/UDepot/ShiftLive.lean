import UDepot.GrowLive

/-! `try_shift` and the entries. The displacement of an entry swaps it with a
slot that is not live. If that slot was never used, the entries of the directory
stay the same and each stays in its place; a tombstone in that slot would be
carried to a position from which its bucket is not recovered, which is what the
assertion on the victim in `try_shift_one` excludes. -/

namespace UDepot
open Scan

variable {bits : Nat}

namespace UDepotMap

/-- No displacement of the loop of `try_shift` has a tombstone as its victim. -/
def shiftClean (t : UDepotMap bits) (first pFree p : Nat) : Bool :=
  if first ≤ p ∧ p < pFree then
    match t.nextFree (t.entryKeyfp p) with
    | some v =>
      !(t.ht v).deleted &&
        (decide (p - first < 32) || shiftClean (t.displace p v) first p (max first (p - 31)))
    | none => shiftClean t first pFree (p + 1)
  else true
  termination_by (pFree, pFree - p)

/-- `shiftClean` for the whole of `try_shift(h)`. -/
def tryShiftClean (t : UDepotMap bits) (h : Nat) : Bool :=
  match t.shiftFree h with
  | none => true
  | some pFree => shiftClean t (hashToHb32 bits h) pFree (pFree - 31)

/-- One displacement of a live entry to a slot that was never used. -/
structure CleanStep (t t' : UDepotMap bits) (p v : Nat) : Prop where
  wf : t.Wf
  live : (t.ht p).live = true
  target : t.Target p v
  unused : (t.ht v).used = false
  displaced : Displaced t t' p v

theorem ShiftInv.cleanStep {t : UDepotMap bits} {first pFree p v : Nat} (i : t.ShiftInv first pFree)
    (hp : first ≤ p ∧ p < pFree) (hv : t.nextFree (t.entryKeyfp p) = some v)
    (hd : (t.ht v).deleted = false) : CleanStep t (t.displace p v) p v := by
  obtain ⟨ht, hdis, _⟩ := i.step hp hv
  refine ⟨i.wf, i.full p hp.1 hp.2, ht, ?_, hdis⟩
  have hl := ht.not_live
  simpa [HashEntry.live, hd] using hl

/-- What every displacement with a slot that was never used keeps, a clean loop keeps; the invariant
may speak of the free slot. -/
theorem shiftLoop_rule {P : UDepotMap bits → Nat → Prop} {t : UDepotMap bits} {first pFree p : Nat}
    (hstep : ∀ t pFree p v, P t pFree → first ≤ p ∧ p < pFree →
      t.nextFree (t.entryKeyfp p) = some v → (t.ht v).deleted = false → P (t.displace p v) p)
    (hc : shiftClean t first pFree p = true) (h : P t pFree) :
    ∃ r, P (t.shiftLoop first pFree p).1 r := by
  fun_induction shiftLoop t first pFree p with
  | case1 t pFree p hp t' hs hlt =>
    obtain ⟨v, hv, rfl⟩ := Option.map_eq_some_iff.mp hs
    rw [shiftClean, if_pos hp, hv] at hc
    simp only [Bool.and_eq_true, Bool.not_eq_true'] at hc
    exact ⟨p, hstep t pFree p v h hp hv hc.1⟩
  | case2 t pFree p hp t' hs hlt ih =>
    obtain ⟨v, hv, rfl⟩ := Option.map_eq_some_iff.mp hs
    rw [shiftClean, if_pos hp, hv] at hc
    simp only [hlt, decide_false, Bool.false_or, Bool.and_eq_true, Bool.not_eq_true'] at hc
    exact ih hc.2 (hstep t pFree p v h hp hv hc.1)
  | case3 t pFree p hp hs ih =>
    rw [shiftClean, if_pos hp, Option.map_eq_none_iff.mp hs] at hc
    exact ih hc h
  | case4 t pFree p hp => exact ⟨pFree, h⟩

theorem tryShift_keeps {P : UDepotMap bits → Prop}
    (hstep : ∀ t t' p v, CleanStep t t' p v → P t → P t') {t : UDepotMap bits} (w : t.Wf) {h : Nat}
    (hn : t.nextFree h = none) (hc : t.tryShiftClean h = true) (hP : P t) : P (t.tryShift h).1 := by
  unfold tryShift
  unfold tryShiftClean at hc
  cases hf : t.shiftFree h with
  | none => exact hP
  | some pFree =>
    simp only [hf] at hc
    obtain ⟨_, -, h⟩ := shiftLoop_rule (P := fun t r => t.ShiftInv (hashToHb32 bits h) r ∧ P t)
      (fun t r p v ht hp hv hd => ⟨(ht.1.step hp hv).2.2,
        hstep _ _ _ _ (ht.1.cleanStep hp hv hd) ht.2⟩)
      hc ⟨shiftInv_start w hn hf, hP⟩
    exact h

namespace CleanStep

variable {t t' : UDepotMap bits} {p v : Nat}

theorem slot (s : CleanStep t t' p v) : t'.SlotWf v :=
  slotWf_of_offset (s.displaced.moved_offset s.target.lt_home) s.target.home_le s.target.lt_home
    (s.wf.slot p s.live).home_lt

theorem left_unused (s : CleanStep t t' p v) : (t'.ht p).used = false := by
  rw [s.displaced.left_used]
  exact s.unused

theorem keyfp (s : CleanStep t t' p v) : t'.entryKeyfp v = t.entryKeyfp p := by
  have htag : (t'.ht v).keyTag = (t.ht p).keyTag := by rw [s.displaced.moved]; rfl
  rw [s.slot.entryKeyfp_eq, (s.wf.slot p s.live).entryKeyfp_eq, htag,
    s.displaced.moved_home s.target]

theorem lt (s : CleanStep t t' p v) : p < entryNr bits ∧ v < entryNr bits := by
  have hh := (s.wf.slot p s.live).home_lt
  have h1 := (s.wf.slot p s.live).lt_home
  have h2 := s.target.lt_home
  unfold entryNr
  omega

theorem content_moved (s : CleanStep t t' p v) :
    Directory.content t' v = Directory.content t p := by
  unfold Directory.content
  rw [s.keyfp, s.displaced.moved, HashEntry.setOffset_used, HashEntry.setOffset_deleted]
  rfl

end CleanStep
end UDepotMap

namespace Directory
open UDepotMap

theorem setMap_setMap (d : Directory bits) (i : Nat) (t t' : UDepotMap bits) :
    (d.setMap i t).setMap i t' = d.setMap i t' := by
  unfold setMap
  simp only [Function.update_idem]

theorem setMap_map (d : Directory bits) (i : Nat) : d.setMap i (d.map i) = d := by
  unfold setMap
  simp only [Function.update_eq_self]

variable {i : Nat}

theorem entries_cleanStep (d : Directory bits) {p v : Nat} {t t' : UDepotMap bits}
    (hi : i < 2 ^ d.idxBits) (s : CleanStep t t' p v) :
    (d.setMap i t').entries = (d.setMap i t).entries := by
  obtain ⟨hp, hv⟩ := s.lt
  have hne := s.target.ne s.live
  -- first the copy of the entry at its new slot, then the old slot is cleared
  have h1 := entries_setMap (d.setMap i t) (t := t.set v (t'.ht v)) hi hv fun r hr => by
    rw [set_other _ _ hr, setMap_self]
  have h2 := entries_setMap (d.setMap i (t.set v (t'.ht v))) (t := t') hi hp fun r hr => by
    rw [setMap_self]
    by_cases hrv : r = v
    · rw [hrv, set_self]
    · rw [set_other _ _ hrv, s.displaced.other r hr hrv]
  rw [setMap_setMap, setMap_self, content_of_unused s.unused, add_zero,
    content_congr (set_self t v (t'.ht v)), s.content_moved] at h1
  rw [setMap_setMap, setMap_self, content_of_unused s.left_unused, add_zero,
    content_congr (set_other t (t'.ht v) hne.symm), h1] at h2
  exact add_right_cancel h2

theorem placed_cleanStep {hashOf : Nat → Nat} {d : Directory bits} {p v : Nat}
    {t t' : UDepotMap bits} (hi : i < 2 ^ d.idxBits) (s : CleanStep t t' p v)
    (h : (d.setMap i t).Placed hashOf) : (d.setMap i t').Placed hashOf := by
  intro j hj q hq hu
  by_cases hji : j = i
  · subst hji
    by_cases hqv : q = v
    · subst hqv
      have hp := h j hj p s.lt.1 (by
        rw [setMap_self]
        exact ((HashEntry.live_iff _).mp s.live).1)
      have hpba : (t'.ht q).pba = (t.ht p).pba := by rw [s.displaced.moved]; rfl
      refine ⟨?_, ?_, ?_⟩
      · rw [setMap_self]
        exact s.slot
      · have hk := hp.keyfp
        rw [setMap_self] at hk ⊢
        rw [s.keyfp, hpba, hk]
      · have ht := hp.table
        rw [setMap_self] at ht ⊢
        rw [hpba]
        exact ht
    · by_cases hqp : q = p
      · subst hqp
        rw [setMap_self, s.left_unused] at hu
        cases hu
      · have he : ((d.setMap j t').map j).ht q = ((d.setMap j t).map j).ht q := by
          rw [setMap_self, setMap_self, s.displaced.other q hqp hqv]
        rw [he] at hu
        exact (h j hj q hq hu).congr rfl he
  · have he : ((d.setMap i t').map j).ht q = ((d.setMap i t).map j).ht q := by
      rw [setMap_other _ _ hji, setMap_other _ _ hji]
    rw [he] at hu
    exact (h j hj q hq hu).congr rfl he

theorem tryShift_entries {hashOf : Nat → Nat} {d : Directory bits} {h : Nat}
    (hi : i < 2 ^ d.idxBits) (w : (d.map i).Wf) (hn : (d.map i).nextFree h = none)
    (hc : (d.map i).tryShiftClean h = true) (hp : d.Placed hashOf) :
    (d.setMap i ((d.map i).tryShift h).1).entries = d.entries ∧
      (d.setMap i ((d.map i).tryShift h).1).Placed hashOf := by
  refine tryShift_keeps (P := fun t => (d.setMap i t).entries = d.entries ∧
    (d.setMap i t).Placed hashOf) (fun t t' p v s ht => ?_) w hn hc ?_
  · exact ⟨(d.entries_cleanStep hi s).trans ht.1, placed_cleanStep hi s ht.2⟩
  · rw [setMap_map]
    exact ⟨rfl, hp⟩

end Directory
end UDepot
