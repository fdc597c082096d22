import UDepot.Lookup

/-! `try_shift`: one displacement swaps a live entry with a free slot of its own
window, and the loop chains displacements until a slot of the full window is
free. When the slot the chain starts from was never used, every displacement
leaves a never-used hole where the moved entry stood, in front of its new place;
`shiftKeeps` follows the loop and says whether that hole is closed again. -/

namespace UDepot.UDepotMap
open Scan Option

variable {bits : Nat}

/-! ## One displacement -/

/-- `t'` is `t` with the entry of `p` moved to `v` and what `v` held at `p`. -/
structure Displaced (t t' : UDepotMap bits) (p v : Nat) : Prop where
  moved : t'.ht v = (t.ht p).setOffset (v - t.home p)
  left : t'.ht p = (t.ht v).setOffset (t'.ht p).bucketOffset
  other : ∀ r, r ≠ p → r ≠ v → t'.ht r = t.ht r

/-- The target of a displacement: the first free slot of the window of the
bucket that the entry at `p` belongs to. -/
structure Target (t : UDepotMap bits) (p v : Nat) : Prop where
  home_le : t.home p ≤ v
  lt_home : v < t.home p + 32
  free : (t.ht v).free = true
  first : ∀ r, t.home p ≤ r → r < v → (t.ht r).live = true

variable {t : UDepotMap bits}

theorem Target.not_live {p v : Nat} (h : t.Target p v) :
    (t.ht v).live = false := by
  simpa [HashEntry.free_eq_not_live] using h.free

theorem Target.ne {p v : Nat} (h : t.Target p v) (hp : (t.ht p).live = true) :
    v ≠ p := by
  rintro rfl
  simp [h.not_live] at hp

theorem target_of_nextFree (w : t.Wf) {p v : Nat} (hp : (t.ht p).live = true)
    (hv : t.nextFree (t.entryKeyfp p) = some v) : t.Target p v := by
  obtain ⟨⟨h1, h2⟩, h3, h4⟩ := (nextFree_eq_some w.bits_le).mp hv
  rw [(w.slot p hp).hashToHb_keyfp] at h1 h2 h4
  exact ⟨h1, h2, h3, h4⟩

theorem displace_displaced {p v : Nat} (hp : t.SlotWf p) (hne : v ≠ p)
    (h1 : t.home p ≤ v) (h2 : v < t.home p + 32) : Displaced t (t.displace p v) p v := by
  have hoff : (t.ht p).setOffset (v + 2 ^ 64 - hashToHb bits (t.entryKeyfp p)) =
      (t.ht p).setOffset (v - t.home p) := by
    rw [hp.hashToHb_keyfp]
    apply HashEntry.setOffset_congr
    omega
  have hcand : ((t.set p (t.ht v)).set v ((t.ht p).setOffset (v - t.home p))).ht p = t.ht v := by
    rw [set_other _ _ hne.symm, set_self]
  unfold displace
  simp only [hoff, hcand]
  split
  · refine ⟨?_, ?_, fun r hr1 hr2 => ?_⟩
    · rw [set_other _ _ hne, set_self]
    · rw [set_self, HashEntry.setOffset_bucketOffset, HashEntry.setOffset_self_mod]
    · rw [set_other _ _ hr1, set_other _ _ hr2, set_other _ _ hr1]
  · refine ⟨set_self _ _ _, ?_, fun r hr1 hr2 => ?_⟩
    · rw [hcand, HashEntry.setOffset_self]
    · rw [set_other _ _ hr2, set_other _ _ hr1]

namespace Displaced

variable {t t' : UDepotMap bits} {p v : Nat}

theorem left_used (d : Displaced t t' p v) : (t'.ht p).used = (t.ht v).used := by
  rw [d.left, HashEntry.setOffset_used]
theorem left_deleted (d : Displaced t t' p v) : (t'.ht p).deleted = (t.ht v).deleted := by
  rw [d.left, HashEntry.setOffset_deleted]
theorem left_live (d : Displaced t t' p v) : (t'.ht p).live = (t.ht v).live := by
  rw [d.left, HashEntry.setOffset_live]
theorem moved_used (d : Displaced t t' p v) : (t'.ht v).used = (t.ht p).used := by
  rw [d.moved, HashEntry.setOffset_used]
theorem moved_live (d : Displaced t t' p v) : (t'.ht v).live = (t.ht p).live := by
  rw [d.moved, HashEntry.setOffset_live]

theorem moved_offset (d : Displaced t t' p v) (h : v < t.home p + 32) :
    (t'.ht v).bucketOffset = v - t.home p := by
  rw [d.moved, HashEntry.setOffset_bucketOffset]
  omega

theorem moved_home (d : Displaced t t' p v) (hv : t.Target p v) : t'.home v = t.home p :=
  home_of_offset (d.moved_offset hv.lt_home) hv.home_le

theorem wf (d : Displaced t t' p v) (w : t.Wf) (hp : (t.ht p).live = true) (hv : t.Target p v) :
    t'.Wf := by
  refine ⟨w.bits_le, fun q hq => ?_, fun q hq => ?_⟩
  · by_cases hqv : q = v
    · subst hqv
      exact slotWf_of_offset (d.moved_offset hv.lt_home) hv.home_le hv.lt_home (w.slot p hp).home_lt
    · by_cases hqp : q = p
      · subst hqp
        rw [d.left_live, hv.not_live] at hq
        cases hq
      · have ho := d.other q hqp hqv
        rw [ho] at hq
        exact (w.slot q hq).congr ho
  · by_cases hqv : q = v
    · subst hqv
      rw [d.moved_used, ((HashEntry.live_iff _).mp hp).1] at hq
      cases hq
    · by_cases hqp : q = p
      · subst hqp
        rw [d.left_used] at hq
        rw [d.left_deleted]
        exact w.clean v hq
      · rw [d.other q hqp hqv] at hq ⊢
        exact w.clean q hq

theorem used_of_ne (d : Displaced t t' p v) (hp : (t.ht p).live = true) {r : Nat}
    (h : (t.ht r).used = true) (hr : r ≠ p) : (t'.ht r).used = true := by
  by_cases hrv : r = v
  · subst hrv
    rw [d.moved_used]
    exact ((HashEntry.live_iff _).mp hp).1
  · rwa [d.other r hr hrv]

end Displaced

/-! ## Holes -/

/-- No never-used slot but `hole` lies between a live entry's bucket and the
entry. -/
def NoGapBut (t : UDepotMap bits) (hole : Option Nat) : Prop :=
  ∀ q, (t.ht q).live = true → ∀ r, t.home q ≤ r → r < q → some r ≠ hole → (t.ht r).used = true

theorem noGapBut_none : t.NoGapBut none ↔ t.NoGap := by
  simp [NoGapBut, NoGap]

/-- The hole that is open after the displacement of `p` to `v`. A tombstone that
comes to `p` leaves no hole; a never-used slot does, and only one hole at a time
can be closed by the next displacement. -/
def holeAfter (t : UDepotMap bits) (hole : Option Nat) (p v : Nat) : Option (Option Nat) :=
  if (t.ht v).used then some hole
  else if hole = none ∨ hole = some v then some (some p)
  else none

theorem Displaced.noGapBut {t t' : UDepotMap bits} {p v : Nat} {hole hole' : Option Nat}
    (d : Displaced t t' p v) (hp : (t.ht p).live = true) (hv : t.Target p v) (g : t.NoGapBut hole)
    (hh : t.holeAfter hole p v = some hole') : t'.NoGapBut hole' := by
  have hne := hv.ne hp
  -- an entry of `t'` reaches over a slot only if one of `t` did or it is the moved one
  have key : ∀ q, (t'.ht q).live = true → ∀ r, t'.home q ≤ r → r < q →
      some r ≠ hole ∨ q = v → (t.ht r).used = true := by
    intro q hq r h1 h2 h3
    by_cases hqv : q = v
    · subst hqv
      rw [d.moved_home hv] at h1
      exact ((HashEntry.live_iff _).mp (hv.first r h1 h2)).1
    · by_cases hqp : q = p
      · subst hqp
        rw [d.left_live, hv.not_live] at hq
        cases hq
      · rw [d.other q hqp hqv] at hq
        rw [home_congr (d.other q hqp hqv)] at h1
        exact g q hq r h1 h2 (h3.resolve_right hqv)
  unfold holeAfter at hh
  split at hh
  · rename_i hu
    cases hh
    intro q hq r h1 h2 h3
    by_cases hrp : r = p
    · subst hrp
      rw [d.left_used]
      exact hu
    · exact d.used_of_ne hp (key q hq r h1 h2 (.inl h3)) hrp
  · split at hh
    · rename_i hu ho
      cases hh
      intro q hq r h1 h2 h3
      have hrp : r ≠ p := fun h => h3 (by rw [h])
      by_cases hrv : r = v
      · subst hrv
        rw [d.moved_used]
        exact ((HashEntry.live_iff _).mp hp).1
      · refine d.used_of_ne hp (key q hq r h1 h2 (.inl ?_)) hrp
        rcases ho with ho | ho
        · simp [ho]
        · rw [ho]
          exact fun h => hrv (Option.some.inj h)
    · cases hh

/-! ## The loop -/

/-- The loop of `try_shift` opens at most one hole at a time and leaves none
open but, when the slot it returns is then filled (`fill`), that slot. -/
def shiftKeeps (fill : Bool) (t : UDepotMap bits) (first pFree p : Nat) (hole : Option Nat) :
    Bool :=
  if first ≤ p ∧ p < pFree then
    match t.nextFree (t.entryKeyfp p) with
    | some v =>
      match t.holeAfter hole p v with
      | none => false
      | some hole' =>
        if p - first < 32 then hole' == none || (fill && hole' == some p)
        else shiftKeeps fill (t.displace p v) first p (max first (p - 31)) hole'
    | none => shiftKeeps fill t first pFree (p + 1) hole
  else hole == none
  termination_by (pFree, pFree - p)

/-- `shiftKeeps` for the whole of `try_shift(h)`. -/
def tryShiftKeeps (fill : Bool) (t : UDepotMap bits) (h : Nat) : Bool :=
  match t.shiftFree h with
  | none => true
  | some pFree => shiftKeeps fill t (hashToHb32 bits h) pFree (pFree - 31) none

/-- What the loop maintains: the slots up to the free one are live. -/
structure ShiftInv (t : UDepotMap bits) (first pFree : Nat) : Prop where
  wf : t.Wf
  full : ∀ r, first ≤ r → r < pFree → (t.ht r).live = true

variable {first pFree h : Nat}

theorem ShiftInv.step {p v : Nat} (i : t.ShiftInv first pFree)
    (hp : first ≤ p ∧ p < pFree) (hv : t.nextFree (t.entryKeyfp p) = some v) :
    t.Target p v ∧ Displaced t (t.displace p v) p v ∧ (t.displace p v).ShiftInv first p := by
  have hlive := i.full p hp.1 hp.2
  have ht := target_of_nextFree i.wf hlive hv
  have hd := displace_displaced (i.wf.slot p hlive) (ht.ne hlive) ht.home_le ht.lt_home
  refine ⟨ht, hd, hd.wf i.wf hlive ht, fun r h1 h2 => ?_⟩
  have hr := i.full r h1 (by omega)
  have hrv : r ≠ v := by
    rintro rfl
    simp [ht.not_live] at hr
  rw [hd.other r (by omega) hrv]
  exact hr

structure ShiftResult (t' : UDepotMap bits) (first : Nat) (res : Option Nat) : Prop where
  wf : t'.Wf
  slot : ∀ q, res = some q → first ≤ q ∧ q < first + 32 ∧ (t'.ht q).free = true ∧
    ∀ r, first ≤ r → r < q → (t'.ht r).live = true

theorem shiftLoop_result {p : Nat} (i : t.ShiftInv first pFree) :
    ShiftResult (t.shiftLoop first pFree p).1 first (t.shiftLoop first pFree p).2 := by
  fun_induction shiftLoop t first pFree p with
  | case1 t pFree p hp t' hs hlt =>
    obtain ⟨v, hv, rfl⟩ := map_eq_some_iff.mp hs
    obtain ⟨ht, hd, hi⟩ := i.step hp hv
    refine ⟨hi.wf, ?_⟩
    rintro _ ⟨⟩
    refine ⟨hp.1, by omega, ?_, hi.full⟩
    rw [HashEntry.free_eq_not_live, hd.left_live, ht.not_live]
    rfl
  | case2 t pFree p hp t' hs hlt ih =>
    obtain ⟨v, hv, rfl⟩ := map_eq_some_iff.mp hs
    exact ih (i.step hp hv).2.2
  | case3 t pFree p hp hs ih => exact ih i
  | case4 t pFree p hp => exact ⟨i.wf, by simp⟩

theorem shiftLoop_noGap {fill : Bool} {p : Nat} {hole : Option Nat}
    (i : t.ShiftInv first pFree) (g : t.NoGapBut hole)
    (hk : shiftKeeps fill t first pFree p hole = true) :
    (t.shiftLoop first pFree p).1.NoGap ∨ fill = true ∧ ∃ q,
      (t.shiftLoop first pFree p).2 = some q ∧
        (t.shiftLoop first pFree p).1.NoGapBut (some q) := by
  fun_induction shiftLoop t first pFree p generalizing hole with
  | case1 t pFree p hp t' hs hlt =>
    obtain ⟨v, hv, rfl⟩ := map_eq_some_iff.mp hs
    obtain ⟨ht, hd, hi⟩ := i.step hp hv
    rw [shiftKeeps, if_pos hp, hv] at hk
    cases hh : t.holeAfter hole p v with
    | none => simp [hh] at hk
    | some hole' =>
      have hg := hd.noGapBut (i.full p hp.1 hp.2) ht g hh
      simp only [hlt, ↓reduceIte, hh, Bool.or_eq_true, beq_iff_eq, Bool.and_eq_true] at hk
      rcases hk with rfl | ⟨hf, rfl⟩
      · exact .inl (noGapBut_none.mp hg)
      · exact .inr ⟨hf, p, rfl, hg⟩
  | case2 t pFree p hp t' hs hlt ih =>
    obtain ⟨v, hv, rfl⟩ := map_eq_some_iff.mp hs
    obtain ⟨ht, hd, hi⟩ := i.step hp hv
    rw [shiftKeeps, if_pos hp, hv] at hk
    cases hh : t.holeAfter hole p v with
    | none => simp [hh] at hk
    | some hole' =>
      simp only [hlt, ↓reduceIte, hh] at hk
      exact ih hi (hd.noGapBut (i.full p hp.1 hp.2) ht g hh) hk
  | case3 t pFree p hp hs ih =>
    rw [shiftKeeps, if_pos hp, map_eq_none_iff.mp hs] at hk
    exact ih i g hk
  | case4 t pFree p hp =>
    rw [shiftKeeps, if_neg hp] at hk
    obtain rfl : hole = none := by simpa using hk
    exact .inl (noGapBut_none.mp g)

/-- When the window of `h` is full, the loop starts with live slots up to the
free slot it found behind the window. -/
theorem shiftInv_start (w : t.Wf) (hn : t.nextFree h = none)
    (hf : t.shiftFree h = some pFree) : t.ShiftInv (hashToHb32 bits h) pFree := by
  refine ⟨w, fun r h1 h2 => ?_⟩
  by_cases hr : r < hashToHb32 bits h + 32
  · rw [hashToHb32_eq w.bits_le] at h1 hr
    exact (nextFree_eq_none w.bits_le).mp hn r ⟨h1, hr⟩
  · have hfirst := (findFrom_eq_some.mp hf).first r (by omega) h2
    have hclean := w.clean r
    cases hu : (t.ht r).used <;> cases hd : (t.ht r).deleted <;>
      simp [hu, hd, HashEntry.live] at hfirst hclean ⊢

theorem tryShift_result (w : t.Wf) (hn : t.nextFree h = none) :
    ShiftResult (t.tryShift h).1 (hashToHb bits h) (t.tryShift h).2 := by
  unfold tryShift
  cases hf : t.shiftFree h with
  | none => exact ⟨w, fun q hq => by cases hq⟩
  | some pFree =>
    have hr := shiftLoop_result (p := pFree - 31) (shiftInv_start w hn hf)
    rwa [hashToHb32_eq w.bits_le] at hr ⊢

theorem tryShift_noGap (w : t.Wf) (g : t.NoGap) {fill : Bool}
    (hn : t.nextFree h = none) (hk : tryShiftKeeps fill t h = true) :
    (t.tryShift h).1.NoGap ∨ fill = true ∧ ∃ q,
      (t.tryShift h).2 = some q ∧ (t.tryShift h).1.NoGapBut (some q) := by
  unfold tryShift
  unfold tryShiftKeeps at hk
  cases hf : t.shiftFree h with
  | none => exact .inl g
  | some pFree =>
    simp only [hf] at hk
    exact shiftLoop_noGap (shiftInv_start w hn hf) (noGapBut_none.mpr g) hk

end UDepot.UDepotMap
