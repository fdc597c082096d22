import UDepot.AccountOps

/-! The books over whole runs. As long as a segment is released only without valid
grains, the counters are those of the charges of the map and the tables and of what
leaked, so no counter underflows. Without leaks they are exact. -/

namespace UDepot.Store
open Bytes UDepotMap Directory Config Ledger Relation Option

variable {c : Config}

/-! ## Runs -/

/-- The condition on the state before an event under which it does not leak. -/
def LeakFree (s : Store c) : Event → Prop
  | .put k v op as => s.PutLoopExact k v op as
  | .del k segs => s.DelExact k segs
  | .grow allocs => s.GrowExact allocs
  | .putFreeSeg i => (s.seg i).validNr = 0
  | _ => True

/-- The assertion of `scm_put_free_seg`. -/
def ReleaseOk (s : Store c) : Event → Prop
  | .putFreeSeg i => (s.seg i).validNr = 0
  | _ => True

def CountedStep (w w' : Store c × KvMap) : Prop :=
  ∃ ev, w.1.StepOk ev ∧ w.1.ReleaseOk ev ∧ exec w ev = some w'

def ExactStep (w w' : Store c × KvMap) : Prop :=
  ∃ ev, w.1.StepOk ev ∧ w.1.LeakFree ev ∧ exec w ev = some w'

variable {s : Store c} {ev : Event} {w w' : Store c × KvMap} {m : Nat → UInt8} {i : Nat}

theorem LeakFree.releaseOk (h : s.LeakFree ev) : s.ReleaseOk ev := by
  cases ev with
  | putFreeSeg i => exact h
  | _ => trivial

theorem ExactStep.counted (h : ExactStep w w') : CountedStep w w' := by
  obtain ⟨ev, hok, hfree, he⟩ := h
  exact ⟨ev, hok, hfree.releaseOk, he⟩

theorem step_books (hdev : DeviceFits c) (inv : w.1.Inv) (hM : w.1.Represents w.2)
    (hok : w.1.StepOk ev) (hrel : w.1.ReleaseOk ev) (he : exec w ev = some w') :
    Books (w.1.LeakFree ev) w.1 0 w'.1 0 := by
  cases ev with
  | put k v op as =>
    cases he
    exact put_books inv hdev hok.1 hok.2 hM
  | del k segs =>
    cases he
    exact del_books inv hdev hok segs
  | gc start i =>
    obtain ⟨s', hs, rfl⟩ := map_eq_some_iff.mp he
    exact localGcCallback_books inv hdev hs
  | shift h =>
    unfold exec at he
    dsimp only at he
    split at he
    · rename_i hn
      cases he
      exact shift_books inv hn hok.1 0
    · cases he
  | grow allocs =>
    cases he
    exact grow_books inv hok allocs
  | allocateSegment i =>
    obtain ⟨s', hs, rfl⟩ := map_eq_some_iff.mp he
    exact allocateSegment_books hs
  | recycleSegment i =>
    cases he
    exact recycleSegment_books w.1 i
  | putFreeSeg i =>
    obtain ⟨s', hs, rfl⟩ := map_eq_some_iff.mp he
    exact (putFreeSeg_books hrel hs).mono fun _ => trivial
  | ioFail i len bs =>
    obtain ⟨s', hs, rfl⟩ := map_eq_some_iff.mp he
    exact ioFail_books inv.toBase hs

theorem init_counts {c : Config} (m : Nat → UInt8) (i : Nat) :
    (init c m i).Counts (init c m i).charges := by
  have hch : (init c m i).charges = {(i * c.segSize, tableGrains c)} := by
    unfold charges tableCharges
    rw [init_entries]
    simp [init]
  have hidx : c.grainToSegIdx (i * c.segSize) = i := Nat.mul_div_cancel i c.seg_pos
  have hlt := c.md_lt
  rw [hch]
  refine ⟨fun j hj => ?_, fun j hj => ?_, by simp [init]⟩
  · rw [chargeAt_singleton, hidx]
    by_cases hji : j = i
    · subst hji
      simp only [init, openGrains, Function.update_self, if_true, tableGrains]
      rw [if_neg (by simp)]
      omega
    · simp [init, hji] at hj
  · rw [chargeAt_singleton, hidx]
    by_cases hji : j = i
    · simp [init, hji] at hj
    · exact ⟨by simp [init, hji], if_neg (Ne.symm hji)⟩

theorem counted_run (hb : c.bits ≤ 32) (hdev : DeviceFits c) (hi : i < c.segNr)
    (h : ReflTransGen CountedStep (init c m i, fun _ => none) w) :
    (w.1.Inv ∧ w.1.Represents w.2) ∧ ∃ L, w.1.Counts (w.1.charges + L) := by
  induction h with
  | refl =>
    refine ⟨⟨init_inv hb m hi, init_represents c m i⟩, 0, ?_⟩
    rw [add_zero]
    exact init_counts m i
  | tail _ hs ih =>
    obtain ⟨⟨inv, hM⟩, L, hL⟩ := ih
    obtain ⟨ev, hok, hrel, he⟩ := hs
    refine ⟨step_refines hdev inv hM ⟨ev, hok, he⟩, ?_⟩
    obtain ⟨L', hL', _⟩ := step_books hdev inv hM hok hrel he L (by rwa [add_zero])
    rw [add_zero, add_assoc] at hL'
    exact ⟨L' + L, hL'⟩

theorem exact_run (hb : c.bits ≤ 32) (hdev : DeviceFits c) (hi : i < c.segNr)
    (h : ReflTransGen ExactStep (init c m i, fun _ => none) w) :
    (w.1.Inv ∧ w.1.Represents w.2) ∧ w.1.Counts w.1.charges := by
  induction h with
  | refl => exact ⟨⟨init_inv hb m hi, init_represents c m i⟩, init_counts m i⟩
  | tail _ hs ih =>
    obtain ⟨⟨inv, hM⟩, hC⟩ := ih
    obtain ⟨ev, hok, hfree, he⟩ := hs
    refine ⟨step_refines hdev inv hM ⟨ev, hok, he⟩, ?_⟩
    obtain ⟨L, hL, hz⟩ := step_books hdev inv hM hok hfree.releaseOk he 0 (by simpa using hC)
    obtain rfl := hz hfree
    simpa using hL

/-! ## Segment by segment -/

/-- The grains of the records and tombstones of segment `i` that the map points at. -/
def recordGrains (s : Store c) (i : Nat) : Nat :=
  ((s.dir.entries.filter fun e => c.grainToSegIdx e.pba = i).map
    fun e => c.recGrains s.media e.pba).sum

/-- The grains of the tables in segment `i`. -/
def tableGrainsAt (s : Store c) (i : Nat) : Nat :=
  (s.tables.filter fun g => c.grainToSegIdx g = i).length * tableGrains c

theorem chargeAt_charges (s : Store c) (i : Nat) :
    chargeAt c.grainToSegIdx s.charges i = s.recordGrains i + s.tableGrainsAt i := by
  unfold charges
  rw [chargeAt_add]
  congr 1
  · simp only [chargeAt, recordGrains, Multiset.filter_map, Multiset.map_map]
    rfl
  · simp only [chargeAt, tableCharges, tableGrainsAt, Multiset.filter_map, Multiset.map_map]
    simp [Function.comp_def]

theorem seg_lt_of_charge (base : s.Base) (h : s.Counts s.charges) {x : Nat × Nat}
    (hx : x ∈ s.charges) : c.grainToSegIdx x.1 < c.segNr := by
  rcases Multiset.mem_add.mp hx with he | ht
  · obtain ⟨e, hmem, rfl⟩ := Multiset.mem_map.mp he
    exact (base.segs _ (base.recs e hmem).used).lt
  · obtain ⟨g, hg, rfl⟩ := Multiset.mem_map.mp ht
    refine (base.segs (c.grainToSegIdx g) fun hfree => ?_).lt
    have hz := (h.free _ hfree).2
    have hpos : 0 < (s.tables.filter fun g' => c.grainToSegIdx g' = c.grainToSegIdx g).length :=
      List.length_pos_of_mem (List.mem_filter.mpr ⟨by simpa using hg, by simp⟩)
    have hlt := c.md_lt
    have hmul : 0 < s.tableGrainsAt (c.grainToSegIdx g) :=
      Nat.mul_pos hpos (by unfold tableGrains; omega)
    rw [chargeAt_charges] at hz
    omega

/-- In every run without leaks the valid grains of a segment are those of the records
and tombstones that the map points at in it, of its tables, and of what an open
segment has still to hand out; the used capacity is the sum over the segments. -/
theorem run_accounts (hb : c.bits ≤ 32) (hdev : DeviceFits c) {m : Nat → UInt8} {i : Nat}
    (hi : i < c.segNr) {s : Store c} {M : KvMap}
    (h : ReflTransGen ExactStep (init c m i, fun _ => none) (s, M)) :
    (∀ j, (s.seg j).state ≠ .free →
      (s.seg j).validNr = s.recordGrains j + s.tableGrainsAt j + s.openGrains j) ∧
      s.usedCapacity = ∑ j ∈ Finset.range c.segNr, (s.recordGrains j + s.tableGrainsAt j) ∧
      ∀ j, 0 ≤ (s.seg j).validNr := by
  obtain ⟨⟨inv, _⟩, hC⟩ := exact_run hb hdev hi h
  refine ⟨fun j hj => ?_, ?_, hC.nonneg⟩
  · have hv := hC.valid j hj
    rw [chargeAt_charges] at hv
    exact_mod_cast hv
  · have hsum := @sum_chargeAt Nat Nat _ c.grainToSegIdx s.charges (Finset.range c.segNr)
      fun x hx => Finset.mem_range.mpr (seg_lt_of_charge inv.toBase hC hx)
    simp only [chargeAt_charges] at hsum
    rw [hC.used, ← hsum]

/-! ## Checking the conditions of a run -/

/-- A computable check of `LeakFree` for the events that neither shift nor grow. -/
def leakCheck (s : Store c) : Event → Bool
  | .put k v _ [a] =>
    a.grows.isEmpty && (s.localPutMbuffIo a.seg k v).all fun x =>
      match x.2.lookupMbuffPut k with
      | .enodata q =>
        !((x.2.table (c.hash k)).ht q).deleted ||
          c.recGrains x.2.media ((x.2.table (c.hash k)).ht q).pba == c.kvTotGrainsGet 0 0
      | .eexist _ _ => true
      | .enospc => false
  | .put _ _ _ _ => false
  | .del _ [] => true
  | .del k (i :: _) =>
    match s.lookupMbuffPut k with
    | .eexist q md => (s.localPutMbuffIo i k []).all fun x =>
      x.2.isPbaOrderEqualToTotalOrder ((x.2.table (c.hash k)).ht q).pba x.1 md
    | _ => true
  | .grow _ => false
  | .putFreeSeg i => (s.seg i).validNr == 0
  | _ => true

theorem putLoopExact_of_check {k v : List UInt8} {op : PutOp} {a : PutAttempt}
    (h : s.leakCheck (.put k v op [a]) = true) : s.PutLoopExact k v op [a] := by
  simp only [leakCheck, Bool.and_eq_true, List.isEmpty_iff] at h
  intro g s1 hio
  have hall := h.2
  rw [hio] at hall
  simp only [all_some] at hall
  refine ⟨?_, fun _ _ _ => trivial⟩
  rw [h.1]
  refine ⟨fun q hq hd => ?_, fun hn => ?_⟩
  · simpa [hq, hd] using hall
  · simp [hn] at hall

theorem leakFree_of_check (h : s.leakCheck ev = true) : s.LeakFree ev := by
  cases ev with
  | put k v op as =>
    match as with
    | [] | _ :: _ :: _ => cases h
    | [a] => exact putLoopExact_of_check h
  | del k segs =>
    cases segs with
    | nil => trivial
    | cons i rest =>
      intro q md g s1 hl hio
      simp only [leakCheck, hl, hio, all_some] at h
      exact h
  | grow allocs => cases h
  | putFreeSeg i => exact eq_of_beq h
  | gc start i | shift h' | allocateSegment i | recycleSegment i | ioFail i len bs => trivial

/-- The events of a list, as long as both checks pass. -/
def execExact (w : Store c × KvMap) : List Event → Option (Store c × KvMap)
  | [] => some w
  | ev :: rest =>
    if w.1.stepCheck ev && w.1.leakCheck ev then (exec w ev).bind fun w' => execExact w' rest
    else none

theorem execExact_run (hdev : DeviceFits c) {evs : List Event} (h : execExact w evs = some w')
    (inv : w.1.Inv) (hM : w.1.Represents w.2) : ReflTransGen ExactStep w w' := by
  induction evs generalizing w with
  | nil =>
    cases h
    exact .refl
  | cons ev rest ih =>
    unfold execExact at h
    split at h
    · rename_i hc
      obtain ⟨hstep, hleak⟩ := Bool.and_eq_true_iff.mp hc
      obtain ⟨w1, h1, h2⟩ := bind_eq_some_iff.mp h
      have hok := stepOk_of_check inv hstep
      obtain ⟨inv1, hM1⟩ := step_refines hdev inv hM ⟨ev, hok, h1⟩
      exact .head ⟨ev, hok, leakFree_of_check hleak, h1⟩ (ih h2 inv1 hM1)
    · cases h

/-- Inserts, an overwrite, a del, a put over a tombstone without key grains, a
failed write, relocations and a purge. -/
def exactTrace : List Event :=
  [.allocateSegment 1, .put [1] [10] .normal [⟨1, [], 0⟩], .put [2] [20] .create [⟨1, [], 0⟩],
    .put [1] [11] .replace [⟨1, [], 0⟩], .del [2] [1], .put [2] [21] .normal [⟨1, [], 0⟩],
    .ioFail 1 1 [7], .recycleSegment 1, .allocateSegment 2, .gc 10 2, .gc 12 2, .del [2] [2],
    .gc 9 2]

theorem exactTrace_accounts : ∃ s M,
    ReflTransGen ExactStep (init colliding (fun _ => 0) 0, fun _ => none) (s, M) ∧
      M [1] = some [11] ∧ (s.seg 2).state = .staged ∧
      (s.seg 2).validNr = s.recordGrains 2 + s.tableGrainsAt 2 + s.openGrains 2 := by
  have h : ((execExact (init colliding (fun _ => 0) 0, fun _ => none) exactTrace).map
      fun w => (w.2 [1], (w.1.seg 2).state)) = some (some [11], .staged) := by decide +kernel
  obtain ⟨⟨s, M⟩, hw, hk⟩ := map_eq_some_iff.mp h
  rw [Prod.mk.injEq] at hk
  have hrun := execExact_run (by decide) hw (init_inv (by decide) _ (by decide))
    (init_represents _ _ _)
  have hacc := run_accounts (by decide) (by decide) (by decide) hrun
  exact ⟨s, M, hrun, hk.1, hk.2, hacc.1 2 (by rw [hk.2]; simp)⟩

/-! ## A leak -/

/-- A key of 17 bytes: its tombstone takes two grains of 32 bytes. -/
def longKey : List UInt8 := List.replicate 17 1

/-- The long key is deleted while another key of its hash is live. The put of a
third key passes the live entry, so `next_free` chooses its slot: the tombstone's. -/
def tombstoneTrace : List Event :=
  [.allocateSegment 1, .put longKey [10] .normal [⟨1, [], 0⟩], .put [2] [20] .normal [⟨1, [], 0⟩],
    .del longKey [1], .put [3] [30] .normal [⟨1, [], 0⟩]]

theorem tombstone_leaks : ∃ s M,
    ReflTransGen Step (init colliding (fun _ => 0) 0, fun _ => none) (s, M) ∧
      (s.seg 1).state = .staged ∧
      (s.seg 1).validNr ≠ s.recordGrains 1 + s.tableGrainsAt 1 + s.openGrains 1 := by
  have h : ((execAll (init colliding (fun _ => 0) 0, fun _ => none) tombstoneTrace).map fun w =>
      ((w.1.seg 1).state, (w.1.seg 1).validNr,
        w.1.recordGrains 1 + w.1.tableGrainsAt 1 + w.1.openGrains 1)) = some (.staged, 4, 3) := by
    decide +kernel
  obtain ⟨w, hw, heq⟩ := map_eq_some_iff.mp h
  simp only [Prod.mk.injEq] at heq
  obtain ⟨hst, hv, hsum⟩ := heq
  refine ⟨w.1, w.2, execAll_run hw, hst, ?_⟩
  rw [hv]
  intro he
  have hne : 4 = w.1.recordGrains 1 + w.1.tableGrainsAt 1 + w.1.openGrains 1 := by exact_mod_cast he
  rw [hsum] at hne
  cases hne

end UDepot.Store
