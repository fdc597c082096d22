import UDepot.RestartDevice

/-! The round trip of a clean shutdown and a restart. A restart counts the grains that
the entries name, and a tombstone names none: so the counters come back exactly where
the map has no tombstone and nothing leaked. -/

namespace UDepot.Store
open UDepotMap Directory Config Ledger Option List

variable {c : Config}

/-! ## The entries -/

def seenOf (e : Content) : Nat × Nat × Bool := (e.kvSize, e.pba, e.deleted)

theorem usedEntries_seen {bits : Nat} (d : Directory bits) :
    ((Device.usedEntries d : Multiset HashEntry).map fun e => (e.kvSize, e.pba, e.deleted)) =
      d.entries.map seenOf := by
  rw [← slots_sum]
  unfold Device.usedEntries
  induction d.slots with
  | nil => rfl
  | cons y l ih =>
    rw [map_cons, map_cons, sum_cons, Multiset.map_add, ← ih, filter_cons]
    by_cases hu : ((d.map y.1).ht y.2).used = true
    · simp [hu, content, seenOf]
    · simp [hu, content]

def seenCharge (c : Config) (m : Nat → UInt8) (w : Nat × Nat × Bool) : Nat × Nat :=
  (w.2.1, if w.1 = maxKvSize ∧ w.2.2 = false then c.recGrains m w.2.1 else w.1)

def seenCharges (s : Store c) : Multiset (Nat × Nat) :=
  (s.dir.entries.map seenOf).map (seenCharge c s.media)

def liveCharges (s : Store c) : Multiset (Nat × Nat) := s.dir.liveEntries.map s.charge

def tombstones (s : Store c) : Multiset Content := s.dir.entries.filter fun e => e.deleted = true

theorem entries_live_tombstones (s : Store c) :
    s.dir.entries = s.dir.liveEntries + s.tombstones := by
  have h := Multiset.filter_add_not (fun e : Content => e.deleted = false) s.dir.entries
  simp only [Bool.not_eq_false] at h
  exact h.symm

variable {s : Store c}

theorem seenCharge_live (h : s.Sized) {e : Content} (he : e ∈ s.dir.liveEntries) :
    seenCharge c s.media (seenOf e) = s.charge e := by
  have hd : e.deleted = false := (Multiset.mem_filter.mp he).2
  have hk := h e he
  simp only [seenCharge, seenOf, charge, hd, and_true, Prod.mk.injEq, true_and]
  split <;> omega

theorem seenCharge_tombstone {e : Content} (he : e ∈ s.tombstones) :
    seenCharge c s.media (seenOf e) = (e.pba, 0) := by
  obtain ⟨hm, hd⟩ := Multiset.mem_filter.mp he
  obtain ⟨i, q, _, _, _, rfl⟩ := mem_entries.mp hm
  have hk : ((s.dir.map i).ht q).kvSize = 0 := by
    simpa [slotContent, HashEntry.deleted] using hd
  simp [seenCharge, seenOf, slotContent, hk, maxKvSize]

theorem seenCharges_eq (h : s.Sized) :
    s.seenCharges = s.liveCharges + s.tombstones.map fun e => (e.pba, 0) := by
  unfold seenCharges liveCharges
  rw [Multiset.map_map, entries_live_tombstones, Multiset.map_add]
  congr 1
  · exact Multiset.map_congr rfl fun e he => seenCharge_live h he
  · exact Multiset.map_congr rfl fun e he => seenCharge_tombstone he

theorem seenCharges_at (h : s.Sized) (j : Nat) :
    chargeAt c.grainToSegIdx s.seenCharges j = chargeAt c.grainToSegIdx s.liveCharges j := by
  rw [seenCharges_eq h, chargeAt_add, chargeAt, chargeAt, Multiset.filter_map, Multiset.map_map]
  simp

theorem seenCharges_total (h : s.Sized) :
    total s.seenCharges = total s.liveCharges := by
  rw [seenCharges_eq h, total_add, total, total, Multiset.map_map]
  simp

theorem charges_eq (s : Store c) :
    s.charges = s.liveCharges + s.tombstones.map s.charge + s.tableCharges := by
  unfold charges liveCharges
  rw [entries_live_tombstones, Multiset.map_add]

/-! ## The validity map -/

section Validity

variable {s : Store c} {d : Device c} {es : List HashEntry}

def booked (d : Device c) (es : List HashEntry) : Multiset (Nat × Nat) :=
  (es : Multiset HashEntry).map fun e => (e.pba, d.grainNr e)

theorem booked_eq (hm : d.media = s.media) {dir : Directory c.bits}
    (hes : Device.usedEntries dir = Device.usedEntries s.dir) :
    booked d (Device.usedEntries dir) = s.seenCharges := by
  rw [hes, seenCharges, ← usedEntries_seen, Multiset.map_map, booked]
  refine Multiset.map_congr rfl fun e _ => ?_
  simp [seenCharge, Device.grainNr, hm]

theorem chargeAt_booked (j : Nat) : chargeAt c.grainToSegIdx (booked d es) j =
    ((es.filter fun e => c.grainToSegIdx e.pba = j).map d.grainNr).sum := by
  simp [chargeAt, booked, List.filter_map, Function.comp_def]

theorem validityAt_none {j : Nat} (h : d.validityAt es j = none) :
    (∀ e ∈ es, c.grainToSegIdx e.pba ≠ j) ∧ chargeAt c.grainToSegIdx (booked d es) j = 0 := by
  unfold Device.validityAt at h
  dsimp only at h
  split at h
  · rename_i hemp
    rw [List.isEmpty_iff] at hemp
    refine ⟨fun e he => ?_, by rw [chargeAt_booked, hemp]; rfl⟩
    simpa using filter_eq_nil_iff.mp hemp e he
  · cases h

theorem validityAt_some {j : Nat} {r : Nat × Nat} (h : d.validityAt es j = some r) :
    (∃ e ∈ es, c.grainToSegIdx e.pba = j) ∧
      r = (j, chargeAt c.grainToSegIdx (booked d es) j) := by
  unfold Device.validityAt at h
  dsimp only at h
  split at h
  · cases h
  · rename_i hne
    cases h
    rw [chargeAt_booked]
    rw [List.isEmpty_iff] at hne
    obtain ⟨e, he⟩ := exists_mem_of_ne_nil _ hne
    obtain ⟨hm, hj⟩ := mem_filter.mp he
    exact ⟨⟨e, hm, by simpa using hj⟩, rfl⟩

theorem mem_validityMap {r : Nat × Nat} : r ∈ d.validityMap es ↔
    r.1 < c.segNr ∧ (∃ e ∈ es, c.grainToSegIdx e.pba = r.1) ∧
      r.2 = chargeAt c.grainToSegIdx (booked d es) r.1 := by
  unfold Device.validityMap
  rw [mem_filterMap]
  constructor
  · rintro ⟨j, hj, hr⟩
    obtain ⟨hex, rfl⟩ := validityAt_some hr
    exact ⟨mem_range.mp hj, hex, rfl⟩
  · rintro ⟨hlt, ⟨e, he, hej⟩, hr⟩
    refine ⟨r.1, mem_range.mpr hlt, ?_⟩
    cases hv : d.validityAt es r.1 with
    | none => exact absurd hej ((validityAt_none hv).1 e he)
    | some r' => rw [(validityAt_some hv).2, ← hr]

theorem validityMap_nodup (d : Device c) (es : List HashEntry) :
    ((d.validityMap es).map Prod.fst).Nodup := by
  have hsub : ∀ l : List Nat, ((l.filterMap (d.validityAt es)).map Prod.fst).Sublist l := by
    intro l
    induction l with
    | nil => exact .slnil
    | cons j l ih =>
      rw [filterMap_cons]
      cases hv : d.validityAt es j with
      | none => exact ih.cons _
      | some r =>
        rw [(validityAt_some hv).2]
        exact ih.cons_cons _
  exact (hsub _).nodup nodup_range

theorem validityMap_sum (hlt : ∀ e ∈ es, c.grainToSegIdx e.pba < c.segNr) :
    ((d.validityMap es).map Prod.snd).sum = total (booked d es) := by
  have hsum : ∀ l : List Nat, ((l.filterMap (d.validityAt es)).map Prod.snd).sum =
      (l.map fun j => chargeAt c.grainToSegIdx (booked d es) j).sum := by
    intro l
    induction l with
    | nil => rfl
    | cons j l ih =>
      rw [filterMap_cons, map_cons, sum_cons, ← ih]
      cases hv : d.validityAt es j with
      | none => simp [(validityAt_none hv).2]
      | some r => simp [(validityAt_some hv).2]
  have hmem : ∀ y ∈ booked d es, c.grainToSegIdx y.1 ∈ Finset.range c.segNr := by
    intro y hy
    obtain ⟨e, he, rfl⟩ := Multiset.mem_map.mp hy
    exact Finset.mem_range.mpr (hlt e he)
  rw [← sum_chargeAt hmem]
  exact hsum _

end Validity

/-! ## The ranges -/

section Ranges

variable {cap : Nat} {i : Nat} {rs : List (Nat × Nat)}

theorem scmRestoreGrainRange_seg (cap : Nat) (hfree : s.seg i = ⟨.free, 0, c.segSize⟩)
    (len j : Nat) :
    (s.scmRestoreGrainRange cap i len).1.seg j =
      if j = i then ⟨.closed, c.segSize, len⟩ else s.seg j := by
  unfold scmRestoreGrainRange
  simp only [hfree, if_true]
  by_cases hj : j = i
  · simp [setSeg, hj]
  · simp [setSeg, hj]

theorem scmRestoreGrainRange_used {len : Nat}
    (hfree : s.seg i = ⟨.free, 0, c.segSize⟩) (hok : (s.scmRestoreGrainRange cap i len).2 = true) :
    (s.scmRestoreGrainRange cap i len).1.usedCapacity = s.usedCapacity + len := by
  unfold scmRestoreGrainRange at hok ⊢
  simp only [hfree, if_true, Bool.and_eq_true, decide_eq_true_eq] at hok ⊢
  rw [if_pos hok.1.2]

theorem scmRestoreGrainRange_ok {len : Nat} (hfree : s.seg i = ⟨.free, 0, c.segSize⟩)
    (hpos : 0 < len) (hlt : len < c.segSize) (hcap : s.usedCapacity + len ≤ cap) :
    (s.scmRestoreGrainRange cap i len).2 = true := by
  unfold scmRestoreGrainRange
  simp only [hfree, if_true, Bool.and_eq_true, decide_eq_true_eq]
  omega

structure Apart (s : Store c) (rs : List (Nat × Nat)) : Prop where
  nodup : (rs.map Prod.fst).Nodup
  free : ∀ r ∈ rs, s.seg r.1 = ⟨.free, 0, c.segSize⟩

theorem Apart.tail {r : Nat × Nat} (h : s.Apart (r :: rs)) (cap : Nat) :
    (s.scmRestoreGrainRange cap r.1 r.2).1.Apart rs := by
  have hnd := h.nodup
  rw [map_cons, nodup_cons] at hnd
  refine ⟨hnd.2, fun r' hr' => ?_⟩
  have hne : r'.1 ≠ r.1 := by
    intro heq
    exact hnd.1 (heq ▸ mem_map_of_mem hr')
  rw [scmRestoreGrainRange_seg cap (h.free r mem_cons_self), if_neg hne]
  exact h.free r' (mem_cons_of_mem _ hr')

/-- What the ranges do to the segments: those named become closed, with the grains of
their range. -/
theorem restoreRanges_seg {rs : List (Nat × Nat)} (h : s.Apart rs) :
    (∀ r ∈ rs, (s.restoreRanges cap rs).1.seg r.1 = ⟨.closed, c.segSize, r.2⟩) ∧
      ∀ j, j ∉ rs.map Prod.fst → (s.restoreRanges cap rs).1.seg j = s.seg j := by
  induction rs generalizing s with
  | nil => exact ⟨fun r hr => (by cases hr), fun _ _ => rfl⟩
  | cons r rs ih =>
    obtain ⟨hin, hout⟩ := ih (h.tail cap)
    have hone := scmRestoreGrainRange_seg cap (h.free r mem_cons_self) r.2
    have hnd := h.nodup
    rw [map_cons, nodup_cons] at hnd
    unfold restoreRanges
    refine ⟨fun r' hr' => ?_, fun j hj => ?_⟩
    · rcases mem_cons.mp hr' with rfl | hr'
      · exact (hout _ hnd.1).trans (by rw [hone, if_pos rfl])
      · exact hin r' hr'
    · rw [map_cons, mem_cons, not_or] at hj
      exact (hout j hj.2).trans (by rw [hone, if_neg hj.1])

theorem restoreRanges_used (h : s.Apart rs)
    (hok : (s.restoreRanges cap rs).2 = true) :
    (s.restoreRanges cap rs).1.usedCapacity = s.usedCapacity + (rs.map Prod.snd).sum := by
  induction rs generalizing s with
  | nil => simp [restoreRanges]
  | cons r rs ih =>
    unfold restoreRanges at hok ⊢
    rw [Bool.and_eq_true] at hok
    have hone := scmRestoreGrainRange_used (h.free r mem_cons_self) hok.1
    have hrest := ih (h.tail cap) hok.2
    rw [map_cons, sum_cons]
    dsimp only
    rw [hrest, hone]
    push_cast
    omega

theorem restoreRanges_ok (h : s.Apart rs) (hlen : ∀ r ∈ rs, 0 < r.2 ∧ r.2 < c.segSize)
    (hcap : s.usedCapacity + (rs.map Prod.snd).sum ≤ cap) : (s.restoreRanges cap rs).2 = true := by
  induction rs generalizing s with
  | nil => rfl
  | cons r rs ih =>
    rw [map_cons, sum_cons, Nat.cast_add] at hcap
    obtain ⟨hpos, hlt⟩ := hlen r mem_cons_self
    have hfree := h.free r mem_cons_self
    have hone : (s.scmRestoreGrainRange cap r.1 r.2).2 = true :=
      scmRestoreGrainRange_ok hfree hpos hlt (by omega)
    have hu := scmRestoreGrainRange_used hfree hone
    unfold restoreRanges
    rw [Bool.and_eq_true]
    exact ⟨hone, ih (h.tail cap) (fun r' hr' => hlen r' (mem_cons_of_mem _ hr'))
      (by rw [hu]; omega)⟩

end Ranges

/-! ## The restored store -/

section Outcome

variable {checksum32 : Nat → Nat → Nat → Nat} {hdrTs ftrTs : Nat → Nat} {s : Store c}
  {x : Nat → DirSeg c.bits} {cap : Nat}

theorem tableCharges_at (h : s.Settled) (j : Nat) :
    chargeAt c.grainToSegIdx s.tableCharges j = if j ∈ s.tableSegs then tableGrains c else 0 := by
  have hat : chargeAt c.grainToSegIdx s.tableCharges j = s.tableGrainsAt j := by
    simp [chargeAt, tableCharges, tableGrainsAt, List.filter_map, Function.comp_def]
  rw [hat, tableGrainsAt_eq]
  split
  · rename_i hj
    rw [count_eq_one_of_mem (tables_nodup h) hj, one_mul]
  · rename_i hj
    rw [count_eq_zero_of_not_mem hj, zero_mul]

theorem tableCharges_total (s : Store c) :
    total s.tableCharges = s.tables.length * tableGrains c := by
  simp [total, tableCharges, Function.comp_def]

theorem mem_usedEntries {e : HashEntry} (he : e ∈ Device.usedEntries s.dir) :
    ∃ e' ∈ s.dir.entries, seenOf e' = (e.kvSize, e.pba, e.deleted) := by
  have hm : (e.kvSize, e.pba, e.deleted) ∈ s.dir.entries.map seenOf := by
    rw [← usedEntries_seen]
    exact Multiset.mem_map_of_mem (fun e : HashEntry => (e.kvSize, e.pba, e.deleted)) he
  obtain ⟨e', he', heq⟩ := Multiset.mem_map.mp hm
  exact ⟨e', he', heq⟩

theorem exists_usedEntry {e : Content} (he : e ∈ s.dir.entries) :
    ∃ e' ∈ Device.usedEntries s.dir, (e'.kvSize, e'.pba, e'.deleted) = seenOf e := by
  have hm := Multiset.mem_map_of_mem seenOf he
  rw [← usedEntries_seen] at hm
  obtain ⟨e', he', heq⟩ := Multiset.mem_map.mp hm
  exact ⟨e', he', heq⟩

theorem usedEntries_congr {bits : Nat} {d d' : Directory bits} (hb : d'.idxBits = d.idxBits)
    (hm : ∀ i < 2 ^ d.idxBits, d'.map i = d.map i) :
    Device.usedEntries d' = Device.usedEntries d := by
  have hs : d'.slots = d.slots := by rw [slots, slots, hb]
  unfold Device.usedEntries
  rw [hs]
  congr 1
  refine map_congr_left fun y hy => ?_
  rw [hm _ (mem_slots.mp hy).1]

theorem usedEntries_live (s : Store c) :
    ((Device.usedEntries s.dir).filter fun e => !e.deleted).length = s.dir.liveEntries.card := by
  have h := congrArg (fun M : Multiset (Nat × Nat × Bool) => (M.filter fun w => w.2.2 = false).card)
    (usedEntries_seen s.dir)
  simp only [Multiset.filter_map, Multiset.card_map, Function.comp_def, seenOf,
    Multiset.filter_coe, Multiset.coe_card] at h
  have hf : ((Device.usedEntries s.dir).filter fun e => !e.deleted) =
      (Device.usedEntries s.dir).filter fun e => decide (e.deleted = false) :=
    filter_congr (by simp)
  rw [hf]
  exact h

def ranges (d : Device c) (group : List Nat) (s : Store c) : List (Nat × Nat) :=
  group.map (fun j => (j, tableGrains c)) ++ d.validityMap (Device.usedEntries s.dir)

variable {d : Device c} {group : List Nat}

theorem usedEntry_seg (h : s.Settled) {e : HashEntry} (he : e ∈ Device.usedEntries s.dir) :
    c.grainToSegIdx e.pba < c.segNr ∧ c.grainToSegIdx e.pba ∉ s.tableSegs := by
  obtain ⟨e', he', heq⟩ := mem_usedEntries he
  have hp : e'.pba = e.pba := congrArg (fun w : Nat × Nat × Bool => w.2.1) heq
  refine ⟨?_, fun hm => ?_⟩
  · rw [← hp]
    exact (h.segs _ (h.recs e' he').used).lt
  · obtain ⟨g, hg, hgi⟩ := mem_map.mp hm
    exact entry_apart h he' hg (by rw [hp, hgi])

theorem ranges_apart (h : s.Settled) (hp : group.Perm s.tableSegs) (m : Nat → UInt8)
    (md : Nat → Option SegMd) : (blank c m md).Apart (ranges d group s) := by
  refine ⟨?_, fun r _ => rfl⟩
  have hfst : (ranges d group s).map Prod.fst =
      group ++ (d.validityMap (Device.usedEntries s.dir)).map Prod.fst := by
    simp [ranges, Function.comp_def]
  rw [hfst]
  refine (hp.nodup_iff.mpr (tables_nodup h)).append (validityMap_nodup _ _) ?_
  intro j hj hv
  obtain ⟨r, hr, rfl⟩ := mem_map.mp hv
  obtain ⟨_, ⟨e, he, hej⟩, _⟩ := mem_validityMap.mp hr
  exact (usedEntry_seg h he).2 (by rw [hej]; exact hp.mem_iff.mp hj)

theorem ranges_sum (h : s.Settled) (hp : group.Perm s.tableSegs) (hm : d.media = s.media) :
    ((ranges d group s).map Prod.snd).sum = total (s.liveCharges + s.tableCharges) := by
  have hlen : group.length = s.tables.length := by
    rw [hp.length_eq, tableSegs, length_map]
  have hdata := @validityMap_sum c d _ fun e he => (usedEntry_seg h he).1
  rw [booked_eq hm rfl, seenCharges_total h.sized] at hdata
  unfold ranges
  rw [map_append, sum_append, hdata, total_add, tableCharges_total, ← hlen]
  simp [Function.comp_def]
  omega

theorem liveCharges_at_zero {j : Nat}
    (hno : ∀ e ∈ Device.usedEntries s.dir, c.grainToSegIdx e.pba ≠ j) :
    chargeAt c.grainToSegIdx s.liveCharges j = 0 := by
  refine chargeAt_eq_zero fun y hy => ?_
  obtain ⟨e, he, rfl⟩ := Multiset.mem_map.mp hy
  obtain ⟨e', he', heq⟩ := exists_usedEntry (Multiset.mem_of_mem_filter he)
  have hp : e'.pba = e.pba := congrArg (fun w : Nat × Nat × Bool => w.2.1) heq
  change c.grainToSegIdx e.pba ≠ j
  rw [← hp]
  exact hno e' he'

/-- After the ranges, a segment has the valid grains of its live records and its table. -/
theorem ranges_valid (h : s.Settled) (hp : group.Perm s.tableSegs) (hm : d.media = s.media)
    {s' : Store c} (hseg : s'.seg =
      ((blank c d.media d.segMd).restoreRanges cap (ranges d group s)).1.seg) (j : Nat) :
    s'.validGrains j = (chargeAt c.grainToSegIdx (s.liveCharges + s.tableCharges) j : Int) := by
  obtain ⟨hin, hout⟩ := @restoreRanges_seg c _ cap _
    (@ranges_apart c s d group h hp d.media d.segMd)
  rw [chargeAt_add, tableCharges_at h]
  have hclosed : ∀ n, (j, n) ∈ ranges d group s → s'.validGrains j = n := by
    intro n hr
    have hj := hin _ hr
    rw [← hseg] at hj
    simp [validGrains, openGrains, hj]
  by_cases hjt : j ∈ s.tableSegs
  · have hr : (j, tableGrains c) ∈ ranges d group s :=
      mem_append_left _ (mem_map.mpr ⟨j, hp.mem_iff.mpr hjt, rfl⟩)
    have hzero : chargeAt c.grainToSegIdx s.liveCharges j = 0 :=
      liveCharges_at_zero fun e he heq => (usedEntry_seg h he).2 (heq ▸ hjt)
    rw [hclosed _ hr, if_pos hjt, hzero, zero_add]
  · rw [if_neg hjt, add_zero]
    by_cases hex : ∃ e ∈ Device.usedEntries s.dir, c.grainToSegIdx e.pba = j
    · obtain ⟨e, he, hej⟩ := hex
      have hr : (j, chargeAt c.grainToSegIdx (booked d (Device.usedEntries s.dir)) j) ∈
          ranges d group s :=
        mem_append_right _ (mem_validityMap.mpr
          ⟨by rw [← hej]; exact (usedEntry_seg h he).1, ⟨e, he, hej⟩, rfl⟩)
      rw [hclosed _ hr, booked_eq hm rfl, seenCharges_at h.sized]
    · push Not at hex
      have hnot : j ∉ (ranges d group s).map Prod.fst := by
        intro hmem
        obtain ⟨r, hr, rfl⟩ := mem_map.mp hmem
        rcases mem_append.mp hr with hr | hr
        · obtain ⟨j', hj', rfl⟩ := mem_map.mp hr
          exact hjt (hp.mem_iff.mp hj')
        · obtain ⟨_, ⟨e, he, hej⟩, _⟩ := mem_validityMap.mp hr
          exact hex e he hej
      have hfree := hout j hnot
      rw [← hseg] at hfree
      rw [liveCharges_at_zero hex]
      simp [validGrains, hfree, blank]

theorem maxSegAllocNr_pos {segMd : Nat → Option SegMd} {n : Nat} :
    0 < Timestamps.maxSegAllocNr segMd n ↔ ∃ j < n, 0 < Timestamps.kvTimestamp (segMd j) := by
  induction n with
  | zero => simp [Timestamps.maxSegAllocNr]
  | succ n ih =>
    rw [Timestamps.maxSegAllocNr, lt_max_iff, ih]
    constructor
    · rintro (⟨j, hj, hp⟩ | hp)
      · exact ⟨j, by omega, hp⟩
      · exact ⟨n, by omega, hp⟩
    · rintro ⟨j, hj, hp⟩
      rcases Nat.lt_succ_iff_lt_or_eq.mp hj with hj | rfl
      · exact .inl ⟨j, hj, hp⟩
      · exact .inr hp

def HasKvSeg (s : Store c) : Prop := ∃ j < c.segNr, ∃ ts, s.segMd j = some ⟨.kv, ts⟩

theorem hasKvSeg_iff (h : s.Stamped) :
    0 < Timestamps.maxSegAllocNr s.segMd c.segNr ↔ s.HasKvSeg := by
  rw [maxSegAllocNr_pos]
  constructor
  · rintro ⟨j, hj, hp⟩
    refine ⟨j, hj, ?_⟩
    unfold Timestamps.kvTimestamp at hp
    split at hp
    · exact ⟨_, by assumption⟩
    · omega
  · rintro ⟨j, hj, ts, hmd⟩
    refine ⟨j, hj, ?_⟩
    rw [hmd]
    exact h j ts hmd

structure Outcome (cap : Nat) (s s' : Store c) (ok : Bool) : Prop where
  idxBits : s'.dir.idxBits = s.dir.idxBits
  map : ∀ i, i < 2 ^ s.dir.idxBits → s'.dir.map i = s.dir.map i
  valid : ∀ j, s'.validGrains j =
    (chargeAt c.grainToSegIdx (s.liveCharges + s.tableCharges) j : Int)
  stats : s'.stats = s.stats
  used : ok = true → s'.usedCapacity = (total (s.liveCharges + s.tableCharges) : Int)
  kvSeg : ok = true → s.HasKvSeg
  asserts : s.HasKvSeg → (∀ e ∈ s.dir.entries, e.deleted = false) →
    total (s.liveCharges + s.tableCharges) ≤ cap → ok = true

theorem restored_dir (h : s.Settled) (hst : StaleSmaller checksum32 s x)
    (h16 : s.dir.idxBits ≤ 16) {d : Device c} (hd : d = halted checksum32 hdrTs ftrTs s x)
    {dir : Directory c.bits} (hdir : dir = ⟨Nat.log2 (d.restored checksum32).length,
      fun i => (d.dirSeg ((d.newDir (d.restored checksum32) i).getD 0)).map⟩) :
    dir.idxBits = s.dir.idxBits ∧ ∀ i < 2 ^ s.dir.idxBits, dir.map i = s.dir.map i := by
  subst hd hdir
  have hlen : s.tables.length = 2 ^ s.dir.idxBits := h.tables
  refine ⟨?_, fun i hi => ?_⟩
  · change Nat.log2 _ = _
    rw [restored_length h hst, Nat.log2_two_pow]
  · change DirSeg.map _ = _
    rw [halted_newDir h hst h16 hi, getD_some, halted_table h (by omega)]

theorem grainNrOk_of_sized (h : s.Sized) {d : Device c} (hm : d.media = s.media) :
    (Device.usedEntries s.dir).all d.grainNrOk = true := by
  refine all_eq_true.mpr fun e he => ?_
  obtain ⟨e', he', heq⟩ := mem_usedEntries he
  simp only [seenOf, Prod.mk.injEq] at heq
  obtain ⟨hk, hp, hdel⟩ := heq
  refine decide_eq_true ?_
  rintro ⟨hmax, hd⟩
  unfold Device.grainNr
  rw [if_pos ⟨hmax, hd⟩, hm, ← hp]
  have hs := h e' (Multiset.mem_filter.mpr ⟨he', hdel.trans hd⟩)
  rw [hk, hmax] at hs
  omega

theorem segTsOk_of_stamped (h : s.Stamped) {d : Device c} (hmd : d.segMd = s.segMd) :
    d.segTsOk = true := by
  refine all_eq_true.mpr fun j _ => ?_
  rw [hmd]
  split
  · rename_i ts hj
    exact decide_eq_true (h j ts hj)
  · rfl

theorem ranges_bounds (h : s.Settled) (hno : ∀ e ∈ s.dir.entries, e.deleted = false) {d : Device c}
    (hm : d.media = s.media) {group : List Nat} {r : Nat × Nat} (hr : r ∈ ranges d group s) :
    0 < r.2 ∧ r.2 < c.segSize := by
  have hpos := tableGrains_pos c
  have hlt : tableGrains c < c.segSize := by
    have := c.md_pos
    have := c.md_lt
    unfold tableGrains
    omega
  rcases mem_append.mp hr with hr | hr
  · obtain ⟨j, _, rfl⟩ := mem_map.mp hr
    exact ⟨hpos, hlt⟩
  · obtain ⟨_, ⟨e, he, hej⟩, hn⟩ := mem_validityMap.mp hr
    rw [booked_eq hm rfl, seenCharges_at h.sized] at hn
    obtain ⟨e', he', heq⟩ := mem_usedEntries he
    have hp : e'.pba = e.pba := congrArg (fun w : Nat × Nat × Bool => w.2.1) heq
    have hlive : e' ∈ s.dir.liveEntries := Multiset.mem_filter.mpr ⟨he', hno e' he'⟩
    constructor
    · rw [hn, chargeAt]
      have hmem : c.recGrains s.media e'.pba ∈ (s.liveCharges.filter fun y =>
          c.grainToSegIdx y.1 = r.1).map Prod.snd :=
        Multiset.mem_map.mpr ⟨s.charge e', Multiset.mem_filter.mpr
          ⟨Multiset.mem_map_of_mem _ hlive, by rw [← hej, ← hp]; rfl⟩, rfl⟩
      have hgr : 0 < c.recGrains s.media e'.pba := kvTotGrainsGet_pos _ _
      exact hgr.trans_le (Multiset.single_le_sum (fun _ _ => Nat.zero_le _) _ hmem)
    · obtain ⟨F, hC⟩ := h.counted
      have hle := charge_le h.toKept hC r.1
      rw [charges_eq, chargeAt_add, chargeAt_add, chargeAt_add] at hle
      omega

theorem restart_outcome (h : s.Settled) (hst : StaleSmaller checksum32 s x)
    (h16 : s.dir.idxBits ≤ 16) :
    ∃ s' ok, s.restart checksum32 cap hdrTs ftrTs x = .ok (s', ok) ∧ Outcome cap s s' ok := by
  generalize hd : halted checksum32 hdrTs ftrTs s x = d
  have hm : d.media = s.media := by rw [← hd]; rfl
  have hmd : d.segMd = s.segMd := by rw [← hd]; rfl
  have hp : (d.restored checksum32).Perm s.tableSegs := by rw [← hd]; exact restored_perm h hst
  have hlen : (d.restored checksum32).length = 2 ^ s.dir.idxBits := by
    rw [← hd]
    exact restored_length h hst
  have hbytes : d.restoredBytes (d.restored checksum32) =
      (s.stats.usedBytes, s.stats.totalBytes) := by
    rw [← hd]
    exact halted_bytes h hst h16
  have hhf : d.hdrFtrOk (d.collected checksum32) = true := by
    rw [← hd]
    exact halted_hdrFtrOk h hst
  have hcond : 2 ^ Nat.log2 (d.restored checksum32).length = (d.restored checksum32).length ∧
      ∀ i < (d.restored checksum32).length, (d.newDir (d.restored checksum32) i).isSome := by
    rw [hlen, Nat.log2_two_pow]
    refine ⟨rfl, fun i hi => ?_⟩
    rw [← hd, halted_newDir h hst h16 hi]
    rfl
  have hne : (d.restored checksum32).length ≠ 0 := by
    rw [hlen]
    exact (Nat.two_pow_pos _).ne'
  obtain ⟨dir, hdir⟩ : ∃ dir : Directory c.bits, dir = ⟨Nat.log2 (d.restored checksum32).length,
    fun i => (d.dirSeg ((d.newDir (d.restored checksum32) i).getD 0)).map⟩ := ⟨_, rfl⟩
  obtain ⟨hbits, hmap⟩ := restored_dir h hst h16 hd.symm hdir
  have hes := usedEntries_congr hbits hmap
  have happ := @ranges_apart c s d (d.restored checksum32) h hp d.media d.segMd
  have hsum := @ranges_sum c s d (d.restored checksum32) h hp hm
  unfold restart
  change ∃ s' ok, (halted checksum32 hdrTs ftrTs s x).restore checksum32 cap = _ ∧ _
  rw [hd]
  unfold Device.restore
  dsimp only
  rw [if_neg hne, if_pos hcond, ← hdir, hes]
  refine ⟨_, _, rfl, hbits, hmap, ranges_valid h hp hm rfl, ?_, fun hok => ?_, fun hok => ?_,
    fun hkv hno hcap => ?_⟩
  · dsimp only
    rw [hbytes, usedEntries_live, ← h.keyNr]
  · simp only [Bool.and_eq_true] at hok
    have hu := restoreRanges_used happ hok.1.1.2
    rw [hsum] at hu
    exact hu.trans (by simp [blank])
  · simp only [Bool.and_eq_true, decide_eq_true_eq, hmd] at hok
    exact (hasKvSeg_iff h.stamped).mp hok.2
  · have hr : ((blank c d.media d.segMd).restoreRanges cap
        (ranges d (d.restored checksum32) s)).2 = true := by
      refine restoreRanges_ok happ (fun r hr => ranges_bounds h hno hm hr) ?_
      rw [hsum]
      change (0 : Int) + _ ≤ _
      omega
    have hkv' := (hasKvSeg_iff h.stamped).mpr hkv
    rw [← hmd] at hkv'
    simp only [Bool.and_eq_true, decide_eq_true_eq]
    exact ⟨⟨⟨⟨hhf, grainNrOk_of_sized h.sized hm⟩, hr⟩, segTsOk_of_stamped h.stamped hmd⟩, hkv'⟩

theorem restart_holes (h : s.Settled) (hst : StaleSmaller checksum32 s x)
    (h16 : 16 < s.dir.idxBits) : s.restart checksum32 cap hdrTs ftrTs x = .error .holes := by
  have hlen := @restored_length c checksum32 hdrTs ftrTs s x h hst
  have hne : ((halted checksum32 hdrTs ftrTs s x).restored checksum32).length ≠ 0 := by
    rw [hlen]
    exact (Nat.two_pow_pos _).ne'
  have hlt : 2 ^ 16 < ((halted checksum32 hdrTs ftrTs s x).restored checksum32).length := by
    rw [hlen]
    exact Nat.pow_lt_pow_right (by decide) h16
  unfold restart
  change (halted checksum32 hdrTs ftrTs s x).restore checksum32 cap = _
  unfold Device.restore
  dsimp only
  rw [if_neg hne, if_neg]
  rintro ⟨_, hall⟩
  have hsome := hall (2 ^ 16) hlt
  rw [halted_holes h hst] at hsome
  cases hsome

/-! ## The round trip -/

/-- A restart that brings the store back, with no assertion failing on the way. -/
def RestartsAs (checksum32 : Nat → Nat → Nat → Nat) (cap : Nat) (hdrTs ftrTs : Nat → Nat)
    (s : Store c) (x : Nat → DirSeg c.bits) : Prop :=
  ∃ s', s.restart checksum32 cap hdrTs ftrTs x = .ok (s', true) ∧ SameStore s s'

/-- The map has no tombstone, all that is booked has an owner, the store has had a
segment for records, and the indexes of the tables fit the headers. -/
structure Restartable (s : Store c) : Prop where
  noTombstone : ∀ e ∈ s.dir.entries, e.deleted = false
  noLeak : s.Counts s.charges
  kvSeg : s.HasKvSeg
  idxBits : s.dir.idxBits ≤ 16

theorem charges_of_noTombstone (hno : ∀ e ∈ s.dir.entries, e.deleted = false) :
    s.charges = s.liveCharges + s.tableCharges := by
  have hnone : s.tombstones = 0 := by
    refine Multiset.filter_eq_nil.mpr fun e he => ?_
    rw [hno e he]
    decide
  rw [charges_eq, hnone, Multiset.map_zero, add_zero]

/-- If the restart books as much as was booked, there was nothing else. -/
theorem exact_of_total {F : Multiset (Nat × Nat)} (hC : s.Counts (s.charges + F))
    (hu : s.usedCapacity = (total (s.liveCharges + s.tableCharges) : Int)) :
    (∀ e ∈ s.dir.entries, e.deleted = false) ∧ s.Counts s.charges := by
  have hused := hC.used
  rw [hu, charges_eq] at hused
  simp only [total_add] at hused
  have htomb : total (s.tombstones.map s.charge) = 0 := by omega
  have hF : total F = 0 := by omega
  constructor
  · intro e he
    by_contra hd
    have hmem : s.charge e ∈ s.tombstones.map s.charge :=
      Multiset.mem_map_of_mem _ (Multiset.mem_filter.mpr ⟨he, by simpa using hd⟩)
    have hgr : 0 < c.recGrains s.media e.pba := kvTotGrainsGet_pos _ _
    have hle := Multiset.single_le_sum (fun _ _ => Nat.zero_le _) _
      (Multiset.mem_map_of_mem Prod.snd hmem)
    have hle' : c.recGrains s.media e.pba ≤ total (s.tombstones.map s.charge) := hle
    omega
  · have hFat : ∀ j, chargeAt c.grainToSegIdx F j = 0 := by
      intro j
      have hle := @chargeAt_le_total Nat Nat _ c.grainToSegIdx F j
      omega
    refine ⟨fun j hj => ?_, fun j hj => ?_, ?_⟩
    · rw [hC.valid j hj, chargeAt_add, hFat, add_zero]
    · have h := hC.free j hj
      rw [chargeAt_add, hFat, add_zero] at h
      exact h
    · rw [hC.used, total_add, hF, add_zero]

/-- A clean shutdown and restart bring the store back exactly where it is restartable. -/
theorem restart_sameStore_iff (h : s.Settled) (hst : StaleSmaller checksum32 s x)
    (hcap : s.usedCapacity ≤ cap) : s.RestartsAs checksum32 cap hdrTs ftrTs x ↔ s.Restartable := by
  by_cases h16 : s.dir.idxBits ≤ 16
  · obtain ⟨s', ok, heq, out⟩ := @restart_outcome c checksum32 hdrTs ftrTs s x cap h hst h16
    constructor
    · rintro ⟨s1, hr, same⟩
      rw [heq] at hr
      simp only [Except.ok.injEq, Prod.mk.injEq] at hr
      obtain ⟨rfl, rfl⟩ := hr
      obtain ⟨F, hC⟩ := h.counted
      obtain ⟨hno, hleak⟩ := exact_of_total hC (same.used.symm.trans (out.used rfl))
      exact ⟨hno, hleak, out.kvSeg rfl, h16⟩
    · intro hr
      have hch := charges_of_noTombstone hr.noTombstone
      have hC := hr.noLeak
      rw [hch] at hC
      have hle : total (s.liveCharges + s.tableCharges) ≤ cap := by
        have hu := hC.used
        omega
      obtain rfl := out.asserts hr.kvSeg hr.noTombstone hle
      exact ⟨s', heq, out.idxBits, out.map, fun j => (out.valid j).trans (hC.validGrains j).symm,
        (out.used rfl).trans hC.used.symm, out.stats⟩
  · rw [Nat.not_le] at h16
    refine ⟨fun ⟨s1, hr, _⟩ => ?_, fun hr => absurd hr.idxBits (by omega)⟩
    rw [restart_holes h hst h16] at hr
    cases hr

end Outcome

/-! ## Two restarts -/

def sumChecksum (ts dirSize idx : Nat) : Nat := ts + dirSize + idx + 1

def zeroDirSeg : DirSeg colliding.bits :=
  ⟨⟨0, 0, 0, 0⟩, UDepotMap.init colliding.bits colliding.bits_lt, ⟨⟨0, 0, 0, 0⟩, 0, 0⟩⟩

theorem zeros_staleSmaller (s : Store colliding) :
    StaleSmaller sumChecksum s fun _ => zeroDirSeg := by
  intro j _ hv
  unfold Device.dirValid at hv
  split at hv
  · simp [sumChecksum, zeroDirSeg] at hv
  · cases hv

theorem live_restart_sameStore : ∃ s M,
    Relation.ReflTransGen ExactStep (init colliding (fun _ => 0) 0, fun _ => none) (s, M) ∧
      M [1] = some [10] ∧ s.usedCapacity = 9 ∧
      s.RestartsAs sumChecksum 24 (fun _ => 5) (fun _ => 6) fun _ => zeroDirSeg := by
  have h : ((execExact (init colliding (fun _ => 0) 0, fun _ => none)
      [.allocateSegment 1, .put [1] [10] .normal [⟨1, [], 0⟩],
        .put [2] [20] .normal [⟨1, [], 0⟩]]).map fun w =>
          decide (w.2 [1] = some [10] ∧ w.1.usedCapacity = 9 ∧
            (∀ e ∈ w.1.dir.entries, e.deleted = false) ∧ w.1.segMd 1 = some ⟨.kv, 1⟩ ∧
              w.1.dir.idxBits ≤ 16)) = some true := by
    decide +kernel
  obtain ⟨⟨s, M⟩, hw, hk⟩ := map_eq_some_iff.mp h
  obtain ⟨hM, hu, hno, hmd, h16⟩ := of_decide_eq_true hk
  have hrun := execExact_run (by decide) hw (init_inv (by decide) _ (by decide))
    (init_represents _ _ _)
  have hset := settled_run (by decide) (by decide) (by decide)
    (Relation.ReflTransGen.mono (fun _ _ => ExactStep.counted) _ _ hrun)
  have hleak := (exact_run (by decide) (by decide) (by decide) hrun).2
  have hcap : s.usedCapacity ≤ 24 := by rw [show s.usedCapacity = 9 from hu]; decide
  exact ⟨s, M, hrun, hM, hu, (restart_sameStore_iff hset (zeros_staleSmaller s) hcap).mpr
    ⟨hno, hleak, ⟨1, by decide, 1, hmd⟩, h16⟩⟩

/-- Two keys, one of them deleted: the grain of the tombstone is not counted again. -/
theorem tombstone_restart_loses_grain : ∃ s M s',
    Relation.ReflTransGen ExactStep (init colliding (fun _ => 0) 0, fun _ => none) (s, M) ∧
      s.restart sumChecksum 24 (fun _ => 5) (fun _ => 6) (fun _ => zeroDirSeg) = .ok (s', true) ∧
      s.validGrains 1 = 2 ∧ s'.validGrains 1 = 1 ∧ s.usedCapacity = 9 ∧ s'.usedCapacity = 8 := by
  have h : ((execExact (init colliding (fun _ => 0) 0, fun _ => none)
      [.allocateSegment 1, .put [1] [10] .normal [⟨1, [], 0⟩],
        .put [2] [20] .normal [⟨1, [], 0⟩], .del [2] [1]]).bind fun w =>
          (w.1.restart sumChecksum 24 (fun _ => 5) (fun _ => 6) fun _ => zeroDirSeg).toOption.map
            fun r => (r.2, w.1.validGrains 1, r.1.validGrains 1, w.1.usedCapacity,
              r.1.usedCapacity)) = some (true, 2, 1, 9, 8) := by
    decide +kernel
  obtain ⟨⟨s, M⟩, hw, hr⟩ := bind_eq_some_iff.mp h
  obtain ⟨⟨s', ok⟩, hs', heq⟩ := map_eq_some_iff.mp hr
  simp only [Prod.mk.injEq] at heq
  obtain ⟨rfl, hv, hv', hu, hu'⟩ := heq
  have hrun := execExact_run (by decide) hw (init_inv (by decide) _ (by decide))
    (init_represents _ _ _)
  refine ⟨s, M, s', hrun, ?_, hv, hv', hu, hu'⟩
  cases hres : s.restart sumChecksum 24 (fun _ => 5) (fun _ => 6) (fun _ => zeroDirSeg) with
  | error e => simp [hres, Except.toOption] at hs'
  | ok r =>
    simp only [hres, Except.toOption, some.injEq] at hs'
    rw [hs']

end UDepot.Store
