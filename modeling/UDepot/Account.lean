import UDepot.Refine
import UDepot.Lib.Ledger

/-! The grains that the capacity manager counts against the records that the map
points at. Every allocation, invalidation and change of a slot moves charges between
the map, the directory's tables and what is in flight; each operation is a chain of
such moves. -/

namespace UDepot.Store
open Bytes UDepotMap Directory Config Ledger Function

variable {c : Config}

/-! ## The books -/

def openGrains (s : Store c) (i : Nat) : Nat :=
  if (s.seg i).state = .staged then c.segSize - (s.seg i).nr3 else 0

/-- The counters are those of the charges `Q`. -/
structure Counts (s : Store c) (Q : Multiset (Nat × Nat)) : Prop where
  valid : ∀ i, (s.seg i).state ≠ .free →
    (s.seg i).validNr = (chargeAt c.grainToSegIdx Q i : Int) + s.openGrains i
  free : ∀ i, (s.seg i).state = .free →
    (s.seg i).validNr = c.segSize ∧ chargeAt c.grainToSegIdx Q i = 0
  used : s.usedCapacity = (total Q : Int)

def charge (s : Store c) (e : Content) : Nat × Nat := (e.pba, c.recGrains s.media e.pba)

def tableCharges (s : Store c) : Multiset (Nat × Nat) :=
  (s.tables : Multiset Nat).map fun g => (g, tableGrains c)

/-- The charges with an owner: the records and tombstones that the map points at,
and the tables. -/
def charges (s : Store c) : Multiset (Nat × Nat) := s.dir.entries.map s.charge + s.tableCharges

abbrev Books (P : Prop) (s : Store c) (A : Multiset (Nat × Nat)) (s' : Store c)
    (B : Multiset (Nat × Nat)) : Prop :=
  Moves Counts charges P s A s' B

variable {s s' : Store c} {Q : Multiset (Nat × Nat)} {g i : Nat} {y : SalsaType}

theorem Counts.congr (h : s.Counts Q) (hseg : s'.seg = s.seg)
    (hu : s'.usedCapacity = s.usedCapacity) : s'.Counts Q := by
  refine ⟨fun i => ?_, fun i => ?_, ?_⟩
  · unfold openGrains
    rw [hseg]
    exact h.valid i
  · rw [hseg]
    exact h.free i
  · rw [hu]
    exact h.used

theorem Counts.nonneg (h : s.Counts Q) (i : Nat) : 0 ≤ (s.seg i).validNr := by
  by_cases hf : (s.seg i).state = .free
  · rw [(h.free i hf).1]
    omega
  · rw [h.valid i hf]
    omega

theorem charges_of_eq (hd : s'.dir = s.dir) (hm : s'.media = s.media) (ht : s'.tables = s.tables) :
    s'.charges = s.charges := by
  unfold charges tableCharges charge
  rw [hd, hm, ht]

theorem charges_congr (f : Frame s s') (ht : s'.tables = s.tables) : s'.charges = s.charges := by
  have hent : s'.dir.entries.map s'.charge = s.dir.entries.map s.charge := by
    rw [f.dir]
    refine Multiset.map_congr rfl fun e he => ?_
    unfold charge recGrains
    rw [f.header e he]
  unfold charges tableCharges
  rw [hent, ht]

/-! ## The capacity manager -/

theorem Counts.invalidate {n : Nat} (h : s.Counts ({(g, n)} + Q)) :
    (s.invalidateGrains g n).Counts Q := by
  refine ⟨fun i hi => ?_, fun i hi => ?_, ?_⟩
  · have hst : (s.seg i).state ≠ .free := by rwa [invalidateGrains_state] at hi
    have hv := h.valid i hst
    have hopen : (s.invalidateGrains g n).openGrains i = s.openGrains i := by
      unfold openGrains
      rw [invalidateGrains_state, invalidateGrains_nr3]
    rw [chargeAt_add, chargeAt_singleton] at hv
    rw [hopen]
    by_cases hgi : c.grainToSegIdx g = i
    · subst hgi
      rw [if_pos rfl] at hv
      simp only [invalidateGrains, setSeg, update_self]
      omega
    · rw [if_neg hgi] at hv
      simp only [invalidateGrains, setSeg, update_of_ne (Ne.symm hgi)]
      omega
  · have hst : (s.seg i).state = .free := by rwa [invalidateGrains_state] at hi
    obtain ⟨hv, hz⟩ := h.free i hst
    rw [chargeAt_add, chargeAt_singleton] at hz
    refine ⟨?_, by omega⟩
    by_cases hgi : c.grainToSegIdx g = i
    · subst hgi
      rw [if_pos rfl] at hz
      simp only [invalidateGrains, setSeg, update_self]
      omega
    · simpa only [invalidateGrains, setSeg, update_of_ne (Ne.symm hgi)] using hv
  · have hu := h.used
    rw [total_add, total_singleton] at hu
    simp only [invalidateGrains, setSeg]
    omega

theorem invalidateGrains_books (s : Store c) (g n : Nat) :
    Books True s {(g, n)} (s.invalidateGrains g n) 0 := by
  intro F hF
  have hch : (s.invalidateGrains g n).charges = s.charges := charges_of_eq rfl rfl rfl
  refine ⟨0, ?_, fun _ => rfl⟩
  rw [hch, add_zero, add_zero]
  apply Counts.invalidate
  have he : {(g, n)} + (s.charges + F) = s.charges + {(g, n)} + F := by abel
  rwa [he]

theorem Counts.allocate {len : Nat} (hi : s.SegOk i) (ha : s.allocateGrains i len = some (g, s'))
    (h : s.Counts Q) : s'.Counts ({(g, len)} + Q) := by
  unfold allocateGrains at ha
  dsimp only at ha
  split at ha
  · rename_i hc
    cases ha
    obtain ⟨hst, hlt, hle⟩ := hc
    have hmd := hi.md_le
    have hpos := c.md_pos
    have hidx : c.grainToSegIdx (i * c.segSize + (s.seg i).nr3 - c.segMdSize) = i := by
      apply Nat.div_eq_of_lt_le
      · omega
      · rw [Nat.succ_mul]
        omega
    have hi_valid := h.valid i (by rw [hst]; simp)
    refine ⟨fun j hj => ?_, fun j hj => ?_, ?_⟩
    · rw [chargeAt_add, chargeAt_singleton, hidx]
      by_cases hji : j = i
      · subst hji
        rw [if_pos rfl]
        unfold openGrains at hi_valid ⊢
        rw [if_pos hst] at hi_valid
        simp only [setSeg, update_self]
        by_cases hfull : (s.seg j).nr3 + len = c.segSize
        · simp only [hfull, if_true]
          rw [if_neg (by simp)]
          omega
        · simp only [hfull, if_false, if_true]
          omega
      · rw [if_neg (Ne.symm hji)]
        have hv := h.valid j (by simpa [setSeg, hji] using hj)
        simpa [openGrains, setSeg, hji] using hv
    · by_cases hji : j = i
      · subst hji
        simp only [setSeg, update_self] at hj
        split at hj <;> simp at hj
      · have hv := h.free j (by simpa [setSeg, hji] using hj)
        rw [chargeAt_add, chargeAt_singleton, hidx, if_neg (Ne.symm hji)]
        simpa [setSeg, hji] using hv
    · have hu := h.used
      rw [total_add, total_singleton]
      simp only
      omega
  · cases ha

theorem allocateGrains_tables {s1 : Store c} {len : Nat}
    (ha : s.allocateGrains i len = some (g, s1)) : s1.tables = s.tables := by
  unfold allocateGrains at ha
  dsimp only at ha
  split at ha
  · cases ha
    rfl
  · cases ha

theorem allocWrite_books {s s1 : Store c} (base : s.Base) {i len g : Nat} {bs : List UInt8}
    (ha : s.allocateGrains i len = some (g, s1)) (hbs : bs.length ≤ len * c.grainSize) :
    Books True s 0 { s1 with media := write s1.media (g * c.grainSize) bs } {(g, len)} := by
  intro F hF
  have hseg := base.segs i (by rw [(allocateGrains_eq_some ha).1]; simp)
  have ht := allocateGrains_tables ha
  have hch := charges_congr (alloc_write_frame base ha hbs) ht
  refine ⟨0, ?_, fun _ => rfl⟩
  rw [hch]
  rw [add_zero] at hF
  have h := (hF.allocate hseg ha)
  have he : {(g, len)} + (s.charges + F) = s.charges + {(g, len)} + 0 + F := by abel
  rw [he] at h
  exact h.congr rfl rfl

theorem recycleSegment_books (s : Store c) (j : Nat) : Books True s 0 (s.recycleSegment j) 0 := by
  have hch : (s.recycleSegment j).charges = s.charges := by
    unfold recycleSegment
    dsimp only
    split <;> exact charges_of_eq rfl rfl rfl
  refine Moves.of_counts (by rw [hch]) fun Q h => ?_
  unfold recycleSegment
  dsimp only
  split
  · rename_i hst
    refine ⟨fun i hi => ?_, fun i hi => ?_, h.used⟩
    · by_cases hij : i = j
      · subst hij
        have hv := h.valid i (by rw [hst]; simp)
        unfold openGrains at hv ⊢
        rw [if_pos hst] at hv
        simp only [setSeg, update_self]
        rw [if_neg (by simp)]
        omega
      · have hv := h.valid i (by simpa [setSeg, hij] using hi)
        simpa [openGrains, setSeg, hij] using hv
    · by_cases hij : i = j
      · simp [setSeg, hij] at hi
      · simpa [setSeg, hij] using h.free i (by simpa [setSeg, hij] using hi)
  · exact h

theorem Counts.allocateSegment (ha : s.allocateSegment i y = some s')
    (hu : s'.usedCapacity = s.usedCapacity) (h : s.Counts Q) : s'.Counts Q := by
  obtain ⟨_, hfree, _, _, hseg⟩ := allocateSegment_eq_some ha
  have hlt := c.md_lt
  refine ⟨fun j hj => ?_, fun j hj => ?_, by rw [hu]; exact h.used⟩
  · by_cases hji : j = i
    · subst hji
      obtain ⟨hv, hz⟩ := h.free j hfree
      unfold openGrains
      rw [hz, hseg]
      simp only [update_self, if_true]
      omega
    · have hv := h.valid j (by simpa [hseg, hji] using hj)
      simpa [openGrains, hseg, hji] using hv
  · by_cases hji : j = i
    · simp [hseg, hji] at hj
    · simpa [hseg, hji] using h.free j (by simpa [hseg, hji] using hj)

theorem allocateSegment_rest (ha : s.allocateSegment i y = some s') :
    s'.usedCapacity = s.usedCapacity ∧ s'.tables = s.tables := by
  unfold Store.allocateSegment at ha
  split at ha
  · cases ha
    cases y <;> exact ⟨rfl, rfl⟩
  · cases ha

theorem allocateSegment_books (ha : s.allocateSegment i y = some s') : Books True s 0 s' 0 := by
  obtain ⟨hu, ht⟩ := allocateSegment_rest ha
  obtain ⟨_, _, hd, hm, _⟩ := allocateSegment_eq_some ha
  exact Moves.of_counts (by rw [charges_of_eq hd hm ht]) fun _ h => h.allocateSegment ha hu

/-- A segment is released with the count that `scm_put_free_seg` asserts. -/
theorem putFreeSeg_books (hz : (s.seg i).validNr = 0) (h : s.putFreeSeg i = some s') :
    Books True s 0 s' 0 := by
  unfold putFreeSeg at h
  split at h
  · rename_i hcl
    cases h
    refine Moves.of_counts rfl fun Q hQ => ?_
    refine ⟨fun j hj => ?_, fun j hj => ?_, hQ.used⟩
    · by_cases hji : j = i
      · simp [setSeg, hji] at hj
      · have hv := hQ.valid j (by simpa [setSeg, hji] using hj)
        simpa [openGrains, setSeg, hji] using hv
    · by_cases hji : j = i
      · subst hji
        have hv := hQ.valid j (by rw [hcl]; simp)
        refine ⟨by simp [setSeg], by omega⟩
      · simpa [setSeg, hji] using hQ.free j (by simpa [setSeg, hji] using hj)
  · cases h

/-! ## One slot -/

def slotCharge (s : Store c) (t : UDepotMap c.bits) (q : Nat) : Multiset (Nat × Nat) :=
  (content t q).map s.charge

/-- A change of a slot takes the new charge in and sets the old one free. -/
theorem setTable_books {s : Store c} {h q : Nat} {t : UDepotMap c.bits} (base : s.Base)
    (hq : q < entryNr c.bits) (ho : ∀ r, r ≠ q → t.ht r = (s.table h).ht r) :
    Books True s (s.slotCharge t q) (s.setTable h t) (s.slotCharge (s.table h) q) := by
  obtain ⟨rest, h1, h2⟩ := s.dir.entries_split (table_lt base h) hq ho
  refine Moves.of_counts ?_ fun _ hc => hc.congr rfl rfl
  change (s.dir.setMap _ t).entries.map s.charge + s.tableCharges +
    (content (s.dir.map (hashToDirIdx c.bits h s.dir.idxBits)) q).map s.charge =
    s.dir.entries.map s.charge + s.tableCharges + (content t q).map s.charge
  rw [h1, h2, Multiset.map_add, Multiset.map_add]
  abel

theorem slotCharge_of_used {t : UDepotMap c.bits} {q : Nat} (hu : (t.ht q).used = true) :
    s.slotCharge t q = {((t.ht q).pba, c.recGrains s.media (t.ht q).pba)} := by
  simp [slotCharge, content, hu, charge]

theorem slotCharge_of_unused {t : UDepotMap c.bits} {q : Nat} (hu : (t.ht q).used = false) :
    s.slotCharge t q = 0 := by
  simp [slotCharge, content_of_unused hu]

/-- Giving back fewer grains than a charge has leaves the rest without an owner. -/
theorem invalidateGrains_part (s : Store c) {g n a : Nat} (hle : n ≤ a) :
    Books (a = n) s {(g, a)} (s.invalidateGrains g n) 0 := by
  by_cases ha : a = n
  · subst ha
    exact (invalidateGrains_books s g a).mono fun _ => trivial
  · intro F hF
    obtain ⟨L, h, hL⟩ := invalidateGrains_books s g n ({(g, a - n)} + F) (by
      obtain ⟨hv, hf, hu⟩ := hF
      refine ⟨fun i hi => ?_, fun i hi => ?_, ?_⟩
      · have := hv i hi
        simp only [chargeAt_add, chargeAt_singleton] at this ⊢
        split at this <;> rename_i hs <;> simp only [hs, if_true, if_false] at this ⊢ <;> omega
      · have := hf i hi
        simp only [chargeAt_add, chargeAt_singleton] at this ⊢
        split at this <;> rename_i hs <;> simp only [hs, if_true, if_false] at this ⊢ <;> omega
      · simp only [total_add, total_singleton] at hu ⊢
        omega)
    obtain rfl := hL trivial
    refine ⟨{(g, a - n)}, ?_, fun h' => absurd h' ha⟩
    rwa [add_zero, ← add_assoc] at h

end UDepot.Store
