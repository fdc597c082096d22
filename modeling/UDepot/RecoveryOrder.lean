import UDepot.RecoveryEnd

/-! Which record of a key a recovery maps. The order check compares the timestamp in the
header of the record mapped so far with the timestamp of the segment of the next one.
The two are different things for a relocated record: it keeps the header of the put and
lies in a segment opened later. So the check is no order, and the result depends on the
order in which the segments are visited. -/

namespace UDepot.Store
open Bytes UDepotMap Directory Config Elect List

variable {c : Config}

/-- The record that the map in memory points at for `k`: its live record, or, for a key
without one, its newest tombstone. -/
def PointsAt (s : Store c) (k : List UInt8) (g : Nat) : Prop :=
  (∃ e ∈ s.dir.entries, e.deleted = false ∧ c.recKey s.media e.pba = k ∧ e.pba = g) ∨
    (∀ e ∈ s.dir.entries, c.recKey s.media e.pba = k → e.deleted = true) ∧
      (∃ e ∈ s.dir.entries, c.recKey s.media e.pba = k ∧ e.pba = g) ∧
      ∀ e ∈ s.dir.entries, c.recKey s.media e.pba = k → e.pba = g ∨ s.newer e.pba g = true

instance (s : Store c) (k : List UInt8) (g : Nat) : Decidable (s.PointsAt k g) :=
  haveI (p : Content → Prop) [DecidablePred p] : Decidable (∃ e ∈ s.dir.entries, p e) :=
    Multiset.decidableExistsMultiset
  inferInstanceAs (Decidable (_ ∨ _))

def recordsOf (s : Store c) (k : List UInt8) (j : Nat) : List Nat :=
  (s.scanned j).filter fun g => c.recKey s.media g = k

/-- `g` is the last record of `k` in its segment, and the order check decides for it
against the last record of `k` in each other segment, whichever is scanned first. -/
def Latest (s : Store c) (k : List UInt8) (g : Nat) : Prop :=
  ∃ j, j < c.segNr ∧ (s.recordsOf k j).getLast? = some g ∧
    ∀ j', j' < c.segNr → j' ≠ j → ∀ b ∈ (s.recordsOf k j').getLast?,
      s.newer g b = false ∧ s.newer b g = true

/-! ## The election -/

theorem recordsOf_blocks (s : Store c) (k : List UInt8) :
    Blocks s.newer c.grainToSegIdx (s.recordsOf k) := by
  refine ⟨fun j g hg => scanned_in_seg (mem_of_mem_filter hg), fun j => ?_,
    fun x y y' hy hx => ?_⟩
  · refine List.Pairwise.filter _ ?_
    unfold scanned
    cases s.kvTs j with
    | none => exact List.Pairwise.nil
    | some ts =>
      refine (scanChain_sorted s.media j ts c.segSize 0).imp_of_mem fun hx hy hlt => ?_
      simp [newer, (scanChain_in_seg hx).trans (scanChain_in_seg hy).symm, hlt]
  · unfold newer
    rw [if_pos hx, if_pos (by rwa [← hy]), hy]

theorem elected_eq (s : Store c) (order : List Nat) (k : List UInt8) :
    s.elected (order.flatMap s.scanned) k = elect s.newer none (order.flatMap (s.recordsOf k)) := by
  unfold elected
  rw [filter_flatMap]
  rfl

variable {s : Store c} {order : List Nat} {k : List UInt8}

theorem elected_eq_none :
    s.elected (order.flatMap s.scanned) k = none ↔ ∀ j ∈ order, s.recordsOf k j = [] := by
  rw [elected_eq, elect_eq_none, flatMap_eq_nil_iff]

theorem latest_iff {g : Nat} :
    (∀ order : List Nat, order.Perm (List.range c.segNr) →
      s.elected (order.flatMap s.scanned) k = some g) ↔ s.Latest k g := by
  simp only [elected_eq]
  rw [(recordsOf_blocks s k).elect_perm_iff nodup_range g]
  constructor
  · rintro ⟨j, hj, hl, hw⟩
    exact ⟨j, mem_range.mp hj, hl, fun j' hj' hne b hb => hw j' (mem_range.mpr hj') hne b hb⟩
  · rintro ⟨j, hj, hl, hw⟩
    exact ⟨j, mem_range.mpr hj, hl, fun j' hj' hne b hb => hw j' (mem_range.mp hj') hne b hb⟩

theorem Recovered.pointsAt {s' : Store c} (hr : Recovered s order s') (k : List UInt8) (g : Nat) :
    s'.PointsAt k g ↔ s.elected (order.flatMap s.scanned) k = some g := by
  rw [hr.points]
  constructor
  · rintro (⟨e, he, hd, hk⟩ | ⟨hall, ⟨e, he, hk, _⟩, _⟩)
    · exact ⟨e, Multiset.mem_filter.mpr ⟨he, hd⟩, hk⟩
    · have := hall e he hk
      rw [hr.live e he] at this
      cases this
  · rintro ⟨e, he, hk⟩
    exact .inl ⟨e, Multiset.mem_of_mem_filter he, (Multiset.mem_filter.mp he).2, hk⟩

/-! ## The assertions -/

/-- The last record of a key in a segment and any record of it in another have timestamps that
are set and differ, so that the assertions of the order check hold of them. -/
def StampsApart (s : Store c) : Prop :=
  ∀ k j j', j < c.segNr → j' < c.segNr → j ≠ j' → ∀ b ∈ (s.recordsOf k j).getLast?,
    s.recordsOf k j' ≠ [] → 0 < (c.readHeader s.media b).timestamp ∧ 0 < (s.kvTs j').getD 0 ∧
      (c.readHeader s.media b).timestamp ≠ (s.kvTs j').getD 0

theorem apart_inner (s : Store c) (k : List UInt8) (j : Nat) :
    (s.recordsOf k j).Pairwise fun x y => s.apart x y = true := by
  have hb := recordsOf_blocks s k
  refine (hb.inner j).imp_of_mem fun hx hy hxy => ?_
  have hsame := (hb.own j _ hx).trans (hb.own j _ hy).symm
  rw [newer, if_neg (not_not.mpr hsame), decide_eq_true_eq] at hxy
  rw [apart, if_neg (not_not.mpr hsame), decide_eq_true_eq]
  exact Nat.ne_of_lt hxy

theorem stampsApart_iff (s : Store c) :
    (∀ order : List Nat, order.Perm (List.range c.segNr) →
      s.ChecksAfter [] (order.flatMap s.scanned)) ↔ s.StampsApart := by
  have houter : ∀ x y y', c.grainToSegIdx y = c.grainToSegIdx y' →
      c.grainToSegIdx x ≠ c.grainToSegIdx y → s.apart x y = s.apart x y' := by
    intro x y y' hy hx
    unfold apart
    rw [if_pos hx, if_pos (by rwa [← hy]), hy]
  have hchecks : ∀ order : List Nat, s.ChecksAfter [] (order.flatMap s.scanned) ↔
      ∀ k, checks s.newer s.apart none (order.flatMap (s.recordsOf k)) = true := by
    intro order
    refine forall_congr' fun k => ?_
    rw [filter_flatMap]
    rfl
  have hperm := fun k => (recordsOf_blocks s k).checks_perm_iff (apart_inner s k) houter
    (nodup_range (n := c.segNr))
  simp only [hchecks]
  constructor
  · intro h k j j' hj hj' hne b hb hsome
    obtain ⟨x, hx⟩ := exists_mem_of_ne_nil _ hsome
    have hap := (hperm k).mp (fun js hjs => h js hjs k) j (mem_range.mpr hj) j'
      (mem_range.mpr hj') hne b hb x hx
    have hblocks := recordsOf_blocks s k
    have hbj := hblocks.own j b (mem_of_getLast? hb)
    have hxj := hblocks.own j' x hx
    rwa [apart, if_pos (by rwa [hbj, hxj]), decide_eq_true_eq, hxj] at hap
  · intro h order hp k
    refine (hperm k).mpr (fun j hj j' hj' hne b hb x hx => ?_) order hp
    have hblocks := recordsOf_blocks s k
    have hbj := hblocks.own j b (mem_of_getLast? hb)
    have hxj := hblocks.own j' x hx
    rw [apart, if_pos (by rwa [hbj, hxj]), decide_eq_true_eq, hxj]
    exact h k j j' (mem_range.mp hj) (mem_range.mp hj') hne b hb (ne_nil_of_mem hx)

/-! ## The recovered map -/

/-- A recovery that ends and trips no assertion, if the build has them. -/
def EndsWell (s : Store c) (asserts : Bool) (order : List Nat) (i : Nat)
    (allocs : Nat → List TableAlloc) (s' : Store c) : Prop :=
  s.recover order i allocs = .ok s' ∧ (asserts = true → s.recoverAsserts order i allocs = true)

/-- What every recovery needs to end and to trip no assertion: on the device, and before each of
its restores. -/
structure Restores (s : Store c) (asserts : Bool) (i : Nat) (allocs : Nat → List TableAlloc) :
    Prop where
  device : s.Recoverable i
  room : ∀ order : List Nat, order.Perm (List.range c.segNr) →
    s.recoverHasRoom order i allocs = true
  stamps : asserts = true → s.StampsApart

section Ends

variable {i : Nat} {allocs : Nat → List TableAlloc} {asserts : Bool}

theorem recovered_of_perm (hb : c.bits ≤ 32) (hdev : DeviceFits c)
    (hfit : s.ScanFits (List.range c.segNr)) {s' : Store c}
    (hp : order.Perm (List.range c.segNr)) (hok : s.recoverShiftsOk order i allocs = true)
    (h : s.recover order i allocs = .ok s') : Recovered s order s' :=
  recover_spec hb hdev (hp.nodup_iff.mpr nodup_range) (fun _ hj => mem_range.mp (hp.mem_iff.mp hj))
    (fun j hj => hfit j (hp.mem_iff.mp hj)) hok h

/-- All recoveries end without a failed assertion exactly under these conditions. -/
theorem endsWell_iff (hb : c.bits ≤ 32) (hdev : DeviceFits c)
    (hfit : s.ScanFits (List.range c.segNr))
    (hshift : ∀ order : List Nat, order.Perm (List.range c.segNr) →
      s.recoverShiftsOk order i allocs = true) :
    (∀ order : List Nat, order.Perm (List.range c.segNr) →
      ∃ s', s.EndsWell asserts order i allocs s') ↔ s.Restores asserts i allocs := by
  have hchecks : ∀ {order : List Nat} {s' : Store c}, order.Perm (List.range c.segNr) →
      s.recover order i allocs = .ok s' → (s.recoverAsserts order i allocs = true ↔
        s.ChecksAfter [] (order.flatMap s.scanned)) := fun hp h =>
    recoverAsserts_iff hb hdev (hp.nodup_iff.mpr nodup_range)
      (fun j hj => mem_range.mp (hp.mem_iff.mp hj)) (fun j hj => hfit j (hp.mem_iff.mp hj))
      (hshift _ hp) h
  constructor
  · intro h
    refine ⟨?_, fun order hp => ?_, fun ha => (stampsApart_iff s).mp fun order hp => ?_⟩
    · obtain ⟨s', hs', -⟩ := h _ (List.Perm.refl _)
      exact ((recover_ok_iff (List.Perm.refl _)).mp ⟨s', hs'⟩).1
    · obtain ⟨s', hs', -⟩ := h order hp
      exact ((recover_ok_iff hp).mp ⟨s', hs'⟩).2
    · obtain ⟨s', hs', hassert⟩ := h order hp
      exact (hchecks hp hs').mp (hassert ha)
  · rintro ⟨hdevice, hroom, hstamps⟩ order hp
    obtain ⟨s', hs'⟩ := (recover_ok_iff hp).mpr ⟨hdevice, hroom order hp⟩
    exact ⟨s', hs', fun ha => (hchecks hp hs').mpr ((stampsApart_iff s).mpr (hstamps ha) order hp)⟩

end Ends

instance (s : Store c) (k : List UInt8) (g : Nat) : Decidable (s.Latest k g) :=
  inferInstanceAs (Decidable (∃ j, j < c.segNr ∧ _))

/-- A computable check of what `recover_latest_iff` asks of the records. -/
def latestCheck (s : Store c) : Bool :=
  decide (∀ e ∈ s.dir.entries, s.PointsAt (c.recKey s.media e.pba) e.pba →
      s.Latest (c.recKey s.media e.pba) e.pba) &&
    (List.range c.segNr).all fun j => (s.scanned j).all fun g =>
      decide (¬∀ e ∈ s.dir.entries, ¬s.PointsAt (c.recKey s.media g) e.pba)

theorem PointsAt.entry {g : Nat} (h : s.PointsAt k g) :
    ∃ e ∈ s.dir.entries, c.recKey s.media e.pba = k ∧ e.pba = g := by
  rcases h with ⟨e, he, _, hk⟩ | ⟨_, h, _⟩
  · exact ⟨e, he, hk⟩
  · exact h

theorem latest_of_check (h : s.latestCheck = true) :
    (∀ k g, s.PointsAt k g → s.Latest k g) ∧
      ∀ k, (∀ g, ¬s.PointsAt k g) → ∀ j, j < c.segNr → s.recordsOf k j = [] := by
  simp only [latestCheck, Bool.and_eq_true, decide_eq_true_eq, all_eq_true, mem_range] at h
  refine ⟨fun k g hg => ?_, fun k hno j hj => ?_⟩
  · obtain ⟨e, he, rfl, rfl⟩ := hg.entry
    exact h.1 e he hg
  · refine filter_eq_nil_iff.mpr fun g hg hk => h.2 j hj g hg fun e _ => ?_
    rw [of_decide_eq_true hk]
    exact hno _

instance (ks vs : Nat) : Decidable (SizesFit ks vs) := inferInstanceAs (Decidable (_ < _))

instance (m : Nat → UInt8) (g : Nat) : Decidable (RecFits c m g) :=
  decidable_of_iff (SizesFit (c.readHeader m g).keySize (c.readHeader m g).valSize ∧
      0 < (c.readHeader m g).keySize ∧
      putKeyvalPrefixSize + (c.readHeader m g).keySize ≤ maxKvSize * c.grainSize ∧
      g + c.recGrains m g ≤ c.grainToSegIdx g * c.segSize + c.dataGrains)
    ⟨fun h => ⟨h.1, h.2.1, h.2.2.1, h.2.2.2⟩, fun h => ⟨h.fit, h.key_pos, h.reach, h.extent⟩⟩

instance (s : Store c) (order : List Nat) : Decidable (s.ScanFits order) :=
  inferInstanceAs (Decidable (∀ j ∈ order, _))

/-- The recovery completes in this order, its assertions hold and no shift in it hides an entry. -/
def recoversIn (s : Store c) (i : Nat) (allocs : Nat → List TableAlloc) (order : List Nat) : Bool :=
  s.recoverShiftsOk order i allocs && s.recoverAsserts order i allocs &&
    (s.recover order i allocs).toOption.isSome

theorem ok_of_toOption {α β : Type} {x : Except α β} {b : β} (h : x.toOption = some b) :
    x = .ok b := by
  cases x with
  | error e => cases h
  | ok a => exact congrArg Except.ok (Option.some.inj h)

theorem recoversIn_spec {i : Nat} {allocs : Nat → List TableAlloc}
    (h : s.recoversIn i allocs order = true) :
    s.recoverShiftsOk order i allocs = true ∧ ∃ s', s.EndsWell true order i allocs s' := by
  simp only [recoversIn, Bool.and_eq_true] at h
  obtain ⟨⟨hshift, hassert⟩, hok⟩ := h
  obtain ⟨s', hs'⟩ := Option.isSome_iff_exists.mp hok
  exact ⟨hshift, s', ok_of_toOption hs', fun _ => hassert⟩

theorem restores_of_recoversIn (hb : c.bits ≤ 32) (hdev : DeviceFits c) {i : Nat}
    {allocs : Nat → List TableAlloc} (hfit : s.ScanFits (List.range c.segNr))
    (h : ∀ order ∈ (List.range c.segNr).permutations', s.recoversIn i allocs order = true) :
    (∀ order : List Nat, order.Perm (List.range c.segNr) →
      s.recoverShiftsOk order i allocs = true) ∧ s.Restores true i allocs := by
  have hin := fun (order : List Nat) (hp : order.Perm (List.range c.segNr)) =>
    recoversIn_spec (h order (mem_permutations'.mpr hp))
  have hshift := fun order hp => (hin order hp).1
  exact ⟨hshift, (endsWell_iff hb hdev hfit hshift).mp fun order hp => (hin order hp).2⟩

/-! ## A relocated record -/

/-- A store like `colliding` whose checksum depends on the timestamp. -/
def stamped : Config := { colliding with
  checksum16 := fun ts bs => ts + (bs.map UInt8.toNat).sum + 1 }

/-- Two keys of one bucket, one put again and one deleted, in two segments. -/
def versionsTrace : List Event :=
  [.allocateSegment 1, .put [1] [10] .normal [⟨1, [], 0⟩], .put [2] [20] .normal [⟨1, [], 0⟩],
    .allocateSegment 2, .put [1] [11] .normal [⟨2, [], 0⟩], .del [2] [2]]

/-- The first version is relocated into a segment opened after the one that the second
version is then put into. -/
def relocTrace : List Event :=
  [.allocateSegment 1, .put [1] [10] .normal [⟨1, [], 0⟩], .recycleSegment 1, .allocateSegment 2,
    .allocateSegment 3, .gc 8 3, .put [1] [11] .normal [⟨2, [], 0⟩]]

end UDepot.Store
