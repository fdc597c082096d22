import UDepot.RecoveryOrder

/-! What a recovery makes of deleted keys. A tombstone is restored as an entry like any
other, and the pass over the tombstones only takes it out of the statistics: the key
then has the empty value. On the device a tombstone is the record of an empty value, so
the statistics lose the keys with such a value as well. -/

namespace UDepot.Store
open Bytes UDepotMap Directory Config Elect List Option

variable {c : Config}

/-- The statistics of a map whose keys are `ks`. -/
def mapStats (c : Config) (M : KvMap) (ks : Multiset (List UInt8)) : KvStats where
  keyNr := ks.card
  usedBytes := (ks.map fun k => (kvRawBytesGet k.length ((M k).getD []).length : Int)).sum
  totalBytes := (ks.map fun k => (kvTotBytesGet c k.length ((M k).getD []).length : Int)).sum

/-! ## The statistics -/

variable {M : KvMap}

theorem Represents.live {s : Store c} (hM : s.Represents M) {e : Content}
    (he : e ∈ s.dir.liveEntries) : M (c.recKey s.media e.pba) = some (c.recVal s.media e.pba) :=
  (hM _ _).mpr ⟨e, he, rfl, rfl⟩

theorem Represents.mem_keys {s : Store c} (hM : s.Represents M) (k : List UInt8) :
    k ∈ s.dir.liveEntries.map (fun e => c.recKey s.media e.pba) ↔ M k ≠ none := by
  rw [Multiset.mem_map, ne_none_iff_exists']
  constructor
  · rintro ⟨e, he, rfl⟩
    exact ⟨_, hM.live he⟩
  · rintro ⟨v, hv⟩
    obtain ⟨e, he, hk, _⟩ := (hM k v).mp hv
    exact ⟨e, he, hk⟩

theorem Represents.keys {s : Store c} (base : s.Base) (hM : s.Represents M)
    {ks : Multiset (List UInt8)} (hnd : ks.Nodup) (hks : ∀ k, k ∈ ks ↔ M k ≠ none) :
    ks = s.dir.liveEntries.map fun e => c.recKey s.media e.pba :=
  (Multiset.Nodup.ext hnd base.keys).mpr fun k => (hks k).trans (hM.mem_keys k).symm

theorem Represents.mapStats_eq {s : Store c} (base : s.Base) (hM : s.Represents M)
    {ks : Multiset (List UInt8)} (hnd : ks.Nodup) (hks : ∀ k, k ∈ ks ↔ M k ≠ none) :
    mapStats c M ks = statsOf c s.media s.records := by
  have hsum : ∀ f : Nat → Nat → Int,
      (ks.map fun k => f k.length ((M k).getD []).length).sum =
        (s.records.map fun g => f (c.readHeader s.media g).keySize
          (c.readHeader s.media g).valSize).sum := by
    intro f
    rw [hM.keys base hnd hks, records, Multiset.map_map, Multiset.map_map]
    refine congrArg Multiset.sum (Multiset.map_congr rfl fun e he => ?_)
    simp only [Function.comp_apply]
    rw [hM.live he, getD_some, recKey_length, recVal_length]
  unfold mapStats statsOf
  rw [hsum fun a b => (kvRawBytesGet a b : Int), hsum fun a b => (kvTotBytesGet c a b : Int),
    hM.keys base hnd hks, records, Multiset.card_map, Multiset.card_map]

/-! ## The recovered map -/

namespace Recovered

variable {s s' : Store c} {order : List Nat}

/-- The recovered store is the map of the values of the elected records. -/
theorem represents (hr : Recovered s order s') : s'.Represents fun k =>
    (s.elected (order.flatMap s.scanned) k).map (c.recVal s.media) := by
  intro k v
  rw [map_eq_some_iff, hr.media]
  constructor
  · rintro ⟨g, hg, rfl⟩
    obtain ⟨e, he, hk, rfl⟩ := (hr.points k g).mp hg
    exact ⟨e, he, by rwa [← hr.media], rfl⟩
  · rintro ⟨e, he, hk, rfl⟩
    exact ⟨e.pba, (hr.points k e.pba).mpr ⟨e, he, by rwa [hr.media], rfl⟩, rfl⟩

theorem get_eq (hr : Recovered s order s') (k v : List UInt8) :
    s'.get k = .ok v ↔ ∃ g, s.elected (order.flatMap s.scanned) k = some g ∧
      c.recVal s.media g = v :=
  (get_eq_ok hr.inv hr.represents k v).trans map_eq_some_iff

/-- The recovered store reports a key as absent exactly if no record of it is scanned. -/
theorem absent_iff (hr : Recovered s order s') (k : List UInt8) :
    ((∀ v, s'.get k ≠ .ok v) ∧ ∀ n, s'.exists' k ≠ .ok n) ↔ ∀ j ∈ order, s.recordsOf k j = [] := by
  rw [← elected_eq_none]
  constructor
  · rintro ⟨hget, _⟩
    cases he : s.elected (order.flatMap s.scanned) k with
    | none => rfl
    | some g => exact absurd ((hr.get_eq k _).mpr ⟨g, he, rfl⟩) (hget _)
  · intro he
    refine ⟨fun v hv => ?_, fun n hn => ?_⟩
    · obtain ⟨g, hg, _⟩ := (hr.get_eq k v).mp hv
      rw [he] at hg
      cases hg
    · obtain ⟨v, hv, _⟩ := (exists_eq_ok hr.inv hr.represents k n).mp hn
      rw [he] at hv
      cases hv

end Recovered

/-- Where the order check decides for the live records and no other key has a record, what is
elected is what was live. -/
theorem elected_of_live {s : Store c} {M : KvMap} (hM : s.Represents M)
    (hlatest : ∀ e ∈ s.dir.liveEntries, s.Latest (c.recKey s.media e.pba) e.pba)
    (hgone : ∀ k, M k = none → ∀ j, j < c.segNr → s.recordsOf k j = [])
    {order : List Nat} (hp : order.Perm (List.range c.segNr)) (k : List UInt8) (g : Nat) :
    s.elected (order.flatMap s.scanned) k = some g ↔
      ∃ e ∈ s.dir.liveEntries, c.recKey s.media e.pba = k ∧ e.pba = g := by
  constructor
  · intro hel
    cases hk : M k with
    | none =>
      have hnone := elected_eq_none.mpr fun j hj =>
        hgone k hk j (mem_range.mp (hp.mem_iff.mp hj))
      cases hnone.symm.trans hel
    | some v =>
      obtain ⟨e, he, rfl, -⟩ := (hM k v).mp hk
      have hlive := latest_iff.mpr (hlatest e he) order hp
      exact ⟨e, he, rfl, Option.some.inj (hlive.symm.trans hel)⟩
  · rintro ⟨e, he, rfl, rfl⟩
    exact latest_iff.mpr (hlatest e he) order hp

/-- The recovered store then points at the live records, and nowhere else. -/
theorem Recovered.records_live {s s' : Store c} {order : List Nat} (hr : Recovered s order s')
    (base : s.Base) (h : ∀ k g, s.elected (order.flatMap s.scanned) k = some g ↔
      ∃ e ∈ s.dir.liveEntries, c.recKey s.media e.pba = k ∧ e.pba = g) :
    s'.records = s.records := by
  refine (Multiset.Nodup.ext (records_nodup hr.inv.toBase) (records_nodup base)).mpr fun g => ?_
  rw [mem_records, mem_records]
  constructor
  · rintro ⟨e, he, rfl⟩
    have hel := (hr.points _ e.pba).mpr ⟨e, he, rfl, rfl⟩
    obtain ⟨e', he', -, hg⟩ := (h _ _).mp hel
    exact ⟨e', he', hg⟩
  · rintro ⟨e, he, rfl⟩
    obtain ⟨e', he', -, hg⟩ := (hr.points _ e.pba).mp ((h _ e.pba).mpr ⟨e, he, rfl, rfl⟩)
    exact ⟨e', he', hg⟩

/-- The pass over the tombstones leaves the statistics of records without an empty value. -/
theorem statsOf_filter_iff (m : Nat → UInt8) (gs : Multiset Nat) :
    statsOf c m (gs.filter fun g => (c.readHeader m g).valSize ≠ 0) = statsOf c m gs ↔
      ∀ g ∈ gs, (c.readHeader m g).valSize ≠ 0 := by
  rw [← Multiset.filter_eq_self]
  constructor
  · intro h
    have hcard := congrArg KvStats.keyNr h
    simp only [statsOf, Nat.cast_inj] at hcard
    exact Multiset.eq_of_le_of_card_le (Multiset.filter_le _ _) hcard.ge
  · exact fun h => congrArg _ h

/-- The segment of a deleted key is collected and its first grain written again: the
checksum of what follows is not one for the new timestamp of the segment. -/
def forgottenTrace : List Event :=
  [.allocateSegment 1, .put [2] [20] .normal [⟨1, [], 0⟩], .put [1] [10] .normal [⟨1, [], 0⟩],
    .del [1] [1], .recycleSegment 1, .allocateSegment 2, .gc 8 2, .gc 10 2, .putFreeSeg 1,
    .allocateSegment 1, .put [3] [30] .normal [⟨1, [], 0⟩]]

/-- A computable check of what `recover_deleted_iff` asks of the keys without a deletion, and that
none has the empty value. -/
def liveCheck (s : Store c) (deleted : List (List UInt8)) : Bool :=
  decide (∀ e ∈ s.dir.liveEntries,
      s.Latest (c.recKey s.media e.pba) e.pba ∧ c.recVal s.media e.pba ≠ []) &&
    (List.range c.segNr).all fun j => (s.scanned j).all fun g =>
      decide (c.recKey s.media g ∈ deleted ∨
        ¬∀ e ∈ s.dir.liveEntries, c.recKey s.media e.pba ≠ c.recKey s.media g)

theorem live_of_check {s : Store c} {M : KvMap} (hM : s.Represents M) {deleted : List (List UInt8)}
    (h : s.liveCheck deleted = true) :
    (∀ e ∈ s.dir.liveEntries, s.Latest (c.recKey s.media e.pba) e.pba) ∧
      (∀ k, M k = none → k ∉ deleted → ∀ j, j < c.segNr → s.recordsOf k j = []) ∧
      ∀ k, M k ≠ some [] := by
  simp only [liveCheck, Bool.and_eq_true, decide_eq_true_eq, List.all_eq_true, mem_range] at h
  refine ⟨fun e he => (h.1 e he).1, fun k hk hdel j hj => ?_, fun k hk => ?_⟩
  · refine filter_eq_nil_iff.mpr fun g hg hkey => ?_
    have hkey : c.recKey s.media g = k := of_decide_eq_true hkey
    refine (h.2 j hj g hg).elim (fun hmem => hdel (hkey ▸ hmem)) fun hno => hno fun e he hrec => ?_
    have hlive := hM.live he
    rw [hrec, hkey, hk] at hlive
    cases hlive
  · obtain ⟨e, he, -, hempty⟩ := (hM k []).mp hk
    exact (h.1 e he).2 hempty

/-- A key is put and deleted, and another has the empty value. -/
def deletedTrace : List Event :=
  [.allocateSegment 1, .put [1] [10] .normal [⟨1, [], 0⟩], .del [1] [1],
    .put [2] [] .normal [⟨1, [], 0⟩]]

end UDepot.Store
