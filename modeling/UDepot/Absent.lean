import UDepot.StoreLookup

/-! What `get`, `exists` and `del` answer for a key that the store does not map. The map
answers a lookup in three ways, and each of the three operations translates them for
itself. -/

namespace UDepot

namespace UDepotMap
open Scan

variable {bits : Nat}

/-- The window of `h` is full, and no entry in it has the fingerprint of `h`. -/
def Crowded (t : UDepotMap bits) (h : Nat) : Prop :=
  ∀ q, InWindow bits h q → (t.ht q).live = true ∧ hashToKeyfp bits h ≠ t.entryKeyfp q

variable {t : UDepotMap bits} {h : Nat}

/-- In a full window `lookup` comes to every slot. -/
theorem exists_found {q : Nat} (hfull : ∀ r, InWindow bits h r → (t.ht r).live = true)
    (hq : InWindow bits h q) (hfp : hashToKeyfp bits h = t.entryKeyfp q) :
    ∃ r, t.lookup h = .found r := by
  have hhit : (!(t.ht q).used || t.slotMatch (hashToKeyfp bits h) q) = true := by
    rw [slotMatch_iff.mpr ⟨((HashEntry.live_iff _).mp (hfull q hq)).2, hfp⟩, Bool.or_true]
  obtain ⟨r, hr, -⟩ := findFrom_isSome (p := fun r => !(t.ht r).used ||
    t.slotMatch (hashToKeyfp bits h) r) hq.1 hq.2 hhit
  have hf := findFrom_eq_some.mp hr
  exact ⟨r, lookup_eq_found.mpr ⟨hf, ((HashEntry.live_iff _).mp (hfull r ⟨hf.ge, hf.lt⟩)).1⟩⟩

theorem lookup_eq_enospc : t.lookup h = .enospc ↔ t.Crowded h := by
  constructor
  · intro hl q hq
    refine ⟨lookup_enospc hl q hq, fun hfp => ?_⟩
    obtain ⟨r, hr⟩ := exists_found (lookup_enospc hl) hq hfp
    rw [hl] at hr
    cases hr
  · intro hc
    cases hl : t.lookup h with
    | enospc => rfl
    | found q =>
      obtain ⟨hw, -, hfp⟩ := matches_of_lookup hl
      exact absurd hfp (hc q hw).2
    | enodata q =>
      obtain ⟨hw, hfree, -⟩ := lookup_enodata hl
      rw [HashEntry.free_eq_not_live, (hc q hw).1] at hfree
      cases hfree

instance (t : UDepotMap bits) (h : Nat) : Decidable (t.Crowded h) :=
  decidable_of_iff _ lookup_eq_enospc

/-- The slots that `lookup` and `next` lead to hold live entries of the fingerprint. -/
theorem matches_of_chain {q r : Nat} (hl : t.lookup h = .found q) (hr : r ∈ q :: t.nextChain h q) :
    t.Matches h r := by
  have hq := matches_of_lookup hl
  rcases List.mem_cons.mp hr with rfl | hr
  · exact hq
  · obtain ⟨h1, h2, h3⟩ := mem_nextChain.mp hr
    exact ⟨⟨by have := hq.1.1; omega, h2⟩, h3⟩

end UDepotMap

namespace Store
open Bytes UDepotMap Config

variable {c : Config}

theorem lookupLoop_absent {t : UDepotMap c.bits} {h : Nat} {isMatch : HashEntry → Bool}
    (hm : ∀ q, t.Matches h q → isMatch (t.ht q) = false) :
    (t.Crowded h ∧ lookupLoop t h isMatch lookupRounds [] = .enospc) ∨
      (¬ t.Crowded h ∧ ((∃ q, lookupLoop t h isMatch lookupRounds [] = .enodata q) ∨
        lookupLoop t h isMatch lookupRounds [] = .noMatch)) := by
  rw [← lookup_eq_enospc]
  rcases lookupLoop_answers t h isMatch with ⟨hl, hr⟩ | ⟨q, hl, hr⟩ |
    ⟨q, hl, hr | ⟨r, hmem, htrue, -⟩⟩
  · exact .inl ⟨hl, hr⟩
  · exact .inr ⟨by simp [hl], .inl ⟨q, hr⟩⟩
  · exact .inr ⟨by simp [hl], .inr hr⟩
  · rw [hm r (matches_of_chain hl hmem)] at htrue
    cases htrue

/-- No live entry of the table of the key leads to a record of the key. -/
def Unmapped (s : Store c) (k : List UInt8) : Prop :=
  ∀ q, ((s.table (c.hash k)).ht q).live = true →
    c.recKey s.media ((s.table (c.hash k)).ht q).pba ≠ k

variable {s : Store c} {k : List UInt8} {q : Nat}

theorem Unmapped.keyMatch (h : s.Unmapped k) (hq : (s.table (c.hash k)).Matches (c.hash k) q) :
    keyMatch c s.media k ((s.table (c.hash k)).ht q) = false := by
  by_contra hc
  exact h q hq.2.1 (keyMatch_iff.mp (by simpa using hc))

theorem Unmapped.getMatch (h : s.Unmapped k) (hq : (s.table (c.hash k)).Matches (c.hash k) q) :
    getMatch c s.media k ((s.table (c.hash k)).ht q) = false := by
  have hk := h.keyMatch hq
  rw [Store.keyMatch] at hk
  rw [Store.getMatch, Bool.and_right_comm, hk, Bool.false_and]

/-- The answers for a key that is not mapped. In a full window without its fingerprint
`get` and `exists` pass on what the map says about an insertion. -/
theorem unmapped_answers (h : s.Unmapped k) :
    s.get k = (if (s.table (c.hash k)).Crowded (c.hash k) then GetRes.enospc else .enodata) ∧
      s.exists' k =
        (if (s.table (c.hash k)).Crowded (c.hash k) then ExistsRes.enospc else .enodata) ∧
      ∀ i segs, s.del k (i :: segs) = (s, .enodata) := by
  have hget := lookupLoop_absent fun q hq => h.getMatch (q := q) hq
  have hkey := lookupLoop_absent fun q hq => h.keyMatch (q := q) hq
  refine ⟨?_, ?_, fun i segs => ?_⟩
  · rw [get]
    rcases hget with ⟨hc, hr⟩ | ⟨hc, ⟨q, hr⟩ | hr⟩
    · rw [hr, if_pos hc]
    · rw [hr, if_neg hc]
    · rw [hr, if_neg hc]
  · rw [exists']
    rcases hkey with ⟨hc, hr⟩ | ⟨hc, ⟨q, hr⟩ | hr⟩
    · rw [hr, if_pos hc]
    · rw [hr, if_neg hc]
    · rw [hr, if_neg hc]
  · rw [del, lookupMbuffPut]
    rcases hkey with ⟨-, hr⟩ | ⟨-, ⟨q, hr⟩ | hr⟩
    · rw [hr]
    · rw [hr]
    · rw [hr]
      dsimp only
      cases (s.table (c.hash k)).nextFree (c.hash k) <;> rfl

/-- A table of 16 buckets; the hash of a key is its first byte, as the tag over bucket 0. -/
def tagged : Config :=
  .ofSizes 4 32 64 1 4 (fun k => (k.headD 0).toNat * 16) (fun _ _ => 0) (Eq.refl true)

/-- A record of one grain at each address `g`, with the key of the one byte `g + 1` and the
value of one zero. -/
def tagMedia (a : Nat) : UInt8 :=
  if a % 32 = 0 ∨ a % 32 = 2 then 1 else if a % 32 = 14 then UInt8.ofNat (a / 32 + 1) else 0

theorem tagTable_offset_lt (h : q < 32) : q < 2 ^ 6 := by
  omega

theorem tagTable_tag_lt (h : q < 32) : q + 1 < 2 ^ 8 := by
  omega

/-- The keys of the bytes 1 to 32 are mapped: they fill the window of bucket 0. -/
def tagTable : UDepotMap tagged.bits where
  ht q :=
    if h : q < 32 then
      ⟨q, q + 1, 1, q, tagTable_offset_lt h, tagTable_tag_lt h, HashEntry.one_kv_lt,
        HashEntry.window_pba_lt h⟩
    else .fresh
  bits_lt := tagged.bits_lt

def tagStore : Store tagged := { Store.init tagged tagMedia 3 with dir := ⟨0, fun _ => tagTable⟩ }

theorem tagStore_unmapped (h : ∀ q < 32, tagged.recKey tagMedia q ≠ k) : tagStore.Unmapped k := by
  intro q hq
  change (tagTable.ht q).live = true at hq
  change tagged.recKey tagMedia (tagTable.ht q).pba ≠ k
  by_cases hlt : q < 32
  · rw [show (tagTable.ht q).pba = q by simp [tagTable, hlt]]
    exact h q hlt
  · rw [show tagTable.ht q = .fresh by simp [tagTable, hlt]] at hq
    cases hq

end Store
end UDepot
