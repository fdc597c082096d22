import UDepot.Absent
import UDepot.RecoveryGrow

/-! What becomes of one record that crash recovery restores. -/

namespace UDepot.Store
open Bytes UDepotMap Directory Config

variable {c : Config}

/-- The record at `g` is mapped in the table of `h`: a lookup of its fingerprint comes to it. -/
def Mapped (s : Store c) (h g : Nat) : Prop :=
  ∃ q, (s.table h).Matches h q ∧ ((s.table h).ht q).pba = g

theorem setMapping_table (s : Store c) (h q : Nat) (update : Bool) (kl vl pba : Nat)
    (md : StoreHeader) : (s.setMapping h q update kl vl pba md).table h =
      if update then (s.table h).updateInplace q h (c.kvTotGrainsGet kl vl) pba
      else (s.table h).insert q h (c.kvTotGrainsGet kl vl) pba := by
  have hset : ∀ (s' : Store c) (t : UDepotMap c.bits), s'.dir = s.dir →
      (s'.setTable h t).table h = t := by
    intro s' t hd
    rw [table, setTable, hashToMap]
    exact Function.update_self ..
  rw [setMapping]
  cases update with
  | true => exact hset _ _ rfl
  | false =>
    simp only [Bool.false_eq_true, ↓reduceIte]
    split
    · exact hset _ _ rfl
    · exact hset _ _ rfl

variable {h q : Nat}

theorem update_live (t : UDepotMap c.bits) {kv pba : Nat} (hk : 0 < kv) (hp : pba < unusedPba) :
    ((t.update q h kv pba).ht q).live = true := by
  have hlt : pba < 2 ^ 39 := by
    rw [unusedPba] at hp
    omega
  have hmax : 0 < maxKvSize := by decide
  rw [HashEntry.live_iff, HashEntry.used, HashEntry.deleted, update_pba t hlt, update_kvSize]
  refine ⟨bne_iff_ne.mpr (by omega), beq_eq_false_iff_ne.mpr ?_⟩
  omega

theorem updateInplace_matches {t : UDepotMap c.bits} (w : t.Wf) {kv pba : Nat} (hm : t.Matches h q)
    (hk : 0 < kv) (hp : pba < unusedPba) : (t.updateInplace q h kv pba).Matches h q := by
  have hlive := updateInplace_live t (h := h) (q := q) hk hp
  refine ⟨hm.1, hlive, ?_⟩
  have hs : (t.updateInplace q h kv pba).SlotWf q := (updateInplace_wf w hm.2.1 hp).slot q hlive
  obtain ⟨-, hhome⟩ := (w.slot q hm.2.1).keyfp_eq_iff.mp hm.2.2
  rw [hs.keyfp_eq_iff]
  refine ⟨?_, ?_⟩
  · simp only [updateInplace, set_self, HashEntry.setPba_keyTag, HashEntry.setKvSize_keyTag,
      HashEntry.setTag_keyTag]
    exact Nat.mod_eq_of_lt (hashToKeytag_lt c.bits h)
  · rw [home, updateInplace_offset]
    exact hhome

theorem insert_mapped {s : Store c} {g : Nat} (hg : g < unusedPba) (hw : InWindow c.bits h q)
    (kl vl : Nat) (md : StoreHeader) : (s.setMapping h q false kl vl g md).Mapped h g := by
  refine ⟨q, ?_⟩
  rw [setMapping_table, if_neg (by decide)]
  exact ⟨⟨hw, update_live _ (kvTotGrainsGet_pos kl vl) hg, (update_keyfp hw _ _).symm⟩,
    update_pba _ (by rw [unusedPba] at hg; omega)⟩

theorem update_mapped {s : Store c} {g : Nat} (w : (s.table h).Wf) (hg : g < unusedPba)
    (hm : (s.table h).Matches h q) (kl vl : Nat) (md : StoreHeader) :
    (s.setMapping h q true kl vl g md).Mapped h g := by
  refine ⟨q, ?_⟩
  rw [setMapping_table, if_pos rfl]
  exact ⟨updateInplace_matches w hm (kvTotGrainsGet_pos kl vl) hg,
    updateInplace_pba _ (by rw [unusedPba] at hg; omega)⟩

/-! ## The slot that the lookup of a restore gives -/

/-- What the loop says about the table, whatever it holds. -/
def LoopRes.Says (t : UDepotMap c.bits) (h : Nat) : LoopRes → Prop
  | .enodata q => InWindow c.bits h q
  | .enospc => ∀ r, InWindow c.bits h r → (t.ht r).live = true
  | .noMatch => True
  | .hit q => t.Matches h q

theorem lookupLoop_says (t : UDepotMap c.bits) (h : Nat) (isMatch : HashEntry → Bool) :
    (lookupLoop t h isMatch lookupRounds []).Says t h := by
  rcases lookupLoop_answers t h isMatch with ⟨hl, hr⟩ | ⟨q, hl, hr⟩ |
    ⟨q, hl, hr | ⟨r, hmem, -, hr⟩⟩ <;> rw [hr]
  · exact lookup_enospc hl
  · exact (lookup_enodata hl).1
  · trivial
  · exact matches_of_chain hl hmem

def PutLookup.Says (t : UDepotMap c.bits) (h : Nat) : PutLookup → Prop
  | .enodata q => InWindow c.bits h q
  | .enospc => t.nextFree h = none
  | .eexist q _ => t.Matches h q

theorem lookupMbuffPut_says (hb : c.bits ≤ 32) (s : Store c) (k : List UInt8) :
    (s.lookupMbuffPut k).Says (s.table (c.hash k)) (c.hash k) := by
  have h := lookupLoop_says (s.table (c.hash k)) (c.hash k) (keyMatch c s.media k)
  rw [lookupMbuffPut]
  cases hr : lookupLoop (s.table (c.hash k)) (c.hash k) (keyMatch c s.media k) lookupRounds [] with
  | enodata q =>
    rw [hr] at h
    exact h
  | enospc =>
    rw [hr] at h
    exact (nextFree_eq_none hb).mpr h
  | hit q =>
    rw [hr] at h
    exact h
  | noMatch =>
    dsimp only
    cases hf : (s.table (c.hash k)).nextFree (c.hash k) with
    | none => exact hf
    | some q => exact ((nextFree_eq_some hb).mp hf).1

/-! ## One restore -/

/-- The window of the record at `g` is full, no displacement makes room, and the growth returns
zero. -/
def GrowsForRoom (s : Store c) (g : Nat) (allocs : List TableAlloc) : Prop :=
  s.lookupMbuffPut (c.recKey s.media g) = .enospc ∧
    ((s.table (c.hash (c.recKey s.media g))).tryShift (c.hash (c.recKey s.media g))).2 = none ∧
    ((s.setTable (c.hash (c.recKey s.media g)) ((s.table (c.hash (c.recKey s.media g))).tryShift
      (c.hash (c.recKey s.media g))).1).initGrow allocs).2 = true

/-- What is owed to a record in this case: it is mapped in the directory after the growth. -/
def InsertsGrown (s : Store c) (g : Nat) (allocs : List TableAlloc) : Prop :=
  s.GrowsForRoom g allocs → (s.tryRestoreEntry g allocs).2 = .ok ∧
    (s.tryRestoreEntry g allocs).1.Mapped (c.hash (c.recKey s.media g)) g

/-- The mapping is set through a null pointer in every case in which a growth was to make the room,
and in no other; a restore that reports success has mapped its record. -/
theorem restore_nullTrgt_iff (hb : c.bits ≤ 32) {s : Store c} {g : Nat} (hg : g < unusedPba)
    (w : (s.table (c.hash (c.recKey s.media g))).Wf) (allocs : List TableAlloc) :
    ((s.tryRestoreEntry g allocs).2 = .nullTrgt ↔ s.GrowsForRoom g allocs) ∧
      ((s.tryRestoreEntry g allocs).2 = .ok →
        (s.tryRestoreEntry g allocs).1.Mapped (c.hash (c.recKey s.media g)) g) := by
  have hsays := lookupMbuffPut_says hb s (c.recKey s.media g)
  rw [GrowsForRoom, tryRestoreEntry]
  cases hl : s.lookupMbuffPut (c.recKey s.media g) with
  | enodata q =>
    rw [hl] at hsays
    exact ⟨by simp, fun _ => insert_mapped hg hsays _ _ _⟩
  | eexist q md =>
    rw [hl] at hsays
    dsimp only
    split
    · exact ⟨by simp, fun _ => update_mapped w hg hsays _ _ _⟩
    · exact ⟨by simp, fun h => by cases h⟩
  | enospc =>
    rw [hl] at hsays
    have hres := tryShift_result w hsays
    dsimp only
    cases hs : (s.table (c.hash (c.recKey s.media g))).tryShift (c.hash (c.recKey s.media g)) with
    | mk t o =>
      rw [hs] at hres
      cases o with
      | some q =>
        obtain ⟨h1, h2, -⟩ := hres.slot q rfl
        exact ⟨by simp, fun _ => insert_mapped hg ⟨h1, h2⟩ _ _ _⟩
      | none =>
        dsimp only
        cases hgrow : (s.setTable (c.hash (c.recKey s.media g)) t).initGrow allocs with
        | mk s1 b => cases b <;> simp

/-- The first records of the crowded device are mapped: `n` entries of the first bucket. -/
def packedTable (n : Fin 33) : UDepotMap crowded.bits where
  ht q :=
    if h : q < n.val then
      ⟨q, 7 * q, 1, 40 + q, HashEntry.window_offset_lt n h, by omega, HashEntry.one_kv_lt, by omega⟩
    else .fresh
  bits_lt := crowded.bits_lt

def packed (n : Fin 33) : Store crowded :=
  { crowdedDevice 33 with dir := ⟨0, fun _ => packedTable n⟩ }

theorem packedTable_wf (n : Fin 33) : (packedTable n).Wf := by
  refine ⟨by decide, fun q hq => ?_, fun q hq => ?_⟩
  · by_cases h : q < n.val
    · have hoff : ((packedTable n).ht q).bucketOffset = q := by simp [packedTable, h]
      exact ⟨by omega, by omega, by rw [home, hoff, Nat.sub_self]; decide⟩
    · simp [packedTable, h] at hq
  · by_cases h : q < n.val
    · simp [packedTable, h, HashEntry.deleted]
    · simp [packedTable, h, HashEntry.deleted, HashEntry.fresh, maxKvSize]

theorem packed_growsForRoom : (packed 32).GrowsForRoom 72 (crowdedAllocs 72) :=
  ⟨by decide +kernel, by decide +kernel, by decide +kernel⟩

/-- The 32nd record finds the last slot of the window and is mapped there; for the 33rd the
directory grows, and its target is null. -/
theorem packed_restored : ((packed 31).tryRestoreEntry 71 (crowdedAllocs 71)).2 = .ok ∧
    ((packed 31).tryRestoreEntry 71 (crowdedAllocs 71)).1.Mapped
      (crowded.hash (crowded.recKey (packed 31).media 71)) 71 ∧
    ((packed 32).tryRestoreEntry 72 (crowdedAllocs 72)).2 = .nullTrgt := by
  have hok : ((packed 31).tryRestoreEntry 71 (crowdedAllocs 71)).2 = .ok := by decide +kernel
  exact ⟨hok, (@restore_nullTrgt_iff crowded (by decide) (packed 31) 71 (by decide)
      (packedTable_wf 31) _).2 hok,
    (@restore_nullTrgt_iff crowded (by decide) (packed 32) 72 (by decide)
      (packedTable_wf 32) _).1.mpr packed_growsForRoom⟩

/-- The directory has two tables afterwards, and the record is in none of them. -/
theorem packed_null_trgt : (packedTable 32).Wf ∧ (packed 32).GrowsForRoom 72 (crowdedAllocs 72) ∧
    ((packed 32).tryRestoreEntry 72 (crowdedAllocs 72)).2 = .nullTrgt ∧
    ((packed 32).tryRestoreEntry 72 (crowdedAllocs 72)).1.dir.idxBits = 1 ∧
    ¬ (packed 32).InsertsGrown 72 (crowdedAllocs 72) := by
  have hnull : ((packed 32).tryRestoreEntry 72 (crowdedAllocs 72)).2 = .nullTrgt := by
    decide +kernel
  refine ⟨packedTable_wf 32, packed_growsForRoom, hnull, by decide +kernel, fun h => ?_⟩
  have hok := (h packed_growsForRoom).1
  rw [hnull] at hok
  cases hok

end UDepot.Store
