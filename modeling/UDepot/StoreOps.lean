import UDepot.StoreSlot

/-! The four rewrites of a slot: `insert` into a slot that is not live,
`update_inplace` and `remove` of the entry of a key, and `purge` of a tombstone. -/

namespace UDepot.Store
open Bytes UDepotMap Directory Config Multiset

variable {c : Config}

/-- A record that an entry may come to point at: complete, of key `k`, in grains
that were handed out. -/
structure Written (s : Store c) (k : List UInt8) (pba : Nat) : Prop where
  key : c.recKey s.media pba = k
  fit : SizesFit (c.readHeader s.media pba).keySize (c.readHeader s.media pba).valSize
  key_pos : 0 < (c.readHeader s.media pba).keySize
  reach : putKeyvalPrefixSize + (c.readHeader s.media pba).keySize ≤
    min (c.recGrains s.media pba) maxKvSize * c.grainSize
  used : (s.seg (c.grainToSegIdx pba)).state ≠ .free
  extent : pba + c.recGrains s.media pba ≤ s.handedOut (c.grainToSegIdx pba)
  pba_lt : pba < unusedPba

namespace Written

variable {s : Store c} {k : List UInt8} {pba : Nat}

theorem recAt (w : Written s k pba) {e : Content} (hp : e.pba = pba)
    (hk : e.deleted = false → e.kvSize = min (c.recGrains s.media pba) maxKvSize) : s.RecAt e := by
  subst hp
  refine ⟨w.fit, w.key_pos, fun hd => ?_, w.used, w.extent⟩
  rw [hk hd]
  exact w.reach

theorem pba_lt_pow (w : Written s k pba) : pba < 2 ^ 39 := by
  have := w.pba_lt
  unfold unusedPba at this
  omega

theorem keyHash_eq (w : Written s k pba) : s.keyHash pba = c.hash k := by
  unfold keyHash
  rw [w.key]

end Written

/-! ## Insert -/

variable {s : Store c}

theorem insert_slotStep (inv : s.Base) {k : List UInt8} {q pba : Nat}
    (w : Written s k pba) (hgap : (s.table (c.hash k)).NoGapBut (some q))
    (hq : InWindow c.bits (c.hash k) q)
    (hfront : ∀ r, hashToHb c.bits (c.hash k) ≤ r → r < q →
      ((s.table (c.hash k)).ht r).used = true) :
    SlotStep s (c.hash k) q
      ((s.table (c.hash k)).insert q (c.hash k) (c.recGrains s.media pba) pba) := by
  have hpba : (((s.table (c.hash k)).insert q (c.hash k) (c.recGrains s.media pba) pba).ht q).pba =
      pba := update_pba _ w.pba_lt_pow
  refine ⟨?_, fun r hr => update_other _ _ _ _ hr, update_wf (table_wf inv _) hq w.pba_lt,
    update_noGap hgap hq w.pba_lt hfront, fun _ => ?_, fun _ => ?_⟩
  · exact hq.lt
  · refine ⟨?_, ?_, ?_⟩
    · rw [setTable, setMap_self]
      exact update_slotWf hq _ _
    · rw [setTable, setMap_self, hpba, w.keyHash_eq]
      exact update_keyfp hq _ _
    · rw [setTable, setMap_self, hpba, w.keyHash_eq]
      rfl
  · exact w.recAt hpba fun _ => update_kvSize _ _ _ _ _

/-! ## The entry of a key -/

/-- Slot `q` holds the live entry of key `k`. -/
structure Holds (s : Store c) (k : List UInt8) (q : Nat) : Prop where
  isMatch : (s.table (c.hash k)).Matches (c.hash k) q
  key : c.recKey s.media ((s.table (c.hash k)).ht q).pba = k

namespace Holds

variable {s : Store c} {k : List UInt8} {q : Nat}

theorem live (hq : Holds s k q) : ((s.table (c.hash k)).ht q).live = true := hq.isMatch.2.1

theorem lt (hq : Holds s k q) : q < entryNr c.bits := hq.isMatch.1.lt

theorem slot (hq : Holds s k q) (inv : s.Base) : (s.table (c.hash k)).SlotWf q :=
  (table_wf inv _).slot q hq.live

theorem home (hq : Holds s k q) (inv : s.Base) :
    (s.table (c.hash k)).home q = hashToHb c.bits (c.hash k) :=
  (table_wf inv _).home_eq hq.isMatch

theorem placedAt (hq : Holds s k q) (inv : s.Base) {t : UDepotMap c.bits} {pba : Nat}
    (w : Written s k pba) (hoff : (t.ht q).bucketOffset = ((s.table (c.hash k)).ht q).bucketOffset)
    (htag : (t.ht q).keyTag = hashToKeytag c.bits (c.hash k)) (hpba : (t.ht q).pba = pba) :
    (s.setTable (c.hash k) t).dir.PlacedAt s.keyHash
      (hashToDirIdx c.bits (c.hash k) s.dir.idxBits) q := by
  have hs := hq.slot inv
  have hhome : t.home q = (s.table (c.hash k)).home q := by
    unfold UDepotMap.home
    rw [hoff]
  have hslot : t.SlotWf q := by
    refine slotWf_of_offset ?_ hs.home_le hs.lt_home hs.home_lt
    have := hs.off_le
    rw [hoff, UDepotMap.home]
    omega
  refine ⟨?_, ?_, ?_⟩
  · rw [setTable, setMap_self]
    exact hslot
  · rw [setTable, setMap_self, hpba, w.keyHash_eq]
    exact (hslot.keyfp_eq_iff.mpr ⟨htag, hhome.trans (hq.home inv)⟩).symm
  · rw [setTable, setMap_self, hpba, w.keyHash_eq]
    rfl

end Holds

theorem updateInplace_slotStep (inv : s.Inv) {k : List UInt8} {q pba : Nat}
    (hq : Holds s k q) (w : Written s k pba) :
    SlotStep s (c.hash k) q
      ((s.table (c.hash k)).updateInplace q (c.hash k) (c.recGrains s.media pba) pba) := by
  have hpba : (((s.table (c.hash k)).updateInplace q (c.hash k) (c.recGrains s.media pba) pba).ht
      q).pba = pba := updateInplace_pba _ w.pba_lt_pow
  have htag : (((s.table (c.hash k)).updateInplace q (c.hash k) (c.recGrains s.media pba) pba).ht
      q).keyTag = hashToKeytag c.bits (c.hash k) := by
    simp only [updateInplace, set_self, HashEntry.setPba_keyTag, HashEntry.setKvSize_keyTag,
      HashEntry.setTag_keyTag]
    exact Nat.mod_eq_of_lt (hashToKeytag_lt _ _)
  refine ⟨hq.lt, fun r hr => set_other _ _ hr,
    updateInplace_wf (table_wf inv.toBase _) hq.live w.pba_lt,
    updateInplace_noGap (table_noGap inv _) hq.live w.pba_lt,
    fun _ => hq.placedAt inv.toBase w (updateInplace_offset _ _ _ _ _) htag hpba, fun _ => ?_⟩
  exact w.recAt hpba fun _ => updateInplace_kvSize _ _ _ _ _

theorem remove_slotStep (inv : s.Inv) {k : List UInt8} {q pba : Nat}
    (hq : Holds s k q) (w : Written s k pba) :
    SlotStep s (c.hash k) q ((s.table (c.hash k)).remove q pba) := by
  have hpba : (((s.table (c.hash k)).remove q pba).ht q).pba = pba := by
    simp only [remove, set_self, HashEntry.setPba_pba]
    exact Nat.mod_eq_of_lt w.pba_lt_pow
  have hs := hq.slot inv.toBase
  have htag : (((s.table (c.hash k)).remove q pba).ht q).keyTag =
      hashToKeytag c.bits (c.hash k) := by
    simp only [remove, set_self, HashEntry.setPba_keyTag, HashEntry.setKvSize_keyTag]
    exact (hs.keyfp_eq_iff.mp hq.isMatch.2.2).1
  refine ⟨hq.lt, fun r hr => set_other _ _ hr, remove_wf (table_wf inv.toBase _) w.pba_lt,
    remove_noGap (table_noGap inv _) w.pba_lt,
    fun _ => hq.placedAt inv.toBase w (by simp [remove]) htag hpba, fun _ => ?_⟩
  refine w.recAt hpba fun hd => ?_
  simp [slotContent, remove, HashEntry.deleted] at hd

variable {h : Nat} {t : UDepotMap c.bits}

theorem purge_slotStep (inv : s.Inv) {q : Nat} (hlt : q < entryNr c.bits)
    (hun : (s.table h).Unspanned q) : SlotStep s h q ((s.table h).purge q) := by
  have hu : (((s.table h).purge q).ht q).used = false := by
    rw [UDepotMap.purge, set_self]
    exact HashEntry.purge_used _
  refine ⟨hlt, fun r hr => set_other _ _ hr, purge_wf (table_wf inv.toBase _) q,
    purge_noGap (table_noGap inv _) hun, fun h => ?_, fun h => ?_⟩
  · rw [hu] at h
    cases h
  · rw [hu] at h
    cases h

/-! ## The finite map after each -/

theorem content_of_live {q : Nat} (h : (t.ht q).live = true) :
    (content t q).filter (fun x => x.deleted = false) = {slotContent t q} := by
  obtain ⟨hu, hd⟩ := (HashEntry.live_iff _).mp h
  simp [content, hu, hd, slotContent]

theorem SlotStep.live_split {q : Nat} (st : SlotStep s h q t) (inv : s.Base) :
    ∃ rest, s.dir.liveEntries =
        rest + (content (s.table h) q).filter (fun x => x.deleted = false) ∧
      (s.setTable h t).dir.liveEntries =
        rest + (content t q).filter (fun x => x.deleted = false) := by
  obtain ⟨rest, h1, h2⟩ := st.split inv
  refine ⟨rest.filter fun x => x.deleted = false, ?_, ?_⟩
  · rw [liveEntries, h1, filter_add]
  · rw [liveEntries, h2, filter_add]

theorem insert_keyStep (inv : s.Base) {k : List UInt8} {q : Nat}
    (st : SlotStep s (c.hash k) q t) (hfree : ((s.table (c.hash k)).ht q).live = false)
    (hlive : (t.ht q).live = true) (hkey : c.recKey s.media (t.ht q).pba = k)
    (hno : ∀ e ∈ s.dir.liveEntries, c.recKey s.media e.pba ≠ k) :
    KeyStep s (s.setTable (c.hash k) t) k (some (slotContent t q)) := by
  obtain ⟨rest, h1, h2⟩ := st.live_split inv
  rw [content_of_not_live hfree] at h1
  rw [content_of_live hlive] at h2
  refine ⟨rfl, ⟨rest, 0, h1, h2, fun e he => hno e ?_, by simp⟩, fun e he => ?_⟩
  · rw [h1, add_zero]
    exact he
  · cases he
    exact hkey

theorem holds_keyStep (inv : s.Base) {k : List UInt8} {q : Nat} (st : SlotStep s (c.hash k) q t)
    (hq : Holds s k q)
    {new : Option Content}
    (hnew : (content t q).filter (fun x => x.deleted = false) =
      match new with | none => 0 | some e => {e})
    (hkey : ∀ e, new = some e → c.recKey s.media e.pba = k) :
    KeyStep s (s.setTable (c.hash k) t) k new := by
  obtain ⟨rest, h1, h2⟩ := st.live_split inv
  rw [content_of_live hq.live] at h1
  rw [hnew] at h2
  refine ⟨rfl, ⟨rest, _, h1, h2, fun e he hk => ?_, fun e he => ?_⟩, hkey⟩
  · have hnd := inv.keys
    rw [h1, map_add, nodup_add] at hnd
    refine disjoint_left.mp hnd.2.2 (mem_map_of_mem _ he) ?_
    rw [hk, map_singleton, mem_singleton]
    exact hq.key.symm
  · rw [mem_singleton.mp he]
    exact hq.key

theorem purge_live {q : Nat} (inv : s.Base)
    (st : SlotStep s h q ((s.table h).purge q)) (hdead : ((s.table h).ht q).live = false) :
    (s.setTable h ((s.table h).purge q)).dir.liveEntries = s.dir.liveEntries := by
  obtain ⟨rest, h1, h2⟩ := st.live_split inv
  have hl : (((s.table h).purge q).ht q).live = false := by
    rw [UDepotMap.purge, set_self]
    exact HashEntry.purge_live _
  rw [h1, h2, content_of_not_live hdead, content_of_not_live hl]

end UDepot.Store
