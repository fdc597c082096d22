import UDepot.StoreOps

/-! `put`: the record is written first, then mapped. What the mapping does follows
the answer of the lookup: a new entry, an update, a rejection, or a shift of other
entries to make room. -/

namespace UDepot.Store
open Bytes UDepotMap Directory Config

variable {c : Config}

/-- What a record written by a put of `k` and `v` gives. -/
structure Ready (s : Store c) (k v : List UInt8) (pba : Nat) : Prop extends Written s k pba where
  val : c.recVal s.media pba = v
  grains : c.kvTotGrainsGet k.length v.length = c.recGrains s.media pba

variable {k v : List UInt8}

/-- Steps that leave the device and what is handed out alone keep the record. -/
theorem Ready.congr {s s' : Store c} {pba : Nat} (r : Ready s k v pba)
    (hm : s'.media = s.media) (hseg : ∀ i, (s'.seg i).state = .free → (s.seg i).state = .free)
    (hnr : ∀ i, (s.seg i).state ≠ .free → (s.seg i).nr3 ≤ (s'.seg i).nr3) : Ready s' k v pba := by
  have ho : s.handedOut (c.grainToSegIdx pba) ≤ s'.handedOut (c.grainToSegIdx pba) := by
    have := hnr (c.grainToSegIdx pba) r.used
    unfold handedOut
    omega
  refine ⟨⟨?_, ?_, ?_, ?_, fun h => r.used (hseg _ h), ?_, r.pba_lt⟩, ?_, ?_⟩
  · rw [hm]; exact r.key
  · rw [hm]; exact r.fit
  · rw [hm]; exact r.key_pos
  · rw [hm]; exact r.reach
  · rw [hm]; exact r.extent.trans ho
  · rw [hm]; exact r.val
  · rw [hm]; exact r.grains

/-- The sizes that the store handles: the sum fits the `u32` it is computed in, and
the grains that an entry can name reach past the key. -/
structure PutSizes (c : Config) (k v : List UInt8) : Prop extends KvOk k v where
  reach : putKeyvalPrefixSize + k.length ≤ maxKvSize * c.grainSize

def DeviceFits (c : Config) : Prop := c.segNr * c.segSize ≤ unusedPba

instance (c : Config) : Decidable (DeviceFits c) := inferInstanceAs (Decidable (_ ≤ _))

variable {s1 : Store c} {i h : Nat} {s : Store c}

theorem localPutMbuffIo_eq_some {g : Nat}
    (h : s.localPutMbuffIo i k v = some (g, s1)) :
    ∃ s0, s.allocateGrains i (c.ioSizeGrains k v) = some (g, s0) ∧ s1 = { s0 with
      media := write s0.media (g * c.grainSize)
        (c.recordBytes (s0.segTs (c.grainToSegIdx g)) k v) } := by
  unfold localPutMbuffIo at h
  cases ha : s.allocateGrains i (c.ioSizeGrains k v) with
  | none => simp [ha] at h
  | some x =>
    obtain ⟨g', s0⟩ := x
    simp only [ha, Option.some.injEq, Prod.mk.injEq] at h
    obtain ⟨rfl, rfl⟩ := h
    exact ⟨s0, rfl, rfl⟩

theorem localPutMbuffIo_frame (inv : s.Base) {g : Nat}
    (h : s.localPutMbuffIo i k v = some (g, s1)) : Frame s s1 := by
  obtain ⟨s0, ha, rfl⟩ := localPutMbuffIo_eq_some h
  exact alloc_write_frame inv ha (recordBytes_length _ k v).le

theorem localPutMbuffIo_spec (inv : s.Base) (hdev : DeviceFits c) {g : Nat} (hkv : PutSizes c k v)
    (h : s.localPutMbuffIo i k v = some (g, s1)) :
    Frame s s1 ∧ Ready s1 k v g := by
  have hf := localPutMbuffIo_frame inv h
  obtain ⟨s0, ha, rfl⟩ := localPutMbuffIo_eq_some h
  refine ⟨hf, ?_⟩
  obtain ⟨hst, hle, rfl, _, hm, _, _, hnr, hfree⟩ := allocateGrains_eq_some ha
  have hseg := inv.segs i (by rw [hst]; simp)
  obtain ⟨hhdr, hkey, hval⟩ := write_rec (c := c) s0.media (s.handedOut i)
    (s0.segTs (c.grainToSegIdx (s.handedOut i))) hkv.toKvOk
  have hgrains : c.recGrains (write s0.media (s.handedOut i * c.grainSize)
      (c.recordBytes (s0.segTs (c.grainToSegIdx (s.handedOut i))) k v)) (s.handedOut i) =
      c.kvTotGrainsGet k.length v.length := by
    unfold recGrains
    rw [hhdr]
  have hio := ioSizeGrains_eq (c := c) hkv.toKvOk
  have hpos : 0 < c.ioSizeGrains k v := by
    rw [hio]
    exact kvTotGrainsGet_pos _ _
  obtain ⟨hidx, hend⟩ := allocated_in_seg hseg hpos hle
  refine ⟨⟨hkey, ?_, ?_, ?_, ?_, ?_, ?_⟩, hval, hgrains.symm⟩
  · dsimp only
    rw [hhdr]
    exact hkv.fit
  · dsimp only
    rw [hhdr]
    exact hkv.key_pos
  · dsimp only
    rw [hgrains, hhdr]
    have hfull := rec_le_grains (c := c) (m := write s0.media (s.handedOut i * c.grainSize)
      (c.recordBytes (s0.segTs (c.grainToSegIdx (s.handedOut i))) k v)) (g := s.handedOut i)
      (by rw [hhdr]; exact hkv.fit)
    rw [hgrains, hhdr] at hfull
    dsimp only at hfull ⊢
    have hreach := hkv.reach
    unfold putKeyvalPrefixSize at hreach ⊢
    rcases min_choice (c.kvTotGrainsGet k.length v.length) maxKvSize with hmin | hmin
    · rw [hmin]
      omega
    · rw [hmin]
      exact hreach
  · rw [hidx]
    exact hfree
  · dsimp only
    rw [hgrains, hidx, ← hio]
    change _ ≤ i * c.segSize + (s0.seg i).nr3 - c.segMdSize
    rw [hnr]
    have := hseg.md_le
    unfold handedOut
    omega
  · have hmul : (i + 1) * c.segSize ≤ c.segNr * c.segSize :=
      Nat.mul_le_mul_right c.segSize hseg.lt
    have hbound := hmul.trans hdev
    omega

/-! ## The mapping of a written record -/

@[simp] theorem setTable_table (s : Store c) (h : Nat) (t : UDepotMap c.bits) :
    (s.setTable h t).table h = t :=
  setMap_self _ _ _

/-- Statistics are no part of the invariant. -/
theorem kvAdded_frame (inv : s.Base) (ks vs : Nat) : Frame s (s.kvAdded ks vs) :=
  frame_of_seg inv rfl rfl (fun _ => Iff.rfl) fun _ => rfl

theorem kvRemoved_frame (inv : s.Base) (ks vs : Nat) : Frame s (s.kvRemoved ks vs) :=
  frame_of_seg inv rfl rfl (fun _ => Iff.rfl) fun _ => rfl

theorem Ready.invalidate {pba : Nat} (r : Ready s k v pba)
    (g len : Nat) : Ready (s.invalidateGrains g len) k v pba :=
  r.congr rfl (fun i h => by rwa [invalidateGrains_state] at h)
    fun i _ => (invalidateGrains_nr3 s g len i).ge

theorem insert_live {t : UDepotMap c.bits} {h q kv pba : Nat} (hk : 0 < kv) (hp : pba < unusedPba) :
    ((t.insert q h kv pba).ht q).live = true := by
  have hkv : ((t.insert q h kv pba).ht q).kvSize = min kv maxKvSize := update_kvSize t h q kv pba
  have hpos : 0 < maxKvSize := by decide
  refine (HashEntry.live_iff _).mpr ⟨?_, ?_⟩
  · change ((t.update q h kv pba).ht q).used = true
    rw [update, set_self]
    exact HashEntry.setPba_used _ hp
  · unfold HashEntry.deleted
    rw [hkv, beq_eq_false_iff_ne]
    omega

/-- The record at `g` becomes the one of key `k`; no tombstone is made. -/
structure MapStep (s s' : Store c) (k : List UInt8) (g : Nat) : Prop where
  inv : s'.Inv
  key : ∃ e, e.pba = g ∧ KeyStep s s' k (some e)
  tombs : ∀ e ∈ s'.dir.entries, e.deleted = true → e ∈ s.dir.entries

theorem MapStep.represents {s s' : Store c} {g : Nat} (st : MapStep s s' k g)
    (hv : c.recVal s.media g = v) {M : List UInt8 → Option (List UInt8)} (hM : s.Represents M) :
    s'.Represents (Function.update M k (some v)) := by
  obtain ⟨e, hp, ks⟩ := st.key
  have hrep := ks.represents hM
  rwa [Option.map_some, hp, hv] at hrep

theorem SlotStep.tombs {q : Nat} {t : UDepotMap c.bits} (st : SlotStep s h q t)
    (inv : s.Base) (hlive : (t.ht q).live = true) {e : Content}
    (he : e ∈ (s.setTable h t).dir.entries) (hd : e.deleted = true) : e ∈ s.dir.entries := by
  obtain ⟨rest, h1, h2⟩ := st.split inv
  obtain ⟨hu, hnd⟩ := (HashEntry.live_iff _).mp hlive
  rw [h2, Multiset.mem_add] at he
  rcases he with he | he
  · rw [h1]
    exact Multiset.mem_add.mpr (.inl he)
  · rw [content, if_pos hu, Multiset.mem_singleton] at he
    rw [he, hnd] at hd
    cases hd

section Insert

variable {s : Store c} {k v : List UInt8} {q g : Nat}

/-- The insertion of a key without an entry, where only its slot may be a gap. -/
theorem insert_spec (base : s.Base)
    (hother : ∀ j, j < 2 ^ s.dir.idxBits → j ≠ hashToDirIdx c.bits (c.hash k) s.dir.idxBits →
      (s.dir.map j).NoGap)
    (r : Ready s k v g) (hgap : (s.table (c.hash k)).NoGapBut (some q))
    (hq : InWindow c.bits (c.hash k) q)
    (hfront : ∀ r, hashToHb c.bits (c.hash k) ≤ r → r < q → ((s.table (c.hash k)).ht r).used = true)
    (hfree : ((s.table (c.hash k)).ht q).live = false)
    (hno : ∀ e ∈ s.dir.liveEntries, c.recKey s.media e.pba ≠ k) :
    MapStep s (s.setTable (c.hash k) ((s.table (c.hash k)).insert q (c.hash k)
      (c.kvTotGrainsGet k.length v.length) g)) k g := by
  rw [r.grains]
  have st := insert_slotStep base r.toWritten hgap hq hfront
  have hpba : (((s.table (c.hash k)).insert q (c.hash k) (c.recGrains s.media g) g).ht q).pba = g :=
    update_pba _ r.pba_lt_pow
  have hlive := insert_live (t := s.table (c.hash k)) (h := c.hash k) (q := q)
    (kvTotGrainsGet_pos (c := c) (c.readHeader s.media g).keySize (c.readHeader s.media g).valSize)
    r.pba_lt
  have ks := insert_keyStep base st hfree hlive (by rw [hpba]; exact r.key) hno
  exact ⟨st.inv base hother (ks.keys base.keys), ⟨_, hpba, ks⟩, fun _ he => st.tombs base hlive he⟩

end Insert

theorem update_spec (inv : s.Inv) {q g : Nat} (r : Ready s k v g)
    (hq : Holds s k q) :
    MapStep s (s.setTable (c.hash k) ((s.table (c.hash k)).updateInplace q (c.hash k)
      (c.kvTotGrainsGet k.length v.length) g)) k g := by
  rw [r.grains]
  have st := updateInplace_slotStep inv hq r.toWritten
  have hpba : (((s.table (c.hash k)).updateInplace q (c.hash k) (c.recGrains s.media g) g).ht q).pba
      =
      g := updateInplace_pba _ r.pba_lt_pow
  have hpos : 0 < c.recGrains s.media g := kvTotGrainsGet_pos _ _
  have hlive : (((s.table (c.hash k)).updateInplace q (c.hash k) (c.recGrains s.media g) g).ht
      q).live = true := updateInplace_live _ hpos r.pba_lt
  have ks : KeyStep s _ k (some (slotContent ((s.table (c.hash k)).updateInplace q (c.hash k)
      (c.recGrains s.media g) g) q)) :=
    holds_keyStep inv.toBase st hq (content_of_live hlive) fun e he => by
      cases he
      unfold slotContent
      rw [hpba]
      exact r.key
  exact ⟨st.inv inv.toBase (fun j hj _ => inv.noGap j hj) (ks.keys inv.keys), ⟨_, hpba, ks⟩,
    fun _ he => st.tombs inv.toBase hlive he⟩

/-! ## Shifts -/

/-- A clean shift keeps everything but, perhaps, one gap in its own table. -/
theorem shift_base (inv : s.Inv) (hn : (s.table h).nextFree h = none)
    (hc : (s.table h).tryShiftClean h = true) :
    (s.setTable h ((s.table h).tryShift h).1).Base ∧
      (s.setTable h ((s.table h).tryShift h).1).dir.entries = s.dir.entries ∧
      ∀ j, j < 2 ^ s.dir.idxBits → j ≠ hashToDirIdx c.bits h s.dir.idxBits →
        ((s.setTable h ((s.table h).tryShift h).1).dir.map j).NoGap := by
  obtain ⟨hent, hpl⟩ := tryShift_entries (table_lt inv.toBase h) (table_wf inv.toBase h) hn hc
    inv.placed
  have hlive : (s.setTable h ((s.table h).tryShift h).1).dir.liveEntries = s.dir.liveEntries :=
    congrArg (Multiset.filter fun x : Content => x.deleted = false) hent
  have hres := tryShift_result (table_wf inv.toBase h) hn
  refine ⟨⟨inv.bits_le, inv.width, fun j hj => ?_, hpl, ?_, ?_, ?_⟩, hent, fun j hj hji => ?_⟩
  · by_cases hji : j = hashToDirIdx c.bits h s.dir.idxBits
    · rw [hji, setTable, setMap_self]
      exact hres.wf
    · rw [setTable, setMap_other _ _ hji]
      exact inv.wf j hj
  · intro e he
    have hr := inv.recs e (by rw [← hent]; exact he)
    exact ⟨hr.fit, hr.key_pos, hr.reach, hr.used, hr.extent⟩
  · rw [hlive]
    exact inv.keys
  · intro i hi
    have hs := inv.segs i hi
    exact ⟨hs.lt, hs.md_le, hs.le_size⟩
  · rw [setTable, setMap_other _ _ hji]
    exact inv.noGap j hj

theorem inv_of_shift {t : UDepotMap c.bits} (hb : (s.setTable h t).Base)
    (hother : ∀ j, j < 2 ^ s.dir.idxBits → j ≠ hashToDirIdx c.bits h s.dir.idxBits →
      ((s.setTable h t).dir.map j).NoGap) (hg : t.NoGap) : (s.setTable h t).Inv := by
  refine ⟨hb, fun j hj => ?_⟩
  by_cases hji : j = hashToDirIdx c.bits h s.dir.idxBits
  · rw [hji, setTable, setMap_self]
    exact hg
  · exact hother j hj hji

theorem represents_of_live {s s' : Store c} (hm : s'.media = s.media)
    (hl : s'.dir.liveEntries = s.dir.liveEntries) {M : List UInt8 → Option (List UInt8)}
    (hM : s.Represents M) : s'.Represents M := by
  intro k v
  rw [hM, hm, hl]

end UDepot.Store
