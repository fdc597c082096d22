import UDepot.Capacity

/-! What every run keeps besides the books: a segment in use never has more valid grains
than fit beside its metadata, the segments of the tables carry the metadata of the
directory, a live entry names the size of its record, and the key counter counts the
live entries. -/

namespace UDepot.Store
open Bytes UDepotMap Directory Config Function Option Multiset

variable {c : Config}

def Roomy (s : Store c) : Prop :=
  ∀ j, (s.seg j).validNr ≤ if (s.seg j).state = .free then (c.segSize : Int) else tableGrains c

def Stamped (s : Store c) : Prop := ∀ j ts, s.segMd j = some ⟨.kv, ts⟩ → 1 ≤ ts

def TableAt (s : Store c) (g : Nat) : Prop :=
  (s.seg (c.grainToSegIdx g)).state ≠ .free ∧
    ∃ ts, s.segMd (c.grainToSegIdx g) = some ⟨.directory, ts⟩

/-- A live entry names the grains of its record, or the largest size it can name. -/
def Sized (s : Store c) : Prop :=
  ∀ e ∈ s.dir.liveEntries, e.kvSize = min (c.recGrains s.media e.pba) maxKvSize

structure Kept (s : Store c) : Prop where
  roomy : s.Roomy
  stamped : s.Stamped
  tableAt : ∀ g ∈ s.tables, s.TableAt g
  sized : s.Sized
  keyNr : s.stats.keyNr = s.dir.liveEntries.card

/-! ## Segments -/

/-- Steps of the allocator and the capacity manager that release no segment: those in
use keep their metadata. -/
structure SegStep (s s' : Store c) : Prop where
  keeps : ∀ j, (s.seg j).state ≠ .free → (s'.seg j).state ≠ .free ∧ s'.segMd j = s.segMd j
  roomy : s.Roomy → s'.Roomy
  stamped : s.Stamped → s'.Stamped
  tables : s'.tables = s.tables
  stats : s'.stats = s.stats

namespace SegStep

variable {s s1 s2 : Store c}

theorem of_eq (hseg : s1.seg = s.seg) (hmd : s1.segMd = s.segMd) (ht : s1.tables = s.tables)
    (hst : s1.stats = s.stats) : SegStep s s1 := by
  refine ⟨fun j hj => ?_, fun h => ?_, fun h => ?_, ht, hst⟩
  · rw [hseg, hmd]
    exact ⟨hj, rfl⟩
  · unfold Roomy
    rw [hseg]
    exact h
  · unfold Stamped
    rw [hmd]
    exact h

theorem refl (s : Store c) : SegStep s s := of_eq rfl rfl rfl rfl

theorem trans (h : SegStep s s1) (h' : SegStep s1 s2) : SegStep s s2 := by
  refine ⟨fun j hj => ?_, fun hr => h'.roomy (h.roomy hr), fun ht => h'.stamped (h.stamped ht),
    h'.tables.trans h.tables, h'.stats.trans h.stats⟩
  obtain ⟨hu, hmd⟩ := h.keeps j hj
  obtain ⟨hu', hmd'⟩ := h'.keeps j hu
  exact ⟨hu', hmd'.trans hmd⟩

theorem tableAt (h : SegStep s s1) {g : Nat} (hg : s.TableAt g) : s1.TableAt g := by
  obtain ⟨hu, ts, hmd⟩ := hg
  obtain ⟨hu', hmd'⟩ := h.keeps _ hu
  exact ⟨hu', ts, hmd'.trans hmd⟩

end SegStep

variable {s : Store c}

theorem setSeg_segStep {i : Nat} {x : Seg}
    (hst : x.state = .free ↔ (s.seg i).state = .free) (hv : x.validNr ≤ (s.seg i).validNr) :
    SegStep s (s.setSeg i x) := by
  refine ⟨fun j hj => ⟨?_, rfl⟩, fun hr j => ?_, fun h => h, rfl, rfl⟩
  · by_cases hji : j = i
    · subst hji
      simpa [setSeg, hst] using hj
    · simpa [setSeg, hji] using hj
  · by_cases hji : j = i
    · subst hji
      have h := hr j
      simp only [setSeg, update_self, hst]
      omega
    · simpa [setSeg, hji] using hr j

theorem invalidateGrains_segStep (s : Store c) (g len : Nat) :
    SegStep s (s.invalidateGrains g len) := by
  have h := @setSeg_segStep c s (c.grainToSegIdx g)
    { s.seg (c.grainToSegIdx g) with validNr := (s.seg (c.grainToSegIdx g)).validNr - len } Iff.rfl
    (by dsimp only; omega)
  exact h.trans (.of_eq rfl rfl rfl rfl)

theorem recycleSegment_segStep (s : Store c) (i : Nat) : SegStep s (s.recycleSegment i) := by
  unfold recycleSegment
  dsimp only
  split
  · rename_i hst
    apply setSeg_segStep
    · simp [hst]
    · dsimp only
      omega
  · exact .refl s

variable {i g h q : Nat} {y : SalsaType} {k v key : List UInt8} {s' : Store c}
  {t : UDepotMap c.bits} {op : PutOp}

variable {s s1 : Store c}

theorem allocateGrains_segStep {len : Nat}
    (h : s.allocateGrains i len = some (g, s1)) : SegStep s s1 := by
  unfold allocateGrains at h
  dsimp only at h
  split at h
  · rename_i hc
    cases h
    have hset := @setSeg_segStep c s i { s.seg i with
        nr3 := (s.seg i).nr3 + len
        state := if (s.seg i).nr3 + len = c.segSize then .closed else .staged }
      (by rw [hc.1]; dsimp only; split <;> simp) le_rfl
    exact hset.trans (.of_eq rfl rfl rfl rfl)
  · cases h

theorem segMdCallback_segMd (s : Store c) (i : Nat) (y : SalsaType) :
    ∃ ts, 1 ≤ ts ∧ (s.segMdCallback i y).segMd = update s.segMd i (some ⟨y, ts⟩) := by
  cases y with
  | kv => exact ⟨s.segAllocNr + 1, by omega, rfl⟩
  | directory => exact ⟨2 ^ s.dir.idxBits, Nat.one_le_two_pow, rfl⟩

theorem allocateSegment_stats (h : s.allocateSegment i y = some s1) :
    s1.stats = s.stats := by
  unfold allocateSegment at h
  split at h
  · cases h
    cases y <;> rfl
  · cases h

theorem allocateSegment_segMd (h : s.allocateSegment i y = some s1) :
    ∃ ts, 1 ≤ ts ∧ s1.segMd = update s.segMd i (some ⟨y, ts⟩) := by
  unfold allocateSegment at h
  split at h
  · cases h
    exact segMdCallback_segMd _ i y
  · cases h

theorem allocateSegment_segStep (h : s.allocateSegment i y = some s1) :
    SegStep s s1 := by
  obtain ⟨_, hfree, _, _, hseg⟩ := allocateSegment_eq_some h
  obtain ⟨ts, hts, hmd⟩ := allocateSegment_segMd h
  refine ⟨fun j hj => ?_, fun hr j => ?_, fun hs j ts' hj => ?_, (allocateSegment_rest h).2,
    allocateSegment_stats h⟩
  · have hji : j ≠ i := by
      rintro rfl
      exact hj hfree
    rw [hseg, hmd]
    simpa [hji] using hj
  · rw [hseg]
    by_cases hji : j = i
    · subst hji
      have h := hr j
      have hlt := c.md_lt
      rw [if_pos hfree] at h
      unfold tableGrains
      simp only [update_self, reduceCtorEq, if_false]
      omega
    · simpa [hji] using hr j
  · rw [hmd] at hj
    by_cases hji : j = i
    · subst hji
      simp only [update_self, some.injEq, SegMd.mk.injEq] at hj
      omega
    · exact hs j ts' (by simpa [hji] using hj)

theorem localPutMbuffIo_segStep (h : s.localPutMbuffIo i k v = some (g, s1)) :
    SegStep s s1 := by
  obtain ⟨s0, ha, rfl⟩ := localPutMbuffIo_eq_some h
  exact (allocateGrains_segStep ha).trans (.of_eq rfl rfl rfl rfl)

theorem putRetry_segStep (s : Store c) (k v : List UInt8) (g oldPba drained : Nat) :
    SegStep s (s.putRetry k v g oldPba drained) := by
  unfold putRetry
  split
  · exact (recycleSegment_segStep s drained).trans (invalidateGrains_segStep _ _ _)
  · exact invalidateGrains_segStep _ _ _

theorem invalidateTables_segStep (s : Store c) (gs : List Nat) :
    SegStep s (s.invalidateTables gs) := by
  induction gs generalizing s with
  | nil => exact .refl s
  | cons g gs ih => exact (invalidateGrains_segStep s g (tableGrains c)).trans (ih _)

theorem ioFail_segStep {len : Nat} {bs : List UInt8}
    (h : s.ioFail i len bs = some s') : SegStep s s' := by
  unfold ioFail at h
  cases ha : s.allocateGrains i len with
  | none => simp [ha] at h
  | some x =>
    obtain ⟨g, s1⟩ := x
    simp only [ha, some.injEq] at h
    subst h
    have hw : SegStep s { s1 with
        media := write s1.media (g * c.grainSize) (bs.take (len * c.grainSize)) } :=
      (allocateGrains_segStep ha).trans (.of_eq rfl rfl rfl rfl)
    exact hw.trans (invalidateGrains_segStep _ g len)

theorem allocateTable_segStep {i g : Nat} (h : s.allocateTable i = some (g, s1)) :
    SegStep s s1 ∧ s1.TableAt g := by
  obtain ⟨s0, h0, h1⟩ := bind_eq_some_iff.mp h
  have hstep := allocateGrains_segStep h1
  obtain ⟨_, _, _, _, hseg⟩ := allocateSegment_eq_some h0
  obtain ⟨ts, _, hmd⟩ := allocateSegment_segMd h0
  obtain ⟨hst, _, hg, _⟩ := allocateGrains_eq_some h1
  have hidx : c.grainToSegIdx g = i := by
    have hstart : g = i * c.segSize := by
      rw [hg, handedOut, hseg]
      simp
    rw [hstart]
    exact Nat.mul_div_cancel i c.seg_pos
  have h0at : s0.TableAt g := by
    rw [TableAt, hidx]
    exact ⟨by rw [hst]; simp, ts, by simp [hmd]⟩
  exact ⟨(allocateSegment_segStep h0).trans hstep, hstep.tableAt h0at⟩

theorem allocateTables_segStep (s : Store c) (n : Nat) (allocs : List TableAlloc) :
    SegStep s (s.allocateTables n allocs).2.1 ∧
      ∀ g ∈ (s.allocateTables n allocs).1, (s.allocateTables n allocs).2.1.TableAt g := by
  fun_induction allocateTables s n allocs with
  | case4 s n i rest g s1 ha r ih =>
    obtain ⟨hone, hat⟩ := allocateTable_segStep ha
    refine ⟨hone.trans ih.1, fun g' hg => ?_⟩
    rcases List.mem_cons.mp hg with rfl | hg
    · exact ih.1.tableAt hat
    · exact ih.2 g' hg
  | case6 s n i rest g s1 ha => exact ⟨(allocateTable_segStep ha).1, by simp⟩
  | _ => exact ⟨.refl _, by simp⟩

/-! ## The map -/

theorem Frame.sized (f : Frame s s') (h : s.Sized) : s'.Sized := by
  intro e he
  rw [f.dir] at he
  have hh := f.header e (mem_of_mem_filter he)
  rw [h e he]
  unfold recGrains
  rw [hh]

theorem Kept.frame (k : s.Kept) (st : SegStep s s') (f : Frame s s') : s'.Kept := by
  refine ⟨st.roomy k.roomy, st.stamped k.stamped, fun g hg => ?_, f.sized k.sized, ?_⟩
  · rw [st.tables] at hg
    exact st.tableAt (k.tableAt g hg)
  · rw [st.stats, f.dir]
    exact k.keyNr

/-- The live entries that slot `q` counts for. -/
def liveNr (t : UDepotMap c.bits) (q : Nat) : Nat := if (t.ht q).live then 1 else 0

theorem content_live (t : UDepotMap c.bits) (q : Nat) :
    (content t q).filter (fun x => x.deleted = false) =
      if (t.ht q).live then {slotContent t q} else 0 := by
  by_cases hl : (t.ht q).live = true
  · rw [if_pos hl]
    exact content_of_live hl
  · rw [if_neg hl]
    by_cases hu : (t.ht q).used = true
    · have hd : (t.ht q).deleted = true := by simpa [HashEntry.live, hu] using hl
      simp [content, hu, hd, filter_singleton]
    · simp [content, hu]

theorem card_live (t : UDepotMap c.bits) (q : Nat) :
    Multiset.card (if (t.ht q).live then ({slotContent t q} : Multiset Content) else 0) =
      liveNr t q := by
  unfold liveNr
  split <;> rfl

/-- A change of slot `q` of the table of `h` that names the size of a live record. -/
structure SlotKept (s : Store c) (h q : Nat) (t : UDepotMap c.bits) : Prop where
  lt : q < entryNr c.bits
  other : ∀ r, r ≠ q → t.ht r = (s.table h).ht r
  size : (t.ht q).live = true →
    (t.ht q).kvSize = min (c.recGrains s.media (t.ht q).pba) maxKvSize

/-- One slot changes, and the key counter with it; `s0` is the store after the work of
the capacity manager. -/
theorem Kept.slot {s s0 : Store c} (k : s.Kept) (base : s.Base) (sk : SlotKept s h q t)
    (st : SegStep s s0) (hd : s0.dir = s.dir) (hm : s0.media = s.media) {x : KvStats}
    (hkey : x.keyNr + liveNr (s.table h) q = s.stats.keyNr + liveNr t q) :
    ({ s0.setTable h t with stats := x } : Store c).Kept := by
  obtain ⟨rest, hold, hnew⟩ := s.dir.entries_split (table_lt base h) sk.lt sk.other
  have hlive : s.dir.liveEntries = rest.filter (fun x => x.deleted = false) +
      if ((s.table h).ht q).live then {slotContent (s.table h) q} else 0 := by
    rw [← content_live, ← filter_add]
    exact congrArg (Multiset.filter fun x : Content => x.deleted = false) hold
  have hlive' : (s0.setTable h t).dir.liveEntries = rest.filter (fun x => x.deleted = false) +
      if (t.ht q).live then {slotContent t q} else 0 := by
    rw [← content_live, ← filter_add, setTable, hd]
    exact congrArg (Multiset.filter fun x : Content => x.deleted = false) hnew
  refine ⟨st.roomy k.roomy, st.stamped k.stamped, fun g hg => ?_, fun e he => ?_, ?_⟩
  · have hg' : g ∈ s.tables := by rwa [← st.tables]
    exact st.tableAt (k.tableAt g hg')
  · change e ∈ (s0.setTable h t).dir.liveEntries at he
    change e.kvSize = min (c.recGrains s0.media e.pba) maxKvSize
    rw [hlive'] at he
    rw [hm]
    rcases mem_add.mp he with he | he
    · exact k.sized e (by rw [hlive]; exact mem_add.mpr (.inl he))
    · split at he
      · rename_i hl
        rw [mem_singleton.mp he]
        exact sk.size hl
      · simp at he
  · change x.keyNr = (s0.setTable h t).dir.liveEntries.card
    have hcard := k.keyNr
    rw [hlive, card_add, card_live] at hcard
    rw [hlive', card_add, card_live]
    push_cast at hcard ⊢
    omega

theorem liveNr_of_live (h : (t.ht q).live = true) :
    liveNr t q = 1 := if_pos h

theorem liveNr_of_not (h : (t.ht q).live = false) : liveNr t q = 0 := by
  unfold liveNr
  rw [h]
  rfl

/-! ## Put -/

theorem FreeSlot.lt (hq : FreeSlot t h q) : q < entryNr c.bits := hq.window.lt

theorem insert_slotKept (r : Ready s k v g) (hq : q < entryNr c.bits) :
    SlotKept s (c.hash k) q ((s.table (c.hash k)).insert q (c.hash k)
      (c.kvTotGrainsGet k.length v.length) g) := by
  refine ⟨hq, fun _ hr => update_other _ _ _ _ hr, fun _ => ?_⟩
  have hpba := @update_pba c.bits (s.table (c.hash k)) (c.hash k) q
    (c.kvTotGrainsGet k.length v.length) g r.pba_lt_pow
  have hkv := update_kvSize (s.table (c.hash k)) (c.hash k) q
    (c.kvTotGrainsGet k.length v.length) g
  unfold UDepotMap.insert
  rw [hkv, hpba, r.grains]

theorem updateInplace_slotKept (w : Written s k g) (hq : q < entryNr c.bits) :
    SlotKept s h q ((s.table h).updateInplace q h (c.recGrains s.media g) g) := by
  refine ⟨hq, fun _ hr => set_other _ _ hr, fun _ => ?_⟩
  rw [updateInplace_kvSize, updateInplace_pba _ w.pba_lt_pow]

theorem remove_slotKept (s : Store c) (g : Nat) (hq : q < entryNr c.bits) :
    SlotKept s h q ((s.table h).remove q g) := by
  refine ⟨hq, fun _ hr => set_other _ _ hr, fun hl => ?_⟩
  simp [remove, HashEntry.live, HashEntry.deleted] at hl

theorem purge_slotKept (s : Store c) (hq : q < entryNr c.bits) :
    SlotKept s h q ((s.table h).purge q) := by
  refine ⟨hq, fun _ hr => set_other _ _ hr, fun hl => ?_⟩
  simp [UDepotMap.purge] at hl

theorem setMapping_insert_kept (k : s.Kept) (base : s.Base) (r : Ready s key v g)
    (hq : FreeSlot (s.table (c.hash key)) (c.hash key) q) (md : StoreHeader) :
    (s.setMapping (c.hash key) q false key.length v.length g md).Kept := by
  have sk := insert_slotKept r hq.lt
  have hold := liveNr_of_not hq.notLive
  have hpos : 0 < c.kvTotGrainsGet key.length v.length := kvTotGrainsGet_pos _ _
  have hnew := liveNr_of_live (@insert_live c (s.table (c.hash key))
    (c.hash key) q _ g hpos r.pba_lt)
  have hkey : s.stats.keyNr + 1 + liveNr (s.table (c.hash key)) q = s.stats.keyNr +
      liveNr ((s.table (c.hash key)).insert q (c.hash key)
        (c.kvTotGrainsGet key.length v.length) g) q := by
    rw [hold, hnew]
    omega
  unfold setMapping
  simp only [Bool.false_eq_true, if_false]
  split
  · exact k.slot base sk (invalidateGrains_segStep s ((s.table (c.hash key)).ht q).pba
      (c.kvTotGrainsGet md.keySize md.valSize)) rfl rfl hkey
  · exact k.slot base sk (.refl s) rfl rfl hkey

theorem setMapping_update_kept (k : s.Kept) (base : s.Base) (r : Ready s key v g)
    (hq : Holds s key q) (md : StoreHeader) :
    (s.setMapping (c.hash key) q true key.length v.length g md).Kept := by
  have sk := updateInplace_slotKept (h := c.hash key) r.toWritten hq.lt
  have hpos : 0 < c.recGrains s.media g := kvTotGrainsGet_pos _ _
  have hnew := liveNr_of_live (updateInplace_live (s.table (c.hash key)) (h := c.hash key) (q := q)
    hpos r.pba_lt)
  have hkey : s.stats.keyNr - 1 + 1 + liveNr (s.table (c.hash key)) q = s.stats.keyNr +
      liveNr ((s.table (c.hash key)).updateInplace q (c.hash key) (c.recGrains s.media g) g) q := by
    rw [liveNr_of_live hq.live, hnew]
    omega
  unfold setMapping
  simp only [if_true]
  rw [r.grains]
  exact k.slot base sk (invalidateGrains_segStep s ((s.table (c.hash key)).ht q).pba
    (c.kvTotGrainsGet md.keySize md.valSize)) rfl rfl hkey

theorem Kept.live (k : s.Kept) {d : Directory c.bits}
    (hl : d.liveEntries = s.dir.liveEntries) : ({ s with dir := d } : Store c).Kept := by
  refine ⟨k.roomy, k.stamped, k.tableAt, fun e he => ?_, ?_⟩
  · exact k.sized e (by rwa [← hl])
  · exact k.keyNr.trans (by rw [hl])

theorem shift_kept (k : s.Kept) (inv : s.Inv) (hn : (s.table h).nextFree h = none)
    (hc : (s.table h).tryShiftClean h = true) : (s.setTable h ((s.table h).tryShift h).1).Kept := by
  obtain ⟨_, hent, _⟩ := shift_base inv hn hc
  exact k.live (congrArg (Multiset.filter fun x : Content => x.deleted = false) hent)

theorem putShifted_kept (k : s.Kept) (inv : s.Inv) (op : PutOp) (r : Ready s key v g)
    (hn : (s.table (c.hash key)).nextFree (c.hash key) = none)
    (hc : (s.table (c.hash key)).tryShiftClean (c.hash key) = true) :
    (s.putShifted key v g op).1.Kept := by
  have hsh := shift_kept k inv hn hc
  have hres := tryShift_result (table_wf inv.toBase (c.hash key)) hn
  obtain ⟨hb, _, _⟩ := shift_base inv hn hc
  have hr1 : Ready (s.setTable (c.hash key) ((s.table (c.hash key)).tryShift (c.hash key)).1)
      key v g := r.congr rfl (fun _ h => h) fun _ _ => le_rfl
  unfold putShifted
  generalize (s.table (c.hash key)).tryShift (c.hash key) = res at *
  obtain ⟨t, o⟩ := res
  cases o with
  | none => exact hsh
  | some q =>
    dsimp only
    split
    · exact hsh
    · exact setMapping_insert_kept hsh hb hr1 (freeSlot_of_shift hres) _

theorem localPutMbuff_kept (k : s.Kept) (inv : s.Inv) (r : Ready s key v g)
    (hs : s.ShiftOk key op) : (s.localPutMbuff key v g op).1.Kept := by
  have hmeans := lookupMbuffPut_means inv key
  cases hl : s.lookupMbuffPut key with
  | enodata q =>
    rw [hl] at hmeans
    simp only [localPutMbuff, hl]
    split
    · exact k
    · exact setMapping_insert_kept k inv.toBase r hmeans.1 _
  | eexist q md =>
    rw [hl] at hmeans
    simp only [localPutMbuff, hl]
    split
    · exact k
    · split
      · exact setMapping_update_kept k inv.toBase r hmeans.1 md
      · exact k
  | enospc =>
    rw [hl] at hmeans
    rw [localPutMbuff_enospc hl]
    exact putShifted_kept k inv op r hmeans.1 (hs hl).1

theorem grow_kept (k : s.Kept) (inv : s.Inv) (hw : s.WidthOk)
    (allocs : List TableAlloc) : (s.grow allocs).1.Kept := by
  obtain ⟨hal, hat⟩ := allocateTables_segStep s (2 ^ (s.dir.idxBits + 1)) allocs
  have hq := allocateTables_quiet inv.toBase (2 ^ (s.dir.idxBits + 1)) allocs
  obtain ⟨d, lost, hg, _, _, _, hent, hl⟩ := grow_live inv.bits_le inv.placed hw
  unfold grow
  rw [hg]
  generalize s.allocateTables (2 ^ (s.dir.idxBits + 1)) allocs = x at hal hat hq ⊢
  obtain ⟨gs, s1, ok⟩ := x
  have hb1 := hq.frame.base inv.toBase
  cases ok with
  | false =>
    have hst := hal.trans (invalidateTables_segStep s1 gs)
    exact k.frame hst (hq.trans (invalidateTables_quiet hb1 gs)).frame
  | true =>
    have hinv := invalidateTables_segStep s1 s.tables
    have hk := k.frame (hal.trans hinv) (hq.trans (invalidateTables_quiet hb1 s.tables)).frame
    have hdir : (s1.invalidateTables s.tables).dir = s.dir :=
      (hq.trans (invalidateTables_quiet hb1 s.tables)).frame.dir
    have hlive := hk.live (d := d) (by rw [hdir]; exact grow_liveEntries hent hl)
    exact ⟨hlive.roomy, hlive.stamped, fun g hg => hinv.tableAt (hat g hg), hlive.sized,
      hlive.keyNr⟩

/-! ## The loops -/

theorem putMap_kept (k : s.Kept) (inv : s.Inv) (r : Ready s key v g)
    {grows : List (List TableAlloc)} (hok : PutMapOk s key v g op grows) {M : KvMap}
    (hM : s.Represents M) : (s.putMap key v g op grows).1.Kept := by
  induction grows generalizing s with
  | nil => exact localPutMbuff_kept k inv r hok
  | cons allocs rest ih =>
    have hspec := localPutMbuff_spec inv r hok.1 hM
    have hput := localPutMbuff_kept k inv r hok.1
    unfold putMap
    cases hl : s.localPutMbuff key v g op with
    | mk s1 rc =>
      rw [hl] at hspec hput
      cases rc with
      | ok | einval | ealready _ => exact hput
      | enospc =>
        obtain ⟨hw, hrest⟩ := hok.2 s1 hl
        have hg := grow_spec hspec.inv hw allocs
        have hgk := grow_kept hput hspec.inv hw allocs
        dsimp only
        cases hgr : s1.grow allocs with
        | mk s2 b =>
          rw [hgr] at hg hgk
          cases b with
          | false => exact hgk
          | true =>
            exact ih hgk hg.inv (hg.ready (hspec.ready (by simp))) (hrest s2 hgr)
              (hg.represents hspec.meets)

theorem put_kept (k : s.Kept) (inv : s.Inv) (hdev : DeviceFits c)
    (hkv : PutSizes c key v) {as : List PutAttempt} (hok : PutLoopOk s key v op as) {M : KvMap}
    (hM : s.Represents M) : (s.put key v op as).1.Kept := by
  induction as generalizing s with
  | nil => exact k
  | cons a rest ih =>
    unfold put
    cases hio : s.localPutMbuffIo a.seg key v with
    | none => exact k
    | some x =>
      obtain ⟨g, s1⟩ := x
      obtain ⟨hf, hr⟩ := localPutMbuffIo_spec inv.toBase hdev hkv hio
      obtain ⟨hmap, hretry⟩ := hok g s1 hio
      have hspec := putMap_spec (hf.inv inv) hr hmap (hf.represents hM)
      have hput := putMap_kept (k.frame (localPutMbuffIo_segStep hio) hf) (hf.inv inv) hr hmap
        (hf.represents hM)
      dsimp only
      cases hl : s1.putMap key v g op a.grows with
      | mk s2 rc =>
        rw [hl] at hspec hput
        have hinv := hput.frame (invalidateGrains_segStep s2 g
          (c.kvTotGrainsGet key.length v.length))
          (invalidateGrains_frame hspec.inv.toBase _ _)
        cases rc with
        | ok => exact hput
        | einval | enospc => exact hinv
        | ealready oldPba =>
          have hfr := putRetry_frame hspec.inv.toBase key v g oldPba a.drained
          have hst := putRetry_segStep s2 key v g oldPba a.drained
          exact ih (hput.frame hst hfr) (hfr.inv hspec.inv) (hretry s2 oldPba hl)
            (hfr.represents hspec.meets)

theorem del_kept (k : s.Kept) (inv : s.Inv) (hdev : DeviceFits c)
    (hk : PutSizes c key []) (segs : List Nat) : (s.del key segs).1.Kept := by
  fun_induction del s key segs with
  | case5 s i rest h q md hl g s1 hio pba ho =>
    have hmeans := lookupMbuffPut_means inv key
    rw [hl] at hmeans
    obtain ⟨hf, _⟩ := localPutMbuffIo_spec inv.toBase hdev hk hio
    have hq1 := hmeans.1.frame hf inv
    have hdead : (((s1.table h).remove q g).ht q).live = false := by
      simp [remove, HashEntry.live, HashEntry.deleted]
    have hkey : s1.stats.keyNr - 1 + liveNr (s1.table h) q =
        s1.stats.keyNr + liveNr ((s1.table h).remove q g) q := by
      rw [liveNr_of_live hq1.live, liveNr_of_not hdead]
      omega
    exact (k.frame (localPutMbuffIo_segStep hio) hf).slot (hf.base inv.toBase)
      (remove_slotKept s1 g hq1.lt) (invalidateGrains_segStep s1 pba
        (c.kvTotGrainsGet md.keySize md.valSize)) rfl rfl hkey
  | case6 s i rest h q md hl g s1 hio pba ho ih =>
    obtain ⟨hf, _⟩ := localPutMbuffIo_spec inv.toBase hdev hk hio
    exact ih (k.frame (localPutMbuffIo_segStep hio) hf) (hf.inv inv)
  | _ => exact k

theorem localGcCallback_kept (k : s.Kept) (inv : s.Inv) (hdev : DeviceFits c)
    {start : Nat} (h : s.localGcCallback start i = some s') : s'.Kept := by
  rcases localGcCallback_cases h with ⟨_, rfl⟩ | ⟨q, hl, hd, rfl⟩ | ⟨q, g, s1, hl, hd, ha, rfl⟩
  · exact k
  · obtain ⟨hw, _, _⟩ := lookupPba_eq_some hl
    have hold : ((s.table (s.keyHash start)).ht q).live = false := by simp [HashEntry.live, hd]
    have hnew : (((s.table (s.keyHash start)).purge q).ht q).live = false := by
      simp [UDepotMap.purge]
    have hkey : s.stats.keyNr + liveNr (s.table (s.keyHash start)) q = s.stats.keyNr +
        liveNr ((s.table (s.keyHash start)).purge q) q := by
      rw [liveNr_of_not hold, liveNr_of_not hnew]
    exact k.slot inv.toBase (purge_slotKept s hw.lt) (invalidateGrains_segStep s _ _) rfl rfl hkey
  · have r := relocates inv hdev hl hd ha
    have hst : SegStep s (relocated s s1 start g) :=
      (allocateGrains_segStep ha).trans (.of_eq rfl rfl rfl rfl)
    have hk1 := k.frame hst r.frame
    have sk := updateInplace_slotKept (h := s.keyHash start) r.ready.toWritten
      (r.holds.frame r.frame inv).lt
    have hpos : 0 < c.recGrains s.media start := kvTotGrainsGet_pos _ _
    have hnew := liveNr_of_live (updateInplace_live (s.table (s.keyHash start))
      (h := s.keyHash start) (q := q) hpos r.ready.pba_lt)
    have hold : liveNr (s.table (s.keyHash start)) q = 1 := liveNr_of_live r.holds.live
    rw [r.grains, r.table] at sk
    have hinv := invalidateGrains_segStep (relocated s s1 start g)
      ((s.table (s.keyHash start)).ht q).pba (c.recGrains s.media start)
    have hkey : (relocated s s1 start g).stats.keyNr +
        liveNr ((relocated s s1 start g).table (s.keyHash start)) q =
        (relocated s s1 start g).stats.keyNr + liveNr ((s.table (s.keyHash start)).updateInplace q
          (s.keyHash start) (c.recGrains s.media start) g) q := by
      rw [r.table, hold, hnew]
    exact hk1.slot (r.frame.base inv.toBase) sk hinv rfl rfl hkey

/-! ## Runs -/

theorem putFreeSeg_kept (k : s.Kept) (inv : s.Inv)
    (hno : ∀ e ∈ s.dir.entries, c.grainToSegIdx e.pba ≠ i)
    (htab : ∀ g ∈ s.tables, c.grainToSegIdx g ≠ i) (h : s.putFreeSeg i = some s') : s'.Kept := by
  have hf := putFreeSeg_frame inv.toBase hno h
  unfold putFreeSeg at h
  split at h
  · cases h
    refine ⟨fun j => ?_, k.stamped, fun g hg => ?_, hf.sized k.sized, k.keyNr⟩
    · by_cases hji : j = i
      · simp [setSeg, hji]
      · simpa [setSeg, hji] using k.roomy j
    · have hgi := htab g hg
      obtain ⟨hu, ts, hmd⟩ := k.tableAt g hg
      exact ⟨by simpa [setSeg, hgi] using hu, ts, hmd⟩
  · cases h

theorem table_valid_pos {Q : Multiset (Nat × Nat)} (hC : s.Counts (s.charges + Q))
    (hg : g ∈ s.tables) (hu : (s.seg (c.grainToSegIdx g)).state ≠ .free) :
    0 < (s.seg (c.grainToSegIdx g)).validNr := by
  have hv := hC.valid _ hu
  have hpos : 0 < (s.tables.filter fun g' => c.grainToSegIdx g' = c.grainToSegIdx g).length :=
    List.length_pos_of_mem (List.mem_filter.mpr ⟨hg, by simp⟩)
  have hmul : 0 < s.tableGrainsAt (c.grainToSegIdx g) := Nat.mul_pos hpos (tableGrains_pos c)
  rw [Ledger.chargeAt_add, chargeAt_charges] at hv
  omega

theorem exec_kept (hdev : DeviceFits c) {w w' : Store c × KvMap} (k : w.1.Kept) (inv : w.1.Inv)
    (hM : w.1.Represents w.2) {Q : Multiset (Nat × Nat)} (hC : w.1.Counts (w.1.charges + Q))
    {ev : Event} (hok : w.1.StepOk ev) (hrel : w.1.ReleaseOk ev) (he : exec w ev = some w') :
    w'.1.Kept := by
  cases ev with
  | put key v op as =>
    cases he
    exact put_kept k inv hdev hok.1 hok.2 hM
  | del key segs =>
    cases he
    exact del_kept k inv hdev hok segs
  | gc start i =>
    obtain ⟨s', hs, rfl⟩ := map_eq_some_iff.mp he
    exact localGcCallback_kept k inv hdev hs
  | shift h =>
    unfold exec at he
    dsimp only at he
    split at he
    · rename_i hn
      cases he
      exact shift_kept k inv hn hok.1
    · cases he
  | grow allocs =>
    cases he
    exact grow_kept k inv hok allocs
  | allocateSegment i =>
    obtain ⟨s', hs, rfl⟩ := map_eq_some_iff.mp he
    exact k.frame (allocateSegment_segStep hs) (allocateSegment_frame inv.toBase hs)
  | recycleSegment i =>
    cases he
    exact k.frame (recycleSegment_segStep w.1 i) (recycleSegment_frame inv.toBase i)
  | putFreeSeg i =>
    obtain ⟨s', hs, rfl⟩ := map_eq_some_iff.mp he
    refine putFreeSeg_kept k inv hok (fun g hg hi => ?_) hs
    have hpos := table_valid_pos hC hg (k.tableAt g hg).1
    have hzero : (w.1.seg i).validNr = 0 := hrel
    rw [hi] at hpos
    omega
  | ioFail i len bs =>
    obtain ⟨s', hs, rfl⟩ := map_eq_some_iff.mp he
    exact k.frame (ioFail_segStep hs) (ioFail_frame inv.toBase hs)

theorem init_kept (c : Config) (m : Nat → UInt8) (i : Nat) : (init c m i).Kept := by
  have hlive : (init c m i).dir.liveEntries = 0 := by
    unfold liveEntries
    rw [init_entries]
    rfl
  have hidx : c.grainToSegIdx (i * c.segSize) = i := Nat.mul_div_cancel i c.seg_pos
  refine ⟨fun j => ?_, fun j ts hj => ?_, fun g hg => ?_, fun e he => ?_, ?_⟩
  · by_cases hji : j = i
    · have hlt := c.md_lt
      simp only [init, hji, update_self, reduceCtorEq, if_false, tableGrains]
      omega
    · simp [init, hji]
  · by_cases hji : j = i
    · simp [init, hji] at hj
    · simp [init, hji] at hj
  · rw [show g = i * c.segSize by simpa [init] using hg, TableAt, hidx]
    exact ⟨by simp [init], 0, by simp [init]⟩
  · rw [hlive] at he
    simp at he
  · rw [hlive]
    rfl

/-- The store between two requests: what its books and its tables say of each other. -/
structure Settled (s : Store c) : Prop extends Formed s, Kept s

theorem settled_run (hb : c.bits ≤ 32) (hdev : DeviceFits c) {m : Nat → UInt8} (hi : i < c.segNr)
    {w : Store c × KvMap} (h : Relation.ReflTransGen CountedStep (init c m i, fun _ => none) w) :
    w.1.Settled := by
  have hk : w.1.Kept := by
    induction h with
    | refl => exact init_kept c m i
    | tail hrun hs ih =>
      obtain ⟨⟨inv, hM⟩, _, hC⟩ := counted_run hb hdev hi hrun
      obtain ⟨ev, hok, hrel, he⟩ := hs
      exact exec_kept hdev ih inv hM hC hok hrel he
  exact ⟨formed_run hb hdev hi h, hk⟩

end UDepot.Store
