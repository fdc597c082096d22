import UDepot.Restart
import UDepot.Settled

/-! What a clean shutdown leaves on the device, and the directory that the restart puts
together from it: the segments of the store's own tables, each under its index, as long
as the indexes fit the headers and whatever else still checks is of a smaller
directory. -/

namespace UDepot.Store
open UDepotMap Directory Config Ledger List

variable {c : Config}

/-! ## The segments of the tables -/

section Books

variable {s : Store c}

theorem charge_le (k : s.Kept) {Q : Multiset (Nat × Nat)} (hC : s.Counts Q) (j : Nat) :
    chargeAt c.grainToSegIdx Q j ≤ tableGrains c := by
  by_cases hf : (s.seg j).state = .free
  · rw [(hC.free j hf).2]
    exact Nat.zero_le _
  · have hv := hC.valid j hf
    have hr := k.roomy j
    rw [if_neg hf, hv] at hr
    omega

theorem grains_le (h : s.Settled) (j : Nat) :
    s.recordGrains j + s.tableGrainsAt j ≤ tableGrains c := by
  obtain ⟨F, hC⟩ := h.counted
  have hle := charge_le h.toKept hC j
  rw [chargeAt_add, chargeAt_charges] at hle
  omega

def tableSegs (s : Store c) : List Nat := s.tables.map c.grainToSegIdx

theorem tableGrainsAt_eq (s : Store c) (j : Nat) :
    s.tableGrainsAt j = s.tableSegs.count j * tableGrains c := by
  unfold tableGrainsAt tableSegs
  rw [count_eq_length_filter, filter_map, length_map]
  congr 1

theorem tables_nodup (h : s.Settled) : s.tableSegs.Nodup := by
  rw [nodup_iff_count_le_one]
  intro j
  have hle := grains_le h j
  rw [tableGrainsAt_eq] at hle
  by_contra hgt
  have hmul := Nat.mul_le_mul_right (tableGrains c) (show 2 ≤ _ from Nat.lt_of_not_le hgt)
  have hpos := tableGrains_pos c
  omega

theorem entry_apart (h : s.Settled) {e : Content} (he : e ∈ s.dir.entries) {g : Nat}
    (hg : g ∈ s.tables) : c.grainToSegIdx e.pba ≠ c.grainToSegIdx g := by
  intro heq
  have hle := grains_le h (c.grainToSegIdx g)
  have htab : tableGrains c ≤ s.tableGrainsAt (c.grainToSegIdx g) := by
    have hlen : 1 ≤ (s.tables.filter fun g' => c.grainToSegIdx g' = c.grainToSegIdx g).length :=
      length_pos_of_mem (mem_filter.mpr ⟨hg, by simp⟩)
    have := Nat.mul_le_mul_right (tableGrains c) hlen
    unfold tableGrainsAt
    omega
  have hrec : 0 < s.recordGrains (c.grainToSegIdx g) := by
    have hmem : c.recGrains s.media e.pba ∈ (s.dir.entries.filter fun x =>
        c.grainToSegIdx x.pba = c.grainToSegIdx g).map fun x => c.recGrains s.media x.pba :=
      Multiset.mem_map_of_mem _ (Multiset.mem_filter.mpr ⟨he, heq⟩)
    have hpos : 0 < c.recGrains s.media e.pba := kvTotGrainsGet_pos _ _
    exact hpos.trans_le (Multiset.single_le_sum (fun _ _ => Nat.zero_le _) _ hmem)
  omega

theorem table_lt_segNr (h : s.Settled) {g : Nat} (hg : g ∈ s.tables) :
    c.grainToSegIdx g < c.segNr :=
  (h.segs _ (h.tableAt g hg).1).lt

end Books

/-! ## The device after the shutdown -/

section Halted

variable {checksum32 : Nat → Nat → Nat → Nat} {hdrTs ftrTs : Nat → Nat} {s : Store c}
  {x : Nat → DirSeg c.bits}

def halted (checksum32 : Nat → Nat → Nat → Nat) (hdrTs ftrTs : Nat → Nat) (s : Store c)
    (x : Nat → DirSeg c.bits) : Device c :=
  s.shutdown checksum32 ftrTs (s.mapped checksum32 hdrTs x)

theorem range_tableSeg (s : Store c) :
    (List.range s.tables.length).map s.tableSeg = s.tableSegs := by
  apply ext_getElem
  · simp [tableSegs]
  · intro i h1 h2
    have hi : i < s.tables.length := by simpa using h1
    simp [tableSegs, tableSeg, getD_eq_getElem?_getD, hi]

variable {j i : Nat}

theorem mem_tableSegs :
    j ∈ s.tableSegs ↔ ∃ i < s.tables.length, s.tableSeg i = j := by
  rw [← range_tableSeg]
  simp

theorem halted_table (h : s.Settled) (hi : i < s.tables.length) :
    (halted checksum32 hdrTs ftrTs s x).dirSeg (s.tableSeg i) =
      ⟨dirmapMd checksum32 s.tables.length (hdrTs i) i, s.dir.map i,
        s.dirmapFtr checksum32 (ftrTs i) i⟩ := by
  have hnd : ((List.range s.tables.length).map s.tableSeg).Nodup := by
    rw [range_tableSeg]
    exact tables_nodup h
  have hmem := mem_range.mpr hi
  simp only [halted, shutdown, mapped, forTables]
  rw [Places.writeAll_self hnd _ hmem, Places.writeAll_self hnd _ hmem]

theorem halted_other {j : Nat} (hj : j ∉ s.tableSegs) :
    (halted checksum32 hdrTs ftrTs s x).dirSeg j = x j := by
  rw [← range_tableSeg] at hj
  simp only [halted, shutdown, mapped, forTables]
  rw [Places.writeAll_other hj, Places.writeAll_other hj]

theorem halted_segMd (j : Nat) : (halted checksum32 hdrTs ftrTs s x).segMd j = s.segMd j := rfl

theorem tableSeg_mem (hi : i < s.tables.length) : s.tables.getD i 0 ∈ s.tables := by
  rw [getD_eq_getElem?_getD, getElem?_eq_getElem hi]
  exact getElem_mem hi

theorem halted_dirValid (h : s.Settled) (hi : i < s.tables.length) :
    (halted checksum32 hdrTs ftrTs s x).dirValid checksum32 (s.tableSeg i) = true := by
  obtain ⟨_, ts, hmd⟩ := h.tableAt _ (tableSeg_mem hi)
  unfold Device.dirValid
  rw [halted_segMd, show s.segMd (s.tableSeg i) = _ from hmd, halted_table h hi]
  simp [dirmapMd, dirmapFtr]

def dirKey (s : Store c) : Nat := (s.tables.length % 2 ^ 16 + (2 ^ 32 - 1)) % 2 ^ 32

theorem halted_dirKey (h : s.Settled) (hi : i < s.tables.length) :
    (halted checksum32 hdrTs ftrTs s x).dirKey (s.tableSeg i) = s.dirKey := by
  unfold Device.dirKey
  rw [halted_table h hi]
  rfl

/-- What other directories have left on the device: a segment that still checks belongs
to a smaller one. -/
def StaleSmaller (checksum32 : Nat → Nat → Nat → Nat) (s : Store c) (x : Nat → DirSeg c.bits) :
    Prop :=
  ∀ j, j ∉ s.tableSegs → (⟨s.media, s.segMd, x⟩ : Device c).dirValid checksum32 j = true →
    (⟨s.media, s.segMd, x⟩ : Device c).hdrFtrOk [j] = true ∧
      (⟨s.media, s.segMd, x⟩ : Device c).dirKey j < s.dirKey

theorem halted_stale (hst : StaleSmaller checksum32 s x) (hj : j ∉ s.tableSegs)
    (hv : (halted checksum32 hdrTs ftrTs s x).dirValid checksum32 j = true) :
    (halted checksum32 hdrTs ftrTs s x).hdrFtrOk [j] = true ∧
      (halted checksum32 hdrTs ftrTs s x).dirKey j < s.dirKey := by
  have hx := @halted_other c checksum32 hdrTs ftrTs s x j hj
  have h := hst j hj
  unfold Device.dirValid at h hv
  unfold Device.hdrFtrOk Device.dirKey at h ⊢
  rw [halted_segMd, hx] at hv
  simp only [all_cons, all_nil, hx] at h ⊢
  exact h hv

theorem mem_collected (h : s.Settled) :
    (j ∈ (halted checksum32 hdrTs ftrTs s x).collected checksum32 → j ∈ s.tableSegs ∨
      (j ∉ s.tableSegs ∧ (halted checksum32 hdrTs ftrTs s x).dirValid checksum32 j = true)) ∧
    (j ∈ s.tableSegs → j ∈ (halted checksum32 hdrTs ftrTs s x).collected checksum32) := by
  constructor
  · intro hj
    by_cases hm : j ∈ s.tableSegs
    · exact .inl hm
    · exact .inr ⟨hm, (mem_filter.mp hj).2⟩
  · intro hj
    obtain ⟨i, hi, rfl⟩ := mem_tableSegs.mp hj
    exact mem_filter.mpr ⟨mem_range.mpr (table_lt_segNr h (tableSeg_mem hi)),
      halted_dirValid h hi⟩

theorem halted_hdrFtrOk (h : s.Settled) (hst : StaleSmaller checksum32 s x) :
    (halted checksum32 hdrTs ftrTs s x).hdrFtrOk
      ((halted checksum32 hdrTs ftrTs s x).collected checksum32) = true := by
  refine all_eq_true.mpr fun j hj => ?_
  rcases (mem_collected h).1 hj with hm | ⟨hm, hv⟩
  · obtain ⟨i, hi, rfl⟩ := mem_tableSegs.mp hm
    rw [halted_table h hi]
    simp [dirmapMd, dirmapFtr]
  · exact all_eq_true.mp (halted_stale hst hm hv).1 j mem_cons_self

theorem mem_restored (h : s.Settled) (hst : StaleSmaller checksum32 s x) :
    j ∈ (halted checksum32 hdrTs ftrTs s x).restored checksum32 ↔ j ∈ s.tableSegs := by
  have hpos : 0 < s.tables.length := by
    rw [h.tables]
    exact Nat.two_pow_pos _
  have hkey : ∀ j ∈ s.tableSegs, (halted checksum32 hdrTs ftrTs s x).dirKey j = s.dirKey := by
    intro j hj
    obtain ⟨i, hi, rfl⟩ := mem_tableSegs.mp hj
    exact halted_dirKey h hi
  have hmax : (((halted checksum32 hdrTs ftrTs s x).collected checksum32).map
      (halted checksum32 hdrTs ftrTs s x).dirKey).max? = some s.dirKey := by
    rw [List.max?_eq_some_iff]
    constructor
    · have h0 : s.tableSeg 0 ∈ s.tableSegs := mem_tableSegs.mpr ⟨0, hpos, rfl⟩
      rw [← hkey _ h0]
      exact mem_map_of_mem ((mem_collected h).2 h0)
    · intro b hb
      obtain ⟨j, hj, rfl⟩ := mem_map.mp hb
      rcases (mem_collected h).1 hj with hm | ⟨hm, hv⟩
      · exact (hkey j hm).le
      · exact (halted_stale hst hm hv).2.le
  unfold Device.restored
  rw [hmax]
  simp only [mem_filter, decide_eq_true_eq]
  constructor
  · rintro ⟨hj, hk⟩
    rcases (mem_collected h).1 hj with hm | ⟨hm, hv⟩
    · exact hm
    · exact absurd hk (halted_stale hst hm hv).2.ne
  · intro hj
    exact ⟨(mem_collected h).2 hj, hkey j hj⟩

theorem restored_nodup (d : Device c) : (d.restored checksum32).Nodup := by
  unfold Device.restored
  split
  · exact nodup_nil
  · exact (nodup_range.filter _).filter _

theorem restored_perm (h : s.Settled) (hst : StaleSmaller checksum32 s x) :
    ((halted checksum32 hdrTs ftrTs s x).restored checksum32).Perm s.tableSegs :=
  (perm_ext_iff_of_nodup (restored_nodup _) (tables_nodup h)).mpr fun _ => mem_restored h hst

theorem restored_length (h : s.Settled) (hst : StaleSmaller checksum32 s x) :
    ((halted checksum32 hdrTs ftrTs s x).restored checksum32).length = 2 ^ s.dir.idxBits := by
  rw [(restored_perm h hst).length_eq, tableSegs, length_map]
  exact h.tables

/-! ## The new directory -/

/-- Each table finds its segment, unless its index does not fit the header. -/
theorem halted_newDir (h : s.Settled) (hst : StaleSmaller checksum32 s x) (h16 : s.dir.idxBits ≤ 16)
    (hi : i < 2 ^ s.dir.idxBits) :
    (halted checksum32 hdrTs ftrTs s x).newDir
      ((halted checksum32 hdrTs ftrTs s x).restored checksum32) i = some (s.tableSeg i) := by
  have hlen : s.tables.length = 2 ^ s.dir.idxBits := h.tables
  have hle : 2 ^ s.dir.idxBits ≤ 2 ^ 16 := Nat.pow_le_pow_right (by decide) h16
  have hidx : ∀ i < s.tables.length,
      ((halted checksum32 hdrTs ftrTs s x).dirSeg (s.tableSeg i)).hdr.idx = i := by
    intro i hi
    rw [halted_table h hi]
    exact Nat.mod_eq_of_lt (by omega)
  refine Places.find?_unique ?_ ?_ fun j hj hq => ?_
  · rw [mem_reverse, mem_restored h hst]
    exact mem_tableSegs.mpr ⟨i, by omega, rfl⟩
  · rw [decide_eq_true_eq]
    exact hidx i (by omega)
  · rw [mem_reverse, mem_restored h hst] at hj
    obtain ⟨i', hi', rfl⟩ := mem_tableSegs.mp hj
    rw [decide_eq_true_eq, hidx i' hi'] at hq
    rw [hq]

theorem halted_holes (h : s.Settled) (hst : StaleSmaller checksum32 s x) :
    (halted checksum32 hdrTs ftrTs s x).newDir
      ((halted checksum32 hdrTs ftrTs s x).restored checksum32) (2 ^ 16) = none := by
  refine List.find?_eq_none.mpr fun j hj => ?_
  rw [mem_reverse, mem_restored h hst] at hj
  obtain ⟨i, hi, rfl⟩ := mem_tableSegs.mp hj
  have hlt : i % 2 ^ 16 < 2 ^ 16 := Nat.mod_lt _ (by decide)
  rw [halted_table h hi, decide_eq_true_eq]
  exact hlt.ne

theorem halted_bytes (h : s.Settled) (hst : StaleSmaller checksum32 s x)
    (h16 : s.dir.idxBits ≤ 16) :
    (halted checksum32 hdrTs ftrTs s x).restoredBytes
      ((halted checksum32 hdrTs ftrTs s x).restored checksum32) =
      (s.stats.usedBytes, s.stats.totalBytes) := by
  have hlen : s.tables.length = 2 ^ s.dir.idxBits := h.tables
  have hpos : 0 < 2 ^ s.dir.idxBits := Nat.two_pow_pos _
  have hle : 2 ^ s.dir.idxBits ≤ 2 ^ 16 := Nat.pow_le_pow_right (by decide) h16
  have hidx : ∀ i < s.tables.length,
      ((halted checksum32 hdrTs ftrTs s x).dirSeg (s.tableSeg i)).ftr.idx = i := by
    intro i hi
    rw [halted_table h hi]
    exact Nat.mod_eq_of_lt (by omega)
  unfold Device.restoredBytes
  rw [restored_length h hst]
  refine Places.foldl_ite_eq (fun j hj hq => ?_) (.inr ⟨s.tableSeg (2 ^ s.dir.idxBits - 1), ?_, ?_⟩)
  · rw [mem_restored h hst] at hj
    obtain ⟨i, hi, rfl⟩ := mem_tableSegs.mp hj
    rw [hidx i hi] at hq
    rw [halted_table h hi]
    simp [dirmapFtr, hlen, hq]
  · rw [mem_restored h hst]
    exact mem_tableSegs.mpr ⟨_, by omega, rfl⟩
  · exact hidx _ (by omega)

end Halted

end UDepot.Store
