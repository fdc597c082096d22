import UDepot.RecoveryMap

/-! A recovery that completes: the store before the scan, the pass over the tombstones,
and what the recovered store answers. -/

namespace UDepot
open Bytes Function List

namespace Store
open UDepotMap Directory Config Elect

variable {c : Config}

/-! ## The tombstones -/

variable {s : Store c}

theorem records_nodup (base : s.Base) : s.records.Nodup := by
  have h := base.keys
  rw [show (fun e : Content => c.recKey s.media e.pba) = c.recKey s.media ∘ (·.pba) from rfl,
    ← Multiset.map_map] at h
  exact h.of_map

theorem lookupPba_isSome (inv : s.Inv)
    (hlive : ∀ e ∈ s.dir.entries, e.deleted = false) (pba : Nat) :
    ((s.table (s.keyHash pba)).lookupPba (s.keyHash pba) pba).isSome = true ↔
      ∃ e ∈ s.dir.liveEntries, e.pba = pba := by
  constructor
  · intro h
    obtain ⟨q, hq⟩ := Option.isSome_iff_exists.mp h
    obtain ⟨hw, hu, hp⟩ := lookupPba_eq_some hq
    have hmem : slotContent (s.table (s.keyHash pba)) q ∈ s.dir.entries :=
      mem_entries.mpr ⟨_, q, table_lt inv.toBase _, hw.lt, hu, rfl⟩
    exact ⟨_, Multiset.mem_filter.mpr ⟨hmem, hlive _ hmem⟩, hp⟩
  · rintro ⟨e, he, rfl⟩
    obtain ⟨q, hm, hslot⟩ := match_of_key inv he
    have hpba : ((s.table (s.keyHash e.pba)).ht q).pba = e.pba := by
      nth_rewrite 2 [hslot]
      rfl
    obtain ⟨j, hj, _⟩ := Scan.findFrom_isSome (p := fun q =>
      ((s.table (s.keyHash e.pba)).ht q).used &&
      e.pba == ((s.table (s.keyHash e.pba)).ht q).pba) hm.1.1 hm.1.2
      (by simp [((HashEntry.live_iff _).mp hm.2.1).1, hpba])
    rw [Option.isSome_iff_exists]
    exact ⟨j, hj⟩

@[simp] theorem dropTombstone_dir (s : Store c) (t : Tombstone) :
    (s.dropTombstone t).dir = s.dir := by
  unfold dropTombstone
  split
  · rfl
  · rfl

@[simp] theorem dropTombstone_media (s : Store c) (t : Tombstone) :
    (s.dropTombstone t).media = s.media := by
  unfold dropTombstone
  split
  · rfl
  · rfl

theorem dropTombstone_inv (inv : s.Inv) (t : Tombstone) : (s.dropTombstone t).Inv := by
  unfold dropTombstone
  split
  · exact inv
  · exact (kvRemoved_frame inv.toBase _ _).inv inv

theorem dropTombstones_rest (s : Store c) (ts : List Tombstone) :
    (ts.foldl dropTombstone s).dir = s.dir ∧ (ts.foldl dropTombstone s).media = s.media := by
  induction ts generalizing s with
  | nil => exact ⟨rfl, rfl⟩
  | cons t ts ih =>
    obtain ⟨h1, h2⟩ := ih (s.dropTombstone t)
    exact ⟨by rw [foldl_cons, h1, dropTombstone_dir],
      by rw [foldl_cons, h2, dropTombstone_media]⟩

theorem dropTombstones_inv (inv : s.Inv) (ts : List Tombstone) :
    (ts.foldl dropTombstone s).Inv := by
  induction ts generalizing s with
  | nil => exact inv
  | cons t ts ih => exact ih (dropTombstone_inv inv t)

structure Filed (s : Store c) (t : Tombstone) : Prop where
  val : (c.readHeader s.media t.pba).valSize = 0
  hash : t.h = s.keyHash t.pba
  key : t.keySize = (c.readHeader s.media t.pba).keySize

theorem mem_records {g : Nat} : g ∈ s.records ↔ ∃ e ∈ s.dir.liveEntries, e.pba = g :=
  Multiset.mem_map

theorem dropTombstone_stats (inv : s.Inv)
    (hlive : ∀ e ∈ s.dir.entries, e.deleted = false) {t : Tombstone} (ht : s.Filed t)
    {gs : Multiset Nat} (hle : gs ≤ s.records) (hmem : t.pba ∈ s.records → t.pba ∈ gs)
    (hgs : s.stats = statsOf c s.media gs) :
    (s.dropTombstone t).stats = statsOf c s.media (gs.filter (· ≠ t.pba)) := by
  have hiff := (lookupPba_isSome inv hlive t.pba).trans mem_records.symm
  unfold dropTombstone
  rw [ht.hash]
  cases hl : (s.table (s.keyHash t.pba)).lookupPba (s.keyHash t.pba) t.pba with
  | none =>
    have hall : gs.filter (· ≠ t.pba) = gs :=
      Multiset.filter_eq_self.mpr fun g hg hp => by
        have := hiff.mpr (hp ▸ Multiset.mem_of_le hle hg)
        rw [hl] at this
        cases this
    rw [hall]
    exact hgs
  | some q =>
    obtain ⟨rest, rfl⟩ := Multiset.exists_cons_of_mem (hmem (hiff.mp (by rw [hl]; rfl)))
    have hnd := Multiset.nodup_of_le hle (records_nodup inv.toBase)
    have hrest : rest.filter (· ≠ t.pba) = rest :=
      Multiset.filter_eq_self.mpr fun x hx hxp => (Multiset.nodup_cons.mp hnd).1 (hxp ▸ hx)
    rw [Multiset.filter_cons_of_neg _ (by simp), hrest, ht.key]
    have hrm := statsOf_remove (m := s.media) rest t.pba (s := s) (by rw [hgs, add_comm]; rfl)
    rwa [ht.val] at hrm

theorem dropTombstones_stats (inv : s.Inv)
    (hlive : ∀ e ∈ s.dir.entries, e.deleted = false) {ts : List Tombstone}
    (hts : ∀ t ∈ ts, s.Filed t) (hnd : (ts.map (·.pba)).Nodup) {gs : Multiset Nat}
    (hle : gs ≤ s.records) (hmem : ∀ g ∈ s.records, g ∈ ts.map (·.pba) → g ∈ gs)
    (hgs : s.stats = statsOf c s.media gs) :
    (ts.foldl dropTombstone s).stats = statsOf c s.media (gs.filter (· ∉ ts.map (·.pba))) := by
  induction ts generalizing s gs with
  | nil => simpa using hgs
  | cons t ts ih =>
    rw [map_cons, nodup_cons] at hnd
    have hstep := dropTombstone_stats inv hlive (hts t mem_cons_self) hle
      (fun hm => hmem _ hm (by simp)) hgs
    have hd := dropTombstone_dir s t
    have hm := dropTombstone_media s t
    have hr : (s.dropTombstone t).records = s.records := by rw [records, records, hd]
    have hle' : gs.filter (· ≠ t.pba) ≤ (s.dropTombstone t).records := by
      rw [hr]
      exact (Multiset.filter_le _ _).trans hle
    have hrun := ih (dropTombstone_inv inv t) (by rwa [hd]) (fun u hu => ?_) hnd.2 hle' ?_
      (by rw [hm]; exact hstep)
    · rw [foldl_cons, hrun, hm, Multiset.filter_filter]
      congr 1
      refine Multiset.filter_congr fun g _ => ?_
      simp [and_comm]
    · have hu' := hts u (mem_cons_of_mem _ hu)
      refine ⟨by rw [hm]; exact hu'.val, ?_, by rw [hm]; exact hu'.key⟩
      rw [hu'.hash]
      unfold keyHash
      rw [hm]
    · rw [hr]
      intro g hg hp
      refine Multiset.mem_filter.mpr ⟨hmem g hg (mem_cons_of_mem _ hp), fun heq => ?_⟩
      rw [heq] at hp
      exact hnd.1 hp

/-! ## The store before the scan -/

theorem prepFold_spec (s : Store c) (l : List Nat) :
    (l.foldl prepSegment s).dir = s.dir ∧ (l.foldl prepSegment s).media = s.media ∧
      (l.foldl prepSegment s).segMd = s.segMd ∧ (l.foldl prepSegment s).stats = s.stats ∧
      ∀ i, (l.foldl prepSegment s).seg i =
          (if i ∈ l ∧ (s.kvTs i).isSome = true then
            ⟨.closed, c.segSize, c.dataGrains⟩ else s.seg i) ∧
        (l.foldl prepSegment s).segTs i =
          if i ∈ l ∧ (s.kvTs i).isSome = true then (s.kvTs i).getD 0 else s.segTs i := by
  induction l generalizing s with
  | nil => simp
  | cons j l ih =>
    obtain ⟨hd, hm, hmd, hst, hseg⟩ := ih (s.prepSegment j)
    rw [foldl_cons]
    cases hj : s.kvTs j with
    | none =>
      have he : s.prepSegment j = s := by simp [prepSegment, hj]
      rw [he] at hd hm hmd hst hseg ⊢
      refine ⟨hd, hm, hmd, hst, fun i => ?_⟩
      grind
    | some ts =>
      have he : s.prepSegment j = s.restoreGrainRange j ts := by simp [prepSegment, hj]
      rw [he] at hd hm hmd hst hseg ⊢
      refine ⟨hd, hm, hmd, hst, fun i => ?_⟩
      have hkv : (s.restoreGrainRange j ts).kvTs i = s.kvTs i := rfl
      rw [(hseg i).1, (hseg i).2, hkv]
      by_cases hij : i = j
      · subst hij
        simp [hj, restoreGrainRange, setSeg]
      · simp [hij, restoreGrainRange, setSeg]

structure Prepared (s s2 : Store c) : Prop where
  dir : s2.OneTable
  media : s2.media = s.media
  kvTs : ∀ j, s2.kvTs j = s.kvTs j
  stats : s2.stats = ⟨0, 0, 0⟩
  stamps : ∀ j, j < c.segNr → s2.StampRestored j
  kv : ∀ j, j < c.segNr → (s.kvTs j).isSome = true →
    (s2.seg j).state ≠ .free ∧ (s2.seg j).nr3 = c.segSize
  segs : ∀ j, (s2.seg j).state ≠ .free → s2.SegOk j

variable {i : Nat}

theorem firstGrow_eq_some {s s2 : Store c} (h : s.firstGrow i = some s2) :
    i < c.segNr ∧ (s.seg i).state = .free ∧ s2.dir = s.dir ∧ s2.media = s.media ∧
      s2.stats = s.stats ∧ s2.segMd = update s.segMd i (some ⟨.directory, 0⟩) ∧
      s2.segTs = update s.segTs i 0 ∧ (∀ j, j ≠ i → s2.seg j = s.seg j) ∧
      (s2.seg i).nr3 = c.segSize := by
  obtain ⟨hc, h⟩ := Option.ite_none_right_eq_some.mp h
  obtain ⟨⟨g, s1⟩, ha, rfl⟩ := Option.map_eq_some_iff.mp h
  obtain ⟨-, ha⟩ := Option.ite_none_right_eq_some.mp ha
  cases ha
  have hlt := c.md_lt
  refine ⟨hc.1, hc.2, rfl, rfl, rfl, rfl, rfl, fun j hj => ?_, ?_⟩
  · simp [setSeg, persistSegMd, hj]
  · simp only [setSeg, persistSegMd, update_self, tableGrains]
    omega

theorem prepared_of_firstGrow {s s1 s2 : Store c}
    (h1 : (blank c s.media s.segMd).prepCrashRecovery = .ok s1) (h2 : s1.firstGrow i = some s2) :
    Prepared s s2 := by
  unfold prepCrashRecovery at h1
  split at h1
  · cases h1
  · cases h1
    obtain ⟨hd, hm, hmd, hst, hseg⟩ := prepFold_spec (blank c s.media s.segMd) (List.range c.segNr)
    obtain ⟨hi, hfree, hd2, hm2, hst2, hmd2, hts2, hother, hnr⟩ := firstGrow_eq_some h2
    have hkv : ∀ j, (blank c s.media s.segMd).kvTs j = s.kvTs j := fun _ => rfl
    have hno : s.kvTs i = none := by
      rw [(hseg i).1, hkv] at hfree
      cases hk : s.kvTs i with
      | none => rfl
      | some ts => simp [hi, hk] at hfree
    have hkv2 : ∀ j, s2.kvTs j = s.kvTs j := by
      intro j
      unfold Store.kvTs
      rw [hmd2, hmd]
      by_cases hji : j = i
      · subst hji
        rw [update_self]
        exact hno.symm
      · rw [update_of_ne hji]
        rfl
    refine ⟨hd2.trans hd, hm2.trans hm, hkv2, hst2.trans hst, fun j hj => ?_, fun j hj hk => ?_,
      fun j hj => ?_⟩
    · unfold StampRestored
      rw [hkv2, hts2]
      by_cases hji : j = i
      · subst hji
        simp [hno]
      · rw [update_of_ne hji, (hseg j).2, hkv]
        cases hk : s.kvTs j with
        | none => simp [blank]
        | some ts => simp [hj]
    · have hji : j ≠ i := fun he => by
        rw [he, hno] at hk
        cases hk
      rw [hother j hji, (hseg j).1, hkv, if_pos ⟨mem_range.mpr hj, hk⟩]
      simp
    · by_cases hji : j = i
      · subst hji
        exact ⟨hi, by rw [hnr]; exact c.md_lt.le, by rw [hnr]⟩
      · rw [hother j hji, (hseg j).1] at hj
        split at hj
        · rename_i hc
          refine ⟨mem_range.mp hc.1, ?_, ?_⟩
          · rw [hother j hji, (hseg j).1, if_pos hc]
            exact c.md_lt.le
          · rw [hother j hji, (hseg j).1, if_pos hc]
        · simp [blank] at hj

section Prepared

variable {s s2 : Store c}

theorem Prepared.scanned (hp : Prepared s s2) : s2.scanned = s.scanned := by
  funext j
  unfold Store.scanned
  rw [hp.kvTs, hp.media]

theorem Prepared.newer (hp : Prepared s s2) : s2.newer = s.newer := by
  funext x y
  unfold Store.newer
  rw [hp.kvTs, hp.media]

theorem Prepared.elected (hp : Prepared s s2) : s2.elected = s.elected := by
  funext gs k
  unfold Store.elected
  rw [hp.newer, hp.media]

theorem Prepared.start (hp : Prepared s s2) (hb : c.bits ≤ 32) : ScanInv s2 [] ⟨s2, [], 0, 0⟩ := by
  have he := hp.dir.entries
  have hl : s2.dir.liveEntries = 0 := by rw [liveEntries, he]; rfl
  refine ⟨hp.dir.inv hb hp.segs, Same.refl _, fun k g => ?_, fun e hm => ?_, ?_, by simp, by simp,
    fun e hm => ?_⟩
  · rw [hl]
    simp [Store.elected]
  · rw [he] at hm
    exact absurd hm (Multiset.notMem_zero e)
  · rw [records, hl, hp.stats]
    simp [statsOf]
  · rw [hl] at hm
    exact absurd hm (Multiset.notMem_zero e)

theorem Prepared.restorable (hp : Prepared s s2) (hdev : DeviceFits c) {j g : Nat}
    (hj : j < c.segNr) (hg : g ∈ s2.scanned j) (hf : RecFits c s2.media g) : s2.Restorable g := by
  have hidx := scanned_in_seg hg
  have hkv : (s.kvTs j).isSome = true := by
    unfold Store.scanned at hg
    rw [hp.kvTs] at hg
    cases hk : s.kvTs j with
    | none => simp [hk] at hg
    | some ts => rfl
  obtain ⟨hst, hnr⟩ := hp.kv j hj hkv
  have hhead := rec_le_grains (m := s2.media) (g := g) hf.fit
  have hext := hf.extent
  have hpos : 0 < c.recGrains s2.media g := kvTotGrainsGet_pos _ _
  have hend : c.grainToSegIdx g * c.segSize + c.dataGrains < c.segNr * c.segSize := by
    have hmul := Nat.mul_le_mul_right c.segSize (Nat.succ_le_of_lt hj)
    rw [Nat.succ_mul] at hmul
    have hmd := c.md_pos
    have hlt := c.md_lt
    rw [hidx]
    unfold dataGrains
    omega
  refine ⟨⟨⟨rfl, hf.fit, hf.key_pos, ?_, by rwa [hidx], ?_, ?_⟩, rfl, ?_⟩, ?_⟩
  · have hreach := hf.reach
    unfold putKeyvalPrefixSize at hreach ⊢
    rcases min_choice (c.recGrains s2.media g) maxKvSize with hmin | hmin
    · rw [hmin]
      omega
    · rw [hmin]
      exact hreach
  · rw [handedOut, hidx, hnr]
    rw [hidx] at hext
    unfold dataGrains at hext
    have := c.md_lt
    omega
  · have := hend.le.trans hdev
    omega
  · rw [recKey_length, recVal_length]
    rfl
  · rw [hidx]
    exact hp.stamps j hj

end Prepared

/-! ## The recovered store -/

/-- What a recovery that visits the segments in `order` makes of a crash of `s`. -/
structure Recovered (s : Store c) (order : List Nat) (s' : Store c) : Prop where
  inv : s'.Inv
  media : s'.media = s.media
  points : s'.Points (s.elected (order.flatMap s.scanned))
  live : ∀ e ∈ s'.dir.entries, e.deleted = false
  stats : s'.stats = statsOf c s.media
    (s'.records.filter fun g => (c.readHeader s.media g).valSize ≠ 0)

def ScanFits (s : Store c) (order : List Nat) : Prop :=
  ∀ j ∈ order, ∀ g ∈ s.scanned j, RecFits c s.media g

/-- The end of `crash_recovery`: the scan's result, the counter and the tombstones. -/
theorem ScanInv.finish {s s0 : Store c} {order : List Nat} {x : Recovery c}
    (hx : ScanInv s0 (order.flatMap s0.scanned) x) (hmed : s0.media = s.media)
    (hscan : s0.scanned = s.scanned) (helect : s0.elected = s.elected) :
    Recovered s order (x.tombstones.foldl dropTombstone
      { x.store with segAllocNr := x.maxSegAllocNr }) := by
  have hm : x.store.media = s.media := hx.same.media.trans hmed
  have hframe : Frame x.store { x.store with segAllocNr := x.maxSegAllocNr } :=
    frame_of_seg hx.inv.toBase rfl rfl (fun _ => Iff.rfl) fun _ => rfl
  have hinv := hframe.inv hx.inv
  obtain ⟨hd', hm'⟩ := dropTombstones_rest
    ({ x.store with segAllocNr := x.maxSegAllocNr } : Store c) x.tombstones
  have hfiled : ∀ t ∈ x.tombstones,
      ({ x.store with segAllocNr := x.maxSegAllocNr } : Store c).Filed t := fun t ht => by
    obtain ⟨_, h0, hh, hk⟩ := hx.tombs t ht
    refine ⟨?_, ?_, ?_⟩
    · dsimp only
      rw [hx.same.media]
      exact h0
    · rw [hh]
      unfold keyHash
      dsimp only
      rw [hx.same.media]
    · dsimp only
      rw [hx.same.media]
      exact hk
  have hstats := dropTombstones_stats hinv hx.live hfiled hx.nodup le_rfl (fun g hg _ => hg)
    (by dsimp only; rw [hx.stats, hx.same.media]; rfl)
  refine ⟨dropTombstones_inv hinv _, hm'.trans hm, ?_, ?_, ?_⟩
  · intro k g
    rw [hd', hm', ← hscan, ← helect]
    exact hx.points k g
  · rw [hd']
    exact hx.live
  · have hr : (x.tombstones.foldl dropTombstone
        { x.store with segAllocNr := x.maxSegAllocNr }).records = x.store.records := by
      rw [records, hd']
      rfl
    rw [hstats, hr]
    dsimp only
    rw [hm]
    congr 1
    refine Multiset.filter_congr fun g hg => not_congr ?_
    constructor
    · intro hmem
      obtain ⟨t, ht, hpba⟩ := mem_map.mp hmem
      have h0 := (hx.tombs t ht).2.1
      rwa [hpba, hmed] at h0
    · intro h0
      obtain ⟨e, he, rfl⟩ := mem_records.mp hg
      exact hx.filed e he (by rwa [hmed])

/-- A recovery that ends has prepared a store, and its loops are over. -/
theorem recover_scanInv (hb : c.bits ≤ 32) (hdev : DeviceFits c) {s s' : Store c}
    {order : List Nat} {allocs : Nat → List TableAlloc} (hnd : order.Nodup)
    (hlt : ∀ j ∈ order, j < c.segNr) (hfit : s.ScanFits order)
    (hok : s.recoverShiftsOk order i allocs = true) (h : s.recover order i allocs = .ok s') :
    ∃ s2 x, Prepared s s2 ∧ ScanInv s2 (order.flatMap s2.scanned) x ∧
      s' = x.tombstones.foldl dropTombstone { x.store with segAllocNr := x.maxSegAllocNr } ∧
      ∀ {P Q}, Along s2 P Q →
        (s.recoverEach P order i allocs = true ↔ Q [] (order.flatMap s2.scanned)) := by
  revert h
  fun_cases recover s order i allocs with
  | case1 | case2 => rintro ⟨⟩
  | case3 s1 h1 s2 h2 =>
    have hp := prepared_of_firstGrow h1 h2
    simp only [recoverShiftsOk, recoverEach, h1, h2] at hok ⊢
    fun_cases crashRecovery s2 order allocs with
    | case1 | case2 => rintro ⟨⟩
    | case3 x h3 hpos =>
      rintro ⟨⟩
      have hstart : ScanInv s2 (([] : List Nat).flatMap s2.scanned) ⟨s2, [], 0, 0⟩ := hp.start hb
      obtain ⟨hx, hiff⟩ := recoverSegments_scanInv hstart (by simpa using hnd)
        (fun j hj g hg => hp.restorable hdev (hlt j hj) hg (by
          rw [hp.media]
          exact hfit j hj g (by rwa [← hp.scanned]))) hok h3
      exact ⟨s2, x, hp, hx, rfl, hiff⟩

theorem recover_spec (hb : c.bits ≤ 32) (hdev : DeviceFits c) {s s' : Store c} {order : List Nat}
    {allocs : Nat → List TableAlloc} (hnd : order.Nodup) (hlt : ∀ j ∈ order, j < c.segNr)
    (hfit : s.ScanFits order) (hok : s.recoverShiftsOk order i allocs = true)
    (h : s.recover order i allocs = .ok s') : Recovered s order s' := by
  obtain ⟨s2, x, hp, hx, rfl, -⟩ := recover_scanInv hb hdev hnd hlt hfit hok h
  exact hx.finish hp.media hp.scanned hp.elected

end Store
end UDepot
