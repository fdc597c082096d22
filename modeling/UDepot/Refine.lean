import UDepot.StoreDel

/-! The store as a finite map. A run interleaves puts, dels, relocations and purges
of the garbage collector, shifts, growths and the work of the allocator; beside the
store it keeps the map that the successful puts and dels describe. In every run
whose steps meet `StepOk`, `get` and `exists` answer from that map.

Without the condition on purges they do not: the purge of a tombstone leaves a gap
that hides the entries of its bucket behind it. -/

namespace UDepot.Store
open Bytes UDepotMap Directory Config Relation Option

variable {c : Config}

/-! ## The garbage collector -/

/-- A tombstone that is purged has no live entry of its window behind it. -/
def PurgeOk (s : Store c) (start : Nat) : Prop :=
  ∀ q, (s.table (s.keyHash start)).lookupPba (s.keyHash start) start = some q →
    ((s.table (s.keyHash start)).ht q).deleted = true →
      (s.table (s.keyHash start)).Unspanned q

variable {h q start i : Nat} {s : Store c} {w w' : Store c × KvMap}

theorem lookupPba_eq_some {t : UDepotMap c.bits} {pba : Nat} (hl : t.lookupPba h pba = some q) :
    InWindow c.bits h q ∧ (t.ht q).used = true ∧ (t.ht q).pba = pba := by
  have hf := Scan.findFrom_eq_some.mp hl
  have hhit := hf.hit
  simp only [Bool.and_eq_true, beq_iff_eq] at hhit
  exact ⟨⟨hf.ge, by have := hf.lt; omega⟩, hhit.1, hhit.2.symm⟩

/-- A live entry found by its address is the entry of the key of its record. -/
theorem holds_of_lookupPba (inv : s.Inv)
    (hl : (s.table (s.keyHash start)).lookupPba (s.keyHash start) start = some q)
    (hd : ((s.table (s.keyHash start)).ht q).deleted = false) :
    Holds s (c.recKey s.media start) q := by
  obtain ⟨hw, hu, hp⟩ := lookupPba_eq_some hl
  have hpl := inv.placed _ (table_lt inv.toBase (s.keyHash start)) q hw.lt hu
  refine ⟨⟨hw, (HashEntry.live_iff _).mpr ⟨hu, hd⟩, ?_⟩, ?_⟩
  · have hk : (s.table (s.keyHash start)).entryKeyfp q =
        hashToKeyfp c.bits (s.keyHash ((s.table (s.keyHash start)).ht q).pba) := hpl.keyfp
    rw [hp] at hk
    exact hk.symm
  · change c.recKey s.media ((s.table (s.keyHash start)).ht q).pba = _
    rw [hp]

/-- The store after the record at `start` was copied to grain `g`. -/
def relocated (s s1 : Store c) (start g : Nat) : Store c :=
  { s1 with
    media := write s1.media (g * c.grainSize)
      (c.relocBytes s.media start (s1.segTs (c.grainToSegIdx g))) }

theorem reloc_ready {s1 : Store c} (inv : s.Base) (hdev : DeviceFits c) {g : Nat} {e : Content}
    (he : e ∈ s.dir.entries) (hp : e.pba = start) (hd : e.deleted = false)
    (hk : e.kvSize ≤ maxKvSize)
    (ha : s.allocateGrains i (c.recGrains s.media start) = some (g, s1)) :
    Frame s (relocated s s1 start g) ∧
      Ready (relocated s s1 start g) (c.recKey s.media start) (c.recVal s.media start) g := by
  subst hp
  have hrec := inv.recs e he
  have hle := rec_le_grains hrec.fit
  have hlen := relocBytes_length s.media e.pba (s1.segTs (c.grainToSegIdx g)) hrec.fit
  have hf : Frame s (relocated s s1 e.pba g) := alloc_write_frame inv ha (hlen.le.trans hle)
  refine ⟨hf, ?_⟩
  unfold relocated
  obtain ⟨hst, hfit, rfl, _, hm, _, _, hnr, hfree⟩ := allocateGrains_eq_some ha
  have hseg := inv.segs i (by rw [hst]; simp)
  have hpos : 0 < c.recGrains s.media e.pba := kvTotGrainsGet_pos _ _
  obtain ⟨hidx, hend⟩ := allocated_in_seg hseg hpos hfit
  obtain ⟨hhdr, hkey, hval⟩ := reloc_rec s.media e.pba (s.handedOut i)
    (s1.segTs (c.grainToSegIdx (s.handedOut i))) hrec.fit
  have hgr : c.recGrains (write s.media (s.handedOut i * c.grainSize)
      (c.relocBytes s.media e.pba (s1.segTs (c.grainToSegIdx (s.handedOut i))))) (s.handedOut i) =
      c.recGrains s.media e.pba := by
    unfold recGrains
    rw [hhdr]
  rw [hm]
  refine ⟨⟨hkey, ?_, ?_, ?_, ?_, ?_, ?_⟩, hval, ?_⟩
  · dsimp only
    rw [hhdr]
    exact hrec.fit
  · dsimp only
    rw [hhdr]
    exact hrec.key_pos
  · dsimp only
    rw [hgr, hhdr]
    have hmax := (hrec.reach hd).trans (Nat.mul_le_mul_right c.grainSize hk)
    rcases min_choice (c.recGrains s.media e.pba) maxKvSize with hmin | hmin
    · rw [hmin]
      unfold putKeyvalPrefixSize
      omega
    · rw [hmin]
      exact hmax
  · rw [hidx]
    exact hfree
  · dsimp only
    rw [hgr, hidx]
    change _ ≤ i * c.segSize + (s1.seg i).nr3 - c.segMdSize
    rw [hnr]
    have := hseg.md_le
    unfold handedOut
    omega
  · have hmul : (i + 1) * c.segSize ≤ c.segNr * c.segSize :=
      Nat.mul_le_mul_right c.segSize hseg.lt
    have hbound := hmul.trans hdev
    omega
  · dsimp only
    rw [hgr, recKey, recVal, read_length, read_length]
    rfl

/-- What the relocation of a live record finds, and what it leaves behind before the entry is
updated. -/
structure Relocates (s s1 : Store c) (start q g : Nat) : Prop where
  pba : ((s.table (s.keyHash start)).ht q).pba = start
  holds : Holds s (c.recKey s.media start) q
  frame : Frame s (relocated s s1 start g)
  ready : Ready (relocated s s1 start g) (c.recKey s.media start) (c.recVal s.media start) g
  grains : c.recGrains (relocated s s1 start g).media g = c.recGrains s.media start
  table : (relocated s s1 start g).table (s.keyHash start) = s.table (s.keyHash start)

theorem relocates {s1 : Store c} (inv : s.Inv) (hdev : DeviceFits c) {g : Nat}
    (hl : (s.table (s.keyHash start)).lookupPba (s.keyHash start) start = some q)
    (hd : ((s.table (s.keyHash start)).ht q).deleted = false)
    (ha : s.allocateGrains i (c.recGrains s.media start) = some (g, s1)) :
    Relocates s s1 start q g := by
  obtain ⟨_, _, hp⟩ := lookupPba_eq_some hl
  have hh := holds_of_lookupPba inv hl hd
  have hmem := Multiset.mem_of_mem_filter (match_mem inv hh.isMatch)
  have hkv : ((s.table (s.keyHash start)).ht q).kvSize ≤ maxKvSize := by
    have := ((s.table (s.keyHash start)).ht q).kv_lt
    unfold maxKvSize
    omega
  obtain ⟨hf, hr⟩ := reloc_ready inv.toBase hdev hmem hp hd hkv ha
  refine ⟨hp, hh, hf, hr, ?_, ?_⟩
  · rw [← hr.grains, recKey, recVal, read_length, read_length]
    rfl
  · unfold table
    rw [hf.dir]

/-- What one call of the callback can do: nothing, purge a tombstone, or relocate
the record of a live entry. -/
theorem localGcCallback_cases {s' : Store c} (h : s.localGcCallback start i = some s') :
    ((s.table (s.keyHash start)).lookupPba (s.keyHash start) start = none ∧ s' = s) ∨
    (∃ q, (s.table (s.keyHash start)).lookupPba (s.keyHash start) start = some q ∧
      ((s.table (s.keyHash start)).ht q).deleted = true ∧
      s' = (s.invalidateGrains ((s.table (s.keyHash start)).ht q).pba
        (c.recGrains s.media start)).setTable (s.keyHash start)
          ((s.table (s.keyHash start)).purge q)) ∨
    ∃ q g s1, (s.table (s.keyHash start)).lookupPba (s.keyHash start) start = some q ∧
      ((s.table (s.keyHash start)).ht q).deleted = false ∧
      s.allocateGrains i (c.recGrains s.media start) = some (g, s1) ∧
      s' = ((relocated s s1 start g).setTable (s.keyHash start)
        ((s.table (s.keyHash start)).updateInplace q (s.keyHash start)
          (c.recGrains s.media start) g)).invalidateGrains
            ((s.table (s.keyHash start)).ht q).pba (c.recGrains s.media start) := by
  revert h
  fun_cases localGcCallback s start i with
  | case1 h' t hl =>
    rintro ⟨⟩
    exact .inl ⟨hl, rfl⟩
  | case2 md h' t q hl n hd =>
    rintro ⟨⟩
    exact .inr (.inl ⟨q, hl, hd, rfl⟩)
  | case3 => rintro ⟨⟩
  | case4 md h' t q hl n hd g s1 ha =>
    rintro ⟨⟩
    exact .inr (.inr ⟨q, g, s1, hl, Bool.eq_false_iff.mpr hd, ha, rfl⟩)

theorem purge_spec (inv : s.Inv) (hq : q < entryNr c.bits) (hun : (s.table h).Unspanned q)
    (hd : ((s.table h).ht q).deleted = true) {M : List UInt8 → Option (List UInt8)}
    (hM : s.Represents M) :
    (s.setTable h ((s.table h).purge q)).Inv ∧
      (s.setTable h ((s.table h).purge q)).Represents M := by
  have st := purge_slotStep inv hq hun
  have hdead : ((s.table h).ht q).live = false := by simp [HashEntry.live, hd]
  have hlive := purge_live inv.toBase st hdead
  refine ⟨st.inv inv.toBase (fun j hj _ => inv.noGap j hj) ?_, fun k v => ?_⟩
  · rw [hlive]
    exact inv.keys
  · rw [hM, hlive]
    rfl

theorem localGcCallback_spec {s' : Store c} (inv : s.Inv) (hdev : DeviceFits c)
    (hok : s.PurgeOk start) (h : s.localGcCallback start i = some s')
    {M : List UInt8 → Option (List UInt8)} (hM : s.Represents M) : s'.Inv ∧ s'.Represents M := by
  rcases localGcCallback_cases h with ⟨_, rfl⟩ | ⟨q, hl, hd, rfl⟩ | ⟨q, g, s1, hl, hd, ha, rfl⟩
  · exact ⟨inv, hM⟩
  · obtain ⟨hw, _, _⟩ := lookupPba_eq_some hl
    have hf := invalidateGrains_frame inv.toBase ((s.table (s.keyHash start)).ht q).pba
      (c.recGrains s.media start)
    exact purge_spec (hf.inv inv) hw.lt (hok q hl hd) hd (hf.represents hM)
  · have r := relocates inv hdev hl hd ha
    have st := update_spec (r.frame.inv inv) r.ready (r.holds.frame r.frame inv)
    have h1 := st.inv
    have h2 := st.represents r.ready.val (r.frame.represents hM)
    -- the map already has this value at this key
    have hkey : M (c.recKey s.media start) = some (c.recVal s.media start) :=
      (hM _ _).mpr ⟨_, match_mem inv r.holds.isMatch, r.holds.key,
        congrArg (c.recVal s.media) r.pba⟩
    rw [← hkey, Function.update_eq_self] at h2
    have hgr := r.ready.grains.trans r.grains
    change ((relocated s s1 start g).setTable (s.keyHash start)
      (((relocated s s1 start g).table (s.keyHash start)).updateInplace q
        (s.keyHash start) _ g)).Inv
      at h1
    change ((relocated s s1 start g).setTable (s.keyHash start)
      (((relocated s s1 start g).table (s.keyHash start)).updateInplace q (s.keyHash start) _
        g)).Represents M at h2
    rw [hgr, r.table] at h1 h2
    have hfi := invalidateGrains_frame h1.toBase ((s.table (s.keyHash start)).ht q).pba
      (c.recGrains s.media start)
    exact ⟨hfi.inv h1, hfi.represents h2⟩

/-! ## Runs -/

abbrev KvMap := List UInt8 → Option (List UInt8)

inductive Event where
  | put (k v : List UInt8) (op : PutOp) (as : List PutAttempt)
  | del (k : List UInt8) (segs : List Nat)
  | gc (start i : Nat)
  | shift (h : Nat)
  | grow (allocs : List TableAlloc)
  | allocateSegment (i : Nat)
  | recycleSegment (i : Nat)
  | putFreeSeg (i : Nat)
  | ioFail (i len : Nat) (bs : List UInt8)

/-- One event, with the map that the successful puts and dels describe. -/
def exec (w : Store c × KvMap) : Event → Option (Store c × KvMap)
  | .put k v op as =>
    let r := w.1.put k v op as
    some (r.1, if r.2 = .ok then Function.update w.2 k (some v) else w.2)
  | .del k segs =>
    let r := w.1.del k segs
    some (r.1, if r.2 = .ok then Function.update w.2 k none else w.2)
  | .gc start i => (w.1.localGcCallback start i).map (·, w.2)
  | .shift h =>
    if (w.1.table h).nextFree h = none then
      some (w.1.setTable h ((w.1.table h).tryShift h).1, w.2)
    else none
  | .grow allocs => some ((w.1.grow allocs).1, w.2)
  | .allocateSegment i => (w.1.allocateSegment i .kv).map (·, w.2)
  | .recycleSegment i => some (w.1.recycleSegment i, w.2)
  | .putFreeSeg i => (w.1.putFreeSeg i).map (·, w.2)
  | .ioFail i len bs => (w.1.ioFail i len bs).map (·, w.2)

/-- The condition on the state before an event: sizes are in range, a purge hides no
entry, a shift displaces no tombstone and leaves no gap, the directory has an index
bit left to grow by, and a segment is released only when nothing points into it. -/
def StepOk (s : Store c) : Event → Prop
  | .put k v op as => PutSizes c k v ∧ PutLoopOk s k v op as
  | .del k _ => PutSizes c k []
  | .gc start _ => s.PurgeOk start
  | .shift h => (s.table h).tryShiftClean h = true ∧ (s.table h).tryShiftKeeps false h = true
  | .grow _ => s.WidthOk
  | .putFreeSeg i => ∀ e ∈ s.dir.entries, c.grainToSegIdx e.pba ≠ i
  | _ => True

def Step (w w' : Store c × KvMap) : Prop := ∃ ev, exec w ev = some w'

def OkStep (w w' : Store c × KvMap) : Prop := ∃ ev, w.1.StepOk ev ∧ exec w ev = some w'

def execAll (w : Store c × KvMap) : List Event → Option (Store c × KvMap)
  | [] => some w
  | ev :: rest => (exec w ev).bind fun w' => execAll w' rest

theorem execAll_run {evs : List Event} (h : execAll w evs = some w') :
    ReflTransGen Step w w' := by
  induction evs generalizing w with
  | nil =>
    cases h
    exact .refl
  | cons ev rest ih =>
    obtain ⟨w1, h1, h2⟩ := bind_eq_some_iff.mp h
    exact .head ⟨ev, h1⟩ (ih h2)

theorem shift_spec (inv : s.Inv) (hn : (s.table h).nextFree h = none)
    (hc : (s.table h).tryShiftClean h = true) (hk : (s.table h).tryShiftKeeps false h = true)
    {M : KvMap} (hM : s.Represents M) :
    (s.setTable h ((s.table h).tryShift h).1).Inv ∧
      (s.setTable h ((s.table h).tryShift h).1).Represents M := by
  obtain ⟨hb, hent, hother⟩ := shift_base inv hn hc
  have hlive : (s.setTable h ((s.table h).tryShift h).1).dir.liveEntries = s.dir.liveEntries :=
    congrArg (Multiset.filter fun x : Content => x.deleted = false) hent
  have hg : ((s.table h).tryShift h).1.NoGap := by
    rcases tryShift_noGap (table_wf inv.toBase h) (table_noGap inv h) hn hk with hg | ⟨hf, _⟩
    · exact hg
    · cases hf
  refine ⟨inv_of_shift hb hother hg, fun k v => ?_⟩
  rw [hM, hlive]
  rfl

theorem step_refines (hdev : DeviceFits c) (inv : w.1.Inv) (hM : w.1.Represents w.2)
    (h : OkStep w w') : w'.1.Inv ∧ w'.1.Represents w'.2 := by
  obtain ⟨ev, hok, he⟩ := h
  cases ev with
  | put k v op as =>
    obtain ⟨hi, hm⟩ := put_spec inv hdev hok.1 hok.2 hM
    cases he
    refine ⟨hi, ?_⟩
    dsimp only
    split
    · rename_i hrc
      rw [hrc] at hm
      exact hm.1
    · rename_i hne
      cases hrc : (w.1.put k v op as).2 with
      | ok => exact absurd hrc hne
      | _ =>
        rw [hrc] at hm
        exact hm
  | del k segs =>
    obtain ⟨hi, hm⟩ := del_spec inv hdev hok segs hM
    cases he
    refine ⟨hi, ?_⟩
    dsimp only
    split
    · rename_i hrc
      rw [hrc] at hm
      exact hm.1
    · rename_i hne
      cases hrc : (w.1.del k segs).2 with
      | ok => exact absurd hrc hne
      | enodata =>
        rw [hrc] at hm
        exact hm.1
      | enospc =>
        rw [hrc] at hm
        exact hm
  | gc start i =>
    obtain ⟨s', hs, rfl⟩ := map_eq_some_iff.mp he
    exact localGcCallback_spec inv hdev hok hs hM
  | shift h =>
    unfold exec at he
    dsimp only at he
    split at he
    · rename_i hn
      cases he
      exact shift_spec inv hn hok.1 hok.2 hM
    · cases he
  | grow allocs =>
    cases he
    have hg := grow_spec inv hok allocs
    exact ⟨hg.inv, hg.represents hM⟩
  | allocateSegment i =>
    obtain ⟨s', hs, rfl⟩ := map_eq_some_iff.mp he
    have hf := allocateSegment_frame inv.toBase hs
    exact ⟨hf.inv inv, hf.represents hM⟩
  | recycleSegment i =>
    cases he
    have hf := recycleSegment_frame inv.toBase i
    exact ⟨hf.inv inv, hf.represents hM⟩
  | putFreeSeg i =>
    obtain ⟨s', hs, rfl⟩ := map_eq_some_iff.mp he
    have hf := putFreeSeg_frame inv.toBase hok hs
    exact ⟨hf.inv inv, hf.represents hM⟩
  | ioFail i len bs =>
    obtain ⟨s', hs, rfl⟩ := map_eq_some_iff.mp he
    have hf := ioFail_frame inv.toBase hs
    exact ⟨hf.inv inv, hf.represents hM⟩

def OneTable (s : Store c) : Prop := s.dir = ⟨0, fun _ => UDepotMap.init c.bits c.bits_lt⟩

theorem OneTable.entries (h : s.OneTable) : s.dir.entries = 0 := by
  rw [OneTable] at h
  rw [h]
  exact Finset.sum_eq_zero fun _ _ => content_of_unused rfl

theorem OneTable.inv (h : s.OneTable) (hb : c.bits ≤ 32)
    (hsegs : ∀ i, (s.seg i).state ≠ .free → s.SegOk i) : s.Inv := by
  have he := h.entries
  rw [OneTable] at h
  refine ⟨⟨hb, ?_, fun j _ => ?_, ?_, ?_, ?_, hsegs⟩, fun j _ => ?_⟩
  · rw [h]
    exact Nat.zero_le _
  · rw [h]
    exact init_wf _ hb
  · intro j _ q _ hu
    rw [h] at hu
    simp [UDepotMap.init] at hu
  · intro e hm
    rw [he] at hm
    exact absurd hm (Multiset.notMem_zero e)
  · rw [liveEntries, he]
    simp
  · rw [h]
    exact init_noGap _

theorem init_entries (c : Config) (m : Nat → UInt8) (i : Nat) : (init c m i).dir.entries = 0 :=
  OneTable.entries (s := init c m i) rfl

theorem init_inv {c : Config} (hb : c.bits ≤ 32) (m : Nat → UInt8) (hi : i < c.segNr) :
    (init c m i).Inv := by
  refine OneTable.inv (s := init c m i) rfl hb fun j hj => ?_
  by_cases hji : j = i
  · subst hji
    exact ⟨hi, by simpa [init] using c.md_lt.le, by simp [init]⟩
  · simp [init, hji] at hj

theorem init_represents (c : Config) (m : Nat → UInt8) (i : Nat) :
    (init c m i).Represents fun _ => none := by
  intro k v
  rw [liveEntries, init_entries]
  simp

theorem run_inv (hb : c.bits ≤ 32) (hdev : DeviceFits c) {m : Nat → UInt8} (hi : i < c.segNr)
    (h : ReflTransGen OkStep (init c m i, fun _ => none) w) :
    w.1.Inv ∧ w.1.Represents w.2 := by
  induction h with
  | refl => exact ⟨init_inv hb m hi, init_represents c m i⟩
  | tail _ hs ih => exact step_refines hdev ih.1 ih.2 hs

/-- In every run whose steps meet `StepOk` the store answers as the finite map of its
successful puts and dels: `get` and `exists` read the map, CREATE succeeds on absent
keys only, and REPLACE and `del` on present keys only. -/
theorem run_refines (hb : c.bits ≤ 32) (hdev : DeviceFits c) {m : Nat → UInt8} {i : Nat}
    (hi : i < c.segNr) {s : Store c} {M : KvMap}
    (h : ReflTransGen OkStep (init c m i, fun _ => none) (s, M)) :
    (∀ k v, s.get k = .ok v ↔ M k = some v) ∧
      (∀ k n, s.exists' k = .ok n ↔ ∃ v, M k = some v ∧ v.length = n) ∧
      (∀ k v op as, s.StepOk (.put k v op as) → (s.put k v op as).2 = .ok →
        (op = .create → M k = none) ∧ (op = .replace → M k ≠ none)) ∧
      ∀ k segs, s.StepOk (.del k segs) → (s.del k segs).2 = .ok → M k ≠ none := by
  obtain ⟨inv, hM⟩ := run_inv hb hdev hi h
  refine ⟨get_eq_ok inv hM, exists_eq_ok inv hM, fun k v op as hok hrc => ?_,
    fun k segs hok hrc => ?_⟩
  · have hm := (put_spec inv hdev hok.1 hok.2 hM).2
    rw [hrc] at hm
    exact hm.2
  · have hm := (del_spec inv hdev hok segs hM).2
    rw [hrc] at hm
    exact hm.2

/-! ## Checking the condition of a step -/

/-- A computable check of `StepOk` for the events that neither shift nor grow. -/
def stepCheck (s : Store c) : Event → Bool
  | .put k v _ [a] =>
    putSizesCheck c k v && a.grows.isEmpty &&
      (s.localPutMbuffIo a.seg k v).all fun x => x.2.lookupMbuffPut k != .enospc
  | .del k _ => putSizesCheck c k []
  | .gc start _ =>
    let t := s.table (s.keyHash start)
    (t.lookupPba (s.keyHash start) start).all fun q => !(t.ht q).deleted ||
      decide (∀ r, r < entryNr c.bits → (t.ht r).live = true → q < r → q < t.home r)
  | .allocateSegment _ => true
  | .recycleSegment _ => true
  | .putFreeSeg i => decide (∀ e ∈ s.dir.entries, c.grainToSegIdx e.pba ≠ i)
  | .ioFail _ _ _ => true
  | _ => false
where
  putSizesCheck (c : Config) (k v : List UInt8) : Bool :=
    decide (0 < k.length ∧ k.length < 2 ^ 16 ∧ k.length + v.length < 2 ^ 32 ∧
      putKeyvalPrefixSize + k.length ≤ maxKvSize * c.grainSize)

theorem putSizes_of_check {k v : List UInt8} (h : stepCheck.putSizesCheck c k v = true) :
    PutSizes c k v := by
  obtain ⟨h1, h2, h3, h4⟩ := of_decide_eq_true h
  exact ⟨⟨h1, h2, h3⟩, h4⟩

theorem putLoopOk_of_room {k v : List UInt8} {op : PutOp} {a : PutAttempt} (hg : a.grows = [])
    (hroom : ∀ g s1, s.localPutMbuffIo a.seg k v = some (g, s1) → s1.lookupMbuffPut k ≠ .enospc) :
    PutLoopOk s k v op [a] := by
  intro g s1 hio
  refine ⟨?_, fun _ _ _ => trivial⟩
  rw [hg]
  exact fun hn => absurd hn (hroom g s1 hio)

theorem stepOk_of_check (inv : s.Inv) {ev : Event} (h : s.stepCheck ev = true) : s.StepOk ev := by
  cases ev with
  | put k v op as =>
    match as with
    | [] | _ :: _ :: _ => cases h
    | [a] =>
      simp only [stepCheck, Bool.and_eq_true, List.isEmpty_iff] at h
      refine ⟨putSizes_of_check h.1.1, putLoopOk_of_room h.1.2 fun g s1 hio => ?_⟩
      have hall := h.2
      rw [hio] at hall
      simpa using hall
  | del k segs => exact putSizes_of_check h
  | gc start i =>
    intro q hq hd
    simp only [stepCheck, hq, all_some, hd, Bool.not_true, Bool.false_or,
      decide_eq_true_eq] at h
    exact unspanned_of_bounded (table_wf inv.toBase _) h
  | shift h' | grow allocs => cases h
  | allocateSegment i | recycleSegment i => trivial
  | putFreeSeg i => exact (decide_eq_true_iff (p := ∀ e ∈ s.dir.entries, _)).mp h
  | ioFail i len bs => trivial

def execChecked (w : Store c × KvMap) : List Event → Option (Store c × KvMap)
  | [] => some w
  | ev :: rest =>
    if w.1.stepCheck ev then (exec w ev).bind fun w' => execChecked w' rest else none

theorem execChecked_run (hdev : DeviceFits c) {evs : List Event} (h : execChecked w evs = some w')
    (inv : w.1.Inv) (hM : w.1.Represents w.2) : ReflTransGen OkStep w w' := by
  induction evs generalizing w with
  | nil =>
    cases h
    exact .refl
  | cons ev rest ih =>
    unfold execChecked at h
    split at h
    · rename_i hc
      obtain ⟨w1, h1, h2⟩ := bind_eq_some_iff.mp h
      have hs : OkStep w w1 := ⟨ev, stepOk_of_check inv hc, h1⟩
      obtain ⟨inv1, hM1⟩ := step_refines hdev inv hM hs
      exact .head hs (ih h2 inv1 hM1)
    · cases h

/-! ## Two keys of one hash -/

/-- A small store in which all keys collide. -/
def colliding : Config :=
  .ofSizes 4 32 8 1 4 (fun _ => 5) (fun _ _ => 0) (Eq.refl true)

/-- The collector walks the segment of two keys, the first of which was deleted:
the second is relocated, then the tombstone of the first is purged. -/
def purgeTrace : List Event :=
  [.allocateSegment 1, .put [1] [10] .normal [⟨1, [], 0⟩], .put [2] [20] .normal [⟨1, [], 0⟩],
    .del [1] [1], .recycleSegment 1, .allocateSegment 2, .gc 8 2, .gc 9 2, .gc 10 2]

/-- Here the second key is the deleted one: no entry sits behind its tombstone. -/
def purgeLastTrace : List Event :=
  [.allocateSegment 1, .put [1] [10] .normal [⟨1, [], 0⟩], .put [2] [20] .create [⟨1, [], 0⟩],
    .del [2] [1], .recycleSegment 1, .allocateSegment 2, .gc 8 2, .gc 9 2, .gc 10 2]

theorem purge_last_keeps_key : ∃ s M,
    ReflTransGen OkStep (init colliding (fun _ => 0) 0, fun _ => none) (s, M) ∧
      M [1] = some [10] ∧ s.get [1] = .ok [10] := by
  have h : ((execChecked (init colliding (fun _ => 0) 0, fun _ => none) purgeLastTrace).map
      fun w => w.2 [1]) = some (some [10]) := by decide +kernel
  obtain ⟨⟨s, M⟩, hw, hk⟩ := map_eq_some_iff.mp h
  have hrun := execChecked_run (by decide) hw (init_inv (by decide) _ (by decide))
    (init_represents _ _ _)
  have href := run_refines (by decide) (by decide) (by decide) hrun
  exact ⟨s, M, hrun, hk, (href.1 [1] [10]).mpr hk⟩

theorem purge_hides_key : ∃ s M,
    ReflTransGen Step (init colliding (fun _ => 0) 0, fun _ => none) (s, M) ∧
      M [2] = some [20] ∧ s.get [2] = .enodata := by
  have h : ((execAll (init colliding (fun _ => 0) 0, fun _ => none) purgeTrace).map
      fun w => (w.2 [2], w.1.get [2])) = some (some [20], .enodata) := by decide +kernel
  obtain ⟨w, hw, heq⟩ := map_eq_some_iff.mp h
  rw [Prod.mk.injEq] at heq
  exact ⟨w.1, w.2, execAll_run hw, heq.1, heq.2⟩

end UDepot.Store
