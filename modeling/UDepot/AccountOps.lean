import UDepot.Account

/-! The operations as moves of the ledger, and the books over whole runs. A put over
a tombstone gives back the grains of a tombstone without a key, a growth may drop
tombstones or a table that it could not map, and a del that tries again keeps the
grains of its first tombstone: these are the leaks, and there are no others. -/

namespace UDepot.Store
open Bytes UDepotMap Directory Config Ledger Multiset

variable {c : Config}

/-! ## Put -/

/-- If the slot holds a tombstone, its record takes as many grains as one without
a key. -/
def SlotExact (s : Store c) (h q : Nat) : Prop :=
  ((s.table h).ht q).deleted = true →
    c.recGrains s.media ((s.table h).ht q).pba = c.kvTotGrainsGet 0 0

theorem kvTotGrainsGet_zero_le {ks vs : Nat} (h : SizesFit ks vs) :
    c.kvTotGrainsGet 0 0 ≤ c.kvTotGrainsGet ks vs := by
  rw [kvTotGrainsGet_eq h, kvTotGrainsGet_eq (show SizesFit 0 0 by unfold SizesFit; decide)]
  unfold udivRoundUp
  apply Nat.div_le_div_right
  omega

theorem kvAdded_books (s : Store c) (ks vs : Nat) (A : Multiset (Nat × Nat)) :
    Books True s A (s.kvAdded ks vs) A :=
  Moves.of_counts rfl fun _ h => h.congr rfl rfl

theorem kvRemoved_books (s : Store c) (ks vs : Nat) (A : Multiset (Nat × Nat)) :
    Books True s A (s.kvRemoved ks vs) A :=
  Moves.of_counts rfl fun _ h => h.congr rfl rfl

variable {s : Store c} {k v : List UInt8} {g q h i : Nat} {op : PutOp}

theorem insert_slotCharge (r : Ready s k v g) (q : Nat) :
    s.slotCharge ((s.table (c.hash k)).insert q (c.hash k) (c.kvTotGrainsGet k.length v.length) g)
        q =
      {(g, c.kvTotGrainsGet k.length v.length)} := by
  have hpba : (((s.table (c.hash k)).insert q (c.hash k) (c.kvTotGrainsGet k.length v.length) g).ht
      q).pba = g := update_pba _ r.pba_lt_pow
  have hu : (((s.table (c.hash k)).insert q (c.hash k) (c.kvTotGrainsGet k.length v.length) g).ht
      q).used = true := by
    unfold HashEntry.used
    rw [hpba]
    simpa using r.pba_lt.ne
  rw [slotCharge_of_used hu, hpba, r.grains]

theorem setMapping_insert_books (base : s.Base) (r : Ready s k v g)
    (hq : FreeSlot (s.table (c.hash k)) (c.hash k) q) :
    Books (s.SlotExact (c.hash k) q) s {(g, c.kvTotGrainsGet k.length v.length)}
      (s.setMapping (c.hash k) q false k.length v.length g ⟨0, 0, 0⟩) 0 := by
  have hset := @setTable_books c s (c.hash k) q ((s.table (c.hash k)).insert q (c.hash k)
    (c.kvTotGrainsGet k.length v.length) g) base hq.window.lt fun r hr => update_other _ _ _ _ hr
  rw [insert_slotCharge r] at hset
  simp only [setMapping, Bool.false_eq_true, ↓reduceIte]
  split
  · rename_i hd
    have hu : ((s.table (c.hash k)).ht q).used = true := by
      by_contra hn
      have := (table_wf base (c.hash k)).clean q (by simpa using hn)
      rw [this] at hd
      cases hd
    have hfit := (base.recs _ (mem_entries.mpr
      ⟨_, q, table_lt base (c.hash k), hq.window.lt, hu, rfl⟩)).fit
    rw [slotCharge_of_used hu] at hset
    have hinv := @invalidateGrains_part c (s.setTable (c.hash k) ((s.table (c.hash k)).insert q
      (c.hash k) (c.kvTotGrainsGet k.length v.length) g)) ((s.table (c.hash k)).ht q).pba
      (c.kvTotGrainsGet 0 0) (c.recGrains s.media ((s.table (c.hash k)).ht q).pba)
      (kvTotGrainsGet_zero_le hfit)
    exact ((hset.trans hinv).trans (kvAdded_books _ k.length v.length 0)).mono
      fun he : s.SlotExact (c.hash k) q => ⟨⟨trivial, he hd⟩, trivial⟩
  · rename_i hd
    have hu : ((s.table (c.hash k)).ht q).used = false := by
      have hl := hq.notLive
      simpa [HashEntry.live, hd] using hl
    rw [slotCharge_of_unused hu] at hset
    exact (hset.trans (kvAdded_books _ k.length v.length 0)).mono fun _ => ⟨trivial, trivial⟩

theorem live_slotCharge (hq : Holds s k q) :
    s.slotCharge (s.table (c.hash k)) q =
      {(((s.table (c.hash k)).ht q).pba, c.recGrains s.media ((s.table (c.hash k)).ht q).pba)} :=
  slotCharge_of_used ((HashEntry.live_iff _).mp hq.live).1

theorem updateInplace_slotCharge {n : Nat} (w : Written s k g) :
    s.slotCharge ((s.table h).updateInplace q h n g) q = {(g, c.recGrains s.media g)} := by
  have hpba : (((s.table h).updateInplace q h n g).ht q).pba = g := updateInplace_pba _ w.pba_lt_pow
  have hu : (((s.table h).updateInplace q h n g).ht q).used = true := by
    unfold HashEntry.used
    rw [hpba]
    simpa using w.pba_lt.ne
  rw [slotCharge_of_used hu, hpba]

/-- The entry of a key moves to a new record, whose grains were in flight; those of
the old record are in flight then. -/
theorem updateInplace_books (base : s.Base) {n : Nat} (w : Written s k g) (hq : Holds s k q) :
    Books True s {(g, c.recGrains s.media g)}
      (s.setTable (c.hash k) ((s.table (c.hash k)).updateInplace q (c.hash k) n g))
      {(((s.table (c.hash k)).ht q).pba, c.recGrains s.media ((s.table (c.hash k)).ht q).pba)} := by
  have h := @setTable_books c s (c.hash k) q
    ((s.table (c.hash k)).updateInplace q (c.hash k) n g) base hq.lt fun r hr => set_other _ _ hr
  rwa [updateInplace_slotCharge w, live_slotCharge hq] at h

theorem setMapping_update_books (base : s.Base) (r : Ready s k v g) (hq : Holds s k q) :
    Books True s {(g, c.kvTotGrainsGet k.length v.length)}
      (s.setMapping (c.hash k) q true k.length v.length g
        (c.readHeader s.media ((s.table (c.hash k)).ht q).pba)) 0 := by
  have hset := updateInplace_books (n := c.kvTotGrainsGet k.length v.length) base r.toWritten hq
  rw [← r.grains] at hset
  have hinv := invalidateGrains_books (s.setTable (c.hash k) ((s.table (c.hash k)).updateInplace q
    (c.hash k) (c.kvTotGrainsGet k.length v.length) g)) ((s.table (c.hash k)).ht q).pba
    (c.recGrains s.media ((s.table (c.hash k)).ht q).pba)
  simp only [setMapping, ↓reduceIte]
  have h := ((hset.trans hinv).trans (kvRemoved_books _
    (c.readHeader s.media ((s.table (c.hash k)).ht q).pba).keySize
    (c.readHeader s.media ((s.table (c.hash k)).ht q).pba).valSize 0)).trans
      (kvAdded_books _ k.length v.length 0)
  exact h.mono fun _ => ⟨⟨⟨trivial, trivial⟩, trivial⟩, trivial⟩

theorem shift_books (inv : s.Inv) (hn : (s.table h).nextFree h = none)
    (hc : (s.table h).tryShiftClean h = true) (A : Multiset (Nat × Nat)) :
    Books True s A (s.setTable h ((s.table h).tryShift h).1) A := by
  obtain ⟨_, hent, _⟩ := shift_base inv hn hc
  refine Moves.of_counts ?_ fun _ hQ => hQ.congr rfl rfl
  change (s.setTable h ((s.table h).tryShift h).1).dir.entries.map s.charge + s.tableCharges + A =
    s.dir.entries.map s.charge + s.tableCharges + A
  rw [hent]

/-- A put of `k` that inserts over a tombstone gives all its grains back. -/
structure PutExact (s : Store c) (k : List UInt8) : Prop where
  insert : ∀ q, s.lookupMbuffPut k = .enodata q → s.SlotExact (c.hash k) q
  shift : s.lookupMbuffPut k = .enospc → ∀ q,
    ((s.table (c.hash k)).tryShift (c.hash k)).2 = some q →
      (s.setTable (c.hash k) ((s.table (c.hash k)).tryShift (c.hash k)).1).SlotExact (c.hash k) q

def unmapped (rc : PutRc) (x : Nat × Nat) : Multiset (Nat × Nat) := if rc = .ok then 0 else {x}

theorem putShifted_books (inv : s.Inv) (op : PutOp) (r : Ready s k v g)
    (hl : s.lookupMbuffPut k = .enospc) (hn : (s.table (c.hash k)).nextFree (c.hash k) = none)
    (hc : (s.table (c.hash k)).tryShiftClean (c.hash k) = true) :
    Books (s.PutExact k) s {(g, c.kvTotGrainsGet k.length v.length)} (s.putShifted k v g op).1
      (unmapped (s.putShifted k v g op).2 (g, c.kvTotGrainsGet k.length v.length)) := by
  have hsh := shift_books inv hn hc {(g, c.kvTotGrainsGet k.length v.length)}
  have hres := tryShift_result (table_wf inv.toBase (c.hash k)) hn
  obtain ⟨hb, _, _⟩ := shift_base inv hn hc
  have hr1 : Ready (s.setTable (c.hash k) ((s.table (c.hash k)).tryShift (c.hash k)).1) k v g :=
    r.congr rfl (fun _ h => h) fun _ _ => le_rfl
  have hex : s.PutExact k → ∀ q, ((s.table (c.hash k)).tryShift (c.hash k)).2 = some q →
      (s.setTable (c.hash k) ((s.table (c.hash k)).tryShift (c.hash k)).1).SlotExact (c.hash k) q :=
    fun he => he.shift hl
  unfold putShifted
  generalize (s.table (c.hash k)).tryShift (c.hash k) = res at *
  obtain ⟨t, o⟩ := res
  cases o with
  | none => exact hsh.mono fun _ => trivial
  | some q =>
    dsimp only
    split
    · exact hsh.mono fun _ => trivial
    · have hins := setMapping_insert_books hb hr1 (freeSlot_of_shift hres)
      exact (hsh.trans hins).mono fun he => ⟨trivial, hex he q rfl⟩

theorem localPutMbuff_books (inv : s.Inv) (r : Ready s k v g) (hs : s.ShiftOk k op) :
    Books (s.PutExact k) s {(g, c.kvTotGrainsGet k.length v.length)} (s.localPutMbuff k v g op).1
      (unmapped (s.localPutMbuff k v g op).2 (g, c.kvTotGrainsGet k.length v.length)) := by
  have hmeans := lookupMbuffPut_means inv k
  cases hl : s.lookupMbuffPut k with
  | enodata q =>
    rw [hl] at hmeans
    simp only [localPutMbuff, hl]
    split
    · exact (Moves.refl _ _).mono fun _ => trivial
    · exact (setMapping_insert_books inv.toBase r hmeans.1).mono fun he => he.insert q hl
  | eexist q md =>
    rw [hl] at hmeans
    obtain ⟨hq, rfl⟩ := hmeans
    simp only [localPutMbuff, hl]
    split
    · exact (Moves.refl _ _).mono fun _ => trivial
    · split
      · exact (setMapping_update_books inv.toBase r hq).mono fun _ => trivial
      · exact (Moves.refl _ _).mono fun _ => trivial
  | enospc =>
    rw [hl] at hmeans
    rw [localPutMbuff_enospc hl]
    exact putShifted_books inv op r hl hmeans.1 (hs hl).1

/-! ## Growth -/

def tablesInFlight (c : Config) (gs : List Nat) : Multiset (Nat × Nat) :=
  (gs : Multiset Nat).map fun g => (g, tableGrains c)

theorem allocateTable_books {s s1 : Store c} (base : s.Base) {i g : Nat}
    (h : s.allocateTable i = some (g, s1)) : Books True s 0 s1 {(g, tableGrains c)} := by
  obtain ⟨s0, h0, h1⟩ := Option.bind_eq_some_iff.mp h
  have hb0 := (allocateSegment_frame base h0).base base
  have ha := @allocWrite_books c s0 s1 hb0 i (tableGrains c) g [] h1 (by simp)
  rw [write_nil] at ha
  exact ((allocateSegment_books h0).trans ha).mono fun _ => ⟨trivial, trivial⟩

theorem allocateTable_tables {s s1 : Store c} {i g : Nat} (h : s.allocateTable i = some (g, s1)) :
    s1.tables = s.tables := by
  obtain ⟨s0, h0, h1⟩ := Option.bind_eq_some_iff.mp h
  exact (allocateGrains_tables h1).trans (allocateSegment_rest h0).2

theorem allocateTables_tables (s : Store c) (n : Nat) (allocs : List TableAlloc) :
    (s.allocateTables n allocs).2.1.tables = s.tables := by
  fun_induction allocateTables s n allocs with
  | case4 s n i rest g s1 ha r ih => exact ih.trans (allocateTable_tables ha)
  | case6 s n i rest g s1 ha => exact allocateTable_tables ha
  | _ => rfl

def AllMapped (allocs : List TableAlloc) : Prop := ∀ i, .mmapFailed i ∉ allocs

/-- The allocation of `n` tables gets to one whose `mmap` fails after its grains were
allocated. -/
def mmapLeaks (s : Store c) : Nat → List TableAlloc → Bool
  | 0, _ => false
  | _ + 1, [] => false
  | n + 1, .mapped i :: rest =>
    match s.allocateTable i with
    | none => false
    | some (_, s1) => mmapLeaks s1 n rest
  | _ + 1, .mmapFailed i :: _ => (s.allocateTable i).isSome

theorem AllMapped.mmapLeaks {allocs : List TableAlloc} (h : AllMapped allocs) (s : Store c)
    (n : Nat) : s.mmapLeaks n allocs = false := by
  fun_induction Store.mmapLeaks s n allocs with
  | case4 s n i rest g s1 ha ih => exact ih fun j hj => h j (List.mem_cons_of_mem _ hj)
  | case5 s n i rest => exact absurd (List.mem_cons_self ..) (h i)
  | _ => rfl

theorem allocateTables_books (base : s.Base) (n : Nat) (allocs : List TableAlloc) :
    Books (s.mmapLeaks n allocs = false) s 0 (s.allocateTables n allocs).2.1
      (tablesInFlight c (s.allocateTables n allocs).1) := by
  fun_induction allocateTables s n allocs with
  | case4 s n i rest g s1 ha r ih =>
    have hrest := (ih ((allocateTable_quiet base ha).frame.base base)).frame {(g, tableGrains c)}
    rw [zero_add] at hrest
    have hcons : tablesInFlight c (g :: r.1) = tablesInFlight c r.1 + {(g, tableGrains c)} := by
      rw [add_comm, singleton_add]
      rfl
    rw [hcons]
    refine ((allocateTable_books base ha).trans hrest).mono fun hm => ⟨trivial, ?_⟩
    simpa only [mmapLeaks, ha] using hm
  | case6 s n i rest g s1 ha =>
    -- the grains stay booked, without an owner
    intro F hF
    obtain ⟨L, hL, hz⟩ := allocateTable_books base ha F hF
    obtain rfl := hz trivial
    refine ⟨{(g, tableGrains c)}, ?_, fun hm => by simp [mmapLeaks, ha] at hm⟩
    rw [add_zero] at hL
    simpa [tablesInFlight] using hL
  | _ => exact (Moves.refl _ 0).mono fun _ => trivial

theorem invalidateTables_books (s : Store c) (gs : List Nat) :
    Books True s (tablesInFlight c gs) (s.invalidateTables gs) 0 := by
  induction gs generalizing s with
  | nil => exact Moves.refl s 0
  | cons g gs ih =>
    have hone := (invalidateGrains_books s g (tableGrains c)).frame (tablesInFlight c gs)
    have hcons : tablesInFlight c (g :: gs) = {(g, tableGrains c)} + tablesInFlight c gs := by
      rw [singleton_add]
      rfl
    rw [hcons]
    rw [zero_add] at hone
    exact (hone.trans (ih _)).mono fun _ => ⟨trivial, trivial⟩

theorem invalidateTables_with (s : Store c) (d : Directory c.bits) (gs l : List Nat) :
    ({ s with dir := d, tables := gs } : Store c).invalidateTables l =
      { s.invalidateTables l with dir := d, tables := gs } := by
  induction l generalizing s with
  | nil => rfl
  | cons g l ih => exact ih (s.invalidateGrains g (tableGrains c))

/-- The growth keeps every tombstone and maps every table it allocates. -/
structure GrowExact (s : Store c) (allocs : List TableAlloc) : Prop where
  mapped : AllMapped allocs
  fresh : s.dir.everyCopy copyFresh s.dir.slots s.dir.doubled = true

theorem replaceDir_books {d : Directory c.bits} {lost : Multiset Content}
    (hent : d.entries + lost = s.dir.entries) (gs : List Nat) :
    Books (lost = 0) s (tablesInFlight c gs) { s with dir := d, tables := gs }
      (tablesInFlight c s.tables) := by
  intro F hF
  refine ⟨lost.map s.charge, ?_, fun h => by rw [h]; rfl⟩
  have he : ({ s with dir := d, tables := gs } : Store c).charges + tablesInFlight c s.tables +
      lost.map s.charge + F = s.charges + tablesInFlight c gs + F := by
    have h1 : ({ s with dir := d, tables := gs } : Store c).charges =
        d.entries.map s.charge + tablesInFlight c gs := rfl
    have h2 : s.charges = s.dir.entries.map s.charge + tablesInFlight c s.tables := rfl
    rw [h1, h2, ← hent, map_add]
    abel
  rw [he]
  exact hF.congr rfl rfl

theorem grow_books (inv : s.Inv) (hw : s.WidthOk) (allocs : List TableAlloc) :
    Books (s.GrowExact allocs) s 0 (s.grow allocs).1 0 := by
  have hal := allocateTables_books inv.toBase (2 ^ (s.dir.idxBits + 1)) allocs
  have hq := allocateTables_quiet inv.toBase (2 ^ (s.dir.idxBits + 1)) allocs
  have htab : (s.allocateTables (2 ^ (s.dir.idxBits + 1)) allocs).2.1.tables = s.tables :=
    allocateTables_tables s _ allocs
  obtain ⟨d, lost, hg, _, _, _, hent, _⟩ := grow_live inv.bits_le inv.placed hw
  have hlost : s.GrowExact allocs → lost = 0 := by
    intro he
    obtain ⟨d', hg', _, hent', _⟩ := (growOk_of_fresh inv.placed hw he.fresh).1
    rw [hg] at hg'
    cases hg'
    rw [hent'] at hent
    exact add_eq_left.mp hent
  unfold grow
  rw [hg]
  generalize s.allocateTables (2 ^ (s.dir.idxBits + 1)) allocs = x at hal hq htab ⊢
  obtain ⟨gs, s1, ok⟩ := x
  cases ok with
  | false =>
    exact (hal.trans (invalidateTables_books s1 gs)).mono fun he =>
      ⟨he.mapped.mmapLeaks s _, trivial⟩
  | true =>
    have hent1 : d.entries + lost = s1.dir.entries := by
      rw [show s1.dir = s.dir from hq.frame.dir]
      exact hent
    have hrep := replaceDir_books hent1 gs
    have hinv := invalidateTables_books ({ s1 with dir := d, tables := gs } : Store c) s1.tables
    have h := (hal.trans hrep).trans hinv
    rw [invalidateTables_with, show s1.tables = s.tables from htab] at h
    exact h.mono fun he => ⟨⟨he.mapped.mmapLeaks s _, hlost he⟩, trivial⟩

/-! ## The loops -/

/-- No step of the inner loop of `put` leaks. -/
def PutMapExact (s : Store c) (k v : List UInt8) (g : Nat) (op : PutOp) :
    List (List TableAlloc) → Prop
  | [] => s.PutExact k
  | allocs :: rest => s.PutExact k ∧ ∀ s1, s.localPutMbuff k v g op = (s1, .enospc) →
      s1.GrowExact allocs ∧ ∀ s2, s1.grow allocs = (s2, true) → PutMapExact s2 k v g op rest

theorem putMap_books (inv : s.Inv) (r : Ready s k v g) {grows : List (List TableAlloc)}
    (hok : PutMapOk s k v g op grows) {M : KvMap} (hM : s.Represents M) :
    Books (s.PutMapExact k v g op grows) s {(g, c.kvTotGrainsGet k.length v.length)}
      (s.putMap k v g op grows).1
      (unmapped (s.putMap k v g op grows).2 (g, c.kvTotGrainsGet k.length v.length)) := by
  induction grows generalizing s with
  | nil => exact localPutMbuff_books inv r hok
  | cons allocs rest ih =>
    have hspec := localPutMbuff_spec inv r hok.1 hM
    have hput := localPutMbuff_books inv r hok.1
    unfold putMap
    cases hl : s.localPutMbuff k v g op with
    | mk s1 rc =>
      rw [hl] at hspec hput
      cases rc with
      | ok | einval | ealready _ => exact hput.mono fun he => he.1
      | enospc =>
        obtain ⟨hw, hrest⟩ := hok.2 s1 hl
        have hg := grow_spec hspec.inv hw allocs
        have hgb := (grow_books hspec.inv hw allocs).frame {(g, c.kvTotGrainsGet k.length v.length)}
        rw [zero_add] at hgb
        have hboth := hput.trans hgb
        dsimp only
        cases hgr : s1.grow allocs with
        | mk s2 b =>
          rw [hgr] at hg hboth
          cases b with
          | false => exact hboth.mono fun he => ⟨he.1, (he.2 s1 hl).1⟩
          | true =>
            have hnext := ih hg.inv (hg.ready (hspec.ready (by simp))) (hrest s2 hgr)
              (hg.represents hspec.meets)
            exact (hboth.trans hnext).mono fun he =>
              ⟨⟨he.1, (he.2 s1 hl).1⟩, (he.2 s1 hl).2 s2 hgr⟩

/-- No round of `put` leaks. -/
def PutLoopExact (s : Store c) (k v : List UInt8) (op : PutOp) : List PutAttempt → Prop
  | [] => True
  | a :: rest => ∀ g s1, s.localPutMbuffIo a.seg k v = some (g, s1) →
      s1.PutMapExact k v g op a.grows ∧
        ∀ s2 oldPba, s1.putMap k v g op a.grows = (s2, .ealready oldPba) →
          PutLoopExact (s2.putRetry k v g oldPba a.drained) k v op rest

theorem localPutMbuffIo_moves {s1 : Store c} (base : s.Base)
    (hio : s.localPutMbuffIo i k v = some (g, s1)) :
    Books True s 0 s1 {(g, c.ioSizeGrains k v)} := by
  obtain ⟨s0, ha, rfl⟩ := localPutMbuffIo_eq_some hio
  exact allocWrite_books base ha (recordBytes_length _ k v).le

theorem localPutMbuffIo_books {s1 : Store c} (base : s.Base) (hkv : PutSizes c k v)
    (hio : s.localPutMbuffIo i k v = some (g, s1)) :
    Books True s 0 s1 {(g, c.kvTotGrainsGet k.length v.length)} := by
  rw [← ioSizeGrains_eq hkv.toKvOk]
  exact localPutMbuffIo_moves base hio

theorem putRetry_books (s : Store c) (k v : List UInt8) (g oldPba drained : Nat) :
    Books True s {(g, c.kvTotGrainsGet k.length v.length)} (s.putRetry k v g oldPba drained) 0 := by
  unfold putRetry
  split
  · have hrec := (recycleSegment_books s drained).frame {(g, c.kvTotGrainsGet k.length v.length)}
    rw [zero_add] at hrec
    exact (hrec.trans (invalidateGrains_books _ g _)).mono fun _ => ⟨trivial, trivial⟩
  · exact invalidateGrains_books s g _

theorem put_books (inv : s.Inv) (hdev : DeviceFits c) (hkv : PutSizes c k v) {as : List PutAttempt}
    (hok : PutLoopOk s k v op as) {M : KvMap} (hM : s.Represents M) :
    Books (s.PutLoopExact k v op as) s 0 (s.put k v op as).1 0 := by
  induction as generalizing s with
  | nil => exact (Moves.refl s 0).mono fun _ => trivial
  | cons a rest ih =>
    unfold put
    cases hio : s.localPutMbuffIo a.seg k v with
    | none => exact (Moves.refl s 0).mono fun _ => trivial
    | some x =>
      obtain ⟨g, s1⟩ := x
      obtain ⟨hf, hr⟩ := localPutMbuffIo_spec inv.toBase hdev hkv hio
      have hiob := localPutMbuffIo_books inv.toBase hkv hio
      obtain ⟨hmap, hretry⟩ := hok g s1 hio
      have hspec := putMap_spec (hf.inv inv) hr hmap (hf.represents hM)
      have hput := hiob.trans (putMap_books (hf.inv inv) hr hmap (hf.represents hM))
      dsimp only
      cases hl : s1.putMap k v g op a.grows with
      | mk s2 rc =>
        rw [hl] at hspec hput
        have hinv := invalidateGrains_books s2 g (c.kvTotGrainsGet k.length v.length)
        cases rc with
        | ok => exact hput.mono fun he => ⟨trivial, (he g s1 hio).1⟩
        | einval | enospc =>
          exact (hput.trans hinv).mono fun he => ⟨⟨trivial, (he g s1 hio).1⟩, trivial⟩
        | ealready oldPba =>
          have hfr := putRetry_frame hspec.inv.toBase k v g oldPba a.drained
          have hnext := ih (hfr.inv hspec.inv) (hretry s2 oldPba hl) (hfr.represents hspec.meets)
          exact ((hput.trans (putRetry_books s2 k v g oldPba a.drained)).trans hnext).mono fun he =>
            ⟨⟨⟨trivial, (he g s1 hio).1⟩, trivial⟩, (he g s1 hio).2 s2 oldPba hl⟩

/-- The tombstone of a del lands behind the record it deletes at once. -/
def DelExact (s : Store c) (k : List UInt8) : List Nat → Prop
  | [] => True
  | i :: _ => ∀ q md g s1, s.lookupMbuffPut k = .eexist q md →
      s.localPutMbuffIo i k [] = some (g, s1) →
        s1.isPbaOrderEqualToTotalOrder ((s1.table (c.hash k)).ht q).pba g md = true

theorem remove_books (base : s.Base) (w : Written s k g) (hq : Holds s k q) :
    Books True s {(g, c.recGrains s.media g)}
      (s.setTable (c.hash k) ((s.table (c.hash k)).remove q g))
      {(((s.table (c.hash k)).ht q).pba, c.recGrains s.media ((s.table (c.hash k)).ht q).pba)} := by
  have hpba : (((s.table (c.hash k)).remove q g).ht q).pba = g := by
    simp only [remove, set_self, HashEntry.setPba_pba]
    exact Nat.mod_eq_of_lt w.pba_lt_pow
  have hu : (((s.table (c.hash k)).remove q g).ht q).used = true := by
    unfold HashEntry.used
    rw [hpba]
    simpa using w.pba_lt.ne
  have h := @setTable_books c s (c.hash k) q ((s.table (c.hash k)).remove q g) base hq.lt
    fun r hr => set_other _ _ hr
  rwa [live_slotCharge hq, slotCharge_of_used hu, hpba] at h

theorem del_books (inv : s.Inv) (hdev : DeviceFits c) (hk : PutSizes c k []) (segs : List Nat) :
    Books (s.DelExact k segs) s 0 (s.del k segs).1 0 := by
  fun_induction del s k segs with
  | case5 s i rest h q md hl g s1 hio pba ho =>
    obtain ⟨hf, hr⟩ := localPutMbuffIo_spec inv.toBase hdev hk hio
    have hiob := localPutMbuffIo_books inv.toBase hk hio
    have hmeans := lookupMbuffPut_means inv k
    rw [hl] at hmeans
    obtain ⟨hq, hmd⟩ := hmeans
    have hmd1 : c.kvTotGrainsGet md.keySize md.valSize = c.recGrains s1.media pba := by
      have ht : s1.table h = s.table h := by
        unfold table
        rw [hf.dir]
      have hh := hf.header _ (mem_of_mem_filter (match_mem inv hq.isMatch))
      subst pba
      rw [ht]
      unfold recGrains
      rw [hmd]
      exact congrArg (fun m : StoreHeader => c.kvTotGrainsGet m.keySize m.valSize) hh.symm
    have hrem := remove_books (hf.base inv.toBase) hr.toWritten (hq.frame hf inv)
    rw [← hr.grains] at hrem
    have hinv := invalidateGrains_books (s1.setTable h ((s1.table h).remove q g)) pba
      (c.recGrains s1.media pba)
    have hall := ((hiob.trans hrem).trans hinv).trans (kvRemoved_books _ md.keySize md.valSize 0)
    rw [hmd1]
    exact hall.mono fun _ => ⟨⟨⟨trivial, trivial⟩, trivial⟩, trivial⟩
  | case6 s i rest h q md hl g s1 hio pba ho ih =>
    -- EAGAIN: the grains of this tombstone stay booked
    obtain ⟨hf, _⟩ := localPutMbuffIo_spec inv.toBase hdev hk hio
    intro F hF
    obtain ⟨L, hL, hz⟩ := localPutMbuffIo_books inv.toBase hk hio F hF
    obtain rfl := hz trivial
    generalize c.kvTotGrainsGet k.length ([] : List UInt8).length = n at hL
    have he : s1.charges + {(g, n)} + 0 + F = s1.charges + 0 + ({(g, n)} + F) := by abel
    rw [he] at hL
    obtain ⟨L', hL', _⟩ := ih (hf.inv inv) _ hL
    refine ⟨L' + {(g, n)}, ?_, fun he => absurd (he q md g s1 hl hio) ho⟩
    rw [← add_assoc] at hL' ⊢
    exact hL'
  | _ => exact (Moves.refl _ 0).mono fun _ => trivial

/-! ## The collector and failed writes -/

theorem ioFail_books {s' : Store c} (base : s.Base) {len : Nat} {bs : List UInt8}
    (h : s.ioFail i len bs = some s') : Books True s 0 s' 0 := by
  unfold ioFail at h
  cases ha : s.allocateGrains i len with
  | none => simp [ha] at h
  | some x =>
    obtain ⟨g, s1⟩ := x
    simp only [ha, Option.some.injEq] at h
    subst h
    have hw := @allocWrite_books c s s1 base i len g (bs.take (len * c.grainSize)) ha (by simp)
    exact (hw.trans (invalidateGrains_books _ g len)).mono fun _ => ⟨trivial, trivial⟩

theorem purge_books (base : s.Base) (hq : q < entryNr c.bits)
    (hu : ((s.table h).ht q).used = true) :
    Books True s 0 (s.setTable h ((s.table h).purge q))
      {(((s.table h).ht q).pba, c.recGrains s.media ((s.table h).ht q).pba)} := by
  have hpu : (((s.table h).purge q).ht q).used = false := by
    rw [UDepotMap.purge, set_self]
    exact HashEntry.purge_used _
  have hb := @setTable_books c s h q ((s.table h).purge q) base hq fun r hr => set_other _ _ hr
  rwa [slotCharge_of_unused hpu, slotCharge_of_used hu] at hb

theorem localGcCallback_books {s' : Store c} (inv : s.Inv) (hdev : DeviceFits c) {start : Nat}
    (h : s.localGcCallback start i = some s') : Books True s 0 s' 0 := by
  rcases localGcCallback_cases h with ⟨_, rfl⟩ | ⟨q, hl, hd, rfl⟩ | ⟨q, g, s1, hl, hd, ha, rfl⟩
  · exact Moves.refl _ 0
  · obtain ⟨hw, hu, hp⟩ := lookupPba_eq_some hl
    have hpb := purge_books inv.toBase hw.lt hu
    have hinv := invalidateGrains_books (s.setTable (s.keyHash start)
      ((s.table (s.keyHash start)).purge q)) ((s.table (s.keyHash start)).ht q).pba
      (c.recGrains s.media ((s.table (s.keyHash start)).ht q).pba)
    have hboth := (hpb.trans hinv).mono fun _ : True => ⟨trivial, trivial⟩
    rwa [hp] at hboth ⊢
  · have r := relocates inv hdev hl hd ha
    have hmem := mem_of_mem_filter (match_mem inv r.holds.isMatch)
    have hfit := (inv.recs _ hmem).fit
    change SizesFit (c.readHeader s.media ((s.table (s.keyHash start)).ht q).pba).keySize
      (c.readHeader s.media ((s.table (s.keyHash start)).ht q).pba).valSize at hfit
    rw [r.pba] at hfit
    have hlen := relocBytes_length s.media start (s1.segTs (c.grainToSegIdx g)) hfit
    have hal : Books True s 0 (relocated s s1 start g) {(g, c.recGrains s.media start)} :=
      allocWrite_books inv.toBase ha (hlen.le.trans (rec_le_grains hfit))
    have hold : c.recGrains (relocated s s1 start g).media
        ((s.table (s.keyHash start)).ht q).pba = c.recGrains s.media start := by
      unfold recGrains
      rw [show c.readHeader (relocated s s1 start g).media ((s.table (s.keyHash start)).ht q).pba =
        c.readHeader s.media ((s.table (s.keyHash start)).ht q).pba from r.frame.header _ hmem,
        r.pba]
    have hup := updateInplace_books (n := c.recGrains s.media start) (r.frame.base inv.toBase)
      r.ready.toWritten (r.holds.frame r.frame inv)
    change Books True _ _ ((relocated s s1 start g).setTable (s.keyHash start)
      (((relocated s s1 start g).table (s.keyHash start)).updateInplace q (s.keyHash start) _ g))
      {((((relocated s s1 start g).table (s.keyHash start)).ht q).pba,
        c.recGrains (relocated s s1 start g).media
          (((relocated s s1 start g).table (s.keyHash start)).ht q).pba)} at hup
    rw [r.grains, r.table, hold] at hup
    have hinv := invalidateGrains_books ((relocated s s1 start g).setTable (s.keyHash start)
      ((s.table (s.keyHash start)).updateInplace q (s.keyHash start) (c.recGrains s.media start) g))
      ((s.table (s.keyHash start)).ht q).pba (c.recGrains s.media start)
    exact ((hal.trans hup).trans hinv).mono fun _ => ⟨⟨trivial, trivial⟩, trivial⟩

end UDepot.Store
