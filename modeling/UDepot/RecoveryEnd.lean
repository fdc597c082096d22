import UDepot.RecoveryRun

/-! When a recovery comes to its end. It fails without a segment of the store, on a segment in
which the scan meets no record, without a segment for the first table, and on a record that
finds no slot, since what follows a growth goes on with a null pointer. With assertions, the
order check also asks for timestamps that are set and differ. -/

namespace UDepot
open Bytes Function List

namespace Store
open UDepotMap Directory Config Elect

variable {c : Config} {s : Store c}

/-- The restore of the record at `g` finds a slot, without a growth. -/
def roomFor (s : Store c) (g : Nat) : Bool :=
  let k := c.recKey s.media g
  let h := c.hash k
  match s.lookupMbuffPut k with
  | .enospc => ((s.table h).tryShift h).2.isSome
  | _ => true

/-- No restore of the recovery of `s` needs a growth. -/
def recoverHasRoom (s : Store c) (order : List Nat) (i : Nat) (allocs : Nat → List TableAlloc) :
    Bool :=
  s.recoverEach roomFor order i allocs

/-- What a recovery needs on the device, with `i` the segment of the first table. -/
structure Recoverable (s : Store c) (i : Nat) : Prop where
  store : ∃ j, j < c.segNr ∧ (s.kvTs j).isSome = true
  records : ∀ j, j < c.segNr → (s.kvTs j).isSome = true → s.scanned j ≠ []
  table : i < c.segNr ∧ s.kvTs i = none

/-! ## One record -/

theorem tryRestoreEntry_ok_iff (s : Store c) (g : Nat) (allocs : List TableAlloc) :
    ((s.tryRestoreEntry g allocs).2 = .ok ∨ (s.tryRestoreEntry g allocs).2 = .eexist) ↔
      s.roomFor g = true := by
  unfold roomFor tryRestoreEntry
  dsimp only
  cases s.lookupMbuffPut (c.recKey s.media g) with
  | enodata q => simp
  | eexist q md =>
    dsimp only
    split <;> simp
  | enospc =>
    dsimp only
    cases (s.table (c.hash (c.recKey s.media g))).tryShift (c.hash (c.recKey s.media g)) with
    | mk t slot =>
      cases slot with
      | some q => simp
      | none =>
        dsimp only
        cases (s.setTable (c.hash (c.recKey s.media g)) t).initGrow allocs with
        | mk s1 ok => cases ok <;> simp

theorem tryRestoreEntry_same {s' : Store c} {g : Nat} {allocs : List TableAlloc} {rc : RestoreRc}
    (h : s.tryRestoreEntry g allocs = (s', rc)) (hrc : rc = .ok ∨ rc = .eexist) : Same s s' := by
  have hset : ∀ h t, Same s (s.setTable h t) :=
    fun _ _ => ⟨rfl, rfl, rfl, fun _ => rfl, fun _ => rfl⟩
  revert h
  fun_cases tryRestoreEntry s g allocs with
  | case1 md k h' hl t q ht =>
    rintro ⟨⟩
    exact (hset h' t).trans (setMapping_same ..)
  | case2 | case3 =>
    rintro ⟨⟩
    rcases hrc with h | h <;> cases h
  | case4 | case5 =>
    rintro ⟨⟩
    exact setMapping_same ..
  | case6 =>
    rintro ⟨⟩
    exact invalidateGrains_same ..

namespace Recovery

variable {x y : Recovery c} {allocs : Nat → List TableAlloc}

theorem restoreRecord_ok_iff (x : Recovery c) (g : Nat) (allocs : List TableAlloc) :
    (∃ y, x.restoreRecord g allocs = .ok y) ↔ x.store.roomFor g = true := by
  rw [← tryRestoreEntry_ok_iff x.store g allocs, restoreRecord]
  cases x.store.tryRestoreEntry g allocs with
  | mk s rc => cases rc <;> simp

theorem restoreRecord_same {g : Nat} {allocs : List TableAlloc}
    (h : x.restoreRecord g allocs = .ok y) :
    Same x.store y.store ∧ y.restoredSegNr = x.restoredSegNr := by
  rw [restoreRecord] at h
  cases ht : x.store.tryRestoreEntry g allocs with
  | mk s rc =>
    rw [ht] at h
    cases rc with
    | enospc | nullTrgt => cases h
    | ok =>
      cases h
      exact ⟨tryRestoreEntry_same ht (.inl rfl), rfl⟩
    | eexist =>
      cases h
      exact ⟨tryRestoreEntry_same ht (.inr rfl), rfl⟩

/-! ## The loops -/

theorem restoreLoop_ok_iff {i ts n off : Nat} {rc : Option RecoverErr} {x : Recovery c} :
    (∃ z, x.restoreLoop i ts allocs n off rc = .ok z) ↔
      x.eachRestore roomFor i ts allocs n off = true ∧
        (rc = none ∨ c.scanChain x.store.media i ts n off ≠ []) := by
  fun_induction restoreLoop i ts allocs n off rc x with
  | case1 => simp [eachRestore]
  | case2 => simp [scanChain]
  | case3 n off x hstop => simp [eachRestore, hstop]
  | case4 n off x hstop e => simp [scanChain, hstop]
  | case5 n off rc x g hstop e he =>
    have hroom := restoreRecord_ok_iff x g (allocs g)
    rw [he] at hroom
    simp only [reduceCtorEq, exists_false, false_iff, Bool.not_eq_true] at hroom
    simp only [reduceCtorEq, exists_false, false_iff, eachRestore, hstop, Bool.false_or,
      Bool.and_eq_true]
    exact fun h => by simp [g, hroom] at h
  | case6 n off rc x g hstop z hz ih =>
    have hroom : x.store.roomFor g = true := (restoreRecord_ok_iff x g (allocs g)).mp ⟨z, hz⟩
    rw [ih]
    simp only [eachRestore, scanChain, hstop, Bool.false_or, Bool.and_eq_true, true_or, and_true,
      Bool.false_eq_true, if_false, ne_eq, reduceCtorEq, not_false_eq_true, or_true]
    rw [show x.restoreRecord (i * c.segSize + off) (allocs (i * c.segSize + off)) = .ok z from hz,
      show x.store.roomFor (i * c.segSize + off) = true from hroom]
    simp [g]

theorem restoreLoop_same {i ts n off off' : Nat} {rc : Option RecoverErr} {x : Recovery c}
    (h : x.restoreLoop i ts allocs n off rc = .ok (y, off')) :
    Same x.store y.store ∧ y.restoredSegNr = x.restoredSegNr := by
  fun_induction restoreLoop i ts allocs n off rc x with
  | case1 | case3 =>
    cases h
    exact ⟨Same.refl _, rfl⟩
  | case6 n off rc x g hstop z hz ih =>
    obtain ⟨hs, hn⟩ := restoreRecord_same hz
    obtain ⟨hs', hn'⟩ := ih h
    exact ⟨hs.trans hs', hn'.trans hn⟩
  | _ => cases h

theorem closeSegment_same (x : Recovery c) (i ts off : Nat) :
    Same x.store (x.closeSegment i ts off).store := by
  rw [closeSegment]
  dsimp only
  split
  · exact invalidateGrains_same ..
  · exact Same.refl _

theorem recoverSegment_ok_iff (x : Recovery c) (allocs : Nat → List TableAlloc) (i : Nat) :
    (∃ y, x.recoverSegment allocs i = .ok y) ↔ x.eachInSegment roomFor allocs i = true ∧
      ((x.store.kvTs i).isSome = true → x.store.scanned i ≠ []) := by
  unfold recoverSegment eachInSegment scanned
  cases x.store.kvTs i with
  | none => simp
  | some ts =>
    dsimp only
    have hiff := @restoreLoop_ok_iff c allocs i ts c.segSize 0 (some .enoent) x
    simp only [reduceCtorEq, false_or] at hiff
    simp only [Option.isSome_some, forall_const]
    rw [← hiff]
    cases x.restoreLoop i ts allocs c.segSize 0 (some .enoent) with
    | error e => simp
    | ok z => simp

theorem recoverSegment_same {i : Nat} (h : x.recoverSegment allocs i = .ok y) :
    Same x.store y.store ∧
      y.restoredSegNr = x.restoredSegNr + if (x.store.kvTs i).isSome then 1 else 0 := by
  unfold recoverSegment at h
  cases hk : x.store.kvTs i with
  | none =>
    rw [hk] at h
    cases h
    exact ⟨Same.refl _, rfl⟩
  | some ts =>
    rw [hk] at h
    dsimp only at h
    cases hl : x.restoreLoop i ts allocs c.segSize 0 (some .enoent) with
    | error e => simp [hl] at h
    | ok z =>
      rw [hl] at h
      cases h
      obtain ⟨hs, hn⟩ := restoreLoop_same hl
      exact ⟨hs.trans (closeSegment_same ..), congrArg (· + 1) hn⟩

end Recovery

theorem Same.scanned {s1 : Store c} (h : Same s s1) : s1.scanned = s.scanned := by
  funext j
  unfold Store.scanned
  rw [h.kvTs, h.media]

namespace Recovery

variable {x y : Recovery c} {allocs : Nat → List TableAlloc}

theorem recoverSegments_ok_iff {order : List Nat} {x : Recovery c} :
    (∃ y, recoverSegments allocs order x = .ok y) ↔ eachInAll roomFor allocs order x = true ∧
      ∀ j ∈ order, (x.store.kvTs j).isSome = true → x.store.scanned j ≠ [] := by
  induction order generalizing x with
  | nil => simp [recoverSegments, eachInAll]
  | cons i rest ih =>
    have hseg := recoverSegment_ok_iff x allocs i
    rw [recoverSegments, eachInAll, Bool.and_eq_true, forall_mem_cons]
    cases hz : x.recoverSegment allocs i with
    | error e =>
      rw [hz] at hseg
      simp only [reduceCtorEq, exists_false, false_iff] at hseg ⊢
      exact fun h => hseg ⟨h.1.1, h.2.1⟩
    | ok z =>
      rw [hz] at hseg
      obtain ⟨hroom, hscan⟩ := hseg.mp ⟨z, rfl⟩
      have hs := (recoverSegment_same hz).1
      dsimp only
      rw [ih, hs.scanned]
      simp only [hs.kvTs, hroom, true_and]
      exact and_congr_right fun _ => ⟨fun h => ⟨hscan, h⟩, fun h => h.2⟩

theorem recoverSegments_restored {order : List Nat} (h : recoverSegments allocs order x = .ok y) :
    y.restoredSegNr = 0 ↔
      x.restoredSegNr = 0 ∧ ∀ j ∈ order, (x.store.kvTs j).isSome = false := by
  fun_induction recoverSegments allocs order x with
  | case1 x =>
    cases h
    simp
  | case2 => cases h
  | case3 i rest x z hz ih =>
    obtain ⟨hs, hn⟩ := recoverSegment_same hz
    rw [ih h, hn, forall_mem_cons]
    simp only [hs.kvTs]
    cases (x.store.kvTs i).isSome <;> simp

end Recovery

/-! ## The whole recovery -/

theorem firstGrow_isSome (s : Store c) (i : Nat) :
    (s.firstGrow i).isSome = true ↔ i < c.segNr ∧ (s.seg i).state = .free := by
  have hlt := c.md_lt
  have hpos : 0 < c.segSize := by omega
  unfold firstGrow allocateGrains
  split
  · rename_i hc
    simp [setSeg, persistSegMd, tableGrains, hlt, hc, Nat.add_sub_of_le hlt.le]
  · rename_i hc
    simp [hc]

theorem prep_firstGrow_iff (s : Store c) (i : Nat) :
    (∃ s1 s2, (blank c s.media s.segMd).prepCrashRecovery = .ok s1 ∧ s1.firstGrow i = some s2) ↔
      (∃ j, j < c.segNr ∧ (s.kvTs j).isSome = true) ∧ i < c.segNr ∧ s.kvTs i = none := by
  have hkv : ∀ j, (blank c s.media s.segMd).kvTs j = s.kvTs j := fun _ => rfl
  obtain ⟨-, -, -, -, hseg⟩ := prepFold_spec (blank c s.media s.segMd) (List.range c.segNr)
  have hfree : ∀ j < c.segNr, (((List.range c.segNr).foldl prepSegment
      (blank c s.media s.segMd)).seg j).state = .free ↔ s.kvTs j = none := by
    intro j hj
    rw [(hseg j).1, hkv]
    cases s.kvTs j with
    | none => simp [blank]
    | some ts => simp [hj]
  unfold prepCrashRecovery
  by_cases hall : (List.range c.segNr).all fun j => ((blank c s.media s.segMd).kvTs j).isNone
  · rw [if_pos hall]
    rw [all_eq_true] at hall
    refine iff_of_false (by simp) ?_
    rintro ⟨⟨j, hj, hsome⟩, -⟩
    have hnone := hall j (mem_range.mpr hj)
    rw [hkv] at hnone
    cases hk : s.kvTs j <;> simp [hk] at hsome hnone
  · rw [if_neg hall]
    have hex : ∃ j, j < c.segNr ∧ (s.kvTs j).isSome = true := by
      simp only [all_eq_true, mem_range, hkv, not_forall] at hall
      obtain ⟨j, hj, hn⟩ := hall
      exact ⟨j, hj, by cases hk : s.kvTs j <;> simp [hk] at hn ⊢⟩
    constructor
    · rintro ⟨s1, s2, ⟨⟩, h2⟩
      have hi := (firstGrow_isSome _ i).mp (by rw [h2]; rfl)
      exact ⟨hex, hi.1, (hfree i hi.1).mp hi.2⟩
    · rintro ⟨-, hi, hn⟩
      obtain ⟨s2, h2⟩ := Option.isSome_iff_exists.mp
        ((firstGrow_isSome _ i).mpr ⟨hi, (hfree i hi).mpr hn⟩)
      exact ⟨_, s2, rfl, h2⟩

/-- A recovery ends exactly when the device has what it needs and no restore needs a growth. -/
theorem recover_ok_iff {order : List Nat} {i : Nat} {allocs : Nat → List TableAlloc}
    (hp : order.Perm (List.range c.segNr)) :
    (∃ s', s.recover order i allocs = .ok s') ↔
      s.Recoverable i ∧ s.recoverHasRoom order i allocs = true := by
  have hstart := prep_firstGrow_iff s i
  have hmem : ∀ j, j ∈ order ↔ j < c.segNr := fun j => hp.mem_iff.trans mem_range
  unfold recover recoverHasRoom recoverEach
  cases h1 : (blank c s.media s.segMd).prepCrashRecovery with
  | error e =>
    rw [h1] at hstart
    refine iff_of_false (by simp) fun h => ?_
    obtain ⟨s1, s2, hc, -⟩ := hstart.mpr ⟨h.1.store, h.1.table⟩
    cases hc
  | ok s1 =>
    dsimp only
    cases h2 : s1.firstGrow i with
    | none =>
      rw [h1] at hstart
      refine iff_of_false (by simp) fun h => ?_
      obtain ⟨s1', s2, ⟨⟩, hc⟩ := hstart.mpr ⟨h.1.store, h.1.table⟩
      rw [h2] at hc
      cases hc
    | some s2 =>
      obtain ⟨hex, htable⟩ := hstart.mp ⟨s1, s2, h1, h2⟩
      have hprep := prepared_of_firstGrow h1 h2
      have hsegs := @Recovery.recoverSegments_ok_iff c allocs order ⟨s2, [], 0, 0⟩
      simp only [hprep.kvTs, hprep.scanned] at hsegs
      dsimp only
      unfold crashRecovery
      cases h3 : Recovery.recoverSegments allocs order ⟨s2, [], 0, 0⟩ with
      | error e =>
        rw [h3] at hsegs
        refine iff_of_false (by simp) fun h => ?_
        obtain ⟨x, hx⟩ := hsegs.mpr ⟨h.2, fun j hj => h.1.records j ((hmem j).mp hj)⟩
        cases hx
      | ok x =>
        obtain ⟨hroom, hscan⟩ := hsegs.mp ⟨x, h3⟩
        have hcount : x.restoredSegNr ≠ 0 := by
          rw [ne_eq, Recovery.recoverSegments_restored h3]
          rintro ⟨-, hnone⟩
          obtain ⟨j, hj, hsome⟩ := hex
          have := hnone j ((hmem j).mpr hj)
          rw [hprep.kvTs, hsome] at this
          cases this
        dsimp only
        rw [if_neg hcount]
        exact iff_of_true ⟨_, rfl⟩
          ⟨⟨hex, fun j hj => hscan j ((hmem j).mpr hj), htable⟩, hroom⟩

/-! ## The assertions of the order check -/

/-- The assertions of `is_pba_order_equal_to_total_order`. -/
def orderAsserts (s : Store c) (oldPba newPba : Nat) (oldMd : StoreHeader) : Bool :=
  if c.grainToSegIdx oldPba ≠ c.grainToSegIdx newPba then
    decide (0 < oldMd.timestamp ∧ 0 < s.segTs (c.grainToSegIdx newPba) ∧
      oldMd.timestamp ≠ s.segTs (c.grainToSegIdx newPba))
  else decide (oldPba ≠ newPba)

/-- They hold in the restore of the record at `g`, if it comes to the order check. -/
def restoreAsserts (s : Store c) (g : Nat) : Bool :=
  match s.lookupMbuffPut (c.recKey s.media g) with
  | .eexist q oldMd => s.orderAsserts ((s.table (c.hash (c.recKey s.media g))).ht q).pba g oldMd
  | _ => true

/-- No assertion of the order check fails in the recovery of `s`. -/
def recoverAsserts (s : Store c) (order : List Nat) (i : Nat) (allocs : Nat → List TableAlloc) :
    Bool :=
  s.recoverEach restoreAsserts order i allocs

/-- The assertions with what recovery knows, as `newer` is the order check. -/
def apart (s : Store c) (x y : Nat) : Bool :=
  if c.grainToSegIdx x ≠ c.grainToSegIdx y then
    decide (0 < (c.readHeader s.media x).timestamp ∧ 0 < (s.kvTs (c.grainToSegIdx y)).getD 0 ∧
      (c.readHeader s.media x).timestamp ≠ (s.kvTs (c.grainToSegIdx y)).getD 0)
  else decide (x ≠ y)

theorem Prepared.apart {s2 : Store c} (hp : Prepared s s2) : s2.apart = s.apart := by
  funext x y
  unfold Store.apart
  rw [hp.kvTs, hp.media]

theorem elected_append (s : Store c) (gs xs : List Nat) (k : List UInt8) :
    s.elected (gs ++ xs) k =
      elect s.newer (s.elected gs k) (xs.filter fun g => c.recKey s.media g = k) := by
  unfold elected
  rw [filter_append, elect_append]

section Asserts

variable {s0 : Store c} {gs : List Nat} {allocs : Nat → List TableAlloc} {x y : Recovery c}

/-- What the comparisons of each key ask for, with the records `gs` scanned before `xs`. -/
def ChecksAfter (s0 : Store c) (gs xs : List Nat) : Prop :=
  ∀ k, checks s0.newer s0.apart (s0.elected gs k)
    (xs.filter fun g => c.recKey s0.media g = k) = true

theorem checksAfter_nil (s0 : Store c) (gs : List Nat) : s0.ChecksAfter gs [] := fun _ => rfl

theorem checksAfter_append (xs ys : List Nat) :
    s0.ChecksAfter gs (xs ++ ys) ↔ s0.ChecksAfter gs xs ∧ s0.ChecksAfter (gs ++ xs) ys := by
  unfold ChecksAfter
  rw [← forall_and]
  refine forall_congr' fun k => ?_
  rw [filter_append, checks_append, Bool.and_eq_true, elected_append]

theorem checksAfter_singleton {g : Nat} :
    s0.ChecksAfter gs [g] ↔ (s0.elected gs (c.recKey s0.media g)).all (s0.apart · g) = true := by
  constructor
  · intro h
    simpa [checks] using h (c.recKey s0.media g)
  · intro h k
    by_cases hk : c.recKey s0.media g = k
    · subst hk
      simpa [checks] using h
    · simp [hk, checks]

theorem restoreAsserts_iff (hx : ScanInv s0 gs x) {g : Nat}
    (hts : s0.StampRestored (c.grainToSegIdx g)) :
    x.store.restoreAsserts g = true ↔ s0.ChecksAfter gs [g] := by
  have hm := hx.same.media
  have hmeans := lookupMbuffPut_means hx.inv (c.recKey s0.media g)
  rw [checksAfter_singleton, restoreAsserts, hm]
  cases hl : x.store.lookupMbuffPut (c.recKey s0.media g) with
  | enodata q | enospc =>
    rw [hl] at hmeans
    rw [hx.points.of_absent hmeans.2]
    simp
  | eexist q md =>
    rw [hl] at hmeans
    obtain ⟨hq, rfl⟩ := hmeans
    rw [hx.points.of_live (match_mem hx.inv hq.isMatch) hq.key]
    change x.store.orderAsserts _ g _ = true ↔ s0.apart _ g = true
    rw [orderAsserts, apart, hx.same.segTs, hm, hts]
    rfl

theorem along_asserts (s0 : Store c) : Along s0 restoreAsserts s0.ChecksAfter :=
  ⟨s0.checksAfter_nil, fun _ => checksAfter_append, fun _ _ _ hx hr =>
    restoreAsserts_iff hx hr.stamp⟩

end Asserts

/-- In a recovery that ends, the assertions hold exactly if they hold of the records that are
compared with each other. -/
theorem recoverAsserts_iff (hb : c.bits ≤ 32) (hdev : DeviceFits c) {s' : Store c}
    {order : List Nat}
    {i : Nat} {allocs : Nat → List TableAlloc} (hnd : order.Nodup) (hlt : ∀ j ∈ order, j < c.segNr)
    (hfit : s.ScanFits order) (hok : s.recoverShiftsOk order i allocs = true)
    (h : s.recover order i allocs = .ok s') :
    s.recoverAsserts order i allocs = true ↔ s.ChecksAfter [] (order.flatMap s.scanned) := by
  obtain ⟨s2, x, hp, -, -, hiff⟩ := recover_scanInv hb hdev hnd hlt hfit hok h
  rw [recoverAsserts, hiff s2.along_asserts, hp.scanned]
  unfold ChecksAfter
  rw [hp.elected, hp.newer, hp.apart, hp.media]

end Store
end UDepot
