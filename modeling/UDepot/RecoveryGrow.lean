import UDepot.RecoveryDeleted

/-! Whether a recovered record can be found. A restore that finds its window full grows the
directory and goes on with the null pointer that the search has left, so that no recovery
that needs a growth comes to its end. The growth itself takes the tables from a width that
is set only later. -/

namespace UDepot.Store
open Bytes UDepotMap Directory Config Elect

variable {c : Config}

/-- Every entry lies in the table and bucket that the full hash of its key selects, and a get
of the key of a live one finds the record. -/
structure Reachable (s : Store c) : Prop where
  placed : s.dir.Placed s.keyHash
  found : ∀ e ∈ s.dir.liveEntries,
    s.get (c.recKey s.media e.pba) = .ok (c.recVal s.media e.pba)

variable {s : Store c}

theorem Recovered.reachable {s' : Store c} {order : List Nat} (hr : Recovered s order s') :
    Reachable s' :=
  ⟨hr.inv.placed, fun _ he => (get_eq_ok hr.inv hr.represents _ _).mpr (hr.represents.live he)⟩

namespace Recovery

variable {x : Recovery c} {allocs : Nat → List TableAlloc}

theorem restoreLoop_of_room {i ts n off : Nat} {rc : Option RecoverErr} (hrc : rc ≠ some .nullTrgt)
    (h : x.eachRestore roomFor i ts allocs n off = true) :
    x.restoreLoop i ts allocs n off rc ≠ .error .nullTrgt := by
  fun_induction restoreLoop i ts allocs n off rc x with
  | case1 | case3 => simp
  | case2 | case4 => simpa using hrc
  | case5 n off rc x g hstop e hy =>
    -- a record with room is restored
    simp only [eachRestore, Bool.or_eq_true, Bool.and_eq_true] at h
    obtain ⟨y, hok⟩ := (restoreRecord_ok_iff x g (allocs g)).mpr (h.resolve_left hstop).1
    cases hy.symm.trans hok
  | case6 n off rc x g hstop y hy ih =>
    simp only [eachRestore, Bool.or_eq_true, Bool.and_eq_true] at h
    have hrest := (h.resolve_left hstop).2
    rw [hy] at hrest
    exact ih (by simp) hrest

theorem recoverSegment_of_room {i : Nat} (h : x.eachInSegment roomFor allocs i = true) :
    x.recoverSegment allocs i ≠ .error .nullTrgt := by
  unfold eachInSegment at h
  unfold recoverSegment
  cases hk : x.store.kvTs i with
  | none => simp
  | some ts =>
    rw [hk] at h
    have hrc : some RecoverErr.enoent ≠ some .nullTrgt := by simp
    have hloop := restoreLoop_of_room hrc h
    dsimp only
    cases hl : x.restoreLoop i ts allocs c.segSize 0 (some .enoent) with
    | error e =>
      rw [hl] at hloop
      simpa using hloop
    | ok y => simp

theorem recoverSegments_of_room {order : List Nat} (h : eachInAll roomFor allocs order x = true) :
    recoverSegments allocs order x ≠ .error .nullTrgt := by
  induction order generalizing x with
  | nil => simp [recoverSegments]
  | cons i rest ih =>
    simp only [eachInAll, Bool.and_eq_true] at h
    have hseg := recoverSegment_of_room h.1
    rw [recoverSegments]
    cases hy : x.recoverSegment allocs i with
    | error e =>
      rw [hy] at hseg
      simpa using hseg
    | ok y =>
      rw [hy] at h
      exact ih h.2

end Recovery

/-- A recovery in which every restore finds a slot does not meet the null pointer. -/
theorem recover_of_room {order : List Nat} {i : Nat} {allocs : Nat → List TableAlloc}
    (h : s.recoverHasRoom order i allocs = true) : s.recover order i allocs ≠ .error .nullTrgt := by
  fun_cases recover s order i allocs with
  | case1 e h1 =>
    unfold prepCrashRecovery at h1
    split at h1
    · cases h1
      simp
    · cases h1
  | case2 => simp
  | case3 s1 h1 s2 h2 =>
    simp only [recoverHasRoom, recoverEach, h1, h2] at h
    fun_cases crashRecovery s2 order allocs with
    | case1 e h3 =>
      rintro ⟨⟩
      exact Recovery.recoverSegments_of_room h h3
    | _ => simp

/-- When no restore needs a growth and no shift hides an entry, what a recovery maps is where
the lookup path looks for it. -/
theorem recover_reachable (hb : c.bits ≤ 32) (hdev : DeviceFits c) {s : Store c} {order : List Nat}
    {i : Nat} {allocs : Nat → List TableAlloc} (hnd : order.Nodup) (hlt : ∀ j ∈ order, j < c.segNr)
    (hfit : s.ScanFits order) (hok : s.recoverShiftsOk order i allocs = true)
    (hroom : s.recoverHasRoom order i allocs = true) :
    s.recover order i allocs ≠ .error .nullTrgt ∧
      ∀ s', s.recover order i allocs = .ok s' → Reachable s' :=
  ⟨recover_of_room hroom, fun _ h => (recover_spec hb hdev hnd hlt hfit hok h).reachable⟩

/-! ## A crowded bucket -/

/-- Tables of two buckets; the first byte of a key is its tag, and all keys are of bucket 0. -/
def crowded : Config :=
  .ofSizes 1 32 40 1 4 (fun k => 2 * (k.headD 0).toNat)
    (fun ts bs => ts + (bs.map UInt8.toNat).sum + 1) (Eq.refl true)

/-- A device with the records of `n` keys in segment 1. -/
def crowdedDevice (n : Nat) : Store crowded :=
  blank crowded
    (fun a => if 40 ≤ a / 32 ∧ a / 32 - 40 < n then
      (crowded.recordBytes 1 [UInt8.ofNat (7 * (a / 32 - 40))] [1]).getD (a % 32) 0 else 0)
    (fun j => if j = 1 then some ⟨.kv, 1⟩ else none)

def crowdedAllocs (_ : Nat) : List TableAlloc := [.mapped 2, .mapped 3]

theorem crowded_three_reachable :
    ∃ s', (crowdedDevice 3).recover (List.range 4) 0 crowdedAllocs = .ok s' ∧
      s'.get [14] = .ok [1] ∧ Reachable s' := by
  have h : (((crowdedDevice 3).recover (List.range 4) 0 crowdedAllocs).toOption.map fun s' =>
      decide (s'.get [14] = .ok [1] ∧ (crowdedDevice 3).ScanFits (List.range 4) ∧
        (crowdedDevice 3).recoverShiftsOk (List.range 4) 0 crowdedAllocs = true ∧
        (crowdedDevice 3).recoverHasRoom (List.range 4) 0 crowdedAllocs = true)) = some true := by
    decide +kernel
  obtain ⟨s', hs', heq⟩ := Option.map_eq_some_iff.mp h
  obtain ⟨hget, hfit, hok, hroom⟩ := of_decide_eq_true heq
  have hrec := ok_of_toOption hs'
  exact ⟨s', hrec, hget, (recover_reachable (by decide) (by decide) (by decide) (by decide) hfit hok
    hroom).2 s' hrec⟩

/-- The 33rd record of a bucket of 32 slots: the directory grows, into tables that are not those
of the lookup path, and the restore goes on with a null pointer. -/
theorem crowded_grows_and_crashes :
    (crowdedDevice 33).recover (List.range 4) 0 crowdedAllocs = .error .nullTrgt ∧
      ∃ s' d', (crowdedDevice 32).recover (List.range 4) 0 crowdedAllocs = .ok s' ∧
        s'.dir.initGrow = some d' ∧ ¬ d'.Placed s'.keyHash := by
  have herr : (match (crowdedDevice 33).recover (List.range 4) 0 crowdedAllocs with
      | .error e => some e
      | .ok _ => none) = some .nullTrgt := by decide +kernel
  have hgrow : (((crowdedDevice 32).recover (List.range 4) 0 crowdedAllocs).toOption.bind fun s' =>
      s'.dir.initGrow.map fun d' => decide (d'.idxBits = 1 ∧ ((d'.map 0).ht 10).used = true ∧
        hashToDirIdx crowded.bits (s'.keyHash ((d'.map 0).ht 10).pba) 1 = 1)) = some true := by
    decide +kernel
  refine ⟨?_, ?_⟩
  · cases hr : (crowdedDevice 33).recover (List.range 4) 0 crowdedAllocs with
    | ok s' => simp [hr] at herr
    | error e =>
      rw [hr] at herr
      cases herr
      rfl
  · obtain ⟨s', hs', hd⟩ := Option.bind_eq_some_iff.mp hgrow
    obtain ⟨d', hd', hcheck⟩ := Option.map_eq_some_iff.mp hd
    obtain ⟨hidx, hused, hne⟩ := of_decide_eq_true hcheck
    refine ⟨s', d', ok_of_toOption hs', hd', fun hp => ?_⟩
    have hat := (hp 0 (by positivity) 10 (by decide) hused).table
    rw [hidx] at hat
    cases hat.symm.trans hne

end UDepot.Store
