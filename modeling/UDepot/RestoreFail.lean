import UDepot.RestoreDir

/-! `restore` step by step, on the store that it changes on the way: the grain range of each
table is restored as soon as the table is mapped, and each entry of the tables is counted as
it is read. When a later step fails, `restore` drops the new directory and returns; what it
did to the capacity manager and to the counters stays, and crash recovery starts on it. -/

namespace UDepot
open UDepotMap List

variable {c : Config}

namespace Device

/-- `outOfRange` is a write past the end of the new directory; with `holes` the installed
directory is not one of `2 ^ n` tables. -/
inductive RunRc where
  | ok
  | error (rc : DirErrno)
  | outOfRange
  | holes
  deriving DecidableEq, Repr

/-- The loop over the segments of the chosen group. -/
def restoreTables (cap : Nat) (io : RestoreIo) (d : Device c) (newSize : Nat) (s : Store c) :
    List Nat → Store c × RunRc
  | [] => (s, .ok)
  | j :: rest =>
    if newSize ≤ (d.dirSeg j).hdr.idx then (s, .outOfRange)
    else
      match io.map j with
      | some rc => (s, .error rc)
      | none =>
        restoreTables cap io d newSize (s.scmRestoreGrainRange cap j (Store.tableGrains c)).1 rest

/-- The used entries of the new tables. -/
def groupEntries (d : Device c) (group : List Nat) : List HashEntry :=
  (List.range group.length).flatMap fun i =>
    match d.newDir group i with
    | none => []
    | some j =>
      ((List.range (entryNr c.bits)).map (d.dirSeg j).map.ht).filter HashEntry.used

/-- `kv_restored(0, 0)`, `n` times. -/
def addKeys (s : Store c) (n : Nat) : Store c :=
  { s with stats := { s.stats with keyNr := s.stats.keyNr + n } }

/-- The loop over the entries: a record is read where the entry does not tell its size, and
a key is counted for the entry. -/
def restoreEntries (io : RestoreIo) (s : Store c) : List HashEntry → Store c × RunRc
  | [] => (s, .ok)
  | e :: rest =>
    if e.kvSize = maxKvSize ∧ e.deleted = false ∧ io.read e.pba = false then (s, .error .eio)
    else restoreEntries io (if e.deleted then s else addKeys s 1) rest

/-- The end of `restore`, in which nothing fails: the bytes, the ranges of the data, the
directory and the timestamps of the segments. -/
def installDir (cap : Nat) (d : Device c) (group : List Nat) (s : Store c) : Store c :=
  let bytes := d.restoredBytes group
  let s1 := (s.restoreRanges cap (d.validityMap (d.groupEntries group))).1
  { s1 with
    dir := ⟨Nat.log2 group.length, fun i => (d.dirSeg ((d.newDir group i).getD 0)).map⟩
    tables := (List.range group.length).map fun i => (d.newDir group i).getD 0 * c.segSize
    segTs := fun j => if j < c.segNr then Timestamps.kvTimestamp (d.segMd j) else 0
    segAllocNr := Timestamps.maxSegAllocNr d.segMd c.segNr
    stats := ⟨s1.stats.keyNr, bytes.1, bytes.2⟩ }

def Complete (d : Device c) (group : List Nat) : Prop :=
  2 ^ Nat.log2 group.length = group.length ∧ ∀ i < group.length, (d.newDir group i).isSome

instance (d : Device c) (group : List Nat) : Decidable (d.Complete group) :=
  inferInstanceAs (Decidable (_ ∧ _))

def scanFails (io : RestoreIo) (d : Device c) : Bool :=
  (List.range c.segNr).any fun j => d.dirMd j && !io.scan j

/-- `restore` on the store as it is before. -/
def restoreRun (checksum32 : Nat → Nat → Nat → Nat) (cap : Nat) (io : RestoreIo) (d : Device c)
    (s : Store c) : Store c × RunRc :=
  if d.scanFails io then (s, .error .eio)
  else
    let group := d.restored checksum32
    if group = [] then (s, .error .enodata)
    else
      match d.restoreTables cap io group.length s group with
      | (s1, .ok) =>
        match restoreEntries io s1 (d.groupEntries group) with
        | (s2, .ok) => if d.Complete group then (d.installDir cap group s2, .ok) else (s2, .holes)
        | x => x
      | x => x

/-- No trace of the restore: the segments, the used capacity, the counters and the tables are
as before. -/
structure NoTrace (s s' : Store c) : Prop where
  seg : ∀ j, (s'.seg j).state = (s.seg j).state ∧ (s'.seg j).validNr = (s.seg j).validNr
  used : s'.usedCapacity = s.usedCapacity
  stats : s'.stats = s.stats
  dir : s'.dir = s.dir
  tables : s'.tables = s.tables

/-! ## Frames -/

section Frames

variable {cap : Nat} {io : RestoreIo} {d : Device c}

theorem scmRestoreGrainRange_other (cap : Nat) (s : Store c) {i j : Nat} (len : Nat) (h : j ≠ i) :
    (s.scmRestoreGrainRange cap i len).1.seg j = s.seg j := by
  rw [Store.scmRestoreGrainRange]
  split
  · simp [Store.setSeg, h]
  · simp [Store.setSeg, h]

theorem scmRestoreGrainRange_self (cap : Nat) (s : Store c) {i len : Nat} (h : 0 < len) :
    ¬(((s.scmRestoreGrainRange cap i len).1.seg i).state = (s.seg i).state ∧
      ((s.scmRestoreGrainRange cap i len).1.seg i).validNr = (s.seg i).validNr) := by
  rw [Store.scmRestoreGrainRange]
  split
  · rename_i hf
    rintro ⟨hst, _⟩
    rw [hf] at hst
    simp [Store.setSeg] at hst
  · rintro ⟨_, hv⟩
    simp [Store.setSeg] at hv
    omega

theorem restoreTables_seg {n j : Nat} {js : List Nat} (hj : j ∉ js) (s : Store c) :
    (d.restoreTables cap io n s js).1.seg j = s.seg j := by
  induction js generalizing s with
  | nil => rfl
  | cons k js ih =>
    rw [mem_cons, not_or] at hj
    rw [restoreTables]
    split
    · rfl
    · split
      · rfl
      · rw [ih hj.2, scmRestoreGrainRange_other cap s _ hj.1]

theorem restoreEntries_eq (io : RestoreIo) (es : List HashEntry) (s : Store c) :
    ∃ n, restoreEntries io s es =
        (addKeys s n, if es.all (entryRead io) then .ok else .error .eio) ∧
      (es.all (entryRead io) = true → n = (es.filter fun e => !e.deleted).length) := by
  induction es generalizing s with
  | nil => exact ⟨0, by simp [restoreEntries, addKeys], fun _ => rfl⟩
  | cons e es ih =>
    have hstop : e.kvSize = maxKvSize ∧ e.deleted = false ∧ io.read e.pba = false ↔
        entryRead io e = false := by simp [entryRead, and_assoc]
    rw [restoreEntries, all_cons]
    cases hread : entryRead io e with
    | false => exact ⟨0, by simp [hstop.mpr hread, addKeys], by simp⟩
    | true =>
      obtain ⟨n, hn, hall⟩ := ih (if e.deleted then s else addKeys s 1)
      rw [if_neg (by simp [hstop, hread]), hn, Bool.true_and]
      cases hdel : e.deleted with
      | true => exact ⟨n, rfl, fun h => by simp [hall h, hdel]⟩
      | false =>
        exact ⟨n + 1, by simp [addKeys, add_assoc, add_comm (1 : Int)], fun h => by
          simp [hall h, hdel]⟩

end Frames

/-! ## Failures -/

section Failures

variable {checksum32 : Nat → Nat → Nat → Nat} {cap : Nat} {io : RestoreIo} {d : Device c}
  {s s' : Store c}

theorem NoTrace.refl (s : Store c) : NoTrace s s := ⟨fun _ => ⟨rfl, rfl⟩, rfl, rfl, rfl, rfl⟩

theorem restoreRun_error {rc : DirErrno} (h : d.restoreRun checksum32 cap io s = (s', .error rc)) :
    d.scanFails io = true ∧ s' = s ∨
    d.scanFails io = false ∧ (d.restored checksum32 = [] ∧ s' = s ∨
      d.restoreTables cap io (d.restored checksum32).length s (d.restored checksum32) =
        (s', .error rc) ∨
      ∃ s1, d.restoreTables cap io (d.restored checksum32).length s (d.restored checksum32) =
          (s1, .ok) ∧
        restoreEntries io s1 (d.groupEntries (d.restored checksum32)) = (s', .error rc)) := by
  rw [restoreRun] at h
  split at h
  · rename_i hscan
    exact .inl ⟨hscan, (congrArg Prod.fst h).symm⟩
  · rename_i hscan
    refine .inr ⟨Bool.eq_false_iff.mpr hscan, ?_⟩
    dsimp only at h
    split at h
    · rename_i hnil
      exact .inl ⟨hnil, (congrArg Prod.fst h).symm⟩
    · split at h
      · rename_i s1 ht
        split at h
        · split at h
          · cases congrArg Prod.snd h
          · cases congrArg Prod.snd h
        · exact .inr (.inr ⟨s1, ht, h⟩)
      · exact .inr (.inl h)

variable {n j : Nat} {rest : List Nat}

/-- Once the range of the first table is restored, its segment is not as before. -/
theorem restoreTables_marks (cap : Nat) (s : Store c) (hj : j ∉ rest) (hmap : io.map j = none)
    (hidx : (d.dirSeg j).hdr.idx < n) :
    ¬(((d.restoreTables cap io n s (j :: rest)).1.seg j).state = (s.seg j).state ∧
      ((d.restoreTables cap io n s (j :: rest)).1.seg j).validNr = (s.seg j).validNr) := by
  rw [restoreTables, if_neg (by omega), hmap]
  dsimp only
  rw [restoreTables_seg hj]
  exact scmRestoreGrainRange_self cap s (Nat.sub_pos_of_lt c.md_lt)

theorem scanFails_iff :
    d.scanFails io = true ↔ ∃ j < c.segNr, d.dirMd j = true ∧ io.scan j = false := by
  simp [scanFails]

theorem restoreTables_mapped {s1 : Store c}
    (h : d.restoreTables cap io n s (j :: rest) = (s1, .ok)) : io.map j = none := by
  rw [restoreTables] at h
  split at h
  · cases congrArg Prod.snd h
  · split at h
    · cases congrArg Prod.snd h
    · assumption

/-- What a failure after the start of the loop leaves: the first table has left its mark, or
was not mapped. -/
theorem restoreTables_traceless {s1 : Store c} {x : RunRc}
    (ht : d.restoreTables cap io n s (j :: rest) = (s1, x)) (hx : x ≠ .outOfRange) (hj : j ∉ rest)
    (hseg : s'.seg = s1.seg) (hs : io.map j ≠ none → s' = s1) : NoTrace s s' ↔ io.map j ≠ none := by
  have hidx : (d.dirSeg j).hdr.idx < n := by
    by_contra hn
    rw [restoreTables, if_pos (by omega)] at ht
    exact hx (congrArg Prod.snd ht).symm
  constructor
  · intro hnt hmap
    have hm := restoreTables_marks cap s hj hmap hidx
    rw [ht, ← hseg] at hm
    exact hm (hnt.seg j)
  · intro hmap
    obtain ⟨rc, hrc⟩ := Option.ne_none_iff_exists'.mp hmap
    rw [restoreTables, if_neg (by omega), hrc] at ht
    have h1 : s = s1 := congrArg Prod.fst ht
    rw [hs hmap, ← h1]
    exact .refl s

/-- A restore that fails leaves no trace exactly when it fails before the range of a table is
restored. -/
theorem failed_restore_traceless_iff {rc : DirErrno}
    (h : d.restoreRun checksum32 cap io s = (s', .error rc)) :
    NoTrace s s' ↔
      (∃ j < c.segNr, d.dirMd j = true ∧ io.scan j = false) ∨
        ∀ j, (d.restored checksum32).head? = some j → io.map j ≠ none := by
  rw [← scanFails_iff]
  rcases restoreRun_error h with ⟨hscan, rfl⟩ | ⟨hscan, hrest⟩
  · exact iff_of_true (.refl s') (.inl hscan)
  · rw [hscan]
    have hnd : (d.restored checksum32).Nodup := Store.restored_nodup d
    cases hg : d.restored checksum32 with
    | nil =>
      rw [hg] at hrest
      rcases hrest with ⟨_, rfl⟩ | ht | ⟨s1, _, he⟩
      · exact iff_of_true (.refl s') (.inr nofun)
      · cases congrArg Prod.snd ht
      · cases congrArg Prod.snd he
    | cons j rest =>
      rw [hg] at hrest hnd
      have hj := (nodup_cons.mp hnd).1
      simp only [Bool.false_eq_true, List.head?_cons, Option.some.injEq, forall_eq', false_or]
      rcases hrest with ⟨hnil, _⟩ | ht | ⟨s1, ht, he⟩
      · cases hnil
      · exact restoreTables_traceless ht nofun hj rfl fun _ => rfl
      · have hseg : s'.seg = s1.seg := by
          obtain ⟨n, hn, -⟩ := restoreEntries_eq io (d.groupEntries (j :: rest)) s1
          rw [he] at hn
          cases congrArg Prod.fst hn
          rfl
        exact restoreTables_traceless ht nofun hj hseg fun hmap =>
          absurd (restoreTables_mapped ht) hmap

end Failures

/-! ## The same directory -/

section Same

variable {checksum32 : Nat → Nat → Nat → Nat} {cap n : Nat} {io : RestoreIo} {d : Device c}
  {js group : List Nat} {s : Store c}

theorem filled_eq_find (js : List Nat) (newDir : Nat → Option Nat) (i : Nat) :
    d.filled js newDir i = (js.reverse.find? fun j => (d.dirSeg j).hdr.idx = i).or (newDir i) := by
  induction js generalizing newDir with
  | nil => rfl
  | cons j js ih =>
    have hstep : d.filled (j :: js) newDir =
        d.filled js (Function.update newDir (d.dirSeg j).hdr.idx (some j)) := rfl
    rw [hstep, ih, reverse_cons, find?_append, Option.or_assoc]
    congr 1
    by_cases hj : (d.dirSeg j).hdr.idx = i
    · simp [hj, Function.update]
    · simp [hj, Function.update, Ne.symm hj]

theorem groupEntries_eq (d : Device c) (group : List Nat) :
    d.groupEntries group =
      d.tableEntries ((List.range group.length).map (d.filled group fun _ => none)) := by
  rw [groupEntries, tableEntries, flatMap_map]
  refine flatMap_congr fun i _ => ?_
  rewrite [filled_eq_find, Option.or_none, newDir]
  rfl

theorem restoreTables_rc (cap : Nat) (io : RestoreIo) (js : List Nat) (s : Store c)
    (newDir : Nat → Option Nat) :
    match d.mapTables io n js none newDir with
    | .error rc => (d.restoreTables cap io n s js).2 = .error rc
    | .outOfRange => (d.restoreTables cap io n s js).2 = .outOfRange
    | .assertion => False
    | .dir tables => (d.restoreTables cap io n s js).2 = .ok ∧
        tables = (List.range n).map (d.filled js newDir) := by
  induction js generalizing s newDir with
  | nil => exact ⟨rfl, rfl⟩
  | cons j js ih =>
    rw [mapTables, restoreTables]
    by_cases hidx : n ≤ (d.dirSeg j).hdr.idx
    · simp only [if_pos hidx]
    · simp only [if_neg hidx]
      cases io.map j with
      | some rc => rfl
      | none => exact ih _ _

theorem scanSegs_false (js : List Nat) :
    d.scanSegs checksum32 false io js =
      if js.any (fun j => d.dirMd j && !io.scan j) then some (.error .eio) else none := by
  induction js with
  | nil => rfl
  | cons j js ih =>
    rw [scanSegs, any_cons, ih]
    cases d.dirMd j <;> cases io.scan j <;> simp

/-- The return code is that of `restoreDirectory`. -/
def Installed.Agrees : Installed → RunRc → Prop
  | .error rc, x => x = .error rc
  | .outOfRange, x => x = .outOfRange
  | .assertion, _ => False
  | .dir _, x => x = .ok ∨ x = .holes

theorem restoreRun_agrees (cap : Nat) (io : DirIo) (d : Device c) (s : Store c) :
    (d.restoreDirectory checksum32 false io).Agrees
      ((d.seen io.md).restoreRun checksum32 cap io.toRestoreIo s).2 := by
  rw [restoreDirectory, restoreRun, scanSegs_false, ← scanFails]
  cases hscan : (d.seen io.md).scanFails io.toRestoreIo with
  | true => exact rfl
  | false =>
    simp only [Bool.false_eq_true, if_false]
    cases hg : (d.seen io.md).restored checksum32 with
    | nil => exact rfl
    | cons j rest =>
      rw [if_neg (cons_ne_nil _ _), installGroup, mapTables_rc]
      have htabs := restoreTables_rc (d := d.seen io.md) (n := (j :: rest).length) cap
        io.toRestoreIo (j :: rest) s fun _ => none
      obtain ⟨s1, rc, hrun⟩ : ∃ s1 rc, (d.seen io.md).restoreTables cap io.toRestoreIo
          (j :: rest).length s (j :: rest) = (s1, rc) := ⟨_, _, rfl⟩
      rw [hrun] at htabs ⊢
      cases hm : (d.seen io.md).mapTables io.toRestoreIo (j :: rest).length (j :: rest) none
          fun _ => none with
      | error e | outOfRange =>
        rw [hm] at htabs
        cases htabs
        exact rfl
      | assertion =>
        rw [hm] at htabs
        exact htabs.elim
      | dir tables =>
        rw [hm] at htabs
        obtain ⟨hrc, rfl⟩ := htabs
        cases hrc
        obtain ⟨k, hk, -⟩ := restoreEntries_eq io.toRestoreIo
          ((d.seen io.md).groupEntries (j :: rest)) s1
        dsimp only
        rw [← groupEntries_eq, hk]
        split
        · dsimp only
          split
          · exact .inl rfl
          · exact .inr rfl
        · exact rfl

end Same

/-! ## Where nothing fails -/

section Fine

variable {checksum32 : Nat → Nat → Nat → Nat} {cap n : Nat} {d : Device c} {js group : List Nat}

theorem restoreRanges_append (s : Store c) (rs rs' : List (Nat × Nat)) :
    (s.restoreRanges cap (rs ++ rs')).1 =
      ((s.restoreRanges cap rs).1.restoreRanges cap rs').1 := by
  induction rs generalizing s with
  | nil => rfl
  | cons r rs ih => exact ih _

theorem restoreTables_fine (s : Store c) (h : ∀ j ∈ js, (d.dirSeg j).hdr.idx < n) :
    d.restoreTables cap fine n s js =
      ((s.restoreRanges cap (js.map fun j => (j, Store.tableGrains c))).1, .ok) := by
  induction js generalizing s with
  | nil => rfl
  | cons j js ih =>
    have hj := h j mem_cons_self
    rw [restoreTables, if_neg (by omega)]
    exact ih _ fun k hk => h k (mem_cons_of_mem _ hk)

theorem scmRestoreGrainRange_stats (s : Store c) (t : KvStats) (i len : Nat) :
    (Store.scmRestoreGrainRange cap { s with stats := t } i len).1 =
      { (s.scmRestoreGrainRange cap i len).1 with stats := t } := by
  unfold Store.scmRestoreGrainRange
  dsimp only
  split
  · rfl
  · rfl

theorem restoreRanges_stats (s : Store c) (t : KvStats) (rs : List (Nat × Nat)) :
    (Store.restoreRanges cap { s with stats := t } rs).1 =
      { (s.restoreRanges cap rs).1 with stats := t } := by
  induction rs generalizing s with
  | nil => rfl
  | cons r rs ih =>
    simp only [Store.restoreRanges]
    rw [scmRestoreGrainRange_stats, ih]

theorem restoreRanges_keeps_stats (s : Store c) (rs : List (Nat × Nat)) :
    (s.restoreRanges cap rs).1.stats = s.stats := by
  have h := congrArg Store.stats (@restoreRanges_stats _ cap s s.stats rs)
  exact h

/-- In a directory without holes every index is one of it. -/
theorem Complete.idx_lt (h : d.Complete group) {j : Nat} (hj : j ∈ group) :
    (d.dirSeg j).hdr.idx < group.length := by
  have hsub : List.range group.length ⊆ group.map fun j => (d.dirSeg j).hdr.idx := by
    intro i hi
    obtain ⟨k, hk⟩ := Option.isSome_iff_exists.mp (h.2 i (mem_range.mp hi))
    rw [newDir] at hk
    have hidx : (d.dirSeg k).hdr.idx = i := by simpa using find?_some hk
    exact mem_map.mpr ⟨k, mem_reverse.mp (mem_of_find?_eq_some hk), hidx⟩
  have hperm := (nodup_range.subperm hsub).perm_of_length_le (by simp)
  exact mem_range.mp (hperm.mem_iff.mpr (mem_map_of_mem hj))

theorem groupEntries_used (h : d.Complete group) :
    d.groupEntries group = usedEntries ⟨Nat.log2 group.length,
      fun i => (d.dirSeg ((d.newDir group i).getD 0)).map⟩ := by
  have hprod : ∀ m : Nat, (List.range group.length ×ˢ List.range m) =
      (List.range group.length).flatMap fun i => (List.range m).map (Prod.mk i) := fun _ => rfl
  rw [usedEntries, Directory.slots, h.1, hprod, map_flatMap, filter_flatMap, groupEntries]
  refine flatMap_congr fun i hi => ?_
  obtain ⟨j, hj⟩ := Option.isSome_iff_exists.mp (h.2 i (mem_range.mp hi))
  simp [hj, Function.comp_def]

/-- Where nothing fails, the run on the store before a restart is the restore of the round
trip. -/
theorem restoreRun_fine {s' : Store c} {ok : Bool} (h : d.restore checksum32 cap = .ok (s', ok)) :
    d.restoreRun checksum32 cap fine (Store.blank c d.media d.segMd) = (s', .ok) := by
  rw [restore] at h
  dsimp only at h
  split at h
  · cases h
  · rename_i hne
    split at h
    · rename_i hcomplete
      have hgroup : d.Complete (d.restored checksum32) := hcomplete
      have hscan : d.scanFails fine = false := by simp [scanFails, fine]
      have hnil : d.restored checksum32 ≠ [] := fun hn => hne (by rw [hn, length_nil])
      rw [restoreRun, hscan, if_neg (by decide)]
      dsimp only
      rw [if_neg hnil, restoreTables_fine _ fun j hj => hgroup.idx_lt hj]
      dsimp only
      obtain ⟨n, hn, hcount⟩ := restoreEntries_eq fine (d.groupEntries (d.restored checksum32))
        ((Store.blank c d.media d.segMd).restoreRanges cap
          ((d.restored checksum32).map fun j => (j, Store.tableGrains c))).1
      have hread : (d.groupEntries (d.restored checksum32)).all (entryRead fine) = true := by
        simp [entryRead, fine]
      rw [hn, hcount hread, hread, if_pos rfl]
      dsimp only
      have hs' := congrArg Prod.fst (Except.ok.inj h)
      dsimp only at hs'
      rw [if_pos hgroup, ← hs', groupEntries_used hgroup, installDir, groupEntries_used hgroup,
        addKeys, restoreRanges_stats, restoreRanges_keeps_stats,
        ← restoreRanges_append]
      simp [Store.blank]
    · cases h

end Fine

/-! ## Two tables, of which the second is not mapped -/

/-- The mapping of segment 2 fails. -/
def secondFails : RestoreIo := ⟨fun _ => true, fun j => if j = 2 then some .enomem else none,
  fun _ => true⟩

/-- The mapping of segment 1 fails. -/
def firstFails : RestoreIo := ⟨fun _ => true, fun j => if j = 1 then some .enomem else none,
  fun _ => true⟩

/-- The stopped store with a table in segment 1 whose first entry is counted and whose second
does not tell its size. -/
def countedDevice : Device Store.colliding :=
  let d := stopped [1] fun _ => Store.zeroDirSeg
  { d with dirSeg := Function.update d.dirSeg 1 { d.dirSeg 1 with map :=
      ⟨fun q =>
        if q = 0 then (((HashEntry.fresh.setOffset 0).setTag 0).setKvSize 1).setPba 16
        else if q = 1 then ((HashEntry.fresh.setOffset 0).setTag 1).setPba 17
        else .fresh, Store.colliding.bits_lt⟩ } }

def readFails : RestoreIo := ⟨fun _ => true, fun _ => none, fun _ => false⟩

/-- The store before a restart. -/
def unstarted : Store Store.colliding := Store.blank Store.colliding (fun _ => 0) fun _ => none

/-- What the failed restores leave, of the two tables and of the table with two entries. -/
def afterSecond : Store Store.colliding × RunRc :=
  (stopped [2, 1] fun _ => Store.zeroDirSeg).restoreRun Store.sumChecksum 100 secondFails unstarted

def afterRead : Store Store.colliding × RunRc :=
  countedDevice.restoreRun Store.sumChecksum 100 readFails unstarted

/-- The segment of the first table stays closed and its grains stay booked when the second
cannot be mapped; and the key that was counted stays counted when a record cannot be read. -/
theorem failed_restore_traces :
    (afterSecond.2 = .error .enomem ∧ (unstarted.seg 1).state = .free ∧
      (afterSecond.1.seg 1).state = .closed ∧ unstarted.usedCapacity = 0 ∧
      afterSecond.1.usedCapacity = 7) ∧
    afterRead.2 = .error .eio ∧ unstarted.stats.keyNr = 0 ∧ afterRead.1.stats.keyNr = 1 := by
  decide +kernel

theorem first_mapping_traceless : ∃ s',
    (stopped [2, 1] fun _ => Store.zeroDirSeg).restoreRun Store.sumChecksum 100 firstFails
      unstarted = (s', .error .enomem) ∧ NoTrace unstarted s' := by
  have h : (stopped [2, 1] fun _ => Store.zeroDirSeg).restoreRun Store.sumChecksum 100 firstFails
      unstarted = (_, .error .enomem) := Prod.ext rfl (by decide +kernel)
  have hg : ((stopped [2, 1] fun _ => Store.zeroDirSeg).restored Store.sumChecksum).head? =
      some 1 := by decide +kernel
  refine ⟨_, h, (failed_restore_traceless_iff h).mpr (.inr fun j hj => ?_)⟩
  rw [hg, Option.some.injEq] at hj
  subst hj
  decide

end Device
end UDepot
