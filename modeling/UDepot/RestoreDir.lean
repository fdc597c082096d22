import UDepot.RestartTrip

/-! The directory that `restore` puts together from the segments on the device, with its
error codes: the code set when the segments do not make up a whole directory passes
through the loop over the mappings, which sets it anew.

The installed directory is compared with the tables of the last clean shutdown, by
index. Segments of other directories may check as well. -/

namespace UDepot
open UDepotMap Function List

variable {c : Config}

namespace Device

inductive DirErrno where
  | eio
  | enodata
  | enomem
  | einval
  deriving DecidableEq, Repr

/-- What can fail: the reads of header and footer of a segment, the mapping of a segment with
`uDepotMap::restore` on it, and the read of the record at an address. -/
structure RestoreIo where
  scan : Nat → Bool
  map : Nat → Option DirErrno
  read : Nat → Bool

/-- The reads of the metadata of the segments can fail as well. -/
structure DirIo extends RestoreIo where
  md : Nat → Bool

/-- The device as `validate_seg_md` has it: metadata that cannot be read is not valid. -/
def seen (md : Nat → Bool) (d : Device c) : Device c :=
  { d with segMd := fun j => if md j then d.segMd j else none }

/-- `outOfRange` is a write past the end of the new directory and `assertion` one that does not
hold. The installed directory names the segment of each table, where there is one. -/
inductive Installed where
  | error (rc : DirErrno)
  | outOfRange
  | assertion
  | dir (tables : List (Option Nat))
  deriving DecidableEq, Repr

def dirMd (d : Device c) (j : Nat) : Bool :=
  match d.segMd j with
  | some ⟨.directory, _⟩ => true
  | _ => false

/-- The loop over the segments of the device, where it ends early. -/
def scanSegs (checksum32 : Nat → Nat → Nat → Nat) (asserts : Bool) (io : RestoreIo) (d : Device c) :
    List Nat → Option Installed
  | [] => none
  | j :: rest =>
    if d.dirMd j then
      if io.scan j then
        -- what is not valid is passed over before the assertion
        if asserts && d.dirValid checksum32 j && !d.hdrFtrOk [j] then some .assertion
        else scanSegs checksum32 asserts io d rest
      else some (.error .eio)
    else scanSegs checksum32 asserts io d rest

/-- The loop that maps the segments: `rc` is what it starts with. -/
def mapTables (io : RestoreIo) (d : Device c) (newSize : Nat) :
    List Nat → Option DirErrno → (Nat → Option Nat) → Installed
  | [], some rc, _ => .error rc
  | [], none, newDir => .dir ((List.range newSize).map newDir)
  | j :: rest, _, newDir =>
    if newSize ≤ (d.dirSeg j).hdr.idx then .outOfRange
    else
      match io.map j with
      | some rc => .error rc
      | none =>
        mapTables io d newSize rest none (update newDir (d.dirSeg j).hdr.idx (some j))

/-- The used entries of the new tables. -/
def tableEntries (d : Device c) (tables : List (Option Nat)) : List HashEntry :=
  tables.flatMap fun
    | none => []
    | some j => ((List.range (entryNr c.bits)).map (d.dirSeg j).map.ht).filter HashEntry.used

/-- The record is read where the entry does not tell its size. -/
def entryRead (io : RestoreIo) (e : HashEntry) : Bool :=
  !decide (e.kvSize = maxKvSize ∧ e.deleted = false) || io.read e.pba

/-- What `restore` makes of the segments that it has collected for the largest directory. -/
def installGroup (io : RestoreIo) (d : Device c) : List Nat → Installed
  | [] => .error .enodata
  | j :: rest =>
    let newSize := (j :: rest).length
    -- only the first segment of the group is looked at
    let rc := if (d.dirSeg j).hdr.dirSize ≠ newSize then some .enodata else none
    match d.mapTables io newSize (j :: rest) rc fun _ => none with
    | .dir tables => if (d.tableEntries tables).all (entryRead io) then .dir tables else .error .eio
    | x => x

/-- `restore` up to the installation of the directory. The assertions on what the entries name
and on the timestamps of the store's segments are those of `Device.restore`. -/
def restoreDirectory (checksum32 : Nat → Nat → Nat → Nat) (asserts : Bool) (io : DirIo)
    (d : Device c) : Installed :=
  let d := d.seen io.md
  match d.scanSegs checksum32 asserts io.toRestoreIo (List.range c.segNr) with
  | some x => x
  | none => d.installGroup io.toRestoreIo (d.restored checksum32)

/-- The segments `tabs` carry the headers of the tables of one directory, by index. -/
structure Tables (checksum32 : Nat → Nat → Nat → Nat) (d : Device c) (tabs : List Nat) : Prop where
  nodup : tabs.Nodup
  hdr : ∀ i (_ : i < tabs.length),
    ∃ ts, (d.dirSeg tabs[i]).hdr = dirmapMd checksum32 tabs.length ts i

/-- The outcome is an error or the whole directory `tabs`. -/
def Installed.Whole (tabs : List Nat) : Installed → Prop
  | .error _ => True
  | .outOfRange | .assertion => False
  | .dir tables => tables = tabs.map some

/-! ## The loop -/

variable {checksum32 : Nat → Nat → Nat → Nat} {asserts : Bool} {io : RestoreIo} {d : Device c}

/-- Nothing fails. -/
def fine : RestoreIo := ⟨fun _ => true, fun _ => none, fun _ => true⟩

def filled (d : Device c) (js : List Nat) (newDir : Nat → Option Nat) : Nat → Option Nat :=
  Places.writeAll (fun j => (d.dirSeg j).hdr.idx) (fun j _ => some j) js newDir

variable {n i : Nat} {js : List Nat}

theorem mapTables_inRange (hidx : ∀ j ∈ js, (d.dirSeg j).hdr.idx < n) (newDir : Nat → Option Nat) :
    (∃ rc, d.mapTables io n js none newDir = .error rc) ∨
      d.mapTables io n js none newDir = .dir ((List.range n).map (d.filled js newDir)) := by
  induction js generalizing newDir with
  | nil => exact .inr rfl
  | cons j js ih =>
    have hj := hidx j mem_cons_self
    rw [mapTables, if_neg (by omega)]
    cases io.map j with
    | some rc => exact .inl ⟨rc, rfl⟩
    | none => exact ih (fun j' hj' => hidx j' (mem_cons_of_mem _ hj')) _

theorem mapTables_dir {newDir : Nat → Option Nat} {tables : List (Option Nat)}
    (h : d.mapTables io n js none newDir = .dir tables) :
    tables = (List.range n).map (d.filled js newDir) := by
  induction js generalizing newDir with
  | nil => exact (Installed.dir.inj h).symm
  | cons j js ih =>
    rw [mapTables] at h
    split at h
    · cases h
    · split at h
      · cases h
      · exact ih h

theorem mapTables_fine (js : List Nat) (newDir : Nat → Option Nat) (rc : DirErrno) :
    d.mapTables fine n js none newDir ≠ .error rc := by
  induction js generalizing newDir with
  | nil => exact nofun
  | cons j js ih =>
    rw [mapTables]
    split
    · exact nofun
    · exact ih _

/-- The code set before the loop does not come out of it. -/
theorem mapTables_rc {j : Nat} (rc : Option DirErrno) (newDir : Nat → Option Nat) :
    d.mapTables io n (j :: js) rc newDir = d.mapTables io n (j :: js) none newDir := rfl

theorem filled_cases {j : Nat} {newDir : Nat → Option Nat} (h : d.filled js newDir i = some j) :
    (j ∈ js ∧ (d.dirSeg j).hdr.idx = i) ∨ newDir i = some j := by
  induction js generalizing newDir with
  | nil => exact .inr h
  | cons k js ih =>
    have h' : d.filled js (update newDir (d.dirSeg k).hdr.idx (some k)) i = some j := h
    rcases ih h' with ⟨hmem, hidx⟩ | hnew
    · exact .inl ⟨mem_cons_of_mem _ hmem, hidx⟩
    · by_cases hk : i = (d.dirSeg k).hdr.idx
      · rw [hk, update_self, Option.some.injEq] at hnew
        subst hnew
        exact .inl ⟨mem_cons_self, hk.symm⟩
      · rw [update_of_ne hk] at hnew
        exact .inr hnew

/-! ## Whole directories -/

variable {tabs : List Nat}

theorem Tables.idx (h : d.Tables checksum32 tabs) (hi : i < tabs.length) :
    (d.dirSeg tabs[i]).hdr.idx = i % 2 ^ 16 := by
  obtain ⟨ts, hhdr⟩ := h.hdr i hi
  rw [hhdr]
  rfl

theorem Tables.idx_of_le (h : d.Tables checksum32 tabs) (h16 : tabs.length ≤ 2 ^ 16)
    (hi : i < tabs.length) : (d.dirSeg tabs[i]).hdr.idx = i := by
  rw [h.idx hi, Nat.mod_eq_of_lt (by omega)]

theorem Tables.indexes (h : d.Tables checksum32 tabs) (h16 : tabs.length ≤ 2 ^ 16) :
    tabs.map (fun j => (d.dirSeg j).hdr.idx) = List.range tabs.length := by
  apply ext_getElem
  · simp
  · intro i h1 h2
    rw [length_map] at h1
    rw [getElem_map, getElem_range, h.idx_of_le h16 h1]

/-- The loop over the tables of one directory, in any order, fills it with them. -/
theorem Tables.filled (h : d.Tables checksum32 tabs) (h16 : tabs.length ≤ 2 ^ 16)
    (hp : js.Perm tabs) (newDir : Nat → Option Nat) :
    (List.range js.length).map (d.filled js newDir) = tabs.map some := by
  have hnd : (js.map fun j => (d.dirSeg j).hdr.idx).Nodup := by
    refine (hp.map _).nodup_iff.mpr ?_
    rw [h.indexes h16]
    exact nodup_range
  apply ext_getElem
  · simp [hp.length_eq]
  · intro i h1 h2
    rw [length_map] at h2
    rw [getElem_map, getElem_map, getElem_range]
    have hself := Places.writeAll_self (f := fun j _ => some j) hnd newDir
      (hp.mem_iff.mpr (getElem_mem h2))
    rw [h.idx_of_le h16 h2] at hself
    exact hself

/-- The segments of the group are the tables of the last shutdown: the outcome is an error or
this directory. -/
theorem Tables.installGroup (h : d.Tables checksum32 tabs) (h16 : tabs.length ≤ 2 ^ 16)
    (hp : js.Perm tabs) (io : RestoreIo) : (d.installGroup io js).Whole tabs := by
  cases js with
  | nil => exact trivial
  | cons j rest =>
    have hidx : ∀ k ∈ j :: rest, (d.dirSeg k).hdr.idx < (j :: rest).length := by
      intro k hk
      obtain ⟨i, hi, rfl⟩ := getElem_of_mem (hp.mem_iff.mp hk)
      rw [h.idx_of_le h16 hi, hp.length_eq]
      exact hi
    rw [Device.installGroup, mapTables_rc]
    have hmap : (∃ rc, d.mapTables io _ _ none _ = .error rc) ∨ _ :=
      mapTables_inRange hidx fun _ => none
    rcases hmap with ⟨rc, herr⟩ | hdir
    · rw [herr]
      exact trivial
    · rw [hdir, h.filled h16 hp]
      dsimp only
      split
      · rfl
      · exact trivial

theorem installGroup_dir {tables : List (Option Nat)} (h : d.installGroup io js = .dir tables) :
    tables = (List.range js.length).map (d.filled js fun _ => none) := by
  cases js with
  | nil => cases h
  | cons j rest =>
    rw [installGroup, mapTables_rc] at h
    cases hm : d.mapTables io (j :: rest).length (j :: rest) none fun _ => none with
    | error rc | outOfRange | assertion =>
      rw [hm] at h
      cases h
    | dir t =>
      rw [hm] at h
      dsimp only at h
      split at h
      · rw [← Installed.dir.inj h]
        exact mapTables_dir hm
      · cases h

theorem installGroup_fine {rc : DirErrno} (h : d.installGroup fine js = .error rc) : js = [] := by
  cases js with
  | nil => rfl
  | cons j rest =>
    rw [installGroup, mapTables_rc] at h
    cases hm : d.mapTables fine (j :: rest).length (j :: rest) none fun _ => none with
    | error rc => exact absurd hm (mapTables_fine _ _ _)
    | outOfRange | assertion =>
      rw [hm] at h
      cases h
    | dir t =>
      rw [hm] at h
      dsimp only at h
      rw [if_pos (by simp [entryRead, fine])] at h
      cases h

/-- Where nothing fails, a whole directory comes from a group that is this directory. -/
theorem Tables.perm_of_whole (h : d.Tables checksum32 tabs)
    (hw : (d.installGroup fine js).Whole tabs) : js = [] ∨ js.Perm tabs ∧ tabs.length ≤ 2 ^ 16 := by
  cases hx : d.installGroup fine js with
  | error rc => exact .inl (installGroup_fine hx)
  | outOfRange | assertion =>
    rw [hx] at hw
    exact hw.elim
  | dir t =>
    right
    rw [hx] at hw
    have hdirs := (installGroup_dir hx).symm.trans hw
    have hlen : js.length = tabs.length := by
      simpa using congrArg List.length hdirs
    -- every table of the shutdown is a segment of the group that carries its index
    have hmem : ∀ i (hi : i < tabs.length), tabs[i] ∈ js ∧ (d.dirSeg tabs[i]).hdr.idx = i := by
      intro i hi
      have hget := getElem_of_eq hdirs (i := i) (by simpa [hlen] using hi)
      rw [getElem_map, getElem_map, getElem_range] at hget
      rcases filled_cases hget with hm | hnone
      · exact hm
      · cases hnone
    have hsub : tabs ⊆ js := by
      intro k hk
      obtain ⟨i, hi, rfl⟩ := getElem_of_mem hk
      exact (hmem i hi).1
    have hperm : tabs.Perm js := (h.nodup.subperm hsub).perm_of_length_le (by omega)
    refine ⟨hperm.symm, ?_⟩
    by_contra hgt
    have hi : 2 ^ 16 < tabs.length := by omega
    have hbad := (hmem (2 ^ 16) hi).2
    rw [h.idx hi] at hbad
    omega

/-! ## The scan -/

theorem dirMd_of_valid {j : Nat} (h : d.dirValid checksum32 j = true) : d.dirMd j = true := by
  unfold dirValid at h
  unfold dirMd
  split at h
  · rename_i hmd
    simp only [hmd]
  · cases h

/-- With the assertion met by all that is valid, the scan ends early on a failing read only. -/
theorem scanSegs_eio (io : RestoreIo)
    (h : asserts = true → ∀ j ∈ js, d.dirValid checksum32 j = true → d.hdrFtrOk [j] = true) :
    d.scanSegs checksum32 asserts io js = none ∨
      d.scanSegs checksum32 asserts io js = some (.error .eio) := by
  induction js with
  | nil => exact .inl rfl
  | cons j js ih =>
    have hrest := ih fun ha k hk => h ha k (mem_cons_of_mem _ hk)
    have hj : ¬(asserts && d.dirValid checksum32 j && !d.hdrFtrOk [j]) = true := by
      simp only [Bool.and_eq_true, Bool.not_eq_true', not_and, Bool.not_eq_false, and_imp]
      exact fun ha => h ha j mem_cons_self
    rw [scanSegs, if_neg hj]
    split
    · split
      · exact hrest
      · exact .inr rfl
    · exact hrest

theorem scanSegs_fine : d.scanSegs checksum32 asserts fine js = some .assertion ∨
    d.scanSegs checksum32 asserts fine js = none ∧
      (asserts = true → ∀ j ∈ js, d.dirValid checksum32 j = true → d.hdrFtrOk [j] = true) := by
  induction js with
  | nil => exact .inr ⟨rfl, nofun⟩
  | cons j js ih =>
    have hscan : fine.scan j = true := rfl
    rw [scanSegs]
    by_cases hj : (asserts && d.dirValid checksum32 j && !d.hdrFtrOk [j]) = true
    · left
      have hv : d.dirValid checksum32 j = true := by
        rw [Bool.and_eq_true, Bool.and_eq_true] at hj
        exact hj.1.2
      rw [if_pos (dirMd_of_valid hv), if_pos hscan, if_pos hj]
    · rw [if_neg hj, if_pos hscan, ite_self]
      refine ih.imp_right fun ⟨hnone, hrest⟩ => ⟨hnone, fun ha k hk hv => ?_⟩
      rcases mem_cons.mp hk with rfl | hk
      · simpa [ha, hv] using hj
      · exact hrest ha k hk hv

/-- The metadata of the segment can be read and is that of the directory, and header and footer
check. -/
def Checked (checksum32 : Nat → Nat → Nat → Nat) (md : Nat → Bool) (d : Device c) (j : Nat) :
    Prop :=
  j < c.segNr ∧ md j = true ∧ d.dirValid checksum32 j = true

variable {md : Nat → Bool}

theorem seen_dirValid (md : Nat → Bool) (d : Device c) (j : Nat) :
    (d.seen md).dirValid checksum32 j = (md j && d.dirValid checksum32 j) := by
  unfold dirValid seen
  cases h : md j <;> simp [h]

theorem mem_collected {j : Nat} :
    j ∈ (d.seen md).collected checksum32 ↔ d.Checked checksum32 md j := by
  rw [collected, mem_filter, mem_range, seen_dirValid, Bool.and_eq_true, Checked]

theorem mem_restored_iff {j : Nat} :
    j ∈ (d.seen md).restored checksum32 ↔
      d.Checked checksum32 md j ∧ ∀ k, d.Checked checksum32 md k → d.dirKey k ≤ d.dirKey j := by
  rw [restored]
  cases hmax : (((d.seen md).collected checksum32).map (d.seen md).dirKey).max? with
  | none =>
    rw [max?_eq_none_iff, map_eq_nil_iff] at hmax
    refine iff_of_false not_mem_nil fun ⟨hj, _⟩ => ?_
    rw [← mem_collected, hmax] at hj
    cases hj
  | some key =>
    obtain ⟨hkey, hle⟩ := max?_eq_some_iff.mp hmax
    obtain ⟨k, hk, hkk⟩ := mem_map.mp hkey
    simp only [mem_filter, mem_collected, decide_eq_true_eq]
    refine and_congr_right fun hj => ⟨fun hjk k' hk' => ?_, fun hall => ?_⟩
    · exact (hle _ (mem_map_of_mem (mem_collected.mpr hk'))).trans_eq hjk.symm
    · exact le_antisymm (hle _ (mem_map_of_mem (mem_collected.mpr hj)))
        (hkk.symm.trans_le (hall k (mem_collected.mp hk)))

theorem restored_eq_nil_iff :
    (d.seen md).restored checksum32 = [] ↔ ∀ j, ¬d.Checked checksum32 md j := by
  constructor
  · intro hnil j hj
    rw [restored] at hnil
    cases hmax : (((d.seen md).collected checksum32).map (d.seen md).dirKey).max? with
    | none =>
      rw [max?_eq_none_iff, map_eq_nil_iff] at hmax
      rw [← mem_collected, hmax] at hj
      cases hj
    | some key =>
      obtain ⟨k, hk, hkk⟩ := mem_map.mp (max?_eq_some_iff.mp hmax).1
      rw [hmax] at hnil
      exact absurd hnil (ne_nil_of_mem (mem_filter.mpr ⟨hk, decide_eq_true hkk⟩))
  · intro hno
    exact eq_nil_iff_forall_not_mem.mpr fun j hj => hno j (mem_restored_iff.mp hj).1

/-! ## Stale and missing tables -/

theorem Tables.restoreDirectory {io : DirIo} (h : (d.seen io.md).Tables checksum32 tabs)
    (hgroup : (d.seen io.md).restored checksum32 = [] ∨
      ((d.seen io.md).restored checksum32).Perm tabs ∧ tabs.length ≤ 2 ^ 16)
    (hok : asserts = true → ∀ j ∈ List.range c.segNr,
      (d.seen io.md).dirValid checksum32 j = true → (d.seen io.md).hdrFtrOk [j] = true) :
    (d.restoreDirectory checksum32 asserts io).Whole tabs := by
  rw [Device.restoreDirectory]
  rcases scanSegs_eio io.toRestoreIo hok with hnone | heio
  · rw [hnone]
    rcases hgroup with hnil | ⟨hp, h16⟩
    · rw [hnil]
      exact trivial
    · exact h.installGroup h16 hp _
  · rw [heio]
    exact trivial

/-- Where the metadata that `md` names can be read, and whatever else fails on the way, `restore`
installs the whole directory of the last clean shutdown or returns an error exactly when no segment
checks, or those that check with the largest size are those of that shutdown and their indexes fit
the headers; and, with assertions, when header and footer agree in every segment that checks. -/
theorem restoreDirectory_whole_iff (h : d.Tables checksum32 tabs) (md : Nat → Bool)
    (asserts : Bool) :
    (∀ io : DirIo, io.md = md → (d.restoreDirectory checksum32 asserts io).Whole tabs) ↔
      ((∀ j, ¬d.Checked checksum32 md j) ∨ tabs.length ≤ 2 ^ 16 ∧ ∀ j, j ∈ tabs ↔
        d.Checked checksum32 md j ∧ ∀ k, d.Checked checksum32 md k → d.dirKey k ≤ d.dirKey j) ∧
      (asserts = true → ∀ j, d.Checked checksum32 md j → d.hdrFtrOk [j] = true) := by
  have htabs : (d.seen md).Tables checksum32 tabs := ⟨h.nodup, h.hdr⟩
  have hperm : ((d.seen md).restored checksum32).Perm tabs ↔ ∀ j, j ∈ tabs ↔
      d.Checked checksum32 md j ∧ ∀ k, d.Checked checksum32 md k → d.dirKey k ≤ d.dirKey j := by
    rw [perm_ext_iff_of_nodup (Store.restored_nodup _) h.nodup]
    exact forall_congr' fun j => by rw [mem_restored_iff, iff_comm (b := j ∈ tabs)]
  have hasserts : (asserts = true → ∀ j, d.Checked checksum32 md j → d.hdrFtrOk [j] = true) ↔
      (asserts = true → ∀ j ∈ List.range c.segNr, (d.seen md).dirValid checksum32 j = true →
        (d.seen md).hdrFtrOk [j] = true) := by
    refine imp_congr_right fun _ => forall_congr' fun j => ?_
    rw [Checked, mem_range, seen_dirValid, Bool.and_eq_true, and_imp]
    rfl
  rw [hasserts, ← restored_eq_nil_iff, and_comm (a := tabs.length ≤ 2 ^ 16), ← hperm]
  constructor
  · intro hw
    have hfine := hw ⟨fine, md⟩ rfl
    rw [restoreDirectory] at hfine
    dsimp only at hfine
    rcases scanSegs_fine (d := d.seen md) with hassert | ⟨hnone, hok⟩
    · rw [hassert] at hfine
      exact hfine.elim
    · rw [hnone] at hfine
      exact ⟨htabs.perm_of_whole hfine, hok⟩
  · rintro ⟨hgroup, hok⟩ io rfl
    exact htabs.restoreDirectory hgroup hok

/-- The device after a shutdown with the tables `tabs`, on top of what `x` has. -/
def stopped (tabs : List Nat) (x : Nat → DirSeg Store.colliding.bits) : Device Store.colliding where
  media _ := 0
  segMd _ := some ⟨.directory, 0⟩
  dirSeg := Places.writeAll (tabs.getD · 0)
    (fun i y => { y with
      hdr := dirmapMd Store.sumChecksum tabs.length 5 i
      ftr := ⟨dirmapMd Store.sumChecksum tabs.length 6 i, 0, 0⟩ }) (List.range tabs.length) x

/-- A directory of two tables over what is left of one of one table. -/
def regrown : Device Store.colliding :=
  stopped [2, 1] (stopped [3] fun _ => Store.zeroDirSeg).dirSeg

theorem regrown_tables : regrown.Tables Store.sumChecksum [2, 1] where
  nodup := by decide
  hdr := by
    intro i hi
    refine ⟨5, ?_⟩
    match i, hi with
    | 0, _ => rfl
    | 1, _ => rfl

theorem regrown_whole :
    regrown.Tables Store.sumChecksum [2, 1] ∧ regrown.dirValid Store.sumChecksum 3 = true ∧
      ∀ io : DirIo, (io.md = fun _ => true) →
        (regrown.restoreDirectory Store.sumChecksum true io).Whole [2, 1] := by
  have hrest : (regrown.seen fun _ => true).restored Store.sumChecksum = [1, 2] := by decide +kernel
  have hagree : ∀ j < Store.colliding.segNr, regrown.dirValid Store.sumChecksum j = true →
      regrown.hdrFtrOk [j] = true := by decide +kernel
  refine ⟨regrown_tables, by decide +kernel,
    (restoreDirectory_whole_iff regrown_tables (fun _ => true) true).mpr
      ⟨.inr ⟨by decide, fun j => ?_⟩, fun _ j hj => hagree j hj.1 hj.2.2⟩⟩
  rw [← mem_restored_iff, hrest]
  simp [or_comm]

/-- The footer of the second table did not reach the device. -/
def halfStopped : Device Store.colliding :=
  { regrown with
    dirSeg := update regrown.dirSeg 1 { regrown.dirSeg 1 with ftr := Store.zeroDirSeg.ftr } }

/-- The footer of the second table is that of the first. -/
def crossStopped : Device Store.colliding :=
  { regrown with
    dirSeg := update regrown.dirSeg 1 { regrown.dirSeg 1 with ftr := (regrown.dirSeg 2).ftr } }

/-- A directory of two tables of which one is missing is installed as one of one table, be it
that its footer was not written or that its metadata cannot be read; an old directory of two tables
is installed in the place of a new one of one; and a valid footer of another table trips the
assertion. -/
theorem restoreDirectory_not_whole :
    let all : DirIo := ⟨fine, fun _ => true⟩
    let notFirst : DirIo := ⟨fine, fun j => j != 1⟩
    let old := stopped [3] regrown.dirSeg
    (halfStopped.restoreDirectory Store.sumChecksum true all = .dir [some 2] ∧
      regrown.restoreDirectory Store.sumChecksum true notFirst = .dir [some 2] ∧
      old.restoreDirectory Store.sumChecksum true all = .dir [some 2, some 1] ∧
      crossStopped.restoreDirectory Store.sumChecksum true all = .assertion) ∧
    ¬(halfStopped.restoreDirectory Store.sumChecksum true all).Whole [2, 1] ∧
    ¬(regrown.restoreDirectory Store.sumChecksum true notFirst).Whole [2, 1] ∧
    ¬(old.restoreDirectory Store.sumChecksum true all).Whole [3] ∧
    ¬(crossStopped.restoreDirectory Store.sumChecksum true all).Whole [2, 1] := by
  intro all notFirst old
  have half : halfStopped.restoreDirectory Store.sumChecksum true all = .dir [some 2] := by
    decide +kernel
  have unread : regrown.restoreDirectory Store.sumChecksum true notFirst = .dir [some 2] := by
    decide +kernel
  have stale : old.restoreDirectory Store.sumChecksum true all = .dir [some 2, some 1] := by
    decide +kernel
  have cross : crossStopped.restoreDirectory Store.sumChecksum true all = .assertion := by
    decide +kernel
  rw [half, unread, stale, cross]
  refine ⟨⟨rfl, rfl, rfl, rfl⟩, ?_, ?_, ?_, id⟩
  · exact fun hw => absurd (congrArg List.length hw) (by decide)
  · exact fun hw => absurd (congrArg List.length hw) (by decide)
  · exact fun hw => absurd (congrArg List.length hw) (by decide)

end Device

namespace Store

variable {checksum32 : Nat → Nat → Nat → Nat} {hdrTs ftrTs : Nat → Nat} {s : Store c}
  {x : Nat → DirSeg c.bits}

/-- What a shutdown of the store leaves carries the headers of its directory. -/
theorem halted_tables (h : s.Settled) :
    (halted checksum32 hdrTs ftrTs s x).Tables checksum32 s.tableSegs where
  nodup := tables_nodup h
  hdr := by
    intro i hi
    rw [tableSegs, length_map] at hi
    have hseg : s.tableSegs[i] = s.tableSeg i := by
      simp [tableSegs, tableSeg, getD_eq_getElem?_getD, hi]
    refine ⟨hdrTs i, ?_⟩
    rw [hseg, halted_table h hi]
    simp [tableSegs]

/-- Where all that else checks is of smaller directories, the directory of the store comes
back whole. -/
theorem halted_restoreDirectory (h : s.Settled) (hst : StaleSmaller checksum32 s x)
    (h16 : s.dir.idxBits ≤ 16) (asserts : Bool) (io : Device.DirIo) (hmd : io.md = fun _ => true) :
    ((halted checksum32 hdrTs ftrTs s x).restoreDirectory checksum32 asserts io).Whole
      s.tableSegs := by
  have hseen : (halted checksum32 hdrTs ftrTs s x).seen io.md =
    halted checksum32 hdrTs ftrTs s x := by
    rw [hmd]
    rfl
  refine Device.Tables.restoreDirectory (by rw [hseen]; exact halted_tables h) ?_ ?_
  · rw [hseen, tableSegs, length_map, h.tables]
    exact .inr ⟨restored_perm h hst, Nat.pow_le_pow_right (by decide) h16⟩
  · rw [hseen]
    intro _ j hj hv
    exact all_eq_true.mpr fun k hk => all_eq_true.mp (halted_hdrFtrOk h hst) k
      (mem_filter.mpr (mem_singleton.mp hk ▸ ⟨hj, hv⟩))

end Store
end UDepot
