import UDepot.SpdkArray
import UDepot.Restart

/-! The memory mappings of the back ends that emulate them (`trt-aio.cc`, `trt-spdk.cc`,
`trt-spdk-array.cc`): memory filled from the device, which `msync` writes back. Reads and
writes of the devices transfer what they are asked for.

The directory relies on it when it has been restored: `invalidate_ftr` clears the footers
of its tables in memory and writes the pages around them back, so that the directory is
not restored once more after a crash. -/

namespace UDepot.Mmap
open Bytes SpdkArray List

inductive Backend where
  | file
  | spdk
  | spdkArray (n : Nat) (hn : 0 < n)

/-- An item of `mmap_off_m`: the address, and the `mregion` under it. -/
structure Mregion where
  start : Nat
  off : Nat
  len : Nat
  deriving DecidableEq, Repr

namespace Backend

/-- The bytes of the device as the back end numbers them. -/
def bytes (b : Backend) (dev : Nat → Nat → UInt8) : Nat → UInt8 :=
  match b with
  | .file => dev 0
  | .spdk => dev 0
  | .spdkArray n _ => logical n dev

/-- The loop of `TrtSpdkIO::msync`, at most `fuel` rounds. -/
def spdkLoop : Nat → St → Nat → Nat → Nat → Option St
  | 0, _, _, _, _ => none
  | fuel + 1, st, addr, len, off =>
    if len = 0 then some st
    else
      let l := min len 8192
      spdkLoop fuel (sync .write 0 st ⟨addr, l⟩ off) (addr + l) (len - l) (off + l)

def writeBack (b : Backend) (st : St) (addr len off : Nat) : Option St :=
  match b with
  | .file => some (sync .write 0 st ⟨addr, len⟩ off)
  | .spdk => spdkLoop (len + 1) st addr len off
  | .spdkArray n _ => (pio .write n (len + 1) st ⟨addr, len⟩ off 0).map Prod.fst

/-- `msync` of the three back ends: nothing is written where no mapping has the address. -/
def msync (b : Backend) (maps : List Mregion) (st : St) (addr len : Nat) : Option St :=
  match maps.find? fun r => decide (r.start ≤ addr ∧ addr < r.start + r.len) with
  | none => none
  | some r => b.writeBack st addr len r.off

end Backend

def Apart (maps : List Mregion) : Prop :=
  maps.Pairwise fun r r' => r.start + r.len ≤ r'.start ∨ r'.start + r'.len ≤ r.start

/-- What `msync` is for: the bytes of the mapping `r` from `addr` on are on the device where
the mapping has them, and no other byte has changed. -/
def WritesBack (b : Backend) (maps : List Mregion) (r : Mregion) (st : St) (addr len : Nat) :
    Prop :=
  ∃ st', b.msync maps st addr len = some st' ∧ st'.mem = st.mem ∧
    b.bytes st'.dev =
      write (b.bytes st.dev) (r.off + (addr - r.start)) (read st.mem addr len)

/-! ## The footers of a directory -/

structure DirMapEntry where
  mmRegion : Nat
  grainOffset : Nat
  sizeB : Nat
  huge : Bool
  deriving DecidableEq, Repr

/-- `sizeof(dirmap_ftr)`. -/
def ftrSize : Nat := 512

namespace DirMapEntry

def ftr (e : DirMapEntry) : Nat := e.mmRegion + e.sizeB - ftrSize

def pageSize (e : DirMapEntry) : Nat := if e.huge then 2 ^ 21 else 2 ^ 12

def alignedPtr (e : DirMapEntry) : Nat := e.ftr / e.pageSize * e.pageSize

end DirMapEntry

def invalidateFtr (b : Backend) (maps : List Mregion) : List DirMapEntry → St → Option St
  | [], st => some st
  | e :: rest, st =>
    let st1 := { st with mem := write st.mem e.ftr (List.replicate ftrSize 0) }
    match b.msync maps st1 e.alignedPtr (e.ftr - e.alignedPtr + ftrSize) with
    | none => none
    | some st2 => invalidateFtr b maps rest st2

/-- The fields of `dirmap_hdr` in the bytes at `a`. -/
def hdrAt (m : Nat → UInt8) (a : Nat) : DirmapHdr :=
  ⟨leNat (read m a 2), leNat (read m (a + 2) 2), leNat (read m (a + 4) 4),
    leNat (read m (a + 8) 8)⟩

variable {c : Config}

/-- The first byte of segment `j`, and the first byte of its footer. -/
def segOff (c : Config) (j : Nat) : Nat := j * c.segSize * c.grainSize

def ftrOff (c : Config) (j : Nat) : Nat := segOff c j + c.dataGrains * c.grainSize - ftrSize

/-- The device has the bytes `m` in the segments of tables. -/
structure Reads (d : Device c) (m : Nat → UInt8) : Prop where
  hdr : ∀ j, (d.dirSeg j).hdr = hdrAt m (segOff c j)
  ftr : ∀ j, (d.dirSeg j).ftr.toDirmapHdr = hdrAt m (ftrOff c j)

/-- The whole of segment `j` is mapped for the table `e`. -/
structure TableMap (c : Config) (maps : List Mregion) (e : DirMapEntry) (j : Nat) : Prop where
  mapped : ⟨e.mmRegion, segOff c j, c.segSize * c.grainSize⟩ ∈ maps
  offset : e.grainOffset = j * c.segSize
  size : e.sizeB = c.dataGrains * c.grainSize
  room : ftrSize ≤ e.sizeB

/-! ## Writing back -/

theorem sync_write_split (st : St) (addr a b off : Nat) :
    sync .write 0 (sync .write 0 st ⟨addr, a⟩ off) ⟨addr + a, b⟩ (off + a) =
      sync .write 0 st ⟨addr, a + b⟩ off := by
  have happ := write_append (st.dev 0) off (Bytes.read st.mem addr a)
    (Bytes.read st.mem (addr + a) b)
  rw [read_length, ← read_add] at happ
  simp only [sync, Function.update_self, Function.update_idem, happ]

theorem spdkLoop_eq {fuel len : Nat} (h : len < fuel) (st : St) (addr off : Nat) :
    Backend.spdkLoop fuel st addr len off = some (sync .write 0 st ⟨addr, len⟩ off) := by
  induction fuel generalizing len st addr off with
  | zero => omega
  | succ fuel ih =>
    rw [Backend.spdkLoop]
    by_cases h0 : len = 0
    · subst h0
      simp [sync, Bytes.read]
    · have hlen : min len 8192 + (len - min len 8192) = len := by omega
      dsimp only
      rw [if_neg h0, ih (by omega), sync_write_split, hlen]

variable (b : Backend)

theorem writeBack_spec (st : St) (addr len off : Nat) :
    ∃ st', b.writeBack st addr len off = some st' ∧ st'.mem = st.mem ∧
      b.bytes st'.dev = write (b.bytes st.dev) off (Bytes.read st.mem addr len) := by
  cases b with
  | file => exact ⟨_, rfl, rfl, by simp [Backend.bytes, sync]⟩
  | spdk =>
    refine ⟨_, spdkLoop_eq (Nat.lt_succ_self len) st addr off, rfl, ?_⟩
    simp [Backend.bytes, sync]
  | spdkArray n hn =>
    rw [Backend.writeBack, pio_contiguous .write hn (Nat.lt_succ_self len)]
    refine ⟨_, rfl, ?_, ?_⟩
    · rw [contiguous_write_one]
    · rw [contiguous_write_one]
      exact logical_striped hn _ _

variable {maps : List Mregion} {r : Mregion} {addr len : Nat}

theorem find_mregion (hap : Apart maps) (hr : r ∈ maps) (hlo : r.start ≤ addr)
    (hhi : addr < r.start + r.len) :
    maps.find? (fun r => decide (r.start ≤ addr ∧ addr < r.start + r.len)) = some r := by
  refine Places.find?_unique hr (decide_eq_true ⟨hlo, hhi⟩) ?_
  intro r' hr' hin
  obtain ⟨hlo', hhi'⟩ := of_decide_eq_true hin
  by_contra hne
  have hsym : Std.Symm fun r r' : Mregion =>
      r.start + r.len ≤ r'.start ∨ r'.start + r'.len ≤ r.start := ⟨fun _ _ h => h.symm⟩
  rcases hap.forall hr' hr hne with h | h <;> omega

/-- What `msync` does: the memory goes to the start of the mapping. -/
theorem msync_spec (hap : Apart maps) (hr : r ∈ maps) (hlo : r.start ≤ addr)
    (hhi : addr < r.start + r.len) (st : St) :
    ∃ st', b.msync maps st addr len = some st' ∧ st'.mem = st.mem ∧
      b.bytes st'.dev = write (b.bytes st.dev) r.off (Bytes.read st.mem addr len) := by
  rw [Backend.msync, find_mregion hap hr hlo hhi]
  exact writeBack_spec b st addr len r.off

theorem bytes_zero : b.bytes (fun _ _ => 0) = fun _ => 0 := by
  cases b <;> rfl

/-- From inside a mapping, the first byte goes elsewhere. -/
theorem writesBack_start (hap : Apart maps) (hr : r ∈ maps) (hlo : r.start ≤ addr)
    (hhi : addr < r.start + r.len) (hpos : 0 < len)
    (h : WritesBack b maps r ⟨fun a => if a = addr then 1 else 0, fun _ _ => 0⟩ addr len) :
    addr = r.start := by
  by_contra hne
  obtain ⟨st', hm, -, hdev⟩ := h
  obtain ⟨st'', hm', -, hdev'⟩ := @msync_spec b maps r addr len hap hr hlo hhi
    ⟨fun a => if a = addr then 1 else 0, fun _ _ => 0⟩
  obtain rfl : st' = st'' := Option.some.inj (hm.symm.trans hm')
  simp only [bytes_zero] at hdev hdev'
  -- the byte where the mapping has the address
  have hwant : write (fun _ => 0) (r.off + (addr - r.start))
      (Bytes.read (fun a => if a = addr then 1 else 0) addr len)
        (r.off + (addr - r.start)) = 1 := by
    have happ := write_read_apply (fun _ => 0) (fun a => if a = addr then 1 else 0)
      (r.off + (addr - r.start)) addr len 0
    rw [if_pos hpos] at happ
    simpa using happ
  have hgot : write (fun _ => 0) r.off
      (Bytes.read (fun a => if a = addr then 1 else 0) addr len)
        (r.off + (addr - r.start)) = 0 := by
    rw [write_read_apply]
    split
    · exact if_neg (by omega)
    · rfl
  have hone : (1 : UInt8) = 0 :=
    hwant.symm.trans ((congrFun (hdev.symm.trans hdev') _).trans hgot)
  exact absurd hone (by decide)

/-- `msync` of a range of a mapping writes back where it belongs, for every content, exactly
when the range is empty or begins with the mapping. -/
theorem msync_writesBack_iff (hap : Apart maps) (hr : r ∈ maps) (hlo : r.start ≤ addr)
    (hhi : addr < r.start + r.len) :
    (∀ st, WritesBack b maps r st addr len) ↔ addr = r.start ∨ len = 0 := by
  constructor
  · intro h
    by_cases hlen : len = 0
    · exact .inr hlen
    · exact .inl (writesBack_start b hap hr hlo hhi (by omega) (h _))
  · intro h st
    obtain ⟨st', hm, hmem, hdev⟩ := @msync_spec b maps r addr len hap hr hlo hhi st
    refine ⟨st', hm, hmem, ?_⟩
    rcases h with rfl | rfl
    · rw [hdev, Nat.sub_self, Nat.add_zero]
    · rw [hdev, Bytes.read, write_nil, write_nil]

/-! ## After a restore -/

/-- The footer of segment `j` is zero. -/
def Wiped (c : Config) (j : Nat) (m : Nat → UInt8) : Prop := ∀ i < ftrSize, m (ftrOff c j + i) = 0

variable {m : Nat → UInt8}

theorem leNat_zeros {a k : Nat} (h : ∀ i < k, m (a + i) = 0) : leNat (Bytes.read m a k) = 0 := by
  induction k generalizing a with
  | zero => rfl
  | succ k ih =>
    have hhead : m a = 0 := h 0 (by omega)
    have htail : leNat (Bytes.read m (a + 1) k) = 0 := by
      refine ih fun i hi => ?_
      rw [Nat.add_assoc]
      exact h (1 + i) (by omega)
    simp [Bytes.read, leNat, hhead, htail]

theorem Wiped.hdrAt {j : Nat} (h : Wiped c j m) : hdrAt m (ftrOff c j) = ⟨0, 0, 0, 0⟩ := by
  have hpart : ∀ k l, k + l ≤ ftrSize → leNat (Bytes.read m (ftrOff c j + k) l) = 0 := by
    intro k l hkl
    refine leNat_zeros fun i hi => ?_
    rw [Nat.add_assoc]
    exact h (k + i) (by omega)
  have h0 := hpart 0 2 (by decide)
  rw [Nat.add_zero] at h0
  rw [Mmap.hdrAt, h0, hpart 2 2 (by decide), hpart 4 4 (by decide), hpart 8 8 (by decide)]

theorem segOff_apart {j k : Nat} (h : j ≠ k) :
    segOff c j + c.segSize * c.grainSize ≤ segOff c k ∨
      segOff c k + c.segSize * c.grainSize ≤ segOff c j := by
  have hle : ∀ {j k : Nat}, j < k → segOff c j + c.segSize * c.grainSize ≤ segOff c k := by
    intro j k hjk
    have hmul := Nat.mul_le_mul_right (c.segSize * c.grainSize) (Nat.succ_le_of_lt hjk)
    rw [segOff, segOff, Nat.mul_assoc, Nat.mul_assoc]
    rw [Nat.succ_mul] at hmul
    exact hmul
  rcases Nat.lt_or_gt_of_ne h with h | h
  · exact .inl (hle h)
  · exact .inr (hle h)

theorem net_le (c : Config) : c.dataGrains * c.grainSize ≤ c.segSize * c.grainSize :=
  Nat.mul_le_mul_right _ (Nat.sub_le _ _)

def Off (c : Config) (j : Nat) (w : Nat × List UInt8) : Prop :=
  w.1 + w.2.length ≤ ftrOff c j ∨ ftrOff c j + ftrSize ≤ w.1

theorem Wiped.write {j : Nat} (h : Wiped c j m) {w : Nat × List UInt8} (hw : Off c j w) :
    Wiped c j (write m w.1 w.2) := by
  intro i hi
  rw [write_outside, h i hi]
  rcases hw with hw | hw <;> omega

theorem Wiped.writes {j : Nat} (h : Wiped c j m) {ws : List (Nat × List UInt8)}
    (hws : ∀ w ∈ ws, Off c j w) : Wiped c j (ws.foldl (fun m w => Bytes.write m w.1 w.2) m) := by
  induction ws generalizing m with
  | nil => exact h
  | cons w ws ih =>
    exact ih (h.write (hws w mem_cons_self)) fun w' hw' => hws w' (mem_cons_of_mem _ hw')

section Directory

variable {b : Backend} {e : DirMapEntry} {j : Nat}

/-- The pages around the footer begin with the mapping, so that all of the table is written. -/
theorem TableMap.span (h : TableMap c maps e j) (hp : e.alignedPtr = e.mmRegion) :
    e.ftr - e.alignedPtr + ftrSize = c.dataGrains * c.grainSize := by
  have hroom := h.room
  have hsize := h.size
  rw [hp, DirMapEntry.ftr]
  omega

theorem TableMap.msync (h : TableMap c maps e j) (hap : Apart maps) (hp : e.alignedPtr = e.mmRegion)
    (st : St) :
    ∃ st', b.msync maps { st with mem := write st.mem e.ftr (List.replicate ftrSize 0) }
        e.alignedPtr (e.ftr - e.alignedPtr + ftrSize) = some st' ∧
      Wiped c j (b.bytes st'.dev) ∧
      ∀ k, k ≠ j → Wiped c k (b.bytes st.dev) → Wiped c k (b.bytes st'.dev) := by
  have hroom := h.room
  have hsize := h.size
  have hnet := net_le c
  have hpos : 0 < ftrSize := by decide
  rw [h.span hp, hp]
  obtain ⟨st', hm, -, hdev⟩ := @msync_spec b maps _ e.mmRegion (c.dataGrains * c.grainSize) hap
    h.mapped (Nat.le_refl _) (by dsimp only; omega)
    { st with mem := write st.mem e.ftr (List.replicate ftrSize 0) }
  dsimp only at hdev
  refine ⟨st', hm, ?_, ?_⟩
  · intro i hi
    rw [hdev, ftrOff, show segOff c j + c.dataGrains * c.grainSize - ftrSize + i =
      segOff c j + (c.dataGrains * c.grainSize - ftrSize + i) by omega, write_read_apply,
      if_pos (by omega), show e.mmRegion + (c.dataGrains * c.grainSize - ftrSize + i) =
      e.ftr + i by rw [DirMapEntry.ftr]; omega, write, if_pos (by omega), Nat.add_sub_cancel_left,
      getD_eq_getElem _ _ (by rw [length_replicate]; exact hi), getElem_replicate]
  · intro k hk hwk
    rw [hdev]
    refine Wiped.write (w := (segOff c j, _)) hwk ?_
    have hapart := @segOff_apart c k j hk
    rw [Off, read_length, ftrOff]
    dsimp only
    omega

theorem invalidateFtr_wiped (hap : Apart maps) {es : List (DirMapEntry × Nat)}
    (hes : ∀ x ∈ es, TableMap c maps x.1 x.2 ∧ x.1.alignedPtr = x.1.mmRegion) (st : St) :
    ∃ st', invalidateFtr b maps (es.map Prod.fst) st = some st' ∧
      (∀ x ∈ es, Wiped c x.2 (b.bytes st'.dev)) ∧
      ∀ k, Wiped c k (b.bytes st.dev) → Wiped c k (b.bytes st'.dev) := by
  induction es generalizing st with
  | nil => exact ⟨st, rfl, by simp, fun _ h => h⟩
  | cons x es ih =>
    obtain ⟨hmap, hp⟩ := hes x mem_cons_self
    obtain ⟨st1, hm, hw, hkeep⟩ := hmap.msync (b := b) hap hp st
    obtain ⟨st2, hrest, hall, hkeep2⟩ := ih (fun y hy => hes y (mem_cons_of_mem _ hy)) st1
    refine ⟨st2, ?_, ?_, ?_⟩
    · rw [map_cons, invalidateFtr, hm]
      exact hrest
    · intro y hy
      rcases mem_cons.mp hy with rfl | hy
      · exact hkeep2 _ hw
      · exact hall y hy
    · intro k hk
      grind

/-- A segment with a wiped footer is not collected. -/
theorem Wiped.not_restored {checksum32 : Nat → Nat → Nat → Nat} (hcs : checksum32 0 0 0 ≠ 0)
    {d : Device c} {m : Nat → UInt8} (hd : Reads d m) (h : Wiped c j m) :
    j ∉ d.restored checksum32 := by
  have hvalid : d.dirValid checksum32 j = false := by
    have hftr := (hd.ftr j).trans h.hdrAt
    rw [Device.dirValid]
    split
    · dsimp only
      rw [hftr]
      simp [hcs]
    · rfl
  rw [Device.restored]
  split
  · simp
  · intro hj
    have hcol := (mem_filter.mp (mem_filter.mp hj).1).2
    rw [hvalid] at hcol
    cases hcol

end Directory

/-- `msync` of a range writes back where it belongs exactly when the range is empty or begins
with its mapping. Where the pages of all footers do so, a directory that has been
invalidated is not restored again, whatever is written outside its footers. -/
theorem msync_invalidateFtr (b : Backend) :
    (∀ maps r addr len, Apart maps → r ∈ maps → r.start ≤ addr → addr < r.start + r.len →
      ((∀ st, WritesBack b maps r st addr len) ↔ addr = r.start ∨ len = 0)) ∧
    ∀ (c : Config) maps (es : List (DirMapEntry × Nat)) checksum32 st, Apart maps →
      (∀ x ∈ es, TableMap c maps x.1 x.2 ∧ x.1.alignedPtr = x.1.mmRegion) →
      checksum32 0 0 0 ≠ 0 →
      ∃ st', invalidateFtr b maps (es.map Prod.fst) st = some st' ∧
        ∀ ws : List (Nat × List UInt8), (∀ w ∈ ws, ∀ x ∈ es, Off c x.2 w) →
          ∀ d : Device c, Reads d (ws.foldl (fun m w => write m w.1 w.2) (b.bytes st'.dev)) →
            ∀ x ∈ es, x.2 ∉ d.restored checksum32 := by
  refine ⟨?_, ?_⟩
  · intro maps r addr len hap hr hlo hhi
    exact msync_writesBack_iff b hap hr hlo hhi
  · intro c maps es checksum32 st hap hes hcs
    obtain ⟨st', hrun, hw, -⟩ := invalidateFtr_wiped (b := b) hap hes st
    refine ⟨st', hrun, ?_⟩
    intro ws hws d hd x hx
    exact ((hw x hx).writes fun w hw => hws w hw x hx).not_restored hcs hd

theorem grains512_sizes {n : Nat} (h : 1 < n) : Config.sizesOk 4 512 n 1 = true := by
  simp only [Config.sizesOk, decide_eq_true_eq]
  omega

/-- Segments of `n` grains of 512 bytes, the last of them for metadata. -/
def grains512 (n : Nat) (h : 1 < n) : Config :=
  .ofSizes 4 512 n 1 4 (fun _ => 5) (fun _ _ => 0) (grains512_sizes h)

/-- A directory of one table, in a segment of one page. -/
theorem msync_invalidateFtr_page :
    (∀ st, WritesBack .spdk [⟨8192, 4096, 4096⟩] ⟨8192, 4096, 4096⟩ st 8192 3584) ∧
      ∃ st', invalidateFtr .spdk [⟨8192, 4096, 4096⟩] [⟨8192, 8, 3584, false⟩]
          ⟨fun _ => 1, fun _ _ => 1⟩ = some st' ∧
        ∀ d : Device (grains512 8 (by decide)), Reads d (Backend.spdk.bytes st'.dev) →
          1 ∉ d.restored fun ts n i => ts + n + i + 1 := by
  have hap : Apart [⟨8192, 4096, 4096⟩] := pairwise_singleton _ _
  refine ⟨((msync_invalidateFtr .spdk).1 _ _ 8192 3584 hap mem_cons_self (by decide)
    (by decide)).mpr (.inl rfl), ?_⟩
  obtain ⟨st', hrun, hnot⟩ := (msync_invalidateFtr .spdk).2 (grains512 8 (by decide))
    [⟨8192, 4096, 4096⟩] [(⟨8192, 8, 3584, false⟩, 1)] (fun ts n i => ts + n + i + 1)
    ⟨fun _ => 1, fun _ _ => 1⟩ hap
    (by
      intro x hx
      obtain rfl := mem_singleton.mp hx
      exact ⟨⟨mem_cons_self, rfl, rfl, by decide⟩, rfl⟩) (by decide)
  exact ⟨st', hrun, fun d hd => hnot [] (by simp) d hd _ mem_cons_self⟩

/-- The second page of a mapping is written over its first, and the footer of a table of two
pages stays on the device. -/
theorem msync_second_page :
    (¬ ∀ st, WritesBack .file [⟨8192, 0, 8192⟩] ⟨8192, 0, 8192⟩ st 12288 4096) ∧
      ∃ st', invalidateFtr .file [⟨8192, 0, 8192⟩] [⟨8192, 0, 7680, false⟩]
          ⟨fun _ => 1, fun _ _ => 1⟩ = some st' ∧
        ∀ i < ftrSize, st'.dev 0 (ftrOff (grains512 16 (by decide)) 0 + i) = 1 := by
  have hap : Apart [⟨8192, 0, 8192⟩] := pairwise_singleton _ _
  refine ⟨?_, ?_⟩
  · intro h
    rcases (msync_writesBack_iff .file hap mem_cons_self (by decide) (by decide)).mp h
      with h | h <;> exact absurd h (by decide)
  · obtain ⟨st', hm, -, hdev⟩ := @msync_spec .file _ _ 12288 3584 hap mem_cons_self
      (by decide) (by decide)
      ⟨write (fun _ => 1) (8192 + 7680 - 512) (List.replicate 512 0), fun _ _ => 1⟩
    refine ⟨st', ?_, ?_⟩
    · have hptr : (⟨8192, 0, 7680, false⟩ : DirMapEntry).alignedPtr = 12288 := by decide
      have hlen : (⟨8192, 0, 7680, false⟩ : DirMapEntry).ftr - 12288 + ftrSize = 3584 := by decide
      rw [invalidateFtr, hptr, hlen]
      exact congrArg (fun o => match o with | none => none | some st => some st) hm
    · intro i hi
      have hoff : ftrOff (grains512 16 (by decide)) 0 = 7168 := by decide
      have hdev0 : st'.dev 0 = write (fun _ => 1) 0 (Bytes.read _ 12288 3584) := hdev
      rw [hdev0, write_outside _ _ (.inr (by rw [read_length]; omega))]

end UDepot.Mmap
