import UDepot.FailedPut
import UDepot.Recovery
import UDepot.Timestamps
import UDepot.Lib.Places

/-! A clean shutdown and the restart after it: `shutdown` and `restore` of
`udepot-directory-map.cc`. Each table of the directory is a mapped segment, with a
header that the end of `grow` writes and a footer that `shutdown` writes.

The restart collects the segments whose header and footer check, takes those of the
largest directory, and counts the grains of the entries in their tables. -/

namespace UDepot
open UDepotMap

/-- The fields of `dirmap_hdr`, with which `dirmap_ftr` begins too. -/
structure DirmapHdr where
  dirSize : Nat
  idx : Nat
  csum : Nat
  ts : Nat
  deriving DecidableEq, Repr

structure DirmapFtr extends DirmapHdr where
  usedBytesKv : Int
  totBytesKv : Int
  deriving DecidableEq, Repr

/-- A segment as `restore` reads it when its metadata is that of the directory. -/
structure DirSeg (bits : Nat) where
  hdr : DirmapHdr
  map : UDepotMap bits
  ftr : DirmapFtr

/-- What is on the device between two runs. The segments of tables are kept apart from
the bytes of the records. -/
structure Device (c : Config) where
  media : Nat → UInt8
  segMd : Nat → Option SegMd
  dirSeg : Nat → DirSeg c.bits

/-- The header of table `i` of `n`, written at `ts`: size and index are 16 bits wide,
and the checksum, seeded by the time and the store, is over the two. -/
def dirmapMd (checksum32 : Nat → Nat → Nat → Nat) (n ts i : Nat) : DirmapHdr :=
  ⟨n % 2 ^ 16, i % 2 ^ 16, checksum32 ts (n % 2 ^ 16) (i % 2 ^ 16), ts⟩

variable {c : Config}

namespace Store

/-! ## Shutdown -/

/-- The segment of table `i`. -/
def tableSeg (s : Store c) (i : Nat) : Nat := c.grainToSegIdx (s.tables.getD i 0)

def forTables (s : Store c) (f : Nat → DirSeg c.bits → DirSeg c.bits) (x : Nat → DirSeg c.bits) :
    Nat → DirSeg c.bits :=
  Places.writeAll s.tableSeg f (List.range s.tables.length) x

/-- What the segments of the tables hold while the store runs, `x` being what the
segments held before: the tables and the headers of the growth that made them. -/
def mapped (checksum32 : Nat → Nat → Nat → Nat) (hdrTs : Nat → Nat) (s : Store c)
    (x : Nat → DirSeg c.bits) : Nat → DirSeg c.bits :=
  s.forTables (fun i y =>
    { y with hdr := dirmapMd checksum32 s.tables.length (hdrTs i) i, map := s.dir.map i }) x

/-- The footer of table `i`: that of the last table carries the statistics. -/
def dirmapFtr (checksum32 : Nat → Nat → Nat → Nat) (ts : Nat) (s : Store c) (i : Nat) : DirmapFtr :=
  { dirmapMd checksum32 s.tables.length ts i with
    usedBytesKv := if s.tables.length - 1 ≠ i then 0 else s.stats.usedBytes
    totBytesKv := if s.tables.length - 1 ≠ i then 0 else s.stats.totalBytes }

def shutdown (checksum32 : Nat → Nat → Nat → Nat) (ftrTs : Nat → Nat) (s : Store c)
    (x : Nat → DirSeg c.bits) : Device c where
  media := s.media
  segMd := s.segMd
  dirSeg := s.forTables (fun i y => { y with ftr := s.dirmapFtr checksum32 (ftrTs i) i }) x

/-! ## The capacity manager -/

/-- `Scm::restore_grain_range` for `len` grains from the start of segment `i`, and
whether its assertions hold. Only a free segment is provisioned. -/
def scmRestoreGrainRange (maxCapacityReloc : Nat) (s : Store c) (i len : Nat) : Store c × Bool :=
  let validNr := (s.seg i).validNr + len
  if (s.seg i).state = .free then
    let validNr := validNr - c.segSize
    let s1 := s.setSeg i ⟨.closed, c.segSize, validNr⟩
    -- `provision_grains` for a relocation
    let rc := decide (s.usedCapacity + len ≤ maxCapacityReloc)
    ({ s1 with usedCapacity := if rc then s.usedCapacity + len else s.usedCapacity },
      decide (len < c.segSize) && decide (0 < len) && decide (0 < validNr) && rc &&
        decide (validNr ≤ c.segSize))
  else
    (s.setSeg i { s.seg i with validNr := validNr },
      decide (len < c.segSize) && decide (0 < len) && decide (validNr ≤ c.segSize))

/-- The ranges in turn, and whether every assertion holds. -/
def restoreRanges (maxCapacityReloc : Nat) (s : Store c) : List (Nat × Nat) → Store c × Bool
  | [] => (s, true)
  | r :: rest =>
    let x := s.scmRestoreGrainRange maxCapacityReloc r.1 r.2
    let y := x.1.restoreRanges maxCapacityReloc rest
    (y.1, x.2 && y.2)

end Store

namespace Device
open Directory

/-! ## Restore -/

/-- The metadata is that of the directory, and header and footer check. -/
def dirValid (checksum32 : Nat → Nat → Nat → Nat) (d : Device c) (j : Nat) : Bool :=
  match d.segMd j with
  | some ⟨.directory, _⟩ =>
    let x := d.dirSeg j
    decide (checksum32 x.hdr.ts x.hdr.dirSize x.hdr.idx = x.hdr.csum) &&
      decide (checksum32 x.ftr.ts x.ftr.dirSize x.ftr.idx = x.ftr.csum)
  | _ => false

/-- The key under which a segment is collected: `hdr.dir_size - 1` as 32 bits. -/
def dirKey (d : Device c) (j : Nat) : Nat := ((d.dirSeg j).hdr.dirSize + (2 ^ 32 - 1)) % 2 ^ 32

def collected (checksum32 : Nat → Nat → Nat → Nat) (d : Device c) : List Nat :=
  (List.range c.segNr).filter (d.dirValid checksum32)

def restored (checksum32 : Nat → Nat → Nat → Nat) (d : Device c) : List Nat :=
  match ((d.collected checksum32).map d.dirKey).max? with
  | none => []
  | some key => (d.collected checksum32).filter fun j => d.dirKey j = key

/-- The segment that ends up as table `i` of the new directory. -/
def newDir (d : Device c) (group : List Nat) (i : Nat) : Option Nat :=
  group.reverse.find? fun j => (d.dirSeg j).hdr.idx = i

def usedEntries {bits : Nat} (dir : Directory bits) : List HashEntry :=
  (dir.slots.map fun x => (dir.map x.1).ht x.2).filter HashEntry.used

/-- The grains that are counted for an entry: those it names, or those of the record
where the size did not fit the entry. -/
def grainNr (d : Device c) (e : HashEntry) : Nat :=
  if e.kvSize = maxKvSize ∧ e.deleted = false then c.recGrains d.media e.pba else e.kvSize

/-- `assert(UDEPOT_SALSA_MAX_KV_SIZE <= grain_nr)`. -/
def grainNrOk (d : Device c) (e : HashEntry) : Bool :=
  decide (e.kvSize = maxKvSize ∧ e.deleted = false → maxKvSize ≤ d.grainNr e)

/-- The item of `validity_map` for segment `j`, which is there if an entry is. -/
def validityAt (d : Device c) (es : List HashEntry) (j : Nat) : Option (Nat × Nat) :=
  let es := es.filter fun e => c.grainToSegIdx e.pba = j
  if es.isEmpty then none else some (j, (es.map d.grainNr).sum)

/-- `validity_map`: the segments with an entry and the grains counted in each. -/
def validityMap (d : Device c) (es : List HashEntry) : List (Nat × Nat) :=
  (List.range c.segNr).filterMap (d.validityAt es)

/-- What the footers say of used and total bytes. -/
def restoredBytes (d : Device c) (group : List Nat) : Int × Int :=
  group.foldl (fun b j =>
    if (d.dirSeg j).ftr.idx = group.length - 1 then
      ((d.dirSeg j).ftr.usedBytesKv, (d.dirSeg j).ftr.totBytesKv)
    else b) (0, 0)

/-- Header and footer name the same table, in each segment collected. -/
def hdrFtrOk (d : Device c) (js : List Nat) : Bool :=
  js.all fun j => decide ((d.dirSeg j).hdr.dirSize = (d.dirSeg j).ftr.dirSize ∧
    (d.dirSeg j).hdr.idx = (d.dirSeg j).ftr.idx)

/-- `assert(1 <= seg_md.timestamp)` for every segment of the store. -/
def segTsOk (d : Device c) : Bool :=
  (List.range c.segNr).all fun j =>
    match d.segMd j with
    | some ⟨.kv, ts⟩ => decide (1 ≤ ts)
    | _ => true

/-- `holes`: a table of the new directory has no segment, or one is written past the
end of the directory. -/
inductive RestoreErr where
  | enodata
  | holes
  deriving DecidableEq, Repr

/-- The restored store, and whether every assertion on the way holds. Reads of the
device and mappings of tables do not fail. -/
def restore (checksum32 : Nat → Nat → Nat → Nat) (maxCapacityReloc : Nat) (d : Device c) :
    Except RestoreErr (Store c × Bool) :=
  let group := d.restored checksum32
  let newSize := group.length
  if newSize = 0 then .error .enodata
  else if 2 ^ Nat.log2 newSize = newSize ∧ ∀ i < newSize, (d.newDir group i).isSome then
    let dir : Directory c.bits :=
      ⟨Nat.log2 newSize, fun i => (d.dirSeg ((d.newDir group i).getD 0)).map⟩
    let es := usedEntries dir
    let r := (Store.blank c d.media d.segMd).restoreRanges maxCapacityReloc
      (group.map (fun j => (j, Store.tableGrains c)) ++ d.validityMap es)
    let bytes := d.restoredBytes group
    let maxSegAllocNr := Timestamps.maxSegAllocNr d.segMd c.segNr
    .ok ({ r.1 with
        dir := dir
        tables := (List.range newSize).map fun i => (d.newDir group i).getD 0 * c.segSize
        segTs := fun j => if j < c.segNr then Timestamps.kvTimestamp (d.segMd j) else 0
        segAllocNr := maxSegAllocNr
        stats := ⟨(es.filter fun e => !e.deleted).length, bytes.1, bytes.2⟩ },
      d.hdrFtrOk (d.collected checksum32) && es.all d.grainNrOk && r.2 && d.segTsOk &&
        decide (0 < maxSegAllocNr))
  else .error .holes

end Device

/-! ## The round trip -/

/-- A clean shutdown of `s` and the restart. -/
def Store.restart (checksum32 : Nat → Nat → Nat → Nat) (maxCapacityReloc : Nat)
    (hdrTs ftrTs : Nat → Nat) (s : Store c) (x : Nat → DirSeg c.bits) :
    Except Device.RestoreErr (Store c × Bool) :=
  (s.shutdown checksum32 ftrTs (s.mapped checksum32 hdrTs x)).restore checksum32 maxCapacityReloc

/-- The store comes back as it was: every slot of every table, the valid grains of every
segment, the used capacity and the statistics. -/
structure Store.SameStore (s s' : Store c) : Prop where
  idxBits : s'.dir.idxBits = s.dir.idxBits
  map : ∀ i, i < 2 ^ s.dir.idxBits → s'.dir.map i = s.dir.map i
  valid : ∀ j, s'.validGrains j = s.validGrains j
  used : s'.usedCapacity = s.usedCapacity
  stats : s'.stats = s.stats

end UDepot
