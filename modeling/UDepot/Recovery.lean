import UDepot.Gc
import UDepot.Lib.Elect

/-! Recovery after a crash. All that is left of the store is the device and the segment
metadata on it. `prep_crash_recovery` takes the segments with valid metadata of the
store out of the free list, the directory gets its first table, and `crash_recovery`
scans these segments record by record and maps each record that the order check
accepts.

The environment decides the order of the segments (the source takes them by index), the
segment of the first table and how a growth inside a restore goes. That the directory of
a clean shutdown is not restored is what makes it a crash. `valid_grain_nr` occurs in
assertions only and is left out. -/

namespace UDepot
open Bytes

namespace Config

variable (c : Config)

def dataGrains : Nat := c.segSize - c.segMdSize

/-- The scan of segment `i` ends in front of the record at offset `off`: the data ends
there, the record reaches out of it, or its checksum is not one for timestamp `ts`. -/
def scanStop (m : Nat → UInt8) (i ts off : Nat) : Bool :=
  let p := (i * c.segSize + off) * c.grainSize
  let md := c.readHeader m (i * c.segSize + off)
  !decide (off * c.grainSize < c.dataGrains * c.grainSize) ||
    decide (c.dataGrains * c.grainSize < off * c.grainSize + md.valSize + md.keySize) ||
    c.checksum16 ts (read m p putKeyvalPrefixSize) % 2 ^ 16 !=
      leNat (read m (p + putKeyvalPrefixSize + md.keySize + md.valSize) putKeyvalSuffixSize)

/-- The addresses of the records that the scan of segment `i` accepts. -/
def scanChain (m : Nat → UInt8) (i ts : Nat) : Nat → Nat → List Nat
  | 0, _ => []
  | n + 1, off =>
    if c.scanStop m i ts off then []
    else (i * c.segSize + off) ::
      scanChain m i ts n (off + c.recGrains m (i * c.segSize + off))

end Config

namespace Directory
open UDepotMap

variable {bits : Nat}

/-! ## Growth before the end of `init`

`map_entry_nr_bits_m` is set at the end of `init` and is zero before: a growth takes the
table of an entry from the low eight bits of its fingerprint. With one table, the width
makes no difference to `hash_to_map`. -/

def initCopyEntry (src : UDepotMap bits) (p : Nat) (new : Directory bits) :
    Option (Directory bits) :=
  if !(src.ht p).used then some new
  else
    let h := src.entryKeyfp p
    let i := hashToDirIdx 0 h new.idxBits
    match copySlot (new.map i) h with
    | (_, none) => none
    | (t, some q) => some (new.setMap i (t.insert q h (src.ht p).kvSize (src.ht p).pba))

def initCopyAll (d : Directory bits) : List (Nat × Nat) → Directory bits → Option (Directory bits)
  | [], new => some new
  | x :: rest, new => (initCopyEntry (d.map x.1) x.2 new).bind (initCopyAll d rest)

def initGrow (d : Directory bits) : Option (Directory bits) := d.initCopyAll d.slots d.doubled

end Directory

namespace Store
open UDepotMap Directory Config

variable {c : Config}

/-- `grow` before the end of `init`. -/
def initGrow (s : Store c) (allocs : List TableAlloc) : Store c × Bool :=
  match s.allocateTables (2 ^ (s.dir.idxBits + 1)) allocs, s.dir.initGrow with
  | (gs, s1, true), some d =>
    ({ s1.invalidateTables s.tables with dir := d, tables := gs }, true)
  | (gs, s1, true), none => (s1.invalidateTables gs, true)
  | (gs, s1, false), _ => (s1.invalidateTables gs, false)

/-- The timestamp of a segment whose metadata is valid for the store. -/
def kvTs (s : Store c) (i : Nat) : Option Nat :=
  match s.segMd i with
  | some ⟨.kv, ts⟩ => some ts
  | _ => none

/-! ## One record -/

/-- `nullTrgt`: a growth leaves the entry that is then written to a null pointer. -/
inductive RestoreRc where
  | ok
  | eexist
  | enospc
  | nullTrgt
  deriving DecidableEq, Repr

def tryRestoreEntry (s : Store c) (grain : Nat) (allocs : List TableAlloc) : Store c × RestoreRc :=
  let md := c.readHeader s.media grain
  let k := c.recKey s.media grain
  let h := c.hash k
  match s.lookupMbuffPut k with
  | .enospc =>
    match (s.table h).tryShift h with
    | (t, some q) =>
      ((s.setTable h t).setMapping h q false md.keySize md.valSize grain ⟨0, 0, 0⟩, .ok)
    | (t, none) =>
      match (s.setTable h t).initGrow allocs with
      | (s1, true) => (s1, .nullTrgt)
      | (s1, false) => (s1, .enospc)
  | .enodata q => (s.setMapping h q false md.keySize md.valSize grain ⟨0, 0, 0⟩, .ok)
  | .eexist q oldMd =>
    if s.isPbaOrderEqualToTotalOrder ((s.table h).ht q).pba grain oldMd then
      (s.setMapping h q true md.keySize md.valSize grain oldMd, .ok)
    else (s.invalidateGrains grain (c.kvTotGrainsGet md.keySize md.valSize), .eexist)

/-! ## The scan -/

/-- `ts_data`, with the address it is filed under. -/
structure Tombstone where
  pba : Nat
  h : Nat
  keySize : Nat
  deriving DecidableEq, Repr

inductive RecoverErr where
  | enoent
  | enospc
  | enodata
  | nullTrgt
  deriving DecidableEq, Repr

/-- The tombstones come out of a map by address in the source; the pass over them does
not depend on their order. -/
structure Recovery (c : Config) where
  store : Store c
  tombstones : List Tombstone
  maxSegAllocNr : Nat
  restoredSegNr : Nat

namespace Recovery

def restoreRecord (x : Recovery c) (g : Nat) (allocs : List TableAlloc) :
    Except RecoverErr (Recovery c) :=
  match x.store.tryRestoreEntry g allocs with
  | (s, .ok) =>
    let md := c.readHeader x.store.media g
    .ok { x with
      store := s
      tombstones :=
        if md.valSize = 0 then ⟨g, c.hash (c.recKey x.store.media g), md.keySize⟩ :: x.tombstones
        else x.tombstones }
  | (s, .eexist) => .ok { x with store := s }
  | (_, .enospc) => .error .enospc
  | (_, .nullTrgt) => .error .nullTrgt

/-- The loop over the records of segment `i`. `rc` is `ENOENT` until a record is restored. -/
def restoreLoop (i ts : Nat) (allocs : Nat → List TableAlloc) :
    Nat → Nat → Option RecoverErr → Recovery c → Except RecoverErr (Recovery c × Nat)
  | 0, off, none, x => .ok (x, off)
  | 0, _, some e, _ => .error e
  | n + 1, off, rc, x =>
    let g := i * c.segSize + off
    if c.scanStop x.store.media i ts off then
      match rc with
      | none => .ok (x, off)
      | some e => .error e
    else
      match x.restoreRecord g (allocs g) with
      | .error e => .error e
      | .ok y => restoreLoop i ts allocs n (off + c.recGrains x.store.media g) none y

/-- The grains behind the last record are not valid data. -/
def closeSegment (x : Recovery c) (i ts off : Nat) : Recovery c :=
  { x with
    store :=
      if off < c.dataGrains then
        x.store.invalidateGrains (i * c.segSize + off) (c.dataGrains - off)
      else x.store
    maxSegAllocNr := max x.maxSegAllocNr ts
    restoredSegNr := x.restoredSegNr + 1 }

def recoverSegment (allocs : Nat → List TableAlloc) (x : Recovery c) (i : Nat) :
    Except RecoverErr (Recovery c) :=
  match x.store.kvTs i with
  | none => .ok x
  | some ts =>
    match x.restoreLoop i ts allocs c.segSize 0 (some .enoent) with
    | .error e => .error e
    | .ok (y, off) => .ok (y.closeSegment i ts off)

def recoverSegments (allocs : Nat → List TableAlloc) : List Nat → Recovery c →
    Except RecoverErr (Recovery c)
  | [], x => .ok x
  | i :: rest, x =>
    match x.recoverSegment allocs i with
    | .error e => .error e
    | .ok y => recoverSegments allocs rest y

end Recovery

/-- `kv_remove_restored_tombstone` for a tombstone that is still mapped. -/
def dropTombstone (s : Store c) (t : Tombstone) : Store c :=
  match (s.table t.h).lookupPba t.h t.pba with
  | none => s
  | some _ => s.kvRemoved t.keySize 0

def crashRecovery (s : Store c) (order : List Nat) (allocs : Nat → List TableAlloc) :
    Except RecoverErr (Store c) :=
  match Recovery.recoverSegments allocs order ⟨s, [], 0, 0⟩ with
  | .error e => .error e
  | .ok x =>
    if x.restoredSegNr = 0 then .error .enodata
    else .ok (x.tombstones.foldl dropTombstone { x.store with segAllocNr := x.maxSegAllocNr })

/-! ## From the device to the scan -/

/-- What a process that starts finds: the device and the metadata of the segments. The
directory stands for the one that the first growth makes. -/
def blank (c : Config) (m : Nat → UInt8) (md : Nat → Option SegMd) : Store c where
  dir := ⟨0, fun _ => UDepotMap.init c.bits c.bits_lt⟩
  media := m
  seg := fun _ => ⟨.free, 0, c.segSize⟩
  segTs := fun _ => 0
  segMd := md
  segAllocNr := 0
  usedCapacity := 0
  tables := []
  stats := ⟨0, 0, 0⟩

/-- `restore_grain_range` and `restore_seg_ts` for the data of segment `i`. -/
def restoreGrainRange (s : Store c) (i ts : Nat) : Store c :=
  { s.setSeg i ⟨.closed, c.segSize, c.dataGrains⟩ with
    segTs := Function.update s.segTs i ts
    usedCapacity := s.usedCapacity + c.dataGrains }

def prepSegment (s : Store c) (i : Nat) : Store c :=
  match s.kvTs i with
  | none => s
  | some ts => s.restoreGrainRange i ts

def prepCrashRecovery (s : Store c) : Except RecoverErr (Store c) :=
  if (List.range c.segNr).all fun i => (s.kvTs i).isNone then .error .enodata
  else .ok ((List.range c.segNr).foldl prepSegment s)

/-- The first growth: the one table takes segment `i`, stamped with the size 0 that the
directory has before. -/
def firstGrow (s : Store c) (i : Nat) : Option (Store c) :=
  if i < c.segNr ∧ (s.seg i).state = .free then
    (((s.setSeg i ⟨.staged, c.segMdSize, (s.seg i).validNr - c.segMdSize⟩).persistSegMd i 0
      .directory).allocateGrains i (tableGrains c)).map fun r => { r.2 with tables := [r.1] }
  else none

/-- The recovery of what a crash leaves of `s`. -/
def recover (s : Store c) (order : List Nat) (i : Nat) (allocs : Nat → List TableAlloc) :
    Except RecoverErr (Store c) :=
  match (blank c s.media s.segMd).prepCrashRecovery with
  | .error e => .error e
  | .ok s1 =>
    match s1.firstGrow i with
    | none => .error .enospc
    | some s2 => s2.crashRecovery order allocs

/-- The addresses that recovery scans in segment `i`. -/
def scanned (s : Store c) (i : Nat) : List Nat :=
  match s.kvTs i with
  | none => []
  | some ts => c.scanChain s.media i ts c.segSize 0

end Store
end UDepot
