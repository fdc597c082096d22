import UDepot.Grow
import UDepot.Record
import UDepot.Lib.Visit

/-! The store of `udepot-lsa.cc` over the directory, the device and the capacity
manager: get, exists, put and del as one thread runs them, and the steps of the
garbage collector and of the allocator.

What the environment decides is an argument: the segment an allocation is served
from, the segment at the head of the staging queue, and how the allocation of the
tables of a growth goes. Reads of the device and writes of segment metadata do not
fail.

The operations are as the source computes them with its assertions compiled out. Where a state that
the store can reach makes one fail, there is a second definition with it, which gives `none` or a
constructor of its own then: `checkedGet` here, and `Config.getRecord` for the records of the
server. -/

namespace UDepot
open Bytes UDepotMap Function

inductive SegState where
  | free
  | staged
  | closed
  deriving DecidableEq, Repr

/-- What the capacity manager and the allocator keep of a segment: whether it is
free, open for allocation or closed; the grains handed out (`nr3`, the reserved
ones included); and `valid_nr`. -/
structure Seg where
  state : SegState
  nr3 : Nat
  validNr : Int
  deriving DecidableEq, Repr

/-- `uDepotSalsaType`: the store and its directory are two controllers. -/
inductive SalsaType where
  | kv
  | directory
  deriving DecidableEq, Repr

/-- What recovery reads of `salsa_seg_md`. -/
structure SegMd where
  ctlrType : SalsaType
  timestamp : Nat
  deriving DecidableEq, Repr

/-- `key_nr_m`, `used_bytes_m` and `total_bytes_m`. -/
structure KvStats where
  keyNr : Int
  usedBytes : Int
  totalBytes : Int
  deriving DecidableEq, Repr

inductive PutOp where
  | normal
  | create
  | replace
  deriving DecidableEq, Repr

/-- The store: the directory, the device, the segments with their timestamps
(`seg_ts_m`) and the metadata on the device, the number of segments that the store
allocated, `used_capacity_`, the grains of the directory's tables and the statistics. -/
structure Store (c : Config) where
  dir : Directory c.bits
  media : Nat → UInt8
  seg : Nat → Seg
  segTs : Nat → Nat
  segMd : Nat → Option SegMd
  segAllocNr : Nat
  usedCapacity : Int
  tables : List Nat
  stats : KvStats

namespace Store

variable {c : Config}

def table (s : Store c) (h : Nat) : UDepotMap c.bits := s.dir.hashToMap h

def setTable (s : Store c) (h : Nat) (t : UDepotMap c.bits) : Store c :=
  { s with dir := s.dir.setMap (hashToDirIdx c.bits h s.dir.idxBits) t }

def setSeg (s : Store c) (i : Nat) (x : Seg) : Store c :=
  { s with seg := update s.seg i x }

/-! ## Allocation -/

def persistSegMd (s : Store c) (i ts : Nat) (ctlrType : SalsaType) : Store c :=
  { s with
    segMd := update s.segMd i (some ⟨ctlrType, ts⟩)
    segTs := update s.segTs i ts }

/-- `seg_md_callback` of the two controllers: the store numbers its segments, the
directory stamps them with its size. -/
def segMdCallback (s : Store c) (i : Nat) : SalsaType → Store c
  | .kv => { s with segAllocNr := s.segAllocNr + 1 }.persistSegMd i (s.segAllocNr + 1) .kv
  | .directory => s.persistSegMd i (2 ^ s.dir.idxBits) .directory

/-- `allocator_allocate_segment`: the grains of the segment metadata are not
valid data. -/
def allocateSegment (s : Store c) (i : Nat) (ctlrType : SalsaType) : Option (Store c) :=
  if i < c.segNr ∧ (s.seg i).state = .free then
    some ((s.setSeg i ⟨.staged, c.segMdSize, (s.seg i).validNr - c.segMdSize⟩).segMdCallback
      i ctlrType)
  else none

/-- `allocate_grains` out of segment `i`. -/
def allocateGrains (s : Store c) (i len : Nat) : Option (Nat × Store c) :=
  let x := s.seg i
  if x.state = .staged ∧ x.nr3 < c.segSize ∧ x.nr3 + len ≤ c.segSize then
    some (i * c.segSize + x.nr3 - c.segMdSize,
      { s.setSeg i { x with
          nr3 := x.nr3 + len
          state := if x.nr3 + len = c.segSize then .closed else .staged } with
        usedCapacity := s.usedCapacity + len })
  else none

/-- A segment leaves the staging queue: the grains not handed out are not valid
data (`allocator_drain_remaining_grains`, and the recycling in
`allocator_allocate_grains`). -/
def recycleSegment (s : Store c) (i : Nat) : Store c :=
  let x := s.seg i
  if x.state = .staged then
    s.setSeg i { x with state := .closed, validNr := x.validNr - (c.segSize - x.nr3 : Nat) }
  else s

def invalidateGrains (s : Store c) (grain len : Nat) : Store c :=
  let i := c.grainToSegIdx grain
  { s.setSeg i { s.seg i with validNr := (s.seg i).validNr - len } with
    usedCapacity := s.usedCapacity - len }

/-- `scm_put_free_seg`. That no grain is valid is only asserted: the collector
releases a segment when its callback returns 0. -/
def putFreeSeg (s : Store c) (i : Nat) : Option (Store c) :=
  if (s.seg i).state = .closed then some (s.setSeg i ⟨.free, 0, c.segSize⟩) else none

/-! ## Statistics -/

def kvTotBytesGet (c : Config) (keySize valSize : Nat) : Nat :=
  c.grainSize * c.kvTotGrainsGet keySize valSize

def kvRawBytesGet (keySize valSize : Nat) : Nat := (valSize % 2 ^ 32 + keySize % 2 ^ 32) % 2 ^ 32

def kvAdded (s : Store c) (keySize valSize : Nat) : Store c :=
  { s with stats := ⟨s.stats.keyNr + 1, s.stats.usedBytes + kvRawBytesGet keySize valSize,
    s.stats.totalBytes + kvTotBytesGet c keySize valSize⟩ }

def kvRemoved (s : Store c) (keySize valSize : Nat) : Store c :=
  { s with stats := ⟨s.stats.keyNr - 1, s.stats.usedBytes - kvRawBytesGet keySize valSize,
    s.stats.totalBytes - kvTotBytesGet c keySize valSize⟩ }

/-! ## Lookup of a key -/

inductive CommonRes where
  | enodata (q : Nat)
  | enospc
  | trgt (he : Option Nat)
  deriving DecidableEq, Repr

/-- `lookup_common`: the first entry of the fingerprint at an address not
visited yet. -/
def lookupCommon (t : UDepotMap c.bits) (h : Nat) (visited : List Nat) : CommonRes :=
  match t.lookup h with
  | .enodata q => .enodata q
  | .enospc => .enospc
  | .found q => .trgt (Visit.firstNew (fun r => (t.ht r).pba) visited (q :: t.nextChain h q))

inductive LoopRes where
  | enodata (q : Nat)
  | enospc
  | noMatch
  | hit (q : Nat)
  deriving DecidableEq, Repr

/-- The loop of `lookup_mbuff`, `lookup_exists` and `lookup_mbuff_put`: read the
record of the next entry and compare the key. -/
def lookupLoop (t : UDepotMap c.bits) (h : Nat) (isMatch : HashEntry → Bool) :
    Nat → List Nat → LoopRes
  | 0, _ => .noMatch
  | n + 1, visited =>
    match lookupCommon t h visited with
    | .enodata q => .enodata q
    | .enospc => .enospc
    | .trgt none => .noMatch
    | .trgt (some q) =>
      if isMatch (t.ht q) then .hit q
      else lookupLoop t h isMatch n ((t.ht q).pba :: visited)

/-- The key comparison of `lookup_mbuff_put` and `lookup_exists`, which read
header and key. -/
def keyMatch (c : Config) (m : Nat → UInt8) (k : List UInt8) (e : HashEntry) : Bool :=
  (c.readHeader m e.pba).keySize == k.length &&
    read m (e.pba * c.grainSize + putKeyvalPrefixSize) k.length == k

/-- The key comparison of `lookup_mbuff`, which has read `kv_size` grains, rounded
up to the alignment: a key that reaches past them does not compare equal. -/
def getMatch (c : Config) (m : Nat → UInt8) (k : List UInt8) (e : HashEntry) : Bool :=
  (c.readHeader m e.pba).keySize == k.length &&
    decide (putKeyvalPrefixSize + k.length ≤
      alignUp (e.kvSize * c.grainSize) (min 512 c.grainSize)) &&
    read m (e.pba * c.grainSize + putKeyvalPrefixSize) k.length == k

/-- The window and one more round. -/
def lookupRounds : Nat := 33

inductive GetRes where
  | ok (val : List UInt8)
  | enodata
  | enospc
  deriving DecidableEq, Repr

/-- The value that `lookup_mbuff` leaves in the buffer. -/
def valueAt (s : Store c) (k : List UInt8) (pba : Nat) : List UInt8 :=
  read s.media (pba * c.grainSize + putKeyvalPrefixSize + k.length)
    (c.readHeader s.media pba).valSize

def get (s : Store c) (k : List UInt8) : GetRes :=
  let t := s.table (c.hash k)
  match lookupLoop t (c.hash k) (getMatch c s.media k) lookupRounds [] with
  | .enodata _ => .enodata
  | .enospc => .enospc
  | .noMatch => .enodata
  | .hit q => .ok (s.valueAt k (t.ht q).pba)

/-- `get` with the assertion that there is a value; `none` if it fails. That the buffer holds the
whole record, which is asserted too, is how `lookup_mbuff` has read it. -/
def checkedGet (s : Store c) (k : List UInt8) : Option GetRes :=
  let t := s.table (c.hash k)
  match lookupLoop t (c.hash k) (getMatch c s.media k) lookupRounds [] with
  | .hit q =>
    if 0 < (c.readHeader s.media (t.ht q).pba).valSize then some (.ok (s.valueAt k (t.ht q).pba))
    else none
  | _ => some (s.get k)

inductive ExistsRes where
  | ok (valSize : Nat)
  | enodata
  | enospc
  deriving DecidableEq, Repr

/-- `exists` (a keyword here). -/
def exists' (s : Store c) (k : List UInt8) : ExistsRes :=
  let t := s.table (c.hash k)
  match lookupLoop t (c.hash k) (keyMatch c s.media k) lookupRounds [] with
  | .enodata _ => .enodata
  | .enospc => .enospc
  | .noMatch => .enodata
  | .hit q => .ok (c.readHeader s.media (t.ht q).pba).valSize

inductive PutLookup where
  | eexist (q : Nat) (oldMd : StoreHeader)
  | enodata (q : Nat)
  | enospc
  deriving DecidableEq, Repr

def lookupMbuffPut (s : Store c) (k : List UInt8) : PutLookup :=
  let t := s.table (c.hash k)
  match lookupLoop t (c.hash k) (keyMatch c s.media k) lookupRounds [] with
  | .enodata q => .enodata q
  | .enospc => .enospc
  | .hit q => .eexist q (c.readHeader s.media (t.ht q).pba)
  | .noMatch =>
    match t.nextFree (c.hash k) with
    | some q => .enodata q
    | none => .enospc

/-! ## Put -/

def isPbaOrderEqualToTotalOrder (s : Store c) (oldPba newPba : Nat) (oldMd : StoreHeader) : Bool :=
  if c.grainToSegIdx oldPba ≠ c.grainToSegIdx newPba then
    decide (oldMd.timestamp < s.segTs (c.grainToSegIdx newPba))
  else decide (oldPba < newPba)

def setMapping (s : Store c) (h q : Nat) (update : Bool) (keyLen valLen pba : Nat)
    (oldMd : StoreHeader) : Store c :=
  let t := s.table h
  let oldGrains := c.kvTotGrainsGet oldMd.keySize oldMd.valSize
  let s1 :=
    if update then
      ((s.invalidateGrains (t.ht q).pba oldGrains).kvRemoved oldMd.keySize oldMd.valSize).setTable h
        (t.updateInplace q h (c.kvTotGrainsGet keyLen valLen) pba)
    else
      (if (t.ht q).deleted then s.invalidateGrains (t.ht q).pba oldGrains else s).setTable h
        (t.insert q h (c.kvTotGrainsGet keyLen valLen) pba)
  s1.kvAdded keyLen valLen

inductive PutRc where
  | ok
  | einval
  | enospc
  | ealready (oldPba : Nat)
  deriving DecidableEq, Repr

/-- `local_put_mbuff`, the record being at `grain`. -/
def localPutMbuff (s : Store c) (k v : List UInt8) (grain : Nat) (op : PutOp) : Store c × PutRc :=
  let h := c.hash k
  match s.lookupMbuffPut k with
  | .enodata q =>
    if op = .replace then (s, .einval)
    else (s.setMapping h q false k.length v.length grain ⟨0, 0, 0⟩, .ok)
  | .eexist q oldMd =>
    if op = .create then (s, .einval)
    else if s.isPbaOrderEqualToTotalOrder ((s.table h).ht q).pba grain oldMd then
      (s.setMapping h q true k.length v.length grain oldMd, .ok)
    else (s, .ealready ((s.table h).ht q).pba)
  | .enospc =>
    match (s.table h).tryShift h with
    | (t, none) => (s.setTable h t, .enospc)
    | (t, some q) =>
      if op = .replace then (s.setTable h t, .einval)
      else ((s.setTable h t).setMapping h q false k.length v.length grain ⟨0, 0, 0⟩, .ok)

/-- `local_put_mbuff_io` that succeeds: allocate in segment `i` and write. -/
def localPutMbuffIo (s : Store c) (i : Nat) (k v : List UInt8) : Option (Nat × Store c) :=
  match s.allocateGrains i (c.ioSizeGrains k v) with
  | none => none
  | some (g, s1) => some (g, { s1 with
      media := write s1.media (g * c.grainSize)
        (c.recordBytes (s1.segTs (c.grainToSegIdx g)) k v) })

/-- An allocation whose write fails after some of the bytes reached the device
(`bs` are what the grains then hold): the grains are given back. -/
def ioFail (s : Store c) (i len : Nat) (bs : List UInt8) : Option (Store c) :=
  match s.allocateGrains i len with
  | none => none
  | some (g, s1) =>
    some (({ s1 with
      media := write s1.media (g * c.grainSize) (bs.take (len * c.grainSize)) } : Store c)
        |>.invalidateGrains g len)

def tableGrains (c : Config) : Nat := c.segSize - c.segMdSize

/-- The grains of one table. A table fills a segment, so each takes a free one. -/
def allocateTable (s : Store c) (i : Nat) : Option (Nat × Store c) :=
  (s.allocateSegment i .directory).bind fun s1 => s1.allocateGrains i (tableGrains c)

/-- How one table of a growth is allocated: mapped, or its `mmap` fails. -/
inductive TableAlloc where
  | mapped (i : Nat)
  | mmapFailed (i : Nat)
  deriving DecidableEq, Repr

/-- Step 1 of `grow`: the grains of the tables that are mapped, and whether all
`n` are. Where the list ends, the allocation fails. -/
def allocateTables (s : Store c) : Nat → List TableAlloc → List Nat × Store c × Bool
  | 0, _ => ([], s, true)
  | _ + 1, [] => ([], s, false)
  | n + 1, .mapped i :: rest =>
    match s.allocateTable i with
    | none => ([], s, false)
    | some (g, s1) =>
      let r := allocateTables s1 n rest
      (g :: r.1, r.2)
  -- the grains of a table that is not mapped are not given back
  | _ + 1, .mmapFailed i :: _ =>
    match s.allocateTable i with
    | none => ([], s, false)
    | some (_, s1) => ([], s1, false)

def invalidateTables (s : Store c) (gs : List Nat) : Store c :=
  gs.foldl (fun s g => s.invalidateGrains g (tableGrains c)) s

/-- `grow`, and whether it returns zero: the old tables are given back, or else the
new ones. -/
def grow (s : Store c) (allocs : List TableAlloc) : Store c × Bool :=
  match s.allocateTables (2 ^ (s.dir.idxBits + 1)) allocs, s.dir.grow with
  | (gs, s1, true), some d =>
    ({ s1.invalidateTables s.tables with dir := d, tables := gs }, true)
  -- the copy sets an `rc` of its own, and the one that is returned is still zero
  | (gs, s1, true), none => (s1.invalidateTables gs, true)
  | (gs, s1, false), _ => (s1.invalidateTables gs, false)

/-- Whether `grow` leaves a new directory. -/
def grown (s : Store c) (allocs : List TableAlloc) : Bool :=
  (s.allocateTables (2 ^ (s.dir.idxBits + 1)) allocs).2.2 && s.dir.grow.isSome

/-- The inner loop of `put`: grow and retry while the table has no room. -/
def putMap (s : Store c) (k v : List UInt8) (grain : Nat) (op : PutOp) :
    List (List TableAlloc) → Store c × PutRc
  | [] => s.localPutMbuff k v grain op
  | allocs :: rest =>
    match s.localPutMbuff k v grain op with
    | (s1, .enospc) =>
      match s1.grow allocs with
      | (s2, true) => putMap s2 k v grain op rest
      | (s2, false) => (s2, .enospc)
    | r => r

/-- What the environment decides in one round of `put`: the segment of the
record, the growths, and the segment drained if the order is not preserved. -/
structure PutAttempt where
  seg : Nat
  grows : List (List TableAlloc)
  drained : Nat
  deriving DecidableEq, Repr

/-- `put`; where the attempts end, the allocation fails. -/
def put (s : Store c) (k v : List UInt8) (op : PutOp) : List PutAttempt → Store c × PutRc
  | [] => (s, .enospc)
  | a :: rest =>
    match s.localPutMbuffIo a.seg k v with
    | none => (s, .enospc)
    | some (g, s1) =>
      let sizeGrains := c.kvTotGrainsGet k.length v.length
      match s1.putMap k v g op a.grows with
      | (s2, .ok) => (s2, .ok)
      | (s2, .ealready oldPba) =>
        let s3 :=
          if c.grainToSegIdx oldPba ≠ c.grainToSegIdx g then s2.recycleSegment a.drained else s2
        put (s3.invalidateGrains g sizeGrains) k v op rest
      | (s2, rc) => (s2.invalidateGrains g sizeGrains, rc)

/-! ## Del -/

inductive DelRc where
  | ok
  | enodata
  | enospc
  deriving DecidableEq, Repr

/-- `del`: `local_del_mbuff` until it does not return `EAGAIN`; each round names
the segment of its tombstone. -/
def del (s : Store c) (k : List UInt8) : List Nat → Store c × DelRc
  | [] => (s, .enospc)
  | i :: rest =>
    let h := c.hash k
    match s.lookupMbuffPut k with
    | .enodata _ => (s, .enodata)
    | .enospc => (s, .enodata)
    | .eexist q oldMd =>
      match s.localPutMbuffIo i k [] with
      | none => (s, .enospc)
      | some (g, s1) =>
        let pba := ((s1.table h).ht q).pba
        if s1.isPbaOrderEqualToTotalOrder pba g oldMd then
          (((s1.invalidateGrains pba (c.kvTotGrainsGet oldMd.keySize oldMd.valSize)).kvRemoved
            oldMd.keySize oldMd.valSize).setTable h ((s1.table h).remove q g), .ok)
        -- EAGAIN: the grains of the tombstone are not given back
        else del s1 k rest

/-! ## Garbage collection of one record -/

/-- `local_gc_callback` for the record at grain `start`, relocating into segment
`i`; `none` is an allocation that failed. -/
def localGcCallback (s : Store c) (start i : Nat) : Option (Store c) :=
  let md := c.readHeader s.media start
  let h := c.hash (c.recKey s.media start)
  let t := s.table h
  match t.lookupPba h start with
  | none => some s
  | some q =>
    let sizeGrains := c.kvTotGrainsGet md.keySize md.valSize
    if (t.ht q).deleted then
      some ((s.invalidateGrains (t.ht q).pba sizeGrains).setTable h (t.purge q))
    else
      match s.allocateGrains i sizeGrains with
      | none => none
      | some (g, s1) =>
        some ((({ s1 with
          media := write s1.media (g * c.grainSize)
            (c.relocBytes s.media start (s1.segTs (c.grainToSegIdx g))) } : Store c)
            |>.setTable h (t.updateInplace q h sizeGrains g)).invalidateGrains
              (t.ht q).pba sizeGrains)

/-! ## The empty store -/

/-- A new store on a device of any content, after the first `grow`: the one table of
the directory takes segment `i`. -/
def init (c : Config) (m : Nat → UInt8) (i : Nat) : Store c where
  dir := ⟨0, fun _ => UDepotMap.init c.bits c.bits_lt⟩
  media := m
  seg := update (fun _ => ⟨.free, 0, c.segSize⟩) i
    ⟨.closed, c.segSize, c.segSize - c.segMdSize⟩
  segTs := fun _ => 0
  -- the directory was empty when the segment was stamped with its size
  segMd := update (fun _ => none) i (some ⟨.directory, 0⟩)
  segAllocNr := 0
  usedCapacity := tableGrains c
  tables := [i * c.segSize]
  stats := ⟨0, 0, 0⟩

end Store
end UDepot
