import UDepot.MbuffIov
import UDepot.Refine

/-! `get` and `put` of the store as they work on the caller's `Mbuff`. The store is
the map that it keeps; the reads from the device, the allocations and the errors
that the operations meet are parameters. -/

namespace UDepot
open Config List
open Store (Errno KvMap)

/-- What the operations of the store meet below them. -/
structure Below where
  config : Config
  alloc : IoAlloc
  /-- What `get` of a key reads before its record: other records of its fingerprint, or a
  first part of the record. -/
  reads : List UInt8 → List (List UInt8)
  /-- What `put` of a key reads. -/
  putReads : List UInt8 → List (List UInt8)
  /-- The timestamp of the segment a record is in. -/
  ts : Nat
  /-- The bytes behind the record. -/
  after : Nat → UInt8
  /-- The error of `allocate_grains`. -/
  grainsErr : List UInt8 → Option Errno
  /-- The error of the write, or of entering the record in the table. -/
  tableErr : List UInt8 → Option Errno

namespace Mbuff

/-- The Mbuff that `mbuff_alloc` starts with. -/
def empty : Mbuff := ⟨[], 0, [], 0⟩

/-- One read of a lookup, by `io_pread_mbuff_append_full`. -/
def readInto (alloc : IoAlloc) (mb : Mbuff) (bs : List UInt8) : Option Errno × Mbuff :=
  let mb := mb.resliceZero.mbuffAddBuffers alloc bs.length
  if mb.freeSize < bs.length then (some .enomem, mb) else (none, (mb.appendFromBuffer bs).2)

def readAll (alloc : IoAlloc) : Mbuff → List (List UInt8) → Option Errno × Mbuff
  | mb, [] => (none, mb)
  | mb, bs :: rest =>
    match mb.readInto alloc bs with
    | (some e, mb) => (some e, mb)
    | (none, mb) => mb.readAll alloc rest

/-- The loop of `move_free_buffs_to` over the free buffers of the source, with what was
moved so far. -/
def moveLoop (maxSize : Nat) : List Buff → Nat → Mbuff × Mbuff → Mbuff × Mbuff
  | [], _, r => r
  | b :: rest, moved, (src, dst) =>
    let r := ({ src with free := rest, freeSize := src.freeSize - b.data.length }, dst.addBuff b)
    if moved + b.data.length < maxSize then moveLoop maxSize rest (moved + b.data.length) r else r

/-- `move_free_buffs_to`: the source and the destination afterwards. -/
def moveFreeBuffsTo (mb dst : Mbuff) (maxSize : Nat) : Mbuff × Mbuff :=
  moveLoop maxSize mb.free 0 (mb, dst)

end Mbuff

namespace Below

variable (b : Below)

/-- The record of a key and a value as `lookup_mbuff` reads it. -/
def record (k v : List UInt8) : List UInt8 :=
  let bs := b.config.recordBytes b.ts k v
  bs ++ Bytes.read b.after 0 (alignUp bs.length (min 512 b.config.grainSize) - bs.length)

/-- `get` for the key in an Mbuff. -/
def get (m : KvMap) (key : Mbuff) (valOut : Mbuff) : Option Errno × Mbuff :=
  let k := key.bytes
  match valOut.readAll b.alloc (b.reads k) with
  | (some e, mb) => (some e, mb.resliceZero)
  | (none, mb) =>
    match m k with
    | none => (some .enodata, mb.resliceZero)
    | some v =>
      match mb.readInto b.alloc (b.record k v) with
      | (some e, mb) => (some e, mb.resliceZero)
      | (none, mb) =>
        (none, (mb.reslice (v.length % 2 ^ 32) (putKeyvalPrefixSize + key.validSize)).getD mb)

/-- `lookup_mbuff_put` with free buffers of `keyval`, which get them back. -/
def lookupMbuffPut (keyval : Mbuff) (k : List UInt8) : Option Errno × Mbuff :=
  let moved := keyval.moveFreeBuffsTo .empty (alignUp (putKeyvalPrefixSize + k.length) 512)
  let r := moved.2.readAll b.alloc (b.putReads k)
  (r.1, (r.2.resliceZero.moveFreeBuffsTo moved.1 (2 ^ 64 - 1)).2)

/-- `put` of the key and the value in an Mbuff. -/
def put (m : KvMap) (keyval : Mbuff) (keySize : Nat) (op : PutOp) : Option Errno × KvMap × Mbuff :=
  let size := keyval.validSize
  let k := keyval.bytes.take keySize
  let v := keyval.bytes.drop keySize
  match b.grainsErr k with
  | some e => (some e, m, (keyval.reslice size putKeyvalPrefixSize).getD keyval)
  | none =>
    let io := b.config.localPutMbuffIo b.alloc b.ts keyval keySize
    let keyval := (io.2.reslice size putKeyvalPrefixSize).getD io.2
    match io.1 with
    | some e => (some e, m, keyval)
    | none =>
      match b.lookupMbuffPut keyval k with
      | (some e, keyval) => (some e, m, keyval)
      | (none, keyval) =>
        if op = .replace ∧ m k = none ∨ op = .create ∧ m k ≠ none then (some .einval, m, keyval)
        else
          match b.tableErr k with
          | some e => (some e, m, keyval)
          | none => (none, Function.update m k (some v), keyval)

end Below

/-! ## What the operations keep -/

namespace Mbuff

theorem empty_good : empty.Good :=
  ⟨⟨by simp [empty], by simp [empty], by simp [empty], by simp [empty]⟩,
    by simp [Pages, layout, empty]⟩

variable {mb : Mbuff}

theorem Good.readInto (h : mb.Good) (alloc : IoAlloc) (bs : List UInt8) :
    Keeps mb (mb.readInto alloc bs).2 := by
  have h1 := h.resliceZero.trans (h.resliceZero.good.mbuffAddBuffers alloc bs.length)
  unfold Mbuff.readInto
  dsimp only
  split
  · exact h1
  · exact h1.trans (h1.good.append _ _)

theorem Good.readAll (h : mb.Good) (alloc : IoAlloc) (rs : List (List UInt8)) :
    Keeps mb (mb.readAll alloc rs).2 := by
  induction rs generalizing mb with
  | nil => exact h.keeps
  | cons bs rest ih =>
    have h1 := h.readInto alloc bs
    rw [Mbuff.readAll]
    split
    · rename_i heq
      rw [heq] at h1
      exact h1
    · rename_i heq
      rw [heq] at h1
      exact h1.trans (ih h1.good)

theorem moveLoop_good (maxSize : Nat) {bs : List Buff} {moved : Nat} {src dst : Mbuff}
    (hs : src.Good) (hd : dst.Good) (hf : src.free = bs) :
    (moveLoop maxSize bs moved (src, dst)).1.Good ∧
      (moveLoop maxSize bs moved (src, dst)).2.Good := by
  induction bs generalizing moved src dst with
  | nil => exact ⟨hs, hd⟩
  | cons b rest ih =>
    have hfree := hs.legit.free
    rw [hf, map_cons, sum_cons] at hfree
    have hlay : src.layout = src.nodes.map Node.buffLen ++
        (b.data.length :: rest.map fun b => b.data.length) := by
      rw [layout, hf, map_cons]
    have hb := hs.pages b.data.length (by simp [hlay])
    have hs' : Good { src with free := rest, freeSize := src.freeSize - b.data.length } := by
      refine ⟨⟨hs.legit.off, hs.legit.full, hs.legit.valid, ?_⟩, fun l hl => hs.pages l ?_⟩
      · dsimp only
        omega
      · rw [hlay, mem_append, mem_cons]
        exact (mem_append.mp hl).imp_right Or.inr
    have hd' := (hd.addBuff hb).good
    rw [moveLoop]
    split
    · exact ih hs' hd' rfl
    · exact ⟨hs', hd'⟩

theorem Good.moveFreeBuffsTo {dst : Mbuff} (h : mb.Good) (hd : dst.Good) (maxSize : Nat) :
    (mb.moveFreeBuffsTo dst maxSize).1.Good ∧ (mb.moveFreeBuffsTo dst maxSize).2.Good :=
  moveLoop_good maxSize h hd rfl

theorem Good.mbuffAppendPadding (h : mb.Good) (alloc : IoAlloc) (padding : Nat) :
    (mb.mbuffAppendPadding alloc padding).2.Good := by
  have h1 : Good (if mb.appendAvailSize < padding then
      mb.mbuffAddBuffers alloc (padding - mb.freeSize) else mb) := by
    split
    · exact (h.mbuffAddBuffers _ _).good
    · exact h
  unfold Mbuff.mbuffAppendPadding
  dsimp only
  generalize (if mb.appendAvailSize < padding then
    mb.mbuffAddBuffers alloc (padding - mb.freeSize) else mb) = mb1 at h1 ⊢
  split
  · exact h1
  · exact (h1.append _ _).good

end Mbuff

open Mbuff (Good Keeps)

theorem Config.localPutMbuffIo_good (c : Config) (pad : IoAlloc) (ts : Nat) {kv : Mbuff}
    (h : kv.Good) (keySize : Nat) : (c.localPutMbuffIo pad ts kv keySize).2.Good := by
  have h1 : (c.mbuffPrependAppendMd ts kv keySize (kv.validSize - keySize)).2.Good := by
    unfold mbuffPrependAppendMd
    exact ((h.prependInline _ _).good.appendInline _ _).good
  unfold localPutMbuffIo
  dsimp only
  split
  · rename_i heq
    rw [heq] at h1
    exact h1
  · rename_i heq
    rw [heq] at h1
    exact h1.mbuffAppendPadding _ _

namespace Below

variable (b : Below) {m : KvMap}

theorem lookupMbuffPut_good {keyval : Mbuff} (h : keyval.Good) (k : List UInt8) :
    (b.lookupMbuffPut keyval k).2.Good := by
  have h1 := h.moveFreeBuffsTo Mbuff.empty_good (alignUp (putKeyvalPrefixSize + k.length) 512)
  exact ((h1.2.readAll b.alloc (b.putReads k)).good.resliceZero.good.moveFreeBuffsTo h1.1 _).2

theorem put_good {keyval : Mbuff} (h : keyval.Good) (keySize : Nat) (op : PutOp) :
    (b.put m keyval keySize op).2.2.Good := by
  have h1 := b.config.localPutMbuffIo_good b.alloc b.ts h keySize
  have h2 := (h1.reslice keyval.validSize putKeyvalPrefixSize).good
  have h3 := b.lookupMbuffPut_good h2 (keyval.bytes.take keySize)
  unfold put
  dsimp only
  split
  · exact (h.reslice _ _).good
  · split
    · exact h2
    · split
      · rename_i heq
        rw [heq] at h3
        exact h3
      · rename_i heq
        rw [heq] at h3
        split
        · exact h3
        · split <;> exact h3

end Below

/-! ## What they do -/

/-- Bytes that are appended to an Mbuff without any start at the begin of its first
buffer. -/
theorem Mbuff.Good.append_first {mb : Mbuff} (h : mb.Good) (hn : mb.nodes = []) (src : List UInt8)
    (hle : src.length ≤ mb.freeSize) :
    (mb.appendFromBuffer src).1 = [] ∧ (mb.appendFromBuffer src).2.Good ∧
      (mb.appendFromBuffer src).2.bytes = src ∧ (mb.appendFromBuffer src).2.headOff = 0 ∧
      (mb.appendFromBuffer src).2.layout = mb.layout := by
  obtain ⟨hnil, hext⟩ := h.legit.appendFromBuffer h.pos src
    (by simp only [appendAvailSize, hn]; omega)
  refine ⟨hnil, (h.extends hext).good, ?_, ?_, hext.layout⟩
  · rw [hext.bytes, bytes, hn, flatMap_nil, nil_append]
  · rw [hext.headOff, headOff, hn]
    rfl

theorem Mbuff.Good.readInto_ok {mb mb' : Mbuff} {alloc : IoAlloc} {bs : List UInt8} (h : mb.Good)
    (hr : mb.readInto alloc bs = (none, mb')) : mb'.Good ∧ mb'.bytes = bs ∧ mb'.headOff = 0 := by
  obtain ⟨hg, hn⟩ := h.fresh alloc bs.length
  rw [Mbuff.readInto] at hr
  split at hr
  · simp at hr
  · rename_i hfree
    obtain ⟨-, h1, h2, h3, -⟩ := hg.append_first hn bs (by omega)
    obtain rfl := (Prod.mk.inj hr).2
    exact ⟨h1, h2, h3⟩

namespace Below

variable {b : Below} {m m' : KvMap}

variable {n : Nat}

theorem record_slice (k v : List UInt8) (hn : n ≤ v.length) :
    ((b.record k v).drop (putKeyvalPrefixSize + k.length)).take n = v.take n := by
  have hdrop : ∀ hdr rest : List UInt8, hdr.length = putKeyvalPrefixSize →
      ((hdr ++ k ++ v ++ rest).drop (putKeyvalPrefixSize + k.length)).take n = v.take n := by
    intro hdr rest hlen
    rw [append_assoc (hdr ++ k), drop_left' (by rw [length_append, hlen]),
      take_append_of_le_length hn]
  rw [record, recordBytes]
  simp only [append_assoc] at hdrop ⊢
  exact hdrop _ _ (headerBytes_length _)

theorem record_length (k v : List UInt8) :
    putKeyvalPrefixSize + k.length + v.length ≤ (b.record k v).length := by
  rw [record, recordBytes]
  simp only [length_append, headerBytes_length, putKeyvalPrefixSize]
  omega

/-- A `get` that does not fail reads the value of the key, as far as 32 bits say, and leaves
it where it was in the record. -/
theorem get_ok {key valOut old : Mbuff} (hkey : key.Legit) (hval : valOut.Good)
    (h : b.get m key valOut = (none, old)) :
    ∃ v, m key.bytes = some v ∧ old.Good ∧ old.bytes = v.take (v.length % 2 ^ 32) ∧
      (old.bytes ≠ [] → putKeyvalPrefixSize + key.bytes.length < 4096 →
        old.headOff = putKeyvalPrefixSize + key.bytes.length) := by
  have h1 := (hval.readAll b.alloc (b.reads key.bytes)).good
  rw [get] at h
  split at h
  · simp at h
  · rename_i mb hr
    rw [hr] at h1
    split at h
    · simp at h
    · rename_i v hv
      split at h
      · simp at h
      · rename_i mb2 hr2
        obtain ⟨hg, hb, hoff⟩ := h1.readInto_ok hr2
        obtain rfl := (Prod.mk.inj h).2
        have hsize := hg.legit.validSize_eq
        have hlen := b.record_length key.bytes v
        have hmod := Nat.mod_le v.length (2 ^ 32)
        rw [hb] at hsize
        rw [hkey.validSize_eq]
        refine ⟨v, hv, (hg.reslice _ _).good, ?_⟩
        rcases Nat.eq_zero_or_pos (v.length % 2 ^ 32) with h0 | h0
        · have hn := hg.cached.nodes
          have hnil : ((mb2.reslice (v.length % 2 ^ 32)
              (putKeyvalPrefixSize + key.bytes.length)).getD mb2).bytes = [] := by
            rw [h0, Mbuff.reslice_nothing (by omega), Option.getD_some, Mbuff.bytes, hn]
            rfl
          rw [hnil, h0, take_zero]
          exact ⟨rfl, fun hc => absurd rfl hc⟩
        · obtain ⟨mb3, hre, -, hbytes, -⟩ := hg.legit.reslice_spec h0
            (show putKeyvalPrefixSize + key.bytes.length + v.length % 2 ^ 32 ≤
              mb2.validSize by omega)
          rw [hre, Option.getD_some, hbytes, hb, record_slice key.bytes v hmod]
          refine ⟨rfl, fun _ hlt => ?_⟩
          obtain ⟨mb4, hre', -, -, -, hoff'⟩ := hg.legit.reslice_inside hg.pages _ _ h0
            (show putKeyvalPrefixSize + key.bytes.length + v.length % 2 ^ 32 ≤
              mb2.validSize by omega)
            (by omega)
          rw [hre] at hre'
          obtain rfl := Option.some.inj hre'
          rw [hoff', hoff, Nat.zero_add]

theorem put_none {kv kv' : Mbuff} {op : PutOp} (h : b.put m kv n op = (none, m', kv')) :
    (b.config.localPutMbuffIo b.alloc b.ts kv n).1 = none ∧
      m' = Function.update m (kv.bytes.take n) (some (kv.bytes.drop n)) := by
  revert h
  fun_cases put b m kv n op with
  | case6 =>
    rintro ⟨⟩
    exact ⟨‹_›, rfl⟩
  | _ => rintro ⟨⟩

theorem put_some {kv kv' : Mbuff} {op : PutOp} {e : Errno}
    (h : b.put m kv n op = (some e, m', kv')) : m' = m := by
  revert h
  fun_cases put b m kv n op with
  | case6 => rintro ⟨⟩
  | _ => exact fun h => ((Prod.mk.inj (Prod.mk.inj h).2).1).symm

end Below

end UDepot
