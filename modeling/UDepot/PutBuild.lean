import UDepot.MbuffSlice
import UDepot.PutFault

/-! How `put` builds a record in an `Mbuff` of the cache: key and value are copied
behind space for the header, and header, checksum and padding are put around them
without moving them. Whether there is room for the checksum and the padding depends
on where the free buffers of the `Mbuff` end. -/

namespace UDepot
open Bytes Config List
open Store (Errno)

/-- `IO::alloc_iobuff`: fails, or gives a buffer of the size asked for. -/
structure IoAlloc where
  run : Nat → Option Buff
  run_length : ∀ {n b}, run n = some b → b.data.length = n

namespace Mbuff

/-- `mbuff_add_buffers`. -/
def mbuffAddBuffers (alloc : IoAlloc) (mb : Mbuff) (newFreeSize : Nat) : Mbuff :=
  if newFreeSize ≤ mb.freeSize then mb
  else
    match alloc.run (alignUp (newFreeSize - mb.freeSize) 4096) with
    | some b => mb.addBuff b
    | none => mb

/-- `put` of a key and a value, up to the `put` of the Mbuff: `none` is no error. -/
def copyKeyval (alloc : IoAlloc) (kv : Mbuff) (k v : List UInt8) : Option Errno × Mbuff :=
  let totalSize := putKeyvalPrefixSize + k.length + v.length + putKeyvalSuffixSize
  let kv := if kv.freeSize < totalSize then kv.mbuffAddBuffers alloc totalSize else kv
  if kv.freeSize < totalSize then (some .enomem, kv)
  else
    let kv := kv.appendUninitialized putKeyvalPrefixSize
    let rk := kv.appendFromBuffer k
    if rk.1 ≠ [] then (some .enomem, rk.2)
    else
      let rv := rk.2.appendFromBuffer v
      if rv.1 ≠ [] then (some .enomem, rv.2)
      else (none, (rv.2.reslice (k.length + v.length) putKeyvalPrefixSize).getD rv.2)

/-- The callback that writes the header; its state is `prepend_ok`. -/
def hdrFn (md : StoreHeader) : AppendFn Bool where
  run ok hdr := if hdr.length = putKeyvalPrefixSize then (true, headerBytes md, putKeyvalPrefixSize)
    else (ok, hdr, 0)
  run_length ok hdr := by
    split
    · rename_i h
      rw [h, headerBytes_length]
      rfl
    · rfl
  run_le ok hdr := by
    split <;> dsimp only <;> omega

/-- The callback that writes the checksum; its state is `append_ok`. -/
def crcFn (crc16 : Nat) : AppendFn Bool where
  run ok ftr := if ftr.length < putKeyvalSuffixSize then (ok, ftr, 0)
    else (true, le 2 crc16 ++ ftr.drop 2, putKeyvalSuffixSize)
  run_length ok ftr := by
    split
    · rfl
    · simp only [putKeyvalSuffixSize, length_append, le_length, length_drop] at *
      omega
  run_le ok ftr := by
    split <;> dsimp only <;> omega

theorem pad_length (rem : Nat) (chunk : List UInt8) :
    (List.replicate (min chunk.length rem) 0 ++ chunk.drop (min chunk.length rem)).length =
      chunk.length := by
  rw [length_append, length_replicate, length_drop]
  omega

theorem pad_le (rem : Nat) (chunk : List UInt8) : min chunk.length rem ≤ chunk.length :=
  Nat.min_le_left _ _

/-- The callback that pads; its state is `remaining`. -/
def zeroFn : AppendFn Nat where
  run rem chunk := (rem - min chunk.length rem,
    List.replicate (min chunk.length rem) 0 ++ chunk.drop (min chunk.length rem),
    min chunk.length rem)
  run_length := pad_length
  run_le := pad_le

/-- `reslice(0)`: all buffers go to the free list. This is how `mb_put` brings an Mbuff
back to the cache. -/
def resliceZero (mb : Mbuff) : Mbuff := (mb.reslice 0 0).getD mb

def mbuffAppendPadding (alloc : IoAlloc) (kv : Mbuff) (padding : Nat) : Option Errno × Mbuff :=
  let kv := if kv.appendAvailSize < padding then kv.mbuffAddBuffers alloc (padding - kv.freeSize)
    else kv
  if kv.appendAvailSize < padding then (some .enomem, kv)
  else
    let r := kv.append zeroFn padding
    (if r.1 ≠ 0 then some .enomem else none, r.2)

end Mbuff

namespace Config

variable (c : Config)

/-- The timestamp is that of the segment of `grain`. -/
def mbuffPrependAppendMd (ts : Nat) (kv : Mbuff) (keySize valSize : Nat) : Option Errno × Mbuff :=
  let md : StoreHeader := ⟨keySize, valSize, ts⟩
  let p := kv.prependInline (Mbuff.hdrFn md) false
  let a := p.2.appendInline (Mbuff.crcFn (c.checksum16 ts (headerBytes md))) false
  (if p.1 = true ∧ a.1 = true then none else some .einval, a.2)

/-- `local_put_mbuff_io`, from where grains are allocated up to the write of the record. -/
def localPutMbuffIo (pad : IoAlloc) (ts : Nat) (kv : Mbuff) (keySize : Nat) :
    Option Errno × Mbuff :=
  let ioSize := kv.validSize + putKeyvalPrefixSize + putKeyvalSuffixSize
  match c.mbuffPrependAppendMd ts kv keySize (kv.validSize - keySize) with
  | (some e, kv) => (some e, kv)
  | (none, kv) =>
    kv.mbuffAppendPadding pad (udivRoundUp ioSize c.grainSize * c.grainSize - ioSize)

/-- `put` of a key and a value up to the write of the record. The two allocations have
their own state of the heap. -/
def buildRecord (alloc pad : IoAlloc) (ts : Nat) (kv : Mbuff) (k v : List UInt8) :
    Option Errno × Mbuff :=
  match kv.copyKeyval alloc k v with
  | (some e, kv) => (some e, kv)
  | (none, kv) => c.localPutMbuffIo pad ts kv k.length

end Config

/-! ## The condition on the layout -/

/-- The sizes of the free buffers once there are `total` bytes: what is missing
comes as one buffer in front. -/
def grown (ls : List Nat) (total : Nat) : List Nat :=
  if ls.sum < total then alignUp (total - ls.sum) 4096 :: ls else ls

/-- No buffer ends right behind the value or inside the checksum; and the buffers
hold the padded record, or fewer of them are left behind the record than half the
padding and the buffer that is then added makes up for what is missing. -/
def Config.RecordFits (c : Config) (ls : List Nat) (k v : List UInt8) : Prop :=
  let n := putKeyvalPrefixSize + k.length + v.length
  let ls' := grown ls (n + putKeyvalSuffixSize)
  let size := c.ioSizeGrains k v * c.grainSize
  let padding := size - (n + putKeyvalSuffixSize)
  let left := Boxes.behind ls' n
  (¬ Boxes.Ends ls' n ∧ ¬ Boxes.Ends ls' (n + 1)) ∧
    (size ≤ ls'.sum ∨
      2 * left < padding ∧ size ≤ ls'.sum + alignUp (padding - 2 * left) 4096)

namespace Mbuff

/-- An Mbuff as the cache has it: no valid bytes, and free buffers as
`mbuff_add_buffers` makes them. -/
structure Cached (mb : Mbuff) : Prop where
  nodes : mb.nodes = []
  validSize : mb.validSize = 0
  freeSize : mb.freeSize = (mb.free.map fun b => b.data.length).sum
  buffs : ∀ b ∈ mb.free, 0 < b.data.length ∧ 4096 ∣ b.data.length

/-- Buffers as `mbuff_add_buffers` makes them. -/
def Pages (ls : List Nat) : Prop := ∀ l ∈ ls, 0 < l ∧ 4096 ∣ l

theorem Pages.le {ls : List Nat} (h : Pages ls) {l : Nat} (hl : l ∈ ls) : 4096 ≤ l :=
  Nat.le_of_dvd (h l hl).1 (h l hl).2

theorem Pages.le_of_ends {ls : List Nat} (h : Pages ls) {p : Nat} (he : Boxes.Ends ls p) :
    4096 ≤ p := by
  cases ls with
  | nil => exact absurd he (Boxes.not_ends_nil p)
  | cons l ls =>
    have hl := h.le mem_cons_self
    rcases Boxes.ends_cons.mp he with rfl | ⟨hle, -⟩
    · exact hl
    · exact hl.trans hle

variable {mb : Mbuff} {x : Nat}

theorem Cached.legit (h : mb.Cached) : mb.Legit :=
  ⟨by simp [h.nodes], by simp [h.nodes], by simp [h.nodes, h.validSize], h.freeSize⟩

theorem Cached.layout (h : mb.Cached) : mb.layout = mb.free.map fun b => b.data.length := by
  simp [Mbuff.layout, h.nodes]

theorem Cached.pages (h : mb.Cached) : Pages mb.layout := by
  intro l hl
  rw [h.layout] at hl
  obtain ⟨b, hb, rfl⟩ := mem_map.mp hl
  exact h.buffs b hb

theorem Legit.resliceZero_cached (h : mb.Legit) (hp : Pages mb.layout) : mb.resliceZero.Cached := by
  have heq : mb.resliceZero = { mb with nodes := [], validSize := 0 }.putFreeNodes mb.nodes := by
    rw [resliceZero, reslice, if_neg (by omega), if_pos rfl]
    rfl
  rw [heq, putFreeNodes_eq]
  refine ⟨rfl, rfl, ?_, fun b hb => ?_⟩
  · simp only [map_append, map_reverse, map_map, sum_append, sum_reverse,
      h.free]
    rw [Nat.add_comm]
    rfl
  · rw [mem_append, mem_reverse] at hb
    refine hp _ ?_
    rcases hb with hb | hb
    · obtain ⟨n, hn, rfl⟩ := mem_map.mp hb
      exact mem_append_left _ (mem_map_of_mem (f := Node.buffLen) hn)
    · exact mem_append_right _ (mem_map_of_mem (f := fun b : Buff => b.data.length) hb)

/-! ## Adding buffers -/

theorem alignUp_pos (hx : 0 < x) : 0 < alignUp x 4096 :=
  Nat.mul_pos (by decide) (udivRoundUp_pos (by decide) hx)

theorem le_alignUp (x : Nat) : x ≤ alignUp x 4096 := by
  have := le_udivRoundUp (x := x) (y := 4096) (by decide)
  unfold alignUp
  omega

theorem dvd_alignUp (x : Nat) : 4096 ∣ alignUp x 4096 := Dvd.intro _ rfl

theorem Pages.grown {ls : List Nat} (h : Pages ls) (total : Nat) : Pages (grown ls total) := by
  unfold UDepot.grown
  split
  · intro l hl
    rcases mem_cons.mp hl with rfl | hl
    · exact ⟨alignUp_pos (by omega), dvd_alignUp _⟩
    · exact h l hl
  · exact h

variable {alloc : IoAlloc}

theorem mbuffAddBuffers_spec (halloc : ∀ n, (alloc.run n).isSome) {size : Nat}
    (hlt : mb.freeSize < size) :
    ∃ b, mb.mbuffAddBuffers alloc size = mb.addBuff b ∧
      b.data.length = alignUp (size - mb.freeSize) 4096 := by
  obtain ⟨b, hb⟩ := Option.isSome_iff_exists.mp (halloc (alignUp (size - mb.freeSize) 4096))
  rw [mbuffAddBuffers, if_neg (by omega), hb]
  exact ⟨b, rfl, alloc.run_length hb⟩

theorem mbuffAddBuffers_nodes (alloc : IoAlloc) (mb : Mbuff) (size : Nat) :
    (mb.mbuffAddBuffers alloc size).nodes = mb.nodes := by
  rw [mbuffAddBuffers]
  split
  · rfl
  · split <;> rfl

theorem Legit.addBuff (hl : mb.Legit) (b : Buff) : (mb.addBuff b).Legit := by
  refine ⟨hl.off, hl.full, hl.valid, ?_⟩
  have := hl.free
  simp only [Mbuff.addBuff, putFreeNode, Node.fresh, Node.buffLen, map_cons, sum_cons]
  omega

theorem addBuff_layout (mb : Mbuff) (b : Buff) :
    (mb.addBuff b).layout = mb.nodes.map Node.buffLen ++
      (b.data.length :: mb.free.map fun b => b.data.length) := rfl

theorem addBuff_avail (mb : Mbuff) (b : Buff) :
    (mb.addBuff b).appendAvailSize = mb.appendAvailSize + b.data.length := by
  simp only [appendAvailSize, Mbuff.addBuff, putFreeNode, Node.fresh_buffLen]
  omega

theorem Pages.addBuff (h : Pages mb.layout) {b : Buff} (hx : 0 < x)
    (hb : b.data.length = alignUp x 4096) : Pages (mb.addBuff b).layout := by
  intro l hl
  rw [addBuff_layout] at hl
  simp only [mem_append, mem_cons] at hl
  rcases hl with hl | rfl | hl
  · exact h l (mem_append_left _ hl)
  · rw [hb]
    exact ⟨alignUp_pos hx, dvd_alignUp x⟩
  · exact h l (mem_append_right _ hl)

/-! ## Key and value -/

theorem Cached.avail (h : mb.Cached) : mb.appendAvailSize = mb.freeSize := by
  simp [appendAvailSize, h.nodes]

theorem Cached.addBuff (h : mb.Cached) {b : Buff} (hx : 0 < x)
    (hb : b.data.length = alignUp x 4096) : (mb.addBuff b).Cached := by
  refine ⟨h.nodes, h.validSize, (h.legit.addBuff b).free, fun b' hb' => ?_⟩
  have hmem : b'.data.length ∈ (mb.addBuff b).layout :=
    mem_append_right _ (mem_map_of_mem (f := fun b : Buff => b.data.length) hb')
  exact Pages.addBuff h.pages hx hb _ hmem

theorem Cached.grow {kv : Mbuff} (h : kv.Cached)
    (halloc : ∀ n, (alloc.run n).isSome) (total : Nat) :
    ∃ kv', (if kv.freeSize < total then kv.mbuffAddBuffers alloc total else kv) = kv' ∧
      kv'.Cached ∧ kv'.layout = grown kv.layout total ∧ total ≤ kv'.freeSize := by
  have hsum : kv.layout.sum = kv.freeSize := by rw [h.layout, h.freeSize]
  by_cases hlt : kv.freeSize < total
  · obtain ⟨b, hb, hlen⟩ := mbuffAddBuffers_spec halloc hlt
    have hge := le_alignUp (total - kv.freeSize)
    refine ⟨kv.addBuff b, by rw [if_pos hlt, hb], h.addBuff (by omega) hlen, ?_, ?_⟩
    · rw [grown, if_pos (by omega), addBuff_layout, h.nodes, hlen, h.layout, hsum.symm, h.layout]
      rfl
    · simp only [Mbuff.addBuff, putFreeNode, Node.fresh_buffLen]
      omega
  · exact ⟨kv, if_neg hlt, h, by rw [grown, if_neg (by omega)], by omega⟩

/-- Where header, checksum and padding have to go: the bytes so far start at
`headOff` of the head and end in the tail. -/
structure Open (mb : Mbuff) : Prop where
  legit : mb.Legit
  pages : Pages mb.layout
  tail : ∃ init t, mb.nodes = init ++ [t] ∧ 0 < t.len

theorem Open.head (h : mb.Open) (hoff : mb.headOff < 4096) :
    ∃ n rest, mb.nodes = n :: rest ∧ n.off = mb.headOff ∧ 0 < n.len := by
  obtain ⟨init, t, hn, ht⟩ := h.tail
  have hfull := h.legit.full
  have hpages := h.pages
  unfold headOff at *
  rw [hn] at hfull ⊢
  rw [hn] at hoff
  cases init with
  | nil => exact ⟨t, [], rfl, rfl, ht⟩
  | cons n init =>
    refine ⟨n, init ++ [t], rfl, rfl, ?_⟩
    have h1 := hfull n (by rw [dropLast_concat]; simp)
    have h2 := hpages.le (l := n.buffLen) (by simp [Mbuff.layout, hn])
    simp only [cons_append, List.head?_cons, Option.map_some, Option.getD_some] at hoff
    omega

theorem copied_spec {kv : Mbuff} (h : kv.Cached) {k v : List UInt8}
    (hsize : putKeyvalPrefixSize + k.length + v.length ≤ kv.freeSize) :
    ∃ pre kv', pre.length = putKeyvalPrefixSize ∧
      ((kv.appendUninitialized putKeyvalPrefixSize).appendFromBuffer k).1 = [] ∧
      ((kv.appendUninitialized putKeyvalPrefixSize).appendFromBuffer k).2.appendFromBuffer v =
        ([], kv') ∧ Extends kv kv' (pre ++ k ++ v) := by
  have hpos : ∀ l ∈ kv.layout, 0 < l := fun l hl => (h.pages l hl).1
  have havail := h.avail
  obtain ⟨pre, h1, hpre⟩ := h.legit.appendUninitialized hpos putKeyvalPrefixSize (by omega)
  have ha1 := h1.appendAvailSize h.legit
  obtain ⟨hk, h2⟩ := h1.legit.appendFromBuffer (h1.layout ▸ hpos) k (by omega)
  have ha2 := h2.appendAvailSize h1.legit
  have h12 := h1.trans h2
  obtain ⟨hv, h3⟩ := h2.legit.appendFromBuffer (h12.layout ▸ hpos) v (by omega)
  exact ⟨pre, _, hpre, hk, Prod.ext hv rfl, h12.trans h3⟩

theorem Legit.head_holds (h : mb.Legit) (hpages : Pages mb.layout) {p : Nat}
    (hp : p < mb.bytes.length) (hoff : mb.headOff + p < 4096) :
    ∃ n rest, mb.nodes = n :: rest ∧ n.off = mb.headOff ∧ p < n.len := by
  have hfull := h.full
  rw [bytes_length] at hp
  rw [headOff] at hoff ⊢
  cases hn : mb.nodes with
  | nil => simp [hn] at hp
  | cons n rest =>
    refine ⟨n, rest, rfl, rfl, ?_⟩
    rw [hn] at hp hfull hoff
    cases rest with
    | nil => simpa using hp
    | cons m rest =>
      have h1 := hfull n (by simp)
      have h2 := hpages.le (l := n.buffLen) (by simp [Mbuff.layout, hn])
      simp only [List.head?_cons, Option.map_some, Option.getD_some] at hoff
      omega

/-- Cutting the prefix space off again: the bytes behind it stay where they are. -/
theorem Legit.reslice_prefix (h : mb.Legit) (hpages : Pages mb.layout) (hoff : mb.headOff = 0)
    {pre body : List UInt8} (hb : mb.bytes = pre ++ body) (hpre : pre.length = putKeyvalPrefixSize)
    (hbody : body ≠ []) :
    ∃ mb', mb.reslice body.length putKeyvalPrefixSize = some mb' ∧ mb'.Open ∧ mb'.bytes = body ∧
      mb'.headOff = putKeyvalPrefixSize ∧ mb'.layout = mb.layout := by
  have hpos := length_pos_of_ne_nil hbody
  have hlen : mb.bytes.length = putKeyvalPrefixSize + body.length := by
    rw [hb, length_append, hpre]
  have hsize : mb.validSize = putKeyvalPrefixSize + body.length := by
    rw [h.validSize_eq, hlen]
  obtain ⟨n, rest, hn, hn0, hlt⟩ := h.head_holds hpages
    (show putKeyvalPrefixSize < mb.bytes.length by omega) (by rw [hoff]; decide)
  obtain ⟨mb', init, t, hre, hext, hn', ht⟩ := h.reslice_front
    (fun l hl => (hpages l hl).1) hn (o := putKeyvalPrefixSize) (by decide) hlt
  rw [hsize, Nat.add_sub_cancel_left] at hre
  have hlay : mb'.layout = mb.layout := by
    rw [hext.layout]
    simp [Mbuff.layout, hn]
  refine ⟨mb', hre, ⟨hext.legit, hlay ▸ hpages, init, t, hn', ht⟩, ?_, ?_, hlay⟩
  · have hcut : (n.validData ++ rest.flatMap Node.validData).drop putKeyvalPrefixSize = body := by
      have hflat : mb.bytes = n.validData ++ rest.flatMap Node.validData := by
        rw [bytes, hn, flatMap_cons]
      rw [← hflat, hb, ← hpre, drop_left]
    rw [hext.bytes, append_nil, bytes, flatMap_cons, Node.advance_validData, ← hcut,
      drop_append_of_le_length (by rw [Node.validData_length]; exact hlt.le)]
  · rw [headOff, hn] at hoff
    rw [hext.headOff, headOff]
    simpa [Node.advance] using hoff

/-- What `put` hands to the `put` of the Mbuff. -/
theorem copyKeyval_spec {kv : Mbuff} (h : kv.Cached)
    (halloc : ∀ n, (alloc.run n).isSome) {k v : List UInt8} (hv : v ≠ []) :
    ∃ kv', kv.copyKeyval alloc k v = (none, kv') ∧ kv'.Open ∧ kv'.bytes = k ++ v ∧
      kv'.headOff = putKeyvalPrefixSize ∧
      kv'.layout = grown kv.layout
        (putKeyvalPrefixSize + k.length + v.length + putKeyvalSuffixSize) := by
  obtain ⟨kv1, hgrow, hc, hlay, hfree⟩ := h.grow halloc
    (putKeyvalPrefixSize + k.length + v.length + putKeyvalSuffixSize)
  obtain ⟨pre, kv2, hpre, hk, hv', hext⟩ := copied_spec hc (k := k) (v := v) (by omega)
  have hoff2 : kv2.headOff = 0 := by
    rw [hext.headOff, headOff, hc.nodes]
    rfl
  have hb : kv2.bytes = pre ++ (k ++ v) := by
    rw [hext.bytes, bytes, hc.nodes, flatMap_nil, nil_append, append_assoc]
  obtain ⟨kv3, hre, hopen, hbytes, hoff, hlay3⟩ := hext.legit.reslice_prefix
    (hext.layout ▸ hc.pages) hoff2 hb hpre (by simp [hv])
  refine ⟨kv3, ?_, hopen, hbytes, hoff, by rw [hlay3, hext.layout, hlay]⟩
  rw [length_append] at hre
  unfold copyKeyval
  dsimp only
  rw [hgrow, if_neg (by omega), if_neg (by rw [hk]; simp), hv', if_neg (by simp), hre]
  rfl

/-! ## Header and checksum -/

theorem Open.prepend_hdr (h : mb.Open) (hoff : mb.headOff = putKeyvalPrefixSize)
    (md : StoreHeader) :
    ∃ mb', mb.prependInline (hdrFn md) false = (true, mb') ∧ mb'.Open ∧
      mb'.bytes = headerBytes md ++ mb.bytes ∧ mb'.headOff = 0 ∧ mb'.layout = mb.layout := by
  obtain ⟨n, rest, hn, hn0, hlen⟩ := h.head (by rw [hoff]; decide)
  rw [hoff] at hn0
  obtain ⟨heq, hleg⟩ := h.legit.prependInline hn (by rw [hn0]; decide) hlen (hdrFn md) false
  have hchunk : n.prependChunk.length = putKeyvalPrefixSize := by
    rw [n.prependChunk_length, Node.prependSpace_of_pos hlen, hn0]
  have hrun : (hdrFn md).run false n.prependChunk =
      (true, headerBytes md, putKeyvalPrefixSize) := if_pos hchunk
  have hst : (n.prepend (hdrFn md) false).1 = true := congrArg Prod.fst hrun
  have hcnt : (n.prepend (hdrFn md) false).2.2 = putKeyvalPrefixSize :=
    congrArg (fun r => r.2.2) hrun
  rw [heq] at hleg
  refine ⟨_, heq.trans (Prod.ext hst rfl), ⟨hleg, ?_, ?_⟩, ?_, ?_, ?_⟩
  · simpa [Mbuff.layout, hn] using h.pages
  · obtain ⟨init, t, ht, hpos⟩ := h.tail
    rw [hn] at ht
    cases init with
    | nil =>
      obtain ⟨rfl, rfl⟩ := List.cons.inj ht
      exact ⟨[], _, rfl, by rw [Node.prepend_len]; omega⟩
    | cons m init =>
      obtain ⟨rfl, rfl⟩ := List.cons.inj ht
      exact ⟨_ :: init, t, rfl, hpos⟩
  · simp only [bytes, hn, flatMap_cons, Node.prepend_validData _ _ hlen, hcnt, hrun, hn0,
      Nat.sub_self, drop_zero, append_assoc]
  · simp [headOff, Node.prepend_off _ _ hlen, hcnt, hn0]
  · simp [Mbuff.layout, hn]

/-- The checksum is appended exactly if two bytes are left in the tail. -/
theorem Open.append_crc (h : mb.Open) (crc : Nat) :
    ∃ mb', mb'.Open ∧ mb'.layout = mb.layout ∧
      if 2 ≤ Boxes.room mb.layout (mb.headOff + mb.validSize) then
        mb.appendInline (crcFn crc) false = (true, mb') ∧ Extends mb mb' (le 2 crc)
      else mb.appendInline (crcFn crc) false = (false, mb') := by
  obtain ⟨init, t, hn, ht⟩ := h.tail
  rw [h.legit.room_eq hn ht]
  by_cases hsp : 0 < t.appendSpace
  · have hprep : mb.appendPrepareInline = some (t, { mb with nodes := init }) := by
      simp [appendPrepareInline, hn, hsp]
    have hext := h.legit.extends_inline hprep (crcFn crc) false
    have heq : mb.appendInline (crcFn crc) false = ((t.append (crcFn crc) false).1,
        { mb with nodes := init }.appendFinalize (t.append (crcFn crc) false).2.1
          (t.append (crcFn crc) false).2.2) := by
      rw [appendInline, hprep]
    have hopen : ({ mb with nodes := init }.appendFinalize (t.append (crcFn crc) false).2.1
        (t.append (crcFn crc) false).2.2).Open :=
      ⟨hext.legit, hext.layout ▸ h.pages, init, _, rfl, by rw [Node.append_len]; omega⟩
    refine ⟨_, hopen, hext.layout, ?_⟩
    rw [heq]
    have hlen := t.appendChunk_length
    by_cases h2 : 2 ≤ t.appendSpace
    · have hrun : (crcFn crc).run false t.appendChunk =
          (true, le 2 crc ++ t.appendChunk.drop 2, 2) :=
        if_neg (by rw [hlen]; exact Nat.not_lt.mpr h2)
      have happ : t.appended (crcFn crc) false = le 2 crc := by
        rw [Node.appended, hrun]
        exact take_left' (le_length 2 crc)
      have hst : (t.append (crcFn crc) false).1 = true := congrArg Prod.fst hrun
      rw [if_pos h2, hst]
      rw [happ] at hext
      exact ⟨rfl, hext⟩
    · have hrun : (crcFn crc).run false t.appendChunk = (false, t.appendChunk, 0) :=
        if_pos (by rw [hlen]; exact Nat.lt_of_not_le h2)
      have hst : (t.append (crcFn crc) false).1 = false := congrArg Prod.fst hrun
      rw [if_neg h2, hst]
  · have hprep : mb.appendPrepareInline = none := by
      simp [appendPrepareInline, hn, hsp]
    refine ⟨mb, h, rfl, ?_⟩
    rw [if_neg (by omega), appendInline, hprep]

/-! ## Padding -/

theorem zeroFn_draws : Draws zeroFn id fun _ => True :=
  ⟨fun s chunk _ => Nat.min_comm _ _, fun s chunk _ => by simp only [zeroFn, id]; omega,
    fun _ _ _ => trivial⟩

theorem Legit.append_zeros (hl : mb.Legit) (hpos : ∀ l ∈ mb.layout, 0 < l) (size : Nat)
    (hsize : size ≤ mb.appendAvailSize) :
    (mb.append zeroFn size).1 = 0 ∧
      Extends mb (mb.append zeroFn size).2 (List.replicate size 0) := by
  have hstep : ∀ out s (t : Node), out ++ List.replicate s 0 = List.replicate size 0 →
      (out ++ t.appended zeroFn s) ++ List.replicate (t.append zeroFn s).1 0 =
        List.replicate size 0 := by
    intro out s t h
    have happ : t.appended zeroFn s = List.replicate (min t.appendChunk.length s) 0 :=
      take_left' (length_replicate ..)
    rw [happ]
    change _ ++ List.replicate (s - min t.appendChunk.length s) 0 = _
    rw [append_assoc, ← replicate_add,
      show min t.appendChunk.length s + (s - min t.appendChunk.length s) = s by omega, h]
  obtain ⟨out, hext, hR⟩ := appendLoop_extends
    (R := fun out s => out ++ List.replicate s 0 = List.replicate size 0) hstep
    (mb.free.length + 1) (nil_append (List.replicate size 0)) (Extends.refl hl)
  have hexit := appendLoop_exit (s := size) zeroFn_draws trivial hl hpos mb.rounds_le
  have havail := hext.appendAvailSize hl
  have hlen := congrArg List.length hR
  rw [length_append, length_replicate, length_replicate] at hlen
  simp only [id] at hexit
  have hzero : (mb.append zeroFn size).1 = 0 := by
    unfold append
    rcases hexit with h | h <;> omega
  refine ⟨hzero, ?_⟩
  unfold append at hzero
  rw [hzero, replicate_zero, append_nil] at hR
  rw [hR] at hext
  exact hext

/-- There is space for the padding, or the buffer that is added makes it so. What
`mbuff_add_buffers` is asked for is the free size to reach, and it is asked for what is
missing to the padding. -/
def PadFits (mb : Mbuff) (padding : Nat) : Prop :=
  padding ≤ mb.appendAvailSize ∨
    2 * mb.freeSize < padding ∧
      padding ≤ mb.appendAvailSize + alignUp (padding - 2 * mb.freeSize) 4096

instance (mb : Mbuff) (padding : Nat) : Decidable (mb.PadFits padding) :=
  inferInstanceAs (Decidable (_ ∨ _))

theorem Open.pad_grow (h : mb.Open) (halloc : ∀ n, (alloc.run n).isSome)
    (padding : Nat) :
    ∃ mb', (if mb.appendAvailSize < padding then
        mb.mbuffAddBuffers alloc (padding - mb.freeSize) else mb) = mb' ∧
      mb'.Open ∧ mb'.bytes = mb.bytes ∧
      (padding ≤ mb'.appendAvailSize ↔ mb.PadFits padding) := by
  unfold PadFits
  by_cases hlt : mb.appendAvailSize < padding
  · rw [if_pos hlt]
    by_cases hf : 2 * mb.freeSize < padding
    · obtain ⟨b, hb, hlen⟩ := mbuffAddBuffers_spec halloc
        (show mb.freeSize < padding - mb.freeSize by omega)
      rw [show padding - mb.freeSize - mb.freeSize = padding - 2 * mb.freeSize by omega] at hlen
      refine ⟨mb.addBuff b, hb, ⟨h.legit.addBuff b, h.pages.addBuff (by omega) hlen, h.tail⟩,
        rfl, ?_⟩
      rw [addBuff_avail, hlen]
      constructor
      · exact fun hle => Or.inr ⟨hf, hle⟩
      · rintro (hle | ⟨-, hle⟩) <;> omega
    · refine ⟨mb, by rw [mbuffAddBuffers, if_pos (by omega)], h, rfl, ?_⟩
      constructor
      · exact Or.inl
      · rintro (hle | ⟨hf', -⟩) <;> omega
  · refine ⟨mb, if_neg hlt, h, rfl, ?_⟩
    constructor
    · exact Or.inl
    · exact fun _ => by omega

theorem Open.padding_spec (h : mb.Open) (halloc : ∀ n, (alloc.run n).isSome)
    (padding : Nat) :
    ∃ mb', mb'.Legit ∧ Pages mb'.layout ∧
      if mb.PadFits padding then
        mb.mbuffAppendPadding alloc padding = (none, mb') ∧
          mb'.bytes = mb.bytes ++ List.replicate padding 0
      else mb.mbuffAppendPadding alloc padding = (some .enomem, mb') := by
  obtain ⟨mb1, hgrow, hopen, hbytes, hiff⟩ := h.pad_grow halloc padding
  unfold mbuffAppendPadding
  dsimp only
  rw [hgrow]
  by_cases hfit : mb.PadFits padding
  · have hle := hiff.mpr hfit
    obtain ⟨hz, hext⟩ := hopen.legit.append_zeros (fun l hl => (hopen.pages l hl).1) padding hle
    refine ⟨(mb1.append zeroFn padding).2, hext.legit, hext.layout ▸ hopen.pages, ?_⟩
    rw [if_pos hfit, if_neg (by omega), hz, if_neg (by simp), hext.bytes, hbytes]
    exact ⟨rfl, rfl⟩
  · refine ⟨mb1, hopen.legit, hopen.pages, ?_⟩
    rw [if_neg hfit, if_pos (by rw [← hiff] at hfit; omega)]

/-! ## The whole record -/

/-- Behind the checksum the free list holds the buffers that the record does not
reach. -/
theorem Open.freeSize_eq (h : mb.Open) :
    mb.freeSize = Boxes.behind mb.layout (mb.headOff + mb.validSize) := by
  obtain ⟨init, t, hn, ht⟩ := h.tail
  have hroom := h.legit.room_eq hn ht
  have hsum := h.legit.layout_sum
  have havail : mb.appendAvailSize = mb.freeSize + t.appendSpace := by
    simp [appendAvailSize, hn]
  have := Boxes.room_add_behind (show mb.headOff + mb.validSize ≤ mb.layout.sum by omega)
  omega

end Mbuff

namespace Config

variable {c : Config} {kv : Mbuff} {alloc pad : IoAlloc} {k v : List UInt8}

/-- The first half of the condition: the tail has room for the checksum. -/
theorem recordFits_iff {ls : List Nat} {k v : List UInt8}
    (hsum : putKeyvalPrefixSize + k.length + v.length ≤
      (grown ls (putKeyvalPrefixSize + k.length + v.length + putKeyvalSuffixSize)).sum) :
    c.RecordFits ls k v ↔
      let n := putKeyvalPrefixSize + k.length + v.length
      let ls' := grown ls (n + putKeyvalSuffixSize)
      let size := c.ioSizeGrains k v * c.grainSize
      let padding := size - (n + putKeyvalSuffixSize)
      2 ≤ Boxes.room ls' n ∧
        (size ≤ ls'.sum ∨
          2 * Boxes.behind ls' n < padding ∧
            size ≤ ls'.sum + alignUp (padding - 2 * Boxes.behind ls' n) 4096) := by
  have h := Boxes.room_lt_two_iff (show 0 < putKeyvalPrefixSize + k.length + v.length by
    simp only [putKeyvalPrefixSize]; omega) hsum
  rw [← not_iff_not, not_or, Nat.not_lt] at h
  unfold RecordFits
  dsimp only
  rw [h]

theorem ioSizeGrains_ge (k v : List UInt8) :
    putKeyvalPrefixSize + k.length + v.length + putKeyvalSuffixSize ≤
      c.ioSizeGrains k v * c.grainSize := by
  have := le_udivRoundUp (x := k.length + v.length + putKeyvalPrefixSize + putKeyvalSuffixSize)
    c.grain_pos
  unfold ioSizeGrains
  omega

/-- Header and checksum around key and value: the checksum decides. -/
theorem body_spec (ts : Nat) (h : kv.Cached) (halloc : ∀ n, (alloc.run n).isSome) (hv : v ≠ []) :
    let n := putKeyvalPrefixSize + k.length + v.length
    let ls := grown kv.layout (n + putKeyvalSuffixSize)
    let hdr := headerBytes ⟨k.length, v.length, ts⟩
    ∃ kv1 kv2, kv.copyKeyval alloc k v = (none, kv1) ∧ kv1.validSize = k.length + v.length ∧
      kv2.Open ∧ kv2.layout = ls ∧ n ≤ ls.sum ∧
      if 2 ≤ Boxes.room ls n then
        c.mbuffPrependAppendMd ts kv1 k.length v.length = (none, kv2) ∧
          kv2.bytes = hdr ++ k ++ v ++ le 2 (c.checksum16 ts hdr) ∧
          kv2.freeSize = Boxes.behind ls n ∧
          ls.sum = n + putKeyvalSuffixSize + kv2.appendAvailSize
      else c.mbuffPrependAppendMd ts kv1 k.length v.length = (some .einval, kv2) := by
  intro n ls hdr
  obtain ⟨kv1, hcopy, hopen1, hbytes1, hoff1, hlay1⟩ :=
    Mbuff.copyKeyval_spec (k := k) h halloc hv
  have hsize1 : kv1.validSize = k.length + v.length := by
    rw [hopen1.legit.validSize_eq, hbytes1, length_append]
  obtain ⟨kv2, hhdr, hopen2, hbytes2, hoff2, hlay2⟩ :=
    hopen1.prepend_hdr hoff1 ⟨k.length, v.length, ts⟩
  have hsize2 : kv2.validSize = n := by
    rw [hopen2.legit.validSize_eq, hbytes2, hbytes1]
    simp only [length_append, headerBytes_length, putKeyvalPrefixSize, n]
    omega
  obtain ⟨kv3, hopen3, hlay3, hcrc⟩ := hopen2.append_crc (c.checksum16 ts hdr)
  have hls : kv2.layout = ls := hlay2.trans hlay1
  have hsum2 := hopen2.legit.layout_sum
  rw [hoff2, hsize2, hls, Nat.zero_add] at hcrc hsum2
  refine ⟨kv1, kv3, hcopy, hsize1, hopen3, hlay3.trans hls, by omega, ?_⟩
  unfold mbuffPrependAppendMd
  dsimp only
  rw [hhdr]
  by_cases hroom : 2 ≤ Boxes.room ls n
  · rw [if_pos hroom] at hcrc ⊢
    obtain ⟨hcrc, hext⟩ := hcrc
    have hsize3 := hext.validSize hopen2.legit
    have hfree3 := hopen3.freeSize_eq
    have hsum3 := hopen3.legit.layout_sum
    rw [le_length, hsize2] at hsize3
    rw [hext.headOff, hoff2, hsize3, Nat.zero_add, hlay3, hls] at hfree3 hsum3
    rw [Boxes.behind_add hroom] at hfree3
    rw [hcrc]
    refine ⟨rfl, ?_, hfree3, hsum3⟩
    rw [hext.bytes, hbytes2, hbytes1]
    simp only [append_assoc, hdr]
  · rw [if_neg hroom] at hcrc ⊢
    rw [hcrc]
    rfl

theorem padFits_iff {mb : Mbuff} {size m sum : Nat} (hle : m ≤ size)
    (hsum : sum = m + mb.appendAvailSize) :
    mb.PadFits (size - m) ↔
      size ≤ sum ∨ 2 * mb.freeSize < size - m ∧
        size ≤ sum + alignUp (size - m - 2 * mb.freeSize) 4096 := by
  unfold Mbuff.PadFits
  constructor <;> rintro (h | ⟨h, h'⟩)
  · exact Or.inl (by omega)
  · exact Or.inr ⟨h, by omega⟩
  · exact Or.inl (by omega)
  · exact Or.inr ⟨h, by omega⟩

/-- Building a record gives the bytes of the record and no error if it fits, and an
error if not; the buffers stay as `mbuff_add_buffers` makes them. -/
theorem buildRecord_spec (ts : Nat) (h : kv.Cached) (halloc : ∀ n, (alloc.run n).isSome)
    (hpad : ∀ n, (pad.run n).isSome) (hv : v ≠ []) :
    ∃ kv', kv'.Legit ∧ Mbuff.Pages kv'.layout ∧
      ((c.RecordFits kv.layout k v ∧ c.buildRecord alloc pad ts kv k v = (none, kv') ∧
        kv'.bytes = c.recordBytes ts k v) ∨
      ¬ c.RecordFits kv.layout k v ∧
        ∃ e, c.buildRecord alloc pad ts kv k v = (some e, kv')) := by
  obtain ⟨kv1, kv2, hcopy, hsize1, hopen, hlay, hsum, hbody⟩ :=
    body_spec (c := c) (k := k) ts h halloc hv
  have hio : k.length + v.length + putKeyvalPrefixSize + putKeyvalSuffixSize =
      putKeyvalPrefixSize + k.length + v.length + putKeyvalSuffixSize := by omega
  rw [recordFits_iff hsum]
  unfold buildRecord
  rw [hcopy]
  unfold localPutMbuffIo
  dsimp only
  rw [hsize1, Nat.add_sub_cancel_left]
  by_cases hroom : 2 ≤ Boxes.room (grown kv.layout
      (putKeyvalPrefixSize + k.length + v.length + putKeyvalSuffixSize))
      (putKeyvalPrefixSize + k.length + v.length)
  · rw [if_pos hroom] at hbody
    obtain ⟨hmd, hbytes, hfree, hsum2⟩ := hbody
    have hfit := padFits_iff (ioSizeGrains_ge (c := c) k v) hsum2
    rw [hfree] at hfit
    obtain ⟨kv3, hleg, hpages, hpadded⟩ := hopen.padding_spec hpad
      (c.ioSizeGrains k v * c.grainSize -
        (putKeyvalPrefixSize + k.length + v.length + putKeyvalSuffixSize))
    refine ⟨kv3, hleg, hpages, ?_⟩
    rw [hmd]
    dsimp only
    rw [← hfit, ← ioSizeGrains, hio]
    split at hpadded
    · rename_i hpf
      refine Or.inl ⟨⟨hroom, hpf⟩, hpadded.1, ?_⟩
      rw [hpadded.2, hbytes]
      unfold recordBytes
      dsimp only
      congr 2
      simp only [length_append, headerBytes_length, le_length, putKeyvalPrefixSize,
        putKeyvalSuffixSize]
    · rename_i hpf
      exact Or.inr ⟨fun hf => hpf hf.2, _, hpadded⟩
  · rw [if_neg hroom] at hbody
    refine ⟨kv2, hopen.legit, hopen.pages, Or.inr ⟨fun hf => hroom hf.1, .einval, ?_⟩⟩
    rw [hbody]

/-- Puts leave an Mbuff behind that the next one finds as the cache has it. -/
theorem buildRecord_cached (ts : Nat) (h : kv.Cached) (halloc : ∀ n, (alloc.run n).isSome)
    (hpad : ∀ n, (pad.run n).isSome) (hv : v ≠ []) :
    (c.buildRecord alloc pad ts kv k v).2.resliceZero.Cached := by
  obtain ⟨kv', hleg, hpages, hres⟩ := buildRecord_spec (c := c) (k := k) ts h halloc hpad hv
  rcases hres with ⟨-, heq, -⟩ | ⟨-, e, heq⟩ <;> rw [heq] <;> exact hleg.resliceZero_cached hpages

/-! ## When records fit -/

theorem recordFits_nil (c : Config) (k v : List UInt8) : c.RecordFits [] k v := by
  have hge := ioSizeGrains_ge (c := c) k v
  unfold RecordFits
  generalize hn : putKeyvalPrefixSize + k.length + v.length = n at *
  generalize c.ioSizeGrains k v * c.grainSize = size at *
  have hl := Mbuff.le_alignUp (n + putKeyvalSuffixSize)
  have hp := Mbuff.le_alignUp (size - (n + putKeyvalSuffixSize))
  have hgrown : grown [] (n + putKeyvalSuffixSize) = [alignUp (n + putKeyvalSuffixSize) 4096] := by
    rw [grown, sum_nil, if_pos (by simp only [putKeyvalSuffixSize]; omega), Nat.sub_zero]
  have hends : ∀ p, Boxes.Ends [alignUp (n + putKeyvalSuffixSize) 4096] p →
      p = alignUp (n + putKeyvalSuffixSize) 4096 := by
    intro p hp
    rcases Boxes.ends_cons.mp hp with rfl | ⟨-, he⟩
    · rfl
    · exact absurd he (Boxes.not_ends_nil _)
  have hbehind : Boxes.behind [alignUp (n + putKeyvalSuffixSize) 4096] n = 0 := by
    rw [Boxes.behind, if_pos (by omega), sum_nil]
  simp only [putKeyvalSuffixSize] at *
  rw [hgrown, hbehind, Nat.mul_zero, Nat.sub_zero, sum_singleton]
  refine ⟨⟨fun he => ?_, fun he => ?_⟩, ?_⟩
  · have := hends _ he
    omega
  · have := hends _ he
    omega
  · by_cases hs : size ≤ alignUp (n + 2) 4096
    · exact Or.inl hs
    · exact Or.inr ⟨by omega, by omega⟩

/-- If pages are whole numbers of grains, only the seams matter: the padding fits. -/
theorem recordFits_iff_of_dvd (hg : c.grainSize ∣ 4096) {ls : List Nat} (hls : Mbuff.Pages ls)
    (k v : List UInt8) :
    c.RecordFits ls k v ↔
      let n := putKeyvalPrefixSize + k.length + v.length
      ¬ Boxes.Ends (grown ls (n + putKeyvalSuffixSize)) n ∧
        ¬ Boxes.Ends (grown ls (n + putKeyvalSuffixSize)) (n + 1) := by
  unfold RecordFits
  refine and_iff_left (Or.inl ?_)
  generalize hm : putKeyvalPrefixSize + k.length + v.length + putKeyvalSuffixSize = m
  have hsum : m ≤ (grown ls m).sum ∧ c.grainSize ∣ (grown ls m).sum := by
    have hdvd : c.grainSize ∣ ls.sum := dvd_sum fun l hl => hg.trans (hls l hl).2
    unfold grown
    split
    · rw [sum_cons]
      have := Mbuff.le_alignUp (m - ls.sum)
      exact ⟨by omega, Dvd.dvd.add (hg.trans (Mbuff.dvd_alignUp _)) hdvd⟩
    · exact ⟨by omega, hdvd⟩
  obtain ⟨hle, q, hq⟩ := hsum
  have hio : c.ioSizeGrains k v ≤ q := by
    unfold ioSizeGrains udivRoundUp
    rw [show k.length + v.length + putKeyvalPrefixSize + putKeyvalSuffixSize = m by omega]
    refine Nat.lt_succ_iff.mp ((Nat.div_lt_iff_lt_mul c.grain_pos).mpr ?_)
    rw [Nat.succ_mul, Nat.mul_comm q]
    have := c.grain_pos
    omega
  calc c.ioSizeGrains k v * c.grainSize ≤ q * c.grainSize := Nat.mul_le_mul_right _ hio
    _ = (grown ls m).sum := by rw [hq, Nat.mul_comm]

/-- A record of less than a page fits. -/
theorem recordFits_of_lt (hg : c.grainSize ∣ 4096) {ls : List Nat} (hls : Mbuff.Pages ls)
    (hn : putKeyvalPrefixSize + k.length + v.length + 1 < 4096) : c.RecordFits ls k v := by
  rw [recordFits_iff_of_dvd hg hls]
  have hends : ∀ p, Boxes.Ends (grown ls
      (putKeyvalPrefixSize + k.length + v.length + putKeyvalSuffixSize)) p → 4096 ≤ p :=
    fun p => (Mbuff.Pages.grown hls _).le_of_ends
  exact ⟨fun he => absurd (hends _ he) (by omega), fun he => absurd (hends _ he) (by omega)⟩

theorem buildRecord_ok_iff (ts : Nat) (h : kv.Cached) (halloc : ∀ n, (alloc.run n).isSome)
    (hpad : ∀ n, (pad.run n).isSome) (hv : v ≠ []) :
    ((c.buildRecord alloc pad ts kv k v).1 = none ∧
      (c.buildRecord alloc pad ts kv k v).2.bytes = c.recordBytes ts k v) ↔
    c.RecordFits kv.layout k v := by
  obtain ⟨kv', -, -, hres⟩ := buildRecord_spec (c := c) (k := k) ts h halloc hpad hv
  rcases hres with ⟨hfit, heq, hbytes⟩ | ⟨hfit, e, heq⟩
  · rw [heq]
    exact ⟨fun _ => hfit, fun _ => ⟨rfl, hbytes⟩⟩
  · rw [heq]
    exact ⟨fun h => absurd h.1 (by simp), fun h => absurd h hfit⟩

/-- An allocator that does not fail. -/
def zeros : IoAlloc := ⟨fun n => some ⟨0, List.replicate n 0⟩, fun h => by cases h; simp⟩

/-- A store with grains of a page and segments of eight. -/
def paged : Config :=
  .ofSizes 4 4096 8 1 4 (fun _ => 5) (fun _ _ => 0) (Eq.refl true)

def oneBuff (data : List UInt8) : Mbuff := ⟨[], 0, [⟨0, data⟩], data.length⟩

theorem oneBuff_cached {data : List UInt8} (h : data.length = 4096) : (oneBuff data).Cached :=
  ⟨rfl, rfl, by simp [oneBuff], by simp [oneBuff, h]⟩

/-- A record is built in a new Mbuff, a second one in the buffers that it leaves; and one of
5017 bytes over the seam of a reused page and the page that is added in front of it. -/
theorem buildRecord_ok_reused :
    let first := paged.buildRecord zeros zeros 7 ⟨[], 0, [], 0⟩ [1] [2]
    let second := paged.buildRecord zeros zeros 8 first.2.resliceZero [3] [4]
    let wide := paged.buildRecord zeros zeros 9 (oneBuff (List.replicate 4096 0)) [5]
      (List.replicate 5000 6)
    (first.1 = none ∧ first.2.bytes = paged.recordBytes 7 [1] [2]) ∧
      (second.1 = none ∧ second.2.bytes = paged.recordBytes 8 [3] [4]) ∧
      wide.1 = none ∧ wide.2.bytes = paged.recordBytes 9 [5] (List.replicate 5000 6) := by
  have hnew : (⟨[], 0, [], 0⟩ : Mbuff).Cached := ⟨rfl, rfl, rfl, by simp⟩
  have hleft : (paged.buildRecord zeros zeros 7 ⟨[], 0, [], 0⟩ [1] [2]).2.resliceZero.Cached :=
    buildRecord_cached 7 hnew (fun _ => rfl) (fun _ => rfl) (by simp)
  have hpage := oneBuff_cached (length_replicate (n := 4096) (a := 0))
  refine ⟨(buildRecord_ok_iff 7 hnew (fun _ => rfl) (fun _ => rfl) (by simp)).mpr
    (recordFits_nil _ _ _), (buildRecord_ok_iff 8 hleft (fun _ => rfl) (fun _ => rfl)
    (by simp)).mpr (recordFits_of_lt (by decide) hleft.pages (by decide)), ?_⟩
  refine (buildRecord_ok_iff 9 hpage (fun _ => rfl) (fun _ => rfl)
    (ne_nil_of_length_pos (by rw [length_replicate]; decide))).mpr ?_
  rw [recordFits_iff_of_dvd (by decide) hpage.pages, hpage.layout, length_replicate]
  have hgrown : grown ((oneBuff (List.replicate 4096 0)).free.map fun b => b.data.length) 5017 =
      [4096, 4096] := by
    simp only [oneBuff, map_cons, map_nil, length_replicate]
    decide
  change ¬ Boxes.Ends (grown _ 5017) 5015 ∧ ¬ Boxes.Ends (grown _ 5017) 5016
  rw [hgrown]
  simp [Boxes.ends_cons, Boxes.not_ends_nil]

theorem buildRecord_einval (ts : Nat) (h : kv.Cached) (halloc : ∀ n, (alloc.run n).isSome)
    (hv : v ≠ [])
    (hroom : Boxes.room (grown kv.layout
      (putKeyvalPrefixSize + k.length + v.length + putKeyvalSuffixSize))
      (putKeyvalPrefixSize + k.length + v.length) < 2) :
    (c.buildRecord alloc pad ts kv k v).1 = some .einval := by
  obtain ⟨kv1, kv2, hcopy, hsize, -, -, -, hbody⟩ :=
    body_spec (c := c) (k := k) ts h halloc hv
  rw [if_neg (by omega)] at hbody
  unfold buildRecord
  rw [hcopy]
  unfold localPutMbuffIo
  dsimp only
  rw [hsize, Nat.add_sub_cancel_left, hbody]

/-- Header, key and value fill the page that is added in front of the reused one, and
the checksum does not go into the next. -/
theorem seam_put_einval :
    (oneBuff (List.replicate 4096 0)).Cached ∧
      paged.ioSizeGrains [1] (List.replicate 4081 2) ≤ paged.segSize - paged.segMdSize ∧
      (paged.buildRecord zeros zeros 7 (oneBuff (List.replicate 4096 0)) [1]
        (List.replicate 4081 2)).1 = some .einval := by
  have hc := oneBuff_cached (length_replicate (n := 4096) (a := 0))
  have hv := length_replicate (n := 4081) (a := (2 : UInt8))
  have hgrains : paged.ioSizeGrains [1] (List.replicate 4081 2) = 2 := by
    unfold ioSizeGrains
    rw [hv]
    rfl
  refine ⟨hc, by rw [hgrains]; decide, buildRecord_einval 7 hc (fun _ => rfl)
    (ne_nil_of_length_pos (by omega)) ?_⟩
  rw [hc.layout, hv]
  change Boxes.room (grown [(List.replicate 4096 (0 : UInt8)).length] 4098) 4096 < 2
  rw [length_replicate]
  decide

end Config

end UDepot
