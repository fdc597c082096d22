import UDepot.Lib.Bytes

/-! A record on the device (`store.hh`): a packed header of key size, value size
and timestamp, the key, the value, a checksum of the header and zero padding up
to a whole number of grains. -/

namespace UDepot
open Bytes List

/-- The parameters of a store: the width of its tables, the grain and segment
sizes of the capacity manager with its number of segments and the grains it
reserves in each, and the two external functions, `HashFn::hash` and
`uDepotSalsaMD::checksum16`. -/
structure Config where
  bits : Nat
  grainSize : Nat
  segSize : Nat
  segMdSize : Nat
  segNr : Nat
  hash : List UInt8 → Nat
  checksum16 : Nat → List UInt8 → Nat
  bits_lt : bits + 8 < 64
  grain_pos : 0 < grainSize
  seg_pos : 0 < segSize
  md_pos : 0 < segMdSize
  md_lt : segMdSize < segSize

def Config.sizesOk (bits grainSize segSize segMdSize : Nat) : Bool :=
  decide (bits + 8 < 64 ∧ 0 < grainSize ∧ 0 < segSize ∧ 0 < segMdSize ∧ segMdSize < segSize)

@[simps] def Config.ofSizes (bits grainSize segSize segMdSize segNr : Nat)
    (hash : List UInt8 → Nat) (checksum16 : Nat → List UInt8 → Nat)
    (h : Config.sizesOk bits grainSize segSize segMdSize = true) : Config where
  bits := bits
  grainSize := grainSize
  segSize := segSize
  segMdSize := segMdSize
  segNr := segNr
  hash := hash
  checksum16 := checksum16
  bits_lt := (of_decide_eq_true h).1
  grain_pos := (of_decide_eq_true h).2.1
  seg_pos := (of_decide_eq_true h).2.2.1
  md_pos := (of_decide_eq_true h).2.2.2.1
  md_lt := (of_decide_eq_true h).2.2.2.2

/-- `uDepotSalsaStoreHeader`. -/
@[ext] structure StoreHeader where
  keySize : Nat
  valSize : Nat
  timestamp : Nat
  deriving DecidableEq, Repr

def putKeyvalPrefixSize : Nat := 14
def putKeyvalSuffixSize : Nat := 2

def udivRoundUp (x y : Nat) : Nat := (x + y - 1) / y

def alignUp (x y : Nat) : Nat := y * udivRoundUp x y

theorem le_udivRoundUp {x y : Nat} (hy : 0 < y) : x ≤ udivRoundUp x y * y := by
  have h := Nat.div_add_mod (x + y - 1) y
  have hlt := Nat.mod_lt (x + y - 1) hy
  unfold udivRoundUp
  rw [Nat.mul_comm]
  omega

theorem udivRoundUp_pos {x y : Nat} (hy : 0 < y) (hx : 0 < x) : 0 < udivRoundUp x y :=
  Nat.div_pos (by omega) hy

namespace Config

variable (c : Config)

/-- `grain_to_seg_idx`. -/
def grainToSegIdx (grain : Nat) : Nat := grain / c.segSize

/-- `kv_tot_grains_get`: the sizes are `u32` and so is their sum. -/
def kvTotGrainsGet (keySize valSize : Nat) : Nat :=
  udivRoundUp ((valSize % 2 ^ 32 + keySize % 2 ^ 32) % 2 ^ 32 + putKeyvalPrefixSize +
    putKeyvalSuffixSize) c.grainSize

/-- `io_size_grains` of `local_put_mbuff_io`, computed in `size_t`. -/
def ioSizeGrains (k v : List UInt8) : Nat :=
  udivRoundUp (k.length + v.length + putKeyvalPrefixSize + putKeyvalSuffixSize) c.grainSize

def readHeader (m : Nat → UInt8) (grain : Nat) : StoreHeader :=
  ⟨leNat (read m (grain * c.grainSize) 2), leNat (read m (grain * c.grainSize + 2) 4),
    leNat (read m (grain * c.grainSize + 6) 8)⟩

/-- The key, value and extent of what the header at a grain describes. -/
def recKey (m : Nat → UInt8) (grain : Nat) : List UInt8 :=
  read m (grain * c.grainSize + putKeyvalPrefixSize) (c.readHeader m grain).keySize

def recVal (m : Nat → UInt8) (grain : Nat) : List UInt8 :=
  read m (grain * c.grainSize + putKeyvalPrefixSize + (c.readHeader m grain).keySize)
    (c.readHeader m grain).valSize

def recGrains (m : Nat → UInt8) (grain : Nat) : Nat :=
  c.kvTotGrainsGet (c.readHeader m grain).keySize (c.readHeader m grain).valSize

end Config

def headerBytes (md : StoreHeader) : List UInt8 :=
  le 2 md.keySize ++ le 4 md.valSize ++ le 8 md.timestamp

@[simp] theorem headerBytes_length (md : StoreHeader) : (headerBytes md).length = 14 := by
  simp [headerBytes]

namespace Config

variable (c : Config)

/-- What `local_put_mbuff_io` writes: the timestamp is that of the segment. -/
def recordBytes (ts : Nat) (k v : List UInt8) : List UInt8 :=
  let hdr := headerBytes ⟨k.length, v.length, ts⟩
  let body := hdr ++ k ++ v ++ le 2 (c.checksum16 ts hdr)
  body ++ List.replicate (c.ioSizeGrains k v * c.grainSize - body.length) 0

/-- What the garbage collector writes for the record at `start`: header, key and
value as they are, and the checksum for the new segment's timestamp. The sum of
the sizes in `payload_size` is a `u32`. -/
def relocBytes (m : Nat → UInt8) (start ts : Nat) : List UInt8 :=
  let md := c.readHeader m start
  read m (start * c.grainSize) (putKeyvalPrefixSize + (md.keySize + md.valSize) % 2 ^ 32) ++
    le 2 (c.checksum16 ts (read m (start * c.grainSize) putKeyvalPrefixSize))

/-! ## Reading a record back -/

variable {c}

theorem readHeader_lt (m : Nat → UInt8) (g : Nat) :
    (c.readHeader m g).keySize < 2 ^ 16 ∧ (c.readHeader m g).valSize < 2 ^ 32 ∧
      (c.readHeader m g).timestamp < 2 ^ 64 := by
  have h1 := leNat_lt (read m (g * c.grainSize) 2)
  have h2 := leNat_lt (read m (g * c.grainSize + 2) 4)
  have h3 := leNat_lt (read m (g * c.grainSize + 6) 8)
  rw [read_length] at h1 h2 h3
  exact ⟨h1, h2, h3⟩

variable {m m' : Nat → UInt8} {g : Nat}

theorem readHeader_eq_of_read {g' : Nat}
    (h : read m' (g' * c.grainSize) 14 = read m (g * c.grainSize) 14) :
    c.readHeader m' g' = c.readHeader m g := by
  rw [show 14 = 2 + (4 + 8) by rfl, read_add, read_add, read_add m, read_add m] at h
  obtain ⟨h1, h⟩ := append_inj h (by simp)
  obtain ⟨h2, h3⟩ := append_inj h (by simp)
  unfold readHeader
  rw [h1, h2, show g' * c.grainSize + 6 = g' * c.grainSize + 2 + 4 by omega, h3]

theorem rec_eq_of_read {g' : Nat}
    (h : read m' (g' * c.grainSize) (putKeyvalPrefixSize + (c.readHeader m g).keySize +
        (c.readHeader m g).valSize) =
      read m (g * c.grainSize) (putKeyvalPrefixSize + (c.readHeader m g).keySize +
        (c.readHeader m g).valSize)) :
    c.readHeader m' g' = c.readHeader m g ∧ c.recKey m' g' = c.recKey m g ∧
      c.recVal m' g' = c.recVal m g := by
  rw [Nat.add_assoc, read_add, read_add m] at h
  obtain ⟨hh, h⟩ := append_inj h (by simp)
  rw [read_add, read_add m] at h
  obtain ⟨hk, hv⟩ := append_inj h (by simp)
  have hhdr : c.readHeader m' g' = c.readHeader m g := readHeader_eq_of_read hh
  unfold recKey recVal
  rw [hhdr]
  exact ⟨rfl, hk, hv⟩

def SizesFit (keySize valSize : Nat) : Prop := keySize + valSize < 2 ^ 32

theorem kvTotGrainsGet_eq {ks vs : Nat} (h : SizesFit ks vs) :
    c.kvTotGrainsGet ks vs = udivRoundUp (ks + vs + 16) c.grainSize := by
  unfold SizesFit at h
  unfold kvTotGrainsGet
  rw [Nat.mod_eq_of_lt (show vs < 2 ^ 32 by omega), Nat.mod_eq_of_lt (show ks < 2 ^ 32 by omega),
    Nat.mod_eq_of_lt (show vs + ks < 2 ^ 32 by omega), Nat.add_comm vs ks]
  rfl

theorem kvTotGrainsGet_pos (ks vs : Nat) : 0 < c.kvTotGrainsGet ks vs :=
  udivRoundUp_pos c.grain_pos (by unfold putKeyvalPrefixSize; omega)

theorem rec_le_grains (h : SizesFit (c.readHeader m g).keySize (c.readHeader m g).valSize) :
    (c.readHeader m g).keySize + (c.readHeader m g).valSize + 16 ≤
      c.recGrains m g * c.grainSize := by
  unfold recGrains
  rw [kvTotGrainsGet_eq h]
  exact le_udivRoundUp c.grain_pos

theorem rec_frame (hs : SizesFit (c.readHeader m g).keySize (c.readHeader m g).valSize)
    (h : ∀ a, g * c.grainSize ≤ a → a < (g + c.recGrains m g) * c.grainSize → m' a = m a) :
    c.readHeader m' g = c.readHeader m g ∧ c.recKey m' g = c.recKey m g ∧
      c.recVal m' g = c.recVal m g := by
  have hle := rec_le_grains hs
  refine rec_eq_of_read (read_congr fun a h1 h2 => h a h1 ?_)
  unfold putKeyvalPrefixSize at h2
  rw [Nat.add_mul]
  omega

/-! ## Writing a record -/

structure KvOk (k v : List UInt8) : Prop where
  key_pos : 0 < k.length
  key_lt : k.length < 2 ^ 16
  fit : SizesFit k.length v.length

theorem recordBytes_length (ts : Nat) (k v : List UInt8) :
    (c.recordBytes ts k v).length = c.ioSizeGrains k v * c.grainSize := by
  have hle := le_udivRoundUp (x := k.length + v.length + 14 + 2) c.grain_pos
  change _ ≤ c.ioSizeGrains k v * c.grainSize at hle
  simp only [recordBytes, length_append, headerBytes_length, le_length, length_replicate]
  omega

theorem relocBytes_length (m : Nat → UInt8) (start ts : Nat)
    (hs : SizesFit (c.readHeader m start).keySize (c.readHeader m start).valSize) :
    (c.relocBytes m start ts).length =
      (c.readHeader m start).keySize + (c.readHeader m start).valSize + 16 := by
  simp only [relocBytes, length_append, read_length, le_length, putKeyvalPrefixSize,
    Nat.mod_eq_of_lt hs]
  omega

theorem ioSizeGrains_eq {k v : List UInt8} (h : KvOk k v) :
    c.ioSizeGrains k v = c.kvTotGrainsGet k.length v.length :=
  (kvTotGrainsGet_eq h.fit).symm

theorem write_readHeader (m : Nat → UInt8) (g ts : Nat) (k v : List UInt8) :
    c.readHeader (write m (g * c.grainSize) (c.recordBytes ts k v)) g =
      ⟨k.length % 2 ^ 16, v.length % 2 ^ 32, ts % 2 ^ 64⟩ := by
  have hsplit : ∃ tail, c.recordBytes ts k v =
      le 2 k.length ++ le 4 v.length ++ le 8 ts ++ tail := by
    simp only [recordBytes, headerBytes, append_assoc]
    exact ⟨_, rfl⟩
  obtain ⟨tail, ht⟩ := hsplit
  rw [ht]
  have h1 := read_write_append m (g * c.grainSize) (le 2 k.length)
    (le 4 v.length ++ le 8 ts ++ tail)
  have h2 := read_write_part m (g * c.grainSize) (le 2 k.length) (le 4 v.length) (le 8 ts ++ tail)
  have h3 := read_write_part m (g * c.grainSize) (le 2 k.length ++ le 4 v.length) (le 8 ts) tail
  simp only [append_assoc, le_length, length_append] at h1 h2 h3 ⊢
  unfold readHeader
  rw [h1, h2, show g * c.grainSize + 6 = g * c.grainSize + (2 + 4) by omega, h3, leNat_le, leNat_le,
    leNat_le]

theorem write_rec (m : Nat → UInt8) (g ts : Nat) {k v : List UInt8} (h : KvOk k v) :
    c.readHeader (write m (g * c.grainSize) (c.recordBytes ts k v)) g =
        ⟨k.length, v.length, ts % 2 ^ 64⟩ ∧
      c.recKey (write m (g * c.grainSize) (c.recordBytes ts k v)) g = k ∧
      c.recVal (write m (g * c.grainSize) (c.recordBytes ts k v)) g = v := by
  have hfit := h.fit
  unfold SizesFit at hfit
  have hhdr := write_readHeader (c := c) m g ts k v
  rw [Nat.mod_eq_of_lt h.key_lt, Nat.mod_eq_of_lt (by omega)] at hhdr
  have hsplit : ∃ tail, c.recordBytes ts k v =
      headerBytes ⟨k.length, v.length, ts⟩ ++ k ++ v ++ tail := by
    simp only [recordBytes, append_assoc]
    exact ⟨_, rfl⟩
  obtain ⟨tail, ht⟩ := hsplit
  have hk := read_write_part m (g * c.grainSize) (headerBytes ⟨k.length, v.length, ts⟩) k
    (v ++ tail)
  have hv := read_write_part m (g * c.grainSize) (headerBytes ⟨k.length, v.length, ts⟩ ++ k) v tail
  simp only [headerBytes_length, length_append, ← append_assoc] at hk hv
  refine ⟨hhdr, ?_, ?_⟩
  · unfold recKey
    rw [hhdr, ht]
    exact hk
  · unfold recVal
    rw [hhdr, ht, Nat.add_assoc]
    exact hv

theorem reloc_rec (m : Nat → UInt8) (start g ts : Nat)
    (hs : SizesFit (c.readHeader m start).keySize (c.readHeader m start).valSize) :
    c.readHeader (write m (g * c.grainSize) (c.relocBytes m start ts)) g = c.readHeader m start ∧
      c.recKey (write m (g * c.grainSize) (c.relocBytes m start ts)) g = c.recKey m start ∧
      c.recVal (write m (g * c.grainSize) (c.relocBytes m start ts)) g = c.recVal m start := by
  apply rec_eq_of_read
  have h := read_write_append m (g * c.grainSize) (read m (start * c.grainSize)
    (putKeyvalPrefixSize + ((c.readHeader m start).keySize + (c.readHeader m start).valSize)))
    (le 2 (c.checksum16 ts (read m (start * c.grainSize) putKeyvalPrefixSize)))
  rw [read_length] at h
  simp only [relocBytes, Nat.mod_eq_of_lt hs]
  rwa [← Nat.add_assoc] at h ⊢

end Config
end UDepot
