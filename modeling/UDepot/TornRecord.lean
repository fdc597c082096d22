import UDepot.RecoveryDeleted

/-! Records of which a crash has kept some sectors only. The checksum behind the value is
one of the header: what it says of the bytes between header and checksum is nothing.

The device has the record in the sectors that were reached, and arbitrary earlier bytes
in the others. -/

namespace UDepot
open Bytes Function List

namespace Config

variable {c : Config}

/-- The device after a crash: the new bytes in the sectors that were reached. -/
def torn (sector : Nat) (reached : Nat → Bool) (new old : Nat → UInt8) : Nat → UInt8 :=
  fun a => if reached (a / sector) then new a else old a

/-- The record of a put at offset `off` of segment `i`, cut by a crash. -/
def tornPut (c : Config) (sector : Nat) (reached : Nat → Bool) (i ts off : Nat)
    (k v : List UInt8) (old : Nat → UInt8) : Nat → UInt8 :=
  torn sector reached
    (write old ((i * c.segSize + off) * c.grainSize) (c.recordBytes ts k v)) old

/-- The scan of segment `i` takes the bytes at offset `off` for the record of this put: it
finds its header, and the check passes. -/
def Entered (c : Config) (m : Nat → UInt8) (i ts off : Nat) (k v : List UInt8) : Prop :=
  read m ((i * c.segSize + off) * c.grainSize) putKeyvalPrefixSize =
      headerBytes ⟨k.length, v.length, ts⟩ ∧
    c.scanStop m i ts off = false

def Intact (c : Config) (m : Nat → UInt8) (i ts off : Nat) (k v : List UInt8) : Prop :=
  read m ((i * c.segSize + off) * c.grainSize) (putKeyvalPrefixSize + (k.length + v.length)) =
    headerBytes ⟨k.length, v.length, ts⟩ ++ (k ++ v)

/-- Every sector with a byte of the key or the value was reached. -/
def Covered (c : Config) (sector : Nat) (reached : Nat → Bool) (i off : Nat)
    (k v : List UInt8) : Prop :=
  ∀ a, (i * c.segSize + off) * c.grainSize + putKeyvalPrefixSize ≤ a →
    a < (i * c.segSize + off) * c.grainSize + putKeyvalPrefixSize + (k.length + v.length) →
      reached (a / sector) = true

/-! ## The check -/

section Check

variable {m m' : Nat → UInt8} {i ts off : Nat} {k v : List UInt8}

theorem scanStop_congr
    (hh : read m' ((i * c.segSize + off) * c.grainSize) 14 =
      read m ((i * c.segSize + off) * c.grainSize) 14)
    (hs : ∀ a, (i * c.segSize + off) * c.grainSize + 14 +
        (c.readHeader m (i * c.segSize + off)).keySize +
        (c.readHeader m (i * c.segSize + off)).valSize ≤ a → m' a = m a) :
    c.scanStop m' i ts off = c.scanStop m i ts off := by
  have hhdr := readHeader_eq_of_read (c := c) hh
  unfold scanStop putKeyvalPrefixSize
  simp only [hhdr, hh]
  rw [read_congr fun a h1 _ => hs a h1]

theorem recordBytes_split (ts : Nat) (k v : List UInt8) :
    ∃ tail, c.recordBytes ts k v = headerBytes ⟨k.length, v.length, ts⟩ ++ k ++ v ++
      le 2 (c.checksum16 ts (headerBytes ⟨k.length, v.length, ts⟩)) ++ tail :=
  ⟨_, rfl⟩

/-- What a completed put leaves: the header, the key and value, and the checksum. -/
theorem read_recordBytes (m : Nat → UInt8) (p ts : Nat) (k v : List UInt8) :
    read (write m p (c.recordBytes ts k v)) p 14 = headerBytes ⟨k.length, v.length, ts⟩ ∧
      read (write m p (c.recordBytes ts k v)) (p + 14) (k.length + v.length) = k ++ v ∧
      read (write m p (c.recordBytes ts k v)) (p + 14 + k.length + v.length) 2 =
        le 2 (c.checksum16 ts (headerBytes ⟨k.length, v.length, ts⟩)) := by
  obtain ⟨tail, ht⟩ := recordBytes_split (c := c) ts k v
  have h1 := read_write_append m p (headerBytes ⟨k.length, v.length, ts⟩)
    (k ++ v ++ le 2 (c.checksum16 ts (headerBytes ⟨k.length, v.length, ts⟩)) ++ tail)
  have h2 := read_write_part m p (headerBytes ⟨k.length, v.length, ts⟩) (k ++ v)
    (le 2 (c.checksum16 ts (headerBytes ⟨k.length, v.length, ts⟩)) ++ tail)
  have h3 := read_write_part m p (headerBytes ⟨k.length, v.length, ts⟩ ++ k ++ v)
    (le 2 (c.checksum16 ts (headerBytes ⟨k.length, v.length, ts⟩))) tail
  simp only [headerBytes_length, length_append, le_length, ← append_assoc] at h1 h2 h3
  rw [ht]
  refine ⟨h1, h2, ?_⟩
  rw [show p + 14 + k.length + v.length = p + (14 + k.length + v.length) by omega]
  exact h3

theorem write_not_scanStop (m : Nat → UInt8) (hkv : KvOk k v)
    (hfit : off + c.ioSizeGrains k v ≤ c.dataGrains) :
    c.scanStop (write m ((i * c.segSize + off) * c.grainSize) (c.recordBytes ts k v)) i ts off =
      false := by
  obtain ⟨hhdr, -, -⟩ := write_rec (c := c) m (i * c.segSize + off) ts hkv
  obtain ⟨h1, -, h3⟩ := read_recordBytes (c := c) m ((i * c.segSize + off) * c.grainSize) ts k v
  have hio : k.length + v.length + 14 + 2 ≤ c.ioSizeGrains k v * c.grainSize :=
    le_udivRoundUp c.grain_pos
  have hmul := Nat.mul_le_mul_right c.grainSize hfit
  rw [Nat.add_mul] at hmul
  unfold scanStop putKeyvalPrefixSize putKeyvalSuffixSize
  simp only [hhdr, h1, h3, leNat_le]
  simp only [Bool.or_eq_false_iff, Bool.not_eq_false', decide_eq_true_eq, decide_eq_false_iff_not,
    bne_self_eq_false, and_true]
  omega

end Check

/-! ## Partial records -/

section Torn

variable {sector i ts off : Nat} {reached : Nat → Bool} {k v : List UInt8}

/-- Key and value in sectors that were reached are those of the put. -/
theorem intact_of_covered (hcov : Covered c sector reached i off k v) {old : Nat → UInt8}
    (h : Entered c (tornPut c sector reached i ts off k v old) i ts off k v) :
    Intact c (tornPut c sector reached i ts off k v old) i ts off k v := by
  have hbody : read (tornPut c sector reached i ts off k v old)
      ((i * c.segSize + off) * c.grainSize + putKeyvalPrefixSize) (k.length + v.length) =
        read (write old ((i * c.segSize + off) * c.grainSize) (c.recordBytes ts k v))
          ((i * c.segSize + off) * c.grainSize + putKeyvalPrefixSize) (k.length + v.length) := by
    refine read_congr fun a h1 h2 => ?_
    rw [tornPut, torn, if_pos (hcov a h1 h2)]
  rw [Intact, read_add, h.1, hbody]
  exact congrArg _ (read_recordBytes old _ ts k v).2.1

def spoilt (c : Config) (i ts off : Nat) (k v : List UInt8) (b : Nat) : Nat → UInt8 :=
  let m := write (fun _ => 0) ((i * c.segSize + off) * c.grainSize) (c.recordBytes ts k v)
  update m b (m b + 1)

theorem write_twice (m : Nat → UInt8) (p : Nat) (bs : List UInt8) (a : Nat) {x : Nat → UInt8}
    (h : x a = write m p bs a) : write x p bs a = x a := by
  by_cases hin : p ≤ a ∧ a < p + bs.length
  · rw [h, write, write, if_pos hin.1, if_pos hin.1, getD_eq_getElem _ _ (by omega),
      getD_eq_getElem _ _ (by omega)]
  · exact write_outside _ _ (by omega)

variable {b : Nat}

/-- With that device as the earlier content, the crash leaves just this byte wrong. -/
theorem tornPut_spoilt (hb : reached (b / sector) = false) :
    tornPut c sector reached i ts off k v (spoilt c i ts off k v b) =
      spoilt c i ts off k v b := by
  funext a
  rw [tornPut, torn]
  split
  · rename_i ha
    have hne : a ≠ b := by
      rintro rfl
      rw [hb] at ha
      cases ha
    exact write_twice _ _ _ _ (update_of_ne hne _ _)
  · rfl

/-- The record of `spoilt` passes the check if the byte is one of the key or the value. -/
theorem spoilt_entered (hkv : KvOk k v) (hfit : off + c.ioSizeGrains k v ≤ c.dataGrains)
    (hlo : (i * c.segSize + off) * c.grainSize + 14 ≤ b)
    (hhi : b < (i * c.segSize + off) * c.grainSize + 14 + (k.length + v.length)) :
    Entered c (spoilt c i ts off k v b) i ts off k v := by
  have hhdr : read (spoilt c i ts off k v b) ((i * c.segSize + off) * c.grainSize) 14 =
      read (write (fun _ => 0) ((i * c.segSize + off) * c.grainSize) (c.recordBytes ts k v))
        ((i * c.segSize + off) * c.grainSize) 14 :=
    read_congr fun a _ h2 => update_of_ne (by omega) _ _
  refine ⟨hhdr.trans (read_recordBytes _ _ ts k v).1, ?_⟩
  rw [scanStop_congr hhdr, write_not_scanStop _ hkv hfit]
  intro a ha
  rw [(write_rec (fun _ => 0) (i * c.segSize + off) ts hkv).1] at ha
  exact update_of_ne (by dsimp only at ha; omega) _ _

theorem spoilt_not_intact (hlo : (i * c.segSize + off) * c.grainSize + 14 ≤ b)
    (hhi : b < (i * c.segSize + off) * c.grainSize + 14 + (k.length + v.length)) :
    ¬ Intact c (spoilt c i ts off k v b) i ts off k v := by
  intro h
  obtain ⟨h1, h2, -⟩ := read_recordBytes (c := c) (fun _ => 0)
    ((i * c.segSize + off) * c.grainSize) ts k v
  have hwhole : read (spoilt c i ts off k v b) ((i * c.segSize + off) * c.grainSize)
      (14 + (k.length + v.length)) =
        read (write (fun _ => 0) ((i * c.segSize + off) * c.grainSize) (c.recordBytes ts k v))
          ((i * c.segSize + off) * c.grainSize) (14 + (k.length + v.length)) := by
    refine h.trans ?_
    rw [read_add, h1, h2]
  obtain ⟨j, rfl⟩ := Nat.exists_eq_add_of_le
    (show (i * c.segSize + off) * c.grainSize ≤ b by omega)
  have hbyte := getElem_of_eq hwhole (i := j) (by rw [read_length]; omega)
  rw [read_getElem, read_getElem, spoilt, update_self] at hbyte
  simp at hbyte

/-- Whatever the sectors that were not reached hold, a record that recovery takes for the one
of a put has the header, key and value of the put: exactly if every sector of key and value
was reached. -/
theorem torn_intact_iff (hkv : KvOk k v) (hfit : off + c.ioSizeGrains k v ≤ c.dataGrains) :
    (∀ old, Entered c (tornPut c sector reached i ts off k v old) i ts off k v →
      Intact c (tornPut c sector reached i ts off k v old) i ts off k v) ↔
        Covered c sector reached i off k v := by
  constructor
  · intro h b hlo hhi
    by_contra hb
    have hb' : reached (b / sector) = false := by simpa using hb
    have hspoilt := h (spoilt c i ts off k v b)
    rw [tornPut_spoilt hb'] at hspoilt
    exact spoilt_not_intact hlo hhi (hspoilt (spoilt_entered hkv hfit hlo hhi))
  · intro hcov old h
    exact intact_of_covered hcov h

end Torn

end Config

/-! ## The whole recovery -/

namespace Store
open Config

variable {c : Config}

theorem Recovered.accepted {s s' : Store c} {order : List Nat} (hr : Recovered s order s')
    {g : Nat} (hg : g ∈ s'.records) :
    ∃ i ts off, i ∈ order ∧ s.kvTs i = some ts ∧ g = i * c.segSize + off ∧
      c.scanStop s.media i ts off = false := by
  obtain ⟨e, he, rfl⟩ := mem_records.mp hg
  have hel := (hr.points _ _).mpr ⟨e, he, rfl, rfl⟩
  have hmem := (Elect.elect_mem hel).resolve_left nofun
  obtain ⟨i, hi, hscan⟩ := mem_flatMap.mp (mem_of_mem_filter hmem)
  rw [scanned] at hscan
  cases hts : s.kvTs i with
  | none =>
    rw [hts] at hscan
    cases hscan
  | some ts =>
    rw [hts] at hscan
    obtain ⟨off, -, hpba, hstop⟩ := mem_scanChain hscan
    exact ⟨i, ts, off, hi, hts, hpba, hstop⟩

/-- Grains of a sector, of 64 bytes. -/
def sectored : Config :=
  .ofSizes 4 64 8 1 4 stamped.hash stamped.checksum16 (Eq.refl true)

/-- A value of 150 bytes, which is in three sectors. -/
def threeSectors : List UInt8 := List.replicate 150 7

/-- What is left of its put into segment 1 when the middle sector was not reached. -/
def crashed : Store sectored :=
  blank sectored (tornPut sectored 64 (· != 9) 1 1 0 [1] threeSectors fun _ => 0)
    fun j => if j = 1 then some ⟨.kv, 1⟩ else none

/-- Recovery maps the record, and its value is not the one of the put. -/
theorem crashed_torn : ∃ s',
    crashed.recover (List.range sectored.segNr) 0 (fun _ => []) = .ok s' ∧
      s'.get [1] = .ok (List.replicate 49 7 ++ List.replicate 64 0 ++ List.replicate 37 7) ∧
      s'.get [1] ≠ .ok threeSectors := by
  have h : ((crashed.recover (List.range sectored.segNr) 0 fun _ => []).toOption.map fun s' =>
      decide (s'.get [1] = .ok (List.replicate 49 7 ++ List.replicate 64 0 ++
        List.replicate 37 7) ∧ s'.get [1] ≠ .ok threeSectors)) = some true := by
    decide +kernel
  obtain ⟨s', hs', heq⟩ := Option.map_eq_some_iff.mp h
  exact ⟨s', ok_of_toOption hs', of_decide_eq_true heq⟩

theorem threeSectors_intact :
    KvOk [1] threeSectors ∧ ∀ old,
      Entered sectored (tornPut sectored 64 (· != 11) 1 1 0 [1] threeSectors old) 1 1 0 [1]
        threeSectors →
      Intact sectored (tornPut sectored 64 (· != 11) 1 1 0 [1] threeSectors old) 1 1 0 [1]
        threeSectors := by
  have hlen : threeSectors.length = 150 := length_replicate
  have hkv : KvOk [1] threeSectors := by
    refine ⟨by decide, by decide, ?_⟩
    rw [SizesFit, hlen]
    decide
  have hio : sectored.ioSizeGrains [1] threeSectors = 3 := by
    rw [ioSizeGrains, hlen]
    rfl
  refine ⟨hkv, (torn_intact_iff hkv (by rw [hio]; decide)).mpr ?_⟩
  intro a hlo hhi
  rw [hlen] at hhi
  have hlo' : 526 ≤ a := hlo
  have hhi' : a < 677 := hhi
  have hne : a / 64 ≠ 11 := by omega
  simpa using hne

end Store
end UDepot
