import UDepot.Lib.Walk
import UDepot.Recovery

/-! The three walks over the records of a segment, on any bytes: the scan of crash recovery
and the two variants of the garbage collector. Each takes sizes from the header it comes to,
checks them against an end, and goes on behind the record. -/

namespace UDepot

namespace Config
open Bytes

variable (c : Config)

def headerOf (bs : List UInt8) : StoreHeader :=
  ⟨leNat (bs.take 2), leNat ((bs.drop 2).take 4), leNat ((bs.drop 6).take 8)⟩

/-- The bytes of `gcu` after the read of `gc_callback_base` at `off` grains. The read is cut
at the end of the segment, and the rest of `gcu` is what the stack held there. -/
def gcuBytes (m : Nat → UInt8) (stack : Nat → Nat → UInt8) (i off : Nat) : List UInt8 :=
  let sizeb :=
    if off * c.grainSize + putKeyvalPrefixSize ≤ c.segSize * c.grainSize then putKeyvalPrefixSize
    else c.segSize * c.grainSize - off * c.grainSize
  read m ((i * c.segSize + off) * c.grainSize) sizeb ++
    read (stack off) sizeb (putKeyvalPrefixSize - sizeb)

def gcuMd (m : Nat → UInt8) (stack : Nat → Nat → UInt8) (i off : Nat) : StoreHeader :=
  headerOf (c.gcuBytes m stack i off)

/-- The loop of `gc_callback_base` ends in front of the record at `off`. -/
def baseStop (m : Nat → UInt8) (stack : Nat → Nat → UInt8) (i off : Nat) : Bool :=
  let md := c.gcuMd m stack i off
  !decide (off < c.segSize) || (md.keySize == 0 && md.valSize == 0) ||
    decide (c.segSize * c.grainSize < off * c.grainSize + md.valSize + md.keySize)

/-- The walks: the scan for segment timestamp `ts`, `gc_callback` and `gc_callback_base`.
`stack off` is the stack from `gcu` on, before the read at `off`. -/
inductive Walker where
  | scan (ts : Nat)
  | gc
  | gcBase (stack : Nat → Nat → UInt8)

namespace Walker

variable (w : Walker) (m : Nat → UInt8) (i : Nat)

def header (off : Nat) : StoreHeader :=
  match w with
  | .scan _ | .gc => c.readHeader m (i * c.segSize + off)
  | .gcBase stack => c.gcuMd m stack i off

def stop (off : Nat) : Bool :=
  match w with
  | .scan ts => c.scanStop m i ts off
  | .gc => c.gcStop m (i * c.segSize + off) off
  | .gcBase stack => c.baseStop m stack i off

def size (off : Nat) : Nat :=
  c.kvTotGrainsGet (w.header c m i off).keySize (w.header c m i off).valSize

/-- The offsets of what the walk over segment `i` takes for records. -/
def records (n : Nat) : List Nat := Walk.visits (w.stop c m i) (w.size c m i) n 0

end Walker

/-! ## The chains of the collector and of the recovery are these walks -/

/-! ## Sizes and bounds -/

/-- Header, key, value and checksum of the record at `off` lie in front of the metadata. -/
def Inside (off : Nat) (md : StoreHeader) : Prop :=
  off * c.grainSize + putKeyvalPrefixSize + md.keySize + md.valSize + putKeyvalSuffixSize ≤
    c.dataGrains * c.grainSize

instance (off : Nat) (md : StoreHeader) : Decidable (c.Inside off md) :=
  inferInstanceAs (Decidable (_ ≤ _))

/-- The grains that a record takes, without the width of the sum. -/
def exactGrains (md : StoreHeader) : Nat :=
  udivRoundUp (md.valSize + md.keySize + putKeyvalPrefixSize + putKeyvalSuffixSize) c.grainSize

/-- The `u32` sum of the sizes, in `kv_tot_grains_get` and `payload_size`, is their sum, and
the grains are those of the record. -/
structure Exact (md : StoreHeader) : Prop where
  sum : (md.valSize % 2 ^ 32 + md.keySize % 2 ^ 32) % 2 ^ 32 = md.valSize + md.keySize
  grains : c.kvTotGrainsGet md.keySize md.valSize = c.exactGrains md

theorem exact_iff (md : StoreHeader) : c.Exact md ↔ md.valSize + md.keySize < 2 ^ 32 := by
  constructor
  · intro h
    rw [← h.sum]
    exact Nat.mod_lt _ (by decide)
  · intro h
    have hsum : (md.valSize % 2 ^ 32 + md.keySize % 2 ^ 32) % 2 ^ 32 = md.valSize + md.keySize := by
      rw [← Nat.add_mod]
      exact Nat.mod_eq_of_lt h
    exact ⟨hsum, by rw [kvTotGrainsGet, hsum, exactGrains]⟩

namespace Walker

variable (w : Walker) (m : Nat → UInt8) (i : Nat)

/-- What the walk checks before it takes the bytes at `off` for a record. -/
def Accepts (off : Nat) : Prop :=
  let md := w.header c m i off
  match w with
  | .scan ts =>
    let p := (i * c.segSize + off) * c.grainSize
    off * c.grainSize < c.dataGrains * c.grainSize ∧
      off * c.grainSize + md.valSize + md.keySize ≤ c.dataGrains * c.grainSize ∧
      c.checksum16 ts (read m p putKeyvalPrefixSize) % 2 ^ 16 =
        leNat (read m (p + putKeyvalPrefixSize + md.keySize + md.valSize) putKeyvalSuffixSize)
  | .gc =>
    off * c.grainSize + putKeyvalPrefixSize < c.segSize * c.grainSize ∧
      ¬(md.keySize = 0 ∧ md.valSize = 0) ∧
      off * c.grainSize + md.valSize + md.keySize + putKeyvalPrefixSize ≤ c.segSize * c.grainSize
  | .gcBase _ =>
    off < c.segSize ∧ ¬(md.keySize = 0 ∧ md.valSize = 0) ∧
      off * c.grainSize + md.valSize + md.keySize ≤ c.segSize * c.grainSize

theorem accepts_iff (off : Nat) : w.Accepts c m i off ↔ w.stop c m i off = false := by
  cases w with
  | scan ts => simp [Accepts, stop, scanStop, header, and_assoc]
  | gc => simp [Accepts, stop, gcStop, header, and_assoc]
  | gcBase stack => simp [Accepts, stop, baseStop, header, and_assoc]

/-- The header at `off` announces a record that passes the checks and reaches into the
metadata: the scan leaves out the sizes of header and checksum, the collector looks at the
end of the segment. -/
def Gap (off : Nat) : Prop :=
  w.Accepts c m i off ∧ ¬c.Inside off (w.header c m i off)

/-- The walk as it is meant: by exact sizes, as long as records lie in front of the
metadata. -/
def intendedStop (off : Nat) : Bool :=
  w.stop c m i off || !decide (c.Inside off (w.header c m i off))

def intendedSize (off : Nat) : Nat := c.exactGrains (w.header c m i off)

def intended : List Nat := Walk.visits (w.intendedStop c m i) (w.intendedSize c m i) c.segSize 0

def intendedEnd : Nat := Walk.finish (w.intendedStop c m i) (w.intendedSize c m i) c.segSize 0

theorem bounded : Walk.Bounded (w.stop c m i) (w.size c m i) c.segSize := by
  refine ⟨fun x _ => kvTotGrainsGet_pos _ _, fun x hx => ?_⟩
  by_contra hn
  have ha := (w.accepts_iff c m i x).mpr (by simpa using hn)
  have hmul := Nat.mul_le_mul_right c.grainSize hx
  cases w with
  | scan ts =>
    have hd : c.dataGrains * c.grainSize ≤ c.segSize * c.grainSize :=
      Nat.mul_le_mul_right _ (Nat.sub_le _ _)
    have := ha.1
    omega
  | gc | gcBase stack =>
    have := ha.1
    omega

theorem intended_bounded :
    Walk.Bounded (w.intendedStop c m i) (w.intendedSize c m i) c.segSize := by
  refine ⟨fun x _ => udivRoundUp_pos c.grain_pos ?_, fun x hx => ?_⟩
  · unfold putKeyvalPrefixSize
    omega
  · rw [intendedStop, (w.bounded c m i).stops x hx, Bool.true_or]

theorem intendedStop_eq_false {off : Nat} :
    w.intendedStop c m i off = false ↔
      w.stop c m i off = false ∧ c.Inside off (w.header c m i off) := by
  simp [intendedStop]

/-- The intended walk ends at a gap, or where the walk of the code ends. -/
theorem not_gap_iff : ¬w.Gap c m i (w.intendedEnd c m i) ↔
    w.stop c m i (w.intendedEnd c m i) = true := by
  have hend : w.intendedStop c m i (w.intendedEnd c m i) = true :=
    (w.intended_bounded c m i).stop_finish (by omega)
  rw [Gap, accepts_iff]
  constructor
  · intro hn
    by_contra hs
    have hs := Bool.eq_false_iff.mpr hs
    have hin := Decidable.not_not.mp fun h => hn ⟨hs, h⟩
    rw [(w.intendedStop_eq_false c m i).mpr ⟨hs, hin⟩] at hend
    cases hend
  · rintro hs ⟨hn, _⟩
    rw [hs] at hn
    cases hn

/-- The walk over segment `i` ends, and what it takes for records are ranges in front of the
metadata, with exact sizes, unless it comes to a gap of its checks or to sizes whose sum is
no `u32`. -/
theorem walk_safe_iff :
    (∀ n, w.records c m i (c.segSize + n) = w.records c m i c.segSize) ∧
    ((∀ off ∈ w.records c m i c.segSize,
        c.Inside off (w.header c m i off) ∧ c.Exact (w.header c m i off)) ↔
      (∀ off ∈ w.intended c m i,
        (w.header c m i off).valSize + (w.header c m i off).keySize < 2 ^ 32) ∧
      ¬w.Gap c m i (w.intendedEnd c m i)) := by
  refine ⟨(w.bounded c m i).visits_add (by omega), ?_⟩
  -- the walk of the code against the stricter, intended one
  have hwithin : (∀ off ∈ w.records c m i c.segSize, w.intendedStop c m i off = false ∧
        c.Exact (w.header c m i off)) ↔
      (∀ off ∈ w.intended c m i, c.Exact (w.header c m i off)) ∧
        w.stop c m i (w.intendedEnd c m i) = true :=
    (w.bounded c m i).within_iff (fun y hy => by rw [intendedStop, hy, Bool.true_or])
      (fun y _ hy => hy.grains) (by omega)
  simp only [exact_iff] at hwithin ⊢
  rw [not_gap_iff, ← hwithin]
  apply forall₂_congr
  intro off hoff
  rw [intendedStop_eq_false]
  simp only [(Walk.mem_visits hoff).1, true_and]

/-- Segments of three grains of 32 bytes and one of metadata. -/
def threeGrains : Config :=
  .ofSizes 4 32 4 1 1 (fun _ => 0) (fun _ _ => 0) (Eq.refl true)

/-- A key of one byte and a value of 95: with header and checksum 112 bytes. -/
def longMedia (a : Nat) : UInt8 := if a = 0 then 1 else if a = 2 then 95 else 0

theorem wideSegs_sizes : sizesOk 4 (2 ^ 20) (2 ^ 13) 1 = true := by
  decide

/-- Segments of 8 GiB. -/
def wideSegs : Config :=
  .ofSizes 4 (2 ^ 20) (2 ^ 13) 1 1 (fun _ => 0) (fun _ _ => 0) wideSegs_sizes

/-- A key of one byte and a value of 4 GiB less one byte. -/
def hugeMedia (a : Nat) : UInt8 := if a = 0 then 1 else if 2 ≤ a ∧ a < 6 then 255 else 0

/-- Each walk takes the 112 bytes for a record of the 96 in front of the metadata; and the
sum of the sizes of the huge record is zero as a `u32`, for one grain. -/
theorem walks_leave_data :
    (∀ w ∈ [Walker.scan 0, .gc, .gcBase fun _ _ => 0],
      0 ∈ w.records threeGrains longMedia 0 threeGrains.segSize ∧
        ¬threeGrains.Inside 0 (w.header threeGrains longMedia 0 0)) ∧
    0 ∈ Walker.gc.records wideSegs hugeMedia 0 wideSegs.segSize ∧
      ¬wideSegs.Exact (Walker.gc.header wideSegs hugeMedia 0 0) ∧
      Walker.gc.size wideSegs hugeMedia 0 0 = 1 := by
  refine ⟨?_, ?_, ?_, by decide +kernel⟩
  · decide +kernel
  · have hs : Walker.gc.stop wideSegs hugeMedia 0 0 = false := by decide +kernel
    change 0 ∈ Walk.visits _ _ (8191 + 1) 0
    rw [Walk.visits_succ hs]
    exact List.mem_cons_self
  · rw [exact_iff]
    decide +kernel

end Walker

end Config
end UDepot
