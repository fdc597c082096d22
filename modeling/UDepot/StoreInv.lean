import UDepot.Store
import UDepot.ShiftLive

/-! The invariant of the store: the directory is sound and every entry sits where
the hash of the key of its record selects, the records of the entries lie in the
part of their segment that was handed out, and no two live entries have one key.
A write goes to grains that were not handed out before, so it changes none of
these records. -/

namespace UDepot.Store
open Bytes UDepotMap Directory Config

variable {c : Config}

def keyHash (s : Store c) (pba : Nat) : Nat := c.hash (c.recKey s.media pba)

/-- The grains of segment `i` that were handed out, as addresses. -/
def handedOut (s : Store c) (i : Nat) : Nat := i * c.segSize + (s.seg i).nr3 - c.segMdSize

structure RecAt (s : Store c) (e : Content) : Prop where
  fit : SizesFit (c.readHeader s.media e.pba).keySize (c.readHeader s.media e.pba).valSize
  key_pos : 0 < (c.readHeader s.media e.pba).keySize
  reach : e.deleted = false →
    putKeyvalPrefixSize + (c.readHeader s.media e.pba).keySize ≤ e.kvSize * c.grainSize
  used : (s.seg (c.grainToSegIdx e.pba)).state ≠ .free
  extent : e.pba + c.recGrains s.media e.pba ≤ s.handedOut (c.grainToSegIdx e.pba)

structure SegOk (s : Store c) (i : Nat) : Prop where
  lt : i < c.segNr
  md_le : c.segMdSize ≤ (s.seg i).nr3
  le_size : (s.seg i).nr3 ≤ c.segSize

/-- The invariant but for gaps: `put` shifts entries before it fills the slot
that the shift has freed. -/
structure Base (s : Store c) : Prop where
  bits_le : c.bits ≤ 32
  width : s.dir.idxBits ≤ 8 + c.bits
  wf : ∀ i, i < 2 ^ s.dir.idxBits → (s.dir.map i).Wf
  placed : s.dir.Placed s.keyHash
  recs : ∀ e ∈ s.dir.entries, s.RecAt e
  keys : (s.dir.liveEntries.map fun e => c.recKey s.media e.pba).Nodup
  segs : ∀ i, (s.seg i).state ≠ .free → s.SegOk i

structure Inv (s : Store c) : Prop extends Base s where
  noGap : ∀ i, i < 2 ^ s.dir.idxBits → (s.dir.map i).NoGap

/-! ## Allocation -/

variable {s : Store c} {i len : Nat}

theorem allocateGrains_eq_some {s' : Store c} {g : Nat}
    (h : s.allocateGrains i len = some (g, s')) :
    (s.seg i).state = .staged ∧ (s.seg i).nr3 + len ≤ c.segSize ∧ g = s.handedOut i ∧
      s'.dir = s.dir ∧ s'.media = s.media ∧ s'.segTs = s.segTs ∧
      (∀ j, j ≠ i → s'.seg j = s.seg j) ∧ (s'.seg i).nr3 = (s.seg i).nr3 + len ∧
      (s'.seg i).state ≠ .free := by
  unfold allocateGrains at h
  dsimp only at h
  split at h
  · rename_i hc
    cases h
    refine ⟨hc.1, hc.2.2, rfl, rfl, rfl, rfl, fun j hj => ?_, ?_, ?_⟩
    · simp [setSeg, hj]
    · simp [setSeg]
    · simp only [setSeg, Function.update_self]
      split <;> simp
  · cases h

theorem allocateGrains_segs {s1 : Store c} {g : Nat}
    (hsegs : ∀ j, (s.seg j).state ≠ .free → s.SegOk j) (h : s.allocateGrains i len = some (g, s1))
    (j : Nat) (hj : (s1.seg j).state ≠ .free) : s1.SegOk j := by
  obtain ⟨hst, hle, _, _, _, _, hother, hnr, _⟩ := allocateGrains_eq_some h
  by_cases hji : j = i
  · subst hji
    have hs := hsegs j (by rw [hst]; simp)
    refine ⟨hs.lt, ?_, ?_⟩
    · rw [hnr]
      exact hs.md_le.trans (Nat.le_add_right _ _)
    · rw [hnr]
      exact hle
  · rw [hother j hji] at hj
    have hs := hsegs j hj
    refine ⟨hs.lt, ?_, ?_⟩
    · rw [hother j hji]
      exact hs.md_le
    · rw [hother j hji]
      exact hs.le_size

theorem allocated_in_seg (h : s.SegOk i) (hlen : 0 < len) (hle : (s.seg i).nr3 + len ≤ c.segSize) :
    c.grainToSegIdx (s.handedOut i) = i ∧ s.handedOut i + len ≤ (i + 1) * c.segSize := by
  have hmd := h.md_le
  have hpos := c.md_pos
  have hmul : (i + 1) * c.segSize = i * c.segSize + c.segSize := by ring
  constructor
  · apply Nat.div_eq_of_lt_le
    · unfold handedOut
      omega
    · unfold handedOut
      omega
  · unfold handedOut
    omega

/-- A record that was handed out before ends where the segment's new grains
start, or lies in another segment. -/
theorem extent_disjoint {pba n : Nat} (hi : s.SegOk i) (hle : (s.seg i).nr3 + len ≤ c.segSize)
    (hj : s.SegOk (c.grainToSegIdx pba)) (he : pba + n ≤ s.handedOut (c.grainToSegIdx pba)) :
    pba + n ≤ s.handedOut i ∨ s.handedOut i + len ≤ pba := by
  rcases Nat.lt_trichotomy (c.grainToSegIdx pba) i with hlt | heq | hgt
  · left
    have hmul := Nat.mul_le_mul_right c.segSize (Nat.succ_le_of_lt hlt)
    have hs : (c.grainToSegIdx pba).succ * c.segSize =
        c.grainToSegIdx pba * c.segSize + c.segSize := Nat.succ_mul _ _
    have h1 := hj.le_size
    have h2 := hi.md_le
    unfold handedOut at he ⊢
    omega
  · left
    rwa [heq] at he
  · right
    have hmul := Nat.mul_le_mul_right c.segSize (Nat.succ_le_of_lt hgt)
    have hs : i.succ * c.segSize = i * c.segSize + c.segSize := Nat.succ_mul _ _
    have hdiv : c.grainToSegIdx pba * c.segSize ≤ pba := Nat.div_mul_le_self _ _
    unfold handedOut
    omega

/-! ## Writes -/

theorem write_rec_frame {bs : List UInt8} {e : Content} (hi : s.SegOk i)
    (hle : (s.seg i).nr3 + len ≤ c.segSize) (hbs : bs.length ≤ len * c.grainSize)
    (hj : s.SegOk (c.grainToSegIdx e.pba)) (he : s.RecAt e) :
    c.readHeader (write s.media (s.handedOut i * c.grainSize) bs) e.pba =
        c.readHeader s.media e.pba ∧
      c.recKey (write s.media (s.handedOut i * c.grainSize) bs) e.pba = c.recKey s.media e.pba ∧
      c.recVal (write s.media (s.handedOut i * c.grainSize) bs) e.pba = c.recVal s.media e.pba := by
  refine rec_frame he.fit fun a h1 h2 => write_outside _ _ ?_
  rcases extent_disjoint hi hle hj he.extent with h | h
  · left
    have := Nat.mul_le_mul_right c.grainSize h
    omega
  · right
    have := Nat.mul_le_mul_right c.grainSize h
    rw [Nat.add_mul] at this
    omega

end UDepot.Store
