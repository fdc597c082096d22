import UDepot.SpdkArray

/-! The size that the SPDK array reports, against the places that its two divisions give: the
smallest device counts for all of them, whole blocks or not, and the stripes are of whole blocks. -/

namespace UDepot.SpdkArray

/-- `min_size` at the end of the loop of `get_size`, from the last queue pair to the first. -/
def minSize (sizes : List Nat) : Nat := sizes.foldr min (2 ^ 64 - 1)

def getSize (sizes : List Nat) : Nat := minSize sizes * sizes.length % 2 ^ 64

/-- The byte offsets below the size that an `off_t` holds. -/
def Valid (sizes : List Nat) (x : Nat) : Prop := x < getSize sizes ∧ x < 2 ^ 63

/-- Every logical offset has a device and an offset below its size, and no two share them. -/
structure Striped (sizes : List Nat) : Prop where
  inRange : ∀ x, Valid sizes x →
    ∃ size, sizes[offsetToQpair sizes.length x]? = some size ∧ devOffset sizes.length x < size
  injective : ∀ x y, Valid sizes x → Valid sizes y →
    offsetToQpair sizes.length x = offsetToQpair sizes.length y →
      devOffset sizes.length x = devOffset sizes.length y → x = y

/-! ## What the stripes put on a device -/

/-- The bytes of device `j` under the first `limit` logical ones: the whole stripes, and its part
of the last one. -/
def share (n limit j : Nat) : Nat := limit / (blk * n) * blk + min blk (limit % (blk * n) - j * blk)

theorem digits_lt_iff {b c r q t : Nat} (hr : r < b) (ht : t ≤ b) :
    c * b + r < q * b + t ↔ c < q ∨ c = q ∧ r < t := by
  rcases Nat.lt_trichotomy c q with hlt | rfl | hgt
  · have hle : (c + 1) * b ≤ q * b := Nat.mul_le_mul_right b hlt
    rw [Nat.succ_mul] at hle
    exact iff_of_true (by omega) (.inl hlt)
  · omega
  · have hle : (q + 1) * b ≤ c * b := Nat.mul_le_mul_right b hgt
    rw [Nat.succ_mul] at hle
    exact iff_of_false (by omega) (by omega)

theorem logicalOffset_lt_iff {n limit j : Nat} (hj : j < n) (a : Nat) :
    logicalOffset n j a < limit ↔ a < share n limit j := by
  have hmod := mod_blk_lt a
  -- the place inside of the stripe
  have hin : j * blk + a % blk < blk * n := by
    have hle : (j + 1) * blk ≤ n * blk := Nat.mul_le_mul_right blk hj
    rw [Nat.succ_mul, Nat.mul_comm n] at hle
    omega
  have hlt : limit % (blk * n) < blk * n := Nat.mod_lt _ (Nat.zero_lt_of_lt hin)
  have hlog : logicalOffset n j a = a / blk * (blk * n) + (j * blk + a % blk) := by
    rw [logicalOffset, Nat.add_mul, Nat.mul_assoc, Nat.mul_comm n blk, Nat.add_assoc]
  calc logicalOffset n j a < limit
      ↔ a / blk * (blk * n) + (j * blk + a % blk) <
          limit / (blk * n) * (blk * n) + limit % (blk * n) := by
        rw [hlog, Nat.div_add_mod']
    _ ↔ a / blk < limit / (blk * n) ∨
          a / blk = limit / (blk * n) ∧ j * blk + a % blk < limit % (blk * n) :=
        digits_lt_iff hin hlt.le
    _ ↔ a / blk < limit / (blk * n) ∨
          a / blk = limit / (blk * n) ∧ a % blk < min blk (limit % (blk * n) - j * blk) := by
        omega
    _ ↔ a / blk * blk + a % blk < share n limit j :=
        (digits_lt_iff hmod (Nat.min_le_left _ _)).symm
    _ ↔ a < share n limit j := by rw [Nat.div_add_mod']

theorem share_le (n limit j : Nat) (hj : j < n) {size : Nat}
    (h : ∀ a, logicalOffset n j a < limit → a < size) : share n limit j ≤ size := by
  by_contra hlt
  exact absurd (h size ((logicalOffset_lt_iff hj size).mpr (Nat.not_le.mp hlt))) (Nat.lt_irrefl _)

def Holds (sizes : List Nat) : Prop :=
  ∀ j size, sizes[j]? = some size →
    share sizes.length (min (minSize sizes * sizes.length % 2 ^ 64) (2 ^ 63)) j ≤ size

theorem valid_iff (sizes : List Nat) (x : Nat) :
    Valid sizes x ↔ x < min (getSize sizes) (2 ^ 63) := Nat.lt_min.symm

variable {sizes : List Nat}

theorem Holds.striped (h : Holds sizes) : Striped sizes := by
  refine ⟨fun x hx => ?_, fun x y _ _ hqp hoff => ?_⟩
  · have hn : 0 < sizes.length := by
      refine Nat.pos_of_ne_zero fun h0 => ?_
      have hlt := hx.1
      rw [getSize, h0, Nat.mul_zero] at hlt
      exact absurd hlt (Nat.not_lt_zero _)
    have hqp : offsetToQpair sizes.length x < sizes.length := Nat.mod_lt _ hn
    refine ⟨_, List.getElem?_eq_getElem hqp, ?_⟩
    refine Nat.lt_of_lt_of_le ?_ (h _ _ (List.getElem?_eq_getElem hqp))
    rw [← logicalOffset_lt_iff hqp, logicalOffset_place]
    exact (valid_iff sizes x).mp hx
  · rw [← logicalOffset_place (n := sizes.length) x, hqp, hoff, logicalOffset_place]

/-! ## Sizes of whole blocks -/

theorem minSize_le {j size : Nat} (h : sizes[j]? = some size) : minSize sizes ≤ size := by
  induction sizes generalizing j with
  | nil => cases h
  | cons a sizes ih =>
    cases j with
    | zero =>
      cases h
      exact Nat.min_le_left _ _
    | succ j => exact (Nat.min_le_right _ _).trans (ih h)

/-- Devices of whole blocks hold what the array reports, as far as an `off_t` reaches. -/
theorem striped_of_blocks (hblk : blk ∣ minSize sizes)
    (hsize : minSize sizes * sizes.length ≤ 2 ^ 63) : Striped sizes := by
  refine Holds.striped fun j size hj => ?_
  have hn : 0 < sizes.length := Nat.zero_lt_of_lt (List.getElem?_eq_some_iff.mp hj).1
  have hpos : 0 < blk * sizes.length := Nat.mul_pos (by decide) hn
  obtain ⟨q, hq⟩ := hblk
  have hlimit : min (minSize sizes * sizes.length % 2 ^ 64) (2 ^ 63) =
      q * (blk * sizes.length) := by
    rw [Nat.mod_eq_of_lt (by omega), Nat.min_eq_left hsize, hq, Nat.mul_comm blk q, Nat.mul_assoc]
  rw [hlimit, share, Nat.mul_div_cancel q hpos, Nat.mul_mod_left, Nat.zero_sub, Nat.min_zero,
    Nat.add_zero, Nat.mul_comm, ← hq]
  exact minSize_le hj

/-! ## Exactly then -/

/-- The logical offsets are in the range of their devices, each in a place of its own, exactly when
every device holds its share: the whole stripes of the reported size and its part of the last. -/
theorem striped_iff_holds (sizes : List Nat) : Striped sizes ↔ Holds sizes := by
  refine ⟨fun h j size hsize => ?_, Holds.striped⟩
  have hj : j < sizes.length := (List.getElem?_eq_some_iff.mp hsize).1
  refine share_le _ _ j hj fun a ha => ?_
  obtain ⟨hqp, hoff⟩ := place_logicalOffset hj a
  obtain ⟨size', hsize', hlt⟩ := h.inRange _ ((valid_iff sizes _).mpr ha)
  rw [hqp, hsize] at hsize'
  rw [hoff] at hlt
  cases hsize'
  exact hlt

/-- Two devices of 17 sectors: a byte of the last sector of the array is behind the end of the first
device. -/
theorem seventeen_sectors_out_of_range :
    Valid [8704, 8704] 16896 ∧ offsetToQpair 2 16896 = 0 ∧ devOffset 2 16896 = 8704 ∧
      ¬ Striped [8704, 8704] := by
  refine ⟨⟨by decide, by decide⟩, by decide, by decide, fun h => ?_⟩
  obtain ⟨size, hsize, hlt⟩ := h.inRange 16896 ⟨by decide, by decide⟩
  cases hsize
  exact absurd hlt (by decide)

end UDepot.SpdkArray
