import UDepot.Grow
import Mathlib.Data.Finset.Prod

/-! How the hashes spread over the tables of a directory and the buckets of a table. The
index of the table is cut from the high end of the fingerprint and the bucket from its low
end; with more than 8 index bits the two overlap. -/

namespace UDepot.Directory
open UDepotMap

variable {bits n : Nat}

/-- The table and the bucket that a hash selects with `n` index bits. -/
def place (bits n h : Nat) : Nat × Nat := (hashToDirIdx bits h n, hashToHb bits h)

def places (bits n : Nat) : Finset (Nat × Nat) := (Finset.range (2 ^ 64)).image (place bits n)

theorem place_eq (bits n h : Nat) :
    place bits n h = (hashToKeyfp bits h / 2 ^ (8 + bits - n), hashToKeyfp bits h % 2 ^ bits) := by
  have hdvd : 2 ^ bits ∣ 2 ^ (8 + bits) := Nat.pow_dvd_pow 2 (by omega)
  rw [place, hashToDirIdx, hashToKeyfp, Nat.shiftRight_eq_div_pow, hashToHb_eq,
    Nat.and_two_pow_sub_one_eq_mod, Nat.mod_mod_of_dvd _ hdvd]

theorem keyfp_of_lt {fp : Nat} (h : fp < 2 ^ (8 + bits)) : hashToKeyfp bits fp = fp := by
  rw [hashToKeyfp, Nat.and_two_pow_sub_one_eq_mod, Nat.mod_eq_of_lt h]

theorem keyfp_lt (bits h : Nat) : hashToKeyfp bits h < 2 ^ (8 + bits) := by
  rw [hashToKeyfp, Nat.and_two_pow_sub_one_eq_mod]
  exact Nat.mod_lt _ (Nat.two_pow_pos _)

theorem places_eq (hb : bits + 8 < 64) :
    places bits n = (Finset.range (2 ^ (8 + bits))).image fun fp =>
      (fp / 2 ^ (8 + bits - n), fp % 2 ^ bits) := by
  ext x
  simp only [places, Finset.mem_image, Finset.mem_range]
  constructor
  · rintro ⟨h, -, rfl⟩
    exact ⟨hashToKeyfp bits h, keyfp_lt bits h, (place_eq bits n h).symm⟩
  · rintro ⟨fp, hfp, rfl⟩
    have hle : 2 ^ (8 + bits) ≤ 2 ^ 64 := Nat.pow_le_pow_right (by decide) (by omega)
    exact ⟨fp, by omega, by rw [place_eq, keyfp_of_lt hfp]⟩

theorem places_full (hb : bits + 8 < 64) (hn : n ≤ 8) :
    places bits n = Finset.range (2 ^ n) ×ˢ Finset.range (2 ^ bits) := by
  have hsplit : 2 ^ (8 + bits) = 2 ^ n * 2 ^ (8 + bits - n) := by
    rw [← Nat.pow_add, show n + (8 + bits - n) = 8 + bits by omega]
  rw [places_eq hb]
  ext ⟨i, b⟩
  simp only [Finset.mem_image, Finset.mem_range, Finset.mem_product, Prod.mk.injEq]
  constructor
  · rintro ⟨fp, hfp, rfl, rfl⟩
    refine ⟨?_, Nat.mod_lt _ (Nat.two_pow_pos _)⟩
    apply Nat.div_lt_of_lt_mul
    rwa [Nat.mul_comm, ← hsplit]
  · rintro ⟨hi, hb'⟩
    have hle : 2 ^ bits ≤ 2 ^ (8 + bits - n) := Nat.pow_le_pow_right (by decide) (by omega)
    have hdvd : 2 ^ bits ∣ i * 2 ^ (8 + bits - n) :=
      Dvd.dvd.mul_left (Nat.pow_dvd_pow 2 (by omega)) i
    refine ⟨i * 2 ^ (8 + bits - n) + b, ?_, ?_, ?_⟩
    · calc i * 2 ^ (8 + bits - n) + b < i * 2 ^ (8 + bits - n) + 2 ^ (8 + bits - n) := by omega
        _ = (i + 1) * 2 ^ (8 + bits - n) := by ring
        _ ≤ 2 ^ n * 2 ^ (8 + bits - n) := Nat.mul_le_mul_right _ hi
        _ = 2 ^ (8 + bits) := hsplit.symm
    · rw [Nat.add_comm, Nat.add_mul_div_right _ _ (Nat.two_pow_pos _),
        Nat.div_eq_of_lt (lt_of_lt_of_le hb' hle), Nat.zero_add]
    · rw [Nat.add_mod, Nat.mod_eq_zero_of_dvd hdvd, Nat.zero_add, Nat.mod_mod,
        Nat.mod_eq_of_lt hb']

theorem places_card_overlap (hb : bits + 8 < 64) (h8 : 8 ≤ n) (hn : n ≤ 8 + bits) :
    (places bits n).card = 2 ^ (8 + bits) := by
  rw [places_eq hb, Finset.card_image_of_injOn, Finset.card_range]
  intro fp _ fp' _ heq
  obtain ⟨hdiv, hmod⟩ := Prod.mk.inj heq
  have hdvd : 2 ^ (8 + bits - n) ∣ 2 ^ bits := Nat.pow_dvd_pow 2 (by omega)
  have hlow : fp % 2 ^ (8 + bits - n) = fp' % 2 ^ (8 + bits - n) := by
    rw [← Nat.mod_mod_of_dvd fp hdvd, ← Nat.mod_mod_of_dvd fp' hdvd, hmod]
  rw [← Nat.div_add_mod fp (2 ^ (8 + bits - n)), ← Nat.div_add_mod fp' (2 ^ (8 + bits - n)),
    hdiv, hlow]

theorem grow_idxBits {d d' : Directory bits} (h : d.grow = some d') : d'.idxBits = d.idxBits + 1 :=
  copyAll_idxBits h

/-- While the index assertion holds, the hashes select as many pairs of a table and a bucket
as there are exactly up to 8 index bits; and what a growth finds apart it keeps apart. -/
theorem places_card_iff (d : Directory bits) (hn : d.idxBits < 8 + bits) :
    ((places bits d.idxBits).card = 2 ^ d.idxBits * 2 ^ bits ↔ d.idxBits ≤ 8) ∧
      ∀ d', d.grow = some d' → ∀ h h', place bits d.idxBits h ≠ place bits d.idxBits h' →
        place bits d'.idxBits h ≠ place bits d'.idxBits h' := by
  have hb := (d.map 0).bits_lt
  refine ⟨⟨fun hcard => ?_, fun hle => ?_⟩, fun d' hg h h' hne heq => hne ?_⟩
  · by_contra hlt
    rw [places_card_overlap hb (by omega) hn.le, ← Nat.pow_add] at hcard
    have := Nat.pow_right_injective (le_refl 2) hcard
    omega
  · rw [places_full hb hle, Finset.card_product, Finset.card_range, Finset.card_range]
  · rw [grow_idxBits hg] at heq
    obtain ⟨hidx, hbucket⟩ := Prod.mk.inj heq
    rw [place, place, ← hashToDirIdx_half (by omega) h, ← hashToDirIdx_half (by omega) h', hidx,
      hbucket]

/-- Two tables of 4 buckets. -/
theorem two_tables_places : (places 2 1).card = 2 ^ 1 * 2 ^ 2 :=
  ((places_card_iff (Directory.mk 1 fun _ => init 2 (by decide)) (by decide)).1).mpr (by decide)

/-- With 9 index bits, which the assertion allows for tables of 4 buckets, no more pairs are
selected than with 8. -/
theorem overlap_places : 9 < 8 + 2 ∧ (places 2 9).card = 2 ^ 10 ∧ (places 2 8).card = 2 ^ 10 ∧
    (places 2 9).card ≠ 2 ^ 9 * 2 ^ 2 := by
  have h9 : (places 2 9).card = 2 ^ 10 := places_card_overlap (by decide) (by decide) (by decide)
  refine ⟨by decide, h9, places_card_overlap (by decide) (by decide) (by decide), ?_⟩
  rw [h9]
  decide

end UDepot.Directory
