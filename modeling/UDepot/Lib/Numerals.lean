import Mathlib.Tactic
import Mathlib.Data.Nat.Digits.Lemmas

/-! Decimal numerals as byte strings. -/

namespace Numerals
open List

def ascii (s : String) : List UInt8 := s.toList.map Char.toUInt8

def isDigit (b : UInt8) : Bool := 48 ≤ b && b ≤ 57

def value (ds : List UInt8) : Nat := ds.foldl (fun acc d => 10 * acc + (d.toNat - 48)) 0

def dec (n : Nat) : List UInt8 :=
  if n = 0 then [48] else ((Nat.digits 10 n).map fun d => UInt8.ofNat (48 + d)).reverse

theorem toNat_digit {d : Nat} (h : d < 10) : (UInt8.ofNat (48 + d)).toNat = 48 + d := by
  rw [UInt8.toNat_ofNat']
  omega

theorem dec_ne_nil (n : Nat) : dec n ≠ [] := by
  unfold dec
  split
  · simp
  · rename_i h
    rw [ne_eq, reverse_eq_nil_iff, map_eq_nil_iff]
    exact Nat.digits_ne_nil_iff_ne_zero.mpr h

variable {n : Nat}

theorem isDigit_of_mem_dec {b : UInt8} (h : b ∈ dec n) : isDigit b = true := by
  unfold dec at h
  split at h
  · rw [mem_singleton.mp h]
    decide
  · rw [mem_reverse, mem_map] at h
    obtain ⟨d, hd, rfl⟩ := h
    have hlt := Nat.digits_lt_base (by decide) hd
    have := toNat_digit hlt
    simp only [isDigit, Bool.and_eq_true, decide_eq_true_eq, UInt8.le_iff_toNat_le]
    rw [this]
    simp only [UInt8.reduceToNat]
    omega

/-- Reading digits from the left is evaluating the reversed list. -/
theorem foldl_digits (ds : List Nat) (h : ∀ d ∈ ds, d < 10) :
    ((ds.map fun d => UInt8.ofNat (48 + d)).reverse).foldl
      (fun acc d => 10 * acc + (d.toNat - 48)) 0 = Nat.ofDigits 10 ds := by
  induction ds with
  | nil => rfl
  | cons d ds ih =>
    have hd := toNat_digit (h d (by simp))
    rw [map_cons, reverse_cons, foldl_append, ih fun x hx => h x (by simp [hx])]
    simp only [foldl_cons, foldl_nil, hd, Nat.ofDigits_cons]
    omega

theorem value_dec (n : Nat) : value (dec n) = n := by
  unfold value dec
  split
  · rename_i h
    rw [h]
    rfl
  · rw [foldl_digits _ fun d hd => Nat.digits_lt_base (by decide) hd, Nat.ofDigits_digits]

theorem dec_length_le_iff {k : Nat} (hk : 0 < k) : (dec n).length ≤ k ↔ n < 10 ^ k := by
  unfold dec
  split
  · rename_i h
    exact iff_of_true hk (by rw [h]; exact Nat.pow_pos (by decide))
  · rw [length_reverse, length_map]
    exact Nat.digits_length_le_iff (by decide) n

theorem dec_length_le {k : Nat} (hk : 0 < k) (h : n < 10 ^ k) : (dec n).length ≤ k :=
  (dec_length_le_iff hk).mpr h

end Numerals
