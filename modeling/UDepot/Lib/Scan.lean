import Mathlib.Tactic

/-! Bounded linear search over the natural numbers: the first index of a
half-open interval at which a decidable predicate holds. Every `for` loop that
walks a window of slots and leaves at the first hit is this search. -/

namespace Scan

/-- The first `i` with `lo ≤ i < lo + n` and `p i`. -/
def findFrom (p : Nat → Bool) : Nat → Nat → Option Nat
  | 0, _ => none
  | n + 1, lo => if p lo then some lo else findFrom p n (lo + 1)

/-- What a hit of the search says: in range, a hit, and the first one. -/
structure FirstIn (p : Nat → Bool) (lo hi i : Nat) : Prop where
  ge : lo ≤ i
  lt : i < hi
  hit : p i = true
  first : ∀ j, lo ≤ j → j < i → p j = false

variable {p : Nat → Bool} {n lo : Nat}

theorem findFrom_eq_some {i : Nat} : findFrom p n lo = some i ↔ FirstIn p lo (lo + n) i := by
  induction n generalizing lo with
  | zero =>
    refine ⟨fun h => by simp [findFrom] at h, fun h => ?_⟩
    have := h.ge
    have := h.lt
    omega
  | succ n ih =>
    by_cases hp : p lo = true
    · simp only [findFrom, hp, ↓reduceIte, Option.some.injEq]
      constructor
      · rintro rfl
        exact ⟨le_refl _, by omega, hp, fun j h1 h2 => by omega⟩
      · intro h
        by_contra hne
        have := h.ge
        have hlo := h.first lo (le_refl _) (by omega)
        simp [hp] at hlo
    · simp only [findFrom, hp, Bool.false_eq_true, ↓reduceIte, ih]
      constructor
      · intro h
        have := h.ge
        have := h.lt
        refine ⟨by omega, by omega, h.hit, fun j h1 h2 => ?_⟩
        rcases Nat.eq_or_lt_of_le h1 with rfl | h1
        · simpa using hp
        · exact h.first j h1 h2
      · intro h
        have hne : i ≠ lo := by
          rintro rfl
          exact hp h.hit
        have := h.ge
        have := h.lt
        exact ⟨by omega, by omega, h.hit, fun j h1 h2 => h.first j (by omega) h2⟩

theorem findFrom_eq_none :
    findFrom p n lo = none ↔ ∀ i, lo ≤ i → i < lo + n → p i = false := by
  induction n generalizing lo with
  | zero => simp [findFrom]; omega
  | succ n ih =>
    by_cases hp : p lo = true
    · simp only [findFrom, hp, ↓reduceIte, reduceCtorEq, false_iff, not_forall]
      exact ⟨lo, le_refl _, by omega, by simp [hp]⟩
    · simp only [findFrom, hp, Bool.false_eq_true, ↓reduceIte, ih]
      constructor
      · intro h i h1 h2
        rcases Nat.eq_or_lt_of_le h1 with rfl | h1
        · simpa using hp
        · exact h i h1 (by omega)
      · exact fun h i h1 h2 => h i (by omega) (by omega)

theorem findFrom_isSome {i : Nat} (h1 : lo ≤ i) (h2 : i < lo + n) (hp : p i = true) :
    ∃ j, findFrom p n lo = some j ∧ j ≤ i := by
  cases hf : findFrom p n lo with
  | none => simp [findFrom_eq_none.mp hf i h1 h2] at hp
  | some j =>
    refine ⟨j, rfl, ?_⟩
    by_contra hlt
    simp [(findFrom_eq_some.mp hf).first i h1 (by omega)] at hp

theorem findFrom_congr {q : Nat → Bool} (h : ∀ i, lo ≤ i → i < lo + n → p i = q i) :
    findFrom p n lo = findFrom q n lo := by
  induction n generalizing lo with
  | zero => rfl
  | succ n ih =>
    simp only [findFrom]
    rw [h lo (le_refl _) (by omega), ih fun i h1 h2 => h i (by omega) (by omega)]

end Scan
