import Mathlib.Tactic
import Mathlib.Algebra.BigOperators.Group.List.Basic

/-! Boxes of given sizes filled one after another: the room left in the box that
the filling ends in, and the room in the boxes behind it. -/

namespace Boxes
open List

/-- The room left in the box in which the first `n` units end. -/
def room : List Nat → Nat → Nat
  | [], _ => 0
  | l :: ls, n => if n ≤ l then l - n else room ls (n - l)

/-- The room in the boxes behind that box. -/
def behind : List Nat → Nat → Nat
  | [], _ => 0
  | l :: ls, n => if n ≤ l then ls.sum else behind ls (n - l)

/-- Some box ends at `p`. -/
def Ends (ls : List Nat) (p : Nat) : Prop := ∃ i, 0 < i ∧ i ≤ ls.length ∧ (ls.take i).sum = p

theorem not_ends_nil (p : Nat) : ¬ Ends [] p := by
  rintro ⟨i, hi, hle, -⟩
  simp only [length_nil] at hle
  omega

variable {ls : List Nat} {n : Nat}

theorem ends_cons {l p : Nat} : Ends (l :: ls) p ↔ p = l ∨ l ≤ p ∧ Ends ls (p - l) := by
  constructor
  · rintro ⟨i, hi, hle, hs⟩
    obtain ⟨i, rfl⟩ := Nat.exists_eq_succ_of_ne_zero hi.ne'
    simp only [take_succ_cons, sum_cons] at hs
    rcases Nat.eq_zero_or_pos i with rfl | hpos
    · left
      simpa using hs.symm
    · right
      simp only [length_cons] at hle
      exact ⟨by omega, i, hpos, by omega, by omega⟩
  · rintro (rfl | ⟨hle, i, hi, hi', hs⟩)
    · exact ⟨1, by omega, by simp, by simp⟩
    · refine ⟨i + 1, by omega, by simp only [length_cons]; omega, ?_⟩
      simp only [take_succ_cons, sum_cons]
      omega

theorem room_add_behind {ls : List Nat} {n : Nat} (h : n ≤ ls.sum) :
    n + room ls n + behind ls n = ls.sum := by
  induction ls generalizing n with
  | nil => simpa [room, behind] using h
  | cons l ls ih =>
    simp only [sum_cons] at h ⊢
    by_cases hl : n ≤ l
    · simp only [room, behind, if_pos hl]
      omega
    · simp only [room, behind, if_neg hl]
      have := @ih (n - l) (by omega)
      omega

theorem behind_add {m : Nat} (h : m ≤ room ls n) : behind ls (n + m) = behind ls n := by
  induction ls generalizing n with
  | nil => rfl
  | cons l ls ih =>
    by_cases hl : n ≤ l
    · rw [room, if_pos hl] at h
      rw [behind, behind, if_pos hl, if_pos (by omega)]
    · rw [room, if_neg hl] at h
      rw [behind, behind, if_neg hl, if_neg (by omega), show n + m - l = n - l + m by omega, ih h]

theorem room_append {init : List Nat} (h : init.sum < n) :
    room (init ++ ls) n = room ls (n - init.sum) := by
  induction init generalizing n with
  | nil => simp
  | cons l init ih =>
    simp only [sum_cons] at h ⊢
    rw [cons_append, room, if_neg (by omega), ih (by omega), Nat.sub_sub]

/-- The filling ends in the last of the boxes it reaches. -/
theorem room_concat {init rest : List Nat} {l : Nat} (h : init.sum < n) (hn : n ≤ init.sum + l) :
    room (init ++ l :: rest) n = init.sum + l - n := by
  rw [room_append h, room, if_pos (by omega)]
  omega

/-- Less than two units fit behind the first `n` exactly if a box ends there or
one unit later. -/
theorem room_lt_two_iff {ls : List Nat} {n : Nat} (h0 : 0 < n) (h : n ≤ ls.sum) :
    room ls n < 2 ↔ Ends ls n ∨ Ends ls (n + 1) := by
  induction ls generalizing n with
  | nil =>
    simp only [sum_nil] at h
    omega
  | cons l ls ih =>
    simp only [sum_cons] at h
    rw [ends_cons, ends_cons]
    by_cases hl : n ≤ l
    · rw [room, if_pos hl]
      constructor
      · intro hlt
        rcases Nat.lt_or_ge n l with hlt' | hge
        · exact Or.inr (Or.inl (by omega))
        · exact Or.inl (Or.inl (by omega))
      · rintro ((rfl | ⟨hle, -⟩) | (rfl | ⟨hle, -⟩)) <;> omega
    · rw [room, if_neg hl, @ih (n - l) (by omega) (by omega),
        show n + 1 - l = n - l + 1 by omega]
      constructor
      · rintro (he | he)
        · exact Or.inl (Or.inr ⟨by omega, he⟩)
        · exact Or.inr (Or.inr ⟨by omega, he⟩)
      · rintro ((rfl | ⟨-, he⟩) | (rfl | ⟨-, he⟩))
        · omega
        · exact Or.inl he
        · omega
        · exact Or.inr he

end Boxes
