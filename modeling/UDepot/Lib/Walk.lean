import Mathlib.Tactic

/-! Walks over positions: from each one the size found there leads to the next, until one
where the walk stops. -/

namespace Walk
open List

variable {stop stop' : Nat → Bool} {size size' : Nat → Nat} {limit n x y : Nat}

/-- The positions that a walk from `x` comes to and does not stop at, in `n` rounds. -/
def visits (stop : Nat → Bool) (size : Nat → Nat) : Nat → Nat → List Nat
  | 0, _ => []
  | n + 1, x => if stop x then [] else x :: visits stop size n (x + size x)

def finish (stop : Nat → Bool) (size : Nat → Nat) : Nat → Nat → Nat
  | 0, x => x
  | n + 1, x => if stop x then x else finish stop size n (x + size x)

structure Bounded (stop : Nat → Bool) (size : Nat → Nat) (limit : Nat) : Prop where
  pos : ∀ x, stop x = false → 0 < size x
  stops : ∀ x, limit ≤ x → stop x = true

theorem visits_of_stop (h : stop x = true) : visits stop size n x = [] := by
  cases n with
  | zero => rfl
  | succ n => rw [visits, if_pos h]

theorem visits_succ (h : stop x = false) :
    visits stop size (n + 1) x = x :: visits stop size n (x + size x) := by
  rw [visits, if_neg (by simp [h])]

theorem finish_of_stop (h : stop x = true) : finish stop size n x = x := by
  cases n with
  | zero => rfl
  | succ n => rw [finish, if_pos h]

theorem finish_succ (h : stop x = false) :
    finish stop size (n + 1) x = finish stop size n (x + size x) := by
  rw [finish, if_neg (by simp [h])]

theorem mem_visits (h : y ∈ visits stop size n x) : stop y = false ∧ x ≤ y := by
  induction n generalizing x with
  | zero => cases h
  | succ n ih =>
    rw [visits] at h
    split at h
    · cases h
    · rename_i hs
      rcases mem_cons.mp h with rfl | h
      · exact ⟨by simpa using hs, Nat.le_refl _⟩
      · exact ⟨(ih h).1, by have := (ih h).2; omega⟩

theorem Bounded.visits_add (b : Bounded stop size limit) (h : limit ≤ x + n) (k : Nat) :
    visits stop size (n + k) x = visits stop size n x := by
  induction n generalizing x with
  | zero =>
    cases k with
    | zero => rfl
    | succ k =>
      have hs := b.stops x (by omega)
      rw [visits_of_stop hs, visits_of_stop hs]
  | succ n ih =>
    rw [Nat.succ_add]
    cases hs : stop x with
    | true => rw [visits_of_stop hs, visits_of_stop hs]
    | false =>
      have := b.pos x hs
      rw [visits_succ hs, visits_succ hs, ih (by omega)]

theorem Bounded.stop_finish (b : Bounded stop size limit) (h : limit ≤ x + n) :
    stop (finish stop size n x) = true := by
  induction n generalizing x with
  | zero => exact b.stops x (by omega)
  | succ n ih =>
    cases hs : stop x with
    | true => rwa [finish_of_stop hs]
    | false =>
      have := b.pos x hs
      rw [finish_succ hs]
      exact ih (by omega)

/-! ## A walk and a stricter one -/

section Stricter

variable {P : Nat → Prop} (hst : ∀ y, stop y = true → stop' y = true)

include hst

/-- The walk keeps to the stricter one and to `P` exactly when `P` holds along the stricter
one and the walk stops where that one ends. -/
theorem Bounded.within_iff (b : Bounded stop size limit)
    (hsz : ∀ y, stop' y = false → P y → size y = size' y) (h : limit ≤ x + n) :
    (∀ y ∈ visits stop size n x, stop' y = false ∧ P y) ↔
      (∀ y ∈ visits stop' size' n x, P y) ∧ stop (finish stop' size' n x) = true := by
  induction n generalizing x with
  | zero => simp [visits, finish, b.stops x (by omega)]
  | succ n ih =>
    cases hs : stop x with
    | true =>
      have hs' := hst x hs
      simp [visits_of_stop hs, visits_of_stop hs', finish_of_stop hs', hs]
    | false =>
      cases hs' : stop' x with
      | true => simp [visits_succ hs, finish_of_stop hs', hs, hs']
      | false =>
        have := b.pos x hs
        rw [visits_succ hs, visits_succ hs', finish_succ hs', forall_mem_cons,
          forall_mem_cons]
        constructor
        · rintro ⟨⟨_, hp⟩, hrest⟩
          rw [hsz x hs' hp] at hrest this
          obtain ⟨hall, hend⟩ := (ih (by omega)).mp hrest
          exact ⟨⟨hp, hall⟩, hend⟩
        · rintro ⟨⟨hp, hall⟩, hend⟩
          rw [← hsz x hs' hp] at hall hend
          exact ⟨⟨hs', hp⟩, (ih (by omega)).mpr ⟨hall, hend⟩⟩

/-- A walk that keeps to the stricter one is that one. -/
theorem visits_eq_of_within (hsz : ∀ y, stop' y = false → size y = size' y)
    (h : ∀ y ∈ visits stop size n x, stop' y = false) :
    visits stop size n x = visits stop' size' n x := by
  induction n generalizing x with
  | zero => rfl
  | succ n ih =>
    cases hs : stop x with
    | true => rw [visits_of_stop hs, visits_of_stop (hst x hs)]
    | false =>
      rw [visits_succ hs] at h ⊢
      obtain ⟨hs', hrest⟩ := forall_mem_cons.mp h
      rw [visits_succ hs', ← hsz x hs', ih hrest]

end Stricter

end Walk
