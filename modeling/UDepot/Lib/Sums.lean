import Mathlib.Algebra.BigOperators.Group.Finset.Basic
import Mathlib.Tactic.Abel

/-! Finite sums that differ in one term. -/

namespace Sums

variable {α M : Type} [DecidableEq α] [AddCommMonoid M]

theorem sum_exchange {s : Finset α} {f g : α → M} {a : α} (ha : a ∈ s)
    (h : ∀ x ∈ s, x ≠ a → g x = f x) : ∑ x ∈ s, g x + f a = ∑ x ∈ s, f x + g a := by
  have hrest : ∑ x ∈ s.erase a, g x = ∑ x ∈ s.erase a, f x :=
    Finset.sum_congr rfl fun x hx => h x (Finset.mem_of_mem_erase hx) (Finset.ne_of_mem_erase hx)
  rw [← Finset.add_sum_erase s g ha, ← Finset.add_sum_erase s f ha, hrest]
  abel

end Sums
