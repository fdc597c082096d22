import Mathlib.Algebra.Order.BigOperators.Group.Multiset
import Mathlib.Algebra.BigOperators.Group.Finset.Piecewise
import Mathlib.Tactic.Abel

/-! A ledger is a multiset of charges, each an amount booked to an account. A step
moves charges between what a state owns and what is in flight; `Moves` records what
it loses on the way, and that it loses nothing under a condition. -/

namespace Ledger
open Multiset

/-! ## Charges -/

section Charges

variable {α β : Type*} [DecidableEq β]

def chargeAt (cls : α → β) (Q : Multiset (α × Nat)) (i : β) : Nat :=
  ((Q.filter fun x => cls x.1 = i).map Prod.snd).sum

def total (Q : Multiset (α × Nat)) : Nat := (Q.map Prod.snd).sum

variable {cls : α → β}

@[simp] theorem chargeAt_zero (i : β) : chargeAt cls 0 i = 0 := rfl

@[simp] theorem chargeAt_add (Q R : Multiset (α × Nat)) (i : β) :
    chargeAt cls (Q + R) i = chargeAt cls Q i + chargeAt cls R i := by
  simp [chargeAt]

theorem chargeAt_singleton (a : α) (n : Nat) (i : β) :
    chargeAt cls {(a, n)} i = if cls a = i then n else 0 := by
  by_cases h : cls a = i <;> simp [chargeAt, filter_singleton, h]

theorem chargeAt_eq_zero {Q : Multiset (α × Nat)} {i : β} (h : ∀ x ∈ Q, cls x.1 ≠ i) :
    chargeAt cls Q i = 0 := by
  rw [chargeAt, filter_eq_nil.mpr h]
  rfl

@[simp] theorem total_zero : total (0 : Multiset (α × Nat)) = 0 := rfl

@[simp] theorem total_add (Q R : Multiset (α × Nat)) : total (Q + R) = total Q + total R := by
  simp [total]

@[simp] theorem total_singleton (a : α) (n : Nat) : total {(a, n)} = n := by simp [total]

theorem chargeAt_le_total (Q : Multiset (α × Nat)) (i : β) : chargeAt cls Q i ≤ total Q := by
  have h := congrArg total (filter_add_not (fun x : α × Nat => cls x.1 = i) Q)
  rw [total_add] at h
  change total (Q.filter fun x => cls x.1 = i) ≤ total Q
  omega

theorem sum_chargeAt {Q : Multiset (α × Nat)} {S : Finset β} (h : ∀ x ∈ Q, cls x.1 ∈ S) :
    ∑ i ∈ S, chargeAt cls Q i = total Q := by
  induction Q using Multiset.induction with
  | empty => simp
  | cons x Q ih =>
    obtain ⟨a, n⟩ := x
    have ha : cls a ∈ S := h (a, n) (mem_cons_self _ _)
    have hQ := ih fun y hy => h y (mem_cons_of_mem hy)
    simp only [← singleton_add, chargeAt_add, total_add, total_singleton,
      chargeAt_singleton, Finset.sum_add_distrib, hQ]
    rw [Finset.sum_ite_eq, if_pos ha]

end Charges

/-! ## Moves -/

section Moves

variable {S κ : Type*} {counts : S → Multiset κ → Prop} {own : S → Multiset κ}

/-- From `s` with `A` in flight to `s'` with `B` in flight. Whatever else is booked
stays booked; what is lost stays booked without an owner, and under `P` nothing is. -/
def Moves (counts : S → Multiset κ → Prop) (own : S → Multiset κ) (P : Prop) (s : S)
    (A : Multiset κ) (s' : S) (B : Multiset κ) : Prop :=
  ∀ F, counts s (own s + A + F) → ∃ L, counts s' (own s' + B + L + F) ∧ (P → L = 0)

namespace Moves

variable {P Q : Prop} {s s1 s2 : S} {A B C : Multiset κ}

theorem refl (s : S) (A : Multiset κ) : Moves counts own True s A s A := fun F h =>
  ⟨0, by rwa [add_zero], fun _ => rfl⟩

theorem trans (h : Moves counts own P s A s1 B) (h' : Moves counts own Q s1 B s2 C) :
    Moves counts own (P ∧ Q) s A s2 C := by
  intro F hF
  obtain ⟨L, h1, hL⟩ := h F hF
  obtain ⟨L', h2, hL'⟩ := h' (L + F) (by rwa [← add_assoc])
  refine ⟨L + L', ?_, fun hpq => ?_⟩
  · have he : own s2 + C + L' + (L + F) = own s2 + C + (L + L') + F := by abel
    rwa [he] at h2
  · rw [hL hpq.1, hL' hpq.2, add_zero]

theorem mono (h : Moves counts own P s A s1 B) (hpq : Q → P) : Moves counts own Q s A s1 B := by
  intro F hF
  obtain ⟨L, h1, hL⟩ := h F hF
  exact ⟨L, h1, fun hq => hL (hpq hq)⟩

/-- What is in flight beside a move stays in flight. -/
theorem frame (h : Moves counts own P s A s1 B) (X : Multiset κ) :
    Moves counts own P s (A + X) s1 (B + X) := by
  intro F hF
  have he : own s + (A + X) + F = own s + A + (X + F) := by abel
  rw [he] at hF
  obtain ⟨L, h1, hL⟩ := h (X + F) hF
  refine ⟨L, ?_, hL⟩
  have he' : own s1 + B + L + (X + F) = own s1 + (B + X) + L + F := by abel
  rwa [he'] at h1

theorem of_counts (hown : own s1 + B = own s + A) (hc : ∀ Q, counts s Q → counts s1 Q) :
    Moves counts own True s A s1 B := by
  intro F hF
  refine ⟨0, ?_, fun _ => rfl⟩
  rw [add_zero, hown]
  exact hc _ hF

end Moves
end Moves
end Ledger
