import Mathlib.Data.List.Nodup
import Mathlib.Data.Finset.Card
import Mathlib.Order.Interval.Finset.Nat

/-! Items that are kept in duplicate-free lists, each item in at most one place, and a
counter that runs down as parts of an interval are given back. -/

namespace UDepot.Custody
open Function List

section Tracks

variable {ι α β : Type*} {f f' : ι → List α} {mk : ι → β} {place : α → β}
  {a : ι} {x : α} {loc : β}

/-- The lists `f` hold each item at most once, and hold it where `place` says. -/
structure Tracks (f : ι → List α) (mk : ι → β) (place : α → β) : Prop where
  mem : ∀ a x, x ∈ f a ↔ place x = mk a
  nodup : ∀ a, (f a).Nodup

variable [DecidableEq α]

theorem Tracks.insert (h : Tracks f mk place) (hx : ∀ b, place x ≠ mk b)
    (hinj : ∀ b, b ≠ a → mk b ≠ mk a) (ha : (f' a).Perm (x :: f a)) (ho : ∀ b, b ≠ a → f' b = f b) :
    Tracks f' mk (update place x (mk a)) := by
  have hmem := h.mem
  have hnodup := h.nodup
  refine ⟨fun b y => ?_, fun b => ?_⟩
  · have := ha.mem_iff (a := y)
    by_cases hb : b = a <;> grind [update_apply]
  · have := ha.nodup_iff
    by_cases hb : b = a <;> grind

theorem Tracks.transfer {b : ι} (h : Tracks f mk place) (hinj : Function.Injective mk) (hab : a ≠ b)
    (ha : (f a).Perm (x :: f' a)) (hb : (f' b).Perm (x :: f b))
    (ho : ∀ c, c ≠ a → c ≠ b → f' c = f c) : Tracks f' mk (update place x (mk b)) := by
  have hp : place x = mk a := (h.mem a x).mp (ha.mem_iff.mpr mem_cons_self)
  have hnd : x ∉ f' a ∧ (f' a).Nodup := nodup_cons.mp (ha.nodup_iff.mp (h.nodup a))
  have hmem := h.mem
  have hnodup := h.nodup
  have hne : ∀ c d, mk c = mk d → c = d := fun _ _ he => hinj he
  refine ⟨fun c y => ?_, fun c => ?_⟩
  · have := ha.mem_iff (a := y)
    have := hb.mem_iff (a := y)
    by_cases hca : c = a <;> by_cases hcb : c = b <;> grind [update_apply]
  · have := hb.nodup_iff
    by_cases hca : c = a <;> by_cases hcb : c = b <;> grind

end Tracks

/-! ## Running down -/

/-- Of `n` items those of `gone` have been given back, and `left` counts the others. -/
structure Latch (n : Nat) (left : Int) (gone : Finset Nat) : Prop where
  sub : gone ⊆ Finset.range n
  left_eq : left = n - gone.card

namespace Latch

variable {n : Nat} {left : Int} {gone part : Finset Nat}

theorem start (n : Nat) : Latch n n ∅ := ⟨Finset.empty_subset _, by simp⟩

theorem card_le (h : Latch n left gone) : gone.card ≤ n := by
  simpa using Finset.card_le_card h.sub

theorem nonneg (h : Latch n left gone) : 0 ≤ left := by
  have := h.card_le
  have := h.left_eq
  omega

theorem le (h : Latch n left gone) : left ≤ n := by
  have := h.left_eq
  omega

theorem zero_iff (h : Latch n left gone) : left = 0 ↔ Finset.range n ⊆ gone := by
  rw [h.left_eq]
  constructor
  · intro h0
    have hcard : (Finset.range n).card ≤ gone.card := by
      rw [Finset.card_range]
      omega
    exact (Finset.eq_of_subset_of_card_le h.sub hcard).ge
  · intro hs
    have := Finset.card_le_card hs
    have := h.card_le
    rw [Finset.card_range] at *
    omega

theorem take (h : Latch n left gone) (hp : part ⊆ Finset.range n) (hd : Disjoint gone part) :
    Latch n (left - part.card) (part ∪ gone) := by
  refine ⟨Finset.union_subset hp h.sub, ?_⟩
  rw [Finset.card_union_of_disjoint hd.symm, h.left_eq]
  omega

end Latch

end UDepot.Custody
