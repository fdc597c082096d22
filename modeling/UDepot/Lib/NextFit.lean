import Mathlib.Tactic

/-! Next-fit packing: items go one after the other into the open bin, and an item that does
not fit closes it and opens the next one. Two bins in a row hold more than the capacity of
one, and items of one unit and of a whole bin in turn come down to just that. -/

namespace NextFit
open List

variable {cap : Nat}

/-- The bins opened and what is in the open one; with no bin opened, `cap` of room is taken. -/
def place (cap : Nat) (x : Nat × Nat) (item : Nat) : Nat × Nat :=
  if x.2 + item ≤ cap then (x.1, x.2 + item) else (x.1 + 1, item)

def pack (cap : Nat) (x : Nat × Nat) (items : List Nat) : Nat × Nat := items.foldl (place cap) x

def bins (cap : Nat) (items : List Nat) : Nat := (pack cap (0, cap) items).1

/-- The least sum of items that takes `n` bins. -/
def leastSum (cap n : Nat) : Nat := n / 2 * (cap + 1) + n % 2

theorem le_pack (cap : Nat) (x : Nat × Nat) (items : List Nat) : x.1 ≤ (pack cap x items).1 := by
  induction items generalizing x with
  | nil => exact Nat.le_refl _
  | cons item items ih =>
    refine Nat.le_trans ?_ (ih (place cap x item))
    rw [place]
    split
    · exact Nat.le_refl _
    · exact Nat.le_succ _

/-! ## The bound -/

/-- The bins opened, the content of the open one and the sum of the items: an odd bin at the
end counts for itself. -/
structure Paid (cap : Nat) (x : Nat × Nat) (total : Nat) : Prop where
  even : x.1 % 2 = 0 → x.1 / 2 * (cap + 1) ≤ total
  odd : x.1 % 2 = 1 → x.1 / 2 * (cap + 1) + x.2 ≤ total ∧ 1 ≤ x.2

theorem Paid.place {x : Nat × Nat} {total item : Nat} (h : Paid cap x total) (hpos : 1 ≤ item) :
    Paid cap (place cap x item) (total + item) := by
  rw [NextFit.place]
  split
  · refine ⟨fun he => ?_, fun ho => ?_⟩
    · exact Nat.le_add_right_of_le (h.even he)
    · have hodd := h.odd ho
      dsimp only
      omega
  · rename_i hfull
    refine ⟨fun he => ?_, fun ho => ?_⟩
    · -- the bin before was an odd one, and the item did not fit into it
      dsimp only at he ⊢
      have hodd := (h.odd (by omega)).1
      rw [show (x.1 + 1) / 2 = x.1 / 2 + 1 by omega, Nat.succ_mul]
      omega
    · dsimp only at ho ⊢
      have heven := h.even (by omega)
      rw [show (x.1 + 1) / 2 = x.1 / 2 by omega]
      omega

theorem Paid.pack {x : Nat × Nat} {total : Nat} {items : List Nat} (h : Paid cap x total)
    (hpos : ∀ item ∈ items, 1 ≤ item) : Paid cap (pack cap x items) (total + items.sum) := by
  induction items generalizing x total with
  | nil => exact h
  | cons item items ih =>
    rw [sum_cons, ← Nat.add_assoc]
    exact ih (h.place (hpos item mem_cons_self))
      fun y hy => hpos y (mem_cons_of_mem _ hy)

theorem leastSum_le_sum {items : List Nat} (hpos : ∀ item ∈ items, 1 ≤ item) :
    leastSum cap (bins cap items) ≤ items.sum := by
  have hstart : Paid cap (0, cap) 0 := ⟨fun _ => by simp, fun h => by simp at h⟩
  have h := hstart.pack hpos
  rw [Nat.zero_add] at h
  rw [leastSum, bins]
  rcases Nat.mod_two_eq_zero_or_one (pack cap (0, cap) items).1 with he | ho
  · have := h.even he
    omega
  · have := h.odd ho
    omega

theorem leastSum_mono (hcap : 1 ≤ cap) {m n : Nat} (h : m ≤ n) :
    leastSum cap m ≤ leastSum cap n := by
  have hdiv : m / 2 ≤ n / 2 := Nat.div_le_div_right h
  rw [leastSum, leastSum]
  rcases Nat.lt_or_ge (m / 2) (n / 2) with hlt | hge
  · have hmul : (m / 2 + 1) * (cap + 1) ≤ n / 2 * (cap + 1) := Nat.mul_le_mul_right _ hlt
    rw [Nat.succ_mul] at hmul
    omega
  · rw [show m / 2 = n / 2 by omega]
    omega

/-! ## Items that reach it -/

/-- One unit and a whole bin in turn, in `n` items. -/
def alternating (cap : Nat) : Nat → List Nat
  | 0 => []
  | 1 => [1]
  | n + 2 => 1 :: cap :: alternating cap n

theorem mem_alternating {n item : Nat} (hcap : 1 ≤ cap) (h : item ∈ alternating cap n) :
    1 ≤ item ∧ item ≤ cap := by
  induction n using alternating.induct with
  | case1 => cases h
  | case2 =>
    rw [alternating, mem_singleton] at h
    omega
  | case3 n ih =>
    rw [alternating, mem_cons, mem_cons] at h
    rcases h with rfl | rfl | h
    · omega
    · omega
    · exact ih h

theorem sum_alternating (cap n : Nat) : (alternating cap n).sum = leastSum cap n := by
  induction n using alternating.induct with
  | case1 | case2 => simp [alternating, leastSum]
  | case3 n ih =>
    rw [alternating, sum_cons, sum_cons, ih, leastSum, leastSum,
      show (n + 2) / 2 = n / 2 + 1 by omega, Nat.succ_mul]
    omega

theorem pack_alternating (n : Nat) (x : Nat × Nat) (h : x.2 = cap) :
    (pack cap x (alternating cap n)).1 = x.1 + n := by
  induction n using alternating.induct generalizing x with
  | case1 => rfl
  | case2 =>
    change (place cap x 1).1 = _
    rw [place, if_neg (by omega)]
  | case3 n ih =>
    change (pack cap (place cap (place cap x 1) cap) (alternating cap n)).1 = _
    have h1 : place cap x 1 = (x.1 + 1, 1) := by rw [place, if_neg (by omega)]
    have h2 : place cap (x.1 + 1, 1) cap = (x.1 + 2, cap) := by
      rw [place, if_neg (by simp)]
    rw [h1, h2, ih _ rfl]
    omega

theorem bins_alternating (cap n : Nat) : bins cap (alternating cap n) = n := by
  rw [bins, pack_alternating n (0, cap) rfl, Nat.zero_add]

/-- Every list of items of a sum of at most `total` packs into `limit` bins exactly when the
least sum for one more bin is larger. -/
theorem bins_le_iff (hcap : 1 ≤ cap) (total limit : Nat) :
    (∀ items : List Nat, (∀ item ∈ items, 1 ≤ item ∧ item ≤ cap) → items.sum ≤ total →
      bins cap items ≤ limit) ↔ total < leastSum cap (limit + 1) := by
  constructor
  · intro h
    by_contra hle
    have hbins := h (alternating cap (limit + 1)) (fun _ hi => mem_alternating hcap hi)
      (by rw [sum_alternating]; omega)
    rw [bins_alternating] at hbins
    omega
  · intro h items hitems hsum
    by_contra hgt
    have hmono := leastSum_mono hcap (show limit + 1 ≤ bins cap items by omega)
    have hle : leastSum cap (bins cap items) ≤ items.sum :=
      leastSum_le_sum fun item hi => (hitems item hi).1
    omega

end NextFit
