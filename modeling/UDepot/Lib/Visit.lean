import Mathlib.Tactic

/-! Searching a list by repeated passes that skip what was seen before: each pass
takes the first element whose label is new, and stops if it satisfies the test. -/

namespace Visit

variable {α β : Type} [DecidableEq β]

def firstNew (label : α → β) (seen : List β) (xs : List α) : Option α :=
  xs.find? fun x => !seen.contains (label x)

def visit (label : α → β) (p : α → Bool) (xs : List α) : Nat → List β → Option α
  | 0, _ => none
  | n + 1, seen =>
    match firstNew label seen xs with
    | none => none
    | some x => if p x then some x else visit label p xs n (label x :: seen)

variable {label : α → β} {seen : List β} {xs : List α}

theorem firstNew_eq_some {x : α} (h : firstNew label seen xs = some x) :
    x ∈ xs ∧ label x ∉ seen := by
  have hx := List.find?_some h
  exact ⟨List.mem_of_find?_eq_some h, by simpa using hx⟩

theorem firstNew_eq_none (h : firstNew label seen xs = none) : ∀ x ∈ xs, label x ∈ seen := by
  intro x hx
  simpa using List.find?_eq_none.mp h x hx

theorem visit_eq_some {p : α → Bool} {n : Nat} {x : α} (h : visit label p xs n seen = some x) :
    x ∈ xs ∧ p x = true := by
  induction n generalizing seen with
  | zero => simp [visit] at h
  | succ n ih =>
    cases hf : firstNew label seen xs with
    | none => simp [visit, hf] at h
    | some y =>
      by_cases hy : p y = true
      · simp only [visit, hf, hy, ↓reduceIte, Option.some.injEq] at h
        subst h
        exact ⟨(firstNew_eq_some hf).1, hy⟩
      · simp only [visit, hf, hy, Bool.false_eq_true, ↓reduceIte] at h
        exact ih h

/-- Labels of the list that were not seen yet; each pass removes one. -/
private theorem filter_lt {label : α → β} {seen : List β} {xs : List α} {x : α}
    (h : firstNew label seen xs = some x) :
    (xs.filter fun y => !(label x :: seen).contains (label y)).length <
      (xs.filter fun y => !seen.contains (label y)).length := by
  obtain ⟨hx, hn⟩ := firstNew_eq_some h
  have hsub : (xs.filter fun y => !(label x :: seen).contains (label y)) =
      (xs.filter fun y => !seen.contains (label y)).filter
        fun y => !decide (label y = label x) := by
    rw [List.filter_filter]
    congr 1
    funext y
    simp [Bool.not_or]
  rw [hsub]
  apply List.length_filter_lt_length_iff_exists.mpr
  exact ⟨x, List.mem_filter.mpr ⟨hx, by simpa using hn⟩, by simp⟩

/-- With more passes than elements, a search that ends without a result has seen
every label, and no element satisfies the test, provided the test depends on the
label only. -/
theorem visit_eq_none {p : α → Bool} {n : Nat}
    (hp : ∀ x ∈ xs, ∀ y ∈ xs, label x = label y → p x = p y)
    (hseen : ∀ x ∈ xs, label x ∈ seen → p x = false)
    (hn : (xs.filter fun y => !seen.contains (label y)).length < n)
    (h : visit label p xs n seen = none) : ∀ x ∈ xs, p x = false := by
  induction n generalizing seen with
  | zero => omega
  | succ n ih =>
    cases hf : firstNew label seen xs with
    | none =>
      intro x hx
      exact hseen x hx (firstNew_eq_none hf x hx)
    | some y =>
      by_cases hy : p y = true
      · simp [visit, hf, hy] at h
      · simp only [visit, hf, hy, Bool.false_eq_true, ↓reduceIte] at h
        have hlt := filter_lt hf
        refine ih (fun x hx hm => ?_) (by omega) h
        rcases List.mem_cons.mp hm with heq | hm
        · rw [hp x hx y (firstNew_eq_some hf).1 heq]
          simpa using hy
        · exact hseen x hx hm

end Visit
