import Mathlib.Data.List.Nodup
import Mathlib.Logic.Function.Basic

/-! Loops over a list that write one place per step, and searches for the one element
that qualifies. -/

namespace Places
open Function List

variable {α β κ : Type*} [DecidableEq κ]

def writeAll (p : α → κ) (f : α → β → β) (l : List α) (x : κ → β) : κ → β :=
  l.foldl (fun x i => update x (p i) (f i (x (p i)))) x

variable {p : α → κ} {f : α → β → β}

variable {l : List α}

theorem writeAll_other {k : κ} (h : k ∉ l.map p) (x : κ → β) : writeAll p f l x k = x k := by
  induction l generalizing x with
  | nil => rfl
  | cons i l ih =>
    rw [map_cons, mem_cons, not_or] at h
    change writeAll p f l (update x (p i) (f i (x (p i)))) k = x k
    rw [ih h.2, update_of_ne h.1]

theorem writeAll_self (hnd : (l.map p).Nodup) (x : κ → β) {i : α} (hi : i ∈ l) :
    writeAll p f l x (p i) = f i (x (p i)) := by
  induction l generalizing x with
  | nil => cases hi
  | cons j l ih =>
    rw [map_cons, nodup_cons] at hnd
    change writeAll p f l (update x (p j) (f j (x (p j)))) (p i) = f i (x (p i))
    rcases mem_cons.mp hi with rfl | hi
    · rw [writeAll_other hnd.1, update_self]
    · have hne : p i ≠ p j := by
        intro heq
        exact hnd.1 (heq ▸ mem_map_of_mem hi)
      rw [ih hnd.2 _ hi, update_of_ne hne]

theorem find?_unique {q : α → Bool} {a : α} (ha : a ∈ l) (hq : q a = true)
    (huniq : ∀ b ∈ l, q b = true → b = a) : l.find? q = some a := by
  cases h : l.find? q with
  | none => exact absurd hq (by simpa using List.find?_eq_none.mp h a ha)
  | some b => rw [huniq b (mem_of_find?_eq_some h) (List.find?_some h)]

/-- A loop that takes over what the elements that qualify say, where all of them say
the same. -/
theorem foldl_ite_eq {q : α → Prop} [DecidablePred q] {v : α → β} {w : β}
    (hv : ∀ b ∈ l, q b → v b = w) {x : β} (hx : x = w ∨ ∃ a ∈ l, q a) :
    l.foldl (fun x b => if q b then v b else x) x = w := by
  induction l generalizing x with
  | nil =>
    rcases hx with hx | ⟨a, ha, _⟩
    · exact hx
    · cases ha
  | cons b l ih =>
    rw [foldl_cons]
    apply ih fun b' hb' => hv b' (mem_cons_of_mem _ hb')
    by_cases hb : q b
    · rw [if_pos hb]
      exact .inl (hv b mem_cons_self hb)
    · rw [if_neg hb]
      rcases hx with hx | ⟨a, ha, hqa⟩
      · exact .inl hx
      · rcases mem_cons.mp ha with rfl | ha
        · exact absurd hqa hb
        · exact .inr ⟨a, ha, hqa⟩

end Places
