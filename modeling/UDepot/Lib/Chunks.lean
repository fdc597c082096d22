import Mathlib.Tactic

/-! Sequences kept in chunks, and places in them: the chunks that are left and an offset in the
first of these. -/

namespace Chunks
open List

variable {α : Type*} {c : List α} {cs : List (List α)} {o k : Nat}

def rest (cs : List (List α)) (o : Nat) : List α := cs.flatten.drop o

/-- A place further on in the first chunk; behind its last element it is the next chunk's start. -/
def advance : List (List α) → Nat → Nat → List (List α) × Nat
  | [], o, k => ([], o + k)
  | c :: cs, o, k => if o + k = c.length then (cs, 0) else (c :: cs, o + k)

structure Proper (cs : List (List α)) (o : Nat) : Prop where
  ne_nil : ∀ c ∈ cs, c ≠ []
  lt : ∀ c ∈ cs.head?, o < c.length

theorem proper_zero (h : ∀ c ∈ cs, c ≠ []) : Proper cs 0 where
  ne_nil := h
  lt c hc := length_pos_of_ne_nil (h c (mem_of_mem_head? hc))

theorem Proper.tail (h : Proper (c :: cs) o) : Proper cs 0 :=
  proper_zero fun d hd => h.ne_nil d (mem_cons_of_mem c hd)

theorem Proper.lt_head (h : Proper (c :: cs) o) : o < c.length := h.lt c rfl

theorem rest_cons (h : o ≤ c.length) : rest (c :: cs) o = c.drop o ++ cs.flatten := by
  rw [rest, flatten_cons, drop_append_of_le_length h]

theorem take_rest (h : o + k ≤ c.length) : (rest (c :: cs) o).take k = (c.drop o).take k := by
  rw [rest_cons (by omega), take_append_of_le_length (by rw [length_drop]; omega)]

theorem rest_advance :
    rest (advance (c :: cs) o k).1 (advance (c :: cs) o k).2 = (rest (c :: cs) o).drop k := by
  have hdrop : (rest (c :: cs) o).drop k = rest (c :: cs) (o + k) := by
    rw [rest, rest, drop_drop]
  rw [hdrop, advance]
  split
  · rename_i hk
    rw [hk, rest_cons (le_refl _), drop_length, nil_append, rest, drop_zero]
  · rfl

theorem Proper.advance (h : Proper (c :: cs) o) (hk : o + k ≤ c.length) :
    Proper (advance (c :: cs) o k).1 (advance (c :: cs) o k).2 := by
  rw [Chunks.advance]
  split
  · exact h.tail
  · rename_i hne
    refine ⟨h.ne_nil, fun d hd => ?_⟩
    obtain rfl := Option.some.inj hd
    exact lt_of_le_of_ne hk hne

theorem Proper.rest_eq_nil_iff (h : Proper cs o) : rest cs o = [] ↔ cs = [] := by
  cases cs with
  | nil => exact iff_of_true (drop_nil ..) rfl
  | cons c cs =>
    have hlt := h.lt_head
    refine iff_of_false (fun hnil => ?_) (cons_ne_nil c cs)
    rw [rest_cons hlt.le, append_eq_nil_iff, drop_eq_nil_iff] at hnil
    omega

theorem advance_length : (advance (c :: cs) o k).1.length =
    if o + k = c.length then cs.length else cs.length + 1 := by
  rw [advance]
  split <;> rfl

end Chunks
