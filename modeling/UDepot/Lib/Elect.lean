import Mathlib.Data.List.Flatten
import Mathlib.Data.List.Perm.Basic
import Mathlib.Tactic

/-! Choosing one of a stream of candidates by a test of the current choice against the
next candidate. The test need not be transitive, so the result depends on the order
of the stream. When the stream comes in blocks whose order is free, the last candidate
of a block is the only one that counts, and a candidate is chosen in every order of
the blocks exactly when it wins against the last candidate of each other block from
both sides. What is required of every two candidates that are compared is then a
requirement on the last candidate of a block and the candidates of another. -/

namespace Elect
open List

variable {α : Type}

section Stream

variable (r : α → α → Bool)

/-- The next candidate `x` takes over if the test says so. -/
def vote (cur : Option α) (x : α) : Option α :=
  match cur with
  | none => some x
  | some y => if r y x then some x else some y

def elect (cur : Option α) (xs : List α) : Option α := xs.foldl (vote r) cur

@[simp] theorem elect_nil (cur : Option α) : elect r cur [] = cur := rfl

@[simp] theorem elect_cons (cur : Option α) (x : α) (xs : List α) :
    elect r cur (x :: xs) = elect r (vote r cur x) xs := rfl

theorem elect_append (cur : Option α) (xs ys : List α) :
    elect r cur (xs ++ ys) = elect r (elect r cur xs) ys :=
  foldl_append

variable {r}

variable {xs : List α} {y : α}

theorem elect_mem {cur : Option α} {g : α} (h : elect r cur xs = some g) :
    cur = some g ∨ g ∈ xs := by
  induction xs generalizing cur with
  | nil => exact .inl h
  | cons x xs ih =>
    rcases ih h with hv | hm
    · cases cur with
      | none => exact .inr (mem_cons.mpr (.inl (Option.some.inj hv).symm))
      | some y =>
        simp only [vote] at hv
        split at hv
        · exact .inr (mem_cons.mpr (.inl (Option.some.inj hv).symm))
        · exact .inl hv
    · exact .inr (mem_cons_of_mem _ hm)

theorem elect_some_ne_none : elect r (some y) xs ≠ none := by
  induction xs generalizing y with
  | nil => simp
  | cons x xs ih =>
    simp only [elect_cons, vote]
    split
    · exact ih
    · exact ih

theorem elect_eq_none : elect r none xs = none ↔ xs = [] := by
  cases xs with
  | nil => simp
  | cons x xs => simpa [vote] using elect_some_ne_none

theorem elect_stays (h : ∀ x ∈ xs, r y x = false) : elect r (some y) xs = some y := by
  induction xs with
  | nil => rfl
  | cons x xs ih =>
    rw [elect_cons, vote, h x mem_cons_self]
    exact ih fun z hz => h z (mem_cons_of_mem _ hz)

/-- In a stream where each candidate takes over from all before it, the last wins. -/
theorem elect_last {g : α} (hp : xs.Pairwise fun a b => r a b = true) (hy : ∀ x ∈ xs, r y x = true)
    (hl : xs.getLast? = some g) : elect r (some y) xs = some g := by
  induction xs generalizing y with
  | nil => cases hl
  | cons x xs ih =>
    rw [elect_cons, vote, hy x mem_cons_self]
    obtain ⟨hx, hp⟩ := pairwise_cons.mp hp
    cases xs with
    | nil => simpa using hl
    | cons z zs => exact ih hp hx (by simpa using hl)

/-- `a` holds of every choice and candidate that are compared. -/
def checks (r a : α → α → Bool) : Option α → List α → Bool
  | _, [] => true
  | cur, x :: xs => cur.all (a · x) && checks r a (vote r cur x) xs

variable {a : α → α → Bool}

theorem checks_append (cur : Option α) (xs ys : List α) :
    checks r a cur (xs ++ ys) = (checks r a cur xs && checks r a (elect r cur xs) ys) := by
  induction xs generalizing cur with
  | nil => simp [checks]
  | cons x xs ih => simp [checks, ih, Bool.and_assoc]

theorem checks_of_pairwise {cur : Option α} (hp : xs.Pairwise fun y x => a y x = true)
    (hc : ∀ y, cur = some y → ∀ x ∈ xs, a y x = true) : checks r a cur xs = true := by
  induction xs generalizing cur with
  | nil => rfl
  | cons x xs ih =>
    obtain ⟨hx, hp⟩ := pairwise_cons.mp hp
    rw [checks, Bool.and_eq_true]
    constructor
    · cases cur with
      | none => rfl
      | some y => exact hc y rfl x mem_cons_self
    · refine ih hp fun y hy => ?_
      -- the choice is now `x`, or still the old one
      cases cur with
      | none =>
        obtain rfl := Option.some.inj hy
        exact hx
      | some z =>
        simp only [vote] at hy
        split at hy
        · obtain rfl := Option.some.inj hy
          exact hx
        · obtain rfl := Option.some.inj hy
          exact fun w hw => hc z rfl w (mem_cons_of_mem _ hw)

end Stream

/-! ## Blocks -/

variable {ι : Type} {r : α → α → Bool} {idx : α → ι} {block : ι → List α}

/-- Blocks of candidates: each candidate knows its block, inside a block each takes over
from those before it, and from outside the candidates of a block look alike. -/
structure Blocks (r : α → α → Bool) (idx : α → ι) (block : ι → List α) : Prop where
  own : ∀ i, ∀ x ∈ block i, idx x = i
  inner : ∀ i, (block i).Pairwise fun a b => r a b = true
  outer : ∀ x y y', idx y = idx y' → idx x ≠ idx y → r x y = r x y'

namespace Blocks

variable {i : ι} {g : α} {is : List ι}

theorem elect_block (hb : Blocks r idx block) {y : α} (hy : idx y ≠ i)
    (hl : (block i).getLast? = some g) :
    elect r (some y) (block i) = if r y g then some g else some y := by
  have hg := mem_of_getLast? hl
  have hsame : ∀ x ∈ block i, r y x = r y g := fun x hx =>
    hb.outer y x g ((hb.own i x hx).trans (hb.own i g hg).symm) (by rwa [hb.own i x hx])
  split
  · rename_i h
    exact elect_last (hb.inner i) (fun x hx => (hsame x hx).trans h) hl
  · rename_i h
    exact elect_stays fun x hx => (hsame x hx).trans (by simpa using h)

theorem elect_first (hb : Blocks r idx block) (hl : (block i).getLast? = some g) :
    elect r none (block i) = some g := by
  have hp := hb.inner i
  cases hxs : block i with
  | nil => simp [hxs] at hl
  | cons x xs =>
    rw [hxs] at hl hp
    rw [elect_cons]
    cases xs with
    | nil => simpa [vote] using hl
    | cons z zs =>
      obtain ⟨hx, hp⟩ := pairwise_cons.mp hp
      exact elect_last hp hx (by simpa using hl)

/-- A block keeps the choice or makes it its last candidate. -/
theorem elect_block_cases (hb : Blocks r idx block) {cur : Option α}
    (hc : ∀ y, cur = some y → idx y ≠ i) : elect r cur (block i) = cur ∨
      ∃ b, (block i).getLast? = some b ∧ elect r cur (block i) = some b := by
  cases hl : (block i).getLast? with
  | none =>
    rw [List.getLast?_eq_none_iff.mp hl]
    exact .inl rfl
  | some b =>
    cases cur with
    | none => exact .inr ⟨b, rfl, hb.elect_first hl⟩
    | some y =>
      rw [hb.elect_block (hc y rfl) hl]
      split
      · exact .inr ⟨b, rfl, rfl⟩
      · exact .inl rfl

/-- The choice over some blocks is the last candidate of one of them. -/
theorem elect_is_last (hb : Blocks r idx block) {cur : Option α}
    (hc : ∀ y, cur = some y → idx y ∉ is) (hnd : is.Nodup)
    (h : elect r cur (is.flatMap block) = some g) :
    cur = some g ∨ ∃ i ∈ is, (block i).getLast? = some g := by
  induction is generalizing cur with
  | nil => exact .inl (by simpa using h)
  | cons i is ih =>
    rw [flatMap_cons, elect_append] at h
    obtain ⟨hi, hnd⟩ := nodup_cons.mp hnd
    have hout : ∀ y, cur = some y → idx y ≠ i := fun y hy hyi => hc y hy (by simp [hyi])
    rcases hb.elect_block_cases hout with hs | ⟨b, hl, hs⟩
    · rw [hs] at h
      rcases ih (fun y hy => fun hm => hc y hy (mem_cons_of_mem _ hm)) hnd h with h | ⟨j, hj, h⟩
      · exact .inl h
      · exact .inr ⟨j, mem_cons_of_mem _ hj, h⟩
    · rw [hs] at h
      have hbi := hb.own i b (mem_of_getLast? hl)
      rcases ih (fun y hy => by cases hy; rwa [hbi]) hnd h with h | ⟨j, hj, h⟩
      · cases h
        exact .inr ⟨i, mem_cons_self, hl⟩
      · exact .inr ⟨j, mem_cons_of_mem _ hj, h⟩

theorem elect_ne (hb : Blocks r idx block) {y : α} (hy : y ≠ g) (hi : idx g ∉ is) :
    elect r (some y) (is.flatMap block) ≠ some g := by
  intro h
  rcases elect_mem h with h | h
  · exact hy (Option.some.inj h)
  · obtain ⟨i, him, hg⟩ := mem_flatMap.mp h
    rw [hb.own i g hg] at hi
    exact hi him

/-- `g` wins against the last candidate of each other block, whichever comes first. -/
def Wins (r : α → α → Bool) (block : ι → List α) (is : List ι) (i : ι) (g : α) : Prop :=
  (block i).getLast? = some g ∧ ∀ j ∈ is, j ≠ i → ∀ b, (block j).getLast? = some b →
    r g b = false ∧ r b g = true

theorem elect_of_wins (hb : Blocks r idx block) (hnd : is.Nodup) (hi : i ∈ is)
    (hw : Wins r block is i g) : elect r none (is.flatMap block) = some g := by
  obtain ⟨hl, hwin⟩ := hw
  obtain ⟨l1, l2, rfl⟩ := append_of_mem hi
  have hgi := hb.own i g (mem_of_getLast? hl)
  have hnd' := nodup_append.mp hnd
  have hni : i ∉ l1 := fun hm => hnd'.2.2 i hm i mem_cons_self rfl
  have hni2 : i ∉ l2 := (nodup_cons.mp hnd'.2.1).1
  rw [flatMap_append, flatMap_cons, elect_append, elect_append]
  have hmid : elect r (elect r none (l1.flatMap block)) (block i) = some g := by
    cases hc : elect r none (l1.flatMap block) with
    | none => exact hb.elect_first hl
    | some b =>
      rcases hb.elect_is_last (by simp) hnd'.1 hc with h | ⟨j, hj, hlb⟩
      · cases h
      · have hji : j ≠ i := fun h => hni (h ▸ hj)
        have hbj := hb.own j b (mem_of_getLast? hlb)
        rw [hb.elect_block (by rwa [hbj]) hl, (hwin j (by simp [hj]) hji b hlb).2]
        rfl
  rw [hmid]
  refine elect_stays fun x hx => ?_
  obtain ⟨j, hj, hxj⟩ := mem_flatMap.mp hx
  have hji : j ≠ i := fun h => hni2 (h ▸ hj)
  obtain ⟨b, hlb⟩ : ∃ b, (block j).getLast? = some b := by
    cases hlb : (block j).getLast? with
    | none =>
      rw [List.getLast?_eq_none_iff.mp hlb] at hxj
      cases hxj
    | some b => exact ⟨b, rfl⟩
  have hbj := hb.own j b (mem_of_getLast? hlb)
  have hxj' := hb.own j x hxj
  rw [hb.outer g x b (hxj'.trans hbj.symm) (by rw [hgi, hxj']; exact hji.symm)]
  exact (hwin j (by simp [hj]) hji b hlb).1

theorem perm_pair [DecidableEq ι] {j : ι} (hi : i ∈ is) (hj : j ∈ is) (hji : j ≠ i) :
    (i :: j :: (is.erase i).erase j).Perm is := by
  refine List.Perm.trans (List.Perm.cons i ?_) (perm_cons_erase hi).symm
  exact (perm_cons_erase ((mem_erase_of_ne hji).mpr hj)).symm

/-- The same choice in every order of the blocks. -/
theorem elect_perm_iff [DecidableEq ι] (hb : Blocks r idx block) (hnd : is.Nodup) (g : α) :
    (∀ js : List ι, js.Perm is → elect r none (js.flatMap block) = some g) ↔
      ∃ i ∈ is, Wins r block is i g := by
  constructor
  · intro h
    rcases hb.elect_is_last (by simp) hnd (h is (List.Perm.refl _)) with h0 | ⟨i, hi, hl⟩
    · cases h0
    refine ⟨i, hi, hl, fun j hj hji b hlb => ?_⟩
    have hgi := hb.own i g (mem_of_getLast? hl)
    have hbj := hb.own j b (mem_of_getLast? hlb)
    have hbg : b ≠ g := fun h => hji (by rw [← hbj, h, hgi])
    have hrest : i ∉ (is.erase i).erase j := fun hm =>
      (List.Nodup.not_mem_erase hnd) (mem_of_mem_erase hm)
    have hperm := perm_pair hi hj hji
    constructor
    · -- visited right after `i`, the block `j` must not take over
      have h1 := h _ hperm
      rw [flatMap_cons, flatMap_cons, elect_append, hb.elect_first hl, elect_append,
        hb.elect_block (by rw [hgi]; exact hji.symm) hlb] at h1
      by_contra hr
      rw [Bool.not_eq_false] at hr
      rw [hr, if_pos rfl] at h1
      exact hb.elect_ne hbg (by rwa [hgi]) h1
    · -- and right after `j`, the block `i` must
      have h2 := h _ ((List.Perm.swap i j _).trans hperm)
      rw [flatMap_cons, flatMap_cons, elect_append, hb.elect_first hlb, elect_append,
        hb.elect_block (by rwa [hbj]) hl] at h2
      by_contra hr
      rw [if_neg hr] at h2
      exact hb.elect_ne hbg (by rwa [hgi]) h2
  · rintro ⟨i, hi, hl, hwin⟩ js hjs
    exact hb.elect_of_wins (hjs.nodup_iff.mpr hnd) (hjs.mem_iff.mpr hi)
      ⟨hl, fun j hj => hwin j (hjs.mem_iff.mp hj)⟩

/-! ## What is compared -/

variable {a : α → α → Bool}

theorem checks_blocks (hb : Blocks r idx block)
    (ha : ∀ i, (block i).Pairwise fun x y => a x y = true)
    {cur : Option α} (hnd : is.Nodup) (hc : ∀ y, cur = some y → ∀ i ∈ is, idx y ≠ i ∧
      ∀ x ∈ block i, a y x = true)
    (h : ∀ i ∈ is, ∀ j ∈ is, i ≠ j → ∀ b, (block i).getLast? = some b → ∀ x ∈ block j,
      a b x = true) : checks r a cur (is.flatMap block) = true := by
  induction is generalizing cur with
  | nil => rfl
  | cons i is ih =>
    obtain ⟨hi, hnd⟩ := nodup_cons.mp hnd
    rw [flatMap_cons, checks_append, Bool.and_eq_true]
    constructor
    · exact checks_of_pairwise (ha i) fun y hy => (hc y hy i mem_cons_self).2
    · apply ih hnd
      · intro y hy
        rcases hb.elect_block_cases fun z hz => (hc z hz i mem_cons_self).1 with hs | ⟨b, hl, hs⟩
        · rw [hs] at hy
          exact fun j hj => hc y hy j (mem_cons_of_mem _ hj)
        · rw [hs] at hy
          obtain rfl := Option.some.inj hy
          intro j hj
          have hij : i ≠ j := fun h => hi (h ▸ hj)
          exact ⟨by rwa [hb.own i _ (mem_of_getLast? hl)],
            h i mem_cons_self j (mem_cons_of_mem _ hj) hij _ hl⟩
      · exact fun j hj l hl => h j (mem_cons_of_mem _ hj) l (mem_cons_of_mem _ hl)

/-- What is compared in some order of the blocks: the last candidate of a block and any candidate
of another. -/
theorem checks_perm_iff [DecidableEq ι] (hb : Blocks r idx block)
    (ha : ∀ i, (block i).Pairwise fun x y => a x y = true)
    (houter : ∀ x y y', idx y = idx y' → idx x ≠ idx y → a x y = a x y') (hnd : is.Nodup) :
    (∀ js : List ι, js.Perm is → checks r a none (js.flatMap block) = true) ↔
      ∀ i ∈ is, ∀ j ∈ is, i ≠ j → ∀ b, (block i).getLast? = some b → ∀ x ∈ block j,
        a b x = true := by
  constructor
  · intro h i hi j hj hij b hl x hx
    have h1 := h _ (perm_pair hi hj hij.symm)
    rw [flatMap_cons, flatMap_cons, checks_append, hb.elect_first hl, checks_append,
      Bool.and_eq_true, Bool.and_eq_true] at h1
    have hbi := hb.own i b (mem_of_getLast? hl)
    have hxj := hb.own j x hx
    cases hxs : block j with
    | nil =>
      rw [hxs] at hx
      cases hx
    | cons y ys =>
      have hyj := hb.own j y (by rw [hxs]; exact mem_cons_self)
      rw [hxs, checks, Bool.and_eq_true] at h1
      rw [houter b x y (hxj.trans hyj.symm) (by rw [hbi, hxj]; exact hij)]
      exact h1.2.1.1
  · intro h js hjs
    refine hb.checks_blocks ha (hjs.nodup_iff.mpr hnd) (by simp) fun i hi j hj => ?_
    exact h i (hjs.mem_iff.mp hi) j (hjs.mem_iff.mp hj)

end Blocks
end Elect
