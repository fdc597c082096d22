import Mathlib.Data.List.Basic

/-! Commands in two phases over a shared state: the first looks at a part of it and may
end the command, the second writes. If that part is the same again whenever a command
comes to its second phase, then what the threads do is what the commands do one after
another, in the order in which they end. -/

namespace Phases
open Function

/-- Commands `C` of threads with a state `L` of their own; `view` is the part of the shared
state that the first phase looks at. -/
structure TwoPhase (S L C P V A : Type) where
  start : C → S → L → (A × L) ⊕ P
  finish : C → S → P → A × S × L
  view : C → S → V

variable {ι S L C P V A : Type} [DecidableEq ι]

/-- The threads with the commands they have still to do, the first of them begun if there
is something pending; and the commands that have ended, with their answers. -/
structure Sys (ι S L C P V A : Type) where
  shared : S
  own : ι → L
  todo : ι → List C
  pending : ι → Option (V × P)
  log : List (ι × C × A)

namespace TwoPhase

variable (t : TwoPhase S L C P V A)

def exec (c : C) (s : S) (l : L) : A × S × L :=
  match t.start c s l with
  | .inl (a, l') => (a, s, l')
  | .inr p => t.finish c s p

/-- A command of a thread has ended. -/
def ended (x : Sys ι S L C P V A) (i : ι) (c : C) (rest : List C) (r : A × S × L) :
    Sys ι S L C P V A where
  shared := r.2.1
  own := update x.own i r.2.2
  todo := update x.todo i rest
  pending := update x.pending i none
  log := x.log ++ [(i, c, r.1)]

/-- The next phase of a thread. -/
def step (x : Sys ι S L C P V A) (i : ι) : Sys ι S L C P V A :=
  match x.todo i with
  | [] => x
  | c :: rest =>
    match x.pending i with
    | none =>
      match t.start c x.shared (x.own i) with
      | .inl (a, l) => ended x i c rest (a, x.shared, l)
      | .inr p => { x with pending := update x.pending i (some (t.view c x.shared, p)) }
    | some (_, p) => ended x i c rest (t.finish c x.shared p)

def init (s : S) (own : ι → L) (prog : ι → List C) : Sys ι S L C P V A :=
  ⟨s, own, prog, fun _ => none, []⟩

def run (x : Sys ι S L C P V A) : List ι → Sys ι S L C P V A
  | [] => x
  | i :: sched => run (t.step x i) sched

/-- If the thread comes to a second phase, it would find in the first what it has found. -/
def Fresh (x : Sys ι S L C P V A) (i : ι) : Prop :=
  ∀ c rest v p, x.todo i = c :: rest → x.pending i = some (v, p) → t.view c x.shared = v

def FreshRun (x : Sys ι S L C P V A) : List ι → Prop
  | [] => True
  | i :: sched => t.Fresh x i ∧ FreshRun (t.step x i) sched

/-- Commands one after another, with their answers, from one state to another; `E` holds of
each command, its answer and the shared state before and after it. -/
def Serial (E : C → A → S → S → Prop) : S → (ι → L) → List (ι × C × A) → S → (ι → L) → Prop
  | s, own, [], s', own' => s' = s ∧ own' = own
  | s, own, (i, c, a) :: log, s', own' =>
    let r := t.exec c s (own i)
    r.1 = a ∧ E c a s r.2.1 ∧ Serial E r.2.1 (update own i r.2.2) log s' own'

variable {t} {E : C → A → S → S → Prop}

theorem Serial.concat {log : List (ι × C × A)} {s s' : S} {own own' : ι → L}
    (h : t.Serial E s own log s' own') (i : ι) (c : C)
    (hE : E c (t.exec c s' (own' i)).1 s' (t.exec c s' (own' i)).2.1) :
    t.Serial E s own (log ++ [(i, c, (t.exec c s' (own' i)).1)]) (t.exec c s' (own' i)).2.1
      (update own' i (t.exec c s' (own' i)).2.2) := by
  induction log generalizing s own with
  | nil =>
    obtain ⟨rfl, rfl⟩ := h
    exact ⟨rfl, hE, rfl, rfl⟩
  | cons e log ih =>
    obtain ⟨h1, h2, h3⟩ := h
    exact ⟨h1, h2, ih h3⟩

def ofThread (log : List (ι × C × A)) (i : ι) : List C :=
  (log.filter fun e => e.1 = i).map fun e => e.2.1

theorem ofThread_concat (log : List (ι × C × A)) (i : ι) (c : C) (a : A) (j : ι) :
    ofThread (log ++ [(i, c, a)]) j = ofThread log j ++ if i = j then [c] else [] := by
  by_cases h : i = j <;> simp [ofThread, List.filter_append, h]

/-- The first phase depends on the view only, the command in one go does `E`, and it keeps
the state of its thread as it has to be. -/
structure Lawful (t : TwoPhase S L C P V A) (E : C → A → S → S → Prop) (Ok : L → Prop) (c : C) :
    Prop where
  congr : ∀ {s s' l}, Ok l → t.view c s = t.view c s' → t.start c s l = t.start c s' l
  does : ∀ s {l}, Ok l → E c (t.exec c s l).1 s (t.exec c s l).2.1
  ok : ∀ s {l}, Ok l → Ok (t.exec c s l).2.2

variable {i : ι}

omit [DecidableEq ι] in
theorem fresh_of_none {x : Sys ι S L C P V A} (h : x.pending i = none) : t.Fresh x i := by
  intro c rest v p _ hp
  rw [h] at hp
  cases hp

theorem fresh_step {x : Sys ι S L C P V A} (h : x.pending i = none) : t.Fresh (t.step x i) i := by
  rw [step]
  split
  · exact fresh_of_none h
  · rename_i c rest htodo
    rw [h]
    dsimp only
    split
    · exact fresh_of_none (update_self ..)
    · intro c' rest' v p htodo' hp
      dsimp only at htodo' hp ⊢
      rw [update_self] at hp
      obtain ⟨rfl, -⟩ := Prod.mk.inj (Option.some.inj hp)
      rw [htodo] at htodo'
      rw [(List.cons.inj htodo').1]

theorem step_pending_of_ne (x : Sys ι S L C P V A) {j : ι} (h : j ≠ i) :
    (t.step x i).pending j = x.pending j := by
  rw [step]
  split
  · rfl
  · split
    · split
      · exact update_of_ne h ..
      · exact update_of_ne h ..
    · exact update_of_ne h ..

/-- What holds along a run: the commands that have ended did so one after another, and a
command that has begun would begin the same way wherever its view is the same. -/
structure Inv (t : TwoPhase S L C P V A) (E : C → A → S → S → Prop) (Ok : L → Prop) (s : S)
    (own : ι → L) (prog : ι → List C) (x : Sys ι S L C P V A) : Prop where
  serial : t.Serial E s own x.log x.shared x.own
  order : ∀ i, ofThread x.log i ++ x.todo i = prog i
  ok : ∀ i, Ok (x.own i)
  begun : ∀ i v p, x.pending i = some (v, p) → ∃ c rest, x.todo i = c :: rest ∧
    ∀ s', t.view c s' = v → t.start c s' (x.own i) = .inr p

variable {Ok : L → Prop} {s : S} {own : ι → L} {prog : ι → List C} {x : Sys ι S L C P V A}

theorem inv_init (hok : ∀ i, Ok (own i)) : Inv t E Ok s own prog (init s own prog) :=
  ⟨⟨rfl, rfl⟩, fun _ => rfl, hok, fun _ _ _ h => nomatch h⟩

theorem Inv.ended (h : Inv t E Ok s own prog x) {c : C} {rest : List C}
    (htodo : x.todo i = c :: rest) (hc : t.Lawful E Ok c) :
    Inv t E Ok s own prog (TwoPhase.ended x i c rest (t.exec c x.shared (x.own i))) := by
  refine ⟨h.serial.concat i c (hc.does _ (h.ok i)), fun j => ?_, fun j => ?_, fun j v p hp => ?_⟩
  · rw [TwoPhase.ended, ofThread_concat, ← h.order j]
    grind
  · rw [TwoPhase.ended]
    by_cases hj : j = i
    · subst hj
      simpa using hc.ok x.shared (h.ok j)
    · simpa [hj] using h.ok j
  · rw [TwoPhase.ended] at hp ⊢
    by_cases hj : j = i
    · subst hj
      simp at hp
    · simp only [update_of_ne hj] at hp ⊢
      exact h.begun j v p hp

/-- A phase keeps the invariant if what it has found is fresh. -/
theorem Inv.step (h : Inv t E Ok s own prog x) (i : ι) (hlaw : ∀ c ∈ prog i, t.Lawful E Ok c)
    (hf : t.Fresh x i) : Inv t E Ok s own prog (t.step x i) := by
  rw [TwoPhase.step]
  split
  · exact h
  · rename_i c rest htodo
    have hc : t.Lawful E Ok c := hlaw c (by rw [← h.order i, htodo]; simp)
    split
    · split
      · rename_i a l hstart
        have hexec : t.exec c x.shared (x.own i) = (a, x.shared, l) := by rw [exec, hstart]
        rw [← hexec]
        exact h.ended htodo hc
      · rename_i p hstart
        refine ⟨h.serial, h.order, h.ok, fun j v q hq => ?_⟩
        by_cases hj : j = i
        · subst hj
          simp only [update_self, Option.some.injEq, Prod.mk.injEq] at hq
          obtain ⟨rfl, rfl⟩ := hq
          refine ⟨c, rest, htodo, fun s' hv => ?_⟩
          rw [hc.congr (h.ok j) hv, hstart]
        · simp only [update_of_ne hj] at hq
          exact h.begun j v q hq
    · rename_i v p hpend
      obtain ⟨c', rest', htodo', hbegun⟩ := h.begun i v p hpend
      rw [htodo] at htodo'
      obtain ⟨rfl, rfl⟩ := List.cons.inj htodo'
      have hexec : t.exec c x.shared (x.own i) = t.finish c x.shared p := by
        rw [exec, hbegun x.shared (hf c rest v p htodo hpend)]
      rw [← hexec]
      exact h.ended htodo hc

/-- What holds along a run in which every thread finds again what it has found. -/
theorem Inv.run (h : Inv t E Ok s own prog x) {sched : List ι}
    (hlaw : ∀ i, ∀ c ∈ prog i, t.Lawful E Ok c) (hf : t.FreshRun x sched) :
    Inv t E Ok s own prog (t.run x sched) := by
  induction sched generalizing x with
  | nil => exact h
  | cons i sched ih => exact ih (h.step i (hlaw i) hf.1) hf.2

end TwoPhase
end Phases
