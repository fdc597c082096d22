import UDepot.Store
import Mathlib.Logic.Relation

/-! The timestamps of the segments of the store (`seg_md_callback`). The callback of the
controller increments the shared count `seg_alloc_nr_` and calls that of the store, which
reads the count again and writes it to the segment's metadata. Streams run their callbacks
concurrently; the directory writes metadata of its own over that of segments it takes; a
restart sets the count to the largest timestamp in the metadata of a segment of the store. -/

namespace UDepot.Timestamps
open Function List Option

/-- Where a thread is in the allocation of segment `p`. -/
inductive Pc where
  | idle
  | incremented (p : Nat)
  | stamped (p ts : Nat)
  | written (p ts : Nat)
  deriving DecidableEq, Repr

/-- A segment that got its timestamp, with the timestamps of the segments whose allocation
was complete when its metadata was written. -/
structure Stamp where
  seg : Nat
  ts : Nat
  before : List Nat
  deriving DecidableEq, Repr

/-- The count, the metadata on the device, the threads, and the stamps and completed
allocations since the store was created. -/
structure State where
  segAllocNr : Nat
  segMd : Nat → Option SegMd
  pc : Nat → Pc
  stamps : List Stamp
  done : List Nat

inductive Act where
  | incSegAllocNr (p : Nat)
  | getSegAllocNr
  | persistSegMd
  | complete
  | dirAllocate (p size : Nat)
  | restart
  deriving DecidableEq, Repr

def init : State := ⟨0, fun _ => none, fun _ => .idle, [], []⟩

/-- The metadata that recovery takes for that of a segment of the store. -/
def kvTimestamp : Option SegMd → Nat
  | some ⟨.kv, ts⟩ => ts
  | _ => 0

/-- `max_seg_alloc_nr` of `restore` and `crash_recovery`. -/
def maxSegAllocNr (segMd : Nat → Option SegMd) : Nat → Nat
  | 0 => 0
  | n + 1 => max (maxSegAllocNr segMd n) (kvTimestamp (segMd n))

def State.setPc (s : State) (t : Nat) (pc : Pc) : State := { s with pc := update s.pc t pc }

/-- One step of thread `t`, over a device of `segNr` segments. -/
def State.step (segNr : Nat) (s : State) (t : Nat) : Act → Option State
  | .incSegAllocNr p =>
    if s.pc t = .idle ∧ p < segNr then
      some ({ s with segAllocNr := (s.segAllocNr + 1) % 2 ^ 64 }.setPc t (.incremented p))
    else none
  | .getSegAllocNr =>
    match s.pc t with
    | .incremented p => some (s.setPc t (.stamped p s.segAllocNr))
    | _ => none
  | .persistSegMd =>
    match s.pc t with
    | .stamped p ts =>
      some ({ s with
        segMd := update s.segMd p (some ⟨.kv, ts⟩)
        stamps := ⟨p, ts, s.done⟩ :: s.stamps }.setPc t (.written p ts))
    | _ => none
  | .complete =>
    match s.pc t with
    | .written _ ts => some ({ s with done := ts :: s.done }.setPc t .idle)
    | _ => none
  | .dirAllocate p size =>
    if p < segNr then
      some { s with segMd := update s.segMd p (some ⟨.directory, size⟩) }
    else none
  | .restart => some { s with segAllocNr := maxSegAllocNr s.segMd segNr, pc := fun _ => .idle }

/-- No timestamp is given twice, and a segment whose metadata is written after the allocation
of another was complete has the larger one. -/
structure Ordered (xs : List Stamp) : Prop where
  distinct : (xs.map Stamp.ts).Nodup
  after : ∀ x ∈ xs, ∀ ts ∈ x.before, ts < x.ts

/-- In the callback, and not through with the metadata. -/
def Pc.inCallback : Pc → Bool
  | .incremented _ | .stamped _ _ => true
  | _ => false

/-- No callback starts while another one runs, and the count does not wrap; at a restart the
largest timestamp given so far is in the metadata of a segment of the store. -/
def StepOk (segNr : Nat) (s : State) : Act → Prop
  | .incSegAllocNr _ => (∀ t, (s.pc t).inCallback = false) ∧ s.segAllocNr + 1 < 2 ^ 64
  | .restart => ∀ x ∈ s.stamps, x.ts ≤ maxSegAllocNr s.segMd segNr
  | _ => True

def OkStep (segNr : Nat) (s s' : State) : Prop :=
  ∃ t act, StepOk segNr s act ∧ s.step segNr t act = some s'

/-! ## Runs -/

structure Inv (s : State) : Prop where
  ordered : Ordered s.stamps
  le : ∀ x ∈ s.stamps, x.ts ≤ s.segAllocNr
  alone : ∀ t t', (s.pc t).inCallback = true → (s.pc t').inCallback = true → t = t'
  ahead : ∀ t, (s.pc t).inCallback = true → ∀ x ∈ s.stamps, x.ts < s.segAllocNr
  stamped : ∀ t p ts, s.pc t = .stamped p ts → ts = s.segAllocNr
  written : ∀ t p ts, s.pc t = .written p ts → ts ∈ s.stamps.map Stamp.ts
  done : ∀ ts ∈ s.done, ts ∈ s.stamps.map Stamp.ts

section Steps

variable {segNr : Nat} {s s' : State} {t p ts : Nat} {w : Pc}

theorem setPc_cases (s : State) (t : Nat) (w : Pc) (b : Nat) : (b = t ∧ (s.setPc t w).pc b = w) ∨
    (b ≠ t ∧ (s.setPc t w).pc b = s.pc b) := by
  by_cases h : b = t
  · subst h
    exact .inl ⟨rfl, update_self _ _ _⟩
  · exact .inr ⟨h, update_of_ne h _ _⟩

theorem Inv.increment (i : Inv s) (hfree : ∀ t, (s.pc t).inCallback = false)
    (hlt : s.segAllocNr + 1 < 2 ^ 64) :
    Inv ({ s with segAllocNr := (s.segAllocNr + 1) % 2 ^ 64 }.setPc t (.incremented p)) := by
  rw [Nat.mod_eq_of_lt hlt]
  have hbusy : ∀ b, ((({ s with segAllocNr := s.segAllocNr + 1 } : State).setPc t
      (.incremented p)).pc b).inCallback = true → b = t := by
    intro b hb
    rcases setPc_cases { s with segAllocNr := s.segAllocNr + 1 } t (.incremented p) b with
      ⟨h, _⟩ | ⟨_, h⟩
    · exact h
    · rw [h] at hb
      have := hfree b
      simp_all
  refine ⟨i.ordered, fun x hx => Nat.le_succ_of_le (i.le x hx), ?_, ?_, ?_, ?_, i.done⟩
  · intro b b' hb hb'
    rw [hbusy b hb, hbusy b' hb']
  · exact fun b _ x hx => Nat.lt_succ_of_le (i.le x hx)
  · intro b q ts' hb
    rcases setPc_cases { s with segAllocNr := s.segAllocNr + 1 } t (.incremented p) b with
      ⟨_, h⟩ | ⟨_, h⟩
    · rw [h] at hb
      cases hb
    · rw [h] at hb
      have := hfree b
      rw [hb] at this
      cases this
  · intro b q ts' hb
    rcases setPc_cases { s with segAllocNr := s.segAllocNr + 1 } t (.incremented p) b with
      ⟨_, h⟩ | ⟨_, h⟩
    · rw [h] at hb
      cases hb
    · rw [h] at hb
      exact i.written b q ts' hb

theorem Inv.read (i : Inv s) (hpc : s.pc t = .incremented p) :
    Inv (s.setPc t (.stamped p s.segAllocNr)) := by
  have hin : (s.pc t).inCallback = true := by rw [hpc]; rfl
  have hbusy : ∀ b, ((s.setPc t (.stamped p s.segAllocNr)).pc b).inCallback = true →
      (s.pc b).inCallback = true := by
    intro b hb
    rcases setPc_cases s t (.stamped p s.segAllocNr) b with ⟨rfl, _⟩ | ⟨_, h⟩
    · exact hin
    · rwa [h] at hb
  refine ⟨i.ordered, i.le, fun b b' hb hb' => i.alone b b' (hbusy b hb) (hbusy b' hb'),
    fun b hb => i.ahead b (hbusy b hb), ?_, ?_, i.done⟩
  · intro b q ts' hb
    rcases setPc_cases s t (.stamped p s.segAllocNr) b with ⟨_, h⟩ | ⟨_, h⟩
    · rw [h] at hb
      cases hb
      rfl
    · rw [h] at hb
      exact i.stamped b q ts' hb
  · intro b q ts' hb
    rcases setPc_cases s t (.stamped p s.segAllocNr) b with ⟨_, h⟩ | ⟨_, h⟩
    · rw [h] at hb
      cases hb
    · rw [h] at hb
      exact i.written b q ts' hb

theorem Inv.persist (i : Inv s) (hpc : s.pc t = .stamped p ts) :
    Inv ({ s with
      segMd := update s.segMd p (some ⟨.kv, ts⟩)
      stamps := ⟨p, ts, s.done⟩ :: s.stamps }.setPc t (.written p ts)) := by
  have hin : (s.pc t).inCallback = true := by rw [hpc]; rfl
  have hts := i.stamped t p ts hpc
  have hlt : ∀ x ∈ s.stamps, x.ts < ts := fun x hx => hts ▸ i.ahead t hin x hx
  have hlt' : ∀ n ∈ s.stamps.map Stamp.ts, n < ts := by
    intro n hn
    obtain ⟨x, hx, rfl⟩ := mem_map.mp hn
    exact hlt x hx
  -- the thread was the only one in the callback and leaves it
  have hfree : ∀ b, ((update s.pc t (.written p ts)) b).inCallback = false := by
    intro b
    by_cases hb : b = t
    · subst hb
      rw [update_self]
      rfl
    · rw [update_of_ne hb]
      cases hc : (s.pc b).inCallback with
      | false => rfl
      | true => exact absurd (i.alone b t hc hin) hb
  have hnone : ∀ b, ((update s.pc t (.written p ts)) b).inCallback ≠ true := fun b => by
    simp [hfree b]
  refine ⟨⟨?_, ?_⟩, ?_, fun b _ hb => absurd hb (hnone b),
    fun b hb => absurd hb (hnone b), ?_, ?_, ?_⟩
  · exact nodup_cons.mpr ⟨fun hmem => absurd (hlt' ts hmem) (by omega), i.ordered.distinct⟩
  · intro x hx n hn
    rcases mem_cons.mp hx with rfl | hx
    · exact hlt' n (i.done n hn)
    · exact i.ordered.after x hx n hn
  · intro x hx
    rcases mem_cons.mp hx with rfl | hx
    · exact hts.le
    · exact i.le x hx
  · intro b q n hb
    have := hfree b
    rw [show update s.pc t (.written p ts) b = .stamped q n from hb] at this
    cases this
  · intro b q n hb
    by_cases hbt : b = t
    · subst hbt
      have hw : Pc.written p ts = .written q n := (update_self b _ s.pc).symm.trans hb
      cases hw
      exact mem_cons_self
    · have hold : s.pc b = .written q n := (update_of_ne hbt _ s.pc).symm.trans hb
      exact mem_cons_of_mem _ (i.written b q n hold)
  · exact fun n hn => mem_cons_of_mem _ (i.done n hn)

theorem Inv.complete (i : Inv s) (hpc : s.pc t = .written p ts) :
    Inv ({ s with done := ts :: s.done }.setPc t .idle) := by
  have hold : ∀ b w, w ≠ Pc.idle → update s.pc t .idle b = w → s.pc b = w := by
    intro b w hw hb
    grind
  have hbusy : ∀ b, (update s.pc t Pc.idle b).inCallback = true →
      (s.pc b).inCallback = true := by
    intro b hb
    rw [hold b _ (fun h => by rw [h] at hb; cases hb) rfl]
    exact hb
  refine ⟨i.ordered, i.le, fun b b' hb hb' => i.alone b b' (hbusy b hb) (hbusy b' hb'),
    fun b hb => i.ahead b (hbusy b hb), fun b q n hb => i.stamped b q n (hold b _ (by simp) hb),
    fun b q n hb => i.written b q n (hold b _ (by simp) hb), ?_⟩
  intro n hn
  rcases mem_cons.mp hn with rfl | hn
  · exact i.written t p n hpc
  · exact i.done n hn

theorem Inv.step (i : Inv s) {act : Act} (hok : StepOk segNr s act)
    (hs : s.step segNr t act = some s') : Inv s' := by
  cases act with
  | incSegAllocNr p =>
    simp only [State.step, ite_none_right_eq_some, some.injEq] at hs
    obtain ⟨_, rfl⟩ := hs
    exact i.increment hok.1 hok.2
  | getSegAllocNr =>
    cases hpc : s.pc t <;> simp only [State.step, hpc, reduceCtorEq, some.injEq] at hs
    subst hs
    exact i.read hpc
  | persistSegMd =>
    cases hpc : s.pc t <;> simp only [State.step, hpc, reduceCtorEq, some.injEq] at hs
    subst hs
    exact i.persist hpc
  | complete =>
    cases hpc : s.pc t <;> simp only [State.step, hpc, reduceCtorEq, some.injEq] at hs
    subst hs
    exact i.complete hpc
  | dirAllocate p size =>
    simp only [State.step, ite_none_right_eq_some, some.injEq] at hs
    obtain ⟨_, rfl⟩ := hs
    exact ⟨i.ordered, i.le, i.alone, i.ahead, i.stamped, i.written, i.done⟩
  | restart =>
    simp only [State.step, some.injEq] at hs
    subst hs
    exact ⟨i.ordered, hok, by simp [Pc.inCallback], by simp [Pc.inCallback], by simp, by simp,
      i.done⟩

end Steps

theorem init_inv : Inv init := by
  refine ⟨⟨by simp [init], by simp [init]⟩, by simp [init], ?_, ?_, ?_, ?_, by simp [init]⟩ <;>
    simp [init, Pc.inCallback]

/-- In every run, restarts included, whose callbacks do not overlap and whose restarts find the
largest timestamp, the timestamps are distinct and follow the allocations. -/
theorem run_ordered {segNr : Nat} {s : State} (hr : Relation.ReflTransGen (OkStep segNr) init s) :
    Ordered s.stamps := by
  have hinv : Inv s := by
    induction hr with
    | refl => exact init_inv
    | tail _ hs ih =>
      obtain ⟨t, act, hok, hs⟩ := hs
      exact ih.step hok hs
  exact hinv.ordered

def exec (segNr : Nat) (s : State) : List (Nat × Act) → Option State
  | [] => some s
  | (t, act) :: rest => (s.step segNr t act).bind fun s1 => exec segNr s1 rest

/-- Thread `t` runs the callback for segment `p` to its end. -/
def allocate (t p : Nat) : List (Nat × Act) :=
  [(t, .incSegAllocNr p), (t, .getSegAllocNr), (t, .persistSegMd), (t, .complete)]

/-- A callback that no other overlaps meets the condition, and does to the count and the
metadata what the store takes it to do. -/
theorem allocate_run {segNr : Nat} {s : State} (hfree : ∀ t, s.pc t = .idle)
    (hlt : s.segAllocNr + 1 < 2 ^ 64) {t p : Nat} (hp : p < segNr) :
    ∃ s', exec segNr s (allocate t p) = some s' ∧ Relation.ReflTransGen (OkStep segNr) s s' ∧
      (∀ t, s'.pc t = .idle) ∧ s'.segAllocNr = s.segAllocNr + 1 ∧
      s'.segMd = update s.segMd p (some ⟨.kv, s.segAllocNr + 1⟩) ∧
      s'.stamps = ⟨p, s.segAllocNr + 1, s.done⟩ :: s.stamps ∧
      s'.done = (s.segAllocNr + 1) :: s.done := by
  have hfree' : ∀ t, (s.pc t).inCallback = false := fun t => by rw [hfree t]; rfl
  let s1 : State := { s with segAllocNr := s.segAllocNr + 1 }.setPc t (.incremented p)
  let s2 : State := s1.setPc t (.stamped p (s.segAllocNr + 1))
  let s3 : State := { s2 with
    segMd := update s.segMd p (some ⟨.kv, s.segAllocNr + 1⟩)
    stamps := ⟨p, s.segAllocNr + 1, s.done⟩ :: s.stamps }.setPc t (.written p (s.segAllocNr + 1))
  let s4 : State := { s3 with done := (s.segAllocNr + 1) :: s.done }.setPc t .idle
  have h1 : s.step segNr t (.incSegAllocNr p) = some s1 := by
    rw [State.step, if_pos ⟨hfree t, hp⟩, Nat.mod_eq_of_lt hlt]
  have h2 : s1.step segNr t .getSegAllocNr = some s2 := by
    rw [State.step, show s1.pc t = .incremented p from update_self _ _ _]
    rfl
  have h3 : s2.step segNr t .persistSegMd = some s3 := by
    rw [State.step, show s2.pc t = .stamped p _ from update_self _ _ _]
    rfl
  have h4 : s3.step segNr t .complete = some s4 := by
    rw [State.step, show s3.pc t = .written p _ from update_self _ _ _]
    rfl
  refine ⟨s4, by simp [allocate, exec, h1, h2, h3, h4], ?_, fun b => ?_, rfl, rfl, rfl, rfl⟩
  · exact .head ⟨t, .incSegAllocNr p, ⟨hfree', hlt⟩, h1⟩ (.head ⟨t, .getSegAllocNr, trivial, h2⟩
      (.head ⟨t, .persistSegMd, trivial, h3⟩ (.head ⟨t, .complete, trivial, h4⟩ .refl)))
  · by_cases hb : b = t
    · subst hb
      exact update_self _ _ _
    · simp [s4, s3, s2, s1, State.setPc, update_of_ne hb, hfree b]

/-- Two segments, a restart, and a third one. -/
theorem restart_ordered : ∃ s, Relation.ReflTransGen (OkStep 4) init s ∧
    s.stamps = [⟨3, 3, [2, 1]⟩, ⟨2, 2, [1]⟩, ⟨1, 1, []⟩] ∧ Ordered s.stamps := by
  obtain ⟨s1, _, r1, f1, n1, m1, st1, d1⟩ := allocate_run (s := init) (t := 0) (p := 1)
    (fun _ => rfl) (by decide) (show 1 < 4 by decide)
  obtain ⟨s2, _, r2, f2, n2, m2, st2, d2⟩ := allocate_run (t := 1) (p := 2) f1 (by rw [n1]; decide)
    (show 2 < 4 by decide)
  rw [n1] at n2 m2 st2 d2
  rw [st1, d1] at st2
  rw [d1] at d2
  rw [m1] at m2
  have hmax : maxSegAllocNr s2.segMd 4 = 2 := by
    rw [m2]
    decide
  have hstep : OkStep 4 s2 { s2 with segAllocNr := 2, pc := fun _ => .idle } := by
    refine ⟨0, .restart, ?_, by rw [State.step, hmax]⟩
    rw [StepOk, st2, hmax]
    decide
  obtain ⟨s3, _, r3, _, _, _, st3, _⟩ := allocate_run (t := 0) (p := 3)
    (s := { s2 with segAllocNr := 2, pc := fun _ => .idle }) (fun _ => rfl)
    (show 2 + 1 < 2 ^ 64 by decide) (show 3 < 4 by decide)
  have hrun := ((r1.trans r2).tail hstep).trans r3
  rw [st2, d2] at st3
  exact ⟨s3, hrun, st3, run_ordered hrun⟩

/-- Both threads increment the count before either reads it. -/
def raceTrace : List (Nat × Act) :=
  [(0, .incSegAllocNr 1), (1, .incSegAllocNr 2), (0, .getSegAllocNr), (1, .getSegAllocNr),
    (0, .persistSegMd), (1, .persistSegMd)]

/-- Thread 0 writes its metadata after the later allocation of thread 1 is complete. -/
def lateTrace : List (Nat × Act) :=
  [(0, .incSegAllocNr 1), (0, .getSegAllocNr)] ++ allocate 1 2 ++ [(0, .persistSegMd)]

/-- The directory takes the segment with the largest timestamp before the restart. -/
def lostTrace : List (Nat × Act) :=
  allocate 0 1 ++ allocate 0 2 ++ [(0, .dirAllocate 2 1), (0, .restart)] ++ allocate 0 3

theorem timestamps_collide :
    (∃ s, exec 4 init raceTrace = some s ∧ s.stamps = [⟨2, 2, []⟩, ⟨1, 2, []⟩] ∧
      ¬ Ordered s.stamps) ∧
    (∃ s, exec 4 init lateTrace = some s ∧ s.stamps = [⟨1, 1, [2]⟩, ⟨2, 2, []⟩] ∧
      ¬ Ordered s.stamps) ∧
    ∃ s, exec 4 init lostTrace = some s ∧
      s.stamps = [⟨3, 2, [2, 1]⟩, ⟨2, 2, [1]⟩, ⟨1, 1, []⟩] ∧ ¬ Ordered s.stamps := by
  have hrun : ∀ trace xs, (exec 4 init trace).map State.stamps = some xs → ¬ Ordered xs →
      ∃ s, exec 4 init trace = some s ∧ s.stamps = xs ∧ ¬ Ordered s.stamps := by
    intro trace xs hmap hnot
    obtain ⟨s, hs, rfl⟩ := map_eq_some_iff.mp hmap
    exact ⟨s, hs, rfl, hnot⟩
  refine ⟨hrun _ _ (by decide) fun h => ?_, hrun _ _ (by decide) fun h => ?_,
    hrun _ _ (by decide) fun h => ?_⟩
  · exact absurd h.distinct (by decide)
  · exact absurd h.after (by decide)
  · exact absurd h.distinct (by decide)

end UDepot.Timestamps

/-- The callback of the store model is the one of a thread that runs it alone. -/
theorem UDepot.Store.segMdCallback_eq_allocate {c : Config} (s : Store c) {p : Nat}
    (hlt : s.segAllocNr + 1 < 2 ^ 64) (hp : p < c.segNr) :
    ∃ s', Timestamps.exec c.segNr ⟨s.segAllocNr, s.segMd, fun _ => .idle, [], []⟩
        (Timestamps.allocate 0 p) = some s' ∧
      s'.segAllocNr = (s.segMdCallback p .kv).segAllocNr ∧
      s'.segMd = (s.segMdCallback p .kv).segMd := by
  obtain ⟨s', hs, _, _, hnr, hmd, _⟩ := Timestamps.allocate_run
    (s := ⟨s.segAllocNr, s.segMd, fun _ => .idle, [], []⟩) (t := 0) (fun _ => rfl) hlt hp
  exact ⟨s', hs, hnr, hmd⟩
