import Mathlib.Algebra.Group.Nat.Defs
import Mathlib.Algebra.Group.Int.Defs
import Mathlib.Logic.Function.Basic
import Mathlib.Data.List.Nodup

/-! The segment allocator (`allocator.c`) under the streams of a controller
(`SalsaCtlr.cc`), as threads run it in steps: a step is one round of a loop under the
lock of the staging queue, one atomic operation on a counter, or one operation on a
queue.

The ranges handed out, released and given up and the segments passed on are recorded
in the state for each incarnation of a segment, that is each time it is taken from the
free segments. -/

namespace UDepot.Allocator
open Function

/-- What a controller hands its allocators. That a segment has room behind the reserved
grains and its size fits an `int` is asserted in `allocator_allocate_segment`. -/
structure Ctlr where
  segSize : Nat
  reservedPerSeg : Nat
  maxCapacity : Nat
  reserved_lt : reservedPerSeg < segSize
  size_lt : segSize < 2 ^ 31

def Ctlr.dataGrains (c : Ctlr) : Nat := c.segSize - c.reservedPerSeg

/-- Grains of a segment, by their offset in it, in one of its incarnations. -/
structure Range where
  life : Nat
  off : Nat
  len : Nat
  deriving DecidableEq, Repr

def Range.Apart (r r' : Range) : Prop :=
  r.len = 0 ∨ r'.len = 0 ∨ r.off + r.len ≤ r'.off ∨ r'.off + r'.len ≤ r.off

instance (r r' : Range) : Decidable (r.Apart r') := by unfold Range.Apart; infer_instance

/-- A segment: the grains handed out, the reserved ones included (`nr3`), those not yet
released (`nr4`), and its history. -/
structure Seg where
  nr3 : Nat
  nr4 : Int
  life : Nat
  handed : List Range
  gone : List Range
  passed : List Nat
  destaged : List Nat
  deriving DecidableEq, Repr

/-- Where a thread is. In `walk`, `recycled` and `drained` it holds the lock of the
staging queue. -/
inductive Pc where
  | idle
  | walk (a len : Nat)
  | recycled (a len p : Nat)
  | allocSeg (a len : Nat)
  | newSeg (a len p : Nat)
  | relock (a len : Nat)
  | drained (a p : Nat)
  | released (a p : Nat)
  deriving DecidableEq, Repr

structure State where
  seg : Nat → Seg
  stage : Nat → List Nat
  done : Nat → List Nat
  lock : Nat → Option Nat
  allocating : Nat → Bool
  free : List Nat
  gc : List Nat
  used : Nat
  pc : Nat → Pc

/-- The answers of `scm_get_free_seg` and the calls are what the environment decides. -/
inductive Act where
  | allocateGrains (a len : Nat)
  | walk
  | passOn
  | allocateSegment (p : Option Nat)
  | stage
  | relock
  | drain (a : Nat)
  | release (a p : Nat) (r : Range)
  | destage (a : Nat)
  | putFreeSeg (p : Nat)
  | invalidate (len : Nat)
  deriving DecidableEq, Repr

/-- `allocator_seg_next_range`: the index and the next cursor. The cursor is changed under
the lock of the staging queue, or before the segment is in it. -/
def segNextRange (segSize nr3 len : Nat) : Option (Nat × Nat) :=
  let next := (nr3 + len) % 2 ^ 64
  if segSize ≤ nr3 ∨ segSize < next then none else some (nr3, next)

/-- `os_atomic32_sub_return`. -/
def subReturn (x : Int) (n : Nat) : Int := (x - n).bmod (2 ^ 32)

namespace State

variable (c : Ctlr) (s : State)

def setPc (t : Nat) (pc : Pc) : State := { s with pc := update s.pc t pc }

def setLock (a : Nat) (o : Option Nat) : State := { s with lock := update s.lock a o }

def setSeg (p : Nat) (x : Seg) : State := { s with seg := update s.seg p x }

def setStage (a : Nat) (ps : List Nat) : State := { s with stage := update s.stage a ps }

def setAllocating (a : Nat) (b : Bool) : State :=
  { s with allocating := update s.allocating a b }

/-- `unprovision_grains`. -/
def unprovision (len : Nat) : State :=
  { s with used := (s.used + (2 ^ 64 - len % 2 ^ 64)) % 2 ^ 64 }

def giveBack (p : Nat) (r : Range) : State :=
  let x := s.seg p
  s.setSeg p { x with nr4 := subReturn x.nr4 r.len, gone := r :: x.gone }

def rest (p : Nat) : Range :=
  let x := s.seg p
  ⟨x.life, x.nr3 - c.reservedPerSeg, c.segSize - x.nr3⟩

/-- Put a segment on `done_fifo`. -/
def enqueueDone (a p : Nat) : State :=
  let x := s.seg p
  { s.setSeg p { x with passed := x.life :: x.passed } with
    done := update s.done a (s.done a ++ [p]) }

/-- One round of the loop of `allocator_allocate_grains`, and what follows it. -/
def walk (t a len : Nat) : State :=
  match s.stage a with
  | p :: ps =>
    match segNextRange c.segSize (s.seg p).nr3 len with
    | some (idx, next) =>
      let x := s.seg p
      let s1 := s.setSeg p { x with
        nr3 := next
        handed := ⟨x.life, idx - c.reservedPerSeg, len⟩ :: x.handed }
      let s2 := if c.segSize = (idx + len) % 2 ^ 64 then s1.setStage a ps else s1
      (s2.setLock a none).setPc t .idle
    | none =>
      let s1 := (s.setStage a ps).giveBack p (s.rest c p)
      if (s1.seg p).nr4 = 0 then s1.setPc t (.recycled a len p) else s1
  | [] =>
    if s.allocating a then ((s.setLock a none).unprovision len).setPc t .idle
    else ((s.setAllocating a true).setLock a none).setPc t (.allocSeg a len)

/-- `allocator_drain_remaining_grains`. -/
def drain (t a : Nat) : State :=
  match s.stage a with
  | p :: ps =>
    let s1 := (s.setStage a ps).giveBack p (s.rest c p)
    if (s1.seg p).nr4 = 0 then (s1.setLock a (some t)).setPc t (.drained a p) else s1
  | [] => s

/-- `allocator_allocate_segment` up to the enqueueing, with the segment it gets. -/
def allocateSegment (t a len p : Nat) : State :=
  let x := s.seg p
  ({ s with free := s.free.erase p }.setSeg p { x with
    nr3 := c.reservedPerSeg
    nr4 := c.segSize - c.reservedPerSeg
    life := x.life + 1 }).setPc t (.newSeg a len p)

/-- `allocator_release_grains`. -/
def release (t a p : Nat) (r : Range) : State :=
  let s1 := s.giveBack p r
  if (s1.seg p).nr4 = 0 then s1.setPc t (.released a p) else s1

/-- What a caller may release: grains handed out and not released before. -/
def MayRelease (p : Nat) (r : Range) : Prop :=
  r.life = (s.seg p).life ∧
    (∃ h ∈ (s.seg p).handed, h.life = r.life ∧ h.off ≤ r.off ∧ r.off + r.len ≤ h.off + h.len) ∧
    ∀ g ∈ (s.seg p).gone, g.life = r.life → g.Apart r

instance (p : Nat) (r : Range) : Decidable (s.MayRelease p r) := by
  unfold MayRelease; infer_instance

/-- One step of thread `t`. A length that `allocate_grains_no_wait` refuses, or for which
there is no capacity, has no effect. -/
def step (t : Nat) : Act → Option State
  | .allocateGrains a len =>
    if s.pc t = .idle ∧ s.lock a = none ∧ (len + c.reservedPerSeg) % 2 ^ 64 ≤ c.segSize ∧
        (s.used + len) % 2 ^ 64 ≤ c.maxCapacity then
      some (({ s with used := (s.used + len) % 2 ^ 64 }.setLock a (some t)).setPc t (.walk a len))
    else none
  | .walk =>
    match s.pc t with
    | .walk a len => some (s.walk c t a len)
    | _ => none
  | .passOn =>
    match s.pc t with
    | .recycled a len p => some ((s.enqueueDone a p).setPc t (.walk a len))
    | .drained a p => some (((s.enqueueDone a p).setLock a none).setPc t .idle)
    | .released a p => some ((s.enqueueDone a p).setPc t .idle)
    | _ => none
  | .allocateSegment o =>
    match s.pc t, o with
    | .allocSeg a len, none =>
      some (((s.setAllocating a false).unprovision len).setPc t .idle)
    | .allocSeg a len, some p => if p ∈ s.free then some (s.allocateSegment c t a len p) else none
    | _, _ => none
  | .stage =>
    match s.pc t with
    | .newSeg a len p =>
      if s.lock a = none then some ((s.setStage a (s.stage a ++ [p])).setPc t (.relock a len))
      else none
    | _ => none
  | .relock =>
    match s.pc t with
    | .relock a len =>
      if s.lock a = none then
        some (((s.setLock a (some t)).setAllocating a false).setPc t (.walk a len))
      else none
    | _ => none
  | .drain a => if s.pc t = .idle ∧ s.lock a = none then some (s.drain c t a) else none
  | .release a p r => if s.pc t = .idle ∧ s.MayRelease p r then some (s.release t a p r) else none
  -- the thread of the allocator
  | .destage a =>
    match s.done a with
    | p :: ps =>
      let x := s.seg p
      some { s.setSeg p { x with destaged := x.life :: x.destaged } with
        done := update s.done a ps
        gc := s.gc ++ [p] }
    | [] => none
  -- the collector
  | .putFreeSeg p =>
    if p ∈ s.gc then some { s with gc := s.gc.erase p, free := s.free ++ [p] } else none
  | .invalidate len => some (s.unprovision len)

end State

/-- A controller that starts with the free segments `ps`. -/
def init (ps : List Nat) : State where
  seg _ := ⟨0, 0, 0, [], [], [], []⟩
  stage _ := []
  done _ := []
  lock _ := none
  allocating _ := false
  free := ps
  gc := []
  used := 0
  pc _ := .idle

/-- Every grain of the incarnation has been released or given up. -/
def Seg.Covered (c : Ctlr) (x : Seg) (l : Nat) : Prop :=
  ∀ off < c.dataGrains, ∃ r ∈ x.gone, r.life = l ∧ r.off ≤ off ∧ off < r.off + r.len

/-- The segment a thread is about to put on `done_fifo`. -/
def Pc.passing : Pc → List Nat
  | .recycled _ _ p => [p]
  | .drained _ p => [p]
  | .released _ p => [p]
  | _ => []

/-- Ranges of one incarnation are disjoint and in front of the metadata; each incarnation is
passed on at most once, and that it is, or is about to be, is that all its grains are
released or given up; what is passed on reaches the collector once, or is in a queue. -/
structure Exclusive (c : Ctlr) (s : State) : Prop where
  apart : ∀ p, (s.seg p).handed.Pairwise fun r r' => r.life = r'.life → r.Apart r'
  inside : ∀ p, ∀ r ∈ (s.seg p).handed, r.off + r.len ≤ c.dataGrains
  once : ∀ p, (s.seg p).passed.Nodup ∧ (s.seg p).destaged.Nodup
  exactly : ∀ p l, 1 ≤ l → l ≤ (s.seg p).life →
    ((s.seg p).Covered c l ↔
      l ∈ (s.seg p).passed ∨ l = (s.seg p).life ∧ ∃ t, p ∈ (s.pc t).passing)
  pending : ∀ p t, p ∈ (s.pc t).passing → (s.seg p).life ∉ (s.seg p).passed ∧
    ∀ t', p ∈ (s.pc t').passing → t' = t
  reaches : ∀ p l, l ∈ (s.seg p).passed ↔
    l ∈ (s.seg p).destaged ∨ l = (s.seg p).life ∧ ∃ a, p ∈ s.done a

end UDepot.Allocator
