import UDepot.CapacityPromise
import UDepot.Lib.Sums
import Mathlib.Data.Fintype.Basic
import Mathlib.Logic.Relation

/-! Admission by the used capacity (`Scm::provision_grains`, `Scm::unprovision_grains`) under the
allocations of a controller (`SalsaCtlr::allocate_grains`), as threads run them in steps. A step
is one atomic operation on the counter, or the answer of the allocator.

What the allocator and the collector answer is left open. The grains of successful allocations
are recorded in the state, and for each call the most of them that there were at an instant
during it. -/

namespace UDepot.Provision
open Function Relation

/-- An accepted capacity manager, and the grains a controller reserves in each segment. -/
structure Capacity where
  params : Scm.Params
  reservedPerSeg : Nat
  accepted : params.init = true

namespace Capacity

variable (p : Capacity)

def segSize : Nat := p.params.segmentSize

def maxCapacity : Nat := p.params.maxCapacity

def maxCapacityReloc : Nat := p.params.maxCapacityReloc

def limit (reloc : Bool) : Nat := if reloc then p.maxCapacityReloc else p.maxCapacity

theorem maxCapacityReloc_eq : p.maxCapacityReloc = p.maxCapacity + 2 * p.segSize := by
  have hseg := p.params.segmentSize_lt p.accepted
  have hcap : p.params.maxCapacity ≤ (2 ^ 64 - 1) / 1000 := by
    rw [Scm.Params.maxCapacity]
    exact Nat.div_le_div_right (Nat.le_pred_of_lt (Nat.mod_lt _ (by decide)))
  rw [maxCapacityReloc, maxCapacity, segSize, Scm.Params.maxCapacityReloc, Nat.mul_comm 2]
  exact Nat.mod_eq_of_lt (by omega)

theorem maxCapacity_le_limit (reloc : Bool) : p.maxCapacity ≤ p.limit reloc := by
  have := p.maxCapacityReloc_eq
  cases reloc
  · exact Nat.le_refl _
  · change p.maxCapacity ≤ p.maxCapacityReloc
    omega

theorem limit_le (reloc : Bool) : p.limit reloc ≤ p.maxCapacityReloc := by
  cases reloc
  · exact p.maxCapacity_le_limit true
  · exact Nat.le_refl _

end Capacity

/-- A call of `allocate_grains`, or of `allocate_grains_no_wait`, which does not try again. -/
structure Call where
  len : Nat
  reloc : Bool
  retry : Bool
  deriving DecidableEq, Repr

/-- Where a thread is. -/
inductive Pc where
  | idle
  /-- At the begin of `allocate_grains_no_wait`. -/
  | calling (c : Call)
  /-- It has added its length and found it too much. -/
  | refused (c : Call)
  /-- It has added its length and asks the allocator. -/
  | admitted (c : Call)
  /-- The allocator had no grains for it. -/
  | failed (c : Call)
  /-- In `allocator_wait_for_grains`. -/
  | waiting (c : Call)
  deriving DecidableEq, Repr

/-- What the thread has added to the counter for a call that has not returned. -/
def Pc.held : Pc → Nat
  | .refused c | .admitted c | .failed c => c.len
  | _ => 0

/-- The part of it that passed the comparison. -/
def Pc.passed : Pc → Nat
  | .admitted c | .failed c => c.len
  | _ => 0

/-- The part that passed the comparison for a user. -/
def Pc.passedUser : Pc → Nat
  | .admitted c | .failed c => if c.reloc then 0 else c.len
  | _ => 0

/-- An allocation refused with `ENOSPC`, with the most grains that were committed at an instant
during it. -/
structure Refusal where
  call : Call
  peak : Nat
  deriving DecidableEq, Repr

/-- `user` and `reloc` are the grains of successful allocations that are in use. -/
structure State (T : Type) where
  used : Nat
  user : Nat
  reloc : Nat
  pc : T → Pc
  peak : T → Nat
  refusals : List Refusal

inductive Act where
  | allocateGrains (c : Call)
  /-- `critical` is the answer of `gc_check_critical`. -/
  | provisionGrains (critical : Bool)
  | takeBack
  /-- The answer of `allocator_allocate_grains`. -/
  | allocatorAllocateGrains (ok : Bool)
  | unprovisionGrains
  | wake
  | invalidateGrains (len : Nat) (reloc : Bool)
  | restoreGrainRange (len : Nat)
  deriving DecidableEq, Repr

namespace State

variable {T : Type}

def init : State T := ⟨0, 0, 0, fun _ => .idle, fun _ => 0, []⟩

def committed (s : State T) : Nat := s.user + s.reloc

def pool (s : State T) (reloc : Bool) : Nat := if reloc then s.reloc else s.user

/-- `used_capacity_.fetch_add`. -/
def add (s : State T) (len : Nat) : State T := { s with used := (s.used + len) % 2 ^ 64 }

/-- `used_capacity_.fetch_sub`. -/
def sub (s : State T) (len : Nat) : State T :=
  { s with used := (s.used + (2 ^ 64 - len % 2 ^ 64)) % 2 ^ 64 }

/-- Grains come into use; every call under way sees it. -/
def commit (s : State T) (len : Nat) (reloc : Bool) : State T :=
  { s with
    user := if reloc then s.user else s.user + len
    reloc := if reloc then s.reloc + len else s.reloc
    peak := fun u => max (s.peak u) (s.committed + len) }

def drop (s : State T) (len : Nat) (reloc : Bool) : State T :=
  { s with
    user := if reloc then s.user else s.user - len
    reloc := if reloc then s.reloc - len else s.reloc }

variable [DecidableEq T] (p : Capacity) (s : State T)

def setPc (t : T) (w : Pc) : State T := { s with pc := update s.pc t w }

/-- Where `EAGAIN` takes a call. -/
def again (c : Call) : Pc := if c.retry then .waiting c else .idle

/-- `allocate_grains_no_wait` up to the comparison of `provision_grains`. -/
def provisionGrains (t : T) (c : Call) (critical : Bool) : State T :=
  if p.segSize < (c.len + p.reservedPerSeg) % 2 ^ 64 then s.setPc t .idle
  else if !c.reloc && critical then s.setPc t (again c)
  else if p.limit c.reloc < (s.used + c.len) % 2 ^ 64 then (s.add c.len).setPc t (.refused c)
  else (s.add c.len).setPc t (.admitted c)

/-- The call returns `ENOSPC`. -/
def takeBack (t : T) (c : Call) : State T :=
  { (s.sub c.len).setPc t .idle with refusals := ⟨c, s.peak t⟩ :: s.refusals }

/-- One step of thread `t`. An invalidation is of grains in use, and they count as in use until
the counter is lowered: what it does before concerns only the collector. -/
def step (t : T) : Act → Option (State T)
  | .allocateGrains c =>
    if s.pc t = .idle then
      some ({ s with peak := update s.peak t s.committed }.setPc t (.calling c))
    else none
  | .provisionGrains critical =>
    match s.pc t with
    | .calling c => some (s.provisionGrains p t c critical)
    | _ => none
  | .takeBack =>
    match s.pc t with
    | .refused c => some (s.takeBack t c)
    | _ => none
  | .allocatorAllocateGrains ok =>
    match s.pc t with
    | .admitted c =>
      some (if ok then (s.commit c.len c.reloc).setPc t .idle else s.setPc t (.failed c))
    | _ => none
  | .unprovisionGrains =>
    match s.pc t with
    | .failed c => some ((s.sub c.len).setPc t (again c))
    | _ => none
  | .wake =>
    match s.pc t with
    | .waiting c => some (s.setPc t (.calling { c with retry := false }))
    | _ => none
  | .invalidateGrains len reloc =>
    if s.pc t = .idle ∧ len ≤ s.pool reloc then some ((s.drop len reloc).sub len) else none
  -- the return code of `provision_grains` is asserted to be zero
  | .restoreGrainRange len =>
    if s.pc t = .idle ∧ (s.used + len) % 2 ^ 64 ≤ p.limit true then
      some ((s.commit len true).add len)
    else none

end State

/-- What a step can do, with the place the thread is at before it. -/
inductive Steps {T : Type} [DecidableEq T] (p : Capacity) (s : State T) (t : T) :
    Act → State T → Prop
  | call (c : Call) : s.pc t = .idle → Steps p s t (.allocateGrains c)
      ({ s with peak := update s.peak t s.committed }.setPc t (.calling c))
  | provision (c : Call) (critical : Bool) : s.pc t = .calling c →
      Steps p s t (.provisionGrains critical) (s.provisionGrains p t c critical)
  | takeBack (c : Call) : s.pc t = .refused c → Steps p s t .takeBack (s.takeBack t c)
  | granted (c : Call) : s.pc t = .admitted c →
      Steps p s t (.allocatorAllocateGrains true) ((s.commit c.len c.reloc).setPc t .idle)
  | failed (c : Call) : s.pc t = .admitted c →
      Steps p s t (.allocatorAllocateGrains false) (s.setPc t (.failed c))
  | unprovision (c : Call) : s.pc t = .failed c →
      Steps p s t .unprovisionGrains ((s.sub c.len).setPc t (State.again c))
  | wake (c : Call) : s.pc t = .waiting c →
      Steps p s t .wake (s.setPc t (.calling { c with retry := false }))
  | invalidate (len : Nat) (reloc : Bool) : len ≤ s.pool reloc →
      Steps p s t (.invalidateGrains len reloc) ((s.drop len reloc).sub len)
  | restore (len : Nat) : (s.used + len) % 2 ^ 64 ≤ p.limit true →
      Steps p s t (.restoreGrainRange len) ((s.commit len true).add len)

theorem steps_of_step {T : Type} [DecidableEq T] {p : Capacity} {s s' : State T} {t : T} {act : Act}
    (h : s.step p t act = some s') : Steps p s t act s' := by
  revert h
  fun_cases State.step p s t act with
  | case1 c hidle =>
    rintro ⟨⟩
    exact .call c hidle
  | case3 critical c hpc =>
    rintro ⟨⟩
    exact .provision c critical hpc
  | case5 c hpc =>
    rintro ⟨⟩
    exact .takeBack c hpc
  | case7 ok c hpc =>
    rintro ⟨⟩
    cases ok
    · exact .failed c hpc
    · exact .granted c hpc
  | case9 c hpc =>
    rintro ⟨⟩
    exact .unprovision c hpc
  | case11 c hpc =>
    rintro ⟨⟩
    exact .wake c hpc
  | case13 len reloc h =>
    rintro ⟨⟩
    exact .invalidate len reloc h.2
  | case15 len h =>
    rintro ⟨⟩
    exact .restore len h.2
  | _ => rintro ⟨⟩

/-! ## What a step does to the books -/

section Books

theorem Pc.passed_le_held (w : Pc) : w.passed ≤ w.held := by
  cases w <;> simp [Pc.passed, Pc.held]

theorem Pc.passedUser_le_held (w : Pc) : w.passedUser ≤ w.held := by
  cases w <;> simp [Pc.passedUser, Pc.held]
  all_goals split <;> omega

variable {T : Type} {p : Capacity} {s s' : State T} {t : T} {w : Pc} {len : Nat}

theorem State.sub_used (s : State T) (hlen : len ≤ s.used) (hfits : s.used < 2 ^ 64) :
    (s.sub len).used = s.used - len := by
  change (s.used + (2 ^ 64 - len % 2 ^ 64)) % 2 ^ 64 = s.used - len
  rw [Nat.mod_eq_of_lt (show len < 2 ^ 64 by omega),
    show s.used + (2 ^ 64 - len) = s.used - len + 2 ^ 64 by omega, Nat.add_mod_right]
  exact Nat.mod_eq_of_lt (by omega)

theorem State.commit_committed (s : State T) (len : Nat) (reloc : Bool) :
    (s.commit len reloc).committed = s.committed + len := by
  cases reloc
  · exact Nat.add_right_comm _ _ _
  · exact (Nat.add_assoc _ _ _).symm

variable [Fintype T]

def State.inFlight (s : State T) : Nat := ∑ u, (s.pc u).held

/-- The counter holds what is in use and in flight, and what passed a comparison is within the
limit of it. -/
structure Books (p : Capacity) (s : State T) : Prop where
  used : s.used = s.committed + s.inFlight
  fits : s.used < 2 ^ 64
  user : s.user + ∑ u, (s.pc u).passedUser ≤ p.maxCapacity
  total : s.committed + ∑ u, (s.pc u).passed ≤ p.maxCapacityReloc

theorem held_le_inFlight (s : State T) (t : T) : (s.pc t).held ≤ s.inFlight :=
  Finset.single_le_sum (f := fun u => (s.pc u).held) (fun _ _ => Nat.zero_le _)
    (Finset.mem_univ t)

theorem Books.add_used (b : Books p s) (h : s.committed + s.inFlight + len < 2 ^ 64) :
    (s.used + len) % 2 ^ 64 = s.committed + s.inFlight + len := by
  rw [b.used]
  exact Nat.mod_eq_of_lt h

theorem Books.restore (b : Books p s) (hlen : s.committed + s.inFlight + len < 2 ^ 64)
    (hle : (s.used + len) % 2 ^ 64 ≤ p.limit true) : Books p ((s.commit len true).add len) := by
  have hc : ((s.commit len true).add len).committed = s.committed + len :=
    s.commit_committed len true
  have hp : ∑ u, (s.pc u).passed ≤ s.inFlight := Finset.sum_le_sum fun u _ => Pc.passed_le_held _
  rw [b.add_used hlen] at hle
  change _ ≤ p.maxCapacityReloc at hle
  refine ⟨?_, Nat.mod_lt _ (by decide), b.user, ?_⟩
  · change (s.used + len) % 2 ^ 64 = _ + s.inFlight
    rw [b.add_used hlen, hc]
    omega
  · change _ + ∑ u, (s.pc u).passed ≤ _
    rw [hc]
    omega

variable [DecidableEq T]

theorem sum_setPc (f : Pc → Nat) (hpc : s'.pc = update s.pc t w) :
    ∑ u, f (s'.pc u) + f (s.pc t) = ∑ u, f (s.pc u) + f w := by
  have h := Sums.sum_exchange (f := fun u => f (s.pc u)) (g := fun u => f (s'.pc u))
    (Finset.mem_univ t) fun u _ hu => by rw [hpc, update_of_ne hu]
  rwa [hpc, update_self, ← hpc] at h

theorem Books.move (b : Books p s) (hpc : s'.pc = update s.pc t w)
    (hused : s'.used + s.committed + (s.pc t).held = s.used + s'.committed + w.held)
    (hfits : s'.used < 2 ^ 64) (huser : s'.user + w.passedUser ≤ s.user + (s.pc t).passedUser)
    (htotal : s'.committed + w.passed ≤ s.committed + (s.pc t).passed) : Books p s' := by
  have hheld := sum_setPc Pc.held hpc
  have huser' := sum_setPc Pc.passedUser hpc
  have hpassed := sum_setPc Pc.passed hpc
  have h1 := b.used
  have h2 := b.user
  have h3 := b.total
  rw [State.inFlight] at h1
  refine ⟨?_, hfits, by omega, by omega⟩
  rw [State.inFlight]
  omega

theorem Books.idle (b : Books p s) (hpc : s'.pc = update s.pc t w)
    (hold : (s.pc t).held = 0) (hnew : w.held = 0) (hused : s'.used = s.used)
    (huser : s'.user = s.user) (hreloc : s'.reloc = s.reloc) : Books p s' := by
  have h1 := Pc.passed_le_held w
  have h2 := Pc.passedUser_le_held w
  have hc : s'.committed = s.committed := by rw [State.committed, huser, hreloc, State.committed]
  exact b.move hpc (by omega) (hused ▸ b.fits) (by omega) (by omega)

variable {c : Call}

theorem Books.admit (b : Books p s) (hold : s.pc t = .calling c)
    (hlen : s.committed + s.inFlight + c.len < 2 ^ 64)
    (hle : s.committed + s.inFlight + c.len ≤ p.limit c.reloc) :
    Books p ((s.add c.len).setPc t (.admitted c)) := by
  have hpc : ((s.add c.len).setPc t (.admitted c)).pc =
    update s.pc t (.admitted c) := rfl
  have hheld := sum_setPc Pc.held hpc
  have huser := sum_setPc Pc.passedUser hpc
  have hpassed := sum_setPc Pc.passed hpc
  have hle' := hle.trans (p.limit_le c.reloc)
  have hu : ∑ u, (s.pc u).passedUser ≤ s.inFlight :=
    Finset.sum_le_sum fun u _ => Pc.passedUser_le_held _
  have ht : ∑ u, (s.pc u).passed ≤ s.inFlight := Finset.sum_le_sum fun u _ => Pc.passed_le_held _
  rw [hold] at hheld huser hpassed
  change ∑ u, _ = _ + c.len at hheld
  change ∑ u, _ = _ + (if c.reloc then 0 else c.len) at huser
  change ∑ u, _ = _ + c.len at hpassed
  refine ⟨?_, ?_, ?_, ?_⟩
  · change (s.used + c.len) % 2 ^ 64 = s.committed + ∑ u, _
    rw [b.add_used hlen, hheld, State.inFlight, Nat.add_assoc]
  · exact Nat.mod_lt _ (by decide)
  · change s.user + ∑ u, _ ≤ _
    rw [huser]
    cases hr : c.reloc with
    | true =>
      have := b.user
      simpa [hr] using this
    | false =>
      rw [hr] at hle
      change _ ≤ p.maxCapacity at hle
      rw [State.committed] at hle
      simp only [Bool.false_eq_true, if_false]
      omega
  · change s.committed + ∑ u, _ ≤ _
    omega

theorem again_held (c : Call) : (State.again c).held = 0 := by
  rw [State.again]
  split <;> rfl

theorem Books.provisionGrains (b : Books p s) (hold : s.pc t = .calling c)
    (hlen : s.committed + s.inFlight + c.len < 2 ^ 64) (critical : Bool) :
    Books p (s.provisionGrains p t c critical) := by
  have h0 : (s.pc t).held = 0 := by rw [hold]; rfl
  rw [State.provisionGrains]
  split
  · exact b.idle rfl h0 rfl rfl rfl rfl
  split
  · exact b.idle rfl h0 (again_held c) rfl rfl rfl
  split
  · refine b.move rfl ?_ (Nat.mod_lt _ (by decide)) ?_ ?_
    · change (s.used + c.len) % 2 ^ 64 + s.committed + (s.pc t).held = s.used + s.committed + c.len
      rw [b.add_used hlen, b.used, h0]
      omega
    · exact Nat.le_add_right _ _
    · exact Nat.le_add_right _ _
  · rename_i hle
    rw [b.add_used hlen] at hle
    exact b.admit hold hlen (by omega)

theorem Books.takeBack (b : Books p s) (hpc : s'.pc = update s.pc t w)
    (hold : (s.pc t).held = len) (hnew : w.held = 0) (hused : s'.used = (s.sub len).used)
    (huser : s'.user = s.user) (hreloc : s'.reloc = s.reloc) : Books p s' := by
  have hle := held_le_inFlight s t
  have h1 := b.used
  have h2 := b.fits
  have hw1 := Pc.passed_le_held w
  have hw2 := Pc.passedUser_le_held w
  have hc : s'.committed = s.committed := by rw [State.committed, huser, hreloc, State.committed]
  rw [s.sub_used (by omega) h2] at hused
  exact b.move hpc (by omega) (by omega) (by omega) (by omega)

theorem Books.commit (b : Books p s) (hold : s.pc t = .admitted c) :
    Books p ((s.commit c.len c.reloc).setPc t .idle) := by
  have hc : ((s.commit c.len c.reloc).setPc t .idle).committed = s.committed + c.len :=
    s.commit_committed c.len c.reloc
  refine b.move rfl ?_ b.fits ?_ ?_
  · rw [hc, hold]
    change s.used + s.committed + c.len = s.used + (s.committed + c.len) + 0
    omega
  · rw [hold]
    change (if c.reloc then s.user else s.user + c.len) + 0 ≤
      s.user + if c.reloc then 0 else c.len
    split <;> omega
  · rw [hc, hold]
    exact Nat.le_refl _

theorem Books.drop (b : Books p s) (t : T) {reloc : Bool} (hlen : len ≤ s.pool reloc) :
    Books p ((s.drop len reloc).sub len) := by
  have hpool : s.pool reloc ≤ s.committed := by
    cases reloc
    · exact Nat.le_add_right _ _
    · exact Nat.le_add_left _ _
  have hc : ((s.drop len reloc).sub len).committed + len = s.committed := by
    cases reloc
    · change len ≤ s.user at hlen
      change s.user - len + s.reloc + len = s.user + s.reloc
      omega
    · change len ≤ s.reloc at hlen
      change s.user + (s.reloc - len) + len = s.user + s.reloc
      omega
  have huser : ((s.drop len reloc).sub len).user ≤ s.user := by
    cases reloc
    · exact Nat.sub_le _ _
    · exact Nat.le_refl _
  have h1 := b.used
  have h2 := b.fits
  have hused : ((s.drop len reloc).sub len).used = s.used - len := s.sub_used (by omega) h2
  refine b.move (t := t) (w := s.pc t) (update_eq_self _ _).symm ?_ ?_ ?_ ?_
  all_goals omega

end Books

/-! ## What a step does to the answers -/

section Answers

variable {T : Type} {p : Capacity} {s s' : State T} {t : T} {w : Pc}

/-- Every call has seen at least what is in use, and what is refused did not fit beside the most
it has seen. -/
structure Answers (p : Capacity) (s : State T) : Prop where
  peak : ∀ u, s.committed ≤ s.peak u
  pending : ∀ u c, s.pc u = .refused c → p.limit c.reloc < s.peak u + c.len
  refusals : ∀ r ∈ s.refusals, p.limit r.call.reloc < r.peak + r.call.len

/-- The grains in use are within the capacity and the relocation spare, and the counter is exact
when no call is under way. -/
structure Within (p : Capacity) (s : State T) : Prop where
  user : s.user ≤ p.maxCapacity
  total : s.user + s.reloc ≤ p.maxCapacity + 2 * p.segSize
  quiet : (∀ t, s.pc t = .idle) → s.used = s.user + s.reloc

/-- A call is refused only if its length did not fit beside what was in use at an instant during
it. -/
def Justified (p : Capacity) (s : State T) : Prop :=
  ∀ r ∈ s.refusals, p.limit r.call.reloc < r.peak + r.call.len

theorem init_answers (p : Capacity) : Answers p (State.init : State T) :=
  ⟨fun _ => Nat.le_refl _, nofun, nofun⟩

theorem Answers.commit (a : Answers p s) (len : Nat) (reloc : Bool) :
    Answers p (s.commit len reloc) := by
  refine ⟨fun u => ?_, fun u c hu => ?_, a.refusals⟩
  · rw [s.commit_committed]
    exact Nat.le_max_right _ _
  · exact (a.pending u c hu).trans_le (Nat.add_le_add_right (Nat.le_max_left _ _) _)

theorem Answers.drop (a : Answers p s) (len : Nat) (reloc : Bool) :
    Answers p (s.drop len reloc) := by
  refine ⟨fun u => ?_, a.pending, a.refusals⟩
  have hpeak := a.peak u
  have hle : (s.drop len reloc).committed ≤ s.committed := by
    cases reloc
    · exact Nat.add_le_add_right (Nat.sub_le _ _) _
    · exact Nat.add_le_add_left (Nat.sub_le _ _) _
  exact hle.trans hpeak

theorem again_ne_refused (c c' : Call) : State.again c ≠ .refused c' := by
  rw [State.again]
  split <;> nofun

variable [DecidableEq T]

theorem Answers.move (a : Answers p s) (hpc : s'.pc = update s.pc t w)
    (hpeak : ∀ u, s'.committed ≤ s'.peak u) (hmono : ∀ u, u ≠ t → s.peak u ≤ s'.peak u)
    (hw : ∀ c, w = .refused c → p.limit c.reloc < s'.peak t + c.len)
    (href : ∀ r ∈ s'.refusals, p.limit r.call.reloc < r.peak + r.call.len) : Answers p s' := by
  refine ⟨hpeak, fun u c hu => ?_, href⟩
  rw [hpc] at hu
  by_cases h : u = t
  · subst h
    rw [update_self] at hu
    exact hw c hu
  · rw [update_of_ne h] at hu
    exact (a.pending u c hu).trans_le (Nat.add_le_add_right (hmono u h) _)

theorem Answers.setPc (a : Answers p s) (hpc : s'.pc = update s.pc t w)
    (huser : s'.user = s.user) (hreloc : s'.reloc = s.reloc) (hpeak : s'.peak = s.peak)
    (hw : ∀ c, w = .refused c → p.limit c.reloc < s.peak t + c.len)
    (href : s'.refusals = s.refusals) : Answers p s' := by
  refine a.move hpc (fun u => ?_) (fun u _ => ?_) (fun c hc => ?_) (href ▸ a.refusals)
  · rw [State.committed, huser, hreloc, hpeak]
    exact a.peak u
  · rw [hpeak]
  · rw [hpeak]
    exact hw c hc

end Answers

/-! ## Runs -/

section Runs

variable {T : Type} [Fintype T] {p : Capacity} {s s' : State T} {t : T} {act : Act}

def Fits (s : State T) (t : T) : Act → Prop
  | .provisionGrains _ => ∀ c, s.pc t = .calling c → s.committed + s.inFlight + c.len < 2 ^ 64
  | .restoreGrainRange len => s.committed + s.inFlight + len < 2 ^ 64
  | _ => True

/-- A call that does not fit beside what is in use and in flight finds nothing in flight. -/
def Alone (p : Capacity) (s : State T) (t : T) : Act → Prop
  | .provisionGrains _ => ∀ c, s.pc t = .calling c →
      p.limit c.reloc < s.committed + s.inFlight + c.len → s.inFlight = 0
  | _ => True

theorem Books.quiet (b : Books p s) (hidle : ∀ t, s.pc t = .idle) : s.used = s.user + s.reloc := by
  have h0 : s.inFlight = 0 := Finset.sum_eq_zero fun u _ => by rw [hidle u]; rfl
  rw [b.used, h0]
  rfl

theorem Books.within (b : Books p s) : Within p s := by
  refine ⟨(Nat.le_add_right _ _).trans b.user, ?_, b.quiet⟩
  rw [← p.maxCapacityReloc_eq]
  exact (Nat.le_add_right _ _).trans b.total

theorem init_books (p : Capacity) : Books p (State.init : State T) := by
  refine ⟨?_, Nat.two_pow_pos 64, ?_, ?_⟩
  all_goals simp [State.init, State.committed, State.inFlight, Pc.held, Pc.passed, Pc.passedUser]

variable [DecidableEq T]

theorem Books.step (b : Books p s) (hfits : Fits s t act) (h : Steps p s t act s') :
    Books p s' := by
  cases h with
  | call c hpc => exact b.idle rfl (by rw [hpc]; rfl) rfl rfl rfl rfl
  | provision c critical hpc => exact b.provisionGrains hpc (hfits c hpc) critical
  | takeBack c hpc =>
    have hold : (s.pc t).held = c.len := by rw [hpc]; rfl
    exact b.takeBack rfl hold rfl rfl rfl rfl
  | granted c hpc => exact b.commit hpc
  | failed c hpc =>
    refine b.move (w := .failed c) rfl ?_ b.fits ?_ ?_
    all_goals
      rw [hpc]
      rfl
  | unprovision c hpc =>
    have hold : (s.pc t).held = c.len := by rw [hpc]; rfl
    exact b.takeBack rfl hold (again_held c) rfl rfl rfl
  | wake c hpc => exact b.idle rfl (by rw [hpc]; rfl) rfl rfl rfl rfl
  | invalidate len reloc hlen => exact b.drop t hlen
  | restore len hle => exact b.restore hfits hle

theorem Answers.provisionGrains (a : Answers p s) (b : Books p s) {c : Call} {critical : Bool}
    (hlen : s.committed + s.inFlight + c.len < 2 ^ 64)
    (halone : p.limit c.reloc < s.committed + s.inFlight + c.len → s.inFlight = 0) :
    Answers p (s.provisionGrains p t c critical) := by
  rw [State.provisionGrains]
  split
  · exact a.setPc rfl rfl rfl rfl nofun rfl
  split
  · exact a.setPc rfl rfl rfl rfl (fun c' hc => absurd hc (again_ne_refused c c')) rfl
  split
  · rename_i hlt
    rw [b.add_used hlen] at hlt
    refine a.setPc rfl rfl rfl rfl (fun c' hc => ?_) rfl
    cases hc
    -- nothing is in flight, so the call does not fit beside what is in use
    have h0 := halone hlt
    have hpeak := a.peak t
    omega
  · exact a.setPc rfl rfl rfl rfl nofun rfl

theorem Answers.step (a : Answers p s) (b : Books p s) (hfits : Fits s t act)
    (halone : Alone p s t act) (h : Steps p s t act s') : Answers p s' := by
  cases h with
  | call c hpc =>
    refine a.move rfl (fun u => ?_) (fun u hu => ?_) nofun a.refusals
    · change s.committed ≤ update s.peak t s.committed u
      by_cases hu : u = t
      · rw [hu, update_self]
      · rw [update_of_ne hu]
        exact a.peak u
    · exact (update_of_ne hu _ _).ge
  | provision c critical hpc => exact a.provisionGrains b (hfits c hpc) (halone c hpc)
  | takeBack c hpc =>
    refine a.move rfl a.peak (fun u _ => Nat.le_refl _) nofun fun r hr => ?_
    rcases List.mem_cons.mp hr with rfl | hr
    · exact a.pending t c hpc
    · exact a.refusals r hr
  | granted c hpc => exact (a.commit c.len c.reloc).setPc rfl rfl rfl rfl nofun rfl
  | failed c hpc => exact a.setPc rfl rfl rfl rfl nofun rfl
  | unprovision c hpc =>
    exact a.setPc rfl rfl rfl rfl (fun c' hc => absurd hc (again_ne_refused c c')) rfl
  | wake c hpc => exact a.setPc rfl rfl rfl rfl nofun rfl
  | invalidate len reloc hlen =>
    have a' := a.drop len reloc
    exact ⟨a'.peak, a'.pending, a'.refusals⟩
  | restore len hle =>
    have a' := a.commit len true
    exact ⟨a'.peak, a'.pending, a'.refusals⟩

def FitStep (p : Capacity) (s s' : State T) : Prop :=
  ∃ t act, Fits s t act ∧ s.step p t act = some s'

def AloneStep (p : Capacity) (s s' : State T) : Prop :=
  ∃ t act, Fits s t act ∧ Alone p s t act ∧ s.step p t act = some s'

theorem run_books (h : ReflTransGen (FitStep p) State.init s) : Books p s := by
  induction h with
  | refl => exact init_books p
  | tail _ hstep ih =>
    obtain ⟨t, act, hfits, hs⟩ := hstep
    exact ih.step hfits (steps_of_step hs)

theorem run_answers (h : ReflTransGen (AloneStep p) State.init s) :
    Books p s ∧ Answers p s := by
  induction h with
  | refl => exact ⟨init_books p, init_answers p⟩
  | tail _ hstep ih =>
    obtain ⟨t, act, hfits, halone, hs⟩ := hstep
    have hs := steps_of_step hs
    exact ⟨ih.1.step hfits hs, ih.2.step ih.1 hfits halone hs⟩

/-- In every interleaving in which no sum wraps the grains in use are within the capacity and
the counter is exact at quiescence. If moreover a call that does not fit beside what is in use
and in flight finds nothing in flight, every refusal is justified. -/
theorem run_admission (p : Capacity) :
    (∀ s : State T, ReflTransGen (FitStep p) State.init s → Within p s) ∧
      ∀ s : State T, ReflTransGen (AloneStep p) State.init s →
        Within p s ∧ Justified p s := by
  refine ⟨fun s h => (run_books h).within, fun s h => ?_⟩
  obtain ⟨b, a⟩ := run_answers h
  exact ⟨b.within, a.refusals⟩

end Runs

def exec {T : Type} [DecidableEq T] (p : Capacity) (s : State T) :
    List (T × Act) → Option (State T)
  | [] => some s
  | (t, act) :: rest => (s.step p t act).bind fun s' => exec p s' rest

/-- A capacity of 8 grains, and 16 for relocations. -/
def eightGrains : Capacity := ⟨Scm.Params.hundredSegs 990, 1, by decide⟩

def fiveGrains : Call := ⟨5, false, true⟩

theorem onlyCall {w : Pc} {c : Call} {Q : Call → Prop} (hw : w = .calling c) (h : Q c) :
    ∀ c', w = .calling c' → Q c' := by
  intro c' hc
  rw [hw] at hc
  cases hc
  exact h

/-- The second thread finds no room for its five grains, once the first has its. -/
theorem eightGrains_admission :
    ∃ s : State (Fin 2), s.refusals = [⟨fiveGrains, 5⟩] ∧ s.user = 5 ∧
      Within eightGrains s ∧ Justified eightGrains s := by
  have h1 : ReflTransGen (AloneStep eightGrains) (State.init : State (Fin 2)) _ :=
    .single ⟨0, .allocateGrains fiveGrains, trivial, trivial, rfl⟩
  have h2 := h1.tail ⟨0, .provisionGrains false, onlyCall rfl (by decide), onlyCall rfl (by decide),
    rfl⟩
  have h3 := h2.tail ⟨0, .allocatorAllocateGrains true, trivial, trivial, rfl⟩
  have h4 := h3.tail ⟨1, .allocateGrains fiveGrains, trivial, trivial, rfl⟩
  have h5 := h4.tail ⟨1, .provisionGrains false, onlyCall rfl (by decide), onlyCall rfl (by decide),
    rfl⟩
  have h6 := h5.tail ⟨1, .takeBack, trivial, trivial, rfl⟩
  exact ⟨_, rfl, rfl, (run_admission eightGrains).2 _ h6⟩

/-- Both threads ask for five grains. The second comes between the addition of the first and the
answer of the allocator, which has none for it. -/
def crowded : List (Fin 2 × Act) :=
  [(0, .allocateGrains fiveGrains), (0, .provisionGrains false), (1, .allocateGrains fiveGrains),
    (1, .provisionGrains false), (0, .allocatorAllocateGrains false), (0, .unprovisionGrains),
    (1, .takeBack), (0, .wake), (0, .provisionGrains true)]

/-- A call is refused though nothing was in use at any instant. -/
theorem crowded_refused :
    ∃ s, exec eightGrains State.init crowded = some s ∧ (∀ t, s.pc t = .idle) ∧
      s.refusals = [⟨fiveGrains, 0⟩] ∧ eightGrains.limit false = 8 ∧
      ¬ Justified eightGrains s := by
  refine ⟨_, rfl, by decide, rfl, by decide, fun h => ?_⟩
  exact absurd (h ⟨fiveGrains, 0⟩ List.mem_cons_self) (by decide)

end UDepot.Provision
