import UDepot.CtlrInit
import UDepot.SegPartition
import Mathlib.Logic.Relation

/-! Which storage a controller uses. It is started with a property set; its allocators search the
free queues with the sets in their flags, which `init` copied before it stored the new set. -/

namespace UDepot.Scm
open List

namespace SegQueues

variable {s : SegQueues} {flags : GfsFlags} {k : Nat}

def sets (s : SegQueues) : List PropSet := s.queues.map SegQueue.propSet

theorem passQueue_some {reloc : Bool} {props : PropSet} (h : s.passQueue reloc props = some k) :
    ∃ q, s.queues[k]? = some q ∧ q.propSet.isSubsetOf props = true ∧ q.freeq reloc ≠ [] := by
  obtain ⟨hlt, hq, -⟩ := List.findIdx?_eq_some_iff_getElem.mp h
  simp only [Bool.and_eq_true, Bool.not_eq_true', isEmpty_eq_false_iff] at hq
  exact ⟨_, getElem?_eq_getElem hlt, hq.1, hq.2⟩

theorem getQueue_ok (h : s.getQueue flags = .ok k) :
    ∃ q, s.queues[k]? = some q ∧ (q.propSet.isSubsetOf flags.propSetPreferred = true ∨
      q.propSet.isSubsetOf flags.propSetDefault = true) := by
  revert h
  fun_cases getQueue s flags with
  | case1 k' hpass =>
    rintro ⟨⟩
    obtain ⟨q, hq, hsub, -⟩ := passQueue_some hpass
    exact ⟨q, hq, .inl hsub⟩
  | case2 hnone k' hpass =>
    rintro ⟨⟩
    obtain ⟨q, hq, hsub, -⟩ := passQueue_some hpass
    exact ⟨q, hq, .inr hsub⟩
  | _ => rintro ⟨⟩

theorem map_modify_of_eq {α β : Type} (l : List α) (k : Nat) (f : α → α) (g : α → β)
    (h : ∀ x, g (f x) = g x) : (l.modify k f).map g = l.map g := by
  apply ext_getElem?
  intro j
  rw [getElem?_map, getElem?_map, getElem?_modify]
  grind

theorem sets_enqueue (qId i : Nat) : (s.enqueue qId i).sets = s.sets :=
  map_modify_of_eq _ _ _ _ fun _ => rfl

theorem sets_enqueueRel (qId i : Nat) : (s.enqueueRel qId i).sets = s.sets :=
  map_modify_of_eq _ _ _ _ fun _ => rfl

theorem propSet_dropHead (reloc : Bool) (q : SegQueue) :
    (dropHead reloc q).propSet = q.propSet := by
  cases reloc <;> rfl

theorem popHead_some {reloc : Bool} {i : Nat} {s' : SegQueues}
    (h : s.popHead k reloc = some (i, s')) :
    s'.sets = s.sets ∧ ∃ q, s.queues[k]? = some q ∧ i ∈ q.freeq reloc := by
  unfold popHead at h
  cases hq : s.queues[k]? with
  | none => simp [hq] at h
  | some q =>
    cases hi : (q.freeq reloc).head? with
    | none => simp [hq, hi] at h
    | some j =>
      simp only [hq, hi, Option.some.injEq, Prod.mk.injEq] at h
      obtain ⟨rfl, rfl⟩ := h
      refine ⟨?_, q, rfl, mem_of_head? hi⟩
      obtain ⟨hlt, rfl⟩ := List.getElem?_eq_some_iff.mp hq
      have hlt' : k < (s.queues.map SegQueue.propSet).length := by simpa using hlt
      simpa [sets, map_set, propSet_dropHead] using set_getElem_self hlt'

end SegQueues

namespace Mgr

variable {m m' : Mgr} {flags : GfsFlags} {cb : AllocCb} {res : GetRes}

theorem sets_requeue (i : Nat) : (m.requeue i).qs.sets = m.qs.sets := by
  unfold requeue
  dsimp only
  split
  · exact SegQueues.sets_enqueueRel _ _
  · exact SegQueues.sets_enqueue _ _

theorem sets_scmPutFreeSeg (i : Nat) (thinProv : Bool) :
    (m.scmPutFreeSeg i thinProv).1.qs.sets = m.qs.sets := by
  cases thinProv <;> exact sets_requeue i

theorem sets_failReclaimThin (err : Int) (bug : Bool) :
    (m.failReclaimThin flags err bug).mgr.qs = m.qs := by
  unfold failReclaimThin
  dsimp only
  split <;> rfl

/-- From the queues on: the sets stay, and a segment that is returned was on the queue that was
found. -/
theorem getFromQueues_spec (h : m.getFromQueues flags cb = some res) :
    res.mgr.qs.sets = m.qs.sets ∧ ∀ i, res.segOut = some i →
      ∃ (k : Nat) (q : SegQueue), m.qs.getQueue flags = .ok k ∧ m.qs.queues[k]? = some q ∧
        i ∈ q.freeq flags.reloc := by
  revert h
  fun_cases getFromQueues m flags cb with
  | case1 err hq herr | case3 k hq hpop =>
    rintro ⟨⟩
    exact ⟨by rw [sets_failReclaimThin], by simp [failReclaimThin]⟩
  | case2 => rintro ⟨⟩
  | case4 k hq i qs hpop =>
    rintro ⟨⟩
    obtain ⟨hsets, q, hk, hi⟩ := SegQueues.popHead_some hpop
    refine ⟨?_, by simp [failPut, failReclaimThin]⟩
    rw [failPut, sets_failReclaimThin, sets_scmPutFreeSeg, hsets]
  | case5 k hq i qs hpop =>
    rintro ⟨⟩
    obtain ⟨hsets, q, hk, hi⟩ := SegQueues.popHead_some hpop
    refine ⟨hsets, fun j hj => ?_⟩
    cases hj
    exact ⟨k, q, hq, hk, hi⟩

theorem scmGetFreeSeg_spec (h : m.scmGetFreeSeg flags cb = some res) :
    res.mgr.qs.sets = m.qs.sets ∧ ∀ i, res.segOut = some i →
      ∃ (k : Nat) (q : SegQueue), m.qs.getQueue flags = .ok k ∧ m.qs.queues[k]? = some q ∧
        i ∈ q.freeq flags.reloc := by
  revert h
  fun_cases scmGetFreeSeg m flags cb with
  | case1 | case2 =>
    rintro ⟨⟩
    exact ⟨rfl, by simp⟩
  | case3 hboth hthin m₁ hget =>
    obtain ⟨-, hget⟩ := Option.ite_none_left_eq_some.mp hget
    cases hget
    exact getFromQueues_spec
  | case4 => exact getFromQueues_spec

/-- What happens to the queues: segments are taken, for any controller, and returned; the
segments' own fields change as they are used. -/
inductive Step : Mgr → Mgr → Prop
  | get (m : Mgr) (flags : GfsFlags) (cb : AllocCb) (res : GetRes)
      (h : m.scmGetFreeSeg flags cb = some res) : Step m res.mgr
  | put (m : Mgr) (i : Nat) (thinProv : Bool) : Step m (m.scmPutFreeSeg i thinProv).1
  | use (m : Mgr) (seg : Nat → Seg) : Step m { m with qs := { m.qs with seg := seg } }

abbrev Reach : Mgr → Mgr → Prop := Relation.ReflTransGen Step

theorem Step.sets (h : Step m m') : m'.qs.sets = m.qs.sets := by
  cases h with
  | get flags cb res h => exact (scmGetFreeSeg_spec h).1
  | put i thinProv => exact sets_scmPutFreeSeg i thinProv
  | use seg => rfl

theorem Reach.sets (h : Reach m m') : m'.qs.sets = m.qs.sets := by
  induction h with
  | refl => rfl
  | tail _ hstep ih => rw [hstep.sets, ih]

end Mgr

/-- Started with the set, a controller that had these flags before never obtains a segment from
another queue than one within the set: whatever the queues hold, and at every point of every
run. -/
def UsesOnly (sets : List PropSet) (flags : GfsFlags) (pset : PropSet) : Prop :=
  ∀ (w w' : World) (a : InitArgs) (m m' : Mgr) (rel : Bool) (stream : Nat) (alltr : Alltr)
    (cb : Mgr.AllocCb) (res : Mgr.GetRes) (i : Nat),
    w.Idle → w.ctlr.cbGfsFlags = flags → w.scm.queues.map QueueInfo.propSet = sets →
    a.pset = pset → w.init a = some (0, w') →
    m.qs.sets = sets → Mgr.Reach m m' →
    w'.ctlr.alltr rel stream = some alltr → m'.scmGetFreeSeg alltr.gfsFlags cb = some res →
    res.segOut = some i →
    ∃ (k : Nat) (q : SegQueue), m'.qs.getQueue alltr.gfsFlags = .ok k ∧
      m'.qs.queues[k]? = some q ∧ i ∈ q.freeq alltr.gfsFlags.reloc ∧
      q.propSet.isSubsetOf pset = true

/-- The queues that the earlier flags allow are within the set, unless no queue is and the
controller cannot be started at all. -/
def FlagsWithin (sets : List PropSet) (flags : GfsFlags) (pset : PropSet) : Prop :=
  (∀ set ∈ sets, set.isSubsetOf pset = false) ∨
    ∀ set ∈ sets, (set.isSubsetOf flags.propSetPreferred = true ∨
      set.isSubsetOf flags.propSetDefault = true) → set.isSubsetOf pset = true

variable {sets : List PropSet} {pset set : PropSet}

theorem usesOnly_of_flagsWithin {flags : GfsFlags} (h : FlagsWithin sets flags pset) :
    UsesOnly sets flags pset := by
  intro w w' a m m' rel stream alltr cb res i hidle hflags hqueues hpset hinit hsets hreach halltr
    hget hi
  obtain ⟨hreg, hflagSets, -⟩ := World.alltr_of_init hidle hinit
  obtain ⟨k, q, hk, hq, hmem⟩ := (Mgr.scmGetFreeSeg_spec hget).2 i hi
  refine ⟨k, q, hk, hq, hmem, ?_⟩
  obtain ⟨hpref, hdef⟩ := hflagSets rel stream alltr halltr
  obtain ⟨q', hq', hsub⟩ := SegQueues.getQueue_ok hk
  obtain rfl : q = q' := Option.some.inj (hq.symm.trans hq')
  rw [hpref, hdef, hflags] at hsub
  have hset : q.propSet ∈ sets := by
    rw [← hsets, ← hreach.sets]
    exact mem_map_of_mem (mem_of_getElem? hq)
  rcases h with hnone | hall
  · -- the registration found a queue within the set
    exfalso
    unfold World.Registers ScmReg.registerCtlr at hreg
    split at hreg
    · exact absurd hreg (show enospc ≠ 0 by decide)
    · next hhas =>
      simp only [Bool.not_eq_true', Bool.not_eq_false] at hhas
      obtain ⟨info, hinfo, hok⟩ := any_eq_true.mp hhas
      have := hnone info.propSet (hqueues ▸ mem_map_of_mem hinfo)
      rw [Bool.and_eq_true, hpset, this] at hok
      exact absurd hok.1 (by decide)
  · exact hall q.propSet hset hsub

/-- A manager whose queues have these sets and only the queue `k` has a segment. -/
def oneFilled (sets : List PropSet) (k : Nat) : Mgr where
  segNr := 1
  segSize := 8
  grainSize := 512
  devNr := 2
  raid := .raid0
  scmDevProps := []
  qs := ⟨sets.mapIdx fun j set => ⟨if j = k then [0] else [], [], set⟩, fun _ => .zero⟩
  thinProvSegs := 1
  exit := false

theorem oneFilled_sets (sets : List PropSet) (k : Nat) : (oneFilled sets k).qs.sets = sets := by
  apply ext_getElem?
  intro j
  simp only [SegQueues.sets, oneFilled, getElem?_map, getElem?_mapIdx, Option.map_map]
  cases sets[j]? <;> rfl

theorem oneFilled_get {k j : Nat} {q : SegQueue} (h : (oneFilled sets k).qs.queues[j]? = some q) :
    sets[j]? = some q.propSet ∧ (q.freeq false ≠ [] ↔ j = k) := by
  simp only [oneFilled, getElem?_mapIdx, Option.map_eq_some_iff] at h
  obtain ⟨set, hset, rfl⟩ := h
  refine ⟨hset, ?_⟩
  by_cases hj : j = k <;> simp [SegQueue.freeq, hj]

theorem passQueue_oneFilled {k : Nat} (hk : sets[k]? = some set) (props : PropSet) :
    (oneFilled sets k).qs.passQueue false props =
      if set.isSubsetOf props = true then some k else none := by
  cases hpass : (oneFilled sets k).qs.passQueue false props with
  | some j =>
    obtain ⟨q, hq, hsub, hne⟩ := SegQueues.passQueue_some hpass
    obtain ⟨hset, hj⟩ := oneFilled_get hq
    obtain rfl := hj.mp hne
    obtain rfl : set = q.propSet := Option.some.inj (hk.symm.trans hset)
    rw [if_pos hsub]
  | none =>
    rw [if_neg]
    intro hsub
    have hq : (oneFilled sets k).qs.queues[k]? = some ⟨[0], [], set⟩ := by
      simp [oneFilled, getElem?_mapIdx, hk]
    have := List.findIdx?_eq_none_iff.mp hpass _ (mem_of_getElem? hq)
    simp [SegQueue.freeq, hsub] at this

theorem getQueue_oneFilled (flags : GfsFlags) {k : Nat}
    (hk : sets[k]? = some set) (hreloc : flags.reloc = false)
    (hsub : set.isSubsetOf flags.propSetPreferred = true ∨
      set.isSubsetOf flags.propSetDefault = true) :
    (oneFilled sets k).qs.getQueue flags = .ok k := by
  unfold SegQueues.getQueue
  rw [hreloc, passQueue_oneFilled hk, passQueue_oneFilled hk]
  by_cases hpref : set.isSubsetOf flags.propSetPreferred = true
  · simp [hpref]
  · simp [hpref, hsub.resolve_left hpref]

/-- The segment of the one queue that has any is obtained under flags that allow the queue. -/
theorem scmGetFreeSeg_oneFilled (flags : GfsFlags) {k : Nat}
    (hk : sets[k]? = some set) (hreloc : flags.reloc = false)
    (hsub : set.isSubsetOf flags.propSetPreferred = true ∨
      set.isSubsetOf flags.propSetDefault = true) :
    ∃ res, (oneFilled sets k).scmGetFreeSeg flags (fun _ _ _ => 0) = some res ∧
      res.segOut = some 0 := by
  have hq : (oneFilled sets k).qs.getQueue flags = .ok k :=
    getQueue_oneFilled flags hk hreloc hsub
  have hget : (oneFilled sets k).qs.queues[k]? = some ⟨[0], [], set⟩ := by
    simp [oneFilled, getElem?_mapIdx, hk]
  have hpop : (oneFilled sets k).qs.popHead k flags.reloc = some (0,
      { (oneFilled sets k).qs with
        queues := (oneFilled sets k).qs.queues.set k
          (SegQueues.dropHead false ⟨[0], [], set⟩) }) := by
    simp only [SegQueues.popHead, hget, hreloc]
    rfl
  have hfrom : ∀ thin : Nat, ∃ res,
      Mgr.getFromQueues { oneFilled sets k with thinProvSegs := thin } flags (fun _ _ _ => 0) =
        some res ∧ res.segOut = some 0 := by
    intro thin
    have hcb : ∀ qs : SegQueues,
        Mgr.callback { oneFilled sets k with thinProvSegs := thin, qs := qs }
        (fun _ _ _ => 0) 0 = (0, false) := fun qs => by
      simp [Mgr.callback, oneFilled]
    simp only [Mgr.getFromQueues, hq, hpop, hcb]
    exact ⟨_, rfl, rfl⟩
  unfold Mgr.scmGetFreeSeg
  rw [hreloc]
  cases hthin : flags.thinProv with
  | false => exact hfrom 1
  | true => exact hfrom 0

/-- A manager with these queues and a controller with these flags. -/
def worldWith (sets : List PropSet) (flags : GfsFlags) : World :=
  { World.smallWorld with
    scm := { World.smallWorld.scm with queues := sets.map fun set => ⟨set, 1⟩ }
    ctlr := { CtlrState.new with cbGfsFlags := flags } }

def oneStream (pset : PropSet) : InitArgs := ⟨1, 0, 1, 0, pset, fun _ _ => .none⟩

theorem worldWith_starts (flags : GfsFlags) (h : ∃ set ∈ sets, set.isSubsetOf pset = true) :
    ∃ w', (worldWith sets flags).init (oneStream pset) = some (0, w') := by
  obtain ⟨set, hset, hsub⟩ := h
  have hhas : (worldWith sets flags).scm.hasQueues pset = true := by
    rw [ScmReg.hasQueues, any_eq_true]
    exact ⟨⟨set, 1⟩, mem_map_of_mem hset, by simp [hsub]⟩
  have hspare : (worldWith sets flags).scm.params.hasEnoughSpareSegments
      (worldWith sets flags).scm.params.devSize (worldWith sets flags).scm.usedStreams 1 = true :=
    show World.smallWorld.scm.params.hasEnoughSpareSegments World.smallWorld.scm.params.devSize
      World.smallWorld.scm.usedStreams 1 = true by decide
  have hsto : ((worldWith sets flags).scm.addStreams 1).registerStoCtlr 1 =
      .ok (0, { (worldWith sets flags).scm.addStreams 1 with
        ctlrs := [some 1, none], ctlrNr := 1 }) := rfl
  have hreg : (worldWith sets flags).scm.registerCtlr 1 pset 1 =
      (⟨0, 0, 1⟩, (worldWith sets flags).scm.enrolled 1 1 0) := by
    rw [ScmReg.registerCtlr, hhas, hspare, hsto]
    rfl
  have hinit : (worldWith sets flags).init (oneStream pset) =
      ((worldWith sets flags).registered (oneStream pset)).createAll (oneStream pset) flags :=
    World.init_eq_createAll (show 1 + 0 < 2 ^ 8 by decide) (congrArg Prod.fst hreg)
  have hmade : ∀ rel n, World.AllMade ((worldWith sets flags).registered (oneStream pset))
      (oneStream pset) rel n := fun rel n k _ => by
    simp [InitArgs.allocErr, oneStream]
  rw [hinit]
  exact World.createAll_of_made flags (hmade _ _) (hmade _ _)

/-- A queue outside the set that the earlier flags allow is used, once it is the only one with
segments. -/
theorem flagsWithin_of_usesOnly {flags : GfsFlags} (h : UsesOnly sets flags pset) :
    FlagsWithin sets flags pset := by
  by_contra hnot
  simp only [FlagsWithin, not_or, not_forall] at hnot
  obtain ⟨⟨good, hgood, hsub⟩, bad, hbad, hallowed, houtside⟩ := hnot
  obtain ⟨k, hk⟩ := mem_iff_getElem?.mp hbad
  obtain ⟨w', hinit⟩ := worldWith_starts flags ⟨good, hgood, Bool.not_eq_false _ ▸ hsub⟩
  have hidle : (worldWith sets flags).Idle := ⟨rfl, fun _ _ => rfl⟩
  obtain ⟨-, -, alltr, halltr, hflags⟩ := World.alltr_of_init hidle hinit
  -- the filled queue is allowed by the flags that the allocator was made with
  obtain ⟨res, hget, hseg⟩ := scmGetFreeSeg_oneFilled alltr.gfsFlags hk (by rw [hflags])
    (by rw [hflags]; exact hallowed)
  have hqueues : (worldWith sets flags).scm.queues.map QueueInfo.propSet = sets := by
    simp only [worldWith, map_map]
    exact map_id sets
  obtain ⟨k', q, hk', hq, -, hin⟩ := h (worldWith sets flags) w' (oneStream pset) (oneFilled sets k)
    (oneFilled sets k) false 0 alltr _ res 0 hidle rfl hqueues rfl hinit
      (oneFilled_sets sets k) .refl
    halltr hget hseg
  have hkk : k' = k := by
    have := getQueue_oneFilled alltr.gfsFlags hk (by rw [hflags])
      (by rw [hflags]; exact hallowed)
    exact Except.ok.inj (hk'.symm.trans this)
  subst hkk
  obtain rfl : bad = q.propSet := Option.some.inj (hk.symm.trans (oneFilled_get hq).1)
  exact houtside hin

theorem usesOnly_iff (sets : List PropSet) (flags : GfsFlags) (pset : PropSet) :
    UsesOnly sets flags pset ↔ FlagsWithin sets flags pset :=
  ⟨flagsWithin_of_usesOnly, usesOnly_of_flagsWithin⟩

/-- Two segments of flash and two of conventional disk, on the queues of their own. -/
def flashAndDisk : Mgr where
  segNr := 4
  segSize := 8
  grainSize := 512
  devNr := 1
  raid := .linear
  scmDevProps := wholeSegments
  qs := ⟨[⟨[], [], ⟨1⟩⟩, ⟨[1], [0], ⟨2⟩⟩, ⟨[3], [2], ⟨4⟩⟩, ⟨[], [], ⟨8⟩⟩, ⟨[], [], ⟨16⟩⟩],
    fun i => ⟨8, 1, 255, 0, 255, false, if i < 2 then 1 else 2,
      if i % 2 = 0 then .freeRel else .free, if i < 2 then .flash else .smrConv⟩⟩
  thinProvSegs := 4
  exit := false

/-- A new controller is started for flash. Its second segment is one of the disk. -/
theorem usesOnly_fails_flash :
    (scmSegQueuesInit pageGeometry masksAll wholeSegments).map SegQueues.queues =
        .ok flashAndDisk.qs.queues ∧
      ((flashAndDisk.scmGetFreeSeg { CtlrState.new.cbGfsFlags with noBlocking := true }
          fun _ _ _ => 0).bind fun res =>
        (res.mgr.scmGetFreeSeg { CtlrState.new.cbGfsFlags with noBlocking := true }
          fun _ _ _ => 0).map fun res' => (res.segOut, res'.segOut)) = some (some 1, some 3) ∧
      ¬ UsesOnly flashAndDisk.qs.sets CtlrState.new.cbGfsFlags ⟨2⟩ := by
  refine ⟨by decide, by decide, fun h => ?_⟩
  rcases flagsWithin_of_usesOnly h with hnone | hall
  · exact absurd (hnone ⟨2⟩ (by decide)) (by decide)
  · exact absurd (hall ⟨4⟩ (by decide) (.inl (by decide))) (by decide)

end UDepot.Scm
