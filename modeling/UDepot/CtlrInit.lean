import UDepot.FreeSeg

/-! Starting a storage controller (`SalsaCtlr::init`): it registers with the capacity manager,
which counts its streams and gives it a slot, and creates an allocator for each user and each
relocation stream. Two creation loops share an index and the exits of the failures are chained.
The store calls it again with half the streams as long as it fails. -/

namespace UDepot.Scm
open Option List

def eexist : Int := 17

def enomem : Int := 12

def usalsappMaxStreams : Nat := 128

/-- A free queue as registration sees it: its property set and the number of segments that it
had to begin with. -/
structure QueueInfo where
  propSet : PropSet
  nsegsMax : Nat
  deriving DecidableEq, Repr

/-- The manager as controllers register with it: `ctlrs` are the slots, and `gc` tells for which
of them the garbage collector has a function. -/
structure ScmReg where
  params : Params
  queues : List QueueInfo
  usedStreams : Nat
  ctlrs : List (Option Nat)
  ctlrNr : Nat
  gc : Nat → Bool

/-- `Scm::RegistrationInfo`; the number of streams is kept in eight bits. -/
structure RegInfo where
  riErr : Int
  riCtlrId : Nat
  riStreamNr : Nat
  deriving DecidableEq, Repr

namespace ScmReg

/-- `scm_seg_queues_avail_props` finds a queue: one of the set that ever had segments. -/
def hasQueues (scm : ScmReg) (pset : PropSet) : Bool :=
  scm.queues.any fun q => q.propSet.isSubsetOf pset && q.nsegsMax != 0

/-- `scm_register_sto_ctlr`. -/
def registerStoCtlr (scm : ScmReg) (ctlr : Nat) : Except Int (Nat × ScmReg) :=
  if some ctlr ∈ scm.ctlrs then .error eexist
  else
    match scm.ctlrs.findIdx? Option.isNone with
    | none => .error enospc
    | some id =>
      .ok (id, { scm with ctlrs := scm.ctlrs.set id (some ctlr), ctlrNr := scm.ctlrNr + 1 })

/-- `scm_unregister_sto_ctlr`. -/
def unregisterStoCtlr (scm : ScmReg) (ctlr : Nat) : ScmReg :=
  match scm.ctlrs.findIdx? (fun slot => slot == some ctlr) with
  | none => scm
  | some id => { scm with ctlrs := scm.ctlrs.set id none, ctlrNr := scm.ctlrNr - 1 }

def addStreams (scm : ScmReg) (streamNr : Nat) : ScmReg :=
  { scm with usedStreams := (scm.usedStreams + streamNr) % 2 ^ 32 }

def subStreams (scm : ScmReg) (streamNr : Nat) : ScmReg :=
  { scm with usedStreams := (scm.usedStreams + 2 ^ 32 - streamNr) % 2 ^ 32 }

def setGc (scm : ScmReg) (id : Nat) (fn : Bool) : ScmReg :=
  { scm with gc := fun k => if k = id then fn else scm.gc k }

/-- `Scm::register_ctlr`. The slot that was just taken is never refused by the collector. -/
def registerCtlr (scm : ScmReg) (ctlr : Nat) (pset : PropSet) (streamNr : Nat) :
    RegInfo × ScmReg :=
  if !scm.hasQueues pset then (⟨enospc, 255, 255⟩, scm)
  else if !scm.params.hasEnoughSpareSegments scm.params.devSize scm.usedStreams streamNr then
    (⟨einval, 255, 255⟩, scm)
  else
    match (scm.addStreams streamNr).registerStoCtlr ctlr with
    | .error err => (⟨err, 255, streamNr % 2 ^ 8⟩, (scm.addStreams streamNr).subStreams streamNr)
    | .ok (id, scm') => (⟨0, id % 2 ^ 8, streamNr % 2 ^ 8⟩, scm'.setGc id true)

/-- `Scm::unregister_ctlr`; `none` if an assertion fails. -/
def unregisterCtlr (scm : ScmReg) (ctlr : Nat) (ri : RegInfo) : Option ScmReg :=
  if ri.riErr ≠ 0 then some scm
  else if scm.ctlrs[ri.riCtlrId]? ≠ some (some ctlr) then none
  else if ri.riStreamNr = 0 ∨ scm.usedStreams < ri.riStreamNr then none
  else
    some (((scm.setGc ri.riCtlrId false).subStreams ri.riStreamNr).unregisterStoCtlr ctlr)

/-- The tables agree, the slots are numbered in eight bits and the streams in 32. -/
structure Wf (scm : ScmReg) : Prop where
  gc : ∀ id : Nat, scm.ctlrs[id]? = some none → scm.gc id = false
  slots : scm.ctlrs.length ≤ 255
  streams : scm.usedStreams + 2 * usalsappMaxStreams < 2 ^ 32

end ScmReg

/-- What a call of `allocator_init` runs into. -/
inductive AllocFault where
  | none
  | malloc
  | thread (err : Int)
  deriving DecidableEq, Repr

/-- An allocator: which one it is, and the flags it was given. -/
structure Alltr where
  id : Nat
  gfsFlags : GfsFlags
  deriving DecidableEq, Repr

/-- The members of `SalsaCtlr`; `alltr false` are the user allocators and `alltr true` those for
relocation. -/
structure CtlrState where
  cbScm : Bool
  cbPropSet : PropSet
  cbGfsFlags : GfsFlags
  cbRi : RegInfo
  streamNr : Nat
  relStreamNr : Nat
  reservedPerSeg : Nat
  alltr : Bool → Nat → Option Alltr

/-- The constructor. -/
def CtlrState.new : CtlrState where
  cbScm := false
  cbPropSet := .all
  cbGfsFlags := ⟨false, false, false, false, .all, .all⟩
  cbRi := ⟨-1, 255, 255⟩
  streamNr := 0
  relStreamNr := 0
  reservedPerSeg := 0
  alltr := fun _ _ => none

/-- A manager and a controller. `made` allocators have been created so far, which numbers them,
and those in `exited` have been shut down, in this order. -/
structure World where
  scm : ScmReg
  ctlr : CtlrState
  made : Nat
  exited : List Nat

/-- The arguments of `init` and what its calls run into. -/
structure InitArgs where
  self : Nat
  reservedPerSeg : Nat
  streamNr : Nat
  relStreamNr : Nat
  pset : PropSet
  fault : Bool → Nat → AllocFault

namespace InitArgs

variable (a : InitArgs)

/-- `stream_nr_`. -/
def streams : Nat := max (min a.streamNr usalsappMaxStreams) 1

/-- `rel_stream_nr_`. -/
def relStreams : Nat := max (min a.relStreamNr usalsappMaxStreams) 0

/-- What `allocator_init` returns for the stream. -/
def allocErr (segSize : Nat) (rel : Bool) (stream : Nat) : Int :=
  match a.fault rel stream with
  | .malloc => enomem
  | .none => if segSize < a.reservedPerSeg then einval else 0
  | .thread err => if segSize < a.reservedPerSeg then einval else err

end InitArgs

namespace World

/-- A new allocator in the array. -/
def create (w : World) (rel : Bool) (flags : GfsFlags) (stream : Nat) : World :=
  { w with
    made := w.made + 1
    ctlr := { w.ctlr with
      alltr := fun r s =>
        if r = rel ∧ s = stream then some ⟨w.made, { flags with noBlocking := true }⟩
        else w.ctlr.alltr r s } }

/-- A loop that creates allocators: the error, the stream it ended at, and the world then. -/
def createLoop (a : InitArgs) (rel : Bool) (flags : GfsFlags) :
    Nat → Nat → World → Int × Nat × World
  | 0, stream, w => (0, stream, w)
  | todo + 1, stream, w =>
    if a.allocErr w.scm.params.segmentSize rel stream ≠ 0 then
      (a.allocErr w.scm.params.segmentSize rel stream, stream, w)
    else createLoop a rel flags todo (stream + 1) (w.create rel flags stream)

/-- A loop that shuts allocators down, from `stream - 1` to `0`. There is no allocator where the
pointer is null or the index is beyond the array. -/
def exitLoop (rel : Bool) : Nat → World → Option World
  | 0, w => some w
  | stream + 1, w =>
    match w.ctlr.alltr rel stream with
    | none => none
    | some alltr =>
      exitLoop rel stream
        { w with
          exited := w.exited ++ [alltr.id]
          ctlr := { w.ctlr with
            alltr := fun r s => if r = rel ∧ s = stream then none else w.ctlr.alltr r s } }

/-- From the label `fail2` on. -/
def fail2 (w : World) (self stream : Nat) (err : Int) : Option (Int × World) :=
  (exitLoop false stream w).bind fun w' =>
    (w'.scm.unregisterCtlr self w'.ctlr.cbRi).map fun scm =>
      (err, { w' with
        scm := scm
        ctlr := { w'.ctlr with cbScm := false, cbRi := { w'.ctlr.cbRi with riErr := -1 } } })

/-- From the label `fail3` on. -/
def fail3 (w : World) (self stream : Nat) (err : Int) : Option (Int × World) :=
  (exitLoop true stream w).bind fun w' => w'.fail2 self (w'.ctlr.streamNr + 1) err

/-- The creation of the allocators, after the registration. -/
def createAll (w : World) (a : InitArgs) (flags : GfsFlags) : Option (Int × World) :=
  match createLoop a false { flags with reloc := false } w.ctlr.streamNr 0 w with
  | (err, stream, w₁) =>
    if err ≠ 0 then w₁.fail2 a.self stream err
    else
      match createLoop a true { flags with reloc := true } w.ctlr.relStreamNr 0 w₁ with
      | (err, stream, w₂) =>
        if err ≠ 0 then w₂.fail3 a.self stream err
        else if w.ctlr.relStreamNr = 0 then
          some (0, { w₂ with
            ctlr := { w₂.ctlr with
              alltr := fun r s =>
                if r = true ∧ s = 0 then w₂.ctlr.alltr false (w.ctlr.streamNr - 1)
                else w₂.ctlr.alltr r s } })
        else some (0, w₂)

def enter (w : World) (a : InitArgs) : CtlrState :=
  { w.ctlr with
    cbScm := true, cbPropSet := a.pset, streamNr := a.streams, relStreamNr := a.relStreams,
    reservedPerSeg := a.reservedPerSeg }

/-- The members after it, and the manager with the controller. -/
def registered (w : World) (a : InitArgs) : World :=
  let reg := w.scm.registerCtlr a.self a.pset (a.streams + a.relStreams)
  { w with
    scm := reg.2
    ctlr := { w.enter a with
      cbRi := reg.1
      cbGfsFlags := { w.ctlr.cbGfsFlags with
        propSetPreferred := a.pset, propSetDefault := a.pset } } }

/-- `SalsaCtlr::init`, with a manager; `none` if an assertion fails. The flags for the allocators
are those the controller has when it is called. -/
def init (w : World) (a : InitArgs) : Option (Int × World) :=
  let reg := w.scm.registerCtlr a.self a.pset (a.streams + a.relStreams)
  if reg.1.riErr ≠ 0 then
    some (reg.1.riErr,
      { w with scm := reg.2, ctlr := { w.enter a with cbRi := reg.1, cbScm := false } })
  else if a.streams + a.relStreams ≠ reg.1.riStreamNr then none
  else (w.registered a).createAll a w.ctlr.cbGfsFlags

end World

/-! ### Registering and giving back -/

namespace ScmReg

variable {scm : ScmReg} {ctlr n : Nat} {pset : PropSet}

theorem subStreams_addStreams (h : scm.usedStreams + n < 2 ^ 32) :
    (scm.addStreams n).subStreams n = scm := by
  have hadd : (scm.usedStreams + n) % 2 ^ 32 = scm.usedStreams + n := Nat.mod_eq_of_lt h
  have hsub : (scm.usedStreams + n + 2 ^ 32 - n) % 2 ^ 32 = scm.usedStreams := by omega
  simp only [addStreams, subStreams, hadd, hsub]

/-- The state after a registration that succeeded, in the slot `id`. -/
def enrolled (scm : ScmReg) (ctlr n id : Nat) : ScmReg :=
  { scm.addStreams n with
    ctlrs := scm.ctlrs.set id (some ctlr)
    ctlrNr := scm.ctlrNr + 1
    gc := fun k => if k = id then true else scm.gc k }

theorem registerStoCtlr_cases (scm : ScmReg) (ctlr : Nat) :
    (∃ err, err ≠ 0 ∧ scm.registerStoCtlr ctlr = .error err) ∨
      ∃ id : Nat, scm.ctlrs[id]? = some none ∧ some ctlr ∉ scm.ctlrs ∧
        scm.registerStoCtlr ctlr = .ok (id,
          { scm with ctlrs := scm.ctlrs.set id (some ctlr), ctlrNr := scm.ctlrNr + 1 }) := by
  unfold registerStoCtlr
  split
  · exact .inl ⟨eexist, by decide, rfl⟩
  · next hmem =>
    cases hfind : scm.ctlrs.findIdx? Option.isNone with
    | none => exact .inl ⟨enospc, by decide, rfl⟩
    | some id =>
      obtain ⟨hlt, hnone, -⟩ := List.findIdx?_eq_some_iff_getElem.mp hfind
      refine .inr ⟨id, ?_, hmem, rfl⟩
      rw [getElem?_eq_getElem hlt, isNone_iff_eq_none.mp hnone]

theorem registerCtlr_cases (ctlr : Nat) (pset : PropSet) (hwf : scm.Wf)
    (hn : n ≤ 2 * usalsappMaxStreams) :
    ((scm.registerCtlr ctlr pset n).1.riErr ≠ 0 ∧ (scm.registerCtlr ctlr pset n).2 = scm) ∨
      ∃ id : Nat, scm.ctlrs[id]? = some none ∧ some ctlr ∉ scm.ctlrs ∧
        scm.registerCtlr ctlr pset n = (⟨0, id, n % 2 ^ 8⟩, scm.enrolled ctlr n id) := by
  unfold registerCtlr
  split
  · exact .inl ⟨show enospc ≠ 0 by decide, rfl⟩
  split
  · exact .inl ⟨show einval ≠ 0 by decide, rfl⟩
  rcases registerStoCtlr_cases (scm.addStreams n) ctlr with ⟨err, herr, h⟩ | ⟨id, hid, hmem, h⟩
  · have hstreams := hwf.streams
    rw [h]
    exact .inl ⟨herr, subStreams_addStreams (by omega)⟩
  · have hlt : id < scm.ctlrs.length := (List.getElem?_eq_some_iff.mp hid).1
    have hslots : scm.ctlrs.length ≤ 255 := hwf.slots
    refine .inr ⟨id, hid, hmem, ?_⟩
    rw [h]
    simp only [Nat.mod_eq_of_lt (show id < 2 ^ 8 by omega)]
    rfl

theorem unregister_set {ctlrs : List (Option Nat)} {id : Nat} (hid : ctlrs[id]? = some none)
    (hmem : some ctlr ∉ ctlrs) :
    (ctlrs.set id (some ctlr)).findIdx? (fun slot => slot == some ctlr) = some id := by
  obtain ⟨hlt, -⟩ := List.getElem?_eq_some_iff.mp hid
  rw [List.findIdx?_eq_some_iff_getElem]
  refine ⟨by simpa using hlt, by simp, fun j hj => ?_⟩
  have hne : id ≠ j := by omega
  simp only [getElem_set_ne hne, beq_iff_eq]
  exact fun h => hmem (h ▸ getElem_mem _)

/-- What a registration took is given back, if eight bits can count its streams. -/
theorem unregister_enrolled {id : Nat} (hwf : scm.Wf) (hpos : 0 < n) (hn : n < 2 ^ 8)
    (hid : scm.ctlrs[id]? = some none) (hmem : some ctlr ∉ scm.ctlrs) :
    (scm.enrolled ctlr n id).unregisterCtlr ctlr ⟨0, id, n % 2 ^ 8⟩ = some scm := by
  have hstreams := hwf.streams
  have hmax : usalsappMaxStreams = 128 := rfl
  obtain ⟨hlt, -⟩ := List.getElem?_eq_some_iff.mp hid
  have hused : (scm.enrolled ctlr n id).usedStreams = scm.usedStreams + n :=
    Nat.mod_eq_of_lt (by omega)
  have hslot : (scm.enrolled ctlr n id).ctlrs[id]? = some (some ctlr) := by
    simp [enrolled, hlt]
  have hrestore : (scm.ctlrs.set id (some ctlr)).set id none = scm.ctlrs := by
    rw [set_set]
    apply ext_getElem?
    intro j
    grind
  have hgc : (fun k => if k = id then false else (scm.enrolled ctlr n id).gc k) = scm.gc := by
    funext k
    by_cases hk : k = id
    · subst hk
      simp [hwf.gc k hid]
    · simp [enrolled, hk]
  have hsub : (scm.usedStreams + n + 2 ^ 32 - n) % 2 ^ 32 = scm.usedStreams := by omega
  rw [Nat.mod_eq_of_lt hn]
  unfold unregisterCtlr
  rw [if_neg (by simp), if_neg (by simp [hslot]), if_neg (by simp only [hused]; omega)]
  unfold unregisterStoCtlr
  simp only [subStreams, setGc, hused, hsub, hgc]
  simp only [enrolled, unregister_set hid hmem, hrestore, Nat.add_sub_cancel]
  rfl

end ScmReg

/-! ### The two kinds of loops -/

namespace World

variable {w : World} {a : InitArgs} {rel : Bool} {flags : GfsFlags}

/-- The world with the first `j` allocators of an array. -/
def withAlltrs (w : World) (rel : Bool) (flags : GfsFlags) (j : Nat) : World :=
  { w with
    made := w.made + j
    ctlr := { w.ctlr with
      alltr := fun r s =>
        if r = rel ∧ s < j then some ⟨w.made + s, { flags with noBlocking := true }⟩
        else w.ctlr.alltr r s } }

@[simp] theorem withAlltrs_scm (j : Nat) : (w.withAlltrs rel flags j).scm = w.scm := rfl

theorem withAlltrs_zero : w.withAlltrs rel flags 0 = w := by
  simp [withAlltrs]

theorem create_withAlltrs (j : Nat) :
    (w.withAlltrs rel flags j).create rel flags j = w.withAlltrs rel flags (j + 1) := by
  unfold create withAlltrs
  simp only [Nat.add_assoc]
  congr 2
  funext r s
  by_cases hr : r = rel
  · rcases Nat.lt_trichotomy s j with hs | hs | hs
    · simp [hr, hs, Nat.ne_of_lt hs, Nat.lt_succ_of_lt hs]
    · simp [hr, hs]
    · simp [hr, Nat.not_lt.mpr (Nat.le_of_lt hs), Nat.ne_of_gt hs,
        Nat.not_lt.mpr (Nat.succ_le_of_lt hs)]
  · simp [hr]

theorem createLoop_spec (w : World) (a : InitArgs) (rel : Bool) (flags : GfsFlags) (todo j : Nat) :
    ∃ j', j ≤ j' ∧ j' ≤ j + todo ∧
      (∀ k, j ≤ k → k < j' → a.allocErr w.scm.params.segmentSize rel k = 0) ∧
      ((j' = j + todo ∧
          createLoop a rel flags todo j (w.withAlltrs rel flags j) =
            (0, j', w.withAlltrs rel flags j')) ∨
        (j' < j + todo ∧ a.allocErr w.scm.params.segmentSize rel j' ≠ 0 ∧
          createLoop a rel flags todo j (w.withAlltrs rel flags j) =
            (a.allocErr w.scm.params.segmentSize rel j', j', w.withAlltrs rel flags j'))) := by
  induction todo generalizing j with
  | zero => exact ⟨j, Nat.le_refl j, Nat.le_refl j, fun k h1 h2 => by omega, .inl ⟨rfl, rfl⟩⟩
  | succ todo ih =>
    by_cases herr : a.allocErr w.scm.params.segmentSize rel j = 0
    · obtain ⟨j', hle, hle', hok, hres⟩ := ih (j + 1)
      have hstep : createLoop a rel flags (todo + 1) j (w.withAlltrs rel flags j) =
          createLoop a rel flags todo (j + 1) (w.withAlltrs rel flags (j + 1)) := by
        rw [createLoop, withAlltrs_scm, if_neg (not_not.mpr herr), create_withAlltrs]
      rw [hstep]
      refine ⟨j', by omega, by omega, fun k h1 h2 => ?_, ?_⟩
      · rcases Nat.eq_or_lt_of_le h1 with rfl | hlt
        · exact herr
        · exact hok k hlt h2
      · rcases hres with ⟨heq, hrun⟩ | ⟨hlt, herr', hrun⟩
        · exact .inl ⟨by omega, hrun⟩
        · exact .inr ⟨by omega, herr', hrun⟩
    · refine ⟨j, Nat.le_refl j, by omega, fun k h1 h2 => by omega, .inr ⟨by omega, herr, ?_⟩⟩
      rw [createLoop, withAlltrs_scm, if_pos herr]

def AllMade (w : World) (a : InitArgs) (rel : Bool) (streams : Nat) : Prop :=
  ∀ k < streams, a.allocErr w.scm.params.segmentSize rel k = 0

theorem createLoop_cases (w : World) (a : InitArgs) (rel : Bool) (flags : GfsFlags) (todo : Nat) :
    (w.AllMade a rel todo ∧
        createLoop a rel flags todo 0 w = (0, todo, w.withAlltrs rel flags todo)) ∨
      (¬ w.AllMade a rel todo ∧ ∃ err j, err ≠ 0 ∧
        createLoop a rel flags todo 0 w = (err, j, w.withAlltrs rel flags j)) := by
  obtain ⟨j, -, -, hok, hrun⟩ := createLoop_spec w a rel flags todo 0
  rw [withAlltrs_zero, Nat.zero_add] at hrun
  rcases hrun with ⟨rfl, hrun⟩ | ⟨hlt, herr, hrun⟩
  · exact .inl ⟨fun k hk => hok k (Nat.zero_le k) hk, hrun⟩
  · exact .inr ⟨fun h => herr (h j hlt), _, j, herr, hrun⟩

/-- The array of the loop holds the allocators `base`, `base + 1`, … up to a stream. -/
def Holds (w : World) (rel : Bool) (base j : Nat) : Prop :=
  ∀ s, if s < j then ∃ alltr, w.ctlr.alltr rel s = some alltr ∧ alltr.id = base + s
    else w.ctlr.alltr rel s = none

/-- The world with the array empty and its allocators shut down, the last one first. -/
def withExits (w : World) (rel : Bool) (base j : Nat) : World :=
  { w with
    exited := w.exited ++ (List.range' base j).reverse
    ctlr := { w.ctlr with alltr := fun r s => if r = rel then none else w.ctlr.alltr r s } }

variable {j self : Nat} {err : Int}

theorem exitLoop_holds {base : Nat} (h : w.Holds rel base j) :
    exitLoop rel j w = some (w.withExits rel base j) := by
  induction j generalizing w with
  | zero =>
    have halltr : (fun r s => if r = rel then none else w.ctlr.alltr r s) = w.ctlr.alltr := by
      funext r s
      by_cases hr : r = rel
      · have := h s
        simp only [Nat.not_lt_zero, if_false] at this
        simp [hr, this]
      · simp [hr]
    simp [exitLoop, withExits, halltr]
  | succ j ih =>
    have hj := h j
    rw [if_pos (Nat.lt_succ_self j)] at hj
    obtain ⟨alltr, halltr, hid⟩ := hj
    simp only [exitLoop, halltr]
    have hrest : Holds { w with
        exited := w.exited ++ [alltr.id]
        ctlr := { w.ctlr with
          alltr := fun r s => if r = rel ∧ s = j then none else w.ctlr.alltr r s } }
        rel base j := by
      intro s
      have hs := h s
      rcases Nat.lt_trichotomy s j with hlt | heq | hgt
      · simpa [hlt, Nat.ne_of_lt hlt, Nat.lt_succ_of_lt hlt] using hs
      · simp [heq]
      · simpa [Nat.not_lt.mpr (Nat.le_of_lt hgt), Nat.ne_of_gt hgt,
          Nat.not_lt.mpr (Nat.succ_le_of_lt hgt)] using hs
    rw [ih hrest]
    have hrange : [base + j] ++ (List.range' base j).reverse =
      (List.range' base (j + 1)).reverse := by
      rw [range'_concat]
      simp
    have hempty : (fun r s => if r = rel then none else
        if r = rel ∧ s = j then none else w.ctlr.alltr r s) =
        fun r s => if r = rel then none else w.ctlr.alltr r s := by
      funext r s
      by_cases hr : r = rel <;> simp [hr]
    simp only [withExits, hid, append_assoc, hrange, hempty]

theorem exitLoop_succ_of_none (h : w.ctlr.alltr rel j = none) : exitLoop rel (j + 1) w = none := by
  simp [exitLoop, h]

structure Idle (w : World) : Prop where
  cbScm : w.ctlr.cbScm = false
  alltr : ∀ r s, w.ctlr.alltr r s = none

/-- All that a call of `init` took is given back: the streams, the slot and the collector's
function, and the allocators it made, each shut down once. The controller is what it was for the
next call. -/
structure GivenBack (w w' : World) : Prop where
  scm : w'.scm = w.scm
  exited : w'.exited.Perm (w.exited ++ List.range' w.made (w'.made - w.made))
  made : w.made ≤ w'.made
  idle : w'.Idle
  flags : w'.ctlr.cbGfsFlags = w.ctlr.cbGfsFlags

def AllOrNothing (w : World) (a : InitArgs) : Prop :=
  ∃ err w', w.init a = some (err, w') ∧ (err ≠ 0 → w.GivenBack w')

def Registers (w : World) (a : InitArgs) : Prop :=
  (w.scm.registerCtlr a.self a.pset (a.streams + a.relStreams)).1.riErr = 0

/-- If the registration succeeds, its streams can be counted in eight bits, and either a user
allocator fails and the flags are those of the property set already, or the relocation
allocators do not fail. -/
def InitSafe (w : World) (a : InitArgs) : Prop :=
  w.Registers a →
    a.streams + a.relStreams < 2 ^ 8 ∧
      (w.AllMade a false a.streams → w.AllMade a true a.relStreams) ∧
      (¬ w.AllMade a false a.streams →
        w.ctlr.cbGfsFlags.propSetPreferred = a.pset ∧ w.ctlr.cbGfsFlags.propSetDefault = a.pset)

theorem streams_le (a : InitArgs) :
    0 < a.streams ∧ a.streams + a.relStreams ≤ 2 * usalsappMaxStreams := by
  have : usalsappMaxStreams = 128 := rfl
  simp only [InitArgs.streams, InitArgs.relStreams]
  omega

theorem holds_withAlltrs (h : ∀ s, w.ctlr.alltr rel s = none) :
    (w.withAlltrs rel flags j).Holds rel w.made j := by
  intro s
  by_cases hs : s < j
  · simp [withAlltrs, hs]
  · simp [withAlltrs, hs, h s]

/-- After a failed user allocator everything that was made and taken is given back. -/
theorem fail2_withAlltrs {scm : ScmReg} (h : ∀ s, w.ctlr.alltr false s = none)
    (hun : w.scm.unregisterCtlr self w.ctlr.cbRi = some scm) :
    (w.withAlltrs false flags j).fail2 self j err = some (err,
      { w with
        scm := scm
        made := w.made + j
        exited := w.exited ++ (List.range' w.made j).reverse
        ctlr := { w.ctlr with cbScm := false, cbRi := { w.ctlr.cbRi with riErr := -1 } } }) := by
  have halltr : (fun r s => if r = false then none else
      (w.withAlltrs false flags j).ctlr.alltr r s) = w.ctlr.alltr := by
    funext r s
    cases r with
    | false => simp [h s]
    | true => simp [withAlltrs]
  unfold fail2
  rw [exitLoop_holds (holds_withAlltrs h), bind_some]
  simp only [withExits, halltr]
  simp only [withAlltrs, hun, map_some]

/-- After a failed relocation allocator the way back looks for a user allocator too many. -/
theorem fail3_withAlltrs (h : ∀ s, w.ctlr.alltr true s = none)
    (hnone : w.ctlr.alltr false w.ctlr.streamNr = none) :
    (w.withAlltrs true flags j).fail3 self j err = none := by
  unfold fail3 fail2
  rw [exitLoop_holds (holds_withAlltrs h), bind_some, exitLoop_succ_of_none, bind_none]
  simp [withExits, withAlltrs, hnone]

theorem createAll_of_made (flags : GfsFlags) (husers : w.AllMade a false w.ctlr.streamNr)
    (hrels : w.AllMade a true w.ctlr.relStreamNr) : ∃ w', w.createAll a flags = some (0, w') := by
  unfold createAll
  rcases createLoop_cases w a false { flags with reloc := false } w.ctlr.streamNr with
    ⟨-, hrun⟩ | ⟨hnot, -⟩
  · rcases createLoop_cases (w.withAlltrs false { flags with reloc := false } w.ctlr.streamNr)
      a true
      { flags with reloc := true } w.ctlr.relStreamNr with ⟨-, hrun'⟩ | ⟨hnot, -⟩
    · rw [hrun]
      dsimp only
      rw [if_neg (by simp), hrun']
      dsimp only
      rw [if_neg (by simp)]
      split <;> exact ⟨_, rfl⟩
    · exact absurd hrels hnot
  · exact absurd husers hnot

theorem createAll_cases (flags : GfsFlags) {scm : ScmReg} (hidle : ∀ r s, w.ctlr.alltr r s = none)
    (hun : w.scm.unregisterCtlr a.self w.ctlr.cbRi = some scm) :
    (w.AllMade a false w.ctlr.streamNr ∧ w.AllMade a true w.ctlr.relStreamNr ∧
        ∃ w', w.createAll a flags = some (0, w')) ∨
      (w.AllMade a false w.ctlr.streamNr ∧ ¬ w.AllMade a true w.ctlr.relStreamNr ∧
        w.createAll a flags = none) ∨
      (¬ w.AllMade a false w.ctlr.streamNr ∧ ∃ err j, err ≠ 0 ∧
        w.createAll a flags = some (err,
          { w with
            scm := scm
            made := w.made + j
            exited := w.exited ++ (List.range' w.made j).reverse
            ctlr := { w.ctlr with
              cbScm := false, cbRi := { w.ctlr.cbRi with riErr := -1 } } })) := by
  rcases createLoop_cases w a false { flags with reloc := false } w.ctlr.streamNr with
    ⟨husers, hrun⟩ | ⟨husers, err, j, herr, hrun⟩
  · -- the world with all user allocators, whose other array is still empty
    generalize hw₁ : w.withAlltrs false { flags with reloc := false } w.ctlr.streamNr = w₁
    have hrel : ∀ s, w₁.ctlr.alltr true s = none := by
      intro s
      simp [← hw₁, withAlltrs, hidle]
    have hlast : w₁.ctlr.alltr false w₁.ctlr.streamNr = none := by
      simp [← hw₁, withAlltrs, hidle]
    have hscm : ∀ n, w₁.AllMade a true n ↔ w.AllMade a true n := by
      intro n
      simp [← hw₁, AllMade]
    rcases createLoop_cases w₁ a true { flags with reloc := true } w.ctlr.relStreamNr with
      ⟨hrels, hrun'⟩ | ⟨hrels, err, j, herr, hrun'⟩
    · left
      have hrels := (hscm _).mp hrels
      exact ⟨husers, hrels, createAll_of_made flags husers hrels⟩
    · right; left
      refine ⟨husers, fun h => hrels ((hscm _).mpr h), ?_⟩
      unfold createAll
      rw [hrun]
      dsimp only
      rw [if_neg (by simp), hw₁, hrun']
      dsimp only
      rw [if_pos herr]
      exact fail3_withAlltrs hrel hlast
  · right; right
    refine ⟨husers, err, j, herr, ?_⟩
    unfold createAll
    rw [hrun]
    dsimp only
    rw [if_pos herr]
    exact fail2_withAlltrs (hidle false) hun

def FlagSets (w : World) (flags : GfsFlags) : Prop :=
  ∀ r s alltr, w.ctlr.alltr r s = some alltr →
    alltr.gfsFlags.propSetPreferred = flags.propSetPreferred ∧
      alltr.gfsFlags.propSetDefault = flags.propSetDefault

theorem FlagSets.withAlltrs (h : w.FlagSets flags) (flags' : GfsFlags)
    (hpref : flags'.propSetPreferred = flags.propSetPreferred)
    (hdef : flags'.propSetDefault = flags.propSetDefault) (rel : Bool) (j : Nat) :
    (w.withAlltrs rel flags' j).FlagSets flags := by
  intro r s alltr halltr
  simp only [World.withAlltrs] at halltr
  split at halltr
  · cases halltr
    exact ⟨hpref, hdef⟩
  · exact h r s alltr halltr

theorem fail2_ne_ok (herr : err ≠ 0) (w' : World) : w.fail2 self j err ≠ some (0, w') := by
  intro h
  obtain ⟨v, -, hv⟩ := bind_eq_some_iff.mp h
  obtain ⟨scm, -, hscm⟩ := map_eq_some_iff.mp hv
  exact herr (congrArg Prod.fst hscm)

theorem fail3_ne_ok (herr : err ≠ 0) (w' : World) : w.fail3 self j err ≠ some (0, w') := by
  intro h
  obtain ⟨v, -, hv⟩ := bind_eq_some_iff.mp h
  exact fail2_ne_ok herr w' hv

/-- The allocators of a controller that was started have the sets of the flags they were made
with, and the first user allocator is there. -/
theorem alltr_of_createAll {w' : World} (hidle : ∀ r s, w.ctlr.alltr r s = none)
    (hpos : 0 < w.ctlr.streamNr) (h : w.createAll a flags = some (0, w')) :
    w'.FlagSets flags ∧ ∃ alltr, w'.ctlr.alltr false 0 = some alltr ∧
      alltr.gfsFlags = { flags with reloc := false, noBlocking := true } := by
  unfold createAll at h
  rcases createLoop_cases w a false { flags with reloc := false } w.ctlr.streamNr with
    ⟨-, hrun⟩ | ⟨-, err, j, herr, hrun⟩
  · rw [hrun] at h
    dsimp only at h
    rw [if_neg (by simp)] at h
    generalize hw₁ : w.withAlltrs false { flags with reloc := false } w.ctlr.streamNr = w₁ at h
    have hsets₁ : w₁.FlagSets flags := by
      have h₀ : w.FlagSets flags := fun r s alltr halltr => by simp [hidle r s] at halltr
      exact hw₁ ▸ h₀.withAlltrs { flags with reloc := false } rfl rfl false _
    have hfirst : ∃ alltr, w₁.ctlr.alltr false 0 = some alltr ∧
        alltr.gfsFlags = { flags with reloc := false, noBlocking := true } := by
      simp [← hw₁, withAlltrs, hpos]
    rcases createLoop_cases w₁ a true { flags with reloc := true } w.ctlr.relStreamNr with
      ⟨-, hrun'⟩ | ⟨-, err, j, herr, hrun'⟩
    · rw [hrun'] at h
      dsimp only at h
      rw [if_neg (by simp)] at h
      have hsets₂ := hsets₁.withAlltrs { flags with reloc := true } rfl rfl true
        w.ctlr.relStreamNr
      split at h
      · cases h
        refine ⟨fun r s alltr halltr => ?_, by simpa [withAlltrs] using hfirst⟩
        dsimp only at halltr
        split at halltr
        · exact hsets₂ _ _ alltr halltr
        · exact hsets₂ _ _ alltr halltr
      · cases h
        exact ⟨hsets₂, by simpa [withAlltrs] using hfirst⟩
    · rw [hrun'] at h
      dsimp only at h
      rw [if_pos herr] at h
      exact absurd h (fail3_ne_ok herr w')
  · rw [hrun] at h
    dsimp only at h
    rw [if_pos herr] at h
    exact absurd h (fail2_ne_ok herr w')

theorem alltr_of_init {w' : World} (hidle : w.Idle) (h : w.init a = some (0, w')) :
    w.Registers a ∧ w'.FlagSets w.ctlr.cbGfsFlags ∧ ∃ alltr, w'.ctlr.alltr false 0 = some alltr ∧
      alltr.gfsFlags = { w.ctlr.cbGfsFlags with reloc := false, noBlocking := true } := by
  simp only [init] at h
  split at h
  · next herr =>
    exact absurd (congrArg Prod.fst (Option.some.inj h)) herr
  · next hreg =>
    split at h
    · cases h
    · exact ⟨not_not.mp hreg,
        alltr_of_createAll (w := w.registered a) hidle.alltr (streams_le a).1 h⟩

theorem registered_flags_iff (w : World) (a : InitArgs) :
    (w.registered a).ctlr.cbGfsFlags = w.ctlr.cbGfsFlags ↔
      w.ctlr.cbGfsFlags.propSetPreferred = a.pset ∧ w.ctlr.cbGfsFlags.propSetDefault = a.pset := by
  simp only [registered]
  generalize w.ctlr.cbGfsFlags = flags
  constructor
  · exact fun h => ⟨congrArg GfsFlags.propSetPreferred h.symm,
      congrArg GfsFlags.propSetDefault h.symm⟩
  · rintro ⟨hpref, hdef⟩
    cases flags
    simp only at hpref hdef
    rw [hpref, hdef]

theorem init_eq_createAll {id : Nat} (h8 : a.streams + a.relStreams < 2 ^ 8)
    (hreg : (w.scm.registerCtlr a.self a.pset (a.streams + a.relStreams)).1 =
      ⟨0, id, (a.streams + a.relStreams) % 2 ^ 8⟩) :
    w.init a = (w.registered a).createAll a w.ctlr.cbGfsFlags := by
  rw [init, if_neg, if_neg]
  · rw [hreg, Nat.mod_eq_of_lt h8]
    exact not_not.mpr rfl
  · rw [hreg]
    exact not_not.mpr rfl

theorem allOrNothing_iff (w : World) (a : InitArgs) (hidle : w.Idle) (hwf : w.scm.Wf) :
    w.AllOrNothing a ↔ w.InitSafe a := by
  obtain ⟨hpos, hle⟩ := streams_le a
  have hmax : usalsappMaxStreams = 128 := rfl
  rcases ScmReg.registerCtlr_cases a.self a.pset hwf hle with
    ⟨herr, hsame⟩ | ⟨id, hid, hmem, hreg⟩
  · -- nothing was taken
    refine iff_of_true ⟨_, { w with
      scm := _, ctlr := { w.enter a with cbRi := _, cbScm := false } }, if_pos herr, fun _ => ?_⟩
      (fun hr => absurd hr herr)
    exact ⟨hsame, by simp, Nat.le_refl _, ⟨rfl, hidle.alltr⟩, rfl⟩
  have hregs : w.Registers a := by rw [Registers, hreg]
  have herr : ¬ (w.scm.registerCtlr a.self a.pset (a.streams + a.relStreams)).1.riErr ≠ 0 :=
    not_not.mpr hregs
  unfold AllOrNothing InitSafe
  simp only [hregs, true_implies]
  by_cases h8 : a.streams + a.relStreams < 2 ^ 8
  · have hinit : w.init a = (w.registered a).createAll a w.ctlr.cbGfsFlags :=
      init_eq_createAll h8 (by rw [hreg])
    have hun : (w.registered a).scm.unregisterCtlr a.self (w.registered a).ctlr.cbRi =
        some w.scm := by
      simp only [registered, hreg]
      exact ScmReg.unregister_enrolled hwf (by omega) h8 hid hmem
    have hmade : ∀ rel n, (w.registered a).AllMade a rel n ↔ w.AllMade a rel n := by
      intro rel n
      simp [AllMade, registered, hreg, ScmReg.enrolled, ScmReg.addStreams]
    rw [hinit]
    rcases createAll_cases (w := w.registered a) w.ctlr.cbGfsFlags hidle.alltr hun with
      ⟨husers, hrels, w', hrun⟩ | ⟨husers, hrels, hrun⟩ | ⟨husers, err, j, herr, hrun⟩
    · refine iff_of_true ⟨0, w', hrun, fun h => absurd rfl h⟩
        ⟨h8, fun _ => (hmade _ _).mp hrels, ?_⟩
      exact fun h => absurd ((hmade _ _).mp husers) h
    · refine iff_of_false ?_ fun h => hrels ((hmade _ _).mpr (h.2.1 ((hmade _ _).mp husers)))
      rintro ⟨err, w', h, -⟩
      rw [hrun] at h
      cases h
    · have hback : GivenBack w { w.registered a with
          scm := w.scm
          made := w.made + j
          exited := w.exited ++ (List.range' w.made j).reverse
          ctlr := { (w.registered a).ctlr with
            cbScm := false, cbRi := { (w.registered a).ctlr.cbRi with riErr := -1 } } } ↔
          (w.registered a).ctlr.cbGfsFlags = w.ctlr.cbGfsFlags := by
        refine ⟨fun h => h.flags, fun h => ⟨rfl, ?_, Nat.le_add_right _ _, ⟨rfl, hidle.alltr⟩, h⟩⟩
        simp only [Nat.add_sub_cancel_left]
        exact (reverse_perm _).append_left _
      rw [registered_flags_iff] at hback
      have husers' : ¬ w.AllMade a false a.streams := fun h => husers ((hmade _ _).mpr h)
      constructor
      · rintro ⟨err', w', h, hgiven⟩
        rw [hrun] at h
        cases h
        exact ⟨h8, fun h => absurd h husers', fun _ => hback.mp (hgiven herr)⟩
      · rintro ⟨-, -, hflags⟩
        exact ⟨err, _, hrun, fun _ => hback.mpr (hflags husers')⟩
  · refine iff_of_false ?_ fun h => h8 h.1
    rintro ⟨err, w', h, -⟩
    rw [init, if_neg herr, if_pos] at h
    · cases h
    · rw [hreg]
      simp only
      omega

/-- A manager of 256 segments, half of them spare, and a new controller. -/
def smallWorld : World where
  scm :=
    { params := ⟨2 ^ 20, 512, 8, 500⟩
      queues := [⟨.all, 256⟩]
      usedStreams := 0
      ctlrs := [none, none]
      ctlrNr := 0
      gc := fun _ => false }
  ctlr := .new
  made := 0
  exited := []

theorem idle_smallWorld : smallWorld.Idle := ⟨rfl, fun _ _ => rfl⟩

theorem wf_smallWorld : smallWorld.scm.Wf := ⟨fun _ _ => rfl, by decide, by decide⟩

/-- Two streams and one for relocation, whose allocator gets no memory. -/
def relFault : InitArgs := ⟨1, 1, 2, 1, .all, fun rel _ => if rel then .malloc else .none⟩

/-- The way back from the failed relocation allocator starts at a user allocator that was never
made. -/
theorem allOrNothing_fails_rel :
    (smallWorld.init relFault).isNone = true ∧ ¬ smallWorld.AllOrNothing relFault := by
  have hnone : (smallWorld.init relFault).isNone = true := by decide
  refine ⟨hnone, ?_⟩
  rintro ⟨err, w', h, -⟩
  rw [h] at hnone
  cases hnone

/-- Two streams, the second of which gets no memory. -/
def userFault : InitArgs :=
  ⟨1, 1, 2, 1, .all, fun rel s => if rel then .none else if s = 1 then .malloc else .none⟩

theorem allOrNothing_user :
    (smallWorld.Idle ∧ smallWorld.scm.Wf) ∧ smallWorld.AllOrNothing userFault := by
  refine ⟨⟨idle_smallWorld, wf_smallWorld⟩,
    (allOrNothing_iff smallWorld userFault idle_smallWorld wf_smallWorld).mpr fun _ => ?_⟩
  refine ⟨by decide, fun h => ?_, fun _ => ⟨rfl, rfl⟩⟩
  exact absurd (h 1 (by decide)) (by decide)

end World

end UDepot.Scm
