import UDepot.FreeSeg
import UDepot.SegPartition
import UDepot.Lib.Custody
import Mathlib.Logic.Relation

/-! The free segments over whole runs. Segments are taken from the queues, change in the hands of
their holders and are put back; none is lost, and none is given out twice. -/

namespace UDepot.Scm
open DevProperties List
open Function (update)
open Custody (Tracks)

/-- Where a segment is: given out, or on one of the lists of a queue. -/
inductive Place where
  | held
  | on (k : Nat) (reloc : Bool)
  deriving DecidableEq

/-- The state of the segments on a list. -/
def freeState (reloc : Bool) : SegState := if reloc then .freeRel else .free

namespace SegQueues

def listAt (s : SegQueues) (k : Nat) (reloc : Bool) : List Nat :=
  (s.queues[k]?.map fun q => q.freeq reloc).getD []

def listOf (s : SegQueues) (held : List Nat) : Place → List Nat
  | .held => held
  | .on k reloc => s.listAt k reloc

/-- To the tail of one of the lists. -/
def add (s : SegQueues) (k : Nat) (reloc : Bool) (i : Nat) : SegQueues :=
  if reloc then s.enqueueRel k i else s.enqueue k i

/-- Each segment is in at most one place, once. What is on a list says so itself, what is held says
which queue it goes back to, and no queue keeps more for relocation than it has to. -/
structure Kept (s : SegQueues) (held : List Nat) (place : Nat → Option Place) : Prop where
  tracks : Tracks (s.listOf held) some place
  on : ∀ i k r, place i = some (.on k r) →
    (s.seg i).queueId = k ∧ (s.seg i).state = freeState r
  back : ∀ i, place i = some .held → (s.seg i).queueId < s.queues.length
  reserve : ∀ k, (s.listAt k true).length ≤ salsaMinRelSegments

end SegQueues

/-- The manager, and the segments that were given out. -/
structure Pool where
  mgr : Mgr
  held : List Nat

/-- A call of `scm_get_free_seg`, whatever the flags and the callbacks, a change of a segment by
its holder, or its way back. `q_id` is written by `segment_init` only. -/
inductive Pool.Step : Pool → Pool → Prop
  | get {p : Pool} {flags : GfsFlags} {cb : Mgr.AllocCb} {res : Mgr.GetRes} :
      p.mgr.scmGetFreeSeg flags cb = some res → Step p ⟨res.mgr, res.segOut.toList ++ p.held⟩
  | change {p : Pool} {i : Nat} {seg : Seg} : i ∈ p.held →
      seg.queueId = (p.mgr.qs.seg i).queueId →
      Step p ⟨{ p.mgr with qs := p.mgr.qs.setSeg i seg }, p.held⟩
  | put {p : Pool} {i : Nat} (thinProv : Bool) : i ∈ p.held →
      Step p ⟨(p.mgr.scmPutFreeSeg i thinProv).1, p.held.erase i⟩

namespace SegQueues

variable {s s' : SegQueues} {held : List Nat} {place : Nat → Option Place} {i k : Nat}
  {reloc : Bool}

theorem listAt_popHead (h : s.popHead k reloc = some (i, s')) :
    s.listAt k reloc = i :: s'.listAt k reloc ∧
      ∀ k' r, Place.on k' r ≠ .on k reloc → s'.listAt k' r = s.listAt k' r := by
  obtain ⟨q, hq, hi, rfl⟩ := Mgr.popHead_cases h
  obtain ⟨hk, -⟩ := List.getElem?_eq_some_iff.mp hq
  have hcons := cons_head?_tail hi
  refine ⟨?_, fun k' r hne => ?_⟩
  · cases reloc <;>
      simpa [listAt, hq, getElem?_set_self hk, dropHead, SegQueue.freeq] using hcons.symm
  · by_cases hk' : k' = k
    · subst hk'
      cases reloc <;> cases r <;> simp_all [listAt, dropHead, SegQueue.freeq]
    · simp [listAt, getElem?_set_ne (Ne.symm hk')]

theorem listAt_add (hk : k < s.queues.length) (k' : Nat) (r : Bool) :
    (s.add k reloc i).listAt k' r =
      if Place.on k' r = .on k reloc then s.listAt k' r ++ [i] else s.listAt k' r := by
  by_cases hk' : k' = k
  · subst hk'
    cases reloc <;> cases r <;>
      simp [add, listAt, enqueue, enqueueRel, SegQueue.freeq, getElem?_eq_getElem hk]
  · cases reloc <;> simp [add, listAt, enqueue, enqueueRel, hk', Ne.symm hk']

theorem add_seg (j : Nat) : (s.add k reloc i).seg j =
    if j = i then { s.seg i with state := freeState reloc } else s.seg j := by
  cases reloc <;>
    simp [add, enqueue, enqueueRel, setState, setSeg, freeState, Function.update_apply]

theorem add_length : (s.add k reloc i).queues.length = s.queues.length := by
  cases reloc <;> simp [add, enqueue, enqueueRel]

theorem Kept.popHead (h : s.Kept held place) (hpop : s.popHead k reloc = some (i, s')) :
    s'.Kept (i :: held) (update place i (some .held)) := by
  obtain ⟨hlist, hrest⟩ := listAt_popHead hpop
  obtain ⟨q, hq, -, rfl⟩ := Mgr.popHead_cases hpop
  obtain ⟨hk, -⟩ := List.getElem?_eq_some_iff.mp hq
  have hplace : place i = some (.on k reloc) :=
    (h.tracks.mem (.on k reloc) i).mp (hlist.symm ▸ mem_cons_self : i ∈ s.listAt k reloc)
  refine ⟨h.tracks.transfer (Option.some_injective _) (a := Place.on k reloc) (by simp)
    (Perm.of_eq hlist) (Perm.refl _) ?_, fun j k' r hj => ?_, fun j hj => ?_, fun k' => ?_⟩
  · rintro (_ | ⟨k', r⟩) hne hheld
    · exact absurd rfl hheld
    · exact hrest k' r hne
  · grind [h.on j k' r]
  · have := h.on i k reloc hplace
    have := h.back j
    rw [length_set]
    grind
  · have := h.reserve k'
    by_cases hkr : Place.on k' true = .on k reloc
    · cases hkr
      rw [hlist, length_cons] at this
      omega
    · rwa [hrest k' true hkr]

theorem Kept.add (h : s.Kept held place) (hi : i ∈ held) (hk : (s.seg i).queueId = k)
    (hroom : reloc = true → (s.listAt k true).length < salsaMinRelSegments) :
    (s.add k reloc i).Kept (held.erase i) (update place i (some (.on k reloc))) := by
  have hplace : place i = some .held := (h.tracks.mem .held i).mp hi
  have hlist := @listAt_add s i k reloc (hk ▸ h.back i hplace)
  refine ⟨h.tracks.transfer (Option.some_injective _) (a := Place.held) (by simp)
    (perm_cons_erase hi) ?_ ?_, fun j k' r hj => ?_, fun j hj => ?_, fun k' => ?_⟩
  · change ((s.add k reloc i).listAt k reloc).Perm _
    rw [hlist, if_pos rfl]
    exact perm_append_singleton i _
  · rintro (_ | ⟨k', r⟩) hne hon
    · exact absurd rfl hne
    · exact (hlist k' r).trans (if_neg hon)
  · rw [add_seg]
    grind [h.on j k' r]
  · have := h.back j
    rw [add_seg, add_length]
    grind
  · rw [hlist]
    split
    · rename_i hkr
      cases hkr
      rw [length_append, length_singleton]
      exact hroom rfl
    · exact h.reserve k'

/-- A segment that is on no list may change, but not its queue if someone holds it. -/
theorem Kept.setSeg (h : s.Kept held place) {seg : Seg} (hoff : ∀ k r, place i ≠ some (.on k r))
    (hq : place i = some .held → seg.queueId = (s.seg i).queueId) :
    (s.setSeg i seg).Kept held place := by
  refine ⟨h.tracks, fun j k r hj => ?_, fun j hj => ?_, h.reserve⟩
  · have := h.on j k r hj
    change (update s.seg i seg j).queueId = k ∧ (update s.seg i seg j).state = _
    grind
  · have := h.back j hj
    change (update s.seg i seg j).queueId < s.queues.length
    grind

/-- A segment that is initialised and on no list yet. -/
theorem Kept.adopt (h : s.Kept held place) (hi : place i = none)
    (hk : (s.seg i).queueId < s.queues.length) :
    s.Kept (i :: held) (update place i (some .held)) := by
  refine ⟨h.tracks.insert (a := Place.held) (by simp [hi]) (by simp) (Perm.refl _) ?_,
    fun j k r hj => ?_, fun j hj => ?_, h.reserve⟩
  · rintro (_ | ⟨k, r⟩) hne
    · exact absurd rfl hne
    · rfl
  · grind [h.on j k r]
  · have := h.back j
    grind

theorem mem_listAt {q : SegQueue} (hq : q ∈ s.queues) (hi : i ∈ q.segs ∨ i ∈ q.relSegs) :
    ∃ k r, i ∈ s.listAt k r := by
  obtain ⟨k, hk⟩ := mem_iff_getElem?.mp hq
  rcases hi with hi | hi
  · exact ⟨k, false, by simpa [listAt, hk, SegQueue.freeq] using hi⟩
  · exact ⟨k, true, by simpa [listAt, hk, SegQueue.freeq] using hi⟩

end SegQueues

/-! ## The initial lists -/

/-- Nothing is given out yet, and what is on the lists was initialised. -/
def SegQueues.Filling (s : SegQueues) : Prop :=
  ∃ place, s.Kept [] place ∧ ∀ i, place i ≠ none → s.Touched i

section Init

variable {f : Fill} {s s' : SegQueues}

theorem filling_fillRound {relRem rsi : Nat} {st st' : SegQueues × Nat} (h : st.1.Filling)
    (hq : f.qId < st.1.queues.length)
    (hroom : rsi < relRem → (st.1.listAt f.qId true).length < salsaMinRelSegments)
    (hr : fillRound f relRem rsi st = some st') :
    st'.1.Filling ∧ st'.1.queues.length = st.1.queues.length := by
  obtain ⟨place, hkept, htouched⟩ := h
  have hset : ∀ {seg}, (st.1.seg (f.base + rsi)).init f.segSize f.prop f.qId = some seg →
      (st.1.setSeg (f.base + rsi) seg).Kept [] place ∧ place (f.base + rsi) = none ∧
        seg.queueId = f.qId ∧ seg.outsReadNr ≠ 0 := by
    intro seg hinit
    obtain ⟨h0, h1⟩ := Seg.init_eq_some hinit
    have hnone : place (f.base + rsi) = none := by
      by_contra hne
      exact htouched _ hne h0
    refine ⟨hkept.setSeg (by simp [hnone]) (by simp [hnone]), hnone, ?_, by omega⟩
    unfold Seg.init at hinit
    grind
  -- a segment that is put on a list
  have hadd : ∀ {seg} r, (st.1.seg (f.base + rsi)).init f.segSize f.prop f.qId = some seg →
      (r = true → rsi < relRem) →
      ((st.1.setSeg (f.base + rsi) seg).add f.qId r (f.base + rsi)).Filling := by
    intro seg r hinit hrel
    obtain ⟨hk, hnone, hqid, hne⟩ := hset hinit
    have hself : (st.1.setSeg (f.base + rsi) seg).seg (f.base + rsi) = seg :=
      Function.update_self ..
    have hput := (hk.adopt hnone (by rw [hself, hqid]; exact hq)).add mem_cons_self
      (by rw [hself, hqid]) (fun h => hroom (hrel h))
    rw [erase_cons_head] at hput
    refine ⟨_, hput, fun j hj => ?_⟩
    have htouch : (st.1.setSeg (f.base + rsi) seg).Touched j := by
      rw [SegQueues.touched_setSeg hne]
      grind
    cases r with
    | false => exact (SegQueues.touched_enqueue _).mpr htouch
    | true => exact (SegQueues.touched_enqueueRel _).mpr htouch
  revert hr
  fun_cases fillRound f relRem rsi st with
  | case1 => rintro ⟨⟩
  | case2 seg hinit | case3 seg hinit =>
    rintro ⟨⟩
    obtain ⟨hk, -, -, hne⟩ := hset hinit
    exact ⟨⟨place, hk, fun j hj => (SegQueues.touched_setSeg hne).mpr (.inl (htouched j hj))⟩, rfl⟩
  | case4 seg hinit s₁ hmod hfull hrel =>
    rintro ⟨⟩
    exact ⟨hadd true hinit fun _ => hrel, @SegQueues.add_length s₁ _ _ true⟩
  | case5 seg hinit s₁ =>
    rintro ⟨⟩
    exact ⟨hadd false hinit (by simp), @SegQueues.add_length s₁ _ _ false⟩

theorem filling_fillRounds {q : SegQueue} {rsi : Nat} {st : SegQueues × Nat} (h : s.Filling)
    (hq : s.queues[f.qId]? = some q)
    (hr : fillRounds f (salsaMinRelSegments - q.relSegs.length) s rsi = some st) :
    st.1.Filling ∧ st.1.queues.length = s.queues.length := by
  induction rsi generalizing st with
  | zero =>
    cases hr
    exact ⟨h, rfl⟩
  | succ rsi ih =>
    obtain ⟨st₁, h₁, hround⟩ := Option.bind_eq_some_iff.mp hr
    obtain ⟨hfill, hlen⟩ := ih h₁
    obtain ⟨hlt, -⟩ := List.getElem?_eq_some_iff.mp hq
    rw [← hlen]
    refine filling_fillRound hfill (hlen ▸ hlt) (fun hrel => ?_) hround
    -- the reserve is one segment, so that this is the first round
    rw [salsaMinRelSegments] at hrel ⊢
    obtain rfl : rsi = 0 := by omega
    cases h₁
    simp only [SegQueues.listAt, hq, Option.map_some, Option.getD_some, SegQueue.freeq, if_true]
    omega

theorem filling_initRanges {g : Geometry} {segNr sIdx : Nat} {ranges : DevProperties}
    (h : s.Filling) (hr : initRanges g segNr ranges sIdx s = some s') : s'.Filling := by
  fun_induction initRanges g segNr ranges sIdx s with
  | case1 sIdx s =>
    cases hr
    exact h
  | case3 r ranges sIdx s qId hq hzero ih => exact ih h hr
  | case6 r ranges sIdx s qId hq hpos hle s₁ hfill ih =>
    refine ih ?_ hr
    revert hfill
    fun_cases fillQueue s (g.fillOf r sIdx qId) with
    | case3 q hget hle =>
      intro hfill
      obtain ⟨st, hst, rfl⟩ := Option.map_eq_some_iff.mp hfill
      exact (filling_fillRounds h hget hst).1
    | _ => rintro ⟨⟩
  | _ => cases hr

theorem filling_scmSegQueuesInit {g : Geometry} {masks : List Nat} {ranges : DevProperties}
    (h : scmSegQueuesInit g masks ranges = .ok s) : s.Filling := by
  have hempty : ∀ k r, SegQueues.listAt ⟨initQueues masks, fun _ => .zero⟩ k r = [] := by
    intro k r
    cases hk : masks[k]? <;> cases r <;> simp [SegQueues.listAt, initQueues, hk, SegQueue.freeq]
  revert h
  fun_cases scmSegQueuesInit g masks ranges with
  | case2 hv s hrun =>
    rintro ⟨⟩
    refine filling_initRanges ⟨fun _ => none, ⟨⟨?_, ?_⟩, by simp, by simp, by simp [hempty]⟩,
      by simp⟩ hrun
    · rintro (_ | ⟨k, r⟩) i <;> simp [SegQueues.listOf, hempty]
    · rintro (_ | ⟨k, r⟩) <;> simp [SegQueues.listOf, hempty]
  | _ => rintro ⟨⟩

end Init

/-! ## Runs -/

namespace Pool

/-- All segments but those of `never` are kept. -/
def Places (never : Nat → Prop) (s : SegQueues) (held : List Nat) : Prop :=
  ∃ place, s.Kept held place ∧ ∀ i, place i = none ↔ never i

variable {never : Nat → Prop} {m : Mgr} {held : List Nat} {p p' : Pool}

theorem Places.popHead {s s' : SegQueues} {k i : Nat} {reloc : Bool} (h : Places never s held)
    (hpop : s.popHead k reloc = some (i, s')) : Places never s' (i :: held) := by
  obtain ⟨place, hkept, hnever⟩ := h
  have hplace := (hkept.tracks.mem (.on k reloc) i).mp
    ((SegQueues.listAt_popHead hpop).1.symm ▸ mem_cons_self : i ∈ s.listAt k reloc)
  exact ⟨_, hkept.popHead hpop, by grind⟩

theorem Places.requeue {i : Nat} (h : Places never m.qs held) (hi : i ∈ held) :
    Places never (m.requeue i).qs (held.erase i) := by
  obtain ⟨place, hkept, hnever⟩ := h
  have hplace : place i = some .held := (hkept.tracks.mem .held i).mp hi
  have hset := @SegQueues.Kept.setSeg _ _ _ i hkept ((m.qs.seg i).reset m.segSize)
    (by simp [hplace]) fun _ => rfl
  have hq : ((m.qs.setSeg i ((m.qs.seg i).reset m.segSize)).seg i).queueId =
      (m.qs.seg i).queueId := by
    change (update m.qs.seg i _ i).queueId = _
    rw [Function.update_self]
    rfl
  unfold Mgr.requeue
  dsimp only
  split
  · rename_i hshort
    refine ⟨_, @SegQueues.Kept.add _ _ _ _ _ true hset hi hq fun _ => ?_, by grind⟩
    change (m.qs.listAt (m.qs.seg i).queueId true).length < _
    rw [SegQueues.listAt]
    cases hk : m.qs.queues[(m.qs.seg i).queueId]? with
    | none => decide
    | some q => simpa [SegQueues.setSeg, SegQueue.freeq, hk] using hshort
  · exact ⟨_, @SegQueues.Kept.add _ _ _ _ _ false hset hi hq (by simp), by grind⟩

theorem Places.getFromQueues {flags : GfsFlags} {cb : Mgr.AllocCb} {res : Mgr.GetRes}
    (h : Places never m.qs held) (hres : m.getFromQueues flags cb = some res) :
    Places never res.mgr.qs (res.segOut.toList ++ held) := by
  have hthin : ∀ (m : Mgr) err bug, (m.failReclaimThin flags err bug).mgr.qs = m.qs := by
    intro m err bug
    unfold Mgr.failReclaimThin
    split <;> rfl
  revert hres
  fun_cases Mgr.getFromQueues m flags cb with
  | case1 err hq herr =>
    rintro ⟨⟩
    rw [hthin]
    exact h
  | case2 => rintro ⟨⟩
  | case3 k hq hpop =>
    rintro ⟨⟩
    rw [hthin]
    exact h
  | case4 k hq i qs hpop m' =>
    rintro ⟨⟩
    -- a refused segment is back on a list
    have hback := @Places.requeue never m' _ i (h.popHead hpop) mem_cons_self
    rw [erase_cons_head] at hback
    rw [Mgr.failPut, hthin, Mgr.scmPutFreeSeg]
    split <;> exact hback
  | case5 k hq i qs hpop =>
    rintro ⟨⟩
    exact h.popHead hpop

theorem step_kept (hplaces : Places never p.mgr.qs p.held) (hfull : p.mgr.FreeFull)
    (hs : Step p p') : Places never p'.mgr.qs p'.held ∧ p'.mgr.FreeFull := by
  cases hs with
  | @get flags cb res hres =>
    refine ⟨?_, hfull.scmGetFreeSeg hres⟩
    revert hres
    fun_cases Mgr.scmGetFreeSeg p.mgr flags cb with
    | case1 | case2 =>
      rintro ⟨⟩
      exact hplaces
    | case3 hboth hthin m' hget =>
      obtain ⟨-, hget⟩ := Option.ite_none_left_eq_some.mp hget
      cases hget
      exact @Places.getFromQueues _ { p.mgr with thinProvSegs := p.mgr.thinProvSegs - 1 } _ _ _ _
        hplaces
    | case4 => exact hplaces.getFromQueues
  | @change i seg hi hq =>
    obtain ⟨place, hkept, hnever⟩ := hplaces
    have hplace : place i = some .held := (hkept.tracks.mem .held i).mp hi
    refine ⟨⟨place, hkept.setSeg (by simp [hplace]) fun _ => hq, hnever⟩, ?_, hfull.pos,
      hfull.thin_lt⟩
    intro q hq j hj
    obtain ⟨k, r, hmem⟩ := SegQueues.mem_listAt hq hj
    have hne : j ≠ i := by
      rintro rfl
      have := (hkept.tracks.mem (.on k r) j).mp hmem
      simp [hplace] at this
    change (update p.mgr.qs.seg i seg j).validNr = _
    rw [Function.update_of_ne hne]
    exact hfull.full q hq j hj
  | @put i thinProv hi =>
    refine ⟨?_, hfull.scmPutFreeSeg i thinProv⟩
    cases thinProv <;> exact hplaces.requeue hi

/-- From the initialised queues on, whatever is taken, refused, changed and put back: a segment
that was on a list is at any time on one list, once, or held by one holder. Its fields say where it
is or goes back to, a free segment has all its grains, and a queue never keeps more segments for
relocation than the reserve. -/
theorem segments_kept {g : Geometry} {masks : List Nat} {ranges : DevProperties}
    (hinit : scmSegQueuesInit g masks ranges = .ok m.qs) (hsize : m.segSize = g.segSize)
    (hpos : 0 < m.segSize) (hthin : m.thinProvSegs < 2 ^ 64)
    (hrun : Relation.ReflTransGen Step ⟨m, []⟩ p) :
    Places (fun i => ∀ k r, i ∉ m.qs.listAt k r) p.mgr.qs p.held ∧ p.mgr.FreeFull := by
  induction hrun with
  | refl =>
    obtain ⟨place, hkept, -⟩ := filling_scmSegQueuesInit hinit
    refine ⟨⟨place, hkept, fun i => ?_⟩, hsize ▸ full_of_scmSegQueuesInit hinit, hpos, hthin⟩
    have hheld := hkept.tracks.mem .held i
    have hon := fun k r => hkept.tracks.mem (.on k r) i
    simp only [SegQueues.listOf, not_mem_nil, false_iff] at hheld hon
    refine ⟨fun h k r => by simp [hon, h], fun h => ?_⟩
    rcases hplace : place i with _ | (_ | ⟨k, r⟩)
    · rfl
    · exact absurd hplace hheld
    · exact absurd ((hon k r).mpr hplace) (h k r)
  | tail _ hs ih => exact step_kept ih.1 ih.2 hs

/-- Two segments of flash and two of conventional disk, as they are initialised. -/
def started : Mgr :=
  { Mgr.twoSegs with
    segNr := 4, scmDevProps := wholeSegments
    qs := (scmSegQueuesInit pageGeometry masksAll wholeSegments).toOption.getD Mgr.twoSegs.qs }

/-- Both segments of flash are taken. The one that is put back is now the reserve. -/
theorem segments_kept_returned :
    ∃ p, Relation.ReflTransGen Step ⟨started, []⟩ p ∧ p.held = [0] ∧
      p.mgr.qs.listAt 1 false = [] ∧ p.mgr.qs.listAt 1 true = [1] ∧
      Places (fun i => ∀ k r, i ∉ started.qs.listAt k r) p.mgr.qs p.held ∧ p.mgr.FreeFull := by
  have hrun := (((Relation.ReflTransGen.refl (r := Step) (a := ⟨started, []⟩)).tail
    (@Step.get _ { Mgr.thinFlags with reloc := true, thinProv := false } (fun _ _ _ => 0) _
      rfl)).tail (@Step.get _ Mgr.thinFlags (fun _ _ _ => 0) _ rfl)).tail
    (@Step.put _ 1 true (by decide))
  exact ⟨_, hrun, rfl, rfl, rfl, @segments_kept _ _ pageGeometry masksAll wholeSegments rfl rfl
    (by decide) (by decide) hrun⟩

end Pool

end UDepot.Scm
