import UDepot.Shift
import Mathlib.Logic.Relation

/-! Runs of the table: the updates of `uDepotMap` as its callers issue them, the
steps that keep lookup complete, and a run that does not. -/

namespace UDepot.UDepotMap
open Scan Relation Option

variable {bits : Nat}

/-! ## Changing one slot -/

variable {q h kv pba : Nat} {t t' : UDepotMap bits} {op : Op}

theorem Wf.set (w : t.Wf) {e : HashEntry}
    (hlive : e.live = true → (t.set q e).SlotWf q) (hclean : e.used = false → e.deleted = false) :
    (t.set q e).Wf := by
  refine ⟨w.bits_le, fun r hr => ?_, fun r hr => ?_⟩
  · by_cases hrq : r = q
    · subst hrq
      rw [set_self] at hr
      exact hlive hr
    · rw [set_other _ _ hrq] at hr
      exact (w.slot r hr).congr (set_other _ _ hrq)
  · by_cases hrq : r = q
    · subst hrq
      rw [set_self] at hr ⊢
      exact hclean hr
    · rw [set_other _ _ hrq] at hr ⊢
      exact w.clean r hr

/-- Filling a slot closes the hole there; the new entry itself must not sit
behind a never-used slot. -/
theorem NoGapBut.set_used {e : HashEntry} (g : t.NoGapBut (some q))
    (hu : e.used = true)
    (hq : e.live = true → ∀ r, (t.set q e).home q ≤ r → r < q → (t.ht r).used = true) :
    (t.set q e).NoGap := by
  intro s hs r h1 h2
  by_cases hrq : r = q
  · subst hrq
    rw [set_self]
    exact hu
  · rw [set_other _ _ hrq]
    by_cases hsq : s = q
    · subst hsq
      rw [set_self] at hs
      exact hq hs r h1 h2
    · rw [set_other _ _ hsq] at hs
      rw [home_congr (set_other _ _ hsq)] at h1
      exact g s hs r h1 h2 fun h => hrq (Option.some.inj h)

theorem NoGap.but (g : t.NoGap) (hole : Option Nat) : t.NoGapBut hole :=
  fun q hq r h1 h2 _ => g q hq r h1 h2

theorem update_offset (hw : InWindow bits h q) (kv pba : Nat) :
    ((t.update q h kv pba).ht q).bucketOffset = q - hashToHb bits h := by
  obtain ⟨h1, h2⟩ := hw
  simp only [update, set_self, HashEntry.setPba_bucketOffset, HashEntry.setKvSize_bucketOffset,
    HashEntry.setTag_bucketOffset, HashEntry.setOffset_bucketOffset]
  omega

theorem update_home (hw : InWindow bits h q) (kv pba : Nat) :
    (t.update q h kv pba).home q = hashToHb bits h :=
  home_of_offset (update_offset hw kv pba) hw.1

theorem update_slotWf (hw : InWindow bits h q) (kv pba : Nat) :
    (t.update q h kv pba).SlotWf q :=
  slotWf_of_offset (update_offset hw kv pba) hw.1 hw.2 (hashToHb_lt bits h)

theorem update_other (t : UDepotMap bits) {r : Nat} (h kv pba : Nat) (hr : r ≠ q) :
    (t.update q h kv pba).ht r = t.ht r :=
  set_other _ _ hr

theorem update_keyTag (t : UDepotMap bits) (h q kv pba : Nat) :
    ((t.update q h kv pba).ht q).keyTag = hashToKeytag bits h := by
  simp only [update, set_self, HashEntry.setPba_keyTag, HashEntry.setKvSize_keyTag,
    HashEntry.setTag_keyTag]
  exact Nat.mod_eq_of_lt (hashToKeytag_lt bits h)

theorem update_kvSize (t : UDepotMap bits) (h q kv pba : Nat) :
    ((t.update q h kv pba).ht q).kvSize = min kv maxKvSize := by
  simp only [update, set_self, HashEntry.setPba_kvSize, HashEntry.setKvSize_kvSize]
  apply Nat.mod_eq_of_lt
  unfold maxKvSize
  omega

theorem update_pba (t : UDepotMap bits) {h q kv pba : Nat} (hp : pba < 2 ^ 39) :
    ((t.update q h kv pba).ht q).pba = pba := by
  simp only [update, set_self, HashEntry.setPba_pba]
  exact Nat.mod_eq_of_lt hp

theorem updateInplace_kvSize (t : UDepotMap bits) (h q kv pba : Nat) :
    ((t.updateInplace q h kv pba).ht q).kvSize = min kv maxKvSize := by
  simp only [updateInplace, set_self, HashEntry.setPba_kvSize, HashEntry.setKvSize_kvSize]
  apply Nat.mod_eq_of_lt
  unfold maxKvSize
  omega

theorem updateInplace_pba (t : UDepotMap bits) (hp : pba < 2 ^ 39) :
    ((t.updateInplace q h kv pba).ht q).pba = pba := by
  simp only [updateInplace, set_self, HashEntry.setPba_pba]
  exact Nat.mod_eq_of_lt hp

theorem updateInplace_live (t : UDepotMap bits) (hk : 0 < kv) (hp : pba < unusedPba) :
    ((t.updateInplace q h kv pba).ht q).live = true := by
  have hkv := updateInplace_kvSize t h q kv pba
  have hmax : 0 < maxKvSize := by decide
  refine (HashEntry.live_iff _).mpr ⟨?_, ?_⟩
  · rw [updateInplace, set_self]
    exact HashEntry.setPba_used _ hp
  · unfold HashEntry.deleted
    rw [hkv, beq_eq_false_iff_ne]
    omega

theorem update_keyfp (hw : InWindow bits h q) (kv pba : Nat) :
    (t.update q h kv pba).entryKeyfp q = hashToKeyfp bits h :=
  ((update_slotWf hw kv pba).keyfp_eq_iff.mpr ⟨update_keyTag t h q kv pba,
    update_home hw kv pba⟩).symm

theorem update_wf (w : t.Wf) (hw : InWindow bits h q) (hp : pba < unusedPba) :
    (t.update q h kv pba).Wf := by
  refine w.set (fun _ => update_slotWf hw kv pba) fun hu => ?_
  rw [HashEntry.setPba_used _ hp] at hu
  cases hu

theorem update_noGap (g : t.NoGapBut (some q)) (hw : InWindow bits h q)
    (hp : pba < unusedPba) (hfront : ∀ r, hashToHb bits h ≤ r → r < q → (t.ht r).used = true) :
    (t.update q h kv pba).NoGap := by
  refine g.set_used (HashEntry.setPba_used _ hp) fun _ r h1 h2 => hfront r ?_ h2
  rwa [← update, update_home hw] at h1

theorem updateInplace_offset (t : UDepotMap bits) (h q kv pba : Nat) :
    ((t.updateInplace q h kv pba).ht q).bucketOffset = (t.ht q).bucketOffset := by
  simp [updateInplace]

theorem updateInplace_wf (w : t.Wf) (hq : (t.ht q).live = true)
    (hp : pba < unusedPba) : (t.updateInplace q h kv pba).Wf := by
  have hs := w.slot q hq
  refine w.set (fun _ => ?_) fun hu => ?_
  · refine slotWf_of_offset ?_ hs.home_le hs.lt_home hs.home_lt
    have := hs.off_le
    rw [← updateInplace, updateInplace_offset, home]
    omega
  · rw [HashEntry.setPba_used _ hp] at hu
    cases hu

theorem updateInplace_noGap (g : t.NoGap) (hq : (t.ht q).live = true)
    (hp : pba < unusedPba) : (t.updateInplace q h kv pba).NoGap := by
  refine (g.but _).set_used (HashEntry.setPba_used _ hp) fun _ r h1 => g q hq r ?_
  rwa [← updateInplace, home, updateInplace_offset] at h1

theorem remove_wf (w : t.Wf) (hp : pba < unusedPba) : (t.remove q pba).Wf := by
  refine w.set (fun hl => ?_) fun hu => ?_
  · simp [HashEntry.live, HashEntry.deleted] at hl
  · rw [HashEntry.setPba_used _ hp] at hu
    cases hu

theorem remove_noGap (g : t.NoGap) (hp : pba < unusedPba) :
    (t.remove q pba).NoGap := by
  refine (g.but _).set_used (HashEntry.setPba_used _ hp) fun hl => ?_
  simp [HashEntry.live, HashEntry.deleted] at hl

/-- No live entry of a bucket at or before `q` sits behind `q`. -/
def Unspanned (t : UDepotMap bits) (q : Nat) : Prop :=
  ∀ r, (t.ht r).live = true → q < r → q < t.home r

/-- Live slots lie in the table, so the condition is about finitely many. -/
theorem unspanned_of_bounded (w : t.Wf)
    (h : ∀ r, r < entryNr bits → (t.ht r).live = true → q < r → q < t.home r) : t.Unspanned q := by
  intro r hr hqr
  have hs := w.slot r hr
  have h1 := hs.home_lt
  have h2 := hs.lt_home
  exact h r (by unfold entryNr; omega) hr hqr

theorem purge_wf (w : t.Wf) (q : Nat) : (t.purge q).Wf := by
  refine w.set (fun hl => ?_) fun _ => ?_
  · simp at hl
  · rfl

theorem purge_noGap (g : t.NoGap) (hq : t.Unspanned q) :
    (t.purge q).NoGap := by
  intro s hs r h1 h2
  have hsq : s ≠ q := by
    rintro rfl
    simp [purge] at hs
  rw [purge, set_other _ _ hsq] at hs
  rw [purge, home_congr (set_other _ _ hsq)] at h1
  have hrq : r ≠ q := by
    rintro rfl
    have := hq s hs h2
    omega
  rw [purge, set_other _ _ hrq]
  exact g s hs r h1 h2

/-! ## Steps -/

/-- A call on the table, with the hash, size and address its caller passes. -/
inductive Op where
  | insertLookup (h kvSize pba : Nat)
  | insertNextFree (h kvSize pba : Nat)
  | insertShift (h kvSize pba : Nat)
  | tryShift (h : Nat)
  | updateInplace (he h kvSize pba : Nat)
  | remove (he pba : Nat)
  | purge (he : Nat)

/-- The slot an insertion may use after `lookup`. -/
def LookupRes.slot : LookupRes → Option Nat
  | .enodata q => some q
  | .found _ => none
  | .enospc => none

/-- `insert` into the slot a search returned, of an address below the mark of
the never-used slots. -/
def insertInto (t : UDepotMap bits) (slot : Option Nat) (h kvSize pba : Nat) :
    Option (UDepotMap bits) :=
  slot.bind fun q => if pba < unusedPba then some (t.insert q h kvSize pba) else none

/-- What a call does, when the caller may issue it: the entry of an in-place
update is live and has the fingerprint, the entry of a removal is live, that of
a purge a tombstone. -/
def exec (t : UDepotMap bits) : Op → Option (UDepotMap bits)
  | .insertLookup h kv pba => t.insertInto (t.lookup h).slot h kv pba
  | .insertNextFree h kv pba => t.insertInto (t.nextFree h) h kv pba
  | .insertShift h kv pba => (t.tryShift h).1.insertInto (t.tryShift h).2 h kv pba
  | .tryShift h => some (t.tryShift h).1
  | .updateInplace q h kv pba =>
    if (t.ht q).live ∧ hashToKeyfp bits h = t.entryKeyfp q ∧ pba < unusedPba then
      some (t.updateInplace q h kv pba)
    else none
  | .remove q pba =>
    if (t.ht q).live ∧ pba < unusedPba then some (t.remove q pba) else none
  | .purge q => if (t.ht q).used ∧ (t.ht q).deleted then some (t.purge q) else none

/-- The calls that keep the window searches complete. `try_shift` is called on a
full window, as its callers do, and closes the hole it opens; a purged
tombstone has no live entry of an earlier bucket behind it. -/
def StepOk (t : UDepotMap bits) : Op → Prop
  | .insertShift h _ _ => t.nextFree h = none ∧ tryShiftKeeps true t h = true
  | .tryShift h => t.nextFree h = none ∧ tryShiftKeeps false t h = true
  | .purge q => t.Unspanned q
  | _ => True

def Step (t t' : UDepotMap bits) : Prop := ∃ op, t.exec op = some t'

def OkStep (t t' : UDepotMap bits) : Prop := ∃ op, t.StepOk op ∧ t.exec op = some t'

theorem insertInto_eq_some {slot : Option Nat} :
    t.insertInto slot h kv pba = some t' ↔
      ∃ q, slot = some q ∧ pba < unusedPba ∧ t.insert q h kv pba = t' := by
  simp [insertInto, bind_eq_some_iff]

theorem lookup_slot (hs : (t.lookup h).slot = some q) :
    t.lookup h = .enodata q := by
  cases hl : t.lookup h <;> simp_all [LookupRes.slot]

/-- The calls that are made: `try_shift` on a full window only. -/
def CallOk (t : UDepotMap bits) : Op → Prop
  | .insertShift h _ _ => t.nextFree h = none
  | .tryShift h => t.nextFree h = none
  | _ => True

def CallStep (t t' : UDepotMap bits) : Prop := ∃ op, t.CallOk op ∧ t.exec op = some t'

theorem StepOk.callOk (h : t.StepOk op) : t.CallOk op := by
  cases op with
  | insertShift h' kv pba | tryShift h' => exact h.1
  | _ => trivial

theorem exec_wf (w : t.Wf) (hok : t.CallOk op) (he : t.exec op = some t') :
    t'.Wf := by
  cases op with
  | insertLookup h kv pba =>
    obtain ⟨q, hl, hp, rfl⟩ := insertInto_eq_some.mp he
    exact update_wf w (lookup_enodata (lookup_slot hl)).1 hp
  | insertNextFree h kv pba =>
    obtain ⟨q, hl, hp, rfl⟩ := insertInto_eq_some.mp he
    exact update_wf w ((nextFree_eq_some w.bits_le).mp hl).1 hp
  | insertShift h kv pba =>
    obtain ⟨q, hq, hp, rfl⟩ := insertInto_eq_some.mp he
    have hr := tryShift_result w hok
    obtain ⟨h1, h2, _⟩ := hr.slot q hq
    exact update_wf hr.wf ⟨h1, h2⟩ hp
  | tryShift h =>
    simp only [exec, some.injEq] at he
    subst he
    exact (tryShift_result w hok).wf
  | updateInplace q h kv pba =>
    simp only [exec, ite_none_right_eq_some, some.injEq] at he
    obtain ⟨hc, rfl⟩ := he
    exact updateInplace_wf w hc.1 hc.2.2
  | remove q pba =>
    simp only [exec, ite_none_right_eq_some, some.injEq] at he
    obtain ⟨hc, rfl⟩ := he
    exact remove_wf w hc.2
  | purge q =>
    simp only [exec, ite_none_right_eq_some, some.injEq] at he
    obtain ⟨_, rfl⟩ := he
    exact purge_wf w q

theorem insertShift_noGap (w : t.Wf) (g : t.NoGap) (hn : t.nextFree h = none)
    (hk : tryShiftKeeps true t h = true)
    (he : (t.tryShift h).1.insertInto (t.tryShift h).2 h kv pba = some t') : t'.NoGap := by
  obtain ⟨q, hq, hp, rfl⟩ := insertInto_eq_some.mp he
  obtain ⟨h1, h2, _, h4⟩ := (tryShift_result w hn).slot q hq
  have hgap : (t.tryShift h).1.NoGapBut (some q) := by
    rcases tryShift_noGap w g hn hk with hg | ⟨_, q', hq', hg⟩
    · exact hg.but _
    · rw [hq] at hq'
      cases hq'
      exact hg
  exact update_noGap hgap ⟨h1, h2⟩ hp fun r hr1 hr2 => ((HashEntry.live_iff _).mp (h4 r hr1 hr2)).1

theorem exec_noGap (w : t.Wf) (g : t.NoGap) (hok : t.StepOk op)
    (he : t.exec op = some t') : t'.NoGap := by
  cases op with
  | insertLookup h kv pba =>
    obtain ⟨q, hl, hp, rfl⟩ := insertInto_eq_some.mp he
    obtain ⟨h1, _, h3⟩ := lookup_enodata (lookup_slot hl)
    exact update_noGap (g.but _) h1 hp h3
  | insertNextFree h kv pba =>
    obtain ⟨q, hl, hp, rfl⟩ := insertInto_eq_some.mp he
    obtain ⟨h1, _, h3⟩ := (nextFree_eq_some w.bits_le).mp hl
    exact update_noGap (g.but _) h1 hp fun r hr1 hr2 =>
      ((HashEntry.live_iff _).mp (h3 r hr1 hr2)).1
  | insertShift h kv pba => exact insertShift_noGap w g hok.1 hok.2 he
  | tryShift h =>
    simp only [exec, some.injEq] at he
    subst he
    rcases tryShift_noGap w g hok.1 hok.2 with hg | ⟨hf, _⟩
    · exact hg
    · cases hf
  | updateInplace q h kv pba =>
    simp only [exec, ite_none_right_eq_some, some.injEq] at he
    obtain ⟨hc, rfl⟩ := he
    exact updateInplace_noGap g hc.1 hc.2.2
  | remove q pba =>
    simp only [exec, ite_none_right_eq_some, some.injEq] at he
    obtain ⟨hc, rfl⟩ := he
    exact remove_noGap g hc.2
  | purge q =>
    simp only [exec, ite_none_right_eq_some, some.injEq] at he
    obtain ⟨_, rfl⟩ := he
    exact purge_noGap g hok

theorem step_inv (w : t.Wf) (g : t.NoGap) (hs : t.OkStep t') :
    t'.Wf ∧ t'.NoGap := by
  obtain ⟨op, hok, he⟩ := hs
  exact ⟨exec_wf w hok.callOk he, exec_noGap w g hok he⟩

/-! ## Runs -/

theorem init_wf (hb : bits + 8 < 64) (h32 : bits ≤ 32) : (init bits hb).Wf := by
  refine ⟨h32, fun q hq => ?_, fun q _ => rfl⟩
  simp [init] at hq

theorem init_noGap (hb : bits + 8 < 64) : (init bits hb).NoGap := by
  intro q hq
  simp [init] at hq

theorem run_inv (hb : bits + 8 < 64) (h32 : bits ≤ 32)
    (hr : ReflTransGen OkStep (init bits hb) t) : t.Wf ∧ t.NoGap := by
  induction hr with
  | refl => exact ⟨init_wf hb h32, init_noGap hb⟩
  | tail _ hs ih => exact step_inv ih.1 ih.2 hs

theorem calls_wf (hb : bits + 8 < 64) (h32 : bits ≤ 32)
    (hr : ReflTransGen CallStep (init bits hb) t) : t.Wf := by
  induction hr with
  | refl => exact init_wf hb h32
  | tail _ hs ih =>
    obtain ⟨op, hok, he⟩ := hs
    exact exec_wf ih hok he

/-- In every state of a run whose steps keep `StepOk`, `lookup` followed by
`next` enumerates the live entries of each fingerprint. -/
theorem run_lookupComplete {bits : Nat} (hb : bits + 8 < 64) (h32 : bits ≤ 32) {t : UDepotMap bits}
    (hr : ReflTransGen OkStep (init bits hb) t) (h : Nat) : t.LookupComplete h :=
  lookupComplete_of_noGap (run_inv hb h32 hr).1 (run_inv hb h32 hr).2 h

/-- The table of 16 buckets with two entries of bucket 5 and tag 0. -/
def twoEntries : UDepotMap 4 := ((init 4 (by decide)).insert 5 5 1 0).insert 6 5 1 1

private theorem twoEntries_run : ReflTransGen OkStep (init 4 (by decide)) twoEntries :=
  .tail (.single ⟨.insertLookup 5 1 0, trivial, rfl⟩) ⟨.insertNextFree 5 1 1, trivial, rfl⟩

/-- The second entry is removed and its tombstone purged. -/
theorem twoEntries_purge_second_complete : ((twoEntries.remove 6 2).purge 6).LookupComplete 5 := by
  refine run_lookupComplete (by decide) (by decide) (.tail (.tail twoEntries_run
    ⟨.remove 6 2, trivial, rfl⟩) ⟨.purge 6, fun r hr hlt => ?_, rfl⟩) 5
  have hr' : (((init 4 (by decide)).insert 5 5 1 0).ht r).live = true := by
    rwa [remove, twoEntries, insert, update, set_other _ _ (by omega),
      set_other _ _ (by omega)] at hr
  rw [insert, update, set_other _ _ (by omega)] at hr'
  simp [init] at hr'

/-- Purging the tombstone of the first entry hides the second: `lookup` stops
at the slot that became never-used. -/
theorem twoEntries_purge_first_hides : ∃ t, ReflTransGen Step (init 4 (by decide)) t ∧
    ¬t.LookupComplete 5 := by
  have run : ReflTransGen Step (init 4 (by decide)) twoEntries :=
    twoEntries_run.lift id fun _ _ ⟨op, _, he⟩ => ⟨op, he⟩
  have hremove : twoEntries.Step (twoEntries.remove 5 2) := ⟨.remove 5 2, rfl⟩
  have hpurge : (twoEntries.remove 5 2).Step ((twoEntries.remove 5 2).purge 5) := ⟨.purge 5, rfl⟩
  refine ⟨_, (run.tail hremove).tail hpurge, fun hc => ?_⟩
  have hm : ((twoEntries.remove 5 2).purge 5).Matches 5 6 :=
    ⟨⟨by decide, by decide⟩, by decide, by decide⟩
  obtain ⟨q, hq⟩ := hc.1.mpr ⟨6, hm⟩
  have hl : ((twoEntries.remove 5 2).purge 5).lookup 5 = .enodata 5 := by decide
  rw [hl] at hq
  cases hq

end UDepot.UDepotMap
