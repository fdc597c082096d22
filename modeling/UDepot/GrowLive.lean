import UDepot.Grow

/-! Growth and the live entries. A copy may fall on the slot of a tombstone that
was copied before, but never on a live entry: the slot at the entry's own
position is still unused when its turn comes. So every growth of a placed
directory succeeds, and all it can lose is tombstones. -/

namespace UDepot.Directory
open Scan UDepotMap List

variable {bits : Nat}

def liveEntries (d : Directory bits) : Multiset Content :=
  d.entries.filter fun x => x.deleted = false

structure Sound (d : Directory bits) : Prop where
  wf : ∀ i, i < 2 ^ d.idxBits → (d.map i).Wf
  noGap : ∀ i, i < 2 ^ d.idxBits → (d.map i).NoGap

variable {t : UDepotMap bits}

theorem Sound.setMap {d : Directory bits} (s : d.Sound) (i : Nat) (w : t.Wf) (g : t.NoGap) :
    (d.setMap i t).Sound := by
  constructor
  · intro j hj
    by_cases hji : j = i
    · rwa [hji, setMap_self]
    · rw [setMap_other _ _ hji]
      exact s.wf j hj
  · intro j hj
    by_cases hji : j = i
    · rwa [hji, setMap_self]
    · rw [setMap_other _ _ hji]
      exact s.noGap j hj

theorem content_of_not_live {q : Nat} (h : (t.ht q).live = false) :
    (content t q).filter (fun x => x.deleted = false) = 0 := by
  by_cases hu : (t.ht q).used = true
  · have hd : (t.ht q).deleted = true := by
      by_contra hd
      simp [HashEntry.live, hu, hd] at h
    simp [content, hu, hd]
  · rw [content_of_unused (by simpa using hu)]
    rfl

theorem used_pba_lt {e : HashEntry} (h : e.used = true) : e.pba < unusedPba := by
  have hlt := e.pba_lt
  have hne : e.pba ≠ unusedPba := by simpa [HashEntry.used] using h
  unfold unusedPba at hne ⊢
  omega

/-- At the copy of slot `p` the slot `p` of the target is still unused, so the
copy has room and falls on the first slot of the window that is not live. -/
theorem copy_room_live (hb : bits ≤ 32) {h p : Nat} (hp : InWindow bits h p)
    (hbe : ∀ q, (t.ht q).used = true → q < p) :
    copyRoom t h = true ∧ ∀ q, CopiesTo t h q → InWindow bits h q ∧ (t.ht q).live = false ∧
      q ≤ p ∧ ∀ r, hashToHb bits h ≤ r → r < q → (t.ht r).used = true := by
  have hpu : (t.ht p).used = false := by
    by_contra hu
    have := hbe p (by simpa using hu)
    omega
  have hpl : (t.ht p).live = false := by simp [HashEntry.live, hpu]
  have hle : ∀ q, (∀ r, hashToHb bits h ≤ r → r < q → (t.ht r).used = true) → q ≤ p := by
    intro q hfront
    by_contra hlt
    have := hfront p hp.1 (by omega)
    simp [hpu] at this
  constructor
  · unfold copyRoom
    cases hl : t.lookup h with
    | enospc =>
      have := lookup_enospc hl p hp
      simp [hpl] at this
    | enodata q => rfl
    | found q0 =>
      cases hq : t.nextFree h with
      | none =>
        have := (nextFree_eq_none hb).mp hq p hp
        simp [hpl] at this
      | some q => rfl
  · intro q hc
    rcases hc.cases with hl | ⟨_, hq⟩
    · obtain ⟨hw, hfree, hfront⟩ := lookup_enodata hl
      exact ⟨hw, by simpa [HashEntry.free_eq_not_live] using hfree, hle q hfront, hfront⟩
    · obtain ⟨hw, hfree, hfront⟩ := (nextFree_eq_some hb).mp hq
      have hused : ∀ r, hashToHb bits h ≤ r → r < q → (t.ht r).used = true :=
        fun r h1 h2 => ((HashEntry.live_iff _).mp (hfront r h1 h2)).1
      exact ⟨hw, by simpa [HashEntry.free_eq_not_live] using hfree, hle q hused, hused⟩

section Copy

variable {d : Directory bits} {hashOf : Nat → Nat}

/-- What the copy keeps of the new directory while `rest` is still to come. -/
structure CopyInv (hashOf : Nat → Nat) (d new : Directory bits) (rest : List (Nat × Nat)) :
    Prop where
  idxBits : new.idxBits = d.idxBits + 1
  behind : Behind new rest
  placed : new.Placed hashOf
  sound : new.Sound

variable {new : Directory bits} {rest : List (Nat × Nat)}

theorem CopyInv.tail {x : Nat × Nat} (i : CopyInv hashOf d new (x :: rest)) :
    CopyInv hashOf d new rest :=
  ⟨i.idxBits, fun y hy => i.behind y (mem_cons_of_mem _ hy), i.placed, i.sound⟩

/-- One round of the copy: the entry is added, and at most a tombstone is lost. -/
theorem copyEntry_step (hb : bits ≤ 32) (hd : d.Placed hashOf) (hw : d.idxBits + 1 ≤ 8 + bits)
    {x : Nat × Nat} (hx1 : x.1 < 2 ^ d.idxBits) (hx2 : x.2 < entryNr bits)
    (hord : ∀ y ∈ rest, CopyOrder x y) (i : CopyInv hashOf d new (x :: rest))
    (hu : ((d.map x.1).ht x.2).used = true) :
    ∃ new' lost, copyEntry (d.map x.1) x.2 new = some new' ∧ CopyInv hashOf d new' rest ∧
      new'.entries + lost = new.entries + content (d.map x.1) x.2 ∧
      lost.filter (fun x => x.deleted = false) = 0 := by
  have hx := hd x.1 hx1 x.2 hx2 hu
  obtain ⟨hwin, hkey, hhalf⟩ := hx.facts hw
  rw [← i.idxBits] at hhalf
  obtain ⟨hroom, hslot⟩ := copy_room_live hb hwin
    (fun q hq => i.behind x mem_cons_self _ q hhalf hq)
  obtain ⟨q, hc, he⟩ := copyEntry_of_room hu hroom
  obtain ⟨hqw, hql, hqp, hfront⟩ := hslot q hc
  have hidx : hashToDirIdx bits ((d.map x.1).entryKeyfp x.2) new.idxBits < 2 ^ new.idxBits :=
    hashToDirIdx_lt (by rw [i.idxBits]; exact hw) _
  have hent := putCopy_entries (e := (d.map x.1).ht x.2) hidx hc.lt
  rw [insert_content hu hqw, hkey] at hent
  have hsound : (new.putCopy ((d.map x.1).ht x.2) ((d.map x.1).entryKeyfp x.2) q).Sound :=
    i.sound.setMap _ (update_wf (i.sound.wf _ hidx) hqw (used_pba_lt hu))
      (update_noGap ((i.sound.noGap _ hidx).but _) hqw (used_pba_lt hu) hfront)
  refine ⟨_, content (new.hashToMap ((d.map x.1).entryKeyfp x.2)) q, he,
    ⟨i.idxBits, putCopy_behind i.behind hord hhalf hqp,
      putCopy_placed i.placed (putCopy_placedAt hx hqw), hsound⟩, ?_, content_of_not_live hql⟩
  rw [hent, content, if_pos hu]

theorem copyAll_run (hb : bits ≤ 32) (hd : d.Placed hashOf) (hw : d.idxBits + 1 ≤ 8 + bits)
    (hord : rest.Pairwise CopyOrder) (hmem : ∀ x ∈ rest, x.1 < 2 ^ d.idxBits ∧ x.2 < entryNr bits)
    (i : CopyInv hashOf d new rest) :
    ∃ d' lost, d.copyAll rest new = some d' ∧ CopyInv hashOf d d' [] ∧
      d'.entries + lost = new.entries + (rest.map fun x => content (d.map x.1) x.2).sum ∧
      lost.filter (fun x => x.deleted = false) = 0 := by
  induction rest generalizing new with
  | nil => exact ⟨new, 0, rfl, i, by simp, rfl⟩
  | cons x rest ih =>
    have hord' := pairwise_cons.mp hord
    obtain ⟨⟨hx1, hx2⟩, hmem'⟩ := forall_mem_cons.mp hmem
    rw [map_cons, sum_cons]
    by_cases hu : ((d.map x.1).ht x.2).used = true
    · obtain ⟨new', l1, he, i', h1, hl1⟩ := copyEntry_step hb hd hw hx1 hx2 hord'.1 i hu
      obtain ⟨d', l2, hc, hi, h2, hl2⟩ := ih hord'.2 hmem' i'
      refine ⟨d', l2 + l1, ?_, hi, ?_, ?_⟩
      · rw [copyAll, he]
        exact hc
      · rw [← add_assoc, h2, add_right_comm, h1, add_assoc]
      · rw [Multiset.filter_add, hl1, hl2, add_zero]
    · have hu' : ((d.map x.1).ht x.2).used = false := by simpa using hu
      obtain ⟨d', l, hc, hi, h2, hl⟩ := ih hord'.2 hmem' i.tail
      refine ⟨d', l, ?_, hi, ?_, hl⟩
      · rw [copyAll, show copyEntry (d.map x.1) x.2 new = some new by simp [copyEntry, hu']]
        exact hc
      · rw [h2, content_of_unused hu', zero_add]

end Copy

theorem grow_live {hashOf : Nat → Nat} {d : Directory bits} (hb : bits ≤ 32) (hd : d.Placed hashOf)
    (hw : d.idxBits + 1 ≤ 8 + bits) :
    ∃ d' lost, d.grow = some d' ∧ d'.idxBits = d.idxBits + 1 ∧ d'.Placed hashOf ∧ d'.Sound ∧
      d'.entries + lost = d.entries ∧ lost.filter (fun x => x.deleted = false) = 0 := by
  have hbe : Behind d.doubled d.slots := by
    intro x _ j q _ hu
    simp [doubled, init] at hu
  have hs : d.doubled.Sound :=
    ⟨fun _ _ => init_wf _ hb, fun _ _ => init_noGap _⟩
  obtain ⟨d', lost, hg, hi, hent, hl⟩ := copyAll_run hb hd hw d.slots_pairwise
    (fun x hx => mem_slots.mp hx) ⟨rfl, hbe, d.doubled_placed hashOf, hs⟩
  rw [slots_sum, doubled_entries, zero_add] at hent
  exact ⟨d', lost, hg, hi.idxBits, hi.placed, hi.sound, hent, hl⟩

theorem grow_liveEntries {d d' : Directory bits} {lost : Multiset Content}
    (h : d'.entries + lost = d.entries) (hl : lost.filter (fun x => x.deleted = false) = 0) :
    d'.liveEntries = d.liveEntries := by
  unfold liveEntries
  rw [← h, Multiset.filter_add, hl, add_zero]

end UDepot.Directory
