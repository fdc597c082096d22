import UDepot.Directory
import Mathlib.Data.List.Pairwise

/-! Growth of the directory. Every entry of a table goes to one of two tables of
the new directory, at or in front of the position it had: the slots of the new
table from that position on are still unused when the entry is copied, so the
window has room. -/

namespace UDepot
open Scan UDepotMap List

variable {bits : Nat}

theorem hashToDirIdx_congr {h h' : Nat} (n : Nat) (hk : hashToKeyfp bits h = hashToKeyfp bits h') :
    hashToDirIdx bits h n = hashToDirIdx bits h' n := by
  change hashToKeyfp bits h >>> _ = hashToKeyfp bits h' >>> _
  rw [hk]

/-- One more index bit splits each table in two. -/
theorem hashToDirIdx_half {n : Nat} (hn : n + 1 ≤ 8 + bits) (h : Nat) :
    hashToDirIdx bits h (n + 1) / 2 = hashToDirIdx bits h n := by
  unfold hashToDirIdx
  rw [show 8 + bits - n = 8 + bits - (n + 1) + 1 by omega, Nat.shiftRight_succ]

theorem hashToDirIdx_lt {n : Nat} (hn : n ≤ 8 + bits) (h : Nat) :
    hashToDirIdx bits h n < 2 ^ n := by
  unfold hashToDirIdx
  rw [Nat.and_two_pow_sub_one_eq_mod, Nat.shiftRight_eq_div_pow]
  apply Nat.div_lt_of_lt_mul
  rw [← Nat.pow_add, show 8 + bits - n + n = 8 + bits by omega]
  exact Nat.mod_lt _ (Nat.two_pow_pos _)

namespace Directory

@[simp] theorem setMap_idxBits (d : Directory bits) (i : Nat) (t : UDepotMap bits) :
    (d.setMap i t).idxBits = d.idxBits := rfl
@[simp] theorem setMap_self (d : Directory bits) (i : Nat) (t : UDepotMap bits) :
    (d.setMap i t).map i = t := by
  simp [setMap]
theorem setMap_other (d : Directory bits) {i j : Nat} (t : UDepotMap bits) (h : j ≠ i) :
    (d.setMap i t).map j = d.map j := by
  simp [setMap, h]

/-! ## The entries after one insertion -/

variable {t : UDepotMap bits} {q h : Nat} {e : HashEntry}

theorem content_congr {t' : UDepotMap bits} (h : t'.ht q = t.ht q) :
    content t' q = content t q := by
  unfold content
  rw [entryKeyfp_congr h, h]

theorem content_of_unused (h : (t.ht q).used = false) : content t q = 0 := by
  simp [content, h]

theorem content_card_of_used (h : (t.ht q).used = true) : Multiset.card (content t q) = 1 := by
  simp [content, h]

theorem entries_setMap (d : Directory bits) {i : Nat} (hi : i < 2 ^ d.idxBits)
    (hq : q < entryNr bits) (ht : ∀ r, r ≠ q → t.ht r = (d.map i).ht r) :
    (d.setMap i t).entries + content (d.map i) q = d.entries + content t q := by
  have h := Sums.sum_exchange (f := fun x : Nat × Nat => content (d.map x.1) x.2)
    (g := fun x => content ((d.setMap i t).map x.1) x.2)
    (s := Finset.range (2 ^ d.idxBits) ×ˢ Finset.range (entryNr bits)) (a := (i, q))
    (by simp [hi, hq]) ?_
  · simpa [entries] using h
  · rintro ⟨j, r⟩ _ hne
    dsimp only
    by_cases hj : j = i
    · subst hj
      have hr : r ≠ q := fun h => hne (by rw [h])
      rw [setMap_self]
      exact content_congr (ht r hr)
    · rw [setMap_other _ _ hj]

theorem insert_used (he : e.used = true) : ((t.insert q h e.kvSize e.pba).ht q).used = true := by
  have hp : ((t.insert q h e.kvSize e.pba).ht q).pba = e.pba := update_pba t e.pba_lt
  unfold HashEntry.used at he ⊢
  rwa [hp]

theorem insert_kvSize (t : UDepotMap bits) (h q : Nat) (e : HashEntry) :
    ((t.insert q h e.kvSize e.pba).ht q).kvSize = e.kvSize := by
  have hk : ((t.insert q h e.kvSize e.pba).ht q).kvSize = min e.kvSize maxKvSize :=
    update_kvSize t h q _ _
  rw [hk]
  have := e.kv_lt
  unfold maxKvSize
  omega

theorem insert_content (he : e.used = true) (hw : InWindow bits h q) :
    content (t.insert q h e.kvSize e.pba) q =
      {⟨hashToKeyfp bits h, e.kvSize, e.pba, e.deleted⟩} := by
  have hp : ((t.insert q h e.kvSize e.pba).ht q).pba = e.pba := update_pba t e.pba_lt
  have hk : (t.insert q h e.kvSize e.pba).entryKeyfp q = hashToKeyfp bits h := update_keyfp hw _ _
  have hd : ((t.insert q h e.kvSize e.pba).ht q).deleted = e.deleted := by
    unfold HashEntry.deleted
    rw [insert_kvSize]
  rw [content, if_pos (insert_used he), hk, insert_kvSize, hp, hd]

/-! ## One copy -/

/-- `new` with a copy of `e` under hash `h` in slot `q` of the table of `h`. -/
def putCopy (new : Directory bits) (e : HashEntry) (h q : Nat) : Directory bits :=
  new.setMap (hashToDirIdx bits h new.idxBits) ((new.hashToMap h).insert q h e.kvSize e.pba)

@[simp] theorem putCopy_idxBits (new : Directory bits) (e : HashEntry) (h q : Nat) :
    (new.putCopy e h q).idxBits = new.idxBits := rfl

theorem putCopy_self (new : Directory bits) (e : HashEntry) (h q : Nat) :
    (new.putCopy e h q).map (hashToDirIdx bits h new.idxBits) =
      (new.hashToMap h).insert q h e.kvSize e.pba :=
  setMap_self _ _ _

theorem putCopy_other (new : Directory bits) (e : HashEntry) {j r : Nat}
    (hne : j ≠ hashToDirIdx bits h new.idxBits ∨ r ≠ q) :
    ((new.putCopy e h q).map j).ht r = (new.map j).ht r := by
  by_cases hji : j = hashToDirIdx bits h new.idxBits
  · subst hji
    rw [putCopy_self]
    exact update_other _ _ _ _ (hne.resolve_left fun h => h rfl)
  · rw [putCopy, setMap_other _ _ hji]

theorem putCopy_entries {new : Directory bits}
    (hi : hashToDirIdx bits h new.idxBits < 2 ^ new.idxBits) (hq : q < entryNr bits) :
    (new.putCopy e h q).entries + content (new.hashToMap h) q =
      new.entries + content ((new.hashToMap h).insert q h e.kvSize e.pba) q :=
  entries_setMap new hi hq fun _ hr => update_other _ _ _ _ hr

structure CopiesTo (t : UDepotMap bits) (h q : Nat) : Prop where
  cases : t.lookup h = .enodata q ∨ (∃ q0, t.lookup h = .found q0) ∧ t.nextFree h = some q

theorem CopiesTo.lt (c : CopiesTo t h q) : q < entryNr bits := by
  have hb := hashToHb_lt bits h
  unfold entryNr
  rcases c.cases with hl | ⟨_, hf⟩
  · have := (lookup_enodata hl).1.2
    omega
  · have hlt := (findFrom_eq_some.mp hf).lt
    have hle : hashToHb32 bits h ≤ hashToHb bits h := Nat.mod_le _ _
    omega

theorem copyEntry_of_room {src : UDepotMap bits} {p : Nat} {new : Directory bits}
    (hu : (src.ht p).used = true)
    (hr : copyRoom (new.hashToMap (src.entryKeyfp p)) (src.entryKeyfp p) = true) :
    ∃ q, CopiesTo (new.hashToMap (src.entryKeyfp p)) (src.entryKeyfp p) q ∧
      copyEntry src p new = some (new.putCopy (src.ht p) (src.entryKeyfp p) q) := by
  unfold copyRoom at hr
  unfold copyEntry copySlot putCopy
  cases hl : (new.hashToMap (src.entryKeyfp p)).lookup (src.entryKeyfp p) with
  | enospc => simp [hl] at hr
  | enodata q => exact ⟨q, ⟨.inl hl⟩, by simp [hu, hl]⟩
  | found q0 =>
    simp only [hl] at hr
    obtain ⟨q, hq⟩ := Option.isSome_iff_exists.mp hr
    exact ⟨q, ⟨.inr ⟨⟨q0, hl⟩, hq⟩⟩, by simp [hu, hl, hq]⟩

/-! ## The copy succeeds when no tombstone is overwritten -/

section Copy

variable {d : Directory bits} {hashOf : Nat → Nat}

/-- No table of `new` holds an entry at or behind a slot still to be copied
into it. -/
def Behind (new : Directory bits) (rest : List (Nat × Nat)) : Prop :=
  ∀ x ∈ rest, ∀ j q, j / 2 = x.1 → ((new.map j).ht q).used = true → q < x.2

def CopyOrder (x y : Nat × Nat) : Prop := x.1 = y.1 → x.2 < y.2

variable {h p i q : Nat} {new d' : Directory bits} {e : HashEntry} {x : Nat × Nat}
  {rest : List (Nat × Nat)}

/-- At the copy of slot `p` the slot `p` of the target is still unused, so the
first never-used slot of the window is at or in front of it. -/
theorem copy_room {t : UDepotMap bits} (hp : InWindow bits h p)
    (hb : ∀ q, (t.ht q).used = true → q < p) (hf : copyFresh t h = true) :
    copyRoom t h = true ∧ ∀ q, CopiesTo t h q →
      InWindow bits h q ∧ (t.ht q).used = false ∧ q ≤ p := by
  have hpu : (t.ht p).used = false := by
    by_contra hu
    have := hb p (by simpa using hu)
    omega
  have hfresh : ∀ q0 q, t.lookup h = .found q0 → t.nextFree h = some q →
      InWindow bits h q ∧ (t.ht q).used = false := by
    intro q0 q hl hq
    simp only [copyFresh, hl, hq, Option.any_some, Bool.and_eq_true, Bool.not_eq_true',
      decide_eq_true_eq] at hf
    exact ⟨hf.2, hf.1⟩
  refine ⟨?_, fun q hc => ?_⟩
  · unfold copyRoom
    cases hl : t.lookup h with
    | enospc =>
      have := (HashEntry.live_iff _).mp (lookup_enospc hl p hp)
      simp [hpu] at this
    | enodata q => rfl
    | found q0 =>
      cases hq : t.nextFree h with
      | none => simp [copyFresh, hl, hq] at hf
      | some q => rfl
  · rcases hc.cases with hl | ⟨⟨q0, hl⟩, hq⟩
    · obtain ⟨hw, hfree, hfront⟩ := lookup_enodata hl
      have hle : q ≤ p := by
        by_contra hlt
        have := hfront p hp.1 (by omega)
        simp [hpu] at this
      refine ⟨hw, ?_, hle⟩
      by_contra hu
      exact absurd (lookup_enodata_used hl (by simpa using hu) p hp) (by simp [hpu])
    · obtain ⟨hw, hu⟩ := hfresh q0 q hl hq
      refine ⟨hw, hu, ?_⟩
      by_contra hlt
      have hff := findFrom_eq_some.mp hq
      have hle : hashToHb32 bits h ≤ hashToHb bits h := Nat.mod_le _ _
      have hfirst := hff.first p (by have := hp.1; omega) (by omega)
      simp [HashEntry.free, hpu] at hfirst

theorem PlacedAt.congr {new' : Directory bits} (h : new.PlacedAt hashOf i q)
    (hn : new'.idxBits = new.idxBits) (he : (new'.map i).ht q = (new.map i).ht q) :
    new'.PlacedAt hashOf i q := by
  refine ⟨h.slot.congr he, ?_, ?_⟩
  · rw [entryKeyfp_congr he, he]
    exact h.keyfp
  · rw [he, hn]
    exact h.table

theorem putCopy_placed (hp : new.Placed hashOf)
    (hq : (new.putCopy e h q).PlacedAt hashOf (hashToDirIdx bits h new.idxBits) q) :
    (new.putCopy e h q).Placed hashOf := by
  intro j hj r hr hu
  by_cases hne : j ≠ hashToDirIdx bits h new.idxBits ∨ r ≠ q
  · have he := putCopy_other new e hne
    rw [he] at hu
    exact (hp j hj r hr hu).congr rfl he
  · rw [not_or, not_not, not_not] at hne
    rw [hne.1, hne.2]
    exact hq

/-- What is known of a used slot of a placed directory: its fingerprint is that
of the full hash, and one of the two halves of its table takes it. -/
theorem PlacedAt.facts (h : d.PlacedAt hashOf i p) (hw : d.idxBits + 1 ≤ 8 + bits) :
    InWindow bits ((d.map i).entryKeyfp p) p ∧
      hashToKeyfp bits ((d.map i).entryKeyfp p) = (d.map i).entryKeyfp p ∧
      hashToDirIdx bits ((d.map i).entryKeyfp p) (d.idxBits + 1) / 2 = i := by
  have hk : hashToKeyfp bits ((d.map i).entryKeyfp p) =
      hashToKeyfp bits (hashOf ((d.map i).ht p).pba) := by
    rw [h.keyfp, hashToKeyfp_idem]
  refine ⟨?_, by rw [hk, h.keyfp], ?_⟩
  · unfold InWindow
    rw [h.slot.hashToHb_keyfp]
    exact ⟨h.slot.home_le, h.slot.lt_home⟩
  · rw [hashToDirIdx_half hw, hashToDirIdx_congr _ hk]
    exact h.table

theorem putCopy_placedAt (h : d.PlacedAt hashOf i p)
    (hq : InWindow bits ((d.map i).entryKeyfp p) q) :
    (new.putCopy ((d.map i).ht p) ((d.map i).entryKeyfp p) q).PlacedAt hashOf
      (hashToDirIdx bits ((d.map i).entryKeyfp p) new.idxBits) q := by
  have hk : hashToKeyfp bits ((d.map i).entryKeyfp p) =
      hashToKeyfp bits (hashOf ((d.map i).ht p).pba) := by
    rw [h.keyfp, hashToKeyfp_idem]
  have hpba : (((new.hashToMap ((d.map i).entryKeyfp p)).insert q ((d.map i).entryKeyfp p)
      ((d.map i).ht p).kvSize ((d.map i).ht p).pba).ht q).pba = ((d.map i).ht p).pba :=
    update_pba _ ((d.map i).ht p).pba_lt
  refine ⟨?_, ?_, ?_⟩
  · rw [putCopy_self]
    exact update_slotWf hq _ _
  · rw [putCopy_self, hpba, ← hk]
    exact update_keyfp hq _ _
  · rw [putCopy_self, hpba, putCopy_idxBits]
    exact hashToDirIdx_congr _ hk.symm

theorem everyCopy_unused {P : UDepotMap bits → Nat → Bool} (hu : ((d.map x.1).ht x.2).used = false)
    (rest : List (Nat × Nat)) (new : Directory bits) :
    d.everyCopy P (x :: rest) new = d.everyCopy P rest new := by
  simp [everyCopy, copyEntry, hu]

theorem everyCopy_used {P : UDepotMap bits → Nat → Bool} (hu : ((d.map x.1).ht x.2).used = true)
    {new' : Directory bits} (hc : copyEntry (d.map x.1) x.2 new = some new')
    (rest : List (Nat × Nat)) :
    d.everyCopy P (x :: rest) new =
      (P (new.hashToMap ((d.map x.1).entryKeyfp x.2)) ((d.map x.1).entryKeyfp x.2) &&
        d.everyCopy P rest new') := by
  simp [everyCopy, hc, hu]

/-- The slots still to be copied stay unused in the tables of `new` when the
entry of `x` goes to a slot at or in front of its own position. -/
theorem putCopy_behind (hb : Behind new (x :: rest)) (hord : ∀ y ∈ rest, CopyOrder x y)
    (hi : hashToDirIdx bits h new.idxBits / 2 = x.1) (hq : q ≤ x.2) :
    Behind (new.putCopy e h q) rest := by
  intro y hy j r hj hr
  by_cases hne : j ≠ hashToDirIdx bits h new.idxBits ∨ r ≠ q
  · rw [putCopy_other new e hne] at hr
    exact hb y (mem_cons_of_mem _ hy) j r hj hr
  · rw [not_or, not_not, not_not] at hne
    have hlt := hord y hy (by rw [← hj, hne.1, hi])
    omega

/-- One round of the copy loop, when it does not overwrite a tombstone. -/
theorem copyEntry_of_fresh (hd : d.Placed hashOf) (hw : d.idxBits + 1 ≤ 8 + bits)
    (hx1 : x.1 < 2 ^ d.idxBits)
    (hx2 : x.2 < entryNr bits) (hord : ∀ y ∈ rest, CopyOrder x y)
    (hn : new.idxBits = d.idxBits + 1) (hb : Behind new (x :: rest)) (hp : new.Placed hashOf)
    (hu : ((d.map x.1).ht x.2).used = true)
    (hf : copyFresh (new.hashToMap ((d.map x.1).entryKeyfp x.2))
      ((d.map x.1).entryKeyfp x.2) = true) :
    copyRoom (new.hashToMap ((d.map x.1).entryKeyfp x.2)) ((d.map x.1).entryKeyfp x.2) = true ∧
      ∃ new', copyEntry (d.map x.1) x.2 new = some new' ∧ new'.idxBits = new.idxBits ∧
        new'.entries = new.entries + content (d.map x.1) x.2 ∧ new'.Placed hashOf ∧
        Behind new' rest := by
  have hx := hd x.1 hx1 x.2 hx2 hu
  obtain ⟨hwin, hkey, hhalf⟩ := hx.facts hw
  rw [← hn] at hhalf
  obtain ⟨hroom, hslot⟩ := copy_room hwin (fun q hq => hb x mem_cons_self _ q hhalf hq) hf
  obtain ⟨q, hc, he⟩ := copyEntry_of_room hu hroom
  obtain ⟨hqw, hqu, hqp⟩ := hslot q hc
  have hidx : hashToDirIdx bits ((d.map x.1).entryKeyfp x.2) new.idxBits < 2 ^ new.idxBits :=
    hashToDirIdx_lt (by omega) _
  have hent := putCopy_entries (e := (d.map x.1).ht x.2) hidx hc.lt
  have hzero : content (new.hashToMap ((d.map x.1).entryKeyfp x.2)) q = 0 := content_of_unused hqu
  rw [hzero, insert_content hu hqw, add_zero, hkey] at hent
  refine ⟨hroom, _, he, rfl, ?_, putCopy_placed hp (putCopy_placedAt hx hqw),
    putCopy_behind hb hord hhalf hqp⟩
  rw [hent, content, if_pos hu]

theorem copyAll_of_fresh (hd : d.Placed hashOf) (hw : d.idxBits + 1 ≤ 8 + bits)
    (hord : rest.Pairwise CopyOrder) (hmem : ∀ x ∈ rest, x.1 < 2 ^ d.idxBits ∧ x.2 < entryNr bits)
    (hn : new.idxBits = d.idxBits + 1) (hb : Behind new rest) (hp : new.Placed hashOf)
    (hf : d.everyCopy copyFresh rest new = true) :
    (∃ d', d.copyAll rest new = some d' ∧ d'.idxBits = d.idxBits + 1 ∧
      d'.entries = new.entries + (rest.map fun x => content (d.map x.1) x.2).sum ∧
      d'.Placed hashOf) ∧ d.everyCopy copyRoom rest new = true := by
  induction rest generalizing new with
  | nil => exact ⟨⟨new, rfl, hn, by simp, hp⟩, rfl⟩
  | cons x rest ih =>
    have hord' := pairwise_cons.mp hord
    obtain ⟨⟨hx1, hx2⟩, hmem'⟩ := forall_mem_cons.mp hmem
    by_cases hu : ((d.map x.1).ht x.2).used = true
    · have hfresh : copyFresh (new.hashToMap ((d.map x.1).entryKeyfp x.2))
          ((d.map x.1).entryKeyfp x.2) = true := by
        simp only [everyCopy, hu, Bool.not_true, Bool.false_or, Bool.and_eq_true] at hf
        exact hf.1
      obtain ⟨hroom, new', he, hn', hent, hp', hb'⟩ :=
        copyEntry_of_fresh hd hw hx1 hx2 hord'.1 hn hb hp hu hfresh
      rw [everyCopy_used hu he, Bool.and_eq_true] at hf
      obtain ⟨⟨d', h1, h2, h3, h4⟩, h5⟩ := ih hord'.2 hmem' (hn'.trans hn) hb' hp' hf.2
      refine ⟨⟨d', ?_, h2, ?_, h4⟩, ?_⟩
      · rw [copyAll, he]
        exact h1
      · rw [h3, hent, map_cons, sum_cons, add_assoc]
      · rw [everyCopy_used hu he, hroom, h5]
        rfl
    · have hu' : ((d.map x.1).ht x.2).used = false := by simpa using hu
      have he : copyEntry (d.map x.1) x.2 new = some new := by simp [copyEntry, hu']
      rw [everyCopy_unused hu'] at hf ⊢
      obtain ⟨⟨d', h1, h2, h3, h4⟩, h5⟩ := ih hord'.2 hmem' hn
        (fun y hy => hb y (mem_cons_of_mem _ hy)) hp hf
      refine ⟨⟨d', ?_, h2, ?_, h4⟩, h5⟩
      · rw [copyAll, he]
        exact h1
      · rw [h3, map_cons, sum_cons, content_of_unused hu', zero_add]

/-! ## Only such a copy succeeds -/

theorem copyAll_idxBits (hc : d.copyAll rest new = some d') : d'.idxBits = new.idxBits := by
  induction rest generalizing new with
  | nil =>
    cases hc
    rfl
  | cons x rest ih =>
    obtain ⟨new', he, hc'⟩ := Option.bind_eq_some_iff.mp hc
    rw [ih hc']
    unfold copyEntry at he
    split at he
    · cases he
      rfl
    · dsimp only at he
      split at he
      · cases he
      · cases he
        rfl

theorem inWindow_of_placedAt {j : Nat} (hx : d.PlacedAt hashOf i p) (hq : d'.PlacedAt hashOf j q)
    (hpba : ((d'.map j).ht q).pba = ((d.map i).ht p).pba) :
    InWindow bits ((d.map i).entryKeyfp p) q := by
  have hk := hq.keyfp
  rw [hpba, ← hx.keyfp] at hk
  unfold InWindow
  rw [← hk, hq.slot.hashToHb_keyfp]
  exact ⟨hq.slot.home_le, hq.slot.lt_home⟩

theorem putCopy_card (he : e.used = true) (hi : hashToDirIdx bits h new.idxBits < 2 ^ new.idxBits)
    (hq : q < entryNr bits) :
    Multiset.card (new.putCopy e h q).entries + Multiset.card (content (new.hashToMap h) q) =
      Multiset.card new.entries + 1 := by
  have hcard := congrArg Multiset.card (putCopy_entries (e := e) hi hq)
  rwa [Multiset.card_add, Multiset.card_add, content_card_of_used (insert_used he)] at hcard

/-- Each copy adds at most one entry, and exactly one only at an unused slot; if
none is lost, what was copied stays where it is, and what is placed at the end
was copied into its window. -/
theorem copyAll_counts (hd : d.Placed hashOf) (hw : d.idxBits + 1 ≤ 8 + bits)
    (hmem : ∀ x ∈ rest, x.1 < 2 ^ d.idxBits ∧ x.2 < entryNr bits) (hn : new.idxBits = d.idxBits + 1)
    (hc : d.copyAll rest new = some d') (hr : d.everyCopy copyRoom rest new = true) :
    Multiset.card d'.entries ≤ Multiset.card new.entries +
        Multiset.card (rest.map fun x => content (d.map x.1) x.2).sum ∧
      (Multiset.card d'.entries = Multiset.card new.entries +
          Multiset.card (rest.map fun x => content (d.map x.1) x.2).sum →
        (∀ j q, ((new.map j).ht q).used = true → (d'.map j).ht q = (new.map j).ht q) ∧
          (d'.Placed hashOf → d.everyCopy copyFresh rest new = true)) := by
  induction rest generalizing new with
  | nil =>
    cases hc
    exact ⟨by simp, fun _ => ⟨fun _ _ _ => rfl, fun _ => rfl⟩⟩
  | cons x rest ih =>
    obtain ⟨⟨hx1, hx2⟩, hmem'⟩ := forall_mem_cons.mp hmem
    rw [map_cons, sum_cons, Multiset.card_add]
    by_cases hu : ((d.map x.1).ht x.2).used = true
    · have hx := hd x.1 hx1 x.2 hx2 hu
      have hroom : copyRoom (new.hashToMap ((d.map x.1).entryKeyfp x.2))
          ((d.map x.1).entryKeyfp x.2) = true := by
        simp only [everyCopy, hu, Bool.not_true, Bool.false_or, Bool.and_eq_true] at hr
        exact hr.1
      obtain ⟨q, hq, he⟩ := copyEntry_of_room hu hroom
      have hbits := copyAll_idxBits hc
      rw [copyAll, he, Option.bind_some] at hc
      rw [everyCopy_used hu he, Bool.and_eq_true] at hr
      have hidx : hashToDirIdx bits ((d.map x.1).entryKeyfp x.2) new.idxBits < 2 ^ new.idxBits :=
        hashToDirIdx_lt (by omega) _
      have hcard := putCopy_card hu hidx hq.lt
      have hsrc := content_card_of_used hu
      obtain ⟨hle, hrest⟩ := ih hmem' (by rw [putCopy_idxBits, hn]) hc hr.2
      refine ⟨by omega, fun heq => ?_⟩
      have hqu : ((new.hashToMap ((d.map x.1).entryKeyfp x.2)).ht q).used = false := by
        by_contra hqu
        have hold := content_card_of_used (by simpa using hqu)
        omega
      have hzero := congrArg Multiset.card (content_of_unused hqu)
      rw [Multiset.card_zero] at hzero
      obtain ⟨hkeep, hfresh⟩ := hrest (by omega)
      refine ⟨fun j r hj => ?_, fun hp => ?_⟩
      · have hsame := putCopy_other new ((d.map x.1).ht x.2) (h := (d.map x.1).entryKeyfp x.2)
          (q := q) (j := j) (r := r) (by
            by_contra hne
            rw [not_or, not_not, not_not] at hne
            rw [hne.1, hne.2] at hj
            rw [hashToMap, hj] at hqu
            cases hqu)
        rw [← hsame] at hj ⊢
        exact hkeep j r hj
      · have hused : (((new.putCopy ((d.map x.1).ht x.2) ((d.map x.1).entryKeyfp x.2) q).map
            (hashToDirIdx bits ((d.map x.1).entryKeyfp x.2) new.idxBits)).ht q).used = true := by
          rw [putCopy_self]
          exact insert_used hu
        have hkept := hkeep _ q hused
        have hpl := hp _ (by rw [hbits]; exact hidx) q hq.lt (by rw [hkept]; exact hused)
        have hwin := inWindow_of_placedAt hx hpl (by
          rw [hkept, putCopy_self]
          exact update_pba _ ((d.map x.1).ht x.2).pba_lt)
        rw [everyCopy_used hu he, Bool.and_eq_true]
        refine ⟨?_, hfresh hp⟩
        unfold copyFresh
        rcases hq.cases with hl | ⟨⟨q0, hl⟩, hf⟩
        · rw [hl]
        · simp [hl, hf, hqu, hwin]
    · have hu' : ((d.map x.1).ht x.2).used = false := by simpa using hu
      have he : copyEntry (d.map x.1) x.2 new = some new := by simp [copyEntry, hu']
      rw [copyAll, he, Option.bind_some] at hc
      rw [everyCopy_unused hu'] at hr ⊢
      rw [content_of_unused hu', Multiset.card_zero, zero_add]
      exact ih hmem' hn hc hr

end Copy

/-! ## The whole growth -/

theorem slots_pairwise (d : Directory bits) : d.slots.Pairwise CopyOrder := by
  unfold slots
  change ((List.range _).flatMap fun i => (List.range _).map (Prod.mk i)).Pairwise CopyOrder
  rw [pairwise_flatMap]
  refine ⟨fun i _ => ?_, ?_⟩
  · rw [pairwise_map]
    refine pairwise_lt_range.imp fun {a b} hlt => ?_
    exact fun _ => hlt
  · refine pairwise_lt_range.imp fun {i j} hlt x hx y hy heq => ?_
    obtain ⟨_, _, rfl⟩ := mem_map.mp hx
    obtain ⟨_, _, rfl⟩ := mem_map.mp hy
    dsimp only at heq
    omega

theorem mem_slots {d : Directory bits} {x : Nat × Nat} :
    x ∈ d.slots ↔ x.1 < 2 ^ d.idxBits ∧ x.2 < entryNr bits := by
  rw [slots, ← Prod.mk.eta (p := x), mem_product, mem_range, mem_range]

theorem slots_sum (d : Directory bits) :
    (d.slots.map fun x => content (d.map x.1) x.2).sum = d.entries := by
  have hnd : d.slots.Nodup := nodup_range.product nodup_range
  rw [← sum_toFinset _ hnd, entries]
  congr 1
  ext x
  rw [mem_toFinset, mem_slots]
  simp

theorem doubled_entries (d : Directory bits) : d.doubled.entries = 0 := by
  unfold entries
  exact Finset.sum_eq_zero fun x _ => content_of_unused rfl

theorem doubled_placed (hashOf : Nat → Nat) (d : Directory bits) : d.doubled.Placed hashOf := by
  intro i _ q _ hu
  simp [doubled, init] at hu

theorem fresh_of_growOk {hashOf : Nat → Nat} {d : Directory bits} (hd : d.Placed hashOf)
    (hw : d.idxBits + 1 ≤ 8 + bits) (hg : d.GrowOk hashOf) :
    d.everyCopy copyFresh d.slots d.doubled = true := by
  obtain ⟨⟨d', hg, _, hent, hp⟩, hroom⟩ := hg
  have hcount := copyAll_counts hd hw (fun x hx => mem_slots.mp hx) rfl hg hroom
  rw [slots_sum, doubled_entries, hent, Multiset.card_zero, zero_add] at hcount
  exact (hcount.2 rfl).2 hp

theorem growOk_of_fresh {hashOf : Nat → Nat} {d : Directory bits} (hd : d.Placed hashOf)
    (hw : d.idxBits + 1 ≤ 8 + bits) (hf : d.everyCopy copyFresh d.slots d.doubled = true) :
    d.GrowOk hashOf := by
  have hb : Behind d.doubled d.slots := by
    intro x _ j q _ hu
    simp [doubled, init] at hu
  have h := copyAll_of_fresh hd hw d.slots_pairwise (fun x hx => mem_slots.mp hx) rfl hb
    (d.doubled_placed hashOf) hf
  rwa [slots_sum, doubled_entries, zero_add] at h

/-- Growth keeps the directory exactly when no copy of an entry whose
fingerprint is already in the new table is sent to the slot of a copied
tombstone or outside its window. -/
theorem growOk_iff (hashOf : Nat → Nat) (d : Directory bits) (hd : d.Placed hashOf)
    (hw : d.idxBits + 1 < 8 + bits) :
    d.GrowOk hashOf ↔ d.everyCopy copyFresh d.slots d.doubled = true :=
  ⟨fresh_of_growOk hd hw.le, growOk_of_fresh hd hw.le⟩

def single (t : UDepotMap 4) : Directory 4 := ⟨0, fun _ => t⟩

private theorem single_placed {t : UDepotMap 4} {h : Nat}
    (ht : ∀ q, q < entryNr 4 → (t.ht q).used = true → (t.ht q).bucketOffset ≤ q ∧
      (t.ht q).bucketOffset < 32 ∧ t.home q < 2 ^ 4 ∧ t.entryKeyfp q = hashToKeyfp 4 h) :
    (single t).Placed fun _ => h := by
  intro i hi q hq hu
  obtain ⟨h1, h2, h3, h4⟩ := ht q hq hu
  refine ⟨⟨h1, h2, h3⟩, h4, ?_⟩
  have hi' : i < 1 := hi
  have hlt := hashToDirIdx_lt (show 0 ≤ 8 + 4 by decide) h
  dsimp only [single]
  omega

/-- Two live entries of one fingerprint survive growth. -/
theorem growOk_twoEntries : (single twoEntries).GrowOk fun _ => 5 :=
  (growOk_iff _ _ (single_placed (by decide +kernel)) (by decide)).mpr (by decide +kernel)

/-- Three keys of one hash are stored and the first one is deleted. Growth copies
the tombstone, then the second key, and puts the third over the tombstone. -/
theorem grow_loses_tombstone : ∃ (d : Directory 4) (hashOf : Nat → Nat), d.Placed hashOf ∧
    d.idxBits + 1 < 8 + 4 ∧ ¬d.GrowOk hashOf := by
  have hp : (single ((twoEntries.insert 7 5 1 2).remove 5 3)).Placed fun _ => 5 :=
    single_placed (by decide +kernel)
  refine ⟨_, _, hp, by decide, fun hg => ?_⟩
  have hf := fresh_of_growOk hp (by decide) hg
  revert hf
  decide +kernel

end Directory
end UDepot
