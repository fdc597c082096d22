import UDepot.Map

/-! What the searches of the table return, slot by slot, for a table in any
state, and the two invariants lookup rests on: every live entry sits in the
window of the bucket it belongs to (`Wf`), and no slot between that bucket and
the entry was never used (`NoGap`). `lookup` gives up at such a slot. -/

namespace UDepot.UDepotMap
open Scan List

variable {bits : Nat}

/-- The 32 slots that belong to the bucket of `h`. -/
def InWindow (bits h q : Nat) : Prop := hashToHb bits h ≤ q ∧ q < hashToHb bits h + 32

instance (bits h q : Nat) : Decidable (InWindow bits h q) := inferInstanceAs (Decidable (_ ∧ _))

theorem InWindow.lt {h q : Nat} (hw : InWindow bits h q) : q < entryNr bits := by
  have hb := hashToHb_lt bits h
  have hlt := hw.2
  unfold entryNr
  omega

/-- A live entry with the fingerprint of `h` in the window of `h`. -/
def Matches (t : UDepotMap bits) (h q : Nat) : Prop :=
  InWindow bits h q ∧ (t.ht q).live = true ∧ hashToKeyfp bits h = t.entryKeyfp q

/-! ## The searches -/

variable {t : UDepotMap bits} {n p q h he r : Nat}

theorem lookupScan_eq_some {m : Nat} :
    t.lookupScan m n p = some q ↔
      FirstIn (fun r => !(t.ht r).used || t.slotMatch m r) p (p + n) q ∧
        (t.ht q).used = true := by
  induction n generalizing p with
  | zero =>
    refine ⟨fun h => by simp [lookupScan] at h, fun h => ?_⟩
    have := h.1.ge
    have := h.1.lt
    omega
  | succ n ih =>
    simp only [← findFrom_eq_some] at ih ⊢
    simp only [lookupScan, findFrom]
    by_cases hu : (t.ht p).used = true
    · by_cases hm : t.slotMatch m p = true
      · simp only [hu, hm, Bool.not_true, Bool.false_or, Bool.false_eq_true, ↓reduceIte,
          Option.some.injEq]
        exact ⟨fun h => ⟨h, h ▸ hu⟩, And.left⟩
      · simpa only [hu, hm, Bool.not_true, Bool.false_or, Bool.false_eq_true, ↓reduceIte] using ih
    · simp only [hu, Bool.not_false, Bool.true_or, ↓reduceIte, reduceCtorEq, Option.some.injEq,
        false_iff]
      rintro ⟨rfl, h⟩
      exact hu h

theorem slotMatch_iff {m : Nat} :
    t.slotMatch m q = true ↔ (t.ht q).deleted = false ∧ m = t.entryKeyfp q := by
  simp [slotMatch]

theorem candidateScan_eq_some {cand : Option Nat} (h : t.candidateScan n p cand = some q) :
    (p ≤ q ∧ q < p + n ∧ (t.ht q).used = false ∧ ∀ r, p ≤ r → r < q → (t.ht r).used = true) ∨
      ((∀ r, p ≤ r → r < p + n → (t.ht r).used = true) ∧
        (cand = some q ∨ p ≤ q ∧ q < p + n ∧ (t.ht q).deleted = true)) := by
  fun_induction candidateScan t n p cand with
  | case1 p cand => exact .inr ⟨fun r h1 h2 => by omega, .inl h⟩
  | case2 n p cand hu =>
    cases h
    exact .inl ⟨le_refl _, by omega, by simpa using hu, fun r h1 h2 => by omega⟩
  | case3 n p cand hu hd ih | case4 n p cand hu hd ih =>
    -- the slot is in use: it extends the prefix of used slots either way
    have hp : (t.ht p).used = true := by simpa using hu
    rcases ih h with ⟨h1, h2, h3, h4⟩ | ⟨h1, h2⟩
    · exact .inl (by grind)
    · exact .inr (by grind)

theorem candidateScan_eq_none {cand : Option Nat} (h : t.candidateScan n p cand = none) :
    ∀ r, p ≤ r → r < p + n → (t.ht r).live = true := by
  have hsome : ∀ n p c, t.candidateScan n p (some c) ≠ none := by
    intro n
    induction n with
    | zero => intro p c; simp [candidateScan]
    | succ n ih => intro p c; simp only [candidateScan]; split <;> [simp; split <;> exact ih _ _]
  fun_induction candidateScan t n p cand with
  | case1 p cand => intro r h1 h2; omega
  | case2 n p cand hu => cases h
  | case3 n p cand hu hd ih => exact absurd h (hsome _ _ _)
  | case4 n p cand hu hd ih =>
    intro r h1 h2
    rcases Nat.eq_or_lt_of_le h1 with rfl | h1
    · simp_all [HashEntry.live]
    · exact ih h r h1 (by omega)

theorem lookup_eq_found :
    t.lookup h = .found q ↔
      FirstIn (fun r => !(t.ht r).used || t.slotMatch (hashToKeyfp bits h) r)
        (hashToHb bits h) (hashToHb bits h + 32) q ∧ (t.ht q).used = true := by
  rw [← lookupScan_eq_some]
  unfold lookup
  split
  · simp_all
  · split <;> simp_all

theorem matches_of_lookup (hl : t.lookup h = .found q) : t.Matches h q := by
  obtain ⟨hf, hu⟩ := lookup_eq_found.mp hl
  have hm : t.slotMatch (hashToKeyfp bits h) q = true := by simpa [hu] using hf.hit
  obtain ⟨hd, hk⟩ := slotMatch_iff.mp hm
  exact ⟨⟨hf.ge, hf.lt⟩, by simp [HashEntry.live, hu, hd], hk⟩

/-- The slot `lookup` offers for an insertion is free, and no slot of the
window in front of it was never used. -/
theorem lookup_enodata (hl : t.lookup h = .enodata q) :
    InWindow bits h q ∧ (t.ht q).free = true ∧
      ∀ r, hashToHb bits h ≤ r → r < q → (t.ht r).used = true := by
  unfold lookup at hl
  split at hl
  · cases hl
  · split at hl
    · rename_i hc
      cases hl
      rcases candidateScan_eq_some hc with ⟨h1, h2, h3, h4⟩ | ⟨h1, h2⟩
      · exact ⟨⟨h1, h2⟩, by simp [HashEntry.free, h3], h4⟩
      · simp only [reduceCtorEq, false_or] at h2
        exact ⟨⟨h2.1, h2.2.1⟩, by simp [HashEntry.free, h2.2.2], fun r hr hq => h1 r hr (by omega)⟩
    · cases hl

/-- `lookup` offers a tombstone only when the whole window is in use. -/
theorem lookup_enodata_used (hl : t.lookup h = .enodata q) (hu : (t.ht q).used = true) :
    ∀ r, InWindow bits h r → (t.ht r).used = true := by
  unfold lookup at hl
  split at hl
  · cases hl
  · split at hl
    · rename_i hc
      cases hl
      rcases candidateScan_eq_some hc with ⟨_, _, h3, _⟩ | ⟨h1, _⟩
      · simp [hu] at h3
      · exact fun r hr => h1 r hr.1 hr.2
    · cases hl

theorem lookup_enospc (hl : t.lookup h = .enospc) :
    ∀ r, InWindow bits h r → (t.ht r).live = true := by
  unfold lookup at hl
  split at hl
  · cases hl
  · split at hl
    · cases hl
    · rename_i hc
      exact fun r hr => candidateScan_eq_none hc r hr.1 hr.2

theorem nextFree_eq_some (hb : bits ≤ 32) :
    t.nextFree h = some q ↔ InWindow bits h q ∧ (t.ht q).free = true ∧
      ∀ r, hashToHb bits h ≤ r → r < q → (t.ht r).live = true := by
  unfold nextFree
  rw [hashToHb32_eq hb, findFrom_eq_some]
  constructor
  · intro hf
    refine ⟨⟨hf.ge, hf.lt⟩, hf.hit, fun r h1 h2 => ?_⟩
    simpa [HashEntry.free_eq_not_live] using hf.first r h1 h2
  · rintro ⟨⟨h1, h2⟩, h3, h4⟩
    exact ⟨h1, h2, h3, fun r hr hq => by simp [HashEntry.free_eq_not_live, h4 r hr hq]⟩

theorem nextFree_eq_none (hb : bits ≤ 32) :
    t.nextFree h = none ↔ ∀ r, InWindow bits h r → (t.ht r).live = true := by
  unfold nextFree
  rw [hashToHb32_eq hb, findFrom_eq_none]
  simp [HashEntry.free_eq_not_live, InWindow]

theorem next_eq_some (hn : t.next he h = some q) : he < q ∧ q < hashToHb bits h + 32 := by
  have hf := findFrom_eq_some.mp hn
  have := hf.ge
  have := hf.lt
  omega

/-- The slots that `n` calls of `next` from `he` on visit. -/
def nextIter (t : UDepotMap bits) (h : Nat) : Nat → Nat → List Nat
  | 0, _ => []
  | n + 1, he =>
    match t.next he h with
    | none => []
    | some q => q :: nextIter t h n q

/-- The slots that following `next` from `he` visits until it returns nothing. -/
def nextChain (t : UDepotMap bits) (h he : Nat) : List Nat :=
  t.nextIter h (hashToHb bits h + 32 - he) he

theorem nextMatch_iff :
    ((t.ht r).used && t.slotMatch (hashToKeyfp bits h) r) = true ↔
      (t.ht r).live = true ∧ hashToKeyfp bits h = t.entryKeyfp r := by
  simp [HashEntry.live, slotMatch, and_assoc]

theorem mem_nextIter (hn : hashToHb bits h + 32 ≤ n + he) :
    r ∈ t.nextIter h n he ↔ he < r ∧ r < hashToHb bits h + 32 ∧ (t.ht r).live = true ∧
      hashToKeyfp bits h = t.entryKeyfp r := by
  induction n generalizing he with
  | zero =>
    simp only [nextIter, not_mem_nil, false_iff]
    omega
  | succ n ih =>
    cases hq : t.next he h with
    | none =>
      simp only [nextIter, hq, not_mem_nil, false_iff]
      rintro ⟨h1, h2, h3⟩
      have := findFrom_eq_none.mp hq r (by omega) (by omega)
      simp [nextMatch_iff.mpr h3] at this
    | some q =>
      have hf := findFrom_eq_some.mp hq
      have hlt := next_eq_some hq
      simp only [nextIter, hq, mem_cons, ih (show hashToHb bits h + 32 ≤ n + q by omega)]
      constructor
      · rintro (rfl | ⟨h1, h2⟩)
        · exact ⟨hlt.1, hlt.2, nextMatch_iff.mp hf.hit⟩
        · exact ⟨by omega, h2⟩
      · rintro ⟨h1, h2, h3⟩
        rcases Nat.lt_trichotomy r q with hrq | rfl | hrq
        · have := hf.first r (by omega) hrq
          simp [nextMatch_iff.mpr h3] at this
        · exact .inl rfl
        · exact .inr ⟨hrq, h2, h3⟩

/-- Following `next` visits every later live slot of the window with the
fingerprint, whatever lies in between. -/
theorem mem_nextChain :
    r ∈ t.nextChain h he ↔ he < r ∧ r < hashToHb bits h + 32 ∧ (t.ht r).live = true ∧
      hashToKeyfp bits h = t.entryKeyfp r :=
  mem_nextIter (by omega)

theorem nextIter_sorted (t : UDepotMap bits) (h n he : Nat) :
    (he :: t.nextIter h n he).Pairwise (· < ·) := by
  induction n generalizing he with
  | zero => simp [nextIter]
  | succ n ih =>
    cases hq : t.next he h with
    | none => simp [nextIter, hq]
    | some q =>
      have hlt := (next_eq_some hq).1
      have htail := ih q
      simp only [nextIter, hq]
      refine pairwise_cons.mpr ⟨fun r hr => ?_, htail⟩
      rcases mem_cons.mp hr with rfl | hr
      · exact hlt
      · exact hlt.trans ((pairwise_cons.mp htail).1 r hr)

theorem nextChain_sorted (t : UDepotMap bits) (h he : Nat) :
    (he :: t.nextChain h he).Pairwise (· < ·) :=
  t.nextIter_sorted h _ he

/-! ## The invariants -/

/-- Every live entry lies in its own bucket's window, and the never-used slots
carry no tombstone mark. The buckets fit the 32 bits that `next_free` keeps of
them. -/
structure Wf (t : UDepotMap bits) : Prop where
  bits_le : bits ≤ 32
  slot : ∀ q, (t.ht q).live = true → t.SlotWf q
  clean : ∀ q, (t.ht q).used = false → (t.ht q).deleted = false

/-- No never-used slot lies between a live entry's bucket and the entry. -/
def NoGap (t : UDepotMap bits) : Prop :=
  ∀ q, (t.ht q).live = true → ∀ r, t.home q ≤ r → r < q → (t.ht r).used = true

/-- The answer the map owes for the hash `h`: `lookup` succeeds exactly when
some live entry with the fingerprint of `h` is in the window, and then the slot
it returns and those `next` leads to are these entries, each once. -/
def LookupComplete (t : UDepotMap bits) (h : Nat) : Prop :=
  ((∃ q, t.lookup h = .found q) ↔ ∃ q, t.Matches h q) ∧
    ∀ q, t.lookup h = .found q →
      (q :: t.nextChain h q).Nodup ∧ ∀ r, r ∈ q :: t.nextChain h q ↔ t.Matches h r

theorem Wf.home_eq (w : t.Wf) (hm : t.Matches h q) : t.home q = hashToHb bits h :=
  ((w.slot q hm.2.1).keyfp_eq_iff.mp hm.2.2).2

/-- The first live match is found when no slot of the window in front of it was
never used. -/
theorem lookup_of_first (hm : t.Matches h q)
    (hgap : ∀ r, hashToHb bits h ≤ r → r < q → (t.ht r).used = true) :
    ∃ q', t.lookup h = .found q' := by
  obtain ⟨⟨h1, h2⟩, hl, hk⟩ := hm
  obtain ⟨hu, hd⟩ := (HashEntry.live_iff _).mp hl
  obtain ⟨q', hf, hle⟩ := findFrom_isSome
    (p := fun r => !(t.ht r).used || t.slotMatch (hashToKeyfp bits h) r) h1 h2
    (by simp [slotMatch, hd, hk])
  refine ⟨q', lookup_eq_found.mpr ⟨findFrom_eq_some.mp hf, ?_⟩⟩
  rcases Nat.eq_or_lt_of_le hle with rfl | hlt
  · exact hu
  · exact hgap q' (findFrom_eq_some.mp hf).ge hlt

theorem lookup_le_matches (hl : t.lookup h = .found q) (hm : t.Matches h r) : q ≤ r := by
  obtain ⟨hf, _⟩ := lookup_eq_found.mp hl
  obtain ⟨⟨h1, _⟩, hlive, hk⟩ := hm
  by_contra hlt
  have := hf.first r h1 (by omega)
  simp [slotMatch, hk, ((HashEntry.live_iff _).mp hlive).2] at this

theorem lookupComplete_of_noGap (w : t.Wf) (g : t.NoGap) (h : Nat) : t.LookupComplete h := by
  refine ⟨⟨fun ⟨q, hq⟩ => ⟨q, matches_of_lookup hq⟩, ?_⟩, ?_⟩
  · rintro ⟨q, hm⟩
    refine lookup_of_first hm fun r h1 h2 => g q hm.2.1 r ?_ h2
    rw [w.home_eq hm]
    exact h1
  · intro q hq
    have hm := matches_of_lookup hq
    refine ⟨(nextChain_sorted t h q).imp fun hlt => Nat.ne_of_lt hlt, fun r => ?_⟩
    rw [mem_cons, mem_nextChain]
    constructor
    · rintro (rfl | ⟨h1, h2, h3⟩)
      · exact hm
      · exact ⟨⟨by have := hm.1.1; omega, h2⟩, h3⟩
    · intro hr
      rcases Nat.eq_or_lt_of_le (lookup_le_matches hq hr) with rfl | hlt
      · exact .inl rfl
      · exact .inr ⟨hlt, hr.1.2, hr.2⟩

end UDepot.UDepotMap
