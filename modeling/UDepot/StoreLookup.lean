import UDepot.StoreInv

/-! What the lookup loop of get, exists, put and del answers: under the invariant
of the store it ends at the live entry of the key if there is one, whatever other
keys share its fingerprint and bucket. From this, `get` and `exists` read the
finite map that the store represents. -/

namespace UDepot.Store
open Bytes UDepotMap Directory Config Multiset

variable {c : Config}

/-! ## The loop -/

variable {t : UDepotMap c.bits} {h q : Nat} {k : List UInt8} {e : Content} {s : Store c}

/-- The loop after a successful `lookup` is a search by visits. -/
theorem lookupLoop_of_found (hl : t.lookup h = .found q) (isMatch : HashEntry → Bool) (n : Nat)
    (visited : List Nat) :
    lookupLoop t h isMatch n visited =
      match Visit.visit (fun r => (t.ht r).pba) (fun r => isMatch (t.ht r)) (q :: t.nextChain h q) n
        visited with
      | none => .noMatch
      | some r => .hit r := by
  induction n generalizing visited with
  | zero => rfl
  | succ n ih =>
    simp only [lookupLoop, lookupCommon, hl, Visit.visit]
    cases hf : Visit.firstNew (fun r => (t.ht r).pba) visited (q :: t.nextChain h q) with
    | none => rfl
    | some r =>
      by_cases hm : isMatch (t.ht r) = true
      · simp [hm]
      · simpa [hm] using ih _

/-- The answer of the loop, by that of `lookup`. -/
theorem lookupLoop_answers (t : UDepotMap c.bits) (h : Nat) (isMatch : HashEntry → Bool) :
    (t.lookup h = .enospc ∧ lookupLoop t h isMatch lookupRounds [] = .enospc) ∨
      (∃ q, t.lookup h = .enodata q ∧ lookupLoop t h isMatch lookupRounds [] = .enodata q) ∨
      ∃ q, t.lookup h = .found q ∧ (lookupLoop t h isMatch lookupRounds [] = .noMatch ∨
        ∃ r ∈ q :: t.nextChain h q, isMatch (t.ht r) = true ∧
          lookupLoop t h isMatch lookupRounds [] = .hit r) := by
  cases hl : t.lookup h with
  | enospc => exact .inl ⟨rfl, by simp only [lookupRounds, lookupLoop, lookupCommon, hl]⟩
  | enodata q =>
    exact .inr (.inl ⟨q, rfl, by simp only [lookupRounds, lookupLoop, lookupCommon, hl]⟩)
  | found q =>
    refine .inr (.inr ⟨q, rfl, ?_⟩)
    rw [lookupLoop_of_found hl]
    cases hv : Visit.visit (fun r => (t.ht r).pba) (fun r => isMatch (t.ht r))
        (q :: t.nextChain h q) lookupRounds [] with
    | none => exact .inl rfl
    | some r =>
      obtain ⟨hr, hm⟩ := Visit.visit_eq_some hv
      exact .inr ⟨r, hr, hm, rfl⟩

theorem chain_length (hl : t.lookup h = .found q) :
    (q :: t.nextChain h q).length < lookupRounds := by
  have hnd : (q :: t.nextChain h q).Nodup :=
    (nextChain_sorted t h q).imp fun hlt => Nat.ne_of_lt hlt
  have hw := (matches_of_lookup hl).1
  have hsub : (q :: t.nextChain h q).toFinset ⊆
      Finset.Ico (hashToHb c.bits h) (hashToHb c.bits h + 32) := by
    intro r hr
    rw [List.mem_toFinset, List.mem_cons, mem_nextChain] at hr
    rw [Finset.mem_Ico]
    rcases hr with rfl | ⟨h1, h2, _⟩
    · exact hw
    · have := hw.1
      omega
  have hcard := Finset.card_le_card hsub
  rw [List.toFinset_card_of_nodup hnd, Nat.card_Ico] at hcard
  unfold lookupRounds
  omega

theorem lookupLoop_spec (w : t.Wf) (g : t.NoGap) (h : Nat)
    {isMatch : HashEntry → Bool}
    (hp : ∀ q, t.Matches h q → ∀ r, t.Matches h r → (t.ht q).pba = (t.ht r).pba →
      isMatch (t.ht q) = isMatch (t.ht r)) :
    (∃ q, lookupLoop t h isMatch lookupRounds [] = .hit q ∧ t.Matches h q ∧
        isMatch (t.ht q) = true) ∨
      (∀ q, lookupLoop t h isMatch lookupRounds [] ≠ .hit q) ∧
        ∀ q, t.Matches h q → isMatch (t.ht q) = false := by
  have hcomp := lookupComplete_of_noGap w g h
  cases hl : t.lookup h with
  | enodata q | enospc =>
    refine .inr ⟨fun r => by simp [lookupRounds, lookupLoop, lookupCommon, hl], fun r hr => ?_⟩
    obtain ⟨r', hr'⟩ := hcomp.1.mpr ⟨r, hr⟩
    rw [hl] at hr'
    cases hr'
  | found q =>
    have hmem := (hcomp.2 q hl).2
    rw [lookupLoop_of_found hl]
    cases hv : Visit.visit (fun r => (t.ht r).pba) (fun r => isMatch (t.ht r))
        (q :: t.nextChain h q) lookupRounds [] with
    | some r =>
      obtain ⟨hr, hm⟩ := Visit.visit_eq_some hv
      exact .inl ⟨r, rfl, (hmem r).mp hr, hm⟩
    | none =>
      refine .inr ⟨fun r => by simp, fun r hr => ?_⟩
      exact Visit.visit_eq_none
        (fun x hx y hy => hp x ((hmem x).mp hx) y ((hmem y).mp hy)) (by simp)
        (lt_of_le_of_lt (List.length_filter_le _ _) (chain_length hl)) hv r ((hmem r).mpr hr)

/-! ## The comparison of keys -/

theorem keyMatch_iff {m : Nat → UInt8} {e : HashEntry} :
    keyMatch c m k e = true ↔ c.recKey m e.pba = k := by
  simp only [keyMatch, Bool.and_eq_true, beq_iff_eq, recKey]
  constructor
  · rintro ⟨h1, h2⟩
    rw [h1, h2]
  · intro h
    have hlen : (c.readHeader m e.pba).keySize = k.length := by rw [← h, read_length]
    exact ⟨hlen, by rw [← hlen, h]⟩

theorem le_alignUp {x y : Nat} (hy : 0 < y) : x ≤ alignUp x y := by
  unfold alignUp
  rw [Nat.mul_comm]
  exact le_udivRoundUp hy

/-- `lookup_mbuff` reads enough of a record to compare its key. -/
theorem getMatch_eq_keyMatch {m : Nat → UInt8} {e : HashEntry}
    (h : putKeyvalPrefixSize + (c.readHeader m e.pba).keySize ≤ e.kvSize * c.grainSize) :
    getMatch c m k e = keyMatch c m k e := by
  unfold getMatch keyMatch
  cases hk : (c.readHeader m e.pba).keySize == k.length with
  | false => rfl
  | true =>
    rw [beq_iff_eq] at hk
    have hpos : 0 < min 512 c.grainSize := lt_min (by decide) c.grain_pos
    have hle := le_alignUp (x := e.kvSize * c.grainSize) hpos
    rw [hk] at h
    simp [h.trans hle]

/-! ## Entries and slots -/

/-- What the used slot `q` of table `i` says. -/
def slotContent (t : UDepotMap c.bits) (q : Nat) : Content :=
  ⟨t.entryKeyfp q, (t.ht q).kvSize, (t.ht q).pba, (t.ht q).deleted⟩

theorem mem_entries {d : Directory c.bits} :
    e ∈ d.entries ↔ ∃ i q, i < 2 ^ d.idxBits ∧ q < entryNr c.bits ∧
      ((d.map i).ht q).used = true ∧ e = slotContent (d.map i) q := by
  unfold entries
  rw [mem_sum]
  constructor
  · rintro ⟨⟨i, q⟩, hx, he⟩
    rw [Finset.mem_product, Finset.mem_range, Finset.mem_range] at hx
    by_cases hu : ((d.map i).ht q).used = true
    · rw [content, if_pos hu, mem_singleton] at he
      exact ⟨i, q, hx.1, hx.2, hu, he⟩
    · rw [content_of_unused (by simpa using hu)] at he
      exact absurd he (notMem_zero _)
  · rintro ⟨i, q, hi, hq, hu, rfl⟩
    refine ⟨(i, q), by simp [hi, hq], ?_⟩
    rw [content, if_pos hu, mem_singleton]
    rfl

theorem mem_liveEntries {d : Directory c.bits} :
    e ∈ d.liveEntries ↔ ∃ i q, i < 2 ^ d.idxBits ∧ q < entryNr c.bits ∧
      ((d.map i).ht q).live = true ∧ e = slotContent (d.map i) q := by
  unfold liveEntries
  rw [mem_filter, mem_entries]
  constructor
  · rintro ⟨⟨i, q, hi, hq, hu, rfl⟩, hd⟩
    exact ⟨i, q, hi, hq, (HashEntry.live_iff _).mpr ⟨hu, hd⟩, rfl⟩
  · rintro ⟨i, q, hi, hq, hl, rfl⟩
    obtain ⟨hu, hd⟩ := (HashEntry.live_iff _).mp hl
    exact ⟨⟨i, q, hi, hq, hu, rfl⟩, hd⟩

theorem table_lt (inv : s.Base) (h : Nat) :
    hashToDirIdx c.bits h s.dir.idxBits < 2 ^ s.dir.idxBits :=
  hashToDirIdx_lt inv.width h

theorem table_wf (inv : s.Base) (h : Nat) : (s.table h).Wf :=
  inv.wf _ (table_lt inv h)

theorem table_noGap (inv : s.Inv) (h : Nat) : (s.table h).NoGap :=
  inv.noGap _ (table_lt inv.toBase h)

theorem match_mem (inv : s.Inv) (hm : (s.table h).Matches h q) :
    slotContent (s.table h) q ∈ s.dir.liveEntries :=
  mem_liveEntries.mpr ⟨_, q, table_lt inv.toBase h, hm.1.lt, hm.2.1, rfl⟩

theorem match_of_key (inv : s.Inv) (he : e ∈ s.dir.liveEntries) :
    ∃ q, (s.table (s.keyHash e.pba)).Matches (s.keyHash e.pba) q ∧
      e = slotContent (s.table (s.keyHash e.pba)) q := by
  obtain ⟨i, q, hi, hq, hl, rfl⟩ := mem_liveEntries.mp he
  have hp := inv.placed i hi q hq ((HashEntry.live_iff _).mp hl).1
  have ht : s.table (s.keyHash ((s.dir.map i).ht q).pba) = s.dir.map i := by
    unfold table hashToMap
    rw [hp.table]
  refine ⟨q, ?_, by rw [slotContent, ht]; rfl⟩
  dsimp only [slotContent]
  rw [ht]
  refine ⟨?_, hl, hp.keyfp.symm⟩
  obtain ⟨_, hhome⟩ := hp.slot.keyfp_eq_iff.mp hp.keyfp.symm
  unfold InWindow
  rw [← hhome]
  exact ⟨hp.slot.home_le, hp.slot.lt_home⟩

/-! ## What the store represents -/

/-- The finite map of keys to values that the store stands for. -/
def Represents (s : Store c) (M : List UInt8 → Option (List UInt8)) : Prop :=
  ∀ k v, M k = some v ↔ ∃ e ∈ s.dir.liveEntries,
    c.recKey s.media e.pba = k ∧ c.recVal s.media e.pba = v

/-- The answer of the loop for a key: its entry, or no entry has the key. -/
theorem lookupKey_spec {s : Store c} (inv : s.Inv) (k : List UInt8) {isMatch : HashEntry → Bool}
    (heq : ∀ q, (s.table (c.hash k)).Matches (c.hash k) q →
      isMatch ((s.table (c.hash k)).ht q) = keyMatch c s.media k ((s.table (c.hash k)).ht q)) :
    (∃ q, lookupLoop (s.table (c.hash k)) (c.hash k) isMatch lookupRounds [] = .hit q ∧
        (s.table (c.hash k)).Matches (c.hash k) q ∧
        c.recKey s.media ((s.table (c.hash k)).ht q).pba = k) ∨
      (∀ q, lookupLoop (s.table (c.hash k)) (c.hash k) isMatch lookupRounds [] ≠ .hit q) ∧
        ∀ e ∈ s.dir.liveEntries, c.recKey s.media e.pba ≠ k := by
  have hsame : ∀ q, (s.table (c.hash k)).Matches (c.hash k) q →
      ∀ r, (s.table (c.hash k)).Matches (c.hash k) r →
      ((s.table (c.hash k)).ht q).pba = ((s.table (c.hash k)).ht r).pba →
      isMatch ((s.table (c.hash k)).ht q) = isMatch ((s.table (c.hash k)).ht r) := by
    intro q hq r hr hpba
    rw [heq q hq, heq r hr]
    unfold keyMatch
    rw [hpba]
  rcases lookupLoop_spec (table_wf inv.toBase _) (table_noGap inv _) (c.hash k) hsame with
    ⟨q, hl, hm, ht⟩ | ⟨hno, hall⟩
  · refine .inl ⟨q, hl, hm, ?_⟩
    rw [heq q hm] at ht
    exact keyMatch_iff.mp ht
  · refine .inr ⟨hno, fun e he hk => ?_⟩
    obtain ⟨q, hm, hslot⟩ := match_of_key inv he
    have hh : s.keyHash e.pba = c.hash k := by rw [keyHash, hk]
    rw [hh] at hm hslot
    have hf := hall q hm
    have hpba : ((s.table (c.hash k)).ht q).pba = e.pba := by rw [hslot]; rfl
    rw [heq q hm, Bool.eq_false_iff] at hf
    exact hf (keyMatch_iff.mpr (by rw [hpba, hk]))

theorem getMatch_of_match (inv : s.Inv) (k : List UInt8) (hm : (s.table h).Matches h q) :
    getMatch c s.media k ((s.table h).ht q) = keyMatch c s.media k ((s.table h).ht q) := by
  have he := match_mem inv hm
  have hrec := inv.recs _ (mem_of_mem_filter he)
  exact getMatch_eq_keyMatch (hrec.reach (mem_filter.mp he).2)

theorem valueAt_eq {pba : Nat} (h : c.recKey s.media pba = k) :
    s.valueAt k pba = c.recVal s.media pba := by
  have hlen : k.length = (c.readHeader s.media pba).keySize := by rw [← h, recKey, read_length]
  rw [valueAt, recVal, hlen]

theorem get_ok_iff (inv : s.Inv) (k v : List UInt8) :
    s.get k = .ok v ↔ ∃ e ∈ s.dir.liveEntries,
      c.recKey s.media e.pba = k ∧ c.recVal s.media e.pba = v := by
  unfold get
  dsimp only
  rcases lookupKey_spec inv k (fun q hm => getMatch_of_match inv k hm) with
    ⟨q, hl, hm, hk⟩ | ⟨hno, hall⟩
  · rw [hl]
    dsimp only
    rw [valueAt_eq hk, GetRes.ok.injEq]
    constructor
    · rintro rfl
      exact ⟨_, match_mem inv hm, hk, rfl⟩
    · rintro ⟨e, he, hek, rfl⟩
      have hsame := inj_on_of_nodup_map inv.keys _ (match_mem inv hm) _ he
        (hk.trans hek.symm)
      rw [← hsame]
      rfl
  · constructor
    · intro h
      cases hl : lookupLoop (s.table (c.hash k)) (c.hash k) (getMatch c s.media k)
        lookupRounds [] with
      | hit q => exact absurd hl (hno q)
      | enodata q | enospc | noMatch => simp [hl] at h
    · rintro ⟨e, he, hek, _⟩
      exact absurd hek (hall e he)

theorem get_eq_ok (inv : s.Inv) {M : List UInt8 → Option (List UInt8)} (hM : s.Represents M)
    (k v : List UInt8) : s.get k = .ok v ↔ M k = some v :=
  (get_ok_iff inv k v).trans (hM k v).symm

/-- The assertion fails exactly where `get` would give back an empty value. -/
theorem checkedGet_eq (s : Store c) (k : List UInt8) :
    s.checkedGet k = if s.get k = .ok [] then none else some (s.get k) := by
  rw [checkedGet]
  generalize hget : s.get k = res
  rw [get] at hget
  cases hl : lookupLoop (s.table (c.hash k)) (c.hash k) (getMatch c s.media k) lookupRounds [] with
  | enodata q | enospc | noMatch =>
    rw [hl] at hget
    subst hget
    rfl
  | hit q =>
    rw [hl] at hget
    subst hget
    dsimp only
    have hlen : (s.valueAt k ((s.table (c.hash k)).ht q).pba).length =
        (c.readHeader s.media ((s.table (c.hash k)).ht q).pba).valSize := read_length _ _ _
    by_cases hpos : 0 < (c.readHeader s.media ((s.table (c.hash k)).ht q).pba).valSize
    · rw [if_pos hpos, if_neg]
      intro hnil
      rw [GetRes.ok.inj hnil, List.length_nil] at hlen
      omega
    · rw [if_neg hpos, if_pos]
      rw [List.eq_nil_of_length_eq_zero (hlen.trans (Nat.eq_zero_of_not_pos hpos))]

theorem exists_eq_ok (inv : s.Inv) {M : List UInt8 → Option (List UInt8)} (hM : s.Represents M)
    (k : List UInt8) (n : Nat) : s.exists' k = .ok n ↔ ∃ v, M k = some v ∧ v.length = n := by
  unfold exists'
  dsimp only
  rcases @lookupKey_spec c s inv k (keyMatch c s.media k) (fun _ _ => rfl) with
    ⟨q, hl, hm, hk⟩ | ⟨hno, hall⟩
  · rw [hl]
    dsimp only
    have hv := (hM k _).mpr ⟨_, match_mem inv hm, hk, rfl⟩
    rw [ExistsRes.ok.injEq, hv]
    constructor
    · rintro rfl
      exact ⟨_, rfl, read_length _ _ _⟩
    · rintro ⟨v, hv', rfl⟩
      cases hv'
      exact (read_length _ _ _).symm
  · constructor
    · intro h
      cases hl : lookupLoop (s.table (c.hash k)) (c.hash k) (keyMatch c s.media k)
        lookupRounds [] with
      | hit q => exact absurd hl (hno q)
      | enodata q | enospc | noMatch => simp [hl] at h
    · rintro ⟨v, hv, _⟩
      obtain ⟨e, he, hek, _⟩ := (hM k v).mp hv
      exact absurd hek (hall e he)

end UDepot.Store
