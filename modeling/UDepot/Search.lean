import UDepot.Absent

/-! The lookup of a key as it meets other operations: the lock of the window is dropped for
each read, and by the time it is held again the entries may have been relocated, overwritten
or shifted. The addresses already read are kept in `pbas_visited`, which has 32 places. -/

namespace UDepot.Store
open Bytes UDepotMap Config List

variable {c : Config}

/-- What the read of a record says: it fails, or the key is another one, or the key is the
one looked for. -/
inductive ReadRes where
  | failed
  | differs
  | same
  deriving DecidableEq, Repr

/-- Where a lookup is before a round: `visited` are the first `lookup_nr` places of
`pbas_visited`. -/
structure Search where
  round : Nat
  visited : List Nat
  deriving DecidableEq, Repr

inductive SearchRes where
  | enodata (q : Nat)
  | enospc
  | noMatch
  | failed
  | hit (e : HashEntry)
  deriving DecidableEq, Repr

/-- What a lookup meets: the tables at the begins of its rounds, and what its reads say.
`forPut` is set in `lookup_mbuff_put`, which looks at the entry again after the read. -/
structure Meets (c : Config) where
  tabs : Nat → UDepotMap c.bits
  reads : Nat → HashEntry → ReadRes
  forPut : Bool

namespace Meets

variable (m : Meets c) (h : Nat)

/-- The entry is where it was, or another one with its address is there. -/
def stillThere (t : UDepotMap c.bits) (q : Nat) (e : HashEntry) : Bool :=
  t.ht q == e || (t.lookupPba h e.pba).isSome

def target (s : Search) : Option HashEntry :=
  match lookupCommon (m.tabs s.round) h s.visited with
  | .trgt (some q) => some ((m.tabs s.round).ht q)
  | _ => none

/-- One round of the loop of `lookup_mbuff`, `lookup_exists` and `lookup_mbuff_put`. -/
def step (s : Search) : SearchRes ⊕ Search :=
  match lookupCommon (m.tabs s.round) h s.visited with
  | .enodata q => .inl (.enodata q)
  | .enospc => .inl .enospc
  | .trgt none => .inl .noMatch
  | .trgt (some q) =>
    let e := (m.tabs s.round).ht q
    match m.reads s.round e with
    | .failed => .inl .failed
    | .differs => .inr ⟨s.round + 1, s.visited ++ [e.pba]⟩
    | .same =>
      if m.forPut && !stillThere h (m.tabs (s.round + 1)) q e then
        .inr ⟨s.round + 1, s.visited ++ [e.pba]⟩
      else .inl (.hit e)

/-- The lookup after `n` rounds. -/
def run : Nat → SearchRes ⊕ Search
  | 0 => .inr ⟨0, []⟩
  | n + 1 =>
    match run n with
    | .inl r => .inl r
    | .inr s => m.step h s

/-- What is owed of a lookup: no more than 32 addresses are recorded; `visited_pba`, which is
called whenever `lookup` succeeds, and with it `update_visited_pba` find a place left; no
address is read twice; the lookup ends. -/
structure InBounds : Prop where
  recorded : ∀ n s, m.run h n = .inr s → s.visited.length ≤ 32
  asserted : ∀ n s, m.run h n = .inr s → ∀ q, (m.tabs s.round).lookup h = .found q →
    s.visited.length < 32
  once : ∀ n s, m.run h n = .inr s → s.visited.Nodup ∧
    ∀ e, m.target h s = some e → e.pba ∉ s.visited
  ends : ∃ n r, m.run h n = .inl r

variable {m h}

/-! ## One round -/

variable {t : UDepotMap c.bits} {q n : Nat} {s : Search} {A : Finset Nat}

theorem lookupCommon_some {visited : List Nat} (hl : lookupCommon t h visited = .trgt (some q)) :
    t.Matches h q ∧ (t.ht q).pba ∉ visited := by
  rw [lookupCommon] at hl
  split at hl
  · cases hl
  · cases hl
  · rename_i q0 hq0
    have hf := CommonRes.trgt.inj hl
    obtain ⟨hmem, hnew⟩ := Visit.firstNew_eq_some hf
    exact ⟨matches_of_chain hq0 hmem, hnew⟩

theorem target_new {e : HashEntry} (ht : m.target h s = some e) : e.pba ∉ s.visited := by
  rw [target] at ht
  split at ht
  · rename_i q hl
    obtain rfl := Option.some.inj ht
    exact (lookupCommon_some hl).2
  · cases ht

theorem step_inr {s' : Search} (hs : m.step h s = .inr s') :
    ∃ q, (m.tabs s.round).Matches h q ∧ ((m.tabs s.round).ht q).pba ∉ s.visited ∧
      s' = ⟨s.round + 1, s.visited ++ [((m.tabs s.round).ht q).pba]⟩ := by
  rw [step] at hs
  split at hs
  · cases hs
  · cases hs
  · cases hs
  · rename_i q hl
    obtain ⟨hm, hnew⟩ := lookupCommon_some hl
    refine ⟨q, hm, hnew, ?_⟩
    dsimp only at hs
    split at hs
    · cases hs
    · exact (Sum.inr.inj hs).symm
    · split at hs
      · exact (Sum.inr.inj hs).symm
      · cases hs

/-! ## All rounds -/

/-- What holds before each round, if the addresses of the entries with the fingerprint are
never outside of `A`. -/
structure Inv (A : Finset Nat) (n : Nat) (s : Search) : Prop where
  length : s.visited.length = n
  nodup : s.visited.Nodup
  mem : ∀ x ∈ s.visited, x ∈ A

theorem Inv.step {s' : Search} (i : Inv A n s)
    (hA : ∀ i q, (m.tabs i).Matches h q → ((m.tabs i).ht q).pba ∈ A) (hs : m.step h s = .inr s') :
    Inv A (n + 1) s' := by
  obtain ⟨q, hm, hnew, rfl⟩ := step_inr hs
  refine ⟨by rw [length_append, i.length]; rfl, ?_, fun x hx => ?_⟩
  · rw [nodup_append]
    refine ⟨i.nodup, nodup_singleton _, fun a ha b hb => ?_⟩
    rw [mem_singleton] at hb
    rintro rfl
    exact hnew (hb ▸ ha)
  · rcases mem_append.mp hx with hx | hx
    · exact i.mem x hx
    · rw [mem_singleton.mp hx]
      exact hA s.round q hm

theorem inv_run (hA : ∀ i q, (m.tabs i).Matches h q → ((m.tabs i).ht q).pba ∈ A)
    (hr : m.run h n = .inr s) : Inv A n s := by
  induction n generalizing s with
  | zero =>
    obtain rfl := Sum.inr.inj hr
    exact ⟨rfl, nodup_nil, fun x hx => nomatch hx⟩
  | succ n ih =>
    rw [run] at hr
    split at hr
    · cases hr
    · rename_i s0 hs0
      exact (ih hs0).step hA hr

theorem Inv.le_card (i : Inv A n s) : n ≤ A.card := by
  rw [← i.length, ← toFinset_card_of_nodup i.nodup]
  exact Finset.card_le_card fun x hx => i.mem x (mem_toFinset.mp hx)

/-- A lookup that can meet fewer than 32 addresses stays within its bounds. -/
theorem inBounds_of_card (hcard : A.card < 32)
    (hA : ∀ i q, (m.tabs i).Matches h q → ((m.tabs i).ht q).pba ∈ A) : m.InBounds h := by
  have hlt : ∀ n s, m.run h n = .inr s → s.visited.length < 32 := by
    intro n s hr
    have hi := inv_run hA hr
    rw [hi.length]
    exact lt_of_le_of_lt hi.le_card hcard
  refine ⟨fun n s hr => (hlt n s hr).le, fun n s hr _ _ => hlt n s hr,
    fun n s hr => ⟨(inv_run hA hr).nodup, fun e he => target_new he⟩, 32, ?_⟩
  cases hr : m.run h 32 with
  | inl r => exact ⟨r, rfl⟩
  | inr s =>
    have := (inv_run hA hr).le_card
    omega

/-! ## A table that stays as it is -/

/-- The addresses of the entries with the fingerprint of `h`. -/
def addresses (t : UDepotMap c.bits) (h : Nat) : Finset Nat :=
  ((Finset.Ico (hashToHb c.bits h) (hashToHb c.bits h + 32)).filter fun q =>
    (t.ht q).live = true ∧ hashToKeyfp c.bits h = t.entryKeyfp q).image fun q => (t.ht q).pba

theorem mem_addresses {x : Nat} : x ∈ addresses t h ↔ ∃ q, t.Matches h q ∧ (t.ht q).pba = x := by
  simp only [addresses, Finset.mem_image, Finset.mem_filter, Finset.mem_Ico, Matches, InWindow]

theorem mem_chain {r : Nat} (hl : t.lookup h = .found q) (hr : t.Matches h r) :
    r ∈ q :: t.nextChain h q := by
  rw [mem_cons, mem_nextChain]
  rcases Nat.lt_trichotomy r q with hlt | heq | hgt
  · have hfirst := (lookup_eq_found.mp hl).1.first r hr.1.1 hlt
    have hm := slotMatch_iff.mpr ⟨((HashEntry.live_iff _).mp hr.2.1).2, hr.2.2⟩
    rw [hm, Bool.or_true] at hfirst
    cases hfirst
  · exact .inl heq
  · exact .inr ⟨hgt, hr.1.2, hr.2⟩

/-- If no record has the key, each round comes to a new address as long as there is one. -/
theorem run_still (ht : ∀ i, m.tabs i = t) (hd : ∀ i e, m.reads i e = .differs)
    (hl : t.lookup h = .found q) (hn : n ≤ (addresses t h).card) : ∃ s, m.run h n = .inr s := by
  induction n with
  | zero => exact ⟨_, rfl⟩
  | succ n ih =>
    obtain ⟨s, hs⟩ := ih (by omega)
    have hi := inv_run (A := addresses t h)
      (fun i r hr => mem_addresses.mpr ⟨r, by rwa [ht] at hr, by rw [ht]⟩) hs
    rw [run, hs]
    dsimp only
    rw [step, ht, lookupCommon, hl]
    dsimp only
    cases hf : Visit.firstNew (fun r => (t.ht r).pba) s.visited (q :: t.nextChain h q) with
    | some r =>
      dsimp only
      rw [hd]
      exact ⟨_, rfl⟩
    | none =>
      have hsub : addresses t h ⊆ s.visited.toFinset := by
        intro x hx
        obtain ⟨r, hr, rfl⟩ := mem_addresses.mp hx
        exact mem_toFinset.mpr (Visit.firstNew_eq_none hf r (mem_chain hl hr))
      have hcard := Finset.card_le_card hsub
      rw [toFinset_card_of_nodup hi.nodup, hi.length] at hcard
      omega

/-- A lookup stays within its bounds and ends if the entries with the fingerprint have fewer
than 32 addresses over the whole of it, however they are relocated, overwritten and shifted
meanwhile. Where they stay as they are and no record has the key, only then. -/
theorem search_inBounds (m : Meets c) (h : Nat) :
    (∀ A : Finset Nat, A.card < 32 →
      (∀ i q, (m.tabs i).Matches h q → ((m.tabs i).ht q).pba ∈ A) → m.InBounds h) ∧
    ∀ t q, (∀ i, m.tabs i = t) → (∀ i e, m.reads i e = .differs) → t.lookup h = .found q →
      (m.InBounds h ↔ (addresses t h).card < 32) := by
  refine ⟨fun A hcard hA => inBounds_of_card hcard hA,
    fun t q ht hd hl => ⟨fun hb => ?_, fun hc => ?_⟩⟩
  · by_contra hc
    obtain ⟨s, hs⟩ := run_still ht hd hl (Nat.not_lt.mp hc)
    have hi := inv_run (A := addresses t h)
      (fun i r hr => mem_addresses.mpr ⟨r, by rwa [ht] at hr, by rw [ht]⟩) hs
    have hlt := hb.asserted 32 s hs q (by rw [ht]; exact hl)
    rw [hi.length] at hlt
    exact lt_irrefl _ hlt
  · exact inBounds_of_card hc fun i r hr => mem_addresses.mpr ⟨r, by rwa [ht] at hr, by rw [ht]⟩

/-- The first `n` slots hold entries of tag 0 that belong to bucket 0. -/
def sameTag (n : Fin 33) : UDepotMap tagged.bits where
  ht q :=
    if h : q < n.val then
      ⟨q, 0, 1, q, HashEntry.window_offset_lt n h, by omega, HashEntry.one_kv_lt, by omega⟩
    else .fresh
  bits_lt := tagged.bits_lt

/-- The table with one entry, which each round finds overwritten with a new record. -/
def overwritten : Nat → UDepotMap tagged.bits
  | 0 => sameTag 1
  | i + 1 => (overwritten i).updateInplace 0 0 1 (i + 1)

/-- Ten entries of one fingerprint, the first of which is overwritten before each of the rounds
1 to 20. -/
def busy : Nat → UDepotMap tagged.bits
  | 0 => sameTag 10
  | i + 1 => if i < 20 then (busy i).updateInplace 0 0 1 (100 + i) else busy i

theorem busy_pba (i q : Nat) (hq : ((busy i).ht q).live = true) :
    ((busy i).ht q).pba ∈ Finset.range 10 ∪ Finset.Ico 100 120 := by
  induction i with
  | zero =>
    change ((sameTag 10).ht q).live = true at hq
    change ((sameTag 10).ht q).pba ∈ _
    unfold sameTag at hq ⊢
    dsimp only at hq ⊢
    split at hq
    · rename_i h
      rw [dif_pos h]
      exact Finset.mem_union_left _ (Finset.mem_range.mpr h)
    · exact absurd hq (by decide)
  | succ i ih =>
    rw [busy] at hq ⊢
    split at hq
    · rename_i hi
      rw [if_pos hi]
      by_cases h0 : q = 0
      · subst h0
        rw [UDepotMap.updateInplace, set_self, HashEntry.setPba_pba, Nat.mod_eq_of_lt (by omega)]
        exact Finset.mem_union_right _ (Finset.mem_Ico.mpr (by omega))
      · rw [UDepotMap.updateInplace, set_other _ _ h0] at hq ⊢
        exact ih hq
    · rename_i hi
      rw [if_neg hi]
      exact ih hq

/-- A put that looks on while an entry is overwritten under it, and a get of an absent key
among 31 entries with its fingerprint. -/
theorem busy_inBounds : (Meets.mk busy (fun _ _ => .differs) true).InBounds 0 ∧
    (Meets.mk (fun _ => sameTag 31) (fun _ _ => .differs) false).InBounds 0 :=
  ⟨(search_inBounds _ 0).1 _ (by decide) fun i q hq => busy_pba i q hq.2.1,
    ((search_inBounds _ 0).2 (sameTag 31) 0 (fun _ => rfl) (fun _ _ => rfl)
      (by decide +kernel)).mpr (by decide +kernel)⟩

/-- With 32 entries of one fingerprint `visited_pba` is called with all places taken, though
nothing changes meanwhile; and one entry that is overwritten in every round takes more places
than there are. -/
theorem out_of_bounds :
    (∃ s, (Meets.mk (fun _ => sameTag 32) (fun _ _ => .differs) false).run 0 32 = .inr s ∧
      s.visited.length = 32 ∧ (sameTag 32).lookup 0 = .found 0) ∧
    ¬ (Meets.mk (fun _ => sameTag 32) (fun _ _ => .differs) false).InBounds 0 ∧
    (∃ s, (Meets.mk overwritten (fun _ _ => .differs) true).run 0 33 = .inr s ∧
      s.visited = List.range 33) ∧
    ¬ (Meets.mk overwritten (fun _ _ => .differs) true).InBounds 0 := by
  have hfull : (Meets.mk (fun _ => sameTag 32) (fun _ _ => .differs) false).run 0 32 =
      .inr ⟨32, List.range 32⟩ := by decide +kernel
  have hfound : (sameTag 32).lookup 0 = .found 0 := by decide +kernel
  have hover : (Meets.mk overwritten (fun _ _ => .differs) true).run 0 33 =
      .inr ⟨33, List.range 33⟩ := by decide +kernel
  refine ⟨⟨_, hfull, rfl, hfound⟩, fun hb => ?_, ⟨_, hover, rfl⟩, fun hb => ?_⟩
  · exact absurd (hb.asserted 32 _ hfull 0 hfound) (by decide)
  · exact absurd (hb.recorded 33 _ hover) (by decide)

end Meets
end UDepot.Store
