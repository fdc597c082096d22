import UDepot.StoreStep

/-! Steps that rewrite one slot of one table. Whatever the operation, the entries
of the directory change by one exchange, and the finite map changes at the key of
that slot only. -/

namespace UDepot
open Multiset

namespace Directory
open UDepotMap

variable {bits : Nat}

/-- The entries before and after a change of slot `q` share the rest. -/
theorem entries_split (d : Directory bits) {i q : Nat} {t : UDepotMap bits} (hi : i < 2 ^ d.idxBits)
    (hq : q < entryNr bits) (ht : ∀ r, r ≠ q → t.ht r = (d.map i).ht r) :
    ∃ rest, d.entries = rest + content (d.map i) q ∧
      (d.setMap i t).entries = rest + content t q := by
  have hle : content (d.map i) q ≤ d.entries := by
    unfold entries
    exact Finset.single_le_sum (f := fun x : Nat × Nat => content (d.map x.1) x.2)
      (fun _ _ => zero_le _) (show (i, q) ∈ _ by simp [hi, hq])
  obtain ⟨rest, hrest⟩ := Multiset.le_iff_exists_add.mp hle
  rw [add_comm] at hrest
  refine ⟨rest, hrest, ?_⟩
  have h := d.entries_setMap hi hq ht
  rw [hrest, add_right_comm] at h
  exact add_right_cancel h

theorem placed_setMap {hashOf : Nat → Nat} {d : Directory bits} {i q : Nat} {t : UDepotMap bits}
    (hp : d.Placed hashOf) (ht : ∀ r, r ≠ q → t.ht r = (d.map i).ht r)
    (hq : (t.ht q).used = true → (d.setMap i t).PlacedAt hashOf i q) :
    (d.setMap i t).Placed hashOf := by
  intro j hj r hr hu
  by_cases hji : j = i
  · subst hji
    by_cases hrq : r = q
    · subst hrq
      rw [setMap_self] at hu
      exact hq hu
    · have he : ((d.setMap j t).map j).ht r = (d.map j).ht r := by rw [setMap_self, ht r hrq]
      rw [he] at hu
      exact (hp j hj r hr hu).congr rfl he
  · have he : ((d.setMap i t).map j).ht r = (d.map j).ht r := by rw [setMap_other _ _ hji]
    rw [he] at hu
    exact (hp j hj r hr hu).congr rfl he

end Directory

namespace Store
open Bytes UDepotMap Directory Config

variable {c : Config}

/-- The change of slot `q` of the table of `h` to what `t` holds there. -/
structure SlotStep (s : Store c) (h q : Nat) (t : UDepotMap c.bits) : Prop where
  lt : q < entryNr c.bits
  other : ∀ r, r ≠ q → t.ht r = (s.table h).ht r
  wf : t.Wf
  noGap : t.NoGap
  placed : (t.ht q).used = true →
    (s.setTable h t).dir.PlacedAt s.keyHash (hashToDirIdx c.bits h s.dir.idxBits) q
  recAt : (t.ht q).used = true → s.RecAt (slotContent t q)

namespace SlotStep

variable {s : Store c} {h q : Nat} {t : UDepotMap c.bits}

theorem split (st : SlotStep s h q t) (inv : s.Base) :
    ∃ rest, s.dir.entries = rest + content (s.table h) q ∧
      (s.setTable h t).dir.entries = rest + content t q :=
  s.dir.entries_split (table_lt inv h) st.lt st.other

/-- The step gives the invariant if the live keys stay distinct; the table itself
may have had a gap. -/
theorem inv (st : SlotStep s h q t) (inv : s.Base)
    (hgap : ∀ j, j < 2 ^ s.dir.idxBits → j ≠ hashToDirIdx c.bits h s.dir.idxBits →
      (s.dir.map j).NoGap)
    (hkeys : ((s.setTable h t).dir.liveEntries.map fun e => c.recKey s.media e.pba).Nodup) :
    (s.setTable h t).Inv := by
  obtain ⟨rest, h1, h2⟩ := st.split inv
  refine ⟨⟨inv.bits_le, inv.width, fun j hj => ?_, placed_setMap inv.placed st.other st.placed,
    fun e he => ?_, hkeys, ?_⟩, fun j hj => ?_⟩
  · by_cases hji : j = hashToDirIdx c.bits h s.dir.idxBits
    · rw [hji, setTable, setMap_self]
      exact st.wf
    · rw [setTable, setMap_other _ _ hji]
      exact inv.wf j hj
  · rw [h2, mem_add] at he
    rcases he with he | he
    · have hr := inv.recs e (by rw [h1]; exact mem_add.mpr (.inl he))
      exact ⟨hr.fit, hr.key_pos, hr.reach, hr.used, hr.extent⟩
    · by_cases hu : (t.ht q).used = true
      · rw [content, if_pos hu, mem_singleton] at he
        subst he
        have hr := st.recAt hu
        exact ⟨hr.fit, hr.key_pos, hr.reach, hr.used, hr.extent⟩
      · rw [content_of_unused (by simpa using hu)] at he
        exact absurd he (notMem_zero _)
  · intro i hi
    have hs := inv.segs i hi
    exact ⟨hs.lt, hs.md_le, hs.le_size⟩
  · by_cases hji : j = hashToDirIdx c.bits h s.dir.idxBits
    · rw [hji, setTable, setMap_self]
      exact st.noGap
    · rw [setTable, setMap_other _ _ hji]
      exact hgap j hj hji

end SlotStep

/-! ## The finite map -/

/-- The live entries change at one key: those of `k` give way to `new`. -/
structure KeyStep (s s' : Store c) (k : List UInt8) (new : Option Content) : Prop where
  media : s'.media = s.media
  split : ∃ rest old, s.dir.liveEntries = rest + old ∧
    s'.dir.liveEntries = rest + (match new with | none => 0 | some e => {e}) ∧
    (∀ e ∈ rest, c.recKey s.media e.pba ≠ k) ∧ ∀ e ∈ old, c.recKey s.media e.pba = k
  key : ∀ e, new = some e → c.recKey s.media e.pba = k

namespace KeyStep

variable {s s' : Store c} {k : List UInt8} {new : Option Content}

theorem keys (st : KeyStep s s' k new)
    (h : (s.dir.liveEntries.map fun e => c.recKey s.media e.pba).Nodup) :
    (s'.dir.liveEntries.map fun e => c.recKey s.media e.pba).Nodup := by
  obtain ⟨rest, old, h1, h2, hrest, _⟩ := st.split
  rw [h1, map_add] at h
  have hr := (nodup_add.mp h).1
  cases hn : new with
  | none =>
    rw [h2, hn]
    simpa using hr
  | some e =>
    rw [h2, hn, map_add, nodup_add]
    refine ⟨hr, by simp, ?_⟩
    rw [map_singleton, disjoint_singleton, mem_map]
    rintro ⟨e', he', hk⟩
    exact hrest e' he' (hk.trans (st.key e hn))

theorem represents (st : KeyStep s s' k new) {M : List UInt8 → Option (List UInt8)}
    (hM : s.Represents M) :
    s'.Represents (Function.update M k (new.map fun e => c.recVal s.media e.pba)) := by
  obtain ⟨rest, old, h1, h2, hrest, hold⟩ := st.split
  intro k' v
  rw [st.media, h2]
  by_cases hk : k' = k
  · subst hk
    rw [Function.update_self]
    constructor
    · intro hv
      obtain ⟨e, hn, rfl⟩ := Option.map_eq_some_iff.mp hv
      exact ⟨e, by simp [hn], st.key e hn, rfl⟩
    · rintro ⟨e, he, hek, rfl⟩
      rcases mem_add.mp he with he | he
      · exact absurd hek (hrest e he)
      · cases hn : new with
        | none => simp [hn] at he
        | some e' =>
          have : e = e' := by simpa [hn] using he
          rw [this]
          rfl
  · rw [Function.update_of_ne hk, hM, h1]
    constructor
    · rintro ⟨e, he, hek, hev⟩
      rcases mem_add.mp he with he | he
      · exact ⟨e, mem_add.mpr (.inl he), hek, hev⟩
      · exact absurd (hek.symm.trans (hold e he)) hk
    · rintro ⟨e, he, hek, hev⟩
      rcases mem_add.mp he with he | he
      · exact ⟨e, mem_add.mpr (.inl he), hek, hev⟩
      · cases hn : new with
        | none => simp [hn] at he
        | some e' =>
          have : e = e' := by simpa [hn] using he
          subst this
          exact absurd (hek.symm.trans (st.key e hn)) hk

end KeyStep
end Store
end UDepot
