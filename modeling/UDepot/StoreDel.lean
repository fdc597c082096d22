import UDepot.StoreGrow

/-! The loops of `put` and `del` and the callback of the garbage collector against
the finite map. The conditions follow the loops: they are put on the states in
which a shift, a growth or a purge takes place. -/

namespace UDepot.Store
open Bytes UDepotMap Directory Config

variable {c : Config}

/-! ## Put -/

/-- The conditions of the inner loop of `put`. -/
def PutMapOk (s : Store c) (k v : List UInt8) (g : Nat) (op : PutOp) : List (List TableAlloc) → Prop
  | [] => s.ShiftOk k op
  | allocs :: rest => s.ShiftOk k op ∧ ∀ s1, s.localPutMbuff k v g op = (s1, .enospc) →
      s1.WidthOk ∧ ∀ s2, s1.grow allocs = (s2, true) → PutMapOk s2 k v g op rest

variable {s : Store c} {k : List UInt8} {M : List UInt8 → Option (List UInt8)}

theorem putMap_spec (inv : s.Inv) {v : List UInt8} {g : Nat} {op : PutOp} (r : Ready s k v g)
    {grows : List (List TableAlloc)} (hok : PutMapOk s k v g op grows) (hM : s.Represents M) :
    LocalPutSpec M k v g op (s.putMap k v g op grows).1 (s.putMap k v g op grows).2 := by
  induction grows generalizing s with
  | nil => exact localPutMbuff_spec inv r hok hM
  | cons allocs rest ih =>
    have h := localPutMbuff_spec inv r hok.1 hM
    unfold putMap
    cases hl : s.localPutMbuff k v g op with
    | mk s1 rc =>
      rw [hl] at h
      cases rc with
      | ok | einval | ealready _ => exact h
      | enospc =>
        obtain ⟨hw, hrest⟩ := hok.2 s1 hl
        have hg := grow_spec h.inv hw allocs
        dsimp only
        cases hgr : s1.grow allocs with
        | mk s2 b =>
          rw [hgr] at hg
          cases b with
          | false => exact ⟨hg.inv, hg.represents h.meets, fun _ => hg.ready (h.ready (by simp))⟩
          | true =>
            exact ih hg.inv (hg.ready (h.ready (by simp))) (hrest s2 hgr) (hg.represents h.meets)

/-- The state in which `put` writes its record again. -/
def putRetry (s : Store c) (k v : List UInt8) (g oldPba drained : Nat) : Store c :=
  (if c.grainToSegIdx oldPba ≠ c.grainToSegIdx g then s.recycleSegment drained
    else s).invalidateGrains
    g (c.kvTotGrainsGet k.length v.length)

/-- The conditions of `put`. -/
def PutLoopOk (s : Store c) (k v : List UInt8) (op : PutOp) : List PutAttempt → Prop
  | [] => True
  | a :: rest => ∀ g s1, s.localPutMbuffIo a.seg k v = some (g, s1) →
      PutMapOk s1 k v g op a.grows ∧
        ∀ s2 oldPba, s1.putMap k v g op a.grows = (s2, .ealready oldPba) →
        PutLoopOk (s2.putRetry k v g oldPba a.drained) k v op rest

theorem putRetry_frame (base : s.Base) (k v : List UInt8) (g oldPba drained : Nat) :
    Frame s (s.putRetry k v g oldPba drained) := by
  unfold putRetry
  split
  · have hf := recycleSegment_frame base drained
    exact hf.trans (invalidateGrains_frame (hf.base base) _ _)
  · exact invalidateGrains_frame base _ _

theorem put_spec (inv : s.Inv) (hdev : DeviceFits c) {v : List UInt8} (hkv : PutSizes c k v)
    {op : PutOp} {as : List PutAttempt} (hok : PutLoopOk s k v op as) (hM : s.Represents M) :
    (s.put k v op as).1.Inv ∧ (s.put k v op as).2.Meets M k v op (s.put k v op as).1 := by
  induction as generalizing s with
  | nil => exact ⟨inv, hM⟩
  | cons a rest ih =>
    unfold put
    cases hio : s.localPutMbuffIo a.seg k v with
    | none => exact ⟨inv, hM⟩
    | some x =>
      obtain ⟨g, s1⟩ := x
      obtain ⟨hf, hr⟩ := localPutMbuffIo_spec inv.toBase hdev hkv hio
      obtain ⟨hmap, hretry⟩ := hok g s1 hio
      have h := putMap_spec (hf.inv inv) hr hmap (hf.represents hM)
      dsimp only
      cases hl : s1.putMap k v g op a.grows with
      | mk s2 rc =>
        rw [hl] at h
        have hfi := invalidateGrains_frame h.inv.toBase g (c.kvTotGrainsGet k.length v.length)
        cases rc with
        | ok => exact ⟨h.inv, h.meets⟩
        | einval | enospc => exact ⟨hfi.inv h.inv, hfi.represents h.meets⟩
        | ealready oldPba =>
          have hfr := putRetry_frame h.inv.toBase k v g oldPba a.drained
          exact ih (hfr.inv h.inv) (hretry s2 oldPba hl) (hfr.represents h.meets)

/-! ## Del -/

theorem Holds.frame {s' : Store c} (f : Frame s s') (inv : s.Inv) {q : Nat} (hq : Holds s k q) :
    Holds s' k q := by
  have ht : s'.table (c.hash k) = s.table (c.hash k) := by
    unfold table
    rw [f.dir]
  refine ⟨by rw [ht]; exact hq.isMatch, ?_⟩
  rw [ht]
  exact (f.key _ (Multiset.mem_of_mem_filter (match_mem inv hq.isMatch))).trans hq.key

theorem remove_spec (inv : s.Inv) {q g : Nat} (w : Written s k g) (hq : Holds s k q)
    (hM : s.Represents M) :
    (s.setTable (c.hash k) ((s.table (c.hash k)).remove q g)).Inv ∧
      (s.setTable (c.hash k) ((s.table (c.hash k)).remove q g)).Represents
        (Function.update M k none) := by
  have st := remove_slotStep inv hq w
  have hdead : (((s.table (c.hash k)).remove q g).ht q).live = false := by
    simp [remove, HashEntry.live, HashEntry.deleted]
  have ks : KeyStep s _ k none :=
    holds_keyStep inv.toBase st hq (content_of_not_live hdead) fun e he => by cases he
  exact ⟨st.inv inv.toBase (fun j hj _ => inv.noGap j hj) (ks.keys inv.keys), ks.represents hM⟩

/-- What a del of `k` owes the map for each return code. -/
def DelRc.Meets (M : List UInt8 → Option (List UInt8)) (k : List UInt8) (s' : Store c) :
    DelRc → Prop
  | .ok => s'.Represents (Function.update M k none) ∧ M k ≠ none
  | .enodata => s'.Represents M ∧ M k = none
  | .enospc => s'.Represents M

theorem del_spec (inv : s.Inv) (hdev : DeviceFits c) (hk : PutSizes c k []) (segs : List Nat)
    (hM : s.Represents M) : (s.del k segs).1.Inv ∧ (s.del k segs).2.Meets M k (s.del k segs).1 := by
  fun_induction del s k segs with
  | case1 | case4 => exact ⟨inv, hM⟩
  | case2 s i rest q hl | case3 s i rest hl =>
    have hmeans := lookupMbuffPut_means inv k
    rw [hl] at hmeans
    exact ⟨inv, hM, absent_of_no_entry hM hmeans.2⟩
  | case5 s i rest h q md hl g s1 hio pba ho =>
    have hmeans := lookupMbuffPut_means inv k
    rw [hl] at hmeans
    obtain ⟨hf, hr⟩ := localPutMbuffIo_spec inv.toBase hdev hk hio
    have inv1 := hf.inv inv
    have hi := invalidateGrains_quiet inv1.toBase pba (c.kvTotGrainsGet md.keySize md.valSize)
    have hir := hi.frame.trans (kvRemoved_frame (hi.frame.base inv1.toBase) md.keySize md.valSize)
    have hr2 : Ready ((s1.invalidateGrains pba
        (c.kvTotGrainsGet md.keySize md.valSize)).kvRemoved md.keySize md.valSize) k [] g :=
      (hi.ready hr).congr rfl (fun _ h => h) fun _ _ => le_rfl
    obtain ⟨h1, h2⟩ := remove_spec (hir.inv inv1) hr2.toWritten
      ((hmeans.1.frame hf inv).frame hir inv1) (hir.represents (hf.represents hM))
    obtain ⟨v, hv⟩ := present_of_holds inv hM hmeans.1
    exact ⟨h1, h2, by rw [hv]; simp⟩
  | case6 s i rest h q md hl g s1 hio pba ho ih =>
    obtain ⟨hf, _⟩ := localPutMbuffIo_spec inv.toBase hdev hk hio
    exact ih (hf.inv inv) (hf.represents hM)

end UDepot.Store
