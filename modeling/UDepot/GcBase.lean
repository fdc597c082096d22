import UDepot.RecordWalk

/-! The fallback of the garbage collector, for a segment that could not be mapped. It reads
each header into `gcu`, a unit of 14 bytes on the stack. The key is not part of it:
`gcu.md.buf` is the stack behind the unit, and the hash is taken of what lies there. -/

namespace UDepot

namespace Config
open Bytes

variable (c : Config)

/-- `HashFn::hash(gcu.md.buf, gcu.md.key_size)` of `gc_callback_base`. -/
def baseHash (m : Nat → UInt8) (stack : Nat → Nat → UInt8) (i off : Nat) : Nat :=
  c.hash (read (stack off) putKeyvalPrefixSize (c.gcuMd m stack i off).keySize)

/-- What `gc_callback_base` writes for the record at `start`: `gcu`, and what it reads behind
the header with the new checksum in place of the old one. -/
def relocBytesBase (m : Nat → UInt8) (gcu : List UInt8) (start ts : Nat) : List UInt8 :=
  let md := headerOf gcu
  gcu ++ (read m (start * c.grainSize + putKeyvalPrefixSize)
    ((md.keySize + md.valSize) % 2 ^ 32) ++ le 2 (c.checksum16 ts gcu))

end Config

namespace Store
open Bytes UDepotMap Config

variable {c : Config}

/-- `local_gc_callback` for the hash, the header and the bytes that its caller has. -/
def localGcWith (s : Store c) (h : Nat) (md : StoreHeader) (bytes : Nat → List UInt8)
    (start i : Nat) : Option (Store c) :=
  let t := s.table h
  match t.lookupPba h start with
  | none => some s
  | some q =>
    let sizeGrains := c.kvTotGrainsGet md.keySize md.valSize
    if (t.ht q).deleted then
      some ((s.invalidateGrains (t.ht q).pba sizeGrains).setTable h (t.purge q))
    else
      match s.allocateGrains i sizeGrains with
      | none => none
      | some (g, s1) =>
        some ((({ s1 with
          media := write s1.media (g * c.grainSize) (bytes (s1.segTs (c.grainToSegIdx g))) } :
            Store c)
            |>.setTable h (t.updateInplace q h sizeGrains g)).invalidateGrains
              (t.ht q).pba sizeGrains)

theorem localGcCallback_eq (s : Store c) (start i : Nat) : s.localGcCallback start i =
    s.localGcWith (s.keyHash start) (c.readHeader s.media start) (c.relocBytes s.media start)
      start i := rfl

/-- `local_gc_callback` as `gc_callback_base` calls it, at `off` grains into segment `i`. -/
def localGcCallbackBase (s : Store c) (stack : Nat → Nat → UInt8) (i off j : Nat) :
    Option (Store c) :=
  let start := i * c.segSize + off
  s.localGcWith (c.baseHash s.media stack i off) (c.gcuMd s.media stack i off)
    (c.relocBytesBase s.media (c.gcuBytes s.media stack i off) start) start j

/-- The loop of `gc_callback_base`. -/
def gcLoopBase (s : Store c) (stack : Nat → Nat → UInt8) (i : Nat) (tgt : Nat → Nat) :
    Nat → Nat → Option (Store c)
  | 0, _ => some s
  | n + 1, off =>
    let md := c.gcuMd s.media stack i off
    if c.baseStop s.media stack i off then some s
    else
      match s.localGcCallbackBase stack i off (tgt (i * c.segSize + off)) with
      | none => none
      | some s' => gcLoopBase s' stack i tgt n (off + c.kvTotGrainsGet md.keySize md.valSize)

def gcCallbackBase (s : Store c) (stack : Nat → Nat → UInt8) (i : Nat) (tgt : Nat → Nat) :
    Option (Store c) :=
  gcLoopBase s stack i tgt c.segSize 0

/-! ## One record -/

section Record

variable {m m' : Nat → UInt8} {stack : Nat → Nat → UInt8} {i off : Nat}

theorem headerOf_read (m : Nat → UInt8) (g : Nat) :
    headerOf (read m (g * c.grainSize) 14) = c.readHeader m g := rfl

theorem gcuBytes_eq (h : off * c.grainSize + 14 ≤ c.segSize * c.grainSize) :
    c.gcuBytes m stack i off = read m ((i * c.segSize + off) * c.grainSize) 14 := by
  rw [gcuBytes, putKeyvalPrefixSize, if_pos h]
  exact List.append_nil _

theorem gcuMd_eq (h : off * c.grainSize + 14 ≤ c.segSize * c.grainSize) :
    c.gcuMd m stack i off = c.readHeader m (i * c.segSize + off) := by
  rw [gcuMd, gcuBytes_eq h, headerOf_read]

theorem relocBytesBase_eq (start ts : Nat) :
    c.relocBytesBase m (read m (start * c.grainSize) 14) start ts = c.relocBytes m start ts := by
  rw [relocBytesBase, relocBytes, headerOf_read, putKeyvalPrefixSize, read_add, List.append_assoc]

theorem localGcCallbackBase_eq {s : Store c} {j : Nat}
    (h : off * c.grainSize + 14 ≤ c.segSize * c.grainSize)
    (hh : c.baseHash s.media stack i off = s.keyHash (i * c.segSize + off)) :
    s.localGcCallbackBase stack i off j = s.localGcCallback (i * c.segSize + off) j := by
  rw [localGcCallback_eq, localGcCallbackBase, hh, gcuMd_eq h, gcuBytes_eq h]
  congr 1
  funext ts
  exact relocBytesBase_eq _ ts

/-- The fallback goes wherever the mapped walk goes. -/
theorem gcStop_of_baseStop (h : c.baseStop m stack i off = true) :
    c.gcStop m (i * c.segSize + off) off = true := by
  by_contra hn
  have hn := Bool.eq_false_iff.mpr hn
  obtain ⟨h14, hle⟩ := not_gcStop hn
  have hoff := off_lt_of_not_gcStop hn
  simp only [gcStop, Bool.or_eq_false_iff] at hn
  rw [baseStop, gcuMd_eq h14.le, hn.1.2] at h
  simp only [hoff, decide_true, Bool.not_true, Bool.false_or, decide_eq_true_eq] at h
  omega

end Record

theorem Sealed.localGcCallback {s s' : Store c} {i j g : Nat} (h : s.Sealed i)
    (hs : s.localGcCallback g j = some s') : s'.Sealed i ∧ SameSeg c i s.media s'.media := by
  rcases localGcCallback_cases hs with ⟨_, rfl⟩ | ⟨q, _, _, rfl⟩ | ⟨q, g', s1, _, _, ha, rfl⟩
  · exact ⟨h, fun _ _ _ => rfl⟩
  · exact ⟨(h.invalidate _ _).setTable _ _, fun _ _ _ => rfl⟩
  · obtain ⟨h1, hm⟩ := h.reloc ha
    exact ⟨(h1.setTable _ _).invalidate _ _, hm⟩

/-! ## The walk -/

section Walks

variable {stack : Nat → Nat → UInt8} {i : Nat} {tgt : Nat → Nat}

theorem SameSeg.gcuBytes {m m' : Nat → UInt8} {off : Nat} (h : SameSeg c i m m')
    (hoff : off ≤ c.segSize) : c.gcuBytes m' stack i off = c.gcuBytes m stack i off := by
  have hmul := Nat.mul_le_mul_right c.grainSize hoff
  rw [Config.gcuBytes, Config.gcuBytes]
  congr 1
  apply read_congr
  intro a h1 h2
  rw [Nat.add_mul] at h1 h2
  apply h a (by omega)
  rw [Nat.add_mul, Nat.add_mul, Nat.one_mul]
  split at h2 <;> omega

theorem SameSeg.baseStop {m m' : Nat → UInt8} {off : Nat} (h : SameSeg c i m m') :
    c.baseStop m' stack i off = c.baseStop m stack i off := by
  rw [Config.baseStop, Config.baseStop]
  by_cases hoff : off < c.segSize
  · rw [Config.gcuMd, Config.gcuMd, h.gcuBytes hoff.le]
  · simp [hoff]

/-- The two loops do the same as long as the fallback keeps to the mapped walk and hashes as
it does; `m` is the medium before the walk. -/
theorem gcLoopBase_eq {m : Nat → UInt8} {n off : Nat} {s : Store c} (hseal : s.Sealed i)
    (hsame : SameSeg c i m s.media)
    (hin : ∀ o ∈ Walk.visits ((Walker.gcBase stack).stop c m i) ((Walker.gcBase stack).size c m i)
      n off, Walker.gc.stop c m i o = false ∧
        c.baseHash m stack i o = c.hash (c.recKey m (i * c.segSize + o))) :
    s.gcLoopBase stack i tgt n off = s.gcLoop i tgt n off := by
  induction n generalizing s off with
  | zero => rfl
  | succ n ih =>
    rw [gcLoopBase, gcLoop]
    rw [hsame.baseStop, hsame.gcStop]
    cases hb : c.baseStop m stack i off with
    | true => rw [if_pos rfl, if_pos (gcStop_of_baseStop hb)]
    | false =>
      have hb' : (Walker.gcBase stack).stop c m i off = false := hb
      rw [Walk.visits_succ hb'] at hin
      obtain ⟨⟨hs, hhash⟩, hrest⟩ := List.forall_mem_cons.mp hin
      have hs : c.gcStop m (i * c.segSize + off) off = false := hs
      have hlt := off_lt_of_not_gcStop hs
      have h14 := (not_gcStop hs).1.le
      have hmd : c.gcuMd s.media stack i off = c.gcuMd m stack i off := by
        rw [Config.gcuMd, Config.gcuMd, hsame.gcuBytes hlt.le]
      have hh : c.baseHash s.media stack i off = s.keyHash (i * c.segSize + off) := by
        rw [baseHash, hmd, keyHash, hsame.recKey hs]
        exact hhash
      rw [if_neg (by simp), hs, if_neg (by simp), localGcCallbackBase_eq h14 hh, gcuMd_eq h14]
      cases hcb : s.localGcCallback (i * c.segSize + off) (tgt (i * c.segSize + off)) with
      | none => rfl
      | some s1 =>
        obtain ⟨hseal1, hsame1⟩ := hseal.localGcCallback hcb
        apply ih hseal1 (hsame.trans hsame1)
        rw [hsame.readHeader h14, ← gcuMd_eq h14]
        exact hrest

/-- What `gc_callback` and its fallback are to agree on: the records they come to, the hash of
each, and the store they leave, with its map, its bytes and its counts. -/
structure WalksAgree (s : Store c) (stack : Nat → Nat → UInt8) (i : Nat) (tgt : Nat → Nat) :
    Prop where
  records : (Walker.gcBase stack).records c s.media i c.segSize =
    Walker.gc.records c s.media i c.segSize
  hashes : ∀ off ∈ Walker.gc.records c s.media i c.segSize,
    c.baseHash s.media stack i off = s.keyHash (i * c.segSize + off)
  result : s.gcCallbackBase stack i tgt = s.gcCallback i tgt

def gcEnd (s : Store c) (i : Nat) : Nat :=
  Walk.finish (Walker.gc.stop c s.media i) (Walker.gc.size c s.media i) c.segSize 0

theorem gc_walks_agree_iff {s : Store c} (hseal : s.Sealed i) :
    s.WalksAgree stack i tgt ↔
      (∀ off ∈ Walker.gc.records c s.media i c.segSize,
        c.hash (read (stack off) putKeyvalPrefixSize
          (c.readHeader s.media (i * c.segSize + off)).keySize) =
        c.hash (c.recKey s.media (i * c.segSize + off))) ∧
      ¬(Walker.gcBase stack).Accepts c s.media i (s.gcEnd i) := by
  have hmd : ∀ off, Walker.gc.stop c s.media i off = false →
      c.gcuMd s.media stack i off = c.readHeader s.media (i * c.segSize + off) :=
    fun off hoff => gcuMd_eq (not_gcStop hoff).1.le
  have hst : ∀ off, (Walker.gcBase stack).stop c s.media i off = true →
      Walker.gc.stop c s.media i off = true := fun off hoff => gcStop_of_baseStop hoff
  have hsz : ∀ off, Walker.gc.stop c s.media i off = false →
      (Walker.gcBase stack).size c s.media i off = Walker.gc.size c s.media i off := by
    intro off hoff
    rw [Walker.size, Walker.size, Walker.header, Walker.header, hmd off hoff]
  have hwithin : (∀ off ∈ (Walker.gcBase stack).records c s.media i c.segSize,
      Walker.gc.stop c s.media i off = false ∧
        c.baseHash s.media stack i off = s.keyHash (i * c.segSize + off)) ↔ _ :=
    ((Walker.gcBase stack).bounded c s.media i).within_iff hst (fun off hoff _ => hsz off hoff)
      (by omega)
  have hcond : (∀ off ∈ Walker.gc.records c s.media i c.segSize,
      c.baseHash s.media stack i off = s.keyHash (i * c.segSize + off)) ↔
      ∀ off ∈ Walker.gc.records c s.media i c.segSize,
        c.hash (read (stack off) putKeyvalPrefixSize
          (c.readHeader s.media (i * c.segSize + off)).keySize) =
        c.hash (c.recKey s.media (i * c.segSize + off)) := by
    apply forall₂_congr
    intro off hoff
    rw [baseHash, hmd off (Walk.mem_visits hoff).1, keyHash]
  rw [Walker.accepts_iff, Bool.not_eq_false, ← hcond]
  constructor
  · intro h
    apply hwithin.mp
    rw [h.records]
    exact fun off hoff => ⟨(Walk.mem_visits hoff).1, h.hashes off hoff⟩
  · intro h
    have hin := hwithin.mpr h
    exact ⟨Walk.visits_eq_of_within hst hsz fun off hoff => (hin off hoff).1, h.1,
      gcLoopBase_eq hseal (fun _ _ _ => rfl) hin⟩

/-! ## A record that the fallback does not find -/

/-- The hash is the first byte. -/
def firstByte : Config := { colliding with hash := fun k => (k.headD 0).toNat }

/-- One record in a closed segment, and an open one. -/
def singleTrace : List Event :=
  [.allocateSegment 1, .put [0] [10] .normal [⟨1, [], 0⟩], .recycleSegment 1, .allocateSegment 2]

/-- The key is a zero, and the stack behind `gcu` is not. The mapped walk relocates the record;
the fallback does not find it, returns 0 as well and leaves the entry in the segment. -/
theorem fallback_misses_record : ∃ s M s1 s2,
    Relation.ReflTransGen OkStep (init firstByte (fun _ => 0) 0, fun _ => none) (s, M) ∧
      M [0] = some [10] ∧ (s.seg 1).state = .closed ∧
      s.gcCallback 1 (fun _ => 2) = some s1 ∧
      s.gcCallbackBase (fun _ _ => 7) 1 (fun _ => 2) = some s2 ∧
      (s1.seg 1).validNr = 0 ∧ firstByte.grainToSegIdx ((s1.table 0).ht 0).pba = 2 ∧
      (s2.seg 1).validNr = 1 ∧ firstByte.grainToSegIdx ((s2.table 0).ht 0).pba = 1 := by
  have h : ((execChecked (init firstByte (fun _ => 0) 0, fun _ => none) singleTrace).bind fun w =>
      (w.1.gcCallback 1 fun _ => 2).bind fun s1 =>
        (w.1.gcCallbackBase (fun _ _ => 7) 1 fun _ => 2).map fun s2 =>
          (w.2 [0], (w.1.seg 1).state, (s1.seg 1).validNr,
            firstByte.grainToSegIdx ((s1.table 0).ht 0).pba, (s2.seg 1).validNr,
            firstByte.grainToSegIdx ((s2.table 0).ht 0).pba)) =
      some (some [10], .closed, 0, 2, 1, 1) := by decide +kernel
  obtain ⟨⟨s, M⟩, hw, hgc⟩ := Option.bind_eq_some_iff.mp h
  obtain ⟨s1, h1, hbase⟩ := Option.bind_eq_some_iff.mp hgc
  obtain ⟨s2, h2, heq⟩ := Option.map_eq_some_iff.mp hbase
  simp only [Prod.mk.injEq] at heq
  obtain ⟨hM, hcl, hv1, hp1, hv2, hp2⟩ := heq
  have hrun := execChecked_run (by decide) hw (init_inv (by decide) _ (by decide))
    (init_represents _ _ _)
  exact ⟨s, M, s1, s2, hrun, hM, hcl, h1, h2, hv1, hp1, hv2, hp2⟩

/-- The same run with a stack that holds the key. -/
theorem fallback_with_key : ∃ s M,
    Relation.ReflTransGen OkStep (init firstByte (fun _ => 0) 0, fun _ => none) (s, M) ∧
      M [0] = some [10] ∧ s.Sealed 1 ∧ s.WalksAgree (fun _ _ => 0) 1 (fun _ => 2) := by
  have h : ((execChecked (init firstByte (fun _ => 0) 0, fun _ => none) singleTrace).map fun w =>
      (w.2 [0], (w.1.seg 1).state, Walker.gc.records firstByte w.1.media 1 firstByte.segSize,
        decide (firstByte.hash (read (fun _ => 0) putKeyvalPrefixSize
            (firstByte.readHeader w.1.media (1 * firstByte.segSize + 0)).keySize) =
          firstByte.hash (firstByte.recKey w.1.media (1 * firstByte.segSize + 0))),
        (Walker.gcBase fun _ _ => 0).stop firstByte w.1.media 1 (w.1.gcEnd 1))) =
      some (some [10], .closed, [0], true, true) := by decide +kernel
  obtain ⟨⟨s, M⟩, hw, heq⟩ := Option.map_eq_some_iff.mp h
  simp only [Prod.mk.injEq] at heq
  obtain ⟨hM, hcl, hrec, hkey, hend⟩ := heq
  have hrun := execChecked_run (by decide) hw (init_inv (by decide) _ (by decide))
    (init_represents _ _ _)
  have hseal : s.Sealed 1 := ⟨hcl, (run_inv (by decide) (by decide) (by decide) hrun).1.segs⟩
  refine ⟨s, M, hrun, hM, hseal, (gc_walks_agree_iff hseal).mpr ⟨?_, ?_⟩⟩
  · rw [hrec]
    intro off hoff
    rw [List.mem_singleton.mp hoff]
    exact of_decide_eq_true hkey
  · rw [Walker.accepts_iff, hend]
    simp

end Walks

end Store
end UDepot
