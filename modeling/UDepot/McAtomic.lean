import UDepot.Lib.Phases
import UDepot.McEffect

/-! `append`, `prepend`, `incr` and `decr` of any number of connections. Each connection has
a thread of its own, and nothing keeps the threads apart between the `get` and the `put` of
a command. -/

namespace UDepot.Memcache
open Numerals Bytes Config Phases Function List
open Store (Errno KvMap)

/-- The commands, with the item of their key as what the first phase looks at. -/
def rmw : TwoPhase KvMap Mbuff Issue (Mbuff × Mbuff) (Option (List UInt8)) Answer where
  start c m mb := c.start m mb
  finish c m p := c.finish m p
  view c m := m c.key.val

variable {mb key old : Mbuff} {env : Env} {m : KvMap} {v : List UInt8} {n : Nat}

/-- A command in one go keeps the Mbuff of its connection good and does what it is for. -/
theorem Issue.exec_spec (c : Issue) (m : KvMap) (h : mb.Good) :
    (rmw.exec c m mb).2.2.Good ∧ c.Does (rmw.exec c m mb).1 m (rmw.exec c m mb).2.1 := by
  have hs := c.start_spec m h
  rw [TwoPhase.exec]
  change Starts m c.key _ (rmw.start c m mb) at hs
  cases hstart : rmw.start c m mb with
  | inl r =>
    obtain ⟨a, mb'⟩ := r
    rw [hstart] at hs
    refine ⟨hs.1, ?_⟩
    rw [Issue.Does, if_neg (by rw [hs.2]; simp)]
  | inr p =>
    obtain ⟨old, mb'⟩ := p
    rw [hstart] at hs
    obtain ⟨hmb, v, hv, hold⟩ := hs
    exact c.finish_spec m hv hold hmb

theorem Issue.lawful (c : Issue) : rmw.Lawful Issue.Does Mbuff.Good c where
  congr h hv := c.start_congr h hv
  does s _ h := (c.exec_spec s h).2
  ok s _ h := (c.exec_spec s h).1

variable {ι : Type} [DecidableEq ι]

/-- If at every `put` of a command its item is the one that its `get` has found, then the
commands that have ended are executed one after another, in the order in which they ended
and each connection's in its own order, with the answers they gave; and each that was
acknowledged has made its new item of the one before it. -/
theorem fresh_run_serial (m : KvMap) (prog : ι → List Issue) (sched : List ι)
    (hf : rmw.FreshRun (TwoPhase.init m (fun _ => .empty) prog) sched) :
    let x := rmw.run (TwoPhase.init m (fun _ => .empty) prog) sched
    rmw.Serial Issue.Does m (fun _ => .empty) x.log x.shared x.own ∧
      ∀ i, TwoPhase.ofThread x.log i ++ x.todo i = prog i := by
  have h := (@TwoPhase.inv_init _ _ _ _ _ _ _ _ rmw Issue.Does _ m _ prog
    fun _ : ι => Mbuff.empty_good).run (fun _ c _ => c.lawful) hf
  exact ⟨h.serial, h.order⟩

/-! ## Two connections -/

structure Calm (env : Env) : Prop where
  alloc : ∀ n, (env.alloc.run n).isSome
  reads : ∀ k, env.reads k = []
  putReads : ∀ k, env.putReads k = []
  grains : ∀ k, env.grainsErr k = none
  table : ∀ k, env.tableErr k = none
  bytewise : env.config.grainSize = 1

theorem freeSize_addBuffers {alloc : IoAlloc} (halloc : ∀ n, (alloc.run n).isSome) (mb : Mbuff)
    (size : Nat) : size ≤ (mb.mbuffAddBuffers alloc size).freeSize := by
  rcases Nat.lt_or_ge mb.freeSize size with hlt | hge
  · obtain ⟨b, hb, hlen⟩ := Mbuff.mbuffAddBuffers_spec halloc hlt
    have := Mbuff.le_alignUp (size - mb.freeSize)
    rw [hb]
    change size ≤ mb.freeSize + b.data.length
    omega
  · rw [Mbuff.mbuffAddBuffers, if_pos hge]
    exact hge

theorem Calm.readInto (h : Calm env) (mb : Mbuff) (bs : List UInt8) :
    ∃ mb', mb.readInto env.alloc bs = (none, mb') := by
  have := freeSize_addBuffers h.alloc mb.resliceZero bs.length
  rw [Mbuff.readInto, if_neg (by omega)]
  exact ⟨_, rfl⟩

theorem Calm.get (h : Calm env) (hv : m key.bytes = some v) (valOut : Mbuff) :
    ∃ old, env.get m key valOut = (none, old) := by
  obtain ⟨mb, hmb⟩ := h.readInto valOut (env.record key.bytes v)
  rw [Below.get, h.reads, Mbuff.readAll, hv]
  dsimp only
  rw [hmb]
  exact ⟨_, rfl⟩

structure Lasting (v : List UInt8) : Prop where
  small : v.length < 2 ^ 32
  trailer : trailerSize ≤ v.length
  expiry : leNat ((trailerOf v).take 8) = 0

theorem seen_eq (h : v.length < 2 ^ 32) : seen v = v := by
  rw [seen, Nat.mod_eq_of_lt h, take_length]

def storedExpiry (v : List UInt8) : Int := (leNat ((trailerOf v).take 8) : Int).bmod (2 ^ 64)

theorem kvGetForMc_eq {val : Mbuff} (hkey : key.Legit) (hval : val.Good)
    (hget : env.get m key val = (none, old)) (hv : m key.bytes = some v)
    (hsmall : v.length < 2 ^ 32) (ht : trailerSize ≤ v.length) :
    kvGetForMc env m key val =
      if storedExpiry v ≠ 0 ∧ storedExpiry v < env.curTime then (some .enodata, old)
      else (none, old) := by
  obtain ⟨v', hv', hg, hb, -⟩ := Below.get_ok hkey hval hget
  rw [hv] at hv'
  obtain rfl := Option.some.inj hv'
  have hseen := seen_eq hsmall
  rw [seen] at hseen
  rw [hseen] at hb
  have hsize := hg.legit.validSize_eq
  rw [hb] at hsize
  have hfrom : fromEnd old trailerSize = v.length - trailerSize := by
    rw [fromEnd_eq (by rw [hsize]; exact ht) (by rw [hsize]; exact hsmall), hsize]
  have hbs : old.copyToBuffer (fromEnd old trailerSize) 8 = (trailerOf v).take 8 := by
    rw [hfrom, Mbuff.copyToBuffer_eq hg.legit, hb, trailerOf]
  have hlen : ((trailerOf v).take 8).length = 8 := by
    rw [length_take, trailerOf, length_drop]
    rw [trailerSize] at ht ⊢
    omega
  rw [kvGetForMc, hget]
  dsimp only
  rw [hbs, if_neg (by rw [hlen]; simp)]
  unfold storedExpiry
  rfl

theorem Calm.kvGetForMc (h : Calm env) (hkey : key.Legit) (hv : m key.bytes = some v)
    (hl : Lasting v) : ∃ old, kvGetForMc env m key .empty = (none, old) := by
  obtain ⟨old, hget⟩ := h.get hv .empty
  have hzero : storedExpiry v = 0 := by
    unfold storedExpiry
    rw [hl.expiry]
    exact Int.zero_bmod
  rw [kvGetForMc_eq hkey Mbuff.empty_good hget hv hl.small hl.trailer,
    if_neg fun hc => hc.1 hzero]
  exact ⟨old, rfl⟩

theorem Calm.arithKey (h : Calm env) (key : Key) :
    arithSize key.val ≤ (Mbuff.empty.mbuffAddBuffers env.alloc (arithSize key.val)).freeSize ∧
      Roomy key.val (arithKey key.val (Mbuff.empty.mbuffAddBuffers env.alloc (arithSize key.val))) ∧
      (Memcache.arithKey key.val
        (Mbuff.empty.mbuffAddBuffers env.alloc (arithSize key.val))).bytes = key.val ∧
      (Memcache.arithKey key.val
        (Mbuff.empty.mbuffAddBuffers env.alloc (arithSize key.val))).layout = [4096] := by
  have hgood := (Mbuff.empty_good.mbuffAddBuffers env.alloc (arithSize key.val)).good
  have hfree := freeSize_addBuffers h.alloc .empty (arithSize key.val)
  have hpos : Mbuff.empty.freeSize < arithSize key.val := by
    rw [arithSize, putKeyvalPrefixSize]
    change 0 < _
    omega
  obtain ⟨b, hb, hblen⟩ := Mbuff.mbuffAddBuffers_spec h.alloc hpos
  have hnodes := Mbuff.mbuffAddBuffers_nodes env.alloc .empty (arithSize key.val)
  obtain ⟨hroom, hbytes, hlay⟩ := arithKey_spec hgood hnodes hfree
  have hpage : alignUp (arithSize key.val - Mbuff.empty.freeSize) 4096 = 4096 := by
    have := key.length_le
    rw [maxKeyLength] at this
    rw [arithSize, putKeyvalPrefixSize, putKeyvalSuffixSize, alignUp, udivRoundUp]
    change 4096 * ((14 + key.val.length + 20 + 4 + 8 + 2 - 0 + 4096 - 1) / 4096) = 4096
    omega
  refine ⟨hfree, hroom, hbytes, ?_⟩
  rw [hlay, hb, Mbuff.addBuff_layout, hblen, hpage]
  rfl

/-- With a lasting number under the key, an arithmetic command on a new connection comes to
its `put`, with one page for the item. -/
theorem Calm.arithGet (h : Calm env) {key : Key} (hv : m key.val = some v) (hl : Lasting v)
    (hn : numberOf v = some n) :
    ∃ old mb, arithGet env m key.val .empty = .inr (old, mb) ∧ Old key.val v old ∧
      Roomy key.val mb ∧ mb.layout = [4096] := by
  have hzero : Mbuff.empty.resliceZero = .empty := rfl
  obtain ⟨hfree, hroom, hbytes, hlay⟩ := h.arithKey key
  obtain ⟨old, hget⟩ := h.kvGetForMc hroom.good.legit (by rw [hbytes]; exact hv) hl
  obtain ⟨v', hv', hold⟩ := kvGetForMc_ok hroom.good.legit Mbuff.empty_good
    (by rw [hbytes]; exact key.length_le) hget
  rw [hbytes] at hv' hold
  rw [hv] at hv'
  obtain rfl := Option.some.inj hv'
  have hnum := oldNumber_eq hold
  rw [seen_eq hl.small, hn] at hnum
  refine ⟨old, _, ?_, hold, hroom, hlay⟩
  rw [Memcache.arithGet, hzero, if_neg (by omega), arithRead, hget]
  dsimp only
  rw [hnum]
  rfl

theorem Calm.put (h : Calm env) (m : KvMap) {kv : Mbuff} (hopen : kv.Open)
    (hoff : kv.headOff = putKeyvalPrefixSize)
    (hroom : 2 ≤ Boxes.room kv.layout (putKeyvalPrefixSize + kv.bytes.length)) (n : Nat) :
    (env.put m kv n .normal).1 = none := by
  obtain ⟨kv', hio⟩ := @Config.localPutMbuffIo_ok _ _ env.alloc env.ts h.bytewise hopen
    hoff hroom n
  have hlook : ∀ kv k, (env.lookupMbuffPut kv k).1 = none := by
    intro kv k
    rw [Below.lookupMbuffPut, h.putReads, Mbuff.readAll]
  rw [Below.put, h.grains, hio]
  dsimp only
  generalize (kv'.reslice kv.validSize putKeyvalPrefixSize).getD kv' = kv''
  have hk := hlook kv'' (kv.bytes.take n)
  generalize env.lookupMbuffPut kv'' (kv.bytes.take n) = r at hk ⊢
  obtain ⟨e, kv3⟩ := r
  obtain rfl : e = none := hk
  dsimp only
  rw [if_neg (by simp), h.table]

theorem Calm.put_arithItem (h : Calm env) (m : KvMap) {key : Key} {num : Nat}
    (hmb : Roomy key.val mb) (hlay : mb.layout = [4096]) (hold : Old key.val v old)
    (hnum : num < 2 ^ 64) :
    (env.put m (arithItem key.val num mb old) key.val.length .normal).1 = none := by
  obtain ⟨hopen, hb, hoff, hlay'⟩ := arithItem_spec hmb hold hnum
  have hlay4 : mb.resliceZero.layout = [4096] :=
    perm_singleton.mp (hlay ▸ hmb.good.resliceZero_perm)
  have hdec : (dec num).length ≤ 20 := dec_length_le (by decide) (by omega)
  refine h.put m hopen hoff ?_ key.val.length
  have := key.length_le
  rw [maxKeyLength] at this
  rw [hlay', hlay4, hb, length_append, length_append, hold.trailer_length,
    putKeyvalPrefixSize, trailerSize, Boxes.room, if_pos (by omega)]
  omega

theorem Calm.arithPut (h : Calm env) (m : KvMap) {key : Key} {num : Nat} (hmb : Roomy key.val mb)
    (hlay : mb.layout = [4096]) (hold : Old key.val v old) (hnum : num < 2 ^ 64) :
    (arithPut env m key.val num mb old).1 = .number (dec num ++ crlf) ∧
      (arithPut env m key.val num mb old).2.1 =
        update m key.val (some (dec num ++ trailerOf (seen v))) := by
  have hack : (Memcache.arithPut env m key.val num mb old).1 = .number (dec num ++ crlf) := by
    rw [Memcache.arithPut]
    dsimp only
    rw [h.put_arithItem m hmb hlay hold hnum]
  have hspec := (arithPut_spec env m hmb hold hnum).2
  rw [if_pos (by rw [hack]; rfl)] at hspec
  exact hspec

def calm : Env where
  config := .ofSizes 4 1 64 1 4 (fun _ => 5) (fun _ _ => 0) (Eq.refl true)
  alloc := Config.zeros
  reads _ := []
  putReads _ := []
  ts := 0
  after _ := 0
  grainsErr _ := none
  tableErr _ := none
  curTime := 0
  junk := none

theorem calm_calm : Calm calm :=
  ⟨fun _ => rfl, fun _ => rfl, fun _ => rfl, fun _ => rfl, fun _ => rfl, rfl⟩

/-- `incr` of one key by one. -/
def bump : Issue :=
  ⟨.incr 1, ⟨[97], by decide, by decide, forall_mem_singleton.mpr (by decide)⟩, calm, calm⟩

def item (n : Nat) : List UInt8 := dec n ++ List.replicate 12 0

theorem item_length (n : Nat) : (item n).length = (dec n).length + 12 := by
  rw [item, length_append, length_replicate]

theorem dataOf_append (data : List UInt8) {trailer : List UInt8}
    (h : trailer.length = trailerSize) : dataOf (data ++ trailer) = data := by
  rw [dataOf, length_append, h, Nat.add_sub_cancel, take_left]

theorem trailerOf_append (data : List UInt8) {trailer : List UInt8}
    (h : trailer.length = trailerSize) : trailerOf (data ++ trailer) = trailer := by
  rw [trailerOf, length_append, h, Nat.add_sub_cancel, drop_left]

theorem dataOf_item (n : Nat) : dataOf (item n) = dec n := dataOf_append _ length_replicate

theorem trailerOf_item (n : Nat) : trailerOf (item n) = List.replicate 12 0 :=
  trailerOf_append _ length_replicate

theorem item_lasting (h : (dec n).length ≤ 20) : Lasting (item n) where
  small := by rw [item_length]; omega
  trailer := by rw [item_length, trailerSize]; omega
  expiry := by rw [trailerOf_item]; decide

theorem takeWhile_digits {w : List UInt8} (h : ∀ b ∈ w, isDigit b = true) :
    w.takeWhile (· ≠ 0) = w := by
  refine takeWhile_eq_self_iff.mpr fun b hb => ?_
  have := h b hb
  rw [isDigit] at this
  have hne : b ≠ 0 := by
    rintro rfl
    simp at this
  exact decide_eq_true hne

theorem numberOf_item (h : n < 2 ^ 64) (h3 : 3 ≤ (dec n).length) (h20 : (dec n).length ≤ 20) :
    numberOf (item n) = some n := by
  rw [numberOf, dataOf_item, if_neg (by omega), takeWhile_digits fun _ => isDigit_of_mem_dec]
  exact safeStrtou_dec (by decide) h

theorem start_incr (num : Fin (2 ^ 64)) (key : Key) (env env' : Env) (m : KvMap) (mb : Mbuff) :
    rmw.start ⟨.incr num, key, env, env'⟩ m mb = Memcache.arithGet env m key.val mb := rfl

theorem finish_incr (num : Fin (2 ^ 64)) (key : Key) (env env' : Env) (m : KvMap) (old mb : Mbuff) :
    rmw.finish ⟨.incr num, key, env, env'⟩ m (old, mb) = Memcache.arithPut env' m key.val
      ((num.val + (oldNumber old).getD 0) % 2 ^ 64) mb old := rfl

/-- `incr` finds the number in its first phase and writes the next one in the second, whatever
is there by then. -/
theorem bump_phases (hm : m bump.key.val = some (item n)) (h : n + 1 < 2 ^ 64)
    (h3 : 3 ≤ (dec n).length) :
    ∃ p, rmw.start bump m .empty = .inr p ∧ ∀ m',
      (rmw.finish bump m' p).1 = .number (dec (n + 1) ++ crlf) ∧
        (rmw.finish bump m' p).2.1 = update m' bump.key.val (some (item (n + 1))) := by
  have h20 : (dec n).length ≤ 20 := dec_length_le (by decide) (by omega)
  have hnum := numberOf_item (by omega) h3 h20
  obtain ⟨old, mb, hstart, hold, hmb, hlay⟩ := calm_calm.arithGet hm (item_lasting h20) hnum
  refine ⟨(old, mb), (start_incr _ _ _ _ _ _).trans hstart, fun m' => ?_⟩
  have hput := calm_calm.arithPut m' hmb hlay hold h
  rw [seen_eq (item_lasting h20).small, trailerOf_item] at hput
  have hold' := oldNumber_eq hold
  rw [seen_eq (item_lasting h20).small, hnum] at hold'
  have harith : ((1 : Fin (2 ^ 64)).val + (oldNumber old).getD 0) % 2 ^ 64 = n + 1 := by
    rw [hold', Option.getD_some]
    change (1 + n) % 2 ^ 64 = n + 1
    omega
  rw [bump, finish_incr, harith]
  exact hput

theorem bump_exec (hm : m bump.key.val = some (item n)) (h : n + 1 < 2 ^ 64)
    (h3 : 3 ≤ (dec n).length) :
    (rmw.exec bump m .empty).2.1 = update m bump.key.val (some (item (n + 1))) := by
  obtain ⟨p, hp, hfin⟩ := bump_phases hm h h3
  rw [TwoPhase.exec, hp]
  exact (hfin m).2

theorem item_ne {n' : Nat} (h : n ≠ n') : item n ≠ item n' := by
  intro heq
  have hdec := congrArg dataOf heq
  rw [dataOf_item, dataOf_item] at hdec
  exact h (by rw [← value_dec n, hdec, value_dec])

theorem dec_three : (dec 100).length = 3 ∧ (dec 101).length = 3 := by
  simp [dec]

/-- Two increments, each with its `put` right after its `get`. -/
theorem increments_serial :
    let m : KvMap := fun _ => some (item 100)
    let x := rmw.run (TwoPhase.init m (fun _ => .empty) fun _ : Bool => [bump])
      [false, false, true, true]
    (rmw.Serial Issue.Does m (fun _ => .empty) x.log x.shared x.own ∧
        ∀ i, TwoPhase.ofThread x.log i ++ x.todo i = [bump]) ∧
      x.log = [(false, bump, .number (dec 101 ++ crlf)), (true, bump, .number (dec 102 ++ crlf))] ∧
      x.shared bump.key.val = some (item 102) := by
  intro m x
  obtain ⟨p, hp, hfin⟩ := bump_phases (m := m) rfl (by decide) dec_three.1.ge
  obtain ⟨p', hp', hfin'⟩ := bump_phases (m := update m bump.key.val (some (item 101)))
    (update_self ..) (by decide) dec_three.2.ge
  refine ⟨fresh_run_serial m (fun _ => [bump]) _ ?_, ?_⟩
  · refine ⟨TwoPhase.fresh_of_none rfl, TwoPhase.fresh_step rfl, ?_⟩
    have hnone : (rmw.step
        (rmw.step (TwoPhase.init m (fun _ => .empty) fun _ : Bool => [bump]) false)
        false).pending true = none := by
      rw [TwoPhase.step_pending_of_ne _ (by decide), TwoPhase.step_pending_of_ne _ (by decide)]
      rfl
    exact ⟨TwoPhase.fresh_of_none hnone, TwoPhase.fresh_step hnone, trivial⟩
  · simp [x, TwoPhase.run, TwoPhase.step, TwoPhase.init, TwoPhase.ended, hp, hfin, hp', hfin']

/-- Two connections increment a number at once: both find 100 before either writes. Each is
told 101, and the item is then 101; one after the other the item would be 102. -/
theorem increment_lost :
    let m : KvMap := fun _ => some (item 100)
    let x := rmw.run (TwoPhase.init m (fun _ => .empty) fun _ : Bool => [bump])
      [false, true, false, true]
    x.log = [(false, bump, .number (dec 101 ++ crlf)), (true, bump, .number (dec 101 ++ crlf))] ∧
      x.shared bump.key.val = some (item 101) ∧
      ∀ i j a b own, i ≠ j → ¬ rmw.Serial (fun _ _ _ _ => True) m (fun _ : Bool => .empty)
        [(i, bump, a), (j, bump, b)] x.shared own := by
  intro m x
  obtain ⟨p, hp, hfin⟩ := bump_phases (m := m) rfl (by decide) dec_three.1.ge
  have hlog : x.log = [(false, bump, .number (dec 101 ++ crlf)),
      (true, bump, .number (dec 101 ++ crlf))] ∧ x.shared bump.key.val = some (item 101) := by
    simp [x, TwoPhase.run, TwoPhase.step, TwoPhase.init, TwoPhase.ended, hp, hfin]
  refine ⟨hlog.1, hlog.2, fun i j a b own hij hser => ?_⟩
  simp only [TwoPhase.Serial] at hser
  obtain ⟨-, -, -, -, hshared, -⟩ := hser
  have hone : (rmw.exec bump m .empty).2.1 = update m bump.key.val (some (item 101)) :=
    bump_exec rfl (by decide) dec_three.1.ge
  have htwo := bump_exec (m := update m bump.key.val (some (item 101)))
    (update_self ..) (by decide) dec_three.2.ge
  rw [hone, update_of_ne hij.symm, htwo] at hshared
  rw [hshared, update_self, Option.some.injEq] at hlog
  exact item_ne (by decide) hlog.2

end UDepot.Memcache
