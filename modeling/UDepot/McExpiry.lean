import UDepot.McArith
import UDepot.McReply
import UDepot.McSet

/-! The expiry of an item over whole histories of its key. The time that a command line brings is
made an instant when the line is parsed, stands behind the data, and is compared with the clock when
the item is read. -/

namespace UDepot.Memcache
open Numerals Bytes Config Phases Function List Option
open Store (Errno KvMap)

/-! ## Histories -/

/-- A `set`, `add` or `replace`. -/
structure Put where
  op : PutOp
  flags : Fin (2 ^ 32)
  exptime : Int
  exptime_mem : -2 ^ 63 ≤ exptime ∧ exptime < 2 ^ 63
  data : List UInt8
  data_le : (data.length : Int) ≤ intMax - 2

inductive KeyCmd where
  | store (p : Put)
  | change (c : Rmw)
  | get

/-- A command on the key, with the clock when its line is parsed, what its handler meets (with the
clock when it reads) and the two Mbuffs of its connection. -/
structure Event where
  cmd : KeyCmd
  parsed : Int
  parsed_mem : -2 ^ 63 ≤ parsed ∧ parsed < 2 ^ 63
  env : Env
  env' : Env
  mb : Mbuff
  mb' : Mbuff
  good : mb.Good
  good' : mb'.Good

inductive Output where
  | answer (a : Answer)
  | reply (text : List UInt8)

def Output.acked : Output → Bool
  | .answer a => a.acked
  | .reply _ => false

def Event.exec (e : Event) (key : Key) (m : KvMap) : Output × KvMap :=
  match e.cmd with
  | .store p =>
    let r := handleSet e.env m p.op key.val p.data (expiryOf e.parsed p.exptime) p.flags e.mb
    (.answer (.rsp r.1), r.2.1)
  | .change c =>
    let r := rmw.exec ⟨c, key, e.env, e.env'⟩ m e.mb
    (.answer r.1, r.2.1)
  | .get => (.reply (handleOneGet e.env m key.val e.mb e.mb' []).reply, m)

/-! ## Which item a handler goes on with -/

/-- The Mbuffs of key and value with which `append` and `prepend` call `kv_get_for_mc`. -/
def blockLook (alloc : IoAlloc) (key : List UInt8) : Option (Mbuff × Mbuff) :=
  let keyMb := Mbuff.empty.mbuffAddBuffers alloc key.length
  if keyMb.freeSize < key.length then none
  else
    let r := keyMb.appendFromBuffer key
    if r.1 ≠ [] then none else some (r.2, .empty)

def arithLook (env : Env) (key : List UInt8) (mb : Mbuff) : Option (Mbuff × Mbuff) :=
  if (mb.resliceZero.mbuffAddBuffers env.alloc (arithSize key)).freeSize < arithSize key then none
  else some (arithMb env key mb, .empty)

def getLook (alloc : IoAlloc) (key : List UInt8) (keyMb valMb : Mbuff) : Option (Mbuff × Mbuff) :=
  match prepareKvmbuffForGet alloc key keyMb valMb with
  | (some _, _) => none
  | (none, p) => some p

/-- The same of every command; `none` if it does not come to the call. -/
def Event.look (e : Event) (key : Key) : Option (Mbuff × Mbuff) :=
  match e.cmd with
  | .store _ => none
  | .change (.append data) | .change (.prepend data) =>
    if (loadBlock e.env.alloc e.mb key.val data).1 then blockLook e.env.alloc key.val else none
  | .change (.incr _) | .change (.decr _) => arithLook e.env key.val e.mb
  | .get => getLook e.env.alloc key.val e.mb e.mb'

/-- The item that the store gives, and the one that the handler is given by `kv_get_for_mc`. -/
def Event.kept (e : Event) (key : Key) (m : KvMap) : Option Mbuff :=
  (e.look key).bind fun p => itemOf (e.env.get m p.1 p.2)

def Event.item (e : Event) (key : Key) (m : KvMap) : Option Mbuff :=
  (e.look key).bind fun p => itemOf (kvGetForMc e.env m p.1 p.2)

/-- The Mbuff of the connection with which a handler goes on. -/
def Event.block (e : Event) (key : Key) : Mbuff :=
  match e.cmd with
  | .store _ | .get => e.mb
  | .change (.append data) | .change (.prepend data) => (loadBlock e.env.alloc e.mb key.val data).2
  | .change (.incr _) | .change (.decr _) => arithMb e.env key.val e.mb

/-! ## What expiry is for -/

inductive Life where
  | never
  | dead
  | till (instant : Int)

/-- The protocol: no expiry, an item that is expired at once, a time from now for up to 30 days,
and else a time since the epoch. -/
def Put.life (p : Put) (now : Int) : Life :=
  if p.exptime = 0 then .never
  else if p.exptime < 0 then .dead
  else if p.exptime ≤ realtimeMaxdelta then .till (now + p.exptime)
  else .till p.exptime

def Life.Visible : Life → Int → Prop
  | .never, _ => True
  | .dead, _ => False
  | .till instant, now => now < instant

/-- The life of the item of the key after a command: another only if a new item was stored. -/
def Event.nextLife (e : Event) (acked : Bool) (life : Option Life) : Option Life :=
  match e.cmd with
  | .store p => if acked then some (p.life e.parsed) else life
  | _ => life

def Alive (life : Option Life) (now : Int) : Prop := ∃ l, life = some l ∧ l.Visible now

def Rmw.refuses : Rmw → List UInt8 → Bool
  | .incr _, v | .decr _, v => (numberOf v).isNone
  | _, _ => false

/-- What a command with the item does: `get` sends it, and another answers by what it makes of it
and stores that, unless memory or the store fail, or arithmetic is asked of what is no number. -/
def Event.Shows (e : Event) (key : Key) (m : KvMap) (v : List UInt8) (old : Mbuff) : Prop :=
  match e.cmd with
  | .store _ => True
  | .get => (e.exec key m).1 = .reply (itemText key.val v)
  | .change c =>
    if c.refuses v then e.exec key m = (.answer (.rsp .clientErrorNonNumeric), m)
    else if (Issue.mk c key e.env e.env').restErr m old (e.block key) = none then
      e.exec key m = (.answer (c.ack v), update m key.val (some (c.new v)))
    else e.exec key m = (.answer (.rsp .serverError), m)

/-- The answer of a command that has got no item, by whether it had memory to ask for one. -/
def Rmw.absent : Rmw → Bool → Answer
  | .append _, _ | .prepend _, _ => .rsp .serverError
  | .incr _, asked | .decr _, asked => if asked then .rsp .notFound else .silent

/-- What a command without an item does: `get` sends its end message only, and the others answer
that there is none and change nothing. -/
def Event.Hides (e : Event) (key : Key) (m : KvMap) : Prop :=
  match e.cmd with
  | .store _ => True
  | .get => (e.exec key m).1 = .reply endMsg
  | .change c => e.exec key m = (.answer (c.absent (e.look key).isSome), m)

/-- The assertions of a handler with the item. -/
def Event.Asserts (e : Event) (key : Key) (old : Mbuff) : Prop :=
  match e.cmd with
  | .store _ | .get | .change (.prepend _) => True
  | .change (.append data) => AppendAsserts e.env'.alloc key.val data.length (e.block key) old
  | .change (.incr _) | .change (.decr _) => trailerSize < old.validSize

/-- A command respects the expiry of the item: it shows what the store gives it while that is alive,
without a failing assertion, and behaves else as if there was nothing; and it keeps the instant. -/
structure Respected (key : Key) (m : KvMap) (life : Option Life) (e : Event) : Prop where
  shown : Alive life e.env.curTime → ∀ old, e.kept key m = some old →
    ∃ v, m key.val = some v ∧ e.Shows key m v old ∧ e.Asserts key old
  hidden : ¬ Alive life e.env.curTime → e.Hides key m
  keeps : ∀ c, e.cmd = .change c → (e.exec key m).1.acked = true →
    ∃ v v', m key.val = some v ∧ (e.exec key m).2 key.val = some v' ∧
      storedExpiry v' = storedExpiry v

/-- What a handler needs of an item. A `get` needs an item that can be sent, and all but `prepend`
need data. In the last page of key and block, `append` needs space for header, expiry and flags. -/
def Event.Served (e : Event) (key : Key) (v : List UInt8) : Prop :=
  match e.cmd with
  | .store _ | .change (.prepend _) => True
  | .get => Sendable key.val v
  | .change (.append data) => dataOf v ≠ [] ∧ 0 < (key.val.length + data.length) % 4096 ∧
      (key.val.length + data.length) % 4096 + (putKeyvalPrefixSize + trailerSize) ≤ 4096
  | .change (.incr _) | .change (.decr _) => dataOf v ≠ []

structure Ordinary (key : Key) (m : KvMap) (life : Option Life) (e : Event) : Prop where
  dead : ∀ p, e.cmd = .store p → p.exptime < 0 → e.parsed ≠ 0 ∧ e.parsed ≠ 1 ∧ e.parsed ≠ -2 ^ 63
  relative : ∀ p, e.cmd = .store p → 0 < p.exptime → p.exptime ≤ realtimeMaxdelta →
    e.parsed + p.exptime ≠ 0 ∧ e.parsed + p.exptime < 2 ^ 63
  size : ∀ data v, e.cmd = .change (.append data) ∨ e.cmd = .change (.prepend data) →
    m key.val = some v → v.length + data.length < 2 ^ 32
  instant : ∀ t, life = some (.till t) → (∀ p, e.cmd ≠ .store p) → e.env.curTime ≠ t
  served : Alive life e.env.curTime → ∀ v, m key.val = some v → e.Served key v

/-- A property of all commands of a history, each with the store and the life that it meets. -/
def Throughout (P : KvMap → Option Life → Event → Prop) (key : Key) :
    List Event → KvMap → Option Life → Prop
  | [], _, _ => True
  | e :: es, m, life => P m life e ∧
      Throughout P key es (e.exec key m).2 (e.nextLife (e.exec key m).1.acked life)

/-- The clock does not go back. -/
def Ticks : Int → List Event → Prop
  | _, [] => True
  | t, e :: es => t ≤ e.parsed ∧ e.parsed ≤ e.env.curTime ∧ Ticks e.env.curTime es

/-! ## The calls of `kv_get_for_mc` -/

variable {keyMb valMb k v mb : Mbuff} {env : Env} {x : Int} {key : Key}

theorem blockLook_ok {alloc : IoAlloc} {key : List UInt8} (h : blockLook alloc key = some (k, v)) :
    k.Legit ∧ k.bytes = key ∧ v.Good := by
  rw [blockLook] at h
  dsimp only at h
  split at h
  · cases h
  · rename_i hfree
    obtain ⟨hg, hb⟩ := keyMb_spec alloc (Nat.not_lt.mp hfree)
    split at h
    · cases h
    · obtain ⟨rfl, rfl⟩ := Prod.mk.inj (Option.some.inj h)
      exact ⟨hg.legit, hb, Mbuff.empty_good⟩

theorem arithLook_ok (hmb : mb.Good) (h : arithLook env key.val mb = some (k, v)) :
    k.Legit ∧ k.bytes = key.val ∧ v.Good := by
  rw [arithLook] at h
  split at h
  · cases h
  · rename_i hfree
    obtain ⟨hroom, hb⟩ := arithKey_fresh hmb hfree
    obtain ⟨rfl, rfl⟩ := Prod.mk.inj (Option.some.inj h)
    exact ⟨hroom.good.legit, hb, Mbuff.empty_good⟩

theorem Event.look_ok {e : Event} (h : e.look key = some (k, v)) :
    k.Legit ∧ k.bytes = key.val ∧ v.Good := by
  have hblock : ∀ data, (if (loadBlock e.env.alloc e.mb key.val data).1 then
      blockLook e.env.alloc key.val else none) = some (k, v) →
        k.Legit ∧ k.bytes = key.val ∧ v.Good := by
    intro data hb
    split at hb
    · exact blockLook_ok hb
    · cases hb
  rw [Event.look] at h
  cases hcmd : e.cmd with
  | store p =>
    rw [hcmd] at h
    cases h
  | change c =>
    rw [hcmd] at h
    cases c with
    | append data | prepend data => exact hblock data h
    | incr num | decr num => exact arithLook_ok e.good h
  | get =>
    rw [hcmd] at h
    dsimp only at h
    rw [getLook] at h
    cases hp : prepareKvmbuffForGet e.env.alloc key.val e.mb e.mb' with
    | mk err p =>
      rw [hp] at h
      cases err with
      | some err => cases h
      | none =>
        obtain rfl := Option.some.inj h
        obtain ⟨hk, hb, -, hw⟩ := prepareKvmbuffForGet_ok e.good e.good' hp
        exact ⟨hk.legit, hb, hw⟩

variable {m : KvMap}

theorem kept_of_item {e : Event} (h : e.item key m ≠ none) :
    e.kept key m ≠ none := by
  rw [Event.item] at h
  rw [Event.kept]
  cases hl : e.look key with
  | none =>
    rw [hl] at h
    exact absurd rfl h
  | some p =>
    rw [hl, bind_some] at h
    rw [bind_some]
    intro hnone
    apply h
    rw [kvGetForMc]
    cases hg : e.env.get m p.1 p.2 with
    | mk err old =>
      cases err with
      | some err => rfl
      | none =>
        rw [hg] at hnone
        cases hnone

/-! ## A command with what it is given -/

theorem Event.exec_store {e : Event} {p : Put} (hp : e.cmd = .store p) :
    e.exec key m = (.answer (.rsp (handleSet e.env m p.op key.val p.data
      (expiryOf e.parsed p.exptime)
      p.flags e.mb).1), (handleSet e.env m p.op key.val p.data (expiryOf e.parsed p.exptime) p.flags
        e.mb).2.1) := by
  rw [Event.exec, hp]

theorem Event.exec_change {e : Event} {c : Rmw} (hc : e.cmd = .change c) :
    e.exec key m = (.answer (rmw.exec ⟨c, key, e.env, e.env'⟩ m e.mb).1,
      (rmw.exec ⟨c, key, e.env, e.env'⟩ m e.mb).2.1) := by
  rw [Event.exec, hc]

theorem Event.exec_get {e : Event} (hc : e.cmd = .get) :
    e.exec key m = (.reply (handleOneGet e.env m key.val e.mb e.mb' []).reply, m) := by
  rw [Event.exec, hc]

theorem exec_of_inl {c : Issue} {mb' : Mbuff} {a : Answer}
    (h : rmw.start c m mb = .inl (a, mb')) : rmw.exec c m mb = (a, m, mb') := by
  rw [TwoPhase.exec, h]

theorem oldItem_eq (env : Env) (m : KvMap) (key : List UInt8) :
    oldItem env m key =
      (blockLook env.alloc key).bind fun p => itemOf (kvGetForMc env m p.1 p.2) := by
  rw [oldItem, blockLook]
  dsimp only
  split
  · rfl
  · split
    · rfl
    · rw [bind_some]
      cases kvGetForMc env m ((Mbuff.empty.mbuffAddBuffers env.alloc key.length).appendFromBuffer
          key).2 .empty with
      | mk err old => cases err <;> rfl

theorem storeRead_eq (key : List UInt8) (b : Bool × Mbuff) :
    storeRead env m key b =
      match (if b.1 then blockLook env.alloc key else none).bind
        fun p => itemOf (kvGetForMc env m p.1 p.2) with
      | none => .inl (.rsp .serverError, b.2)
      | some old => .inr (old, b.2) := by
  obtain ⟨ok, mb⟩ := b
  cases ok with
  | false => rfl
  | true =>
    rw [if_pos rfl, ← oldItem_eq]
    rfl

theorem arithGet_eq (key : List UInt8) (mb : Mbuff) :
    arithGet env m key mb =
      match arithLook env key mb with
      | none => .inl (.silent, mb.resliceZero.mbuffAddBuffers env.alloc (arithSize key))
      | some p =>
        match itemOf (kvGetForMc env m p.1 p.2) with
        | none => .inl (.rsp .notFound, arithMb env key mb)
        | some old => arithNumber (arithMb env key mb) old (oldNumber old) := by
  rw [arithLook, arithGet]
  by_cases hfree : (mb.resliceZero.mbuffAddBuffers env.alloc (arithSize key)).freeSize <
      arithSize key
  · rw [if_pos hfree, if_pos hfree]
  · rw [if_neg hfree, if_neg hfree, ← arithMb, arithRead]
    dsimp only
    cases kvGetForMc env m (arithMb env key mb) .empty with
    | mk err old => cases err <;> rfl

theorem handleSingleKvGet_none {key : List UInt8}
    (h : (getLook env.alloc key keyMb valMb).bind
      (fun p => itemOf (kvGetForMc env m p.1 p.2)) = none) :
    (handleSingleKvGet env m key keyMb valMb).err ≠ none := by
  rw [getLook] at h
  rw [handleSingleKvGet]
  -- as variables, so that nothing tries to evaluate them
  generalize kvGetForMc env m = get at *
  generalize prepareKvmbuffForSend env.alloc = send
  generalize Mbuff.getValidNchunks = nchunks
  split
  · exact some_ne_none _
  · rename_i k v hp
    cases hget : get k v with
    | mk err old =>
      cases err with
      | some err => exact some_ne_none _
      | none =>
        rw [hp, bind_some, hget] at h
        cases h

theorem handleOneGet_none {key : List UInt8}
    (h : (getLook env.alloc key keyMb valMb).bind
      (fun p => itemOf (kvGetForMc env m p.1 p.2)) = none) :
    (handleOneGet env m key keyMb valMb []).reply = endMsg := by
  have herr := handleSingleKvGet_none h
  rw [handleOneGet]
  generalize handleSingleKvGet env m key keyMb valMb = r at *
  obtain ⟨err, k, v, len, lenb⟩ := r
  cases err with
  | none => exact absurd rfl herr
  | some err => rfl

theorem Event.start_of_none {e : Event} {c : Rmw} (hc : e.cmd = .change c)
    (h : e.item key m = none) :
    ∃ mb', rmw.start ⟨c, key, e.env, e.env'⟩ m e.mb = .inl (c.absent (e.look key).isSome, mb') := by
  rw [Event.item] at h
  have hstore : ∀ b : Bool × Mbuff, e.look key =
    (if b.1 then blockLook e.env.alloc key.val else none) →
      storeRead e.env m key.val b = .inl (.rsp .serverError, b.2) := by
    intro b hb
    rw [storeRead_eq, ← hb, h]
  have harith : e.look key = arithLook e.env key.val e.mb → ∃ mb', arithGet e.env m key.val e.mb =
      .inl (if (e.look key).isSome then .rsp .notFound else .silent, mb') := by
    intro hb
    rw [arithGet_eq, ← hb]
    cases hl : e.look key with
    | none => exact ⟨_, rfl⟩
    | some p =>
      rw [hl, bind_some] at h
      dsimp only
      rw [h]
      exact ⟨_, rfl⟩
  cases c with
  | append data | prepend data => exact ⟨_, hstore _ (by rw [Event.look, hc])⟩
  | incr num | decr num => exact harith (by rw [Event.look, hc])

theorem Event.start_of_some {e : Event} {c : Rmw} {old : Mbuff} {v : List UInt8}
    (hc : e.cmd = .change c) (h : e.item key m = some old) (hnum : oldNumber old = numberOf v) :
    rmw.start ⟨c, key, e.env, e.env'⟩ m e.mb =
      if c.refuses v then .inl (.rsp .clientErrorNonNumeric, e.block key)
      else .inr (old, e.block key) := by
  rw [Event.item] at h
  have hstore : ∀ b : Bool × Mbuff, e.look key =
    (if b.1 then blockLook e.env.alloc key.val else none) →
      e.block key = b.2 → storeRead e.env m key.val b = .inr (old, e.block key) := by
    intro b hb hblock
    rw [storeRead_eq, ← hb, h, hblock]
  have harith : e.look key = arithLook e.env key.val e.mb →
    e.block key = arithMb e.env key.val e.mb →
      arithGet e.env m key.val e.mb =
        if (numberOf v).isNone then .inl (.rsp .clientErrorNonNumeric, e.block key)
        else .inr (old, e.block key) := by
    intro hb hblock
    rw [arithGet_eq, ← hb]
    cases hl : e.look key with
    | none =>
      rw [hl] at h
      cases h
    | some p =>
      rw [hl, bind_some] at h
      dsimp only
      rw [h, hblock]
      dsimp only
      rw [hnum]
      cases numberOf v <;> rfl
  cases c with
  | append data | prepend data => exact hstore _ (by rw [Event.look, hc]) (by rw [Event.block, hc])
  | incr num | decr num => exact harith (by rw [Event.look, hc]) (by rw [Event.block, hc])

theorem hides_of_none {e : Event} (h : e.item key m = none) : e.Hides key m := by
  rw [Event.Hides]
  cases hcmd : e.cmd with
  | store p => trivial
  | get =>
    rw [Event.item, Event.look, hcmd] at h
    rw [Event.exec_get hcmd]
    exact congrArg Output.reply (handleOneGet_none h)
  | change c =>
    obtain ⟨mb', hs⟩ := Event.start_of_none hcmd h
    dsimp only
    rw [Event.exec_change hcmd, exec_of_inl hs]

theorem Event.Hides.reply {e : Event} (h : e.Hides key m) (hc : e.cmd = .get) :
    (e.exec key m).1 = .reply endMsg := by
  rwa [Event.Hides, hc] at h

/-- A command that goes on with its item. -/
theorem exec_of_inr {c : Issue} {old mb' : Mbuff} {v : List UInt8} (hmb : mb.Good)
    (h : rmw.start c m mb = .inr (old, mb')) (hv : m c.key.val = some v)
      (hsmall : v.length < 2 ^ 32) :
    if c.restErr m old mb' = none then (rmw.exec c m mb).1 = c.cmd.ack v ∧
      (rmw.exec c m mb).2.1 = update m c.key.val (some (c.cmd.new v))
    else (rmw.exec c m mb).1 = .rsp .serverError ∧ (rmw.exec c m mb).2.1 = m := by
  have hs := c.start_spec m hmb
  change Starts m c.key _ (rmw.start c m mb) at hs
  rw [h] at hs
  obtain ⟨hmb', v', -, hold⟩ := hs
  have hgood : mb'.Good := by
    cases hcmd : c.cmd with
    | append data | prepend data | incr num | decr num =>
      rw [hcmd] at hmb'
      exact hmb'.good
  obtain ⟨hack, hfail⟩ := c.finish_answer m hold.good.legit hgood
  have hexec : rmw.exec c m mb = c.finish m (old, mb') := by
    rw [TwoPhase.exec, h]
    rfl
  have hdoes := (c.exec_spec m hmb).2
  rw [Issue.Does] at hdoes
  by_cases herr : c.restErr m old mb' = none
  · rw [if_pos herr]
    rw [if_pos (by rw [hexec]; exact hack herr)] at hdoes
    obtain ⟨w, hw, ha, hm⟩ := hdoes
    obtain rfl := Option.some.inj (hv.symm.trans hw)
    rw [seen_eq hsmall] at ha hm
    exact ⟨ha, hm⟩
  · rw [if_neg herr]
    have hans : (rmw.exec c m mb).1 = .rsp .serverError := by rw [hexec]; exact hfail herr
    rw [hans, if_neg (by decide)] at hdoes
    exact ⟨hans, hdoes⟩

/-! ## What is stored -/

/-- What stands behind the data of an item with this life, at the time of the clock. -/
def Life.Holds : Life → Int → Int → Prop
  | .never, x, _ => x = 0
  | .dead, x, t => x ≠ 0 ∧ x < t
  | .till instant, x, _ => x = instant ∧ instant ≠ 0

def Agrees (key : Key) (m : KvMap) (t : Int) : Option Life → Prop
  | none => m key.val = none
  | some l => ∃ v, m key.val = some v ∧ v.length < 2 ^ 32 ∧ trailerSize ≤ v.length ∧
      l.Holds (storedExpiry v) t

theorem Life.Holds.mono {l : Life} {t t' : Int} (h : l.Holds x t) (ht : t ≤ t') : l.Holds x t' := by
  cases l with
  | never => exact h
  | dead => exact ⟨h.1, lt_of_lt_of_le h.2 ht⟩
  | till instant => exact h

theorem Agrees.mono {t t' : Int} {life : Option Life}
    (h : Agrees key m t life) (ht : t ≤ t') : Agrees key m t' life := by
  cases life with
  | none => exact h
  | some l =>
    obtain ⟨v, hv, hsmall, htr, hl⟩ := h
    exact ⟨v, hv, hsmall, htr, hl.mono ht⟩

/-- The comparison with the clock, away from the instant itself. -/
theorem Life.Holds.not_expired_iff {l : Life} {t now : Int} (h : l.Holds x t) (ht : t ≤ now)
    (hne : ∀ instant, l = .till instant → now ≠ instant) : ¬ (x ≠ 0 ∧ x < now) ↔ l.Visible now := by
  cases l with
  | never => exact iff_of_true (fun hc => hc.1 h) trivial
  | dead => exact iff_of_false (fun hc => hc ⟨h.1, lt_of_lt_of_le h.2 ht⟩) fun hc => hc
  | till instant =>
    obtain ⟨rfl, h0⟩ := h
    have := hne x rfl
    change _ ↔ now < x
    omega

theorem bmod_emod_toNat (h : -2 ^ 63 ≤ x ∧ x < 2 ^ 63) :
    (((x % 2 ^ 64).toNat % 2 ^ (8 * 8) : Nat) : Int).bmod (2 ^ 64) = x := by
  rw [Int.bmod_def]
  omega

theorem storedExpiry_append (data : List UInt8) (h : -2 ^ 63 ≤ x ∧ x < 2 ^ 63) (flags : Nat) :
    storedExpiry (data ++ trailerBytes x flags) = x := by
  have htake : (trailerBytes x flags).take 8 = le 8 (x % 2 ^ 64).toNat := by
    have hlen : (le 8 (x % 2 ^ 64).toNat).length = 8 := le_length ..
    rw [trailerBytes, take_append_of_le_length hlen.ge, take_of_length_le hlen.le]
  unfold storedExpiry
  rw [trailerOf_append data (trailerBytes_length x flags), htake, leNat_le]
  exact bmod_emod_toNat h

/-- What a store leaves behind the data is right for the life it gives. -/
theorem Put.life_holds {life : Option Life} {e : Event} {p : Put}
    (hp : e.cmd = .store p) (h : Ordinary key m life e) :
    (-2 ^ 63 ≤ expiryOf e.parsed p.exptime ∧ expiryOf e.parsed p.exptime < 2 ^ 63) ∧
      (p.life e.parsed).Holds (expiryOf e.parsed p.exptime) e.parsed := by
  have hx := p.exptime_mem
  have ht := e.parsed_mem
  rw [expiryOf, Put.life]
  by_cases h0 : p.exptime = 0
  · rw [if_neg (not_not.mpr h0), if_pos h0]
    exact ⟨hx, h0⟩
  · rw [if_pos h0, if_neg h0, sanitizeExpTime]
    by_cases hneg : p.exptime < 0
    · obtain ⟨hp0, hp1, hpm⟩ := h.dead p hp hneg
      rw [if_pos hneg, if_pos hneg, if_pos hp0]
      exact ⟨by omega, by omega, by omega⟩
    · rw [if_neg hneg, if_neg hneg]
      by_cases hle : p.exptime ≤ realtimeMaxdelta
      · obtain ⟨hr0, hrlt⟩ := h.relative p hp (by omega) hle
        rw [if_pos ⟨h0, hle⟩, if_pos hle]
        exact ⟨by omega, by omega, hr0⟩
      · rw [if_neg (fun hc => hle hc.2), if_neg hle]
        exact ⟨hx, rfl, h0⟩

theorem Rmw.new_trailer (c : Rmw) {v : List UInt8} (h : trailerSize ≤ v.length) :
    trailerOf (c.new v) = trailerOf v := by
  have hlen : (trailerOf v).length = trailerSize := by
    rw [trailerOf, length_drop]
    omega
  cases c with
  | append data => exact trailerOf_append _ hlen
  | prepend data =>
    change trailerOf (data ++ v) = trailerOf v
    rw [trailerOf, trailerOf, length_append, Nat.add_sub_assoc h, drop_append,
      drop_eq_nil_of_le (by omega), nil_append]
    congr 1
    omega
  | incr num | decr num => exact trailerOf_append _ hlen

theorem Rmw.new_length (c : Rmw) {v : List UInt8} (h : trailerSize ≤ v.length)
    (hv : v.length < 2 ^ 32)
    (hsize : ∀ data, c = .append data ∨ c = .prepend data → v.length + data.length < 2 ^ 32) :
    (c.new v).length < 2 ^ 32 ∧ trailerSize ≤ (c.new v).length := by
  have hlen : (trailerOf v).length = trailerSize := by
    rw [trailerOf, length_drop]
    omega
  have hdata : (dataOf v).length = v.length - trailerSize := by
    rw [dataOf, length_take]
    omega
  have hdec : ∀ n < 2 ^ 64, (dec n).length ≤ 20 := fun n hn => dec_length_le (by decide) (by omega)
  have harith := hdec _ (c.arith_lt v)
  cases c with
  | append data =>
    have := hsize data (.inl rfl)
    change (dataOf v ++ data ++ trailerOf v).length < 2 ^ 32 ∧
      _ ≤ (dataOf v ++ data ++ trailerOf v).length
    simp only [length_append, hlen, hdata]
    omega
  | prepend data =>
    have := hsize data (.inr rfl)
    change (data ++ v).length < 2 ^ 32 ∧ _ ≤ (data ++ v).length
    rw [length_append]
    omega
  | incr num | decr num =>
    change (_ ++ trailerOf v).length < 2 ^ 32 ∧ _ ≤ (_ ++ trailerOf v).length
    rw [length_append, hlen, trailerSize]
    omega

/-! ## One command -/

section Command

variable {key : Key} {m : KvMap} {life : Option Life} {e : Event} {t : Int}

/-- With the item from the store, the handler is given it exactly if it is alive. -/
theorem item_of_kept {old : Mbuff} (h : Agrees key m t life) (ht : t ≤ e.env.curTime)
    (ho : Ordinary key m life e) (hkept : e.kept key m = some old) :
    ∃ v, m key.val = some v ∧ v.length < 2 ^ 32 ∧
      (Alive life e.env.curTime → e.item key m = some old ∧ Old key.val v old) ∧
      (¬ Alive life e.env.curTime → e.item key m = none) := by
  rw [Event.kept] at hkept
  rw [Event.item]
  cases hl : e.look key with
  | none =>
    rw [hl] at hkept
    cases hkept
  | some p =>
    obtain ⟨k, w⟩ := p
    obtain ⟨hk, hb, hw⟩ := Event.look_ok hl
    have hreads : ∀ p, e.cmd ≠ .store p := by
      intro p hp
      rw [Event.look, hp] at hl
      cases hl
    rw [hl, bind_some] at hkept
    rw [bind_some]
    dsimp only at hkept ⊢
    cases hget : e.env.get m k w with
    | mk err old' =>
      rw [hget] at hkept
      cases err with
      | some err => cases hkept
      | none =>
        obtain rfl : old' = old := Option.some.inj hkept
        obtain ⟨v, hv, -⟩ := Below.get_ok hk hw hget
        have hv' := hb ▸ hv
        cases life with
        | none => cases hv'.symm.trans h
        | some l =>
          obtain ⟨v', hm, hsmall, htr, hholds⟩ := h
          obtain rfl := Option.some.inj (hv'.symm.trans hm)
          have hiff := hholds.not_expired_iff ht fun i hi => ho.instant i (by rw [hi]) hreads
          have heq := kvGetForMc_eq hk hw hget hv hsmall htr
          refine ⟨v, hm, hsmall, ?_, ?_⟩
          · rintro ⟨l', hl', hvis⟩
            obtain rfl := Option.some.inj hl'
            rw [if_neg (hiff.mpr hvis)] at heq
            obtain ⟨v', hv2, hold⟩ := kvGetForMc_ok hk hw (by rw [hb]; exact key.length_le) heq
            obtain rfl := Option.some.inj (hv.symm.trans hv2)
            exact ⟨by rw [heq]; rfl, hb ▸ hold⟩
          · intro hdead
            have hexp : storedExpiry v ≠ 0 ∧ storedExpiry v < e.env.curTime := by
              by_contra hexp
              exact hdead ⟨l, rfl, hiff.mp hexp⟩
            rw [heq, if_pos hexp]
            rfl

variable {c : Rmw}

theorem change_acked (h : Agrees key m t life) (hc : e.cmd = .change c)
    (hack : (e.exec key m).1.acked = true) :
    ∃ l v, life = some l ∧ m key.val = some v ∧ v.length < 2 ^ 32 ∧ trailerSize ≤ v.length ∧
      l.Holds (storedExpiry v) t ∧ (e.exec key m).2 = update m key.val (some (c.new v)) := by
  rw [Event.exec_change hc] at hack ⊢
  change (rmw.exec ⟨c, key, e.env, e.env'⟩ m e.mb).1.acked = true at hack
  have hdoes := (Issue.exec_spec ⟨c, key, e.env, e.env'⟩ m e.good).2
  rw [Issue.Does, if_pos hack] at hdoes
  obtain ⟨v, hv, -, hm⟩ := hdoes
  dsimp only at hv hm
  cases life with
  | none => cases hv.symm.trans h
  | some l =>
    obtain ⟨v', hv', hsmall, htr, hholds⟩ := h
    obtain rfl := Option.some.inj (hv.symm.trans hv')
    rw [seen_eq hsmall] at hm
    exact ⟨l, v, rfl, hv, hsmall, htr, hholds, hm⟩

theorem change_unacked (hc : e.cmd = .change c) (hack : ¬ (e.exec key m).1.acked = true) :
    (e.exec key m).2 = m := by
  rw [Event.exec_change hc] at hack ⊢
  change ¬ (rmw.exec ⟨c, key, e.env, e.env'⟩ m e.mb).1.acked = true at hack
  have hdoes := (Issue.exec_spec ⟨c, key, e.env, e.env'⟩ m e.good).2
  rwa [Issue.Does, if_neg hack] at hdoes

theorem eq_of_itemOf {r : Option Errno × Mbuff} {old : Mbuff} (h : itemOf r = some old) :
    r = (none, old) := by
  obtain ⟨err, old'⟩ := r
  cases err with
  | some err => cases h
  | none => rw [Option.some.inj h]

section Item

variable {old : Mbuff} {v : List UInt8}

theorem oldNumber_item (hsmall : v.length < 2 ^ 32) (hold : Old key.val v old) :
    oldNumber old = numberOf v := by
  rw [oldNumber_eq hold, seen_eq hsmall]

theorem shows_of_item (hv : m key.val = some v) (hsmall : v.length < 2 ^ 32)
    (hold : Old key.val v old) (hitem : e.item key m = some old) (hserved : e.Served key v) :
    e.Shows key m v old := by
  rw [Event.Shows]
  cases hcmd : e.cmd with
  | store p => trivial
  | get =>
    rw [Event.Served, hcmd] at hserved
    rw [Event.item, Event.look, hcmd] at hitem
    rw [Event.exec_get hcmd]
    dsimp only at hitem
    rw [getLook] at hitem
    cases hp : prepareKvmbuffForGet e.env.alloc key.val e.mb e.mb' with
    | mk err p =>
      rw [hp] at hitem
      cases err with
      | some err => cases hitem
      | none =>
        have hget := eq_of_itemOf hitem
        exact congrArg Output.reply (handleOneGet_item e.good e.good' hp hget hv hserved [])
  | change c =>
    have hs := Event.start_of_some hcmd hitem (oldNumber_item hsmall hold)
    dsimp only
    rw [Event.exec_change hcmd]
    by_cases href : c.refuses v = true
    · rw [if_pos href] at hs ⊢
      rw [exec_of_inl hs]
    · rw [if_neg href] at hs ⊢
      have hexec := exec_of_inr e.good hs hv hsmall
      by_cases herr : (Issue.mk c key e.env e.env').restErr m old (e.block key) = none
      · rw [if_pos herr] at hexec ⊢
        rw [hexec.1, hexec.2]
      · rw [if_neg herr] at hexec ⊢
        rw [hexec.1, hexec.2]

theorem asserts_of_item (hsmall : v.length < 2 ^ 32)
    (hold : Old key.val v old) (hitem : e.item key m = some old) (hserved : e.Served key v) :
    e.Asserts key old := by
  have hseen := seen_eq hsmall
  have hdata : dataOf v ≠ [] → trailerSize < old.validSize := by
    intro hne
    have := length_pos_of_ne_nil hne
    rw [dataOf, length_take] at this
    rw [hold.good.legit.validSize_eq, hold.bytes, hseen]
    omega
  rw [Event.Served] at hserved
  rw [Event.Asserts]
  cases hcmd : e.cmd with
  | store p | get => trivial
  | change c =>
    rw [hcmd] at hserved
    cases c with
    | append data =>
      obtain ⟨hne, hpage, hroom⟩ := hserved
      have hs := Event.start_of_some hcmd hitem (oldNumber_item hsmall hold)
      have hspec := (Issue.mk (.append data) key e.env e.env').start_spec m e.good
      change Starts m key _ (rmw.start ⟨.append data, key, e.env, e.env'⟩ m e.mb) at hspec
      rw [hs] at hspec
      exact appendAsserts_of_room _ hspec.1 hold (by rwa [hseen]) hpage hroom
    | prepend data => trivial
    | incr num | decr num => exact hdata hserved

end Item

theorem Agrees.respected (h : Agrees key m t life) (ht : t ≤ e.env.curTime)
    (ho : Ordinary key m life e) : Respected key m life e := by
  constructor
  · intro halive old hkept
    obtain ⟨v, hv, hsmall, hgiven, -⟩ := item_of_kept h ht ho hkept
    obtain ⟨hitem, hold⟩ := hgiven halive
    have hserved := ho.served halive v hv
    exact ⟨v, hv, shows_of_item hv hsmall hold hitem hserved,
      asserts_of_item hsmall hold hitem hserved⟩
  · intro hdead
    apply hides_of_none
    cases hkept : e.kept key m with
    | none =>
      by_contra hitem
      exact kept_of_item hitem hkept
    | some old =>
      obtain ⟨-, -, -, -, hnone⟩ := item_of_kept h ht ho hkept
      exact hnone hdead
  · intro c hc hack
    obtain ⟨-, v, -, hv, -, htr, -, hm⟩ := change_acked h hc hack
    refine ⟨v, c.new v, hv, by rw [hm, update_self], ?_⟩
    unfold storedExpiry
    rw [c.new_trailer htr]

/-- What a command leaves in the store agrees with the life after it. -/
theorem Agrees.step (h : Agrees key m t life) (hparsed : t ≤ e.parsed)
    (hclock : e.parsed ≤ e.env.curTime) (ho : Ordinary key m life e) :
    Agrees key (e.exec key m).2 e.env.curTime (e.nextLife (e.exec key m).1.acked life) := by
  have hmono := h.mono (hparsed.trans hclock)
  cases hcmd : e.cmd with
  | get =>
    rw [Event.nextLife, Event.exec, hcmd]
    exact hmono
  | store p =>
    have hspec := handleSet_spec e.env m p.op key p.data
      (expiryOf e.parsed p.exptime) p.flags e.good
    rw [Event.nextLife, Event.exec_store hcmd, hcmd]
    dsimp only
    rw [Output.acked]
    by_cases hack : (handleSet e.env m p.op key.val p.data (expiryOf e.parsed p.exptime) p.flags
        e.mb).1 = .stored
    · rw [if_pos hack] at hspec
      rw [if_pos ((acked_rsp _).mpr hack), hspec]
      obtain ⟨hrange, hholds⟩ := Put.life_holds hcmd ho
      have hlen := p.data_le
      rw [intMax] at hlen
      refine ⟨_, update_self .., ?_, ?_, ?_⟩
      · rw [length_append, trailerBytes_length, trailerSize]
        omega
      · rw [length_append, trailerBytes_length]
        omega
      · rw [storedExpiry_append _ hrange]
        exact hholds.mono hclock
    · rw [if_neg hack] at hspec
      rw [if_neg (mt (acked_rsp _).mp hack), hspec]
      exact hmono
  | change c =>
    have hlife : e.nextLife (e.exec key m).1.acked life = life := by
      rw [Event.nextLife, hcmd]
    rw [hlife]
    by_cases hack : (e.exec key m).1.acked = true
    · obtain ⟨l, v, rfl, hv, hsmall, htr, hholds, hm⟩ := change_acked h hcmd hack
      have hsize : ∀ data, c = .append data ∨ c = .prepend data →
        v.length + data.length < 2 ^ 32 := by
        rintro data (rfl | rfl)
        · exact ho.size data v (.inl hcmd) hv
        · exact ho.size data v (.inr hcmd) hv
      obtain ⟨hlt, htr'⟩ := c.new_length htr hsmall hsize
      rw [hm]
      refine ⟨_, update_self .., hlt, htr', ?_⟩
      unfold storedExpiry
      rw [c.new_trailer htr]
      exact hholds.mono (hparsed.trans hclock)
    · rw [change_unacked hcmd hack]
      exact hmono

end Command

/-! ## Whole histories -/

theorem Agrees.run {t : Int} {life : Option Life} {es : List Event}
    (h : Agrees key m t life) (hclock : Ticks t es) (ho : Throughout (Ordinary key) key es m life) :
    Throughout (Respected key) key es m life := by
  induction es generalizing m t life with
  | nil => trivial
  | cons e es ih =>
    obtain ⟨hparsed, hread, hrest⟩ := hclock
    exact ⟨h.respected (hparsed.trans hread) ho.1, ih (h.step hparsed hread ho.1) hrest ho.2⟩

/-- In every history of a key that starts without an item, on a clock that does not go back, every
command respects expiry if nothing is read at the very instant of its expiry, nothing is stored with
a negative time in the first two seconds of the epoch, instants and sizes fit their fields, and the
handlers are given items that they can serve. -/
theorem expiry_respected (key : Key) (m : KvMap) (hm : m key.val = none) (t : Int) (es : List Event)
    (hclock : Ticks t es) (ho : Throughout (Ordinary key) key es m none) :
    Throughout (Respected key) key es m none := by
  have h : Agrees key m t none := hm
  exact h.run hclock ho

/-! ## Where nothing fails -/

theorem Calm.exec_store {e : Event} {p : Put} (h : Calm e.env) (m : KvMap)
    (hp : e.cmd = .store p) (hop : p.op = .normal) (hdata : p.data.length ≤ 1000)
    (hmb : e.mb = .empty) : (e.exec key m).1.acked = true ∧ (e.exec key m).2 key.val =
      some (p.data ++ trailerBytes (expiryOf e.parsed p.exptime) p.flags) := by
  obtain ⟨hstored, hspec⟩ := h.handleSet m key hdata (expiryOf e.parsed p.exptime) p.flags
  rw [Event.exec_store hp, hop, hmb, hspec]
  exact ⟨(acked_rsp _).mpr hstored, update_self ..⟩

section Calm

variable {e : Event} {v : List UInt8}

theorem Calm.item {k w : Mbuff} (h : Calm e.env) (hlook : e.look key = some (k, w))
    (hm : m key.val = some v) (hsmall : v.length < 2 ^ 32) (htr : trailerSize ≤ v.length)
    (hexp : e.env.curTime ≤ storedExpiry v) :
    ∃ old, e.item key m = some old ∧ Old key.val v old := by
  obtain ⟨hk, hb, hw⟩ := Event.look_ok hlook
  rw [← hb] at hm
  obtain ⟨old, hget⟩ := h.get hm w
  have heq := kvGetForMc_eq hk hw hget hm hsmall htr
  rw [if_neg fun hc => not_lt.mpr hexp hc.2] at heq
  obtain ⟨v', hv', hold⟩ := kvGetForMc_ok hk hw (by rw [hb]; exact key.length_le) heq
  obtain rfl := Option.some.inj (hm.symm.trans hv')
  refine ⟨old, ?_, hb ▸ hold⟩
  rw [Event.item, hlook, bind_some, heq]
  rfl

theorem Calm.exec_get (h : Calm e.env) (hcmd : e.cmd = .get) (hmb : e.mb = .empty)
    (hm : m key.val = some v) (htr : trailerSize ≤ v.length)
    (hexp : e.env.curTime ≤ storedExpiry v) (hs : Sendable key.val v) :
    e.exec key m = (.reply (itemText key.val v), m) := by
  have hsmall : v.length < 2 ^ 32 := by
    have := hs.size
    omega
  have hfree := freeSize_addBuffers h.alloc .empty (key.val.length + fixedCmdSize)
  have hlook : ∃ p, e.look key = some p := by
    have hzero : Mbuff.empty.resliceZero = .empty := rfl
    rw [Event.look, hcmd]
    dsimp only
    rw [getLook, prepareKvmbuffForGet, hmb, hzero]
    dsimp only
    rw [if_neg (Nat.not_lt.mpr hfree)]
    exact ⟨_, rfl⟩
  obtain ⟨⟨k, w⟩, hlook⟩ := hlook
  obtain ⟨old, hitem, hold⟩ := h.item hlook hm hsmall htr hexp
  have hshows := shows_of_item hm hsmall hold hitem (by rw [Event.Served, hcmd]; exact hs)
  rw [Event.Shows, hcmd] at hshows
  exact Prod.ext hshows (by rw [Event.exec_get hcmd])

theorem Calm.exec_incr {num : Fin (2 ^ 64)} {n : Nat} (h : Calm e.env) (h' : Calm e.env')
    (hcmd : e.cmd = .change (.incr num)) (hmb : e.mb = .empty) (hm : m key.val = some v)
    (hsmall : v.length < 2 ^ 32) (htr : trailerSize ≤ v.length)
    (hexp : e.env.curTime ≤ storedExpiry v) (hn : numberOf v = some n) :
    e.exec key m = (.answer (.number (dec ((num.val + n) % 2 ^ 64) ++ crlf)),
      update m key.val (some (dec ((num.val + n) % 2 ^ 64) ++ trailerOf v))) := by
  obtain ⟨hfree, hroom, -, hlay⟩ := h.arithKey key
  have hlook : e.look key = some (arithMb e.env key.val .empty, .empty) := by
    have hzero : Mbuff.empty.resliceZero = .empty := rfl
    rw [Event.look, hcmd]
    dsimp only
    rw [arithLook, hmb, hzero, if_neg (Nat.not_lt.mpr hfree)]
  obtain ⟨old, hitem, hold⟩ := h.item hlook hm hsmall htr hexp
  have hnum := oldNumber_item hsmall hold
  have hs := Event.start_of_some hcmd hitem hnum
  have hrefuses : ¬ (Rmw.incr num).refuses v = true := by
    rw [Rmw.refuses, hn]
    exact Bool.false_ne_true
  have hblock : e.block key = arithMb e.env key.val .empty := by rw [Event.block, hcmd, hmb]
  rw [if_neg hrefuses, hblock] at hs
  have hexec := exec_of_inr e.good hs hm hsmall
  have herr : (Issue.mk (.incr num) key e.env e.env').restErr m old
      (arithMb e.env key.val .empty) = none := by
    rw [Issue.restErr]
    dsimp only
    rw [hnum]
    exact h'.put_arithItem m hroom hlay hold (Rmw.arith_lt (.incr num) v)
  have hack : (Rmw.incr num).ack v = .number (dec ((num.val + n) % 2 ^ 64) ++ crlf) := by
    rw [Rmw.ack, Rmw.arith, hn, getD_some]
  have hnew : (Rmw.incr num).new v = dec ((num.val + n) % 2 ^ 64) ++ trailerOf v := by
    rw [Rmw.new, Rmw.arith, hn, getD_some]
  rw [if_pos herr] at hexec
  rw [Event.exec_change hcmd, hexec.1, hexec.2, hack, hnew]

end Calm

/-! ## An item of 90 seconds -/

def calmAt (t : Int) : Env := { calm with curTime := t }

theorem calmAt_calm (t : Int) : Calm (calmAt t) :=
  ⟨calm_calm.alloc, calm_calm.reads, calm_calm.putReads, calm_calm.grains, calm_calm.table,
    calm_calm.bytewise⟩

theorem time_mem (t : Fin (2 ^ 63)) : -2 ^ 63 ≤ (t : Int) ∧ (t : Int) < 2 ^ 63 := by
  have := t.isLt
  omega

theorem hundred_le : ((dec 100).length : Int) ≤ intMax - 2 := by
  rw [dec_three.1]
  decide

/-- The number 100, for 90 seconds. -/
def ninety : Put := ⟨.normal, 0, (90 : Fin (2 ^ 63)), time_mem 90, dec 100, hundred_le⟩

/-- A command at a time. -/
def KeyCmd.at (cmd : KeyCmd) (t : Fin (2 ^ 63)) : Event where
  cmd
  parsed := t
  parsed_mem := time_mem t
  env := calmAt t
  env' := calmAt t
  mb := .empty
  mb' := .empty
  good := Mbuff.empty_good
  good' := Mbuff.empty_good

def noItems : KvMap := fun _ => none

def storeAt10 : Event := (KeyCmd.store ninety).at 10
def incrAt50 : Event := (KeyCmd.change bump.cmd).at 50

def stored : KvMap := (storeAt10.exec bump.key noItems).2
def bumped : KvMap := (incrAt50.exec bump.key stored).2

def hundred (n : Nat) : List UInt8 := dec n ++ trailerBytes 100 0

theorem ninety_till : ninety.life 10 = .till 100 := by
  rw [Put.life, if_neg (by decide), if_neg (by decide), if_pos (by decide)]
  rfl

theorem ninety_expiry : expiryOf storeAt10.parsed ninety.exptime = 100 := by decide

theorem ninety_exec : (storeAt10.exec bump.key noItems).1.acked = true ∧
    stored bump.key.val = some (hundred 100) := by
  have hdata : ninety.data.length ≤ 1000 := by
    change (dec 100).length ≤ 1000
    rw [dec_three.1]
    decide
  obtain ⟨hack, hm⟩ := @Calm.exec_store bump.key storeAt10 ninety
    (calmAt_calm _) noItems rfl rfl hdata rfl
  have hflags : (ninety.flags : Nat) = 0 := rfl
  rw [ninety_expiry, hflags] at hm
  rw [stored, hm, hundred, ninety]
  exact ⟨hack, rfl⟩

theorem hundred_facts {n : Nat} (h : (dec n).length = 3) :
    (hundred n).length = 15 ∧ storedExpiry (hundred n) = 100 ∧ dataOf (hundred n) = dec n ∧
      trailerOf (hundred n) = trailerBytes 100 0 := by
  refine ⟨?_, storedExpiry_append _ (by decide) 0, dataOf_append _ (trailerBytes_length ..),
    trailerOf_append _ (trailerBytes_length ..)⟩
  rw [hundred, length_append, trailerBytes_length, h]
  rfl

theorem bump_ninety : incrAt50.exec bump.key stored =
    (.answer (.number (dec 101 ++ crlf)), update stored bump.key.val (some (hundred 101))) := by
  obtain ⟨hlen, hexp, -, htr⟩ := hundred_facts dec_three.1
  have h := @Calm.exec_incr bump.key stored incrAt50 _ 1 100
    (calmAt_calm _) (calmAt_calm _) rfl rfl ninety_exec.2 (by rw [hlen]; decide)
    (by rw [hlen]; decide) (by rw [hexp]; decide)
    (numberOf_result (by decide) (by decide) (trailerBytes_length ..))
  rw [htr] at h
  exact h

theorem bumped_item : bumped bump.key.val = some (hundred 101) := by
  rw [bumped, bump_ninety]
  exact update_self bump.key.val (some (hundred 101)) stored

def sentText (n : Nat) : List UInt8 := ascii "VALUE a 0 3 \r\n" ++ dec n ++ ascii "\r\nEND\r\n"

theorem itemText_hundred {n : Nat} (h : (dec n).length = 3) :
    itemText bump.key.val (hundred n) = sentText n := by
  obtain ⟨-, -, hdata, htr⟩ := hundred_facts h
  have hzero : leNat ((trailerBytes 100 0).drop 8) = 0 := by decide
  have hline : valueWord ++ bump.key.val ++ (ascii " " ++ dec 0 ++ ascii " " ++ dec 3 ++
      ascii " \r\n") = ascii "VALUE a 0 3 \r\n" := by
    simp only [dec]
    decide
  have hend : crlf ++ endMsg = ascii "\r\nEND\r\n" := by decide
  rw [itemText, hdata, htr, h, hzero, hline, append_assoc _ crlf, hend, sentText]

theorem sentText_ne {n : Nat} (h : (dec n).length = 3) : sentText n ≠ endMsg := by
  intro heq
  have hlen := congrArg List.length heq
  rw [sentText, length_append, length_append, h] at hlen
  exact absurd hlen (by decide)

theorem hundred_sendable {n : Nat} (h : (dec n).length = 3) :
    Sendable bump.key.val (hundred n) := by
  obtain ⟨hlen, -, hdata, -⟩ := hundred_facts h
  constructor
  · rw [hlen]
    decide
  · rw [hdata, h]
    decide
  · rw [hdata, h]
    decide

theorem get_hundred {t : Fin (2 ^ 63)} (ht : (t : Int) ≤ 100) {m : KvMap} {n : Nat}
    (hm : m bump.key.val = some (hundred n)) (h : (dec n).length = 3) :
    (KeyCmd.get.at t).exec bump.key m = (.reply (sentText n), m) := by
  obtain ⟨hlen, hexp, -, -⟩ := hundred_facts h
  rw [← itemText_hundred h]
  exact (calmAt_calm t).exec_get rfl rfl hm (by rw [hlen]; decide) (by rw [hexp]; exact ht)
    (hundred_sendable h)

theorem ordinary_store : Ordinary bump.key noItems none storeAt10 := by
  constructor
  · rintro p ⟨⟩ hneg
    exact absurd hneg (by decide)
  · rintro p ⟨⟩ - -
    decide
  · intro data v hchange
    rcases hchange with hchange | hchange <;> cases hchange
  · rintro t ⟨⟩
  · rintro ⟨l, hl, -⟩
    cases hl

theorem ordinary_read {cmd : KeyCmd} {t : Fin (2 ^ 63)} {m : KvMap} (ht : (t : Int) ≠ 100)
    (hcmd : cmd = .get ∨ cmd = .change (.incr 1))
    (hserved : (t : Int) < 100 → ∀ v, m bump.key.val = some v → (cmd.at t).Served bump.key v) :
    Ordinary bump.key m (some (.till 100)) (cmd.at t) := by
  constructor
  · rintro p rfl
    rcases hcmd with hcmd | hcmd <;> cases hcmd
  · rintro p rfl
    rcases hcmd with hcmd | hcmd <;> cases hcmd
  · rintro data v (rfl | rfl)
    all_goals rcases hcmd with hcmd | hcmd <;> cases hcmd
  · rintro i ⟨⟩ -
    exact ht
  · rintro ⟨l, ⟨⟩, hvis⟩
    exact hserved hvis

theorem ninety_next : storeAt10.nextLife
    (storeAt10.exec bump.key noItems).1.acked none = some (.till 100) := by
  rw [ninety_exec.1, ← ninety_till]
  rfl

/-- The number 100 is stored at the time 10 for 90 seconds, incremented at 50, and sent at 60 but
not at 150. -/
theorem ninety_respected :
    let es := [storeAt10, incrAt50, KeyCmd.get.at 60, KeyCmd.get.at 150]
    Throughout (Respected bump.key) bump.key es noItems none ∧
      (incrAt50.exec bump.key stored).1 = .answer (.number (dec 101 ++ crlf)) ∧
      ((KeyCmd.get.at 60).exec bump.key bumped).1 = .reply (sentText 101) ∧
      ((KeyCmd.get.at 150).exec bump.key bumped).1 = .reply endMsg := by
  intro es
  have hstored := ninety_exec.2
  have hbumped := bumped_item
  rw [stored] at hstored
  rw [bumped, stored] at hbumped
  have h : Throughout (Respected bump.key) bump.key es noItems none := by
    apply expiry_respected bump.key noItems rfl 0
    · exact ⟨by decide, by decide, by decide, by decide, by decide, by decide, by decide, by decide,
        trivial⟩
    · refine ⟨ordinary_store, ?_⟩
      rw [ninety_next]
      refine ⟨ordinary_read (by decide) (.inr rfl) ?_, ordinary_read (by decide) (.inl rfl) ?_,
        ordinary_read (by decide) (.inl rfl) ?_, trivial⟩
      · intro _ v hv
        obtain rfl := Option.some.inj (hstored.symm.trans hv)
        change dataOf (hundred 100) ≠ []
        rw [(hundred_facts dec_three.1).2.2.1]
        exact dec_ne_nil 100
      · intro _ v hv
        obtain rfl := Option.some.inj (hbumped.symm.trans hv)
        exact hundred_sendable dec_three.2
      · intro hlt
        exact absurd hlt (by decide)
  have hlast := h.2.2.2.1.hidden
  rw [ninety_next, ← stored, ← bumped, get_hundred (by decide) bumped_item dec_three.2] at hlast
  refine ⟨h, by rw [bump_ninety], by rw [get_hundred (by decide) bumped_item dec_three.2], ?_⟩
  have hhides := hlast (by
    rintro ⟨l, ⟨⟩, hvis⟩
    exact absurd (show (150 : Int) < 100 from hvis) (by decide))
  dsimp only at hhides
  exact hhides.reply rfl

/-- Read at the time 100, which is when it expires, it is still sent. -/
theorem instant_still_shown :
    (storeAt10.exec bump.key noItems).1.acked = true ∧
      ninety.life 10 = .till 100 ∧
      ((KeyCmd.get.at 100).exec bump.key stored).1 = .reply (sentText 100) ∧
      ¬ Throughout (Respected bump.key) bump.key [storeAt10, KeyCmd.get.at 100]
        noItems none := by
  have hreply := congrArg Prod.fst (get_hundred (t := 100) (by decide) ninety_exec.2 dec_three.1)
  refine ⟨ninety_exec.1, ninety_till, hreply, fun h => ?_⟩
  have hhidden := h.2.1.hidden
  rw [ninety_next] at hhidden
  have hnone := hhidden (by
    rintro ⟨l, ⟨⟩, hvis⟩
    exact lt_irrefl (100 : Int) hvis)
  exact sentText_ne dec_three.1 (Output.reply.inj (hreply.symm.trans hnone))

end UDepot.Memcache
