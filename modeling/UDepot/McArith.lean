import UDepot.McArgs
import UDepot.McAtomic

/-! `incr` and `decr` against the law of their numbers. The handler takes the data of an item for a
number only if they have more than two and at most 20 characters, and then what `strtoull` makes of
them. -/

namespace UDepot.Memcache
open Numerals Bytes Config Phases List
open Store (Errno KvMap)

/-! ## The law -/

inductive Arith where
  | incr (delta : Fin (2 ^ 64))
  | decr (delta : Fin (2 ^ 64))

def Arith.cmd : Arith → Rmw
  | .incr delta => .incr delta
  | .decr delta => .decr delta

/-- The number that the command is to make of one. -/
def Arith.result : Arith → Nat → Nat
  | .incr delta, n => (n + delta) % 2 ^ 64
  | .decr delta, n => n - delta

def Arith.on (a : Arith) (key : Key) (env env' : Env) : Issue := ⟨a.cmd, key, env, env'⟩

/-- The data of an item: with expiry and flags behind them, their size has 32 bits. -/
structure ItemData where
  val : List UInt8
  small : val.length + trailerSize < 2 ^ 32

/-- The Mbuff with the key, as an arithmetic command gets its item with it. -/
def arithMb (env : Env) (key : List UInt8) (mb : Mbuff) : Mbuff :=
  arithKey key (mb.resliceZero.mbuffAddBuffers env.alloc (arithSize key))

def itemOf : Option Errno × Mbuff → Option Mbuff
  | (some _, _) => none
  | (none, old) => some old

/-- The item that an arithmetic command finds, if it has memory. -/
def Issue.found (c : Issue) (m : KvMap) (mb : Mbuff) : Option Mbuff :=
  if (mb.resliceZero.mbuffAddBuffers c.env.alloc (arithSize c.key.val)).freeSize <
      arithSize c.key.val then none
  else itemOf (kvGetForMc c.env m (arithMb c.env c.key.val mb) .empty)

/-- What the store says to the `put` of a new number. -/
def Issue.putErr (c : Issue) (m : KvMap) (mb old : Mbuff) (num : Nat) : Option Errno :=
  (c.env'.put m (arithItem c.key.val num (arithMb c.env c.key.val mb) old)
    c.key.val.length .normal).1

/-- The new number is stored with the old expiry and flags and returned, if the store takes it.
The first line is the assertion of the handler. -/
structure Counted (c : Issue) (m : KvMap) (mb old : Mbuff) (num : Nat) (trailer : List UInt8) :
    Prop where
  asserts : trailerSize < old.validSize
  stored : c.putErr m mb old num = none → (rmw.exec c m mb).1 = .number (dec num ++ crlf) ∧
    (rmw.exec c m mb).2.1 = Function.update m c.key.val (some (dec num ++ trailer))
  failed : c.putErr m mb old num ≠ none → (rmw.exec c m mb).1 = .rsp .serverError ∧
    (rmw.exec c m mb).2.1 = m

structure Refused (c : Issue) (m : KvMap) (mb old : Mbuff) : Prop where
  asserts : trailerSize < old.validSize
  answer : (rmw.exec c m mb).1 = .rsp .clientErrorNonNumeric
  unchanged : (rmw.exec c m mb).2.1 = m

/-- The law for the data of an item, in every store and with every expiry and flags: of a number
comes the result, of which the next command makes its own, and what is no number is refused. -/
structure Arith.Law (a : Arith) (data : List UInt8) : Prop where
  number : ∀ {n : Nat}, Decimal data n → n < 2 ^ 64 → ∀ {key : Key} {env env' : Env}
    {trailer : List UInt8} {m : KvMap} {mb old : Mbuff}, trailer.length = trailerSize →
    m key.val = some (data ++ trailer) → mb.Good → (a.on key env env').found m mb = some old →
      Counted (a.on key env env') m mb old (a.result n) trailer ∧
      ((a.on key env env').putErr m mb old (a.result n) = none →
        ∀ (next : Arith) {env₂ env₂' : Env} {mb₂ old₂ : Mbuff}, mb₂.Good →
          (next.on key env₂ env₂').found (rmw.exec (a.on key env env') m mb).2.1 mb₂ = some old₂ →
            Counted (next.on key env₂ env₂') (rmw.exec (a.on key env env') m mb).2.1 mb₂ old₂
              (next.result (a.result n)) trailer)
  other : (∀ n, Decimal data n → 2 ^ 64 ≤ n) → ∀ {key : Key} {env env' : Env}
    {trailer : List UInt8} {m : KvMap} {mb old : Mbuff}, trailer.length = trailerSize →
    m key.val = some (data ++ trailer) → mb.Good → (a.on key env env').found m mb = some old →
      Refused (a.on key env env') m mb old

structure Regular (a : Arith) (data : List UInt8) : Prop where
  ne_nil : data ≠ []
  number : ∀ {n : Nat}, Decimal data n → n < 2 ^ 64 →
    3 ≤ data.length ∧ data.length ≤ 20 ∧ 100 ≤ a.result n
  other : (∀ n, Decimal data n → 2 ^ 64 ≤ n) →
    data.length ≤ 2 ∨ 20 < data.length ∨ ¬ ReadsUnsigned (data.takeWhile (· ≠ 0))

/-! ## Numbers -/

variable {n num : Nat} {trailer data : List UInt8}

theorem Arith.result_lt (a : Arith) (h : n < 2 ^ 64) : a.result n < 2 ^ 64 := by
  cases a with
  | incr delta => exact Nat.mod_lt _ (Nat.two_pow_pos 64)
  | decr delta => exact Nat.lt_of_le_of_lt (Nat.sub_le _ _) h

theorem Arith.cmd_arith (a : Arith) (n : Nat) : a.cmd.arith n = a.result n := by
  cases a with
  | incr delta =>
    change (delta.val + n) % 2 ^ 64 = (n + delta.val) % 2 ^ 64
    rw [Nat.add_comm]
  | decr delta =>
    change (if n < delta.val then 0 else n - delta.val) = n - delta.val
    split <;> omega

theorem Decimal.readsUnsigned {w : List UInt8} (h : Decimal w n) (hn : n < 2 ^ 64) :
    ReadsUnsigned w := by
  have hs := strto_digits h.ne_nil h.digits
  constructor
  · rw [hs]
    obtain ⟨d, ds, rfl⟩ := exists_cons_of_ne_nil h.ne_nil
    rfl
  · rw [hs]
    exact h.value.trans_lt hn
  · intro hneg
    rw [hs] at hneg
    exact Bool.noConfusion hneg
  · intro _ hmem
    exact absurd rfl (isDigit_gt (h.digits 45 hmem)).2.2.1

theorem decimal_dec (n : Nat) : Decimal (dec n) n :=
  ⟨dec_ne_nil n, fun _ => isDigit_of_mem_dec, value_dec n⟩

theorem numberOf_append (data : List UInt8) (ht : trailer.length = trailerSize) :
    numberOf (data ++ trailer) = if data.length ≤ 2 ∨ 20 < data.length then none
      else safeStrtoull (data.takeWhile (· ≠ 0)) := by
  rw [numberOf, dataOf_append data ht]

theorem Decimal.numberOf (h : Decimal data n) (hn : n < 2 ^ 64) (h3 : 3 ≤ data.length)
    (h20 : data.length ≤ 20) (ht : trailer.length = trailerSize) :
    numberOf (data ++ trailer) = some n := by
  rw [numberOf_append data ht, if_neg (by omega), takeWhile_digits h.digits]
  refine safeStrtou_eq_some_iff.mpr ⟨h.readsUnsigned hn, ?_⟩
  rw [ulongOf_digits h.ne_nil h.digits, h.value, Nat.mod_eq_of_lt hn]

/-! ## One command -/

section Command

variable {a : Arith} {key : Key} {env env' : Env} {m : KvMap} {mb old : Mbuff}

theorem Arith.on_found (hmb : mb.Good) (h : (a.on key env env').found m mb = some old) :
    Roomy key.val (arithMb env key.val mb) ∧ (∃ v, m key.val = some v ∧ Old key.val v old) ∧
      rmw.start (a.on key env env') m mb =
        arithNumber (arithMb env key.val mb) old (oldNumber old) := by
  have hstart : rmw.start (a.on key env env') m mb = arithGet env m key.val mb := by
    cases a <;> rfl
  change (if (mb.resliceZero.mbuffAddBuffers env.alloc (arithSize key.val)).freeSize <
    arithSize key.val then none else _) = some old at h
  by_cases hfree : (mb.resliceZero.mbuffAddBuffers env.alloc (arithSize key.val)).freeSize <
      arithSize key.val
  · rw [if_pos hfree] at h
    cases h
  · rw [if_neg hfree] at h
    obtain ⟨hroom, hb⟩ := arithKey_fresh hmb hfree
    rw [← arithMb] at hroom hb
    rw [hstart, arithGet, if_neg hfree, ← arithMb, arithRead]
    change itemOf (kvGetForMc env m (arithMb env key.val mb) .empty) = some old at h
    cases hget : kvGetForMc env m (arithMb env key.val mb) .empty with
    | mk e old' =>
      rw [hget] at h
      cases e with
      | some e => cases h
      | none =>
        obtain rfl := Option.some.inj h
        have hok := kvGetForMc_ok hroom.good.legit Mbuff.empty_good
          (by rw [hb]; exact key.length_le) hget
        rw [hb] at hok
        exact ⟨hroom, hok, rfl⟩

theorem Arith.exec_none (hmb : mb.Good) (h : (a.on key env env').found m mb = some old)
    (hnum : oldNumber old = none) :
    (rmw.exec (a.on key env env') m mb).1 = .rsp .clientErrorNonNumeric ∧
      (rmw.exec (a.on key env env') m mb).2.1 = m := by
  obtain ⟨-, -, hstart⟩ := Arith.on_found hmb h
  rw [TwoPhase.exec, hstart, hnum]
  exact ⟨rfl, rfl⟩

theorem Arith.exec_some (hmb : mb.Good) (h : (a.on key env env').found m mb = some old) {n : Nat}
    (hnum : oldNumber old = some n) :
    rmw.exec (a.on key env env') m mb =
      arithPut env' m key.val (a.result n) (arithMb env key.val mb) old := by
  obtain ⟨-, -, hstart⟩ := Arith.on_found hmb h
  have hfin : rmw.finish (a.on key env env') m (old, arithMb env key.val mb) =
      arithPut env' m key.val
      (a.cmd.arith ((oldNumber old).getD 0)) (arithMb env key.val mb) old := by
    cases a <;> rfl
  rw [hnum, Option.getD_some, a.cmd_arith] at hfin
  rw [TwoPhase.exec, hstart, hnum]
  exact hfin

theorem arithPut_answer (env : Env) (m : KvMap) (key : List UInt8) (num : Nat) (mb old : Mbuff) :
    (arithPut env m key num mb old).1 =
      (env.put m (arithItem key num mb old) key.length .normal).1.elim (.number (dec num ++ crlf))
        fun _ => .rsp .serverError := by
  rw [arithPut]
  generalize env.put m _ key.length .normal = r
  cases r.1 <;> rfl

theorem arithPut_answer_ne (env : Env) (m : KvMap) (key : List UInt8) (num : Nat) (mb old : Mbuff) :
    (arithPut env m key num mb old).1 ≠ .rsp .clientErrorNonNumeric := by
  rw [arithPut_answer]
  cases (env.put m (arithItem key num mb old) key.length .normal).1 <;> simp

variable {data trailer : List UInt8}

theorem Arith.found_item (hsmall : data.length + trailerSize < 2 ^ 32)
    (ht : trailer.length = trailerSize) (hm : m key.val = some (data ++ trailer)) (hmb : mb.Good)
    (h : (a.on key env env').found m mb = some old) :
    Old key.val (data ++ trailer) old ∧ seen (data ++ trailer) = data ++ trailer ∧
      old.validSize = data.length + trailerSize ∧ oldNumber old = numberOf (data ++ trailer) := by
  obtain ⟨-, ⟨v, hv, hold⟩, -⟩ := Arith.on_found hmb h
  obtain rfl := Option.some.inj (hm.symm.trans hv)
  have hlen : (data ++ trailer).length = data.length + trailerSize := by
    rw [length_append, ht]
  have hseen : seen (data ++ trailer) = data ++ trailer := seen_eq (by rw [hlen]; exact hsmall)
  refine ⟨hold, hseen, ?_, ?_⟩
  · rw [hold.good.legit.validSize_eq, hold.bytes, hseen, hlen]
  · rw [oldNumber_eq hold, hseen]

theorem Counted.of_number {n : Nat} (hsmall : data.length + trailerSize < 2 ^ 32) (hne : data ≠ [])
    (ht : trailer.length = trailerSize) (hm : m key.val = some (data ++ trailer)) (hmb : mb.Good)
    (h : (a.on key env env').found m mb = some old) (hn : n < 2 ^ 64)
    (hnum : numberOf (data ++ trailer) = some n) :
    Counted (a.on key env env') m mb old (a.result n) trailer := by
  obtain ⟨hroom, -⟩ := Arith.on_found hmb h
  obtain ⟨hold, hseen, hsize, hof⟩ := Arith.found_item hsmall ht hm hmb h
  have hexec := Arith.exec_some hmb h (hof.trans hnum)
  have hspec := (arithPut_spec env' m hroom hold (a.result_lt hn)).2
  rw [hseen, trailerOf_append data ht, ← hexec] at hspec
  have hanswer : (rmw.exec (a.on key env env') m mb).1 =
      ((a.on key env env').putErr m mb old (a.result n)).elim
        (.number (dec (a.result n) ++ crlf)) fun _ => .rsp .serverError := by
    rw [hexec]
    exact arithPut_answer ..
  constructor
  · have := length_pos_of_ne_nil hne
    omega
  · intro hput
    rw [hput] at hanswer
    rw [hanswer] at hspec
    exact ⟨hanswer, hspec.2⟩
  · intro hput
    obtain ⟨e, he⟩ := Option.ne_none_iff_exists'.mp hput
    rw [he] at hanswer
    rw [hanswer] at hspec
    exact ⟨hanswer, hspec⟩

theorem Refused.of_none (hsmall : data.length + trailerSize < 2 ^ 32) (hne : data ≠ [])
    (ht : trailer.length = trailerSize) (hm : m key.val = some (data ++ trailer)) (hmb : mb.Good)
    (h : (a.on key env env').found m mb = some old) (hnum : numberOf (data ++ trailer) = none) :
    Refused (a.on key env env') m mb old := by
  obtain ⟨-, -, hsize, hof⟩ := Arith.found_item hsmall ht hm hmb h
  obtain ⟨hans, hun⟩ := Arith.exec_none hmb h (hof.trans hnum)
  have := length_pos_of_ne_nil hne
  exact ⟨by omega, hans, hun⟩

end Command

theorem numberOf_result (hnum : num < 2 ^ 64) (h : 100 ≤ num) (ht : trailer.length = trailerSize) :
    numberOf (dec num ++ trailer) = some num := by
  refine (decimal_dec num).numberOf hnum ?_ (dec_length_le (by decide) (by omega)) ht
  have := mt (dec_length_le_iff (n := num) (show 0 < 2 by decide)).mp (by omega)
  omega

theorem Regular.law {a : Arith} {data : ItemData} (h : Regular a data.val) : a.Law data.val := by
  constructor
  · intro n hdec hn key env env' trailer m mb old ht hm hmb hfound
    obtain ⟨h3, h20, h100⟩ := h.number hdec hn
    have hcount := Counted.of_number data.small h.ne_nil ht hm hmb hfound hn
      (hdec.numberOf hn h3 h20 ht)
    refine ⟨hcount, fun hput next env₂ env₂' mb₂ old₂ hmb₂ hfound₂ => ?_⟩
    have hres := a.result_lt hn
    have hlen : (dec (a.result n)).length ≤ 20 := dec_length_le (by decide) (by omega)
    apply Counted.of_number _ (dec_ne_nil _) ht _ hmb₂ hfound₂ hres (numberOf_result hres h100 ht)
    · rw [trailerSize]
      omega
    · rw [(hcount.stored hput).2]
      exact Function.update_self ..
  · intro hother key env env' trailer m mb old ht hm hmb hfound
    apply Refused.of_none data.small h.ne_nil ht hm hmb hfound
    rw [numberOf_append data.val ht]
    rcases h.other hother with hlen | hlen | hread
    · exact if_pos (.inl hlen)
    · exact if_pos (.inr hlen)
    · split
      · rfl
      · cases hs : safeStrtoull (data.val.takeWhile (· ≠ 0)) with
        | none => rfl
        | some n => exact absurd (safeStrtou_eq_some_iff.mp hs).1 hread

/-! ## Where nothing fails -/

/-- An item that does not expire, with these data, and a store where all items are this one. -/
def lasting (data : List UInt8) : List UInt8 := data ++ List.replicate 12 0
def everywhere (data : List UInt8) : KvMap := fun _ => some (lasting data)

theorem lasting_lasting (h : data.length + trailerSize < 2 ^ 32) : Lasting (lasting data) := by
  have hlen : (lasting data).length = data.length + trailerSize := by
    rw [lasting, length_append, length_replicate, trailerSize]
  refine ⟨by omega, by omega, ?_⟩
  have ht : (List.replicate 12 (0 : UInt8)).length = trailerSize := length_replicate
  rw [lasting, trailerOf_append _ ht]
  decide

theorem Calm.found {env : Env} (h : Calm env) (a : Arith) (key : Key) (env' : Env) {m : KvMap}
    (hm : m key.val = some (data ++ List.replicate 12 0))
    (hsmall : data.length + trailerSize < 2 ^ 32) :
    ∃ old, (a.on key env env').found m .empty = some old := by
  obtain ⟨hfree, hroom, hb, -⟩ := h.arithKey key
  obtain ⟨old, hget⟩ := h.kvGetForMc hroom.good.legit (by rw [hb]; exact hm)
    (lasting_lasting hsmall)
  refine ⟨old, ?_⟩
  change (if (Mbuff.empty.mbuffAddBuffers env.alloc (arithSize key.val)).freeSize <
    arithSize key.val then none else _) = some old
  rw [if_neg (Nat.not_lt.mpr hfree)]
  exact congrArg itemOf hget

theorem Calm.putErr {env : Env} (h : Calm env) {a : Arith} {key : Key} {m : KvMap} {old : Mbuff}
    (hfound : (a.on key env env).found m .empty = some old) (hnum : num < 2 ^ 64) :
    (a.on key env env).putErr m .empty old num = none := by
  obtain ⟨-, hroom, -, hlay⟩ := h.arithKey key
  obtain ⟨-, ⟨v, -, hold⟩, -⟩ := Arith.on_found Mbuff.empty_good hfound
  exact h.put_arithItem m hroom hlay hold hnum

theorem Calm.number_of_counted {env : Env} (h : Calm env) {a : Arith} {key : Key} {m : KvMap}
    {old : Mbuff} (hsmall : data.length + trailerSize < 2 ^ 32) (ht : trailer.length = trailerSize)
    (hm : m key.val = some (data ++ trailer))
    (hfound : (a.on key env env).found m .empty = some old) (hnum : num < 2 ^ 64)
    (hc : Counted (a.on key env env) m .empty old num trailer) :
    numberOf (data ++ trailer) ≠ none := by
  intro hnone
  obtain ⟨-, -, -, hof⟩ := Arith.found_item hsmall ht hm Mbuff.empty_good hfound
  have hans := (Arith.exec_none Mbuff.empty_good hfound (hof.trans hnone)).1
  rw [(hc.stored (h.putErr hfound hnum)).1] at hans
  exact Answer.noConfusion hans

theorem Arith.Law.regular {a : Arith} {data : ItemData} (h : a.Law data.val) :
    Regular a data.val := by
  have hm : everywhere data.val bump.key.val = some (data.val ++ List.replicate 12 0) := rfl
  have ht : (List.replicate 12 (0 : UInt8)).length = trailerSize := length_replicate
  obtain ⟨old, hfound⟩ := calm_calm.found a bump.key calm hm data.small
  obtain ⟨-, -, hsize, hof⟩ := Arith.found_item data.small ht hm Mbuff.empty_good hfound
  constructor
  · intro hnil
    have hno : ∀ n, Decimal data.val n → 2 ^ 64 ≤ n := fun n hdec => absurd hnil hdec.ne_nil
    have hlt := (h.other hno ht hm Mbuff.empty_good hfound).asserts
    rw [hsize, hnil] at hlt
    exact absurd hlt (Nat.lt_irrefl _)
  · intro n hdec hn
    obtain ⟨hcount, hnext⟩ := h.number hdec hn ht hm Mbuff.empty_good hfound
    have hres := a.result_lt hn
    have hput := calm_calm.putErr hfound hres
    have hnum := calm_calm.number_of_counted data.small ht hm hfound hres hcount
    rw [numberOf_append data.val ht] at hnum
    have hlen : ¬ (data.val.length ≤ 2 ∨ 20 < data.val.length) := fun hc => hnum (if_pos hc)
    refine ⟨by omega, by omega, ?_⟩
    -- the next command, on what is stored
    have hm' : (rmw.exec (a.on bump.key calm calm) (everywhere data.val) .empty).2.1
        bump.key.val = some (dec (a.result n) ++ List.replicate 12 0) := by
      rw [(hcount.stored hput).2]
      exact Function.update_self ..
    have hdlen : (dec (a.result n)).length ≤ 20 := dec_length_le (by decide) (by omega)
    have hsmall : (dec (a.result n)).length + trailerSize < 2 ^ 32 := by
      rw [trailerSize]
      omega
    obtain ⟨old₂, hfound₂⟩ := calm_calm.found a bump.key calm hm' hsmall
    have hnum₂ := calm_calm.number_of_counted hsmall ht hm' hfound₂ (a.result_lt hres)
      (hnext hput a Mbuff.empty_good hfound₂)
    rw [numberOf_append _ ht] at hnum₂
    by_contra hlt
    exact hnum₂ (if_pos (.inl ((dec_length_le_iff (by decide)).mpr (by omega))))
  · intro hother
    have hans := (h.other hother ht hm Mbuff.empty_good hfound).answer
    by_contra hc
    rw [not_or, not_or, not_not] at hc
    have hnum : numberOf (data.val ++ List.replicate 12 0) =
        some (ulongOf (data.val.takeWhile (· ≠ 0)) % 2 ^ 64) := by
      rw [numberOf_append data.val ht, if_neg (by omega), safeStrtoull]
      exact safeStrtou_eq_some_iff.mpr ⟨hc.2.2, Eq.refl _⟩
    rw [Arith.exec_some Mbuff.empty_good hfound (hof.trans hnum)] at hans
    exact arithPut_answer_ne _ _ _ _ _ _ hans

/-- The law holds of the data of an item exactly if these are not empty, a number has three to 20
digits and a result of at least three, and what is no number is too short, too long or not taken for
one by `strtoull`. -/
theorem arith_law_iff (a : Arith) (data : ItemData) : a.Law data.val ↔ Regular a data.val :=
  ⟨Arith.Law.regular, Regular.law⟩

/-- An item with four digits. -/
def counter : ItemData := ⟨ascii "1234", by decide⟩

theorem counter_law : (Arith.incr 1).Law counter.val ∧ (Arith.decr 1000).Law counter.val := by
  have hdec : Decimal counter.val 1234 := ⟨by decide, by decide +kernel, by decide +kernel⟩
  have hregular : ∀ {a : Arith}, 100 ≤ a.result 1234 → Regular a counter.val := by
    intro a ha
    refine ⟨hdec.ne_nil, fun {n} hn _ => ⟨by decide, by decide, ?_⟩, fun ho => ?_⟩
    · rwa [← hn.value, hdec.value]
    · exact absurd (ho 1234 hdec) (by decide)
  exact ⟨(arith_law_iff (.incr 1) counter).mpr (hregular (by decide)),
    (arith_law_iff (.decr 1000) counter).mpr (hregular (by decide))⟩

/-- `incr` of an item with the one digit 5: the answer is that it is no number. -/
theorem one_digit_refused :
    Decimal (ascii "5") 5 ∧
      (rmw.exec ((Arith.incr 1).on bump.key calm calm) (everywhere (ascii "5")) .empty).1 =
        .rsp .clientErrorNonNumeric := by
  have hm : everywhere (ascii "5") bump.key.val = some (ascii "5" ++ List.replicate 12 0) := rfl
  have ht : (List.replicate 12 (0 : UInt8)).length = trailerSize := length_replicate
  obtain ⟨old, hfound⟩ := calm_calm.found (.incr 1) bump.key calm hm (by decide)
  obtain ⟨-, -, -, hof⟩ := Arith.found_item (by decide) ht hm Mbuff.empty_good hfound
  exact ⟨⟨by decide, by decide +kernel, by decide⟩,
    (Arith.exec_none Mbuff.empty_good hfound (hof.trans (by decide))).1⟩

end UDepot.Memcache
