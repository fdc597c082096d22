import UDepot.McParse

/-! The numbers in the lines of storage and arithmetic commands. The protocol has decimal numbers
in their positions; the front end takes what the conversions of the C library make of the words,
and keeps the results in narrower fields. -/

namespace UDepot.Memcache
open Numerals Option

/-! ## What the protocol says -/

/-- The word is `n` in decimal digits. -/
structure Decimal (w : List UInt8) (n : Nat) : Prop where
  ne_nil : w ≠ []
  digits : ∀ b ∈ w, isDigit b = true
  value : value w = n

structure StorageExact (ts : List (List UInt8)) (c : Cmd) : Prop where
  flags : c.req ≠ .inval → Decimal (ts.getD 2 []) c.flags ∧ c.flags < 2 ^ 32
  vlen : c.req ≠ .inval → ∃ n, Decimal (ts.getD 4 []) n ∧ (n : Int) ≤ intMax - 2 ∧ c.vlen = n
  noreply : c.noreply = true ↔ ts.length = 6 ∧ ts.getLastD [] = ascii "noreply"

structure ArithExact (ts : List (List UInt8)) (c : Cmd) : Prop where
  delta : c.req ≠ .inval → Decimal (ts.getD 2 []) c.num ∧ c.num < 2 ^ 64
  noreply : c.noreply = true ↔ ts.length = 4 ∧ ts.getLastD [] = ascii "noreply"

/-- A line is accepted only with the numbers of the protocol, which are used unchanged, and
without a reply exactly if it says so. -/
def Exact (curTime : Int) (line : List UInt8) : Prop :=
  (storeReq ((tokenizeCommand line).getD 0 []) ≠ none →
    StorageExact (tokenizeCommand line) (parse curTime {} line)) ∧
  (arithReq ((tokenizeCommand line).getD 0 []) ≠ none →
    ArithExact (tokenizeCommand line) (parse curTime {} line))

/-! ## How the words are read -/

/-- The C library reads an unsigned number, and what is checked of the sign holds. -/
structure ReadsUnsigned (w : List UInt8) : Prop where
  ok : (strto w).ok = true
  lt : value (strto w).digits < 2 ^ 64
  neg : (strto w).neg = true → value (strto w).digits = 0 ∨ 2 ^ 63 < value (strto w).digits
  pos : (strto w).neg = false → 45 ∈ w → value (strto w).digits < 2 ^ 63

def longOf (w : List UInt8) : Int :=
  if (strto w).neg then -value (strto w).digits else value (strto w).digits

structure ReadsSigned (w : List UInt8) : Prop where
  ok : (strto w).ok = true
  ge : -2 ^ 63 ≤ longOf w
  lt : longOf w < 2 ^ 63

def PlainBelow (w : List UInt8) (bound : Nat) : Prop :=
  (∀ b ∈ w, isDigit b = true) ∧ value w < bound

def NoreplyPlain (ts : List (List UInt8)) (n : Nat) : Prop :=
  (ts.getLastD []).isPrefixOf (ascii "noreply") = true →
    ts.length = n ∧ ts.getLastD [] = ascii "noreply"

/-- If everything in the line is read as a number, then flags and byte count are plain. -/
structure StoragePlain (ts : List (List UInt8)) : Prop where
  noreply : NoreplyPlain ts 6
  numbers : (ts.getD 1 []).length ≤ maxKeyLength → ReadsUnsigned (ts.getD 2 []) →
    ReadsSigned (ts.getD 3 []) → ReadsSigned (ts.getD 4 []) →
      longOf (ts.getD 4 []) % 2 ^ 32 ≤ intMax - 2 →
        PlainBelow (ts.getD 2 []) (2 ^ 32) ∧ PlainBelow (ts.getD 4 []) (2 ^ 31 - 2)

structure ArithPlain (ts : List (List UInt8)) : Prop where
  noreply : NoreplyPlain ts 4
  delta : (ts.getD 1 []).length ≤ maxKeyLength → ReadsUnsigned (ts.getD 2 []) →
    ∀ b ∈ ts.getD 2 [], isDigit b = true

/-! ## The conversions -/

variable {w name : List UInt8} {req : Req}

theorem mem_of_neg (h : (strto w).neg = true) : 45 ∈ w := by
  have hhead : (w.dropWhile isspace).head? = some 45 := of_decide_eq_true h
  exact (List.dropWhile_sublist _).mem (List.mem_of_mem_head? hhead)

/-- The number of an unsigned conversion, which counts back from `2 ^ 64` for a sign. -/
def ulongOf (w : List UInt8) : Nat :=
  if (strto w).neg then (2 ^ 64 - value (strto w).digits) % 2 ^ 64 else value (strto w).digits

/-- The check for a sign, which is made only of large numbers. -/
theorem sign_checked (hlt : value (strto w).digits < 2 ^ 64) :
    (2 ^ 63 ≤ ulongOf w ∧ 45 ∈ w) ↔
      ¬ (((strto w).neg = true → value (strto w).digits = 0 ∨ 2 ^ 63 < value (strto w).digits) ∧
        ((strto w).neg = false → 45 ∈ w → value (strto w).digits < 2 ^ 63)) := by
  rw [ulongOf]
  cases hneg : (strto w).neg with
  | true =>
    have hmem := mem_of_neg hneg
    simp only [if_true, hmem, and_true, true_imp_iff, Bool.true_eq_false, false_imp_iff]
    omega
  | false =>
    simp only [Bool.false_eq_true, if_false, false_imp_iff, true_and, true_imp_iff,
      Classical.not_imp, Nat.not_lt]
    exact and_comm

theorem safeStrtou_eq_some_iff {width : Nat} {n : Nat} :
    safeStrtou width w = some n ↔ ReadsUnsigned w ∧ ulongOf w % 2 ^ width = n := by
  rw [safeStrtou, ← ulongOf]
  by_cases hlt : 2 ^ 64 ≤ value (strto w).digits
  · rw [if_pos hlt]
    exact iff_of_false (by simp) fun h => absurd h.1.lt (Nat.not_lt.mpr hlt)
  · rw [if_neg hlt]
    by_cases hok : (strto w).ok = true
    · rw [if_pos hok]
      have hs := sign_checked (Nat.not_le.mp hlt)
      by_cases hbad : 2 ^ 63 ≤ ulongOf w ∧ 45 ∈ w
      · rw [if_pos hbad]
        exact iff_of_false (by simp) fun h => hs.mp hbad ⟨h.1.neg, h.1.pos⟩
      · rw [if_neg hbad, some.injEq]
        obtain ⟨h1, h2⟩ := not_not.mp fun h => hbad (hs.mpr h)
        exact ⟨fun h => ⟨⟨hok, Nat.not_le.mp hlt, h1, h2⟩, h⟩, fun h => h.2⟩
    · rw [if_neg hok]
      exact iff_of_false (by simp) fun h => hok h.1.ok

theorem safeStrtol_eq_some_iff {x : Int} :
    safeStrtol w = some x ↔ ReadsSigned w ∧ longOf w = x := by
  rw [safeStrtol, ← longOf]
  by_cases hrange : longOf w < -2 ^ 63 ∨ 2 ^ 63 ≤ longOf w
  · rw [if_pos hrange]
    refine iff_of_false (by simp) fun h => ?_
    have h1 := h.1.ge
    have h2 := h.1.lt
    omega
  · rw [if_neg hrange]
    by_cases hok : (strto w).ok = true
    · rw [if_pos hok, some.injEq]
      exact ⟨fun h => ⟨⟨hok, by omega, by omega⟩, h⟩, fun h => h.2⟩
    · rw [if_neg hok]
      exact iff_of_false (by simp) fun h => hok h.1.ok

/-! ## Plain words -/

theorem ne_nil_of_ok (h : (strto w).ok = true) : w ≠ [] := by
  rintro rfl
  exact absurd h (by decide)

theorem ulongOf_digits (hne : w ≠ []) (hd : ∀ b ∈ w, isDigit b = true) : ulongOf w = value w := by
  rw [ulongOf, strto_digits hne hd]
  rfl

theorem longOf_digits (hne : w ≠ []) (hd : ∀ b ∈ w, isDigit b = true) : longOf w = value w := by
  rw [longOf, strto_digits hne hd]
  rfl

/-- An unsigned number is taken over unchanged exactly if it is plain. -/
theorem decimal_unsigned_iff (width : Nat) (h : ReadsUnsigned w) :
    Decimal w (ulongOf w % 2 ^ width) ↔ PlainBelow w (2 ^ width) := by
  have hne := ne_nil_of_ok h.ok
  constructor
  · intro hdec
    refine ⟨hdec.digits, ?_⟩
    rw [hdec.value]
    exact Nat.mod_lt _ (Nat.two_pow_pos width)
  · rintro ⟨hd, hlt⟩
    exact ⟨hne, hd, by rw [ulongOf_digits hne hd, Nat.mod_eq_of_lt hlt]⟩

theorem bmod_in_range_iff (x : Int) :
    (¬ (x.bmod (2 ^ 32) < 0 ∨ intMax - 2 < x.bmod (2 ^ 32))) ↔ x % 2 ^ 32 ≤ intMax - 2 := by
  rw [Int.bmod_def, intMax]
  omega

theorem decimal_signed_iff (h : ReadsSigned w) :
    (∃ n, Decimal w n ∧ (n : Int) ≤ intMax - 2 ∧ (longOf w).bmod (2 ^ 32) = n) ↔
      PlainBelow w (2 ^ 31 - 2) := by
  have hne := ne_nil_of_ok h.ok
  rw [intMax] at *
  constructor
  · rintro ⟨n, hdec, hle, -⟩
    refine ⟨hdec.digits, ?_⟩
    rw [hdec.value]
    omega
  · rintro ⟨hd, hlt⟩
    refine ⟨value w, ⟨hne, hd, rfl⟩, by omega, ?_⟩
    rw [longOf_digits hne hd, Int.bmod_def]
    omega

/-! ## The lines -/

theorem prefix_noreply_iff (ts : List (List UInt8)) (n : Nat) :
    ((ts.getLastD []).isPrefixOf (ascii "noreply") = true ↔
      ts.length = n ∧ ts.getLastD [] = ascii "noreply") ↔ NoreplyPlain ts n := by
  refine ⟨fun h => h.mp, fun h => ⟨h, fun ⟨_, hw⟩ => ?_⟩⟩
  rw [hw]
  decide

theorem parseStorageArguments_noreply (curTime : Int) (cmd : Cmd) :
    (parseStorageArguments curTime cmd).noreply = (cmd.noreply || saysNoreply cmd) := by
  rw [parseStorageArguments]
  dsimp only
  split
  · rfl
  · split
    · split <;> rfl
    · rfl

theorem parseArithmeticArguments_noreply (cmd : Cmd) :
    (parseArithmeticArguments cmd).noreply = (cmd.noreply || saysNoreply cmd) := by
  rw [parseArithmeticArguments]
  dsimp only
  split
  · rfl
  · split <;> rfl

/-- The arguments of a storage command are read as numbers, the byte count in an `int`. -/
structure StorageReads (ts : List (List UInt8)) : Prop where
  key : (ts.getD 1 []).length ≤ maxKeyLength
  flags : ReadsUnsigned (ts.getD 2 [])
  expiry : ReadsSigned (ts.getD 3 [])
  vlen : ReadsSigned (ts.getD 4 [])
  vlenInt : longOf (ts.getD 4 []) % 2 ^ 32 ≤ intMax - 2

theorem parseStorageArguments_reads (curTime : Int) (cmd : Cmd) :
    (StorageReads cmd.tokens ∧ (parseStorageArguments curTime cmd).req = cmd.req ∧
      (parseStorageArguments curTime cmd).flags = ulongOf (cmd.tokens.getD 2 []) % 2 ^ 32 ∧
      (parseStorageArguments curTime cmd).vlen = (longOf (cmd.tokens.getD 4 [])).bmod (2 ^ 32)) ∨
    (¬ StorageReads cmd.tokens ∧ (parseStorageArguments curTime cmd).req = .inval) := by
  rw [parseStorageArguments]
  simp only [tok]
  split
  · rename_i hkey
    exact .inr ⟨fun h => absurd h.key (Nat.not_le.mpr hkey), rfl⟩
  · rename_i hkey
    split
    · rename_i flags expiry vlen hflags hexpiry hvlen
      obtain ⟨hf, rfl⟩ := safeStrtou_eq_some_iff.mp hflags
      obtain ⟨he, rfl⟩ := safeStrtol_eq_some_iff.mp hexpiry
      obtain ⟨hv, rfl⟩ := safeStrtol_eq_some_iff.mp hvlen
      have hin := bmod_in_range_iff (longOf (cmd.tokens.getD 4 []))
      split
      · rename_i hout
        exact .inr ⟨fun h => hin.mpr h.vlenInt hout, rfl⟩
      · rename_i hout
        exact .inl ⟨⟨Nat.not_lt.mp hkey, hf, he, hv, hin.mp hout⟩, rfl, rfl, rfl⟩
    · rename_i hnone
      refine .inr ⟨fun h => ?_, rfl⟩
      exact hnone _ _ _ (safeStrtou_eq_some_iff.mpr ⟨h.flags, rfl⟩)
        (safeStrtol_eq_some_iff.mpr ⟨h.expiry, rfl⟩) (safeStrtol_eq_some_iff.mpr ⟨h.vlen, rfl⟩)

theorem parseArithmeticArguments_reads (cmd : Cmd) :
    (((cmd.tokens.getD 1 []).length ≤ maxKeyLength ∧ ReadsUnsigned (cmd.tokens.getD 2 [])) ∧
      (parseArithmeticArguments cmd).req = cmd.req ∧
      (parseArithmeticArguments cmd).num = ulongOf (cmd.tokens.getD 2 []) % 2 ^ 64) ∨
    (¬ ((cmd.tokens.getD 1 []).length ≤ maxKeyLength ∧ ReadsUnsigned (cmd.tokens.getD 2 [])) ∧
      (parseArithmeticArguments cmd).req = .inval) := by
  unfold parseArithmeticArguments
  dsimp only
  split
  · rename_i hkey
    exact .inr ⟨fun h => absurd h.1 (Nat.not_le.mpr hkey), rfl⟩
  · rename_i hkey
    split
    · rename_i hdelta
      refine .inr ⟨fun h => ?_, rfl⟩
      have hread : safeStrtoull (cmd.tokens.getD 2 []) = some _ :=
        safeStrtou_eq_some_iff.mpr ⟨h.2, rfl⟩
      exact absurd (hdelta.symm.trans hread) (some_ne_none _).symm
    · rename_i delta hdelta
      obtain ⟨hd, rfl⟩ := safeStrtou_eq_some_iff.mp hdelta
      exact .inl ⟨⟨Nat.not_lt.mp hkey, hd⟩, rfl, rfl⟩

theorem storageExact_iff {curTime : Int} (hreq : req ≠ .inval) (ts : List (List UInt8)) :
    StorageExact ts (parseStorageArguments curTime { req, tokens := ts }) ↔ StoragePlain ts := by
  have hno := parseStorageArguments_noreply curTime { req, tokens := ts }
  have hreads := parseStorageArguments_reads curTime { req, tokens := ts }
  rw [Bool.false_or, saysNoreply] at hno
  generalize parseStorageArguments curTime { req, tokens := ts } = c at *
  have hnoreply : (c.noreply = true ↔ ts.length = 6 ∧ ts.getLastD [] = ascii "noreply") ↔
      NoreplyPlain ts 6 := by
    rw [hno]
    exact prefix_noreply_iff ts 6
  rcases hreads with ⟨hr, hc, hflags, hvlen⟩ | ⟨hr, hc⟩
  · have hacc : c.req ≠ .inval := hc ▸ hreq
    have hlt : c.flags < 2 ^ 32 := by
      rw [hflags]
      exact Nat.mod_lt _ (Nat.two_pow_pos 32)
    have hplain := decimal_unsigned_iff 32 hr.flags
    have hbytes := decimal_signed_iff hr.vlen
    rw [← hvlen] at hbytes
    rw [← hflags] at hplain
    constructor
    · intro h
      exact ⟨hnoreply.mp h.noreply, fun _ _ _ _ _ =>
        ⟨hplain.mp (h.flags hacc).1, hbytes.mp (h.vlen hacc)⟩⟩
    · intro h
      obtain ⟨hf, hv⟩ := h.numbers hr.key hr.flags hr.expiry hr.vlen hr.vlenInt
      exact ⟨fun _ => ⟨hplain.mpr hf, hlt⟩, fun _ => hbytes.mpr hv, hnoreply.mpr h.noreply⟩
  · constructor
    · intro h
      exact ⟨hnoreply.mp h.noreply, fun h1 h2 h3 h4 h5 => absurd ⟨h1, h2, h3, h4, h5⟩ hr⟩
    · intro h
      exact ⟨fun hn => absurd hc hn, fun hn => absurd hc hn, hnoreply.mpr h.noreply⟩

theorem arithExact_iff (hreq : req ≠ .inval) (ts : List (List UInt8)) :
    ArithExact ts (parseArithmeticArguments { req, tokens := ts }) ↔ ArithPlain ts := by
  have hno := parseArithmeticArguments_noreply { req, tokens := ts }
  have hreads := parseArithmeticArguments_reads { req, tokens := ts }
  rw [Bool.false_or, saysNoreply] at hno
  generalize parseArithmeticArguments { req, tokens := ts } = c at *
  have hnoreply : (c.noreply = true ↔ ts.length = 4 ∧ ts.getLastD [] = ascii "noreply") ↔
      NoreplyPlain ts 4 := by
    rw [hno]
    exact prefix_noreply_iff ts 4
  rcases hreads with ⟨⟨hkey, hr⟩, hc, hnum⟩ | ⟨hr, hc⟩
  · have hacc : c.req ≠ .inval := hc ▸ hreq
    have hlt : c.num < 2 ^ 64 := by
      rw [hnum]
      exact Nat.mod_lt _ (Nat.two_pow_pos 64)
    have hplain := decimal_unsigned_iff 64 hr
    rw [← hnum] at hplain
    constructor
    · intro h
      exact ⟨hnoreply.mp h.noreply, fun _ _ => (h.delta hacc).1.digits⟩
    · intro h
      have hd := h.delta hkey hr
      have hv : value (ts.getD 2 []) < 2 ^ 64 := by
        have := hr.lt
        rwa [strto_digits (ne_nil_of_ok hr.ok) hd] at this
      exact ⟨fun _ => ⟨hplain.mpr ⟨hd, hv⟩, hlt⟩, hnoreply.mpr h.noreply⟩
  · constructor
    · intro h
      exact ⟨hnoreply.mp h.noreply, fun h1 h2 => absurd ⟨h1, h2⟩ hr⟩
    · intro h
      exact ⟨fun hn => absurd hc hn, hnoreply.mpr h.noreply⟩

theorem storeReq_ne (h : storeReq name = some req) :
    req ≠ .inval ∧ getReq name = none ∧ arithReq name = none := by
  unfold storeReq at h
  split_ifs at h with h1 h2 h3 h4 h5 <;> cases h <;> subst name <;> decide

theorem arithReq_ne (h : arithReq name = some req) :
    req ≠ .inval ∧ getReq name = none ∧ storeReq name = none := by
  unfold arithReq at h
  split_ifs at h with h1 h2 <;> cases h <;> subst name <;> decide

/-- The number of words of a storage command, and of an arithmetic one. -/
def StorageCount (ts : List (List UInt8)) : Prop := ts.length = 5 ∨ ts.length = 6
def ArithCount (ts : List (List UInt8)) : Prop := ts.length = 3 ∨ ts.length = 4

theorem parse_miscounted (curTime : Int) {line : List UInt8} {args : List (List UInt8)}
    (ht : tokenizeCommand line = name :: args)
    (hs : (∃ req, storeReq name = some req) ∧ ¬ StorageCount (name :: args) ∨
      (∃ req, arithReq name = some req) ∧ ¬ ArithCount (name :: args)) :
    (parse curTime {} line).req = .inval ∧ (parse curTime {} line).noreply = false := by
  rcases hs with ⟨⟨req, hreq⟩, hcount⟩ | ⟨⟨req, hreq⟩, hcount⟩
  · obtain ⟨-, hget, -⟩ := storeReq_ne hreq
    rw [StorageCount, List.length_cons] at hcount
    rw [parse_storage ht hget hreq, if_neg (by omega)]
    exact ⟨rfl, rfl⟩
  · obtain ⟨-, hget, hstore⟩ := arithReq_ne hreq
    rw [ArithCount, List.length_cons] at hcount
    rw [parse_arithmetic ht hget hstore hreq, if_neg (by omega)]
    exact ⟨rfl, rfl⟩

/-- Every line of a storage or arithmetic command is read as the protocol says exactly if the words
that the C library reads as numbers are plain ones of the field's width, and the last word is not
a part of the word that ends a line without reply. -/
theorem parse_exact_iff (curTime : Int) (line : List UInt8) :
    Exact curTime line ↔
      (storeReq ((tokenizeCommand line).getD 0 []) ≠ none → StorageCount (tokenizeCommand line) →
        StoragePlain (tokenizeCommand line)) ∧
      (arithReq ((tokenizeCommand line).getD 0 []) ≠ none → ArithCount (tokenizeCommand line) →
        ArithPlain (tokenizeCommand line)) := by
  cases hts : tokenizeCommand line with
  | nil =>
    unfold Exact
    rw [hts]
    exact iff_of_true ⟨fun h => absurd rfl h, fun h => absurd rfl h⟩
      ⟨fun h => absurd rfl h, fun h => absurd rfl h⟩
  | cons name args =>
    unfold Exact
    rw [hts, List.getD_cons_zero]
    refine and_congr (forall_congr' fun hname => ?_) (forall_congr' fun hname => ?_)
    · obtain ⟨req, hreq⟩ := ne_none_iff_exists'.mp hname
      obtain ⟨hinval, hget, -⟩ := storeReq_ne hreq
      by_cases hcount : StorageCount (name :: args)
      · have hargs : args.length = 4 ∨ args.length = 5 := by
          unfold StorageCount at hcount
          rw [List.length_cons] at hcount
          omega
        rw [parse_storage hts hget hreq, if_pos hargs, storageExact_iff hinval]
        exact (imp_iff_right hcount).symm
      · obtain ⟨hr, hn⟩ := parse_miscounted curTime hts (.inl ⟨⟨req, hreq⟩, hcount⟩)
        refine iff_of_true ⟨fun h => absurd hr h, fun h => absurd hr h, ?_⟩ fun h => absurd h hcount
        rw [hn]
        exact iff_of_false (by simp) fun h => hcount (.inr h.1)
    · obtain ⟨req, hreq⟩ := ne_none_iff_exists'.mp hname
      obtain ⟨hinval, hget, hstore⟩ := arithReq_ne hreq
      by_cases hcount : ArithCount (name :: args)
      · have hargs : args.length = 2 ∨ args.length = 3 := by
          unfold ArithCount at hcount
          rw [List.length_cons] at hcount
          omega
        rw [parse_arithmetic hts hget hstore hreq, if_pos hargs, arithExact_iff hinval]
        exact (imp_iff_right hcount).symm
      · obtain ⟨hr, hn⟩ := parse_miscounted curTime hts (.inr ⟨⟨req, hreq⟩, hcount⟩)
        refine iff_of_true ⟨fun h => absurd hr h, ?_⟩ fun h => absurd h hcount
        rw [hn]
        exact iff_of_false (by simp) fun h => hcount (.inr h.1)

/-- Flags of `2 ^ 32` and a byte count of `2 ^ 32 + 1` are accepted as 0 and 1, a delta with a sign
as a large number, and a part of a word as the word. -/
theorem parse_slips :
    (parse 0 {} (ascii "set k 4294967296 0 4294967297")).req = .set ∧
      (parse 0 {} (ascii "set k 4294967296 0 4294967297")).flags = 0 ∧
      (parse 0 {} (ascii "set k 4294967296 0 4294967297")).vlen = 1 ∧
      (parse 0 {} (ascii "incr k -9223372036854775809 no")).req = .incr ∧
      (parse 0 {} (ascii "incr k -9223372036854775809 no")).num = 9223372036854775807 ∧
      (parse 0 {} (ascii "incr k -9223372036854775809 no")).noreply = true ∧
      ¬ Exact 0 (ascii "set k 4294967296 0 4294967297") ∧
      ¬ Exact 0 (ascii "incr k -9223372036854775809 no") := by
  refine ⟨by decide, by decide, by decide, by decide, by decide, by decide, fun h => ?_,
    fun h => ?_⟩
  · have hflags := (h.1 (by decide)).flags (by decide)
    exact absurd hflags.1.value (by decide)
  · have hno := (h.2 (by decide)).noreply.mp (by decide)
    exact absurd hno.2 (by decide)

end UDepot.Memcache
