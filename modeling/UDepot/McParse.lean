import Mathlib.Data.List.TakeWhile
import UDepot.Lib.Numerals
import UDepot.PutFault

/-! The command lines of the memcache front end: cutting a line into tokens and
reading the arguments. -/

namespace UDepot.Memcache
open Numerals List
open Store (Errno)

/-- `mc_req_type`. -/
inductive Req where
  | inval | get | gets | set | add | replace | append | prepend | cas | incr | decr | del | touch
  | flushAll | quit | watch | lruCrawler | cacheMemlimit | verbosity | slabs | stats | version
deriving DecidableEq

/-- `mc_rsp_type`. -/
inductive Rsp where
  | inval | keyValue | stored | notStored | exist | notFound | touched | deleted | version
  | connectionClose | error | clientErrorFormat | clientErrorNonNumeric | clientErrorBadDataChunk
  | clientErrorBound | serverError | serverErrorUnsupportedMultiget | last
deriving DecidableEq

/-- `cmd`; the tokens without the one that ends them. -/
structure Cmd where
  req : Req := .inval
  rsp : Rsp := .inval
  flags : Nat := 0
  vlen : Int := 0
  expiry : Int := 0
  num : Nat := 0
  err : Option Errno := none
  noreply : Bool := false
  tokens : List (List UInt8) := []
deriving DecidableEq

def maxKeyLength : Nat := 250
def realtimeMaxdelta : Int := 60 * 60 * 24 * 30
def maxTokens : Nat := 512
def intMax : Int := 2 ^ 31 - 1

/-! ## Tokens -/

/-- The loop of `tokenize_command`: `cur` is the token being read, and `room` more
tokens may end inside the loop. -/
def tokenizeLoop : Nat → List UInt8 → List UInt8 → List (List UInt8)
  | _, cur, [] => if cur = [] then [] else [cur]
  | room, cur, c :: rest =>
    if c = 32 then
      if cur = [] then tokenizeLoop room [] rest
      else cur :: (if room = 1 then [] else tokenizeLoop (room - 1) [] rest)
    else tokenizeLoop room (cur ++ [c]) rest

/-- The line is a string: it ends at the first null byte. -/
def tokenizeCommand (command : List UInt8) : List (List UInt8) :=
  tokenizeLoop (maxTokens - 1) [] (command.takeWhile (· ≠ 0))

/-! ## Numbers -/

def isspace (b : UInt8) : Bool := b == 32 || (9 ≤ b && b ≤ 13)

/-- What `strtol` and its like read: sign, digits and the rest at `endptr`. -/
structure Strto where
  neg : Bool
  digits : List UInt8
  rest : List UInt8

def strto (str : List UInt8) : Strto :=
  let s := str.dropWhile isspace
  let neg := s.head? = some 45
  let s := if s.head? = some 45 ∨ s.head? = some 43 then s.tail else s
  ⟨neg, s.takeWhile isDigit, s.dropWhile isDigit⟩

def Strto.ok (r : Strto) : Bool := r.digits ≠ [] && (r.rest.head?.map isspace).getD true

/-- `safe_strtoul` and `safe_strtoull`, that differ in the width of their result. -/
def safeStrtou (width : Nat) (str : List UInt8) : Option Nat :=
  let r := strto str
  let l := if r.neg then (2 ^ 64 - value r.digits) % 2 ^ 64 else value r.digits
  if 2 ^ 64 ≤ value r.digits then none
  else if r.ok then
    if 2 ^ 63 ≤ l ∧ 45 ∈ str then none else some (l % 2 ^ width)
  else none

def safeStrtoul (str : List UInt8) : Option Nat := safeStrtou 32 str

def safeStrtoull (str : List UInt8) : Option Nat := safeStrtou 64 str

def safeStrtol (str : List UInt8) : Option Int :=
  let r := strto str
  let l : Int := if r.neg then -value r.digits else value r.digits
  if l < -2 ^ 63 ∨ 2 ^ 63 ≤ l then none
  else if r.ok then some l
  else none

/-! ## Commands -/

def sanitizeExpTime (curTime expiry : Int) : Int :=
  if expiry < 0 then if curTime ≠ 0 then curTime - 1 else 1
  else if expiry ≠ 0 ∧ expiry ≤ realtimeMaxdelta then expiry + curTime
  else expiry

def tok (cmd : Cmd) (i : Nat) : List UInt8 := cmd.tokens.getD i []

/-- The last token is, as far as it goes, the word. -/
def saysNoreply (cmd : Cmd) : Bool := (cmd.tokens.getLastD []).isPrefixOf (ascii "noreply")

def parseArithmeticArguments (cmd : Cmd) : Cmd :=
  let cmd := { cmd with rsp := .clientErrorFormat, noreply := cmd.noreply || saysNoreply cmd }
  if maxKeyLength < (tok cmd 1).length then { cmd with req := .inval }
  else
    match safeStrtoull (tok cmd 2) with
    | none => { cmd with req := .inval }
    | some delta => { cmd with num := delta, rsp := .inval }

def parseStorageArguments (curTime : Int) (cmd : Cmd) : Cmd :=
  let cmd := { cmd with rsp := .clientErrorFormat, noreply := cmd.noreply || saysNoreply cmd }
  if maxKeyLength < (tok cmd 1).length then { cmd with req := .inval }
  else
    match safeStrtoul (tok cmd 2), safeStrtol (tok cmd 3), safeStrtol (tok cmd 4) with
    | some flags, some expiry, some vlen =>
      let expiry := if expiry ≠ 0 then sanitizeExpTime curTime expiry else expiry
      -- the length is kept in 32 bits before it is checked
      let vlen : Int := vlen.bmod (2 ^ 32)
      if vlen < 0 ∨ intMax - 2 < vlen then { cmd with flags, expiry, vlen, req := .inval }
      else { cmd with flags, expiry, vlen, rsp := .inval }
    | _, _, _ => { cmd with req := .inval }

/-- The storage commands by their names. -/
def storeReq (name : List UInt8) : Option Req :=
  if name = ascii "add" then some .add
  else if name = ascii "set" then some .set
  else if name = ascii "replace" then some .replace
  else if name = ascii "prepend" then some .prepend
  else if name = ascii "append" then some .append
  else none

def arithReq (name : List UInt8) : Option Req :=
  if name = ascii "incr" then some .incr
  else if name = ascii "decr" then some .decr
  else none

def getReq (name : List UInt8) : Option Req :=
  if name = ascii "get" then some .get
  else if name = ascii "gets" then some .gets
  else if name = ascii "bget" then some .get
  else none

/-- The commands that are recognised and not implemented, and `quit`. -/
def otherReq (name : List UInt8) (ntokens : Nat) : Option Req :=
  if (ntokens = 7 ∨ ntokens = 8) ∧ name = ascii "cas" then some .cas
  else if 3 ≤ ntokens ∧ ntokens ≤ 5 ∧ name = ascii "delete" then some .del
  else if (ntokens = 4 ∨ ntokens = 5) ∧ name = ascii "touch" then some .touch
  else if 2 ≤ ntokens ∧ name = ascii "stats" then some .stats
  else if 2 ≤ ntokens ∧ ntokens ≤ 4 ∧ name = ascii "flush_all" then some .flushAll
  else if ntokens = 2 ∧ name = ascii "version" then some .version
  else if ntokens = 2 ∧ name = ascii "quit" then some .quit
  else if ntokens = 2 ∧ name = ascii "shutdown" then some .quit
  else if 1 < ntokens ∧ name = ascii "slabs" then some .slabs
  else if 1 < ntokens ∧ name = ascii "lru_crawler" then some .lruCrawler
  else if 1 < ntokens ∧ name = ascii "watch" then some .watch
  else if (ntokens = 3 ∨ ntokens = 4) ∧ name = ascii "cache_memlimit" then some .cacheMemlimit
  else if (ntokens = 3 ∨ ntokens = 4) ∧ name = ascii "verbosity" then some .verbosity
  else none

def parse (curTime : Int) (cmd : Cmd) (line : List UInt8) : Cmd :=
  let cmd := { cmd with tokens := tokenizeCommand line }
  let ntokens := cmd.tokens.length + 1
  let name := tok cmd 0
  match getReq name, storeReq name, arithReq name with
  | some req, _, _ => if 3 ≤ ntokens then { cmd with req } else { cmd with rsp := .error }
  | none, some req, _ =>
    if ntokens = 6 ∨ ntokens = 7 then parseStorageArguments curTime { cmd with req }
    else { cmd with rsp := .error }
  | none, none, some req =>
    if ntokens = 4 ∨ ntokens = 5 then parseArithmeticArguments { cmd with req }
    else { cmd with rsp := .error }
  | none, none, none =>
    match otherReq name ntokens with
    | some req => { cmd with req }
    | none => { cmd with rsp := .error }

/-! ## Well-formed requests -/

/-- A key of a well-formed request: no white space and no control characters. -/
structure Key where
  val : List UInt8
  ne_nil : val ≠ []
  length_le : val.length ≤ maxKeyLength
  graphic : ∀ b ∈ val, 32 < b ∧ b ≠ 127
deriving DecidableEq

def decInt (x : Int) : List UInt8 := if x < 0 then 45 :: dec x.natAbs else dec x.natAbs

def crlf : List UInt8 := [13, 10]

/-! ## Tokens of a line -/

variable {w : List UInt8} {b : UInt8} {n : Nat} {curTime : Int}

theorem isDigit_gt (h : isDigit b = true) : 32 < b ∧ isspace b = false ∧ b ≠ 45 ∧ b ≠ 43 := by
  simp only [isDigit, Bool.and_eq_true, decide_eq_true_eq] at h
  obtain ⟨h1, h2⟩ := h
  have h1' := UInt8.le_iff_toNat_le.mp h1
  simp only [UInt8.reduceToNat] at h1'
  refine ⟨UInt8.lt_iff_toNat_lt.mpr (by simp only [UInt8.reduceToNat]; omega), ?_, ?_, ?_⟩
  · simp only [isspace, Bool.or_eq_false_iff, beq_eq_false_iff_ne, Bool.and_eq_false_iff,
      decide_eq_false_iff_not, UInt8.le_iff_toNat_le, UInt8.reduceToNat]
    refine ⟨fun he => ?_, Or.inr (by omega)⟩
    rw [he] at h1'
    simp at h1'
  · rintro rfl
    simp at h1'
  · rintro rfl
    simp at h1'

/-! ## Numbers of a line -/

theorem strto_digits (hne : w ≠ []) (hd : ∀ b ∈ w, isDigit b = true) :
    strto w = ⟨false, w, []⟩ := by
  obtain ⟨d, ds, rfl⟩ := exists_cons_of_ne_nil hne
  obtain ⟨-, hsp, h45, h43⟩ := isDigit_gt (hd d mem_cons_self)
  have hdrop : (d :: ds).dropWhile isspace = d :: ds := by
    rw [dropWhile_cons, if_neg (by rw [hsp]; simp)]
  have htake : (d :: ds).takeWhile isDigit = d :: ds := takeWhile_eq_self_iff.mpr hd
  have hrest : (d :: ds).dropWhile isDigit = [] := dropWhile_eq_nil_iff.mpr hd
  unfold strto
  dsimp only
  rw [hdrop, List.head?_cons, if_neg (by simp [h45, h43]), htake, hrest]
  simp [h45]

theorem ok_dec (neg : Bool) (n : Nat) : (Strto.mk neg (dec n) []).ok = true := by
  simp [Strto.ok, dec_ne_nil n]

theorem safeStrtou_dec {width : Nat} (hw : width ≤ 64) (hn : n < 2 ^ width) :
    safeStrtou width (dec n) = some n := by
  have h64 : n < 2 ^ 64 := lt_of_lt_of_le hn (Nat.pow_le_pow_right (by decide) hw)
  have hneg : (45 : UInt8) ∉ dec n := fun h => (isDigit_gt (isDigit_of_mem_dec h)).2.2.1 rfl
  unfold safeStrtou
  dsimp only
  rw [strto_digits (dec_ne_nil n) fun _ => isDigit_of_mem_dec]
  simp only [value_dec, ok_dec, if_neg (Nat.not_le.mpr h64), hneg, and_false, if_false, if_true,
    Bool.false_eq_true, Nat.mod_eq_of_lt hn]

/-! ## Storage and arithmetic lines -/

def expiryOf (curTime exptime : Int) : Int :=
  if exptime ≠ 0 then sanitizeExpTime curTime exptime else exptime

theorem parse_storage {line name : List UInt8} {args : List (List UInt8)} {req : Req}
    (ht : tokenizeCommand line = name :: args) (hget : getReq name = none)
    (hreq : storeReq name = some req) :
    parse curTime {} line = if args.length = 4 ∨ args.length = 5 then
      parseStorageArguments curTime { req, tokens := name :: args }
    else { tokens := name :: args, rsp := .error } := by
  have hget' : getReq (tok { tokens := name :: args } 0) = none := hget
  have hreq' : storeReq (tok { tokens := name :: args } 0) = some req := hreq
  unfold parse
  dsimp only
  rw [ht, hget', hreq']
  dsimp only
  exact if_congr (by simp only [length_cons]; omega) rfl rfl

theorem parse_arithmetic {line name : List UInt8} {args : List (List UInt8)} {req : Req}
    (ht : tokenizeCommand line = name :: args) (hget : getReq name = none)
    (hstore : storeReq name = none) (hreq : arithReq name = some req) :
    parse curTime {} line = if args.length = 2 ∨ args.length = 3 then
      parseArithmeticArguments { req, tokens := name :: args }
    else { tokens := name :: args, rsp := .error } := by
  have hget' : getReq (tok { tokens := name :: args } 0) = none := hget
  have hstore' : storeReq (tok { tokens := name :: args } 0) = none := hstore
  have hreq' : arithReq (tok { tokens := name :: args } 0) = some req := hreq
  unfold parse
  dsimp only
  rw [ht, hget', hstore', hreq']
  dsimp only
  exact if_congr (by simp only [length_cons]; omega) rfl rfl

end UDepot.Memcache
