import UDepot.MbuffCompare
import UDepot.KvSafe

/-! The hash of a range of an Mbuff, whatever the range. -/

namespace UDepot.Mbuff
open Store (Errno)
open List

/-- What `HashFnCity::hash` comes to. -/
inductive Hashed where
  | ok (hash : Nat)
  | err (e : Errno)
  | crash
deriving DecidableEq

def Hashed.ofExcept : Except Errno Nat → Hashed
  | .ok hash => .ok hash
  | .error e => .err e

/-- `hash_copy`. -/
def hashCopy (h : List UInt8 → Nat) (malloc : Bool) (mb : Mbuff) (off len : Nat) : Hashed :=
  if malloc = false then .err .enomem
  else if (mb.copyToBuffer off len).length ≠ len then .err .einval
  else .ok (h (mb.copyToBuffer off len))

/-- `HashFnCity::hash` with any function of bytes for the hash. What `iterate_valid_init` returns is
not looked at. -/
def hashRange (h : List UInt8 → Nat) (malloc : Bool) (mb : Mbuff) (off len : Fin (2 ^ 64)) :
    Hashed :=
  match mb.iterateValidInit off len with
  | .crash => .crash
  | .einval => .ok (h [])
  | .chunks [] => .ok (h [])
  | .chunks (c :: _) =>
    -- whether there is a next chunk is said by the lengths
    if c.length < len then hashCopy h malloc mb off len else .ok (h c)

/-- The hash is that of the bytes of the range, in whatever chunks they are, and of a range that is
not valid there is an error. -/
structure HashesRange (mb : Mbuff) (off len : Fin (2 ^ 64)) : Prop where
  bytes : mb.Covers off len → ∀ h malloc,
    mb.hashRange h malloc off len = .ok (h (mb.range off len)) ∨
      malloc = false ∧ mb.hashRange h malloc off len = .err .enomem
  layout : mb.Covers off len → ∀ (other : Chunked) (off' : Fin (2 ^ 64)), other.mb.Covers off' len →
    other.mb.range off' len = mb.range off len →
      ∀ h, other.mb.hashRange h true off' len = mb.hashRange h true off len
  invalid : ¬ mb.Covers off len → ∀ h malloc, ∃ e, mb.hashRange h malloc off len = .err e

/-! ## Valid ranges -/

theorem range_zero (mb : Mbuff) (off : Nat) {len : Nat} (h : len = 0) : mb.range off len = [] := by
  rw [range, h, take_zero]

variable {off len : Fin (2 ^ 64)}

/-- For ranges inside the Mbuff it is the hash that `put` and `get` use. -/
theorem Chunked.hashRange_eq (a : Chunked) (h0 : len.val ≠ 0) (hc : a.mb.Covers off len)
    (h : List UInt8 → Nat) (malloc : Bool) :
    a.mb.hashRange h malloc off len = .ofExcept (a.mb.hash h malloc off len) := by
  obtain ⟨cs, hinit, hflat, hne, hlen⟩ := a.init_of_covers h0 hc
  have hle := (covers_iff h0).mp hc
  have hiter : a.mb.iterateValid off len = some cs := by
    have hlt := a.lt
    rw [iterateValidInit, if_neg h0, if_neg (by rw [Nat.mod_eq_of_lt (by omega)]; omega)] at hinit
    rw [iterateValid, if_neg h0, if_neg (by omega)]
    cases hcs : chunksFrom a.mb.nodes off len with
    | nil =>
      rw [hcs] at hinit
      exact IterInit.noConfusion hinit
    | cons c cs' =>
      rw [hcs] at hinit
      exact congrArg some (IterInit.chunks.inj hinit)
  rw [hashRange, hash, hinit, hiter]
  rw [← hflat] at hlen
  rcases cs with _ | ⟨c, _ | ⟨c', cs⟩⟩
  · rfl
  · rw [flatten_cons, flatten_nil, append_nil] at hlen
    exact if_neg (by omega)
  · have hc' := length_pos_of_ne_nil (hne c' (mem_cons_of_mem c mem_cons_self))
    simp only [flatten_cons, length_append] at hlen
    dsimp only
    rw [if_pos (by omega), hashCopy]
    split
    · rfl
    · split <;> rfl

theorem Chunked.hashRange_bytes (a : Chunked) (hc : a.mb.Covers off len) (h : List UInt8 → Nat)
    (malloc : Bool) :
    a.mb.hashRange h malloc off len = .ok (h (a.mb.range off len)) ∨
      malloc = false ∧ a.mb.hashRange h malloc off len = .err .enomem := by
  by_cases h0 : len.val = 0
  · rw [hashRange, iterateValidInit, if_pos h0, range_zero _ _ h0]
    exact .inl rfl
  · rw [a.hashRange_eq h0 hc]
    rcases a.legit.hash_eq h ((covers_iff h0).mp hc) malloc with hok | ⟨hm, herr⟩
    · rw [hok]
      exact .inl rfl
    · rw [herr]
      exact .inr ⟨hm, rfl⟩

theorem Chunked.hashRange_true (a : Chunked) (hc : a.mb.Covers off len) (h : List UInt8 → Nat) :
    a.mb.hashRange h true off len = .ok (h (a.mb.range off len)) := by
  rcases a.hashRange_bytes hc h true with hok | ⟨hm, -⟩
  · exact hok
  · exact Bool.noConfusion hm

/-! ## Other ranges -/

theorem not_covers_ne_zero {mb : Mbuff} {off len : Nat} (h : ¬ mb.Covers off len) : len ≠ 0 := by
  rintro rfl
  exact h fun i _ _ => by omega

theorem hashRange_of_fits {mb : Mbuff} (hc : ¬ mb.Covers off len) (hfit : mb.Fits off len)
    (h : List UInt8 → Nat) (malloc : Bool) : mb.hashRange h malloc off len = .ok (h []) := by
  rw [hashRange, init_of_fits (not_covers_ne_zero hc) hc hfit]

/-- A range that wraps around: nothing is there, or the copy is too short. -/
theorem Chunked.hashRange_of_not_fits (a : Chunked) (hfit : ¬ a.mb.Fits off len)
    (h : List UInt8 → Nat) (malloc : Bool) :
    a.mb.hashRange h malloc off len = .crash ∧ a.mb.validSize ≤ off ∨
      off < a.mb.validSize ∧ ∃ e, a.mb.hashRange h malloc off len = .err e := by
  obtain ⟨h0, hc, ⟨hcrash, hle⟩ | ⟨c, cs, hinit, hlt, hshort⟩⟩ := a.init_of_not_fits hfit
  · refine .inl ⟨?_, hle⟩
    rw [hashRange, hcrash]
  · rw [flatten_cons, length_append] at hshort
    have hcopy : (a.mb.copyToBuffer off len).length ≠ len := by
      rw [covers_iff h0] at hc
      rw [copyToBuffer_eq a.legit, length_take, length_drop, ← a.legit.validSize_eq]
      omega
    refine .inr ⟨hlt, ?_⟩
    rw [hashRange, hinit]
    dsimp only
    rw [if_pos (by omega), hashCopy, if_pos hcopy]
    cases malloc with
    | false | true => exact ⟨_, rfl⟩

/-- The hash is right exactly for valid ranges, and for those that start inside and wrap around. -/
theorem hashes_range_iff (a : Chunked) (off len : Fin (2 ^ 64)) :
    HashesRange a.mb off len ↔
      a.mb.Covers off len ∨ ¬ a.mb.Fits off len ∧ off.val < a.mb.validSize := by
  constructor
  · intro hr
    by_contra hno
    rw [not_or] at hno
    obtain ⟨e, he⟩ := hr.invalid hno.1 List.length true
    by_cases hfit : a.mb.Fits off len
    · rw [hashRange_of_fits hno.1 hfit] at he
      exact Hashed.noConfusion he
    · rcases a.hashRange_of_not_fits hfit List.length true with ⟨hcrash, -⟩ | ⟨hlt, -⟩
      · rw [hcrash] at he
        exact Hashed.noConfusion he
      · exact hno.2 ⟨hfit, hlt⟩
  · rintro (hc | ⟨hfit, hlt⟩)
    · refine ⟨fun _ => a.hashRange_bytes hc, fun _ other off' hc' heq h => ?_,
        fun hno => absurd hc hno⟩
      rw [other.hashRange_true hc', a.hashRange_true hc, heq]
    · have hc := (a.init_of_not_fits hfit).2.1
      refine ⟨fun hc' => absurd hc' hc, fun hc' => absurd hc' hc, fun _ h malloc => ?_⟩
      rcases a.hashRange_of_not_fits hfit h malloc with ⟨-, hle⟩ | ⟨-, herr⟩
      · omega
      · exact herr

/-- The hash of four bytes over the seams of two Mbuffs is the same. -/
theorem hashes_chunks : HashesRange threeChunks.mb 1 4 ∧
    ∀ h, twoChunks.mb.hashRange h true 1 4 = threeChunks.mb.hashRange h true 1 4 := by
  have hcovers : ∀ {a : Chunked}, a.mb.validSize = 5 →
      a.mb.Covers (1 : Fin (2 ^ 64)) (4 : Fin (2 ^ 64)) := by
    intro a ha
    rw [covers_iff (by decide), ha]
    decide
  have h3 := hcovers (a := threeChunks) rfl
  have hr := (hashes_range_iff threeChunks 1 4).mpr (.inl h3)
  exact ⟨hr, hr.layout h3 twoChunks 1 (hcovers rfl) (by decide)⟩

/-- The hash of ten bytes of an Mbuff that has none is that of nothing, and not an error. -/
theorem invalid_range_hashed :
    ¬ Covers ⟨[], 0, [], 0⟩ 0 10 ∧
      ∀ h malloc, hashRange h malloc ⟨[], 0, [], 0⟩ 0 10 = .ok (h []) := by
  have hno : ¬ Covers ⟨[], 0, [], 0⟩ 0 10 := fun h => absurd (h 0 (le_refl 0) (by decide))
    (by decide)
  exact ⟨hno, fun h malloc => hashRange_of_fits hno (.inl (by decide)) h malloc⟩

end UDepot.Mbuff
