import UDepot.MapRun
import UDepot.Lib.Sums
import Mathlib.Data.List.ProdSigma

/-! The directory of tables of `udepot-directory-map.cc` and `grow()`, which
copies the entries of every table into a directory of twice the tables. The
copy treats a tombstone it has already copied as a free slot when it looks for
room for a second entry of one fingerprint. -/

namespace UDepot
open Scan UDepotMap

variable {bits : Nat}

/-- `dir_ref_m.directory`, of `2 ^ idxBits` tables. -/
structure Directory (bits : Nat) where
  idxBits : Nat
  map : Nat → UDepotMap bits

/-- `hash_to_dir_idx_`: the high bits of the fingerprint select the table. -/
def hashToDirIdx (bits h dirIdxBits : Nat) : Nat :=
  (h &&& (2 ^ (8 + bits) - 1)) >>> (8 + bits - dirIdxBits)

namespace Directory

def hashToMap (d : Directory bits) (h : Nat) : UDepotMap bits :=
  d.map (hashToDirIdx bits h d.idxBits)

def setMap (d : Directory bits) (i : Nat) (t : UDepotMap bits) : Directory bits :=
  { d with map := Function.update d.map i t }

/-- The `switch` of the copy loop: the slot for an entry of hash `h`, after a
shift where the window is full. In the case `0` the result of `next_free` is
not looked at: the pointer still names the entry that `lookup` found. -/
def copySlot (t : UDepotMap bits) (h : Nat) : UDepotMap bits × Option Nat :=
  match t.lookup h with
  | .enospc => t.tryShift h
  | .enodata q => (t, some q)
  | .found q => (t, some ((t.nextFree h).getD q))

/-- The body of the copy loop for slot `p` of a table; `none` is `EFAULT`. -/
def copyEntry (src : UDepotMap bits) (p : Nat) (new : Directory bits) : Option (Directory bits) :=
  if !(src.ht p).used then some new
  else
    let h := src.entryKeyfp p
    match copySlot (new.hashToMap h) h with
    | (_, none) => none
    | (t, some q) => some (new.setMap (hashToDirIdx bits h new.idxBits)
        (t.insert q h (src.ht p).kvSize (src.ht p).pba))

def slots (d : Directory bits) : List (Nat × Nat) :=
  List.range (2 ^ d.idxBits) ×ˢ List.range (entryNr bits)

def copyAll (d : Directory bits) : List (Nat × Nat) → Directory bits → Option (Directory bits)
  | [], new => some new
  | x :: rest, new => (copyEntry (d.map x.1) x.2 new).bind (copyAll d rest)

def doubled (d : Directory bits) : Directory bits :=
  ⟨d.idxBits + 1, fun _ => init bits (d.map 0).bits_lt⟩

def grow (d : Directory bits) : Option (Directory bits) := d.copyAll d.slots d.doubled

/-- `P` holds of the target table and the hash at each copy of an entry. -/
def everyCopy (P : UDepotMap bits → Nat → Bool) (d : Directory bits) :
    List (Nat × Nat) → Directory bits → Bool
  | [], _ => true
  | x :: rest, new =>
    let h := (d.map x.1).entryKeyfp x.2
    (!((d.map x.1).ht x.2).used || P (new.hashToMap h) h) &&
      match copyEntry (d.map x.1) x.2 new with
      | none => true
      | some new' => everyCopy P d rest new'

/-- The copy has room: no shift is needed and `next_free` finds a slot. -/
def copyRoom (t : UDepotMap bits) (h : Nat) : Bool :=
  match t.lookup h with
  | .enospc => false
  | .enodata _ => true
  | .found _ => (t.nextFree h).isSome

/-- An entry whose fingerprint is already in the table goes to a never-used
slot of its window. -/
def copyFresh (t : UDepotMap bits) (h : Nat) : Bool :=
  match t.lookup h with
  | .found _ => (t.nextFree h).any fun q => !(t.ht q).used && decide (InWindow bits h q)
  | _ => true

/-! ## What a directory holds -/

/-- What an entry says: fingerprint, size, address and tombstone mark. -/
structure Content where
  keyfp : Nat
  kvSize : Nat
  pba : Nat
  deleted : Bool
  deriving DecidableEq, Repr

def content (t : UDepotMap bits) (q : Nat) : Multiset Content :=
  if (t.ht q).used then {⟨t.entryKeyfp q, (t.ht q).kvSize, (t.ht q).pba, (t.ht q).deleted⟩} else 0

def entries (d : Directory bits) : Multiset Content :=
  ∑ x ∈ Finset.range (2 ^ d.idxBits) ×ˢ Finset.range (entryNr bits), content (d.map x.1) x.2

/-- Slot `q` of table `i` holds an entry that belongs there: `hashOf` gives the
full hash of the key of the record at an address. -/
structure PlacedAt (hashOf : Nat → Nat) (d : Directory bits) (i q : Nat) : Prop where
  slot : (d.map i).SlotWf q
  keyfp : (d.map i).entryKeyfp q = hashToKeyfp bits (hashOf ((d.map i).ht q).pba)
  table : hashToDirIdx bits (hashOf ((d.map i).ht q).pba) d.idxBits = i

/-- Every used entry, tombstones included, sits in the table and window that the
full hash of its key selects. -/
def Placed (hashOf : Nat → Nat) (d : Directory bits) : Prop :=
  ∀ i, i < 2 ^ d.idxBits → ∀ q, q < entryNr bits → ((d.map i).ht q).used = true →
    d.PlacedAt hashOf i q

/-- The growth the directory owes: twice the tables, the same entries, each in
its place, and no copy that runs out of slots. -/
def GrowOk (hashOf : Nat → Nat) (d : Directory bits) : Prop :=
  (∃ d', d.grow = some d' ∧ d'.idxBits = d.idxBits + 1 ∧ d'.entries = d.entries ∧
    d'.Placed hashOf) ∧ d.everyCopy copyRoom d.slots d.doubled = true

end Directory
end UDepot
