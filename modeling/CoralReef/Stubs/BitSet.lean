import CoralReef.Misc.FixedWidth

/-!
# Bit sets

`coral-reef-stubs/src/bitset.rs`: sets of numbers in words of 64 bits. An index has its own width
on every caller's side and is a `usize` here; the phantom type of the members is left out.
-/

namespace CoralReef

/-- The derived equality compares the words and the capacity. -/
structure BitSet where
  words : List (BitVec 64) := []
  capacity : Nat := 0
  deriving DecidableEq

namespace BitSet

/-- `BitSet::new`. -/
def new (capacity : Nat) : BitSet where
  words := List.replicate ((capacity + 63) / 64) 0
  capacity := capacity

/-- `word_bit`. -/
def wordBit (index : Nat) : Nat × BitVec 64 := (index / 64, 1#64 <<< (index % 64))

/-- `Vec::resize` with zeros, to a length that is not less. -/
def resize (words : List (BitVec 64)) (len : Nat) : List (BitVec 64) :=
  words ++ List.replicate (len - words.length) 0

/-- `BitSet::insert`, and whether the bit was newly set. -/
def insert (s : BitSet) (idx : Nat) : BitSet × Bool :=
  let (word, bit) := wordBit idx
  let words := if word ≥ s.words.length then resize s.words (word + 1) else s.words
  let wasClear := decide (words.getD word 0 &&& bit = 0)
  ({ s with words := words.modify word (· ||| bit) }, wasClear)

/-- `BitSet::remove`, and whether the bit was set before. -/
def remove (s : BitSet) (idx : Nat) : BitSet × Bool :=
  let (word, bit) := wordBit idx
  if word ≥ s.words.length then (s, false)
  else
    let wasSet := decide (s.words.getD word 0 &&& bit ≠ 0)
    ({ s with words := s.words.modify word (· &&& ~~~bit) }, wasSet)

def contains (s : BitSet) (idx : Nat) : Bool :=
  let (word, bit) := wordBit idx
  decide (word < s.words.length) && decide (s.words.getD word 0 &&& bit ≠ 0)

/-- `BitSet::len`: the sum of the population counts. -/
def len (s : BitSet) : Nat := (s.words.map fun w => w.cpop.toNat).sum

def isEmpty (s : BitSet) : Bool := s.words.all (· = 0)

def clear (s : BitSet) : BitSet := { s with words := s.words.map fun _ => 0 }

/-- The words of one set combined with those of another as far as both go. -/
def zipWords (op : BitVec 64 → BitVec 64 → BitVec 64) :
    List (BitVec 64) → List (BitVec 64) → List (BitVec 64)
  | a :: words, b :: other => op a b :: zipWords op words other
  | words, _ => words

/-- `BitSet::union`, as `|=` and `union_with` apply it. -/
def union (s other : BitSet) : BitSet :=
  let words := if other.words.length > s.words.length then resize s.words other.words.length
    else s.words
  { s with words := zipWords (· ||| ·) words other.words }

/-- `BitSet::intersect`. -/
def intersect (s other : BitSet) : BitSet :=
  { s with words := s.words.mapIdx fun i word => word &&& other.words.getD i 0 }

/-- `BitSet::difference`. -/
def difference (s other : BitSet) : BitSet :=
  { s with words := zipWords (fun a b => a &&& ~~~b) s.words other.words }

/-- `BitSet::is_subset_of`. -/
def isSubsetOf (s other : BitSet) : Bool :=
  s.words.zipIdx.all fun entry => entry.1 &&& ~~~other.words.getD entry.2 0 = 0

/-- The two operators on references, word by word up to the longer set. -/
def combine (op : BitVec 64 → BitVec 64 → BitVec 64) (s rhs : BitSet) : BitSet where
  words := (List.range (max s.words.length rhs.words.length)).map fun i =>
    op (s.words.getD i 0) (rhs.words.getD i 0)
  capacity := max s.capacity rhs.capacity

/-- `BitOr::bitor`. -/
def bitor (s rhs : BitSet) : BitSet := combine (fun a b => a ||| b) s rhs

/-- `Sub::sub`. -/
def sub (s rhs : BitSet) : BitSet := combine (fun a b => a &&& ~~~b) s rhs

end BitSet

structure BitSetIter where
  words : List (BitVec 64)
  wordIdx : Nat
  current : BitVec 64

/-- `BitSet::iter`. -/
def BitSet.iter (s : BitSet) : BitSetIter where
  words := s.words
  wordIdx := 0
  current := s.words.head?.getD 0

namespace BitSetIter

/-- `BitSetIter::next`: the next member, or none at the end. -/
def next (it : BitSetIter) : Option (Nat × BitSetIter) :=
  if it.current = 0 then
    let wordIdx := it.wordIdx + 1
    if wordIdx ≥ it.words.length then none
    else next { it with wordIdx, current := it.words.getD wordIdx 0 }
  else
    let bit := it.current.ctz.toNat
    some (it.wordIdx * 64 + bit, { it with current := it.current &&& (it.current - 1) })
termination_by it.words.length - it.wordIdx

/-- The members that an iterator hands out until it ends. -/
inductive Yields : BitSetIter → List Nat → Prop where
  | nil {it : BitSetIter} (done : it.next = none) : Yields it []
  | cons {it it' : BitSetIter} {i : Nat} {rest : List Nat} (step : it.next = some (i, it'))
      (later : Yields it' rest) : Yields it (i :: rest)

end BitSetIter

namespace BitSet

open FixedWidth

/-- The first bit that is set among `numBits` from `pos` on. -/
def firstSet (s : BitSet) (pos numBits : Nat) : Option Nat :=
  (List.range numBits).find? fun i => s.contains (pos + i)

/-- The next aligned index, where `remainder` tells how far `pos` is past one. -/
def alignPos (debug : Bool) (pos alignMul remainder : Nat) : Except Fault Nat :=
  if remainder ≠ 0 then add 64 debug pos (alignMul - remainder) else .ok pos

/-- The search of `find_aligned_unset_range` from `pos` on. A round that goes on starts the next
one farther, and none starts past the capacity, so the fuel lasts when it starts above that. -/
def findFrom (debug : Bool) (s : BitSet) (numBits alignMul alignOffset : Nat) :
    Nat → Nat → Except Fault (Option Nat)
  | 0, _ => .error (.panic "out of fuel")
  | fuel + 1, pos => do
    -- `pos.wrapping_sub(align_offset)`
    let remainder := (pos + 2 ^ 64 - alignOffset) % 2 ^ 64 % alignMul
    let pos ← alignPos debug pos alignMul remainder
    if (← add 64 debug pos numBits) > s.capacity then return none
    match s.firstSet pos numBits with
    | some i => findFrom debug s numBits alignMul alignOffset fuel (pos + i + 1)
    | none => return some pos

/-- `BitSet::find_aligned_unset_range`. `debug` tells whether the build checks for overflow. -/
def findAlignedUnsetRange (debug : Bool) (s : BitSet) (start numBits alignMul alignOffset : Nat) :
    Except Fault (Option Nat) :=
  if numBits = 0 then return some start
  else if alignMul = 0 then
    .error (.panic "attempt to calculate the remainder with a divisor of zero")
  else findFrom debug s numBits alignMul alignOffset (max start s.capacity + 2) start

end BitSet

end CoralReef
