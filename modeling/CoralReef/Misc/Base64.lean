import Mathlib.Data.List.Nodup

/-!
# Base64

The standard alphabet with padding: a text is a sequence of groups of four characters for three
bytes each. The last group may stand for fewer: padding takes the place of the characters that
would hold nothing, and the bits of the last one that hold nothing are zero.
-/

namespace CoralReef.Base64

/-- The characters of the standard alphabet in the order of their values. -/
def alphabet : List Char :=
  "ABCDEFGHIJKLMNOPQRSTUVWXYZabcdefghijklmnopqrstuvwxyz0123456789+/".toList

def padding : Char := '='

/-- The six bits that a character stands for. -/
def value (c : Char) : Option Nat := if c ∈ alphabet then some (alphabet.idxOf c) else none

/-- The bytes of a text, where it is well formed. -/
def decode : List Char → Option (List UInt8)
  | [] => some []
  | a :: b :: c :: d :: rest =>
    if c = padding ∧ d = padding ∧ rest = [] then do
      let a ← value a
      let b ← value b
      if b % 16 = 0 then some [UInt8.ofNat (a * 4 + b / 16)] else none
    else if d = padding ∧ rest = [] then do
      let a ← value a
      let b ← value b
      let c ← value c
      if c % 4 = 0 then
        some [UInt8.ofNat (a * 4 + b / 16), UInt8.ofNat (b % 16 * 16 + c / 4)]
      else none
    else do
      let a ← value a
      let b ← value b
      let c ← value c
      let d ← value d
      let bytes ← decode rest
      some (UInt8.ofNat (a * 4 + b / 16) :: UInt8.ofNat (b % 16 * 16 + c / 4) ::
        UInt8.ofNat (c % 4 * 64 + d) :: bytes)
  | _ => none

theorem alphabet_length : alphabet.length = 64 := rfl

theorem alphabet_nodup : alphabet.Nodup := by decide

theorem padding_notMem : padding ∉ alphabet := by decide

/-- A character of the alphabet stands for its place. -/
theorem value_get (i : Fin alphabet.length) : value (alphabet.get i) = some i.val := by
  unfold value
  rw [if_pos (List.get_mem _ _), List.get_eq_getElem, List.Nodup.idxOf_getElem alphabet_nodup]

theorem get_ne_padding (i : Fin alphabet.length) : alphabet.get i ≠ padding := by
  intro same
  exact padding_notMem (same ▸ List.get_mem _ _)

end CoralReef.Base64
