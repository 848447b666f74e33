import Mathlib.Data.List.Infix

/-!
# UTF-8

A sequence of bytes as the text it encodes, one character at a time.
-/

open List

namespace CoralReef

/-- The bytes of a text. -/
def utf8Encode (text : List Char) : List UInt8 := text.flatMap String.utf8EncodeChar

/-- The text of the bytes after `skip` of them, which belong to a character already read. -/
def utf8DecodeFrom : Nat → List UInt8 → Option (List Char)
  | 0, [] => some []
  | _ + 1, [] => none
  | skip + 1, _ :: bytes => utf8DecodeFrom skip bytes
  | 0, byte :: bytes =>
    match (byte :: bytes).toByteArray.utf8DecodeChar? 0 with
    | none => none
    | some c => (utf8DecodeFrom (c.utf8Size - 1) bytes).map (c :: ·)

/-- The text that bytes encode, if they encode one. -/
def utf8Decode (bytes : List UInt8) : Option (List Char) := utf8DecodeFrom 0 bytes

@[simp] theorem utf8Encode_nil : utf8Encode [] = [] := rfl

@[simp] theorem utf8Encode_cons (c : Char) (text : List Char) :
    utf8Encode (c :: text) = String.utf8EncodeChar c ++ utf8Encode text := rfl

@[simp] theorem utf8Encode_append (first second : List Char) :
    utf8Encode (first ++ second) = utf8Encode first ++ utf8Encode second := by
  simp [utf8Encode]

@[simp] theorem utf8Encode_eq_nil {text : List Char} : utf8Encode text = [] ↔ text = [] := by
  cases text with
  | nil => simp
  | cons c text => simp [String.utf8EncodeChar_ne_nil]

theorem utf8DecodeFrom_skip {skip : Nat} {bytes : List UInt8} (within : skip ≤ bytes.length) :
    utf8DecodeFrom skip bytes = utf8Decode (bytes.drop skip) := by
  induction skip generalizing bytes with
  | zero => rfl
  | succ skip hind =>
      cases bytes with
      | nil => simp at within
      | cons byte bytes =>
          rw [utf8DecodeFrom, hind (by simpa using within), drop_succ_cons]

/-- Bytes that start with a character. -/
theorem utf8Decode_char_append (c : Char) (bytes : List UInt8) :
    utf8Decode (String.utf8EncodeChar c ++ bytes) = (utf8Decode bytes).map (c :: ·) := by
  have size := String.length_utf8EncodeChar c
  cases encoded : String.utf8EncodeChar c with
  | nil => exact absurd encoded String.utf8EncodeChar_ne_nil
  | cons byte more =>
      have head : (byte :: (more ++ bytes)).toByteArray.utf8DecodeChar? 0 = some c := by
        have whole := ByteArray.utf8DecodeChar?_utf8EncodeChar_append (b := bytes.toByteArray)
          (c := c)
        rw [encoded] at whole
        simpa [← toByteArray_append] using whole
      rw [encoded, length_cons] at size
      have skipped : c.utf8Size - 1 = more.length := by omega
      rw [cons_append, utf8Decode, utf8DecodeFrom, head]
      dsimp only
      rw [utf8DecodeFrom_skip (by simp; omega), skipped, drop_left]

/-- Bytes that a character can be read from start with its encoding. -/
theorem eq_utf8EncodeChar_append {bytes : List UInt8} {c : Char}
    (read : bytes.toByteArray.utf8DecodeChar? 0 = some c) :
    ∃ rest, bytes = String.utf8EncodeChar c ++ rest := by
  have whole := ByteArray.eq_of_utf8DecodeChar?_eq_some read
  generalize bytes.toByteArray.extract c.utf8Size bytes.toByteArray.size = rest at whole
  have listed := congrArg (fun array : ByteArray => array.data.toList) whole
  exact ⟨rest.data.toList, by simpa using listed⟩

/-- `utf8Decode` finds exactly the text whose bytes it is given. -/
theorem utf8Decode_eq_some {bytes : List UInt8} {text : List Char} :
    utf8Decode bytes = some text ↔ utf8Encode text = bytes := by
  constructor
  · intro decoded
    induction text generalizing bytes with
    | nil =>
        cases bytes with
        | nil => rfl
        | cons byte bytes =>
            rw [utf8Decode, utf8DecodeFrom] at decoded
            split at decoded <;> simp at decoded
    | cons c text hind =>
        cases bytes with
        | nil => simp [utf8Decode, utf8DecodeFrom] at decoded
        | cons byte bytes =>
            cases read : (byte :: bytes).toByteArray.utf8DecodeChar? 0 with
            | none => simp [utf8Decode, utf8DecodeFrom, read] at decoded
            | some first =>
                rcases eq_utf8EncodeChar_append read with ⟨rest, split⟩
                rw [split, utf8Decode_char_append, Option.map_eq_some_iff] at decoded
                rcases decoded with ⟨text', rest_decoded, same⟩
                cases same
                rw [split, utf8Encode_cons, hind rest_decoded]
  · intro encoded
    subst encoded
    induction text with
    | nil => rfl
    | cons c text hind => rw [utf8Encode_cons, utf8Decode_char_append, hind, Option.map_some]

theorem utf8Decode_encode (text : List Char) : utf8Decode (utf8Encode text) = some text :=
  utf8Decode_eq_some.mpr rfl

/-- A text that starts inside the bytes of another is an end of it. -/
theorem utf8Encode_drop {text rest : List Char} {count : Nat}
    (split : (utf8Encode text).drop count = utf8Encode rest) (later : 0 < count)
    (within : rest ≠ []) :
    ∃ early, early ≠ [] ∧ text = early ++ rest := by
  induction text generalizing count with
  | nil =>
      simp only [utf8Encode_nil, drop_nil] at split
      exact absurd (utf8Encode_eq_nil.mp split.symm) within
  | cons c text hind =>
      rcases Nat.lt_or_ge count (String.utf8EncodeChar c).length with inside | past
      · cases rest with
        | nil => exact absurd rfl within
        | cons d rest =>
            have started : 0 < (String.utf8EncodeChar d).length := by simp [d.utf8Size_pos]
            have at_head : (String.utf8EncodeChar c)[count] = (String.utf8EncodeChar d)[0] := by
              have heads := congrArg head? split
              rw [utf8Encode_cons, drop_append_of_le_length (Nat.le_of_lt inside),
                utf8Encode_cons, head?_append, head?_append, head?_drop] at heads
              simp only [head?_eq_getElem?, getElem?_eq_getElem inside,
                getElem?_eq_getElem started, Option.some_or, Option.some.injEq] at heads
              exact heads
            have first : (String.utf8EncodeChar c)[count].IsUTF8FirstByte := by
              rw [at_head]
              exact UInt8.isUTF8FirstByte_getElem_zero_utf8EncodeChar
            have := UInt8.isUTF8FirstByte_getElem_utf8EncodeChar.mp first
            omega
      · rw [utf8Encode_cons, drop_append] at split
        rw [drop_eq_nil_of_le past, nil_append] at split
        rcases Nat.eq_zero_or_pos (count - (String.utf8EncodeChar c).length) with none_left | more
        · rw [none_left, drop_zero] at split
          have same : text = rest := by
            have texts := congrArg utf8Decode split
            simpa only [utf8Decode_encode, Option.some.injEq] using texts
          exact ⟨[c], by simp, by simp [same]⟩
        · rcases hind split more with ⟨early, _, rfl⟩
          exact ⟨c :: early, by simp, rfl⟩

end CoralReef
