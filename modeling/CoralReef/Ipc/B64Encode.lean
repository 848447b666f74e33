import CoralReef.Misc.Base64
import Mathlib.Data.Nat.Bitwise

/-!
# Encoding for the session exchange

`b64_encode` of `ipc/btsp.rs`.
-/

namespace CoralReef.Btsp

/-- `input.chunks(3)`. -/
def chunks : List UInt8 → List (List UInt8)
  | [] => []
  | b0 :: b1 :: b2 :: rest => [b0, b1, b2] :: chunks rest
  | rest => [rest]

/-- `CHARS[((triple >> shift) & 0x3F) as usize]`: the mask keeps the index inside. -/
def sextet (triple shift : Nat) : Char :=
  Base64.alphabet.get ⟨(triple >>> shift) &&& 0x3F, by
    rw [Base64.alphabet_length]
    exact Nat.and_lt_two_pow _ (by decide : 0x3F < 2 ^ 6)⟩

/-- The four characters of a chunk. -/
def encodeChunk (chunk : List UInt8) : List Char :=
  let b0 := (chunk[0]?.getD 0).toNat
  let b1 := (chunk[1]?.getD 0).toNat
  let b2 := (chunk[2]?.getD 0).toNat
  let triple := (b0 <<< 16) ||| (b1 <<< 8) ||| b2
  [sextet triple 18, sextet triple 12,
    if chunk.length > 1 then sextet triple 6 else '=',
    if chunk.length > 2 then sextet triple 0 else '=']

def b64Encode (input : List UInt8) : String :=
  String.ofList ((chunks input).flatMap encodeChunk)

/-- The bytes of a chunk lie side by side. -/
theorem triple_eq (b0 b1 b2 : UInt8) :
    (b0.toNat <<< 16) ||| (b1.toNat <<< 8) ||| b2.toNat =
      b0.toNat * 65536 + b1.toNat * 256 + b2.toNat := by
  have h1 := b1.toNat_lt
  have h2 := b2.toNat_lt
  have low : b1.toNat <<< 8 ||| b2.toNat = b1.toNat * 256 + b2.toNat := by
    rw [← Nat.shiftLeft_add_eq_or_of_lt (by omega), Nat.shiftLeft_eq]
  rw [Nat.or_assoc, low, ← Nat.shiftLeft_add_eq_or_of_lt (by omega), Nat.shiftLeft_eq]
  omega

/-- A character gives back its six bits. -/
theorem value_sextet (triple shift : Nat) :
    Base64.value (sextet triple shift) = some (triple / 2 ^ shift % 64) := by
  have mask : triple >>> shift &&& 0x3F = triple / 2 ^ shift % 64 := by
    rw [Nat.shiftRight_eq_div_pow, show 0x3F = 2 ^ 6 - 1 from rfl, Nat.and_two_pow_sub_one_eq_mod]
  unfold sextet
  rw [Base64.value_get]
  exact congrArg some mask

theorem sextet_ne_padding (triple shift : Nat) : sextet triple shift ≠ Base64.padding :=
  Base64.get_ne_padding _

theorem ofNat_eq {n : Nat} {b : UInt8} (same : n = b.toNat) : UInt8.ofNat n = b := by
  rw [same, UInt8.ofNat_toNat]

/-- A chunk of one byte ends the text. -/
theorem decode_one (b0 : UInt8) : Base64.decode (encodeChunk [b0]) = some [b0] := by
  have h0 := b0.toNat_lt
  have triple : b0.toNat <<< 16 ||| 0 <<< 8 ||| 0 = b0.toNat * 65536 := by
    have := triple_eq b0 0 0
    simpa using this
  show Base64.decode [sextet (b0.toNat <<< 16 ||| 0 <<< 8 ||| 0) 18,
    sextet (b0.toNat <<< 16 ||| 0 <<< 8 ||| 0) 12, '=', '='] = _
  rw [triple, Base64.decode, if_pos ⟨rfl, rfl, rfl⟩, value_sextet, value_sextet]
  show (if b0.toNat * 65536 / 2 ^ 12 % 64 % 16 = 0 then _ else none) = _
  rw [if_pos (by omega), ofNat_eq (b := b0) (by omega)]

/-- So does a chunk of two. -/
theorem decode_two (b0 b1 : UInt8) : Base64.decode (encodeChunk [b0, b1]) = some [b0, b1] := by
  have h0 := b0.toNat_lt
  have h1 := b1.toNat_lt
  have triple : b0.toNat <<< 16 ||| b1.toNat <<< 8 ||| 0 =
      b0.toNat * 65536 + b1.toNat * 256 := by
    have := triple_eq b0 b1 0
    simpa using this
  show Base64.decode [sextet (b0.toNat <<< 16 ||| b1.toNat <<< 8 ||| 0) 18,
    sextet (b0.toNat <<< 16 ||| b1.toNat <<< 8 ||| 0) 12,
    sextet (b0.toNat <<< 16 ||| b1.toNat <<< 8 ||| 0) 6, '='] = _
  rw [triple, Base64.decode, if_neg (fun padded => sextet_ne_padding _ _ padded.1),
    if_pos ⟨rfl, rfl⟩, value_sextet, value_sextet, value_sextet]
  show (if (b0.toNat * 65536 + b1.toNat * 256) / 2 ^ 6 % 64 % 4 = 0 then _ else none) = _
  rw [if_pos (by omega), ofNat_eq (b := b0) (by omega), ofNat_eq (b := b1) (by omega)]

/-- Three bytes are followed by what the rest of the text holds. -/
theorem decode_three (b0 b1 b2 : UInt8) (rest : List Char) :
    Base64.decode (encodeChunk [b0, b1, b2] ++ rest) =
      (Base64.decode rest).map ([b0, b1, b2] ++ ·) := by
  have h0 := b0.toNat_lt
  have h1 := b1.toNat_lt
  have h2 := b2.toNat_lt
  show Base64.decode (sextet (b0.toNat <<< 16 ||| b1.toNat <<< 8 ||| b2.toNat) 18 ::
    sextet (b0.toNat <<< 16 ||| b1.toNat <<< 8 ||| b2.toNat) 12 ::
    sextet (b0.toNat <<< 16 ||| b1.toNat <<< 8 ||| b2.toNat) 6 ::
    sextet (b0.toNat <<< 16 ||| b1.toNat <<< 8 ||| b2.toNat) 0 :: rest) = _
  rw [triple_eq, Base64.decode, if_neg (fun padded => sextet_ne_padding _ _ padded.1),
    if_neg (fun padded => sextet_ne_padding _ _ padded.1), value_sextet, value_sextet, value_sextet,
    value_sextet]
  cases Base64.decode rest with
  | none => rfl
  | some bytes =>
    show some (UInt8.ofNat _ :: UInt8.ofNat _ :: UInt8.ofNat _ :: bytes) = _
    rw [ofNat_eq (b := b0) (by omega), ofNat_eq (b := b1) (by omega),
      ofNat_eq (b := b2) (by omega)]
    rfl

/-- The text is standard base64 for its bytes, with four characters for every chunk that was
started, and no other bytes have it. -/
theorem b64Encode_standard (input : List UInt8) :
    Base64.decode (b64Encode input).toList = some input ∧
      (b64Encode input).length = 4 * ((input.length + 2) / 3) ∧
      ∀ other, b64Encode other = b64Encode input → other = input := by
  have back : ∀ input : List UInt8,
      Base64.decode ((chunks input).flatMap encodeChunk) = some input ∧
        ((chunks input).flatMap encodeChunk).length = 4 * ((input.length + 2) / 3) := by
    intro input
    induction input using chunks.induct with
    | case1 => exact ⟨rfl, rfl⟩
    | case2 b0 b1 b2 rest ih =>
      obtain ⟨decoded, length⟩ := ih
      have more : (chunks (b0 :: b1 :: b2 :: rest)).flatMap encodeChunk =
          encodeChunk [b0, b1, b2] ++ (chunks rest).flatMap encodeChunk := List.flatMap_cons
      rw [more, decode_three, decoded, List.length_append, length]
      refine ⟨rfl, ?_⟩
      have four : (encodeChunk [b0, b1, b2]).length = 4 := rfl
      simp only [four, List.length_cons]
      omega
    | case3 rest some short =>
      cases rest with
      | nil => exact absurd rfl some
      | cons b0 rest =>
        cases rest with
        | nil =>
          have one : (chunks [b0]).flatMap encodeChunk = encodeChunk [b0] := List.append_nil _
          rw [one]
          exact ⟨decode_one b0, by simp [encodeChunk]⟩
        | cons b1 rest =>
          cases rest with
          | nil =>
            have two : (chunks [b0, b1]).flatMap encodeChunk = encodeChunk [b0, b1] :=
              List.append_nil _
            rw [two]
            exact ⟨decode_two b0 b1, by simp [encodeChunk]⟩
          | cons b2 rest => exact absurd rfl (short b0 b1 b2 rest)
  have text : ∀ input, (b64Encode input).toList = (chunks input).flatMap encodeChunk :=
    fun input => String.toList_ofList
  refine ⟨by rw [text, (back input).1], ?_, ?_⟩
  · rw [← String.length_toList, text, (back input).2]
  · intro other same
    have decoded := (back other).1
    rw [← text, same, text, (back input).1] at decoded
    exact (Option.some_inj.mp decoded).symm

end CoralReef.Btsp
