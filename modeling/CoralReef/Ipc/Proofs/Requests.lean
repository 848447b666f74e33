import CoralReef.Ipc.Proofs.Detection

/-!
# The requests of a byte stream

The non-blank lines that a stream delivers, and what they become when bytes at its start are lost.
An unfinished last line is delivered only where the client has closed the stream.
-/

namespace CoralReef

open List AsyncRead

variable {requests : List Text} {c : Char} {how : StreamEnd}

/-- The non-blank lines as trimmed text, when every line is UTF-8. -/
def requestLines : List (List UInt8) → Option (List Text)
  | [] => some []
  | line :: lines =>
      match utf8Decode line, requestLines lines with
      | some text, some requests =>
          some (if trim text = [] then requests else trim text :: requests)
      | _, _ => none

/-- The requests that a stream spells. -/
def requestsOf (bytes : List UInt8) (how : StreamEnd) : Option (List Text) :=
  requestLines (deliveredLines bytes how)

/-- The requests that a loop processes: those before the first line that is not UTF-8. -/
def processedOf (bytes : List UInt8) (how : StreamEnd) : List Text :=
  ((textLines bytes how).map trim).filter (· ≠ [])

theorem processed_of_requestLines {lines : List (List UInt8)}
    (found : requestLines lines = some requests) :
    ((decodeLines lines).map trim).filter (· ≠ []) = requests := by
  induction lines generalizing requests with
  | nil =>
      cases found
      rfl
  | cons line lines hind =>
      rw [requestLines] at found
      cases decoded : utf8Decode line with
      | none => simp [decoded] at found
      | some text =>
          cases later : requestLines lines with
          | none => simp [decoded, later] at found
          | some more =>
              simp only [decoded, later, Option.some.injEq] at found
              subst found
              rw [decodeLines, decoded]
              simp only [map_cons, trim_chomp]
              split_ifs with blank
              · rw [filter_cons_of_neg (by simpa using blank), hind later]
              · rw [filter_cons_of_pos (by simpa using blank), hind later]

/-- A loop over a stream of UTF-8 processes all its requests. -/
theorem processedOf_eq {bytes : List UInt8} (found : requestsOf bytes how = some requests) :
    processedOf bytes how = requests :=
  processed_of_requestLines found

/-- The requests of a line and of those after it. -/
theorem requestLines_cons {line : List UInt8} {lines : List (List UInt8)} :
    requestLines (line :: lines) = some requests ↔
      ∃ text more, utf8Decode line = some text ∧ requestLines lines = some more ∧
        requests = if trim text = [] then more else trim text :: more := by
  rw [requestLines]
  cases utf8Decode line <;> cases requestLines lines <;> simp [eq_comm]

/-- A stream that delivers no line has no requests. -/
theorem requestsOf_of_none {bytes : List UInt8} (missing : nextDelivered bytes how = none) :
    requestsOf bytes how = some [] := by
  rw [requestsOf, deliveredLines_of_none missing]
  rfl

theorem requestsOf_nil (how : StreamEnd) : requestsOf [] how = some [] := by
  cases how <;> rfl

/-- The first line is where the stream starts, and is empty only when nothing is left. -/
theorem next_shape {bytes line rest : List UInt8}
    (found : nextDelivered bytes how = some (line, rest)) :
    bytes = line ++ rest ∧ (bytes ≠ [] → line ≠ []) := by
  rw [nextDelivered] at found
  cases split : splitAtNewline bytes with
  | none =>
      rw [split] at found
      simp only [Option.ite_none_right_eq_some, Option.some.injEq, Prod.mk.injEq] at found
      rcases found with ⟨_, rfl, rfl⟩
      exact ⟨by simp, id⟩
  | some pair =>
      rw [split] at found
      cases found
      rcases splitAtNewline_eq_some.mp split with ⟨before, _, rfl, rfl⟩
      exact ⟨rfl, by simp⟩

/-- Without a line to deliver there is no line feed. -/
theorem newline_notMem_of_none {bytes : List UInt8} (missing : nextDelivered bytes how = none) :
    newline ∉ bytes ∧ how ≠ .eof := by
  rw [nextDelivered] at missing
  cases split : splitAtNewline bytes with
  | some pair => simp [split] at missing
  | none =>
      refine ⟨splitAtNewline_eq_none.mp split, ?_⟩
      rintro rfl
      simp [split] at missing

theorem next_of_notMem {bytes : List UInt8} (apart : newline ∉ bytes) (opened : how ≠ .eof) :
    nextDelivered bytes how = none := by
  rw [nextDelivered, splitAtNewline_eq_none.mpr apart]
  exact if_neg opened

/-- The first line of a stream with requests is one of them unless it is blank. -/
theorem requestsOf_of_next {bytes line rest : List UInt8}
    (found : nextDelivered bytes how = some (line, rest)) (some_line : line ≠ []) :
    requestsOf bytes how = some requests ↔
      ∃ text more, utf8Decode line = some text ∧ requestsOf rest how = some more ∧
        requests = if trim text = [] then more else trim text :: more := by
  rw [requestsOf, deliveredLines_of_some found some_line, requestLines_cons]
  rfl

/-- A loop processes nothing of a stream whose first line is not UTF-8. -/
theorem processedOf_of_undecodable {bytes line rest : List UInt8}
    (found : nextDelivered bytes how = some (line, rest)) (some_line : line ≠ [])
    (undecodable : utf8Decode line = none) : processedOf bytes how = [] := by
  rw [processedOf, textLines, deliveredLines_of_some found some_line, decodeLines, undecodable]
  rfl

/-! ## Trimmed text -/

theorem trim_cons_whitespace (blank : isWhitespace c) (text : Text) :
    trim (c :: text) = trim text := by
  rw [trim, trim, dropWhile_cons_of_pos blank]

theorem trim_cons_ne_nil (solid : isWhitespace c = false) (text : Text) :
    trim (c :: text) ≠ [] := by
  rw [trim, dropWhile_cons_of_neg (by simp [solid])]
  intro empty
  rw [rdropWhile_eq_nil_iff] at empty
  simpa [solid] using empty c

theorem rdropWhile_append {early text : Text} (stays : text.rdropWhile isWhitespace ≠ []) :
    (early ++ text).rdropWhile isWhitespace = early ++ text.rdropWhile isWhitespace := by
  have reversed : text.reverse.dropWhile isWhitespace ≠ [] := by
    intro empty
    exact stays (by rw [List.rdropWhile, empty]; rfl)
  rw [List.rdropWhile, reverse_append, dropWhile_append,
    if_neg (by simpa using reversed), reverse_append, reverse_reverse]
  rfl

/-- The text from a non-blank character on is longer, trimmed, than a shorter end of it that
is not blank. -/
theorem length_trim_lt (solid : isWhitespace c = false) (early : Text) {text : Text}
    (some_text : trim text ≠ []) :
    (trim text).length < (trim (c :: early ++ text)).length := by
  have cut := takeWhile_append_dropWhile (p := isWhitespace) (l := text)
  have whole : trim (c :: early ++ text) =
      c :: early ++ text.takeWhile isWhitespace ++ trim text := by
    rw [trim, cons_append, dropWhile_cons_of_neg (by simp [solid])]
    conv_lhs => rw [← cut]
    rw [← cons_append, ← append_assoc, rdropWhile_append some_text]
    rfl
  rw [whole]
  simp
  omega

/-- The first line without its first bytes, while some of it is left. -/
theorem nextDelivered_drop {bytes line rest : List UInt8} (count : Nat)
    (found : nextDelivered bytes how = some (line, rest)) (within : count ≤ line.length)
    (stays : line.drop count ≠ []) :
    nextDelivered (bytes.drop count) how = some (line.drop count, rest) := by
  have dropped : bytes.drop count = line.drop count ++ rest := by
    rw [(next_shape found).1, drop_append_of_le_length within]
  rw [nextDelivered] at found
  rw [dropped, nextDelivered]
  cases split : splitAtNewline bytes with
  | none =>
      rw [split] at found
      simp only [Option.ite_none_right_eq_some, Option.some.injEq, Prod.mk.injEq] at found
      rcases found with ⟨rfl, rfl, rfl⟩
      have apart : splitAtNewline (bytes.drop count ++ []) = none := by
        rw [splitAtNewline_eq_none] at split ⊢
        intro member
        rw [append_nil] at member
        exact split (mem_of_mem_drop member)
      rw [apart]
      simp
  | some pair =>
      rw [split] at found
      cases found
      rcases splitAtNewline_eq_some.mp split with ⟨before, apart, rfl, _⟩
      have at_most : count ≤ before.length := by
        by_contra more_than
        apply stays
        rw [drop_eq_nil_iff]
        simp at within ⊢
        omega
      have kept : (before ++ [newline]).drop count = before.drop count ++ [newline] :=
        drop_append_of_le_length at_most
      have split' : splitAtNewline ((before ++ [newline]).drop count ++ rest) =
          some ((before ++ [newline]).drop count, rest) :=
        splitAtNewline_eq_some.mpr ⟨before.drop count,
          fun member => apart (mem_of_mem_drop member), kept, rfl⟩
      rw [split']

/-- Bytes lost from the first line, from a non-blank character on, change what is processed. -/
theorem processedOf_drop_ne {bytes : List UInt8} (count : Nat) {line rest : List UInt8}
    {text : Text} (found : nextDelivered bytes how = some (line, rest))
    (decoded : utf8Decode line = some (c :: text)) (solid : isWhitespace c = false)
    (all : requestsOf bytes how = some requests) (lost : 0 < count)
    (within : count ≤ line.length) : processedOf (bytes.drop count) how ≠ requests := by
  have some_line : line ≠ [] := by
    intro empty
    rw [empty, utf8Decode, utf8DecodeFrom] at decoded
    simp at decoded
  rcases (requestsOf_of_next found some_line).mp all with ⟨_, more, same, later, rfl⟩
  rw [decoded] at same
  cases same
  rw [if_neg (trim_cons_ne_nil solid text)]
  have shape := (next_shape found).1
  have dropped : bytes.drop count = line.drop count ++ rest := by
    rw [shape, drop_append_of_le_length within]
  have fewer : more ≠ trim (c :: text) :: more := (cons_ne_self _ _).symm
  by_cases gone : line.drop count = []
  · rw [dropped, gone, nil_append, processedOf_eq later]
    exact fewer
  · have next := nextDelivered_drop count found within gone
    cases decoded' : utf8Decode (line.drop count) with
    | none =>
        rw [processedOf_of_undecodable next gone decoded']
        simp
    | some text' =>
        have encoded := utf8Decode_eq_some.mp decoded
        have encoded' := utf8Decode_eq_some.mp decoded'
        have some_text : text' ≠ [] := by
          intro empty
          rw [empty] at encoded'
          exact gone encoded'.symm
        rcases utf8Encode_drop (encoded ▸ encoded'.symm) lost some_text with
          ⟨early, some_early, split⟩
        have processed : requestsOf (bytes.drop count) how =
            some (if trim text' = [] then more else trim text' :: more) :=
          (requestsOf_of_next next gone).mpr ⟨text', more, decoded', later, rfl⟩
        rw [processedOf_eq processed]
        split_ifs with blank
        · exact fewer
        · intro same
          cases early with
          | nil => exact some_early rfl
          | cons head early =>
              have heads : c = head ∧ text = early ++ text' := by simpa using split
              rcases heads with ⟨rfl, rfl⟩
              have shorter := length_trim_lt solid early blank
              rw [(List.cons.inj same).1] at shorter
              simp at shorter

/-- A blank byte lost from the start changes nothing. -/
theorem requestsOf_cons_whitespace {byte : UInt8} (one : String.utf8EncodeChar c = [byte])
    (blank : isWhitespace c) (bytes : List UInt8) :
    requestsOf (byte :: bytes) how = requestsOf bytes how := by
  have decoded (line : List UInt8) :
      utf8Decode (byte :: line) = (utf8Decode line).map (c :: ·) := by
    have whole := utf8Decode_char_append c line
    rwa [one] at whole
  have alone : utf8Decode [byte] = some [c] := by
    rw [decoded]
    rfl
  have dropped : trim [c] = [] := by
    rw [trim_cons_whitespace blank]
    rfl
  rw [requestsOf, requestsOf, deliveredLines_eq_filter, deliveredLines_eq_filter, splitLines]
  split_ifs with feed
  · rw [filter_cons_of_pos (by simp [feed]), requestLines, alone]
    cases requestLines ((splitLines bytes).filter _) <;> simp [dropped]
  · cases splitLines bytes with
    | nil =>
        by_cases closed : how = .eof
        · simp [closed, requestLines, alone, dropped]
        · simp [closed, Ne.symm feed]
    | cons line lines =>
        by_cases kept : how = .eof ∨ newline ∈ line
        · rw [filter_cons_of_pos (by simpa [Ne.symm feed] using kept),
            filter_cons_of_pos (by simpa using kept), requestLines, requestLines, decoded]
          cases utf8Decode line <;> cases requestLines (lines.filter _) <;>
            simp [trim_cons_whitespace blank]
        · rw [filter_cons_of_neg (by simpa [Ne.symm feed] using kept),
            filter_cons_of_neg (by simpa using kept)]

/-- A first byte below 128 is a character of its own. -/
theorem utf8EncodeChar_of_lt {byte : UInt8} (ascii : byte < 128) :
    String.utf8EncodeChar (Char.ofNat byte.toNat) = [byte] := by
  have each : ∀ n < 128, String.utf8EncodeChar (Char.ofNat n) = [UInt8.ofNat n] := by
    decide
  rw [each byte.toNat (by simpa [UInt8.lt_iff_toNat_lt] using ascii), UInt8.ofNat_toNat]

/-- Only a character of its own starts with a byte below 128. -/
theorem utf8EncodeChar_head_lt {byte : UInt8} {more : List UInt8}
    (encoded : String.utf8EncodeChar c = byte :: more) (ascii : byte < 128) : more = [] := by
  have whole : utf8Decode (byte :: more) = some [c] :=
    utf8Decode_eq_some.mpr (by simp [encoded])
  have split := utf8Decode_char_append (Char.ofNat byte.toNat) more
  rw [utf8EncodeChar_of_lt ascii, singleton_append, whole] at split
  cases later : utf8Decode more with
  | none => simp [later] at split
  | some texts =>
      rw [later, Option.map_some, Option.some.injEq] at split
      rw [(List.cons.inj split).1, utf8EncodeChar_of_lt ascii] at encoded
      exact (List.cons.inj encoded).2.symm

/-- The byte of a character of one byte. -/
theorem eq_ofNat_of_utf8EncodeChar {byte : UInt8} (one : String.utf8EncodeChar c = [byte]) :
    byte < 128 ∧ c = Char.ofNat byte.toNat := by
  have size : c.utf8Size = 1 := by
    rw [← String.length_utf8EncodeChar, one]
    rfl
  have bound := UInt32.le_iff_toNat_le.mp (Char.utf8Size_eq_one_iff.mp size)
  have same : byte.toNat = c.toNat := by
    have encoded := String.utf8EncodeChar_eq_singleton size
    rw [one] at encoded
    rw [(List.cons.inj encoded).1, UInt32.toNat_toUInt8]
    have : c.val.toNat ≤ 127 := bound
    show c.val.toNat % 256 = c.val.toNat
    omega
  constructor
  · rw [UInt8.lt_iff_toNat_lt, same]
    have : c.toNat ≤ 127 := bound
    show c.toNat < 128
    omega
  · rw [same, Char.ofNat_toNat]

/-- Without the first byte of a character of several, a stream starts with a line that is not
UTF-8. -/
theorem processedOf_tail {first : UInt8} {more line rest : List UInt8} {text : Text}
    (found : nextDelivered (first :: more) how = some (line, rest))
    (decoded : utf8Decode line = some (c :: text)) :
    String.utf8EncodeChar c = [first] ∨ processedOf more how = [] := by
  have encoded := utf8Decode_eq_some.mp decoded
  have shape := (next_shape found).1
  cases line with
  | nil => simp at encoded
  | cons byte line =>
      have heads := List.cons.inj shape
      rcases heads with ⟨rfl, tail⟩
      cases size : String.utf8EncodeChar c with
      | nil => exact absurd size String.utf8EncodeChar_ne_nil
      | cons byte' others =>
          rw [utf8Encode_cons, size, cons_append] at encoded
          rcases List.cons.inj encoded with ⟨rfl, line_eq⟩
          cases others with
          | nil => exact .inl rfl
          | cons second others =>
              right
              have some_line : line ≠ [] := by
                rw [← line_eq]
                simp
              have feed : byte' ≠ newline := by
                rintro rfl
                have := utf8EncodeChar_head_lt size (by decide)
                simp at this
              have next : nextDelivered more how = some (line, rest) := by
                rw [nextDelivered, splitAtNewline, if_neg feed] at found
                rw [nextDelivered]
                cases split : splitAtNewline more with
                | none =>
                    rw [split] at found
                    simp only [Option.map_none, Option.ite_none_right_eq_some, Option.some.injEq,
                      Prod.mk.injEq, cons.injEq, true_and] at found
                    rcases found with ⟨rfl, rfl, rfl⟩
                    rfl
                | some pair =>
                    rw [split] at found
                    cases found
                    rfl
              refine processedOf_of_undecodable next some_line ?_
              cases late : utf8Decode line with
              | none => rfl
              | some texts =>
                  have later := utf8Decode_eq_some.mp late
                  have some_texts : texts ≠ [] := by
                    intro empty
                    rw [empty] at later
                    exact some_line later.symm
                  have dropped : (utf8Encode (c :: text)).drop 1 = utf8Encode texts := by
                    rw [later, utf8Encode_cons, size, ← line_eq]
                    rfl
                  rcases utf8Encode_drop dropped (by decide) some_texts with
                    ⟨early, some_early, split⟩
                  cases early with
                  | nil => exact absurd rfl some_early
                  | cons d early =>
                      have heads := List.cons.inj split
                      have lengths := congrArg List.length dropped
                      rw [utf8Encode_cons, size, show text = early ++ texts from heads.2,
                        utf8Encode_append] at lengths
                      simp at lengths
                      omega

end CoralReef
