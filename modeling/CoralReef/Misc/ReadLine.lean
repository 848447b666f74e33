import CoralReef.Misc.AsyncRead
import Mathlib.Data.List.DropRight

/-!
# Lines of a byte stream

`read_line` and `lines` over a buffered reader. Both see the lines that the bytes spell,
wherever the reads were cut: `readLine_line` for one line, `lines_eq` for all.
-/

open List

namespace CoralReef

open AsyncRead

variable {bytes : List UInt8}

/-- The byte of a line feed. -/
def newline : UInt8 := 10

/-! ## Splitting bytes at line feeds -/

/-- The first line with its line feed, and the bytes after it. -/
def splitAtNewline : List UInt8 → Option (List UInt8 × List UInt8)
  | [] => none
  | byte :: bytes =>
      if byte = newline then some ([byte], bytes)
      else (splitAtNewline bytes).map fun (line, rest) => (byte :: line, rest)

/-- All the lines, each with its line feed; the last may lack one. -/
def splitLines : List UInt8 → List (List UInt8)
  | [] => []
  | byte :: bytes =>
      if byte = newline then [byte] :: splitLines bytes
      else
        match splitLines bytes with
        | [] => [[byte]]
        | line :: lines => (byte :: line) :: lines

theorem splitAtNewline_eq_none :
    splitAtNewline bytes = none ↔ newline ∉ bytes := by
  induction bytes with
  | nil => simp [splitAtNewline]
  | cons byte bytes hind =>
      rw [splitAtNewline]
      split
      next same => simp [same]
      next other => simp [hind, Ne.symm other]

theorem splitAtNewline_eq_some {bytes line rest : List UInt8} :
    splitAtNewline bytes = some (line, rest) ↔
      ∃ before, newline ∉ before ∧ line = before ++ [newline] ∧ bytes = line ++ rest := by
  induction bytes generalizing line with
  | nil =>
      simp only [splitAtNewline, reduceCtorEq, false_iff]
      rintro ⟨before, _, rfl, whole⟩
      simp at whole
  | cons byte bytes hind =>
      rw [splitAtNewline]
      split
      next same =>
        constructor
        · intro found
          cases found
          exact ⟨[], by simp, by simp [same], rfl⟩
        · rintro ⟨_ | ⟨head, before⟩, apart, rfl, whole⟩
          · cases whole
            rfl
          · cases whole
            simp [same] at apart
      next other =>
        simp only [Option.map_eq_some_iff, Prod.exists, Prod.mk.injEq]
        constructor
        · rintro ⟨line', rest', found, rfl, rfl⟩
          rcases hind.mp found with ⟨before, apart, rfl, rfl⟩
          exact ⟨byte :: before, by simp [apart, Ne.symm other], rfl, rfl⟩
        · rintro ⟨_ | ⟨head, before⟩, apart, rfl, whole⟩
          · cases whole
            exact absurd rfl other
          · cases whole
            rw [mem_cons, not_or] at apart
            exact ⟨_, _, hind.mpr ⟨before, apart.2, rfl, rfl⟩, rfl, rfl⟩

theorem splitAtNewline_append {bytes line rest : List UInt8} (later : List UInt8)
    (found : splitAtNewline bytes = some (line, rest)) :
    splitAtNewline (bytes ++ later) = some (line, rest ++ later) := by
  rcases splitAtNewline_eq_some.mp found with ⟨before, apart, shape, rfl⟩
  exact splitAtNewline_eq_some.mpr ⟨before, apart, shape, by simp⟩

theorem splitAtNewline_none_append (later : List UInt8) (missing : splitAtNewline bytes = none) :
    splitAtNewline (bytes ++ later) =
      (splitAtNewline later).map fun (line, rest) => (bytes ++ line, rest) := by
  induction bytes with
  | nil => simp
  | cons byte bytes hind =>
      rw [splitAtNewline] at missing
      split at missing
      next => simp at missing
      next other =>
        rw [Option.map_eq_none_iff] at missing
        rw [cons_append, splitAtNewline, if_neg other, hind missing]
        simp [Function.comp_def]

theorem splitLines_of_some {bytes line rest : List UInt8}
    (found : splitAtNewline bytes = some (line, rest)) :
    splitLines bytes = line :: splitLines rest := by
  induction bytes generalizing line with
  | nil => simp [splitAtNewline] at found
  | cons byte bytes hind =>
      rw [splitAtNewline] at found
      rw [splitLines]
      split at found
      next same =>
        cases found
        rw [if_pos same]
      next other =>
        rw [Option.map_eq_some_iff] at found
        rcases found with ⟨⟨line', rest'⟩, split, shape⟩
        cases shape
        rw [if_neg other, hind split]

theorem splitLines_of_none (missing : splitAtNewline bytes = none) :
    splitLines bytes = if bytes = [] then [] else [bytes] := by
  induction bytes with
  | nil => rfl
  | cons byte bytes hind =>
      rw [splitAtNewline] at missing
      split at missing
      next => simp at missing
      next other =>
        rw [Option.map_eq_none_iff] at missing
        rw [splitLines, if_neg other, hind missing]
        cases bytes <;> simp

/-- The lines a stream delivers: an unfinished last line only when the stream is closed. -/
def deliveredLines (bytes : List UInt8) (ending : StreamEnd) : List (List UInt8) :=
  match ending with
  | .eof => splitLines bytes
  | _ => (splitLines bytes).filter (newline ∈ ·)

theorem deliveredLines_eq_filter (bytes : List UInt8) (ending : StreamEnd) :
    deliveredLines bytes ending =
      (splitLines bytes).filter fun line => ending = .eof ∨ newline ∈ line := by
  cases ending <;> simp [deliveredLines]

/-- The next line a stream delivers, and the bytes after it; nothing is left of a closed
stream without another line feed. -/
def nextDelivered (bytes : List UInt8) (ending : StreamEnd) :
    Option (List UInt8 × List UInt8) :=
  match splitAtNewline bytes with
  | some found => some found
  | none => if ending = .eof then some (bytes, []) else none

theorem deliveredLines_of_some {bytes line rest : List UInt8} {ending : StreamEnd}
    (found : nextDelivered bytes ending = some (line, rest)) (some_bytes : line ≠ []) :
    deliveredLines bytes ending = line :: deliveredLines rest ending := by
  rw [nextDelivered] at found
  cases split : splitAtNewline bytes with
  | some pair =>
      rw [split] at found
      cases found
      have ends : newline ∈ line := by
        rcases splitAtNewline_eq_some.mp split with ⟨before, _, rfl, _⟩
        simp
      cases ending <;> simp [deliveredLines, splitLines_of_some split, ends]
  | none =>
      rw [split] at found
      simp only [Option.ite_none_right_eq_some, Option.some.injEq, Prod.mk.injEq] at found
      rcases found with ⟨rfl, rfl, rfl⟩
      simp [deliveredLines, splitLines_of_none split, some_bytes, splitLines]

theorem deliveredLines_of_nil {bytes rest : List UInt8} {ending : StreamEnd}
    (found : nextDelivered bytes ending = some ([], rest)) : deliveredLines bytes ending = [] := by
  rw [nextDelivered] at found
  cases split : splitAtNewline bytes with
  | some pair =>
      rw [split] at found
      cases found
      rcases splitAtNewline_eq_some.mp split with ⟨before, _, empty, _⟩
      simp at empty
  | none =>
      rw [split] at found
      simp only [Option.ite_none_right_eq_some, Option.some.injEq, Prod.mk.injEq] at found
      rcases found with ⟨rfl, rfl, rfl⟩
      rfl

theorem deliveredLines_of_none {ending : StreamEnd} (missing : nextDelivered bytes ending = none) :
    deliveredLines bytes ending = [] := by
  rw [nextDelivered] at missing
  cases split : splitAtNewline bytes with
  | some pair => simp [split] at missing
  | none =>
      have apart := splitAtNewline_eq_none.mp split
      cases ending with
      | eof => simp [split] at missing
      | broken | silent =>
          simp only [deliveredLines, splitLines_of_none split]
          split_ifs <;> simp [apart]

/-! ## Reading a line -/

/-- `read_line`: the time spent, the bytes of the line and the reader after it. -/
inductive LineRead (R : Type) where
  | line (waited : Nat) (bytes : List UInt8) (rest : R)
  | stopped (how : StreamEnd)

namespace BufReader

variable {R : Type} [AsyncRead R]

/-- The loop of `read_line`, with the bytes of the line found so far. -/
def readLineFrom : Nat → Nat → List UInt8 → BufReader R → LineRead (BufReader R)
  | 0, _, _, reader => .stopped (AsyncRead.ending reader)
  | fuel + 1, waited, found, reader =>
      match reader.fillBuf with
      | .stopped .eof => .line waited found reader
      | .stopped how => .stopped how
      | .got wait first more rest =>
          match splitAtNewline (first :: more) with
          | some (line, after) => .line (waited + wait) (found ++ line) ⟨after, rest.inner⟩
          | none => readLineFrom fuel (waited + wait) (found ++ first :: more) rest

/-- `read_line`, before the text is decoded. Every pass takes a byte off the stream. -/
def readLine (reader : BufReader R) : LineRead (BufReader R) :=
  readLineFrom ((AsyncRead.content reader).length + 1) 0 [] reader

/-- What a line reader that has found `found` returns, by the bytes still to come. -/
theorem readLineFrom_spec {fuel : Nat} (waited : Nat) (found : List UInt8) {reader : BufReader R}
    (enough : (AsyncRead.content reader).length < fuel) :
    match readLineFrom fuel waited found reader with
    | .line _ bytes rest =>
        AsyncRead.ending rest = AsyncRead.ending reader ∧
        ∃ line, bytes = found ++ line ∧
          nextDelivered (AsyncRead.content reader) (AsyncRead.ending reader) =
            some (line, AsyncRead.content rest)
    | .stopped how =>
        nextDelivered (AsyncRead.content reader) (AsyncRead.ending reader) = none ∧
          how = AsyncRead.ending reader := by
  induction fuel generalizing waited found reader with
  | zero => simp at enough
  | succ fuel hind =>
      rw [readLineFrom]
      cases filled : reader.fillBuf with
      | stopped how =>
          rcases fillBuf_stopped filled with ⟨empty, ends⟩
          have no_content : AsyncRead.content reader = [] := empty
          have same_end : AsyncRead.ending reader = how := ends
          cases how with
          | eof => exact ⟨rfl, [], by simp, by simp [no_content, same_end, nextDelivered,
              splitAtNewline]⟩
          | broken | silent =>
              exact ⟨by simp [no_content, same_end, nextDelivered, splitAtNewline],
                same_end.symm⟩
      | got wait first more rest =>
          rcases fillBuf_got filled with ⟨empty, bytes, ends⟩
          have content : AsyncRead.content reader =
              first :: more ++ AsyncRead.content rest.inner := bytes
          have same_end : AsyncRead.ending rest = AsyncRead.ending reader := ends
          have rest_content : AsyncRead.content rest = AsyncRead.content rest.inner := by
            rcases rest with ⟨buf, inner⟩
            simp only at empty
            simp [empty]
          dsimp only
          cases split : splitAtNewline (first :: more) with
          | some pair =>
              rcases pair with ⟨line, after⟩
              refine ⟨same_end, line, rfl, ?_⟩
              rw [content, nextDelivered, splitAtNewline_append _ split]
              rfl
          | none =>
              dsimp only
              have shorter : (AsyncRead.content rest).length < fuel := by
                rw [rest_content]
                rw [content] at enough
                simp at enough
                omega
              have later : nextDelivered (AsyncRead.content reader) (AsyncRead.ending reader) =
                  (nextDelivered (AsyncRead.content rest) (AsyncRead.ending rest)).map
                    fun (line, after) => (first :: more ++ line, after) := by
                rw [content, rest_content, same_end, nextDelivered, nextDelivered,
                  splitAtNewline_none_append _ split]
                cases splitAtNewline (AsyncRead.content rest.inner) with
                | some pair => rfl
                | none =>
                    dsimp only [Option.map_none]
                    split <;> rfl
              have ih := hind (waited + wait) (found ++ first :: more) shorter
              cases result : readLineFrom fuel (waited + wait) (found ++ first :: more) rest with
              | line waited' bytes' rest' =>
                  rw [result] at ih
                  rcases ih with ⟨ends', line, rfl, found'⟩
                  refine ⟨ends'.trans same_end, first :: more ++ line, by simp, ?_⟩
                  rw [later, found']
                  rfl
              | stopped how =>
                  rw [result] at ih
                  exact ⟨by rw [later, ih.1]; rfl, ih.2.trans same_end⟩

/-- A line that was read is the next one of the stream. -/
theorem readLine_line {reader rest : BufReader R} {waited : Nat} {bytes : List UInt8}
    (result : readLine reader = .line waited bytes rest) :
    nextDelivered (AsyncRead.content reader) (AsyncRead.ending reader) =
        some (bytes, AsyncRead.content rest) ∧
      AsyncRead.ending rest = AsyncRead.ending reader := by
  have spec := readLineFrom_spec 0 []
    (Nat.lt_succ_self (AsyncRead.content reader).length)
  rw [← readLine.eq_def, result] at spec
  rcases spec with ⟨ends, line, rfl, found⟩
  exact ⟨by simpa using found, ends⟩

/-- No line is read only where the stream delivers none. -/
theorem readLine_stopped {reader : BufReader R} {how : StreamEnd}
    (result : readLine reader = .stopped how) :
    nextDelivered (AsyncRead.content reader) (AsyncRead.ending reader) = none ∧
      how = AsyncRead.ending reader := by
  have spec := readLineFrom_spec 0 []
    (Nat.lt_succ_self (AsyncRead.content reader).length)
  rw [← readLine.eq_def, result] at spec
  exact spec

end BufReader

/-! ## The time a line takes -/

/-- The time until the first line feed of the arrivals, or until the last of them. -/
def lineDelay : List Arrival → Nat
  | [] => 0
  | arrival :: later =>
      if newline ∈ arrival.first :: arrival.more then arrival.wait
      else arrival.wait + lineDelay later

theorem lineDelay_unread (left : List UInt8) (later : List Arrival) :
    lineDelay (Socket.unread left later) = if newline ∈ left then 0 else lineDelay later := by
  cases left with
  | nil => simp [Socket.unread]
  | cons first more => simp [Socket.unread, lineDelay]

namespace BufReader

/-- The time until a line is in the buffer. -/
def delay (reader : BufReader Socket) : Nat :=
  if newline ∈ reader.buf then 0 else lineDelay reader.inner.arrivals

/-- A buffer that is filled holds a line or has spent the time of the bytes it holds. -/
theorem delay_fillBuf {reader rest : BufReader Socket} {wait : Nat} {first : UInt8}
    {more : List UInt8} (filled : reader.fillBuf = .got wait first more rest) :
    reader.delay = wait + if newline ∈ first :: more then 0 else rest.delay := by
  rcases reader with ⟨_ | ⟨head, tail⟩, arrivals, ending⟩
  · cases arrivals with
    | nil => simp [fillBuf, AsyncRead.read, Socket.read, Read.map] at filled
    | cons arrival later =>
        simp only [fillBuf, AsyncRead.read, Socket.read, Read.map, Read.got.injEq] at filled
        rcases filled with ⟨rfl, rfl, rfl, rfl⟩
        have cut := take_append_drop (bufCapacity - 1) arrival.more
        generalize arrival.more.take (bufCapacity - 1) = taken at cut
        generalize arrival.more.drop (bufCapacity - 1) = left at cut
        simp only [delay, lineDelay, lineDelay_unread, not_mem_nil, if_false, mem_cons,
          ← cut, mem_append]
        split_ifs <;> simp_all
  · simp only [fillBuf, Read.got.injEq] at filled
    rcases filled with ⟨rfl, rfl, rfl, rfl⟩
    simp [delay]

theorem readLineFrom_waited {fuel waited total : Nat} {found bytes : List UInt8}
    {reader rest : BufReader Socket}
    (result : readLineFrom fuel waited found reader = .line total bytes rest) :
    total = waited + reader.delay := by
  induction fuel generalizing waited found reader with
  | zero => simp [readLineFrom] at result
  | succ fuel hind =>
      rw [readLineFrom] at result
      cases filled : reader.fillBuf with
      | stopped how =>
          rcases reader with ⟨_ | ⟨head, tail⟩, _ | ⟨arrival, later⟩, ending⟩
          · rw [filled] at result
            cases how with
            | eof =>
                cases result
                simp [delay, lineDelay]
            | broken | silent => simp at result
          · simp [fillBuf, AsyncRead.read, Socket.read, Read.map] at filled
          · simp [fillBuf] at filled
          · simp [fillBuf] at filled
      | got wait first more rest' =>
          have spent := delay_fillBuf filled
          rw [filled] at result
          dsimp only at result
          cases split : splitAtNewline (first :: more) with
          | some pair =>
              rw [split] at result
              cases result
              have here : newline ∈ first :: more := by
                rw [← not_not (a := newline ∈ first :: more), ← splitAtNewline_eq_none, split]
                simp
              rw [spent, if_pos here, Nat.add_zero]
          | none =>
              rw [split] at result
              rw [hind result, spent, if_neg (splitAtNewline_eq_none.mp split), Nat.add_assoc]

/-- A line is read when its line feed, or the end of the stream, has arrived. -/
theorem readLine_waited {waited : Nat} {bytes : List UInt8} {reader rest : BufReader Socket}
    (result : readLine reader = .line waited bytes rest) : waited = reader.delay := by
  rw [readLineFrom_waited result, Nat.zero_add]

end BufReader

/-! ## Lines as text -/

/-- `char::is_whitespace`. -/
def isWhitespace (c : Char) : Bool :=
  let code := c.toNat
  (9 ≤ code && code ≤ 13) || code = 0x20 || code = 0x85 || code = 0xA0 || code = 0x1680 ||
    (0x2000 ≤ code && code ≤ 0x200A) || code = 0x2028 || code = 0x2029 || code = 0x202F ||
    code = 0x205F || code = 0x3000

/-- `str::trim`. -/
def trim (text : List Char) : List Char :=
  (text.dropWhile isWhitespace).rdropWhile isWhitespace

/-- A line without its line feed or carriage return and line feed. -/
def chomp (line : List Char) : List Char :=
  if line.getLast? = some '\n' then
    if line.dropLast.getLast? = some '\r' then line.dropLast.dropLast else line.dropLast
  else line

theorem trim_append_whitespace {c : Char} (text : List Char) (blank : isWhitespace c) :
    trim (text ++ [c]) = trim text := by
  by_cases all : ∀ d ∈ text, isWhitespace d
  · have first : text.dropWhile isWhitespace = [] := dropWhile_eq_nil_iff.mpr all
    have second : (text ++ [c]).dropWhile isWhitespace = [] := by
      rw [dropWhile_eq_nil_iff]
      intro d member
      rcases mem_append.mp member with early | last
      · exact all d early
      · rw [mem_singleton.mp last]
        exact blank
    rw [trim, trim, first, second]
  · have stays : text.dropWhile isWhitespace ≠ [] := by
      rw [ne_eq, dropWhile_eq_nil_iff]
      exact all
    rw [trim, trim, dropWhile_append, if_neg (by simpa using stays),
      rdropWhile_concat_pos _ _ _ blank]

theorem trim_dropLast {text : List Char} {c : Char} (last : text.getLast? = some c)
    (blank : isWhitespace c) : trim text.dropLast = trim text := by
  have shape := dropLast_append_getLast? c last
  rw [← trim_append_whitespace text.dropLast blank, shape]

theorem trim_chomp (line : List Char) : trim (chomp line) = trim line := by
  rw [chomp]
  split_ifs with feed carriage
  · rw [trim_dropLast carriage (by decide), trim_dropLast feed (by decide)]
  · exact trim_dropLast feed (by decide)
  · rfl

/-- The texts of lines, up to the first that is not UTF-8. -/
def decodeLines : List (List UInt8) → List (List Char)
  | [] => []
  | line :: lines =>
      match utf8Decode line with
      | none => []
      | some text => chomp text :: decodeLines lines

namespace BufReader

variable {R : Type} [AsyncRead R]

/-- `Lines::next_line`, when it returns a line. -/
def nextLine (reader : BufReader R) : Option (List Char × BufReader R) :=
  match readLine reader with
  | .line _ bytes rest =>
      if bytes = [] then none else (utf8Decode bytes).map fun text => (chomp text, rest)
  | .stopped _ => none

/-- The lines that `next_line` returns before it returns none, for at most `fuel` calls. -/
def linesFrom : Nat → BufReader R → List (List Char)
  | 0, _ => []
  | fuel + 1, reader =>
      match nextLine reader with
      | none => []
      | some (text, rest) => text :: linesFrom fuel rest

/-- `lines`: every line takes a byte off the stream. -/
def lines (reader : BufReader R) : List (List Char) :=
  linesFrom ((AsyncRead.content reader).length + 1) reader

theorem length_content_lt {bytes line rest : List UInt8} {ending : StreamEnd}
    (found : nextDelivered bytes ending = some (line, rest)) (some_bytes : line ≠ []) :
    rest.length < bytes.length := by
  rw [nextDelivered] at found
  cases split : splitAtNewline bytes with
  | some pair =>
      rw [split] at found
      cases found
      rcases splitAtNewline_eq_some.mp split with ⟨before, _, rfl, rfl⟩
      simp
      omega
  | none =>
      rw [split] at found
      simp only [Option.ite_none_right_eq_some, Option.some.injEq, Prod.mk.injEq] at found
      rcases found with ⟨_, rfl, rfl⟩
      exact length_pos_iff.mpr some_bytes

theorem linesFrom_eq {fuel : Nat} {reader : BufReader R}
    (enough : (AsyncRead.content reader).length < fuel) :
    linesFrom fuel reader =
      decodeLines (deliveredLines (AsyncRead.content reader) (AsyncRead.ending reader)) := by
  induction fuel generalizing reader with
  | zero => simp at enough
  | succ fuel hind =>
      rw [linesFrom, nextLine]
      cases result : readLine reader with
      | stopped how => simp [deliveredLines_of_none (readLine_stopped result).1, decodeLines]
      | line waited bytes rest =>
          rcases readLine_line result with ⟨found, ends⟩
          dsimp only
          by_cases empty : bytes = []
          · subst empty
            simp [deliveredLines_of_nil found, decodeLines]
          · rw [if_neg empty, deliveredLines_of_some found empty, decodeLines]
            cases decoded : utf8Decode bytes with
            | none => simp
            | some text =>
                simp only [Option.map_some]
                have shorter := length_content_lt found empty
                rw [hind (by omega), ends]

/-- `lines` yields the texts of the lines that the bytes spell. -/
theorem lines_eq (reader : BufReader R) :
    lines reader =
      decodeLines (deliveredLines (AsyncRead.content reader) (AsyncRead.ending reader)) :=
  linesFrom_eq (Nat.lt_succ_self _)

end BufReader

end CoralReef
