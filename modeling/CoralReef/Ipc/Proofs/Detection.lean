import CoralReef.Ipc.UnixJsonrpc

/-!
# What detection leaves

The bytes that the first reads of a connection take, and those that the loop after them gets.
Every result is about the bytes of the stream, not about the reads that deliver them.
-/

namespace CoralReef

open AsyncRead

/-- The lines of a stream as text, up to the first that is not UTF-8. -/
def textLines (bytes : List UInt8) (ending : StreamEnd) : List Text :=
  decodeLines (deliveredLines bytes ending)

theorem processNewlineReaderWriter_eq {R : Type} [AsyncRead R] (env : ServerEnv) (count : Nat)
    (reader : R) :
    env.processNewlineReaderWriter count reader =
      env.answerLines count (textLines (content reader) (ending reader)) := by
  rw [ServerEnv.processNewlineReaderWriter, BufReader.lines_eq]
  rfl

/-- The first byte, if it arrives within the time-out of either listener. -/
def firstInTime (socket : Socket) : Option UInt8 :=
  match socket.arrivals with
  | [] => none
  | arrival :: _ => if arrival.wait < peekTimeout then some arrival.first else none

theorem firstInTime_mem_bytes {socket : Socket} {byte : UInt8}
    (found : firstInTime socket = some byte) : socket.bytes.head? = some byte := by
  rcases socket with ⟨_ | ⟨arrival, later⟩, ending⟩
  · simp [firstInTime] at found
  · simp only [firstInTime, Option.ite_none_right_eq_some, Option.some.injEq] at found
    simp [Socket.bytes, found.2]

/-- The time from the first byte until the first line is there. -/
def restDelay (socket : Socket) : Nat :=
  match socket.arrivals with
  | [] => 0
  | arrival :: later => if newline ∈ arrival.more then 0 else lineDelay later

/-- The Unix listener takes the first byte off the stream. -/
theorem readFirstByte_some {socket : Socket} {byte : UInt8}
    (found : firstInTime socket = some byte) :
    ∃ stream, readFirstByte socket = (some byte, stream) ∧
      socket.bytes = byte :: stream.bytes ∧ stream.ending = socket.ending ∧
      (BufReader.new stream).delay = restDelay socket := by
  rcases socket with ⟨_ | ⟨arrival, later⟩, ending⟩
  · simp [firstInTime] at found
  · simp only [firstInTime, Option.ite_none_right_eq_some, Option.some.injEq] at found
    rcases found with ⟨soon, rfl⟩
    refine ⟨⟨Socket.unread arrival.more later, ending⟩, ?_, ?_, rfl, ?_⟩
    · have second : g65Timeout ≤ arrival.wait →
          arrival.wait - g65Timeout < peekTimeout - g65Timeout := by
        simp only [g65Timeout, peekTimeout] at *
        omega
      simp only [readFirstByte, AsyncRead.read, Socket.read, Nat.sub_self, List.drop_zero]
      split_ifs with early late
      · rfl
      · rfl
      · exact absurd (second (Nat.not_lt.mp early)) late
    · rw [Socket.bytes_unread]
      rfl
    · simp [BufReader.delay, BufReader.new, lineDelay_unread, restDelay]

theorem readFirstByte_none {socket : Socket} (late : firstInTime socket = none) :
    readFirstByte socket = (none, socket) := by
  rcases socket with ⟨_ | ⟨arrival, later⟩, ending⟩
  · rfl
  · simp only [firstInTime, ite_eq_right_iff, reduceCtorEq, imp_false, Nat.not_lt] at late
    have first : ¬arrival.wait < g65Timeout := by
      simp only [g65Timeout, peekTimeout] at *
      omega
    have second : ¬arrival.wait - g65Timeout < peekTimeout - g65Timeout := by
      simp only [g65Timeout, peekTimeout] at *
      omega
    simp [readFirstByte, AsyncRead.read, Socket.read, first, second]

/-- The TCP listener leaves the first byte in its buffer. -/
theorem peekFirstByte_eq (socket : Socket) :
    ∃ reader, peekFirstByte socket = (firstInTime socket, reader) ∧
      content reader = socket.bytes ∧ ending reader = socket.ending ∧
      ∀ byte, firstInTime socket = some byte → byte ≠ newline →
        reader.delay = restDelay socket := by
  rcases socket with ⟨_ | ⟨arrival, later⟩, stop⟩
  · exact ⟨_, rfl, rfl, rfl, by simp [firstInTime]⟩
  · by_cases soon : arrival.wait < peekTimeout
    · have peeked : peekFirstByte ⟨arrival :: later, stop⟩ = (some arrival.first,
          ⟨arrival.first :: arrival.more.take (bufCapacity - 1),
            ⟨Socket.unread (arrival.more.drop (bufCapacity - 1)) later, stop⟩⟩) := by
        simp [peekFirstByte, BufReader.new, BufReader.fillBuf, AsyncRead.read, Socket.read,
          Read.map, soon]
      refine ⟨_, by rw [peeked]; simp [firstInTime, soon]; rfl, ?_, rfl, ?_⟩
      · rw [content_bufReader]
        show _ ++ (Socket.mk _ stop).bytes = _
        rw [Socket.bytes_unread]
        simp [Socket.bytes, ← List.append_assoc]
      · intro byte found other
        simp only [firstInTime, soon, if_true, Option.some.injEq] at found
        subst found
        have cut : newline ∈ arrival.more ↔ newline ∈ arrival.more.take (bufCapacity - 1) ∨
            newline ∈ arrival.more.drop (bufCapacity - 1) := by
          rw [← List.mem_append, List.take_append_drop]
        simp only [BufReader.delay, lineDelay_unread, restDelay, List.mem_cons, cut,
          Ne.symm other, false_or]
        split_ifs <;> simp_all
    · refine ⟨BufReader.new ⟨arrival :: later, stop⟩, ?_, rfl, rfl, ?_⟩
      · simp [peekFirstByte, BufReader.new, BufReader.fillBuf, AsyncRead.read,
          Socket.read, Read.map, firstInTime, soon]
      · simp [firstInTime, soon]

/-- The first line of a stream as text, with the bytes after it. -/
def firstLineOf (bytes : List UInt8) (ending : StreamEnd) : Option (Text × List UInt8) :=
  match nextDelivered bytes ending with
  | none => none
  | some (line, rest) =>
      if line = [] then none else (utf8Decode line).map fun text => (text, rest)

/-- A first line that is read has arrived in time and is UTF-8. -/
theorem readFirstLine_some {reader rest : BufReader Socket} {line : Text}
    (result : readFirstLine reader = some (line, rest)) :
    reader.delay < peekTimeout ∧
      firstLineOf (content reader) (ending reader) = some (line, content rest) ∧
      ending rest = ending reader := by
  rw [readFirstLine] at result
  cases read : reader.readLine with
  | stopped how => simp [read] at result
  | line waited bytes rest' =>
      rcases BufReader.readLine_line read with ⟨found, same_end⟩
      have spent := BufReader.readLine_waited read
      rw [read] at result
      dsimp only at result
      split_ifs at result with unusable
      rw [not_or, Nat.not_le] at unusable
      rw [Option.map_eq_some_iff] at result
      rcases result with ⟨text, decoded, same⟩
      cases same
      refine ⟨by omega, ?_, same_end⟩
      rw [firstLineOf, found]
      simp [unusable.2, decoded]

/-- No first line is read when it is late, missing or not UTF-8. -/
theorem readFirstLine_none {reader : BufReader Socket} (result : readFirstLine reader = none)
    (soon : reader.delay < peekTimeout) :
    firstLineOf (content reader) (ending reader) = none := by
  rw [readFirstLine] at result
  cases read : reader.readLine with
  | stopped how => rw [firstLineOf, (BufReader.readLine_stopped read).1]
  | line waited bytes rest =>
      have spent := BufReader.readLine_waited read
      rw [read] at result
      rw [firstLineOf, (BufReader.readLine_line read).1]
      dsimp only at result ⊢
      by_cases blank : bytes = []
      · rw [if_pos blank]
      · rw [if_neg (by rw [not_or]; exact ⟨by omega, blank⟩)] at result
        rw [if_neg blank]
        simpa using result

/-- A character of one byte in front of a line. -/
theorem firstLineOf_cons {c : Char} {byte : UInt8} (one : String.utf8EncodeChar c = [byte])
    (other : byte ≠ newline) (bytes : List UInt8) (ending : StreamEnd) :
    firstLineOf (byte :: bytes) ending =
      if bytes = [] ∧ ending = .eof then some ([c], [])
      else (firstLineOf bytes ending).map fun (text, rest) => (c :: text, rest) := by
  have decoded (line : List UInt8) :
      utf8Decode (byte :: line) = (utf8Decode line).map (c :: ·) := by
    have whole := utf8Decode_char_append c line
    rwa [one] at whole
  rw [firstLineOf, firstLineOf, nextDelivered, nextDelivered, splitAtNewline, if_neg other]
  cases split : splitAtNewline bytes with
  | some pair =>
      rcases pair with ⟨line, rest⟩
      rcases splitAtNewline_eq_some.mp split with ⟨before, _, rfl, rfl⟩
      have some_line : before ++ [newline] ≠ [] := by simp
      have some_bytes : before ++ [newline] ++ rest ≠ [] := by simp
      simp only [Option.map_some, reduceCtorEq, if_false, decoded, some_line, some_bytes, false_and]
      cases utf8Decode (before ++ [newline]) <;> rfl
  | none =>
      simp only [Option.map_none]
      by_cases closed : ending = .eof
      · by_cases empty : bytes = []
        · subst empty
          simp only [closed, and_self, if_true, reduceCtorEq, if_false, decoded]
          rfl
        · simp only [closed, empty, if_true, if_false, false_and, reduceCtorEq, decoded]
          cases utf8Decode bytes <;> rfl
      · simp [closed]

end CoralReef
