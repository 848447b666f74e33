import CoralReef.Ipc.Proofs.Guard
import CoralReef.Ipc.Proofs.Requests

/-!
# What detection loses

The requests processed on an accepted connection against the lines that its stream delivers, without
its negotiation or handshake lines. The two agree exactly on the streams that `Kept` describes: the
Unix listener drops a first byte that is neither `P` nor a brace and the start of a line that
is not a negotiation, the TCP listener takes a negotiation for a request, and both take a
request that names the handshake for a hello.
-/

namespace CoralReef

open List AsyncRead

variable {env : ServerEnv} {bytes : List UInt8} {how : StreamEnd}

/-- The two listeners. -/
inductive Listener where
  | unix
  | tcp
  deriving DecidableEq, Repr

/-- A connection accepted by a listener. -/
def Listener.connection : Listener → ServerEnv → Socket → List ConnEvent
  | .unix => dispatchConnection
  | .tcp => tcpConnection

/-! ## What a connection processes -/

/-- The requests that were processed, each with its response line. -/
def exchanges (events : List ConnEvent) : List (Text × Text) :=
  events.filterMap fun
    | .answered request response => some (request, response)
    | _ => none

/-- The bytes that the `tarpc` server was given. -/
def tarpcStream (events : List ConnEvent) : Option (List UInt8) :=
  events.findSome? fun
    | .tarpc bytes => some bytes
    | _ => none

/-- The id of a request, null for a line that is not one. -/
def ServerEnv.requestId (env : ServerEnv) (request : Text) : Json :=
  match env.serde.requestFromStr request with
  | .ok req => req.id
  | .error _ => .null

/-- One line that carries the id of the request. -/
def Answers (env : ServerEnv) (request response : Text) : Prop :=
  '\n' ∉ response ∧
    ∃ message : Json, response = message.compact ∧ message.get "id" = some (env.requestId request)

/-- The requests of the bytes were processed in order and answered one by one. -/
def Processes (env : ServerEnv) (events : List ConnEvent) (bytes : List UInt8)
    (how : StreamEnd) : Prop :=
  ∃ requests, requestsOf bytes how = some requests ∧ (exchanges events).map Prod.fst = requests ∧
    ∀ exchange ∈ exchanges events, Answers env exchange.1 exchange.2

theorem exchanges_append (first second : List ConnEvent) :
    exchanges (first ++ second) = exchanges first ++ exchanges second :=
  filterMap_append

theorem get_id_makeResponse (id : Json) (result : Except IpcServiceError Json) :
    (makeResponse id result).get "id" = some id := by
  cases result <;> rfl

theorem answers_answer (env : ServerEnv) (count : Nat) (request : Text) :
    Answers env request (env.answer count request).2.compact := by
  refine ⟨Json.newline_notMem_compact _, _, rfl, ?_⟩
  rw [ServerEnv.answer, ServerEnv.requestId]
  cases env.serde.requestFromStr request with
  | error message =>
      dsimp only
      exact get_id_makeResponse _ _
  | ok req =>
      dsimp only
      split <;> (dsimp only; exact get_id_makeResponse _ _)

theorem exchanges_answer (env : ServerEnv) (count : Nat) (request : Text) :
    exchanges (env.answer count request).1 = [] := by
  rw [ServerEnv.answer]
  cases env.serde.requestFromStr request with
  | error message => rfl
  | ok req =>
      dsimp only
      split <;> rfl

/-- A loop whose client takes every response answers every non-blank line. -/
theorem exchanges_answerLines (takes : ∀ count, env.takes count) (count : Nat) (lines : List Text) :
    (exchanges (env.answerLines count lines)).map Prod.fst =
        (lines.map trim).filter (· ≠ []) ∧
      ∀ exchange ∈ exchanges (env.answerLines count lines), Answers env exchange.1 exchange.2 := by
  induction lines generalizing count with
  | nil => exact ⟨rfl, by simp [ServerEnv.answerLines, exchanges]⟩
  | cons line lines hind =>
      by_cases blank : trim line = []
      · rw [ServerEnv.answerLines_blank blank, map_cons,
          filter_cons_of_neg (by simpa using blank)]
        exact hind count
      · rcases hind (count + 1) with ⟨later, answered⟩
        rw [ServerEnv.answerLines_request blank, if_pos (takes count), exchanges_append,
          exchanges_answer, nil_append, map_cons,
          filter_cons_of_pos (by simpa using blank)]
        constructor
        · show trim line :: (exchanges (env.answerLines (count + 1) lines)).map Prod.fst = _
          rw [later]
        · intro exchange member
          rcases mem_cons.mp member with rfl | member
          · exact answers_answer env count (trim line)
          · exact answered exchange member

/-- After a guard, a loop over the bytes processes all their requests exactly when they are
the requests of the other bytes. -/
theorem processes_iff (takes : ∀ count, env.takes count) {count : Nat} {guard : List ConnEvent}
    {bytes whole : List UInt8} (quiet : exchanges guard = []) :
    Processes env (guard ++ env.answerLines count (textLines bytes how)) whole how ↔
      requestsOf whole how = some (processedOf bytes how) := by
  rcases exchanges_answerLines takes count (textLines bytes how) with ⟨texts, answered⟩
  rw [Processes, exchanges_append, quiet, nil_append, texts]
  constructor
  · rintro ⟨requests, all, same, _⟩
    rw [all, ← same]
    rfl
  · intro all
    exact ⟨_, all, rfl, answered⟩

/-- Where nothing is processed, nothing is lost exactly of a stream without requests. -/
theorem processes_quiet {events : List ConnEvent} (quiet : exchanges events = []) :
    Processes env events bytes how ↔ requestsOf bytes how = some [] := by
  constructor
  · rintro ⟨requests, all, same, _⟩
    rw [quiet, map_nil] at same
    rw [all, ← same]
  · intro empty
    exact ⟨[], empty, by rw [quiet]; rfl, by simp [quiet]⟩

theorem processedOf_self :
    requestsOf bytes how = some (processedOf bytes how) ↔ requestsOf bytes how ≠ none := by
  constructor
  · intro all
    simp [all]
  · intro some_requests
    rcases Option.ne_none_iff_exists'.mp some_requests with ⟨requests, all⟩
    rw [all, processedOf_eq all]

/-! ## What is not a request -/

/-- The bytes after a complete negotiation line, with the protocols it names. -/
def negotiationLine (bytes : List UInt8) : Option (List IpcProtocol × List UInt8) :=
  match splitAtNewline bytes with
  | none => none
  | some (line, rest) =>
      if bytes.head? = some 80 ∧ line.length ≤ maxNegotiationLineLen + 1 then
        ((utf8Decode line).bind fromWire).map fun names => (names, rest)
      else none

/-- The first line when it looks like a hello. -/
def helloLooks (bytes : List UInt8) (how : StreamEnd) : Option (Text × List UInt8) :=
  if bytes.head? = some plainJsonrpcMarker then
    (firstLineOf bytes how).filter fun (line, _) => lineLooksLikeBtspClientHello line
  else none

/-- The bytes after a hello, which is no JSON-RPC request. -/
def helloLine (env : ServerEnv) (bytes : List UInt8) (how : StreamEnd) : Option (List UInt8) :=
  match helloLooks bytes how with
  | none => none
  | some (line, rest) =>
      match env.serde.requestFromStr (trim line) with
      | .ok _ => none
      | .error _ => some rest

/-- The stream starts with a JSON-RPC request that only names the handshake. -/
def NamesHandshake (env : ServerEnv) (bytes : List UInt8) (how : StreamEnd) : Prop :=
  ∃ line rest req, helloLooks bytes how = some (line, rest) ∧
    env.serde.requestFromStr (trim line) = .ok req

/-- The bytes after the line that answers the challenge. -/
def afterResponse (bytes : List UInt8) (how : StreamEnd) : List UInt8 :=
  match nextDelivered bytes how with
  | none => []
  | some (_, rest) => rest

/-- The protocols that the server offers. -/
def ServerEnv.offered (env : ServerEnv) : List IpcProtocol :=
  if env.tarpcAvailable then IpcProtocol.supported else [.JsonRpc]

/-- The bytes that spell the requests: all but a negotiation line or the lines of a handshake.
Only the Unix listener sends a challenge, which the client answers with a line. -/
def requestBytes (listener : Listener) (env : ServerEnv) (bytes : List UInt8)
    (how : StreamEnd) : List UInt8 :=
  match negotiationLine bytes with
  | some (_, rest) => rest
  | none =>
      match helloLine env bytes how, listener with
      | some rest, .unix => afterResponse rest how
      | some rest, .tcp => rest
      | none, _ => bytes

/-- The client negotiates `tarpc`. -/
def negotiatesTarpc (env : ServerEnv) (bytes : List UInt8) : Bool :=
  match negotiationLine bytes with
  | some (names, _) => selectProtocol names env.offered = .Tarpc
  | none => false

/-- Nothing is lost: the requests are processed and answered, or `tarpc` gets their bytes. -/
def Lossless (listener : Listener) (env : ServerEnv) (socket : Socket) : Prop :=
  if negotiatesTarpc env socket.bytes then
    tarpcStream (listener.connection env socket) =
        some (requestBytes listener env socket.bytes socket.ending) ∧
      exchanges (listener.connection env socket) = []
  else
    Processes env (listener.connection env socket)
      (requestBytes listener env socket.bytes socket.ending) socket.ending

/-- The streams of which nothing is lost. -/
def Kept (listener : Listener) (env : ServerEnv) (bytes : List UInt8) (how : StreamEnd) : Prop :=
  (negotiatesTarpc env bytes ∨ requestsOf (requestBytes listener env bytes how) how ≠ none) ∧
  ¬NamesHandshake env bytes how ∧
  match listener, bytes with
  | .tcp, _ => negotiationLine bytes = none
  | .unix, [] => True
  | .unix, first :: more =>
      requestsOf bytes how = some [] ∨
        if first = 80 then negotiationLine bytes ≠ none
        else if first = plainJsonrpcMarker then more ≠ []
        else first < 128 ∧ isWhitespace (Char.ofNat first.toNat)

theorem requestBytes_negotiation {listener : Listener} {bytes rest : List UInt8}
    {names : List IpcProtocol} (found : negotiationLine bytes = some (names, rest)) :
    requestBytes listener env bytes how = rest := by
  rw [requestBytes.eq_def, found]

theorem requestBytes_plain {listener : Listener} (no_negotiation : negotiationLine bytes = none)
    (no_hello : helloLine env bytes how = none) :
    requestBytes listener env bytes how = bytes := by
  rw [requestBytes.eq_def, no_negotiation, no_hello]

theorem requestBytes_hello {listener : Listener} {bytes rest : List UInt8}
    (no_negotiation : negotiationLine bytes = none)
    (hello : helloLine env bytes how = some rest) :
    requestBytes listener env bytes how =
      match listener with
      | .unix => afterResponse rest how
      | .tcp => rest := by
  rw [requestBytes.eq_def, no_negotiation, hello]
  cases listener <;> rfl

theorem negotiatesTarpc_none (no_negotiation : negotiationLine bytes = none) :
    negotiatesTarpc env bytes = false := by
  rw [negotiatesTarpc, no_negotiation]

theorem kept_unix_cons {first : UInt8} {more : List UInt8} :
    Kept .unix env (first :: more) how ↔
      (negotiatesTarpc env (first :: more) ∨
        requestsOf (requestBytes .unix env (first :: more) how) how ≠ none) ∧
      ¬NamesHandshake env (first :: more) how ∧
      (requestsOf (first :: more) how = some [] ∨
        if first = 80 then negotiationLine (first :: more) ≠ none
        else if first = plainJsonrpcMarker then more ≠ []
        else first < 128 ∧ isWhitespace (Char.ofNat first.toNat)) := Iff.rfl

/-! ## The negotiation line -/

theorem splitAtNewline_length {bytes line rest : List UInt8}
    (found : splitAtNewline bytes = some (line, rest)) : 0 < line.length := by
  rcases splitAtNewline_eq_some.mp found with ⟨before, _, rfl, _⟩
  simp

/-- A line that starts with bytes other than a newline is longer than them. -/
theorem splitAtNewline_append_length {buf bytes line rest : List UInt8} (apart : newline ∉ buf)
    (found : splitAtNewline (buf ++ bytes) = some (line, rest)) : buf.length < line.length := by
  rw [splitAtNewline_none_append _ (splitAtNewline_eq_none.mpr apart),
    Option.map_eq_some_iff] at found
  rcases found with ⟨⟨line', rest'⟩, found, same⟩
  cases same
  have := splitAtNewline_length found
  rw [length_append]
  omega

theorem nextDelivered_append_length {buf bytes line rest : List UInt8} (apart : newline ∉ buf)
    (found : nextDelivered (buf ++ bytes) how = some (line, rest)) :
    buf.length ≤ line.length := by
  rw [nextDelivered] at found
  cases split : splitAtNewline (buf ++ bytes) with
  | none =>
      rw [split] at found
      simp only [Option.ite_none_right_eq_some, Option.some.injEq, Prod.mk.injEq] at found
      rw [← found.2.1, length_append]
      omega
  | some pair =>
      rw [split] at found
      cases found
      exact (splitAtNewline_append_length apart split).le

/-- What the byte-by-byte reader returns after the bytes of `buf`: the text of a line that is
short enough, or nothing with a part of the first line lost. It waits for ever on a stream that
falls silent before its first line ends. -/
theorem readNegotiationLineFrom_spec (fuel : Nat) (buf : List UInt8) (stream : Socket)
    (apart : newline ∉ buf) (started : 0 < buf.length)
    (short : buf.length ≤ maxNegotiationLineLen)
    (enough : maxNegotiationLineLen + 2 ≤ fuel + buf.length) :
    (readNegotiationLineFrom fuel buf stream = none ∧
      nextDelivered (buf ++ content stream) (ending stream) = none) ∨
    ∃ text rest, readNegotiationLineFrom fuel buf stream = some (text, rest) ∧
      ending rest = ending stream ∧
      ((∃ line, splitAtNewline (buf ++ content stream) = some (line, content rest) ∧
          line.length ≤ maxNegotiationLineLen + 1 ∧ text = utf8Decode line) ∨
        (text = none ∧
          (∀ line after, splitAtNewline (buf ++ content stream) = some (line, after) →
            maxNegotiationLineLen + 1 < line.length) ∧
          ∃ count, 0 < count ∧ content rest = (buf ++ content stream).drop count ∧
            ∀ line after,
              nextDelivered (buf ++ content stream) (ending stream) = some (line, after) →
                count ≤ line.length)) := by
  induction fuel generalizing buf stream with
  | zero => omega
  | succ fuel hind =>
      rw [readNegotiationLineFrom]
      cases one : AsyncRead.read stream 1 with
      | stopped how =>
          rcases read_stopped one with ⟨empty, ends⟩
          have none_left : splitAtNewline (buf ++ content stream) = none := by
            rw [empty, append_nil, splitAtNewline_eq_none.mpr apart]
          by_cases waits : how = .silent
          · rw [waits] at ends
            exact .inl ⟨by rw [waits], by rw [ends, nextDelivered, none_left]; rfl⟩
          · have stops : readNegotiationLineFrom (fuel + 1) buf stream = some (none, stream) := by
              rw [readNegotiationLineFrom, one]
              cases how <;> first | rfl | exact absurd rfl waits
            rw [readNegotiationLineFrom, one] at stops
            refine .inr ⟨none, stream, stops, rfl,
              .inr ⟨rfl, ?_, buf.length, started, by simp [empty], ?_⟩⟩
            · intro line after found
              rw [none_left] at found
              cases found
            · exact fun line after found => nextDelivered_append_length apart found
      | got wait byte more rest =>
          have only : more = [] := by
            rcases stream with ⟨_ | ⟨arrival, later⟩, stop⟩
            · simp [AsyncRead.read, Socket.read] at one
            · simp only [AsyncRead.read, Socket.read, Nat.sub_self, take_zero,
                Read.got.injEq] at one
              exact one.2.2.1.symm
          subst only
          rcases read_got one with ⟨bytes, ends⟩
          have whole : buf ++ content stream = buf ++ [byte] ++ content rest := by
            rw [bytes]
            simp
          dsimp only
          split_ifs with feed beyond
          · refine .inr ⟨_, rest, rfl, ends, .inl ⟨buf ++ [byte], ?_, ?_, rfl⟩⟩
            · rw [whole]
              exact splitAtNewline_eq_some.mpr ⟨buf, apart, by rw [feed], rfl⟩
            · simp
              omega
          · have apart' : newline ∉ buf ++ [byte] := by simp [apart, Ne.symm feed]
            have length : (buf ++ [byte]).length = maxNegotiationLineLen + 1 := by
              simp at beyond ⊢
              omega
            refine .inr ⟨none, rest, rfl, ends,
              .inr ⟨rfl, ?_, maxNegotiationLineLen + 1, by omega, ?_, ?_⟩⟩
            · intro line after found
              rw [whole] at found
              exact length ▸ splitAtNewline_append_length apart' found
            · rw [whole, ← length, drop_left]
            · intro line after found
              rw [whole] at found
              exact length ▸ nextDelivered_append_length apart' found
          · have apart' : newline ∉ buf ++ [byte] := by simp [apart, Ne.symm feed]
            rw [whole, ← ends]
            exact hind _ _ apart' (by simp) (by omega) (by simp; omega)

/-- The negotiation answers a complete line and leaves the bytes after it; otherwise a part of
the first line is lost and JSON-RPC follows, unless the line never ends. -/
theorem negotiateServerAfterP_spec (stream : Socket) (offered : List IpcProtocol) :
    (negotiateServerAfterP true offered stream = none ∧
      nextDelivered (80 :: content stream) (ending stream) = none) ∨
    ∃ events selected rest, negotiateServerAfterP true offered stream =
        some (events, selected, rest) ∧
      ending rest = ending stream ∧ exchanges events = [] ∧ tarpcStream events = none ∧
      match negotiationLine (80 :: content stream) with
      | some (names, after) =>
          selected = some (selectProtocol names offered) ∧ content rest = after
      | none => selected ≠ some .Tarpc ∧
          ∃ count, 0 < count ∧ content rest = (80 :: content stream).drop count ∧
            ∀ line after,
              nextDelivered (80 :: content stream) (ending stream) = some (line, after) →
                count ≤ line.length := by
  rcases readNegotiationLineFrom_spec (maxNegotiationLineLen + 1) [80] stream
    (by decide) (by decide) (by decide) (by decide) with
    ⟨waits, missing⟩ | ⟨text, rest, read, ends, outcome⟩
  · exact .inl ⟨by rw [negotiateServerAfterP, readNegotiationLineAfterP, waits], missing⟩
  right
  rw [negotiateServerAfterP, readNegotiationLineAfterP, read]
  simp only [singleton_append] at outcome
  rcases outcome with ⟨line, split, short, rfl⟩ | ⟨rfl, long, count, some_count, left, within⟩
  · have lost : ∃ count, 0 < count ∧ content rest = (80 :: content stream).drop count ∧
        ∀ line after,
          nextDelivered (80 :: content stream) (ending stream) = some (line, after) →
            count ≤ line.length := by
      rcases splitAtNewline_eq_some.mp split with ⟨_, _, _, shape⟩
      refine ⟨line.length, splitAtNewline_length split, by rw [shape, drop_left], ?_⟩
      intro line' after found
      rw [nextDelivered, split] at found
      cases found
      exact Nat.le_refl _
    rw [negotiationLine, split]
    simp only [List.head?_cons, true_and, short, if_true]
    cases utf8Decode line with
    | none => exact ⟨_, _, rest, rfl, ends, rfl, rfl, by simp, lost⟩
    | some text =>
        dsimp only [Option.bind_some]
        cases fromWire text with
        | none => exact ⟨_, _, rest, rfl, ends, rfl, rfl, by simp, lost⟩
        | some names => exact ⟨_, _, rest, rfl, ends, rfl, rfl, rfl, rfl⟩
  · refine ⟨_, _, rest, rfl, ends, rfl, rfl, ?_⟩
    have none_found : negotiationLine (80 :: content stream) = none := by
      rw [negotiationLine]
      cases split : splitAtNewline (80 :: content stream) with
      | none => rfl
      | some pair =>
          have := long pair.1 pair.2 split
          dsimp only
          rw [if_neg (by omega)]
    rw [none_found]
    exact ⟨by simp, count, some_count, left, within⟩

/-! ## First lines -/

/-- The first line of a stream, by its text. -/
theorem firstLineOf_eq_some {bytes rest : List UInt8} {text : Text} :
    firstLineOf bytes how = some (text, rest) ↔
      ∃ line, nextDelivered bytes how = some (line, rest) ∧ line ≠ [] ∧
        utf8Decode line = some text := by
  rw [firstLineOf]
  cases nextDelivered bytes how with
  | none => simp
  | some pair =>
      rcases pair with ⟨line, after⟩
      dsimp only
      split_ifs with empty
      · simp [empty]
      · simp only [Option.map_eq_some_iff, Prod.mk.injEq, Option.some.injEq]
        constructor
        · rintro ⟨text', decoded, rfl, rfl⟩
          exact ⟨line, ⟨rfl, rfl⟩, empty, decoded⟩
        · rintro ⟨line', ⟨rfl, rfl⟩, _, decoded⟩
          exact ⟨text, decoded, rfl, rfl⟩

/-- Without a first line of text, the stream delivers no line or one that is not UTF-8. -/
theorem requestsOf_of_firstLine_none (missing : firstLineOf bytes how = none)
    (some_bytes : bytes ≠ []) : requestsOf bytes how = some [] ↔ requestsOf bytes how ≠ none := by
  cases found : nextDelivered bytes how with
  | none =>
      rw [requestsOf_of_none found]
      simp
  | some pair =>
      rcases pair with ⟨line, rest⟩
      have some_line := (next_shape found).2 some_bytes
      have undecodable : utf8Decode line = none := by
        rw [firstLineOf, found] at missing
        simpa [some_line] using missing
      rw [requestsOf, deliveredLines_of_some found some_line, requestLines, undecodable]
      simp

/-- The requests of a stream whose first line is not blank. -/
theorem requestsOf_of_firstLine {bytes rest : List UInt8} {text : Text} {requests : List Text}
    (found : firstLineOf bytes how = some (text, rest)) (solid : trim text ≠ [])
    (all : requestsOf bytes how = some requests) :
    ∃ more, requestsOf rest how = some more ∧ requests = trim text :: more := by
  rcases firstLineOf_eq_some.mp found with ⟨line, next, some_line, decoded⟩
  rcases (requestsOf_of_next next some_line).mp all with ⟨text', more, same, later, rfl⟩
  rw [decoded] at same
  cases same
  exact ⟨more, later, if_neg solid⟩

/-- The first line of text is where the stream starts. -/
theorem utf8Encode_firstLine {bytes rest : List UInt8} {text : Text}
    (found : firstLineOf bytes how = some (text, rest)) : utf8Encode text ++ rest = bytes := by
  rcases firstLineOf_eq_some.mp found with ⟨line, next, _, decoded⟩
  rw [(next_shape next).1, utf8Decode_eq_some.mp decoded]

/-- The line that answers a challenge is at most one of the requests after it. -/
theorem requestsOf_afterResponse {requests : List Text}
    (all : requestsOf bytes how = some requests) :
    ∃ later, requestsOf (afterResponse bytes how) how = some later ∧
      later.length ≤ requests.length := by
  rw [afterResponse]
  cases found : nextDelivered bytes how with
  | none => exact ⟨[], requestsOf_nil how, Nat.zero_le _⟩
  | some pair =>
      rcases pair with ⟨line, rest⟩
      rcases next_shape found with ⟨shape, some_line⟩
      dsimp only
      by_cases empty : bytes = []
      · have : rest = [] := by
          rw [empty] at shape
          exact (append_eq_nil_iff.mp shape.symm).2
        rw [this]
        exact ⟨[], requestsOf_nil how, Nat.zero_le _⟩
      · rcases (requestsOf_of_next found (some_line empty)).mp all with ⟨text, more, _, later, rfl⟩
        refine ⟨more, later, ?_⟩
        split_ifs
        · exact Nat.le_refl _
        · simp

/-- A line that starts with a solid character of one byte. -/
theorem firstLine_of_byte {c : Char} {byte : UInt8} (one : String.utf8EncodeChar c = [byte])
    (other : byte ≠ newline) {more rest : List UInt8} {text : Text}
    (found : firstLineOf (byte :: more) how = some (text, rest)) : ∃ tail, text = c :: tail := by
  rw [firstLineOf_cons one other] at found
  split_ifs at found
  · cases found
    exact ⟨[], rfl⟩
  · rw [Option.map_eq_some_iff] at found
    rcases found with ⟨⟨tail, after⟩, _, same⟩
    cases same
    exact ⟨tail, rfl⟩

/-- A stream that delivers a line has a request if its first byte is a solid character. -/
theorem requestsOf_solid {c : Char} {byte : UInt8} (one : String.utf8EncodeChar c = [byte])
    (other : byte ≠ newline) (solid : isWhitespace c = false) {more : List UInt8}
    (delivered : nextDelivered (byte :: more) how ≠ none) :
    requestsOf (byte :: more) how ≠ some [] := by
  intro empty
  rcases Option.ne_none_iff_exists'.mp delivered with ⟨⟨line, rest⟩, next⟩
  have some_line := (next_shape next).2 (by simp)
  rcases (requestsOf_of_next next some_line).mp empty with ⟨text, _, decoded, _, same⟩
  rcases firstLine_of_byte one other (firstLineOf_eq_some.mpr ⟨line, next, some_line, decoded⟩)
    with ⟨tail, rfl⟩
  rw [if_neg (trim_cons_ne_nil solid tail)] at same
  cases same

theorem exchanges_of_opening {events : List ConnEvent}
    (opening : events.all ConnEvent.isOpening) : exchanges events = [] := by
  rw [exchanges, filterMap_eq_nil_iff]
  intro event member
  have opens := all_eq_true.mp opening event member
  cases event <;> simp [ConnEvent.isOpening] at opens ⊢

/-- A stream without its first byte has the same requests when that byte is blank or when
there are no requests at all. -/
theorem requestsOf_cons_iff (first : UInt8) (more : List UInt8) :
    requestsOf (first :: more) how = some (processedOf more how) ↔
      requestsOf (first :: more) how ≠ none ∧
        (requestsOf (first :: more) how = some [] ∨
          first < 128 ∧ isWhitespace (Char.ofNat first.toNat)) := by
  cases next : nextDelivered (first :: more) how with
  | none =>
      rcases newline_notMem_of_none next with ⟨apart, opened⟩
      have nothing := requestsOf_of_none (next_of_notMem (not_mem_of_not_mem_cons apart) opened)
      rw [requestsOf_of_none next, processedOf_eq nothing]
      simp
  | some pair =>
  rcases pair with ⟨line, rest⟩
  have some_line := (next_shape next).2 (by simp)
  have read {requests : List Text} (all : requestsOf (first :: more) how = some requests) :
      ∃ c text, utf8Decode line = some (c :: text) ∧
        (isWhitespace c = false → requests ≠ []) := by
    rcases (requestsOf_of_next next some_line).mp all with ⟨text, later, decoded, _, rfl⟩
    cases text with
    | nil => exact absurd (utf8Decode_eq_some.mp decoded).symm some_line
    | cons c text => exact ⟨c, text, decoded, fun solid => by simp [trim_cons_ne_nil solid]⟩
  constructor
  · intro all
    refine ⟨by simp [all], ?_⟩
    rcases read all with ⟨c, text, decoded, _⟩
    rcases processedOf_tail next decoded with one | gone
    · rcases eq_ofNat_of_utf8EncodeChar one with ⟨ascii, rfl⟩
      by_cases blank : isWhitespace (Char.ofNat first.toNat)
      · exact .inr ⟨ascii, blank⟩
      · have differs := processedOf_drop_ne 1 next decoded (by simpa using blank) all
          Nat.one_pos (length_pos_iff.mpr some_line)
        exact absurd rfl differs
    · rw [all, gone]
      exact .inl rfl
  · rintro ⟨some_requests, empty | ⟨ascii, blank⟩⟩
    · rw [empty]
      rcases read empty with ⟨c, text, decoded, requested⟩
      rcases processedOf_tail next decoded with one | gone
      · have blank : isWhitespace c := by
          by_contra solid
          exact requested (by simpa using solid) rfl
        rw [requestsOf_cons_whitespace one blank] at empty
        rw [processedOf_eq empty]
      · rw [gone]
    · rw [requestsOf_cons_whitespace (utf8EncodeChar_of_lt ascii) blank] at some_requests ⊢
      exact processedOf_self.mpr some_requests

/-! ## The Unix listener -/

/-- The first byte and the first line arrive within the time-outs. -/
structure InTime (socket : Socket) : Prop where
  first : ∀ arrival ∈ socket.arrivals.head?, arrival.wait < peekTimeout
  line : restDelay socket < peekTimeout

theorem firstInTime_eq {socket : Socket} (inTime : InTime socket) :
    firstInTime socket = socket.bytes.head? := by
  rcases socket with ⟨_ | ⟨arrival, later⟩, ending⟩
  · rfl
  · have soon := inTime.first arrival rfl
    simp [firstInTime, Socket.bytes, soon]

/-- A connection that says hello is accepted unless its handshake fails. -/
def Accepted (listener : Listener) (env : ServerEnv) (socket : Socket) : Prop :=
  helloLine env socket.bytes socket.ending ≠ none →
    ∀ error, .refused error ∉ listener.connection env socket

theorem helloLooks_other (other : bytes.head? ≠ some plainJsonrpcMarker) :
    helloLooks bytes how = none := if_neg other

theorem negotiationLine_other (other : bytes.head? ≠ some 80) :
    negotiationLine bytes = none := by
  rw [negotiationLine]
  cases splitAtNewline bytes with
  | none => rfl
  | some pair => exact if_neg fun facts => other facts.1

theorem negotiationLine_of_none (missing : nextDelivered bytes how = none) :
    negotiationLine bytes = none := by
  rw [negotiationLine, splitAtNewline_eq_none.mpr (newline_notMem_of_none missing).1]

/-- A brace starts no negotiation and a `P` no hello. -/
theorem namesHandshake_other (other : bytes.head? ≠ some plainJsonrpcMarker) :
    ¬NamesHandshake env bytes how := by
  rintro ⟨line, rest, req, found, _⟩
  rw [helloLooks_other other] at found
  cases found

theorem helloLine_other (other : bytes.head? ≠ some plainJsonrpcMarker) :
    helloLine env bytes how = none := by
  rw [helloLine, helloLooks_other other]

section Unix

variable {env : ServerEnv} {socket stream : Socket} {first : UInt8} {more : List UInt8}

/-- A negotiated connection loses nothing exactly when its line is a negotiation. -/
theorem unix_lossless_negotiation (takes : ∀ count, env.takes count)
    (read : readFirstByte socket = (some 80, stream)) (bytes : socket.bytes = 80 :: stream.bytes)
    (ends : stream.ending = socket.ending) :
    Lossless .unix env socket ↔ Kept .unix env socket.bytes socket.ending := by
  have no_hello : (80 :: stream.bytes).head? ≠ some plainJsonrpcMarker := by
    simp [plainJsonrpcMarker]
  have connection : dispatchConnection env socket = handleG65Connection env stream := by
    rw [dispatchConnection, read]
    rfl
  have stream_content : content stream = stream.bytes := rfl
  have stream_ending : AsyncRead.ending stream = socket.ending := ends
  have solid (delivered : nextDelivered (80 :: stream.bytes) socket.ending ≠ none) :
      requestsOf (80 :: stream.bytes) socket.ending ≠ some [] :=
    requestsOf_solid (c := 'P') (by decide) (by decide) (by decide) delivered
  rcases negotiateServerAfterP_spec stream env.offered with
    ⟨waits, missing⟩ |
      ⟨events, selected, rest, negotiated, rest_ending, no_exchanges, no_tarpc, outcome⟩
  · rw [stream_content, stream_ending] at missing
    have handled : handleG65Connection env stream = [] := by
      rw [handleG65Connection, takes 0, ← ServerEnv.offered, waits]
    have no_negotiation := negotiationLine_of_none missing
    have empty := requestsOf_of_none missing
    rw [bytes, kept_unix_cons, Lossless, Listener.connection, connection, handled, bytes,
      negotiatesTarpc_none no_negotiation,
      requestBytes_plain no_negotiation (helloLine_other no_hello)]
    refine iff_of_true ((processes_quiet rfl).mpr empty)
      ⟨?_, namesHandshake_other no_hello, .inl empty⟩
    simp [empty]
  have handled : handleG65Connection env stream =
      if selected = some .Tarpc then
        events ++ .tarpc (content rest) :: (env.tarpcMethods (content rest)).map .dispatched
      else events ++ env.answerLines events.length (textLines (content rest) socket.ending) := by
    rw [handleG65Connection, takes 0, ← ServerEnv.offered, negotiated]
    dsimp only
    rw [processNewlineReaderWriter_eq, content_new, ending_new, rest_ending, stream_ending]
  rw [stream_content, stream_ending] at outcome
  rw [bytes, kept_unix_cons, Lossless, Listener.connection, connection, handled, bytes]
  simp only [namesHandshake_other no_hello, not_false_eq_true, true_and, if_true]
  cases found : negotiationLine (80 :: stream.bytes) with
  | some pair =>
      rcases pair with ⟨names, after⟩
      rw [found] at outcome
      rcases outcome with ⟨rfl, rest_bytes⟩
      rw [requestBytes_negotiation found, negotiatesTarpc, found]
      dsimp only
      by_cases tarpc : selectProtocol names env.offered = .Tarpc
      · have given : tarpcStream (events ++ .tarpc (content rest) ::
            (env.tarpcMethods (content rest)).map .dispatched) = some after := by
          rw [tarpcStream, List.findSome?_append, ← tarpcStream, no_tarpc, rest_bytes]
          rfl
        have quiet : exchanges (events ++ .tarpc (content rest) ::
            (env.tarpcMethods (content rest)).map .dispatched) = [] := by
          rw [exchanges_append, no_exchanges]
          simp [exchanges]
        simp [tarpc, given, quiet]
      · simp only [tarpc, decide_false, Bool.false_eq_true, if_false, Option.some.injEq,
          false_or, ne_eq, reduceCtorEq, not_false_eq_true, or_true, and_true]
        rw [processes_iff takes no_exchanges, rest_bytes, processedOf_self]
  | none =>
      rw [found] at outcome
      rcases outcome with ⟨not_tarpc, count, some_count, left, within⟩
      rw [requestBytes_plain found (helloLine_other no_hello), negotiatesTarpc_none found]
      simp only [Bool.false_eq_true, if_false, not_tarpc, ne_eq, not_true_eq_false, or_false,
        false_or]
      rw [processes_iff takes no_exchanges, left]
      cases next : nextDelivered (80 :: stream.bytes) socket.ending with
      | none =>
          rcases newline_notMem_of_none next with ⟨apart, opened⟩
          have nothing := requestsOf_of_none
            (next_of_notMem (fun member => apart (mem_of_mem_drop (i := count) member)) opened)
          rw [requestsOf_of_none next, processedOf_eq nothing]
          simp
      | some pair =>
          rcases pair with ⟨line, after⟩
          refine iff_of_false (fun all => ?_) fun kept => solid (by simp [next]) kept.2
          have some_line := (next_shape next).2 (by simp)
          rcases (requestsOf_of_next next some_line).mp all with ⟨text, _, decoded, _, _⟩
          rcases firstLine_of_byte (c := 'P') (by decide) (by decide)
            (firstLineOf_eq_some.mpr ⟨line, next, some_line, decoded⟩) with ⟨tail, rfl⟩
          exact processedOf_drop_ne count next decoded (by decide) all some_count
            (within line after next) rfl

/-- A first byte that is dropped is missed unless it is blank. -/
theorem unix_lossless_other (takes : ∀ count, env.takes count)
    (inTime : firstInTime socket = some first) (bytes : socket.bytes = first :: more)
    (not_p : first ≠ 80) (not_brace : first ≠ plainJsonrpcMarker) :
    Lossless .unix env socket ↔ Kept .unix env socket.bytes socket.ending := by
  have no_hello : (first :: more).head? ≠ some plainJsonrpcMarker := by simpa using not_brace
  have no_negotiation : negotiationLine (first :: more) = none :=
    negotiationLine_other (by simpa using not_p)
  have quiet := exchanges_of_opening (env.guardFromFirstByte_quiet (some first)).2.1
  rw [bytes, kept_unix_cons, Lossless, Listener.connection,
    dispatchConnection_other env inTime not_p not_brace, bytes,
    negotiatesTarpc_none no_negotiation,
    requestBytes_plain no_negotiation (helloLine_other no_hello)]
  simp only [Bool.false_eq_true, if_false, tail_cons, false_or,
    namesHandshake_other no_hello, not_false_eq_true, true_and, not_p, not_brace]
  rw [processes_iff takes quiet, requestsOf_cons_iff]

/-- A request that names the handshake is not among those processed after it. -/
theorem processes_namesHandshake (listener : Listener) {env : ServerEnv}
    (takes : ∀ count, env.takes count) {bytes rest : List UInt8} {line : Text}
    {guard : List ConnEvent} {count : Nat} (brace : bytes.head? = some plainJsonrpcMarker)
    (found : firstLineOf bytes how = some (line, rest)) (quiet : exchanges guard = []) :
    ¬Processes env (guard ++ env.answerLines count (textLines
      (match listener with | .unix => afterResponse rest how | .tcp => rest) how)) bytes how := by
  rw [processes_iff takes quiet]
  intro all
  cases bytes with
  | nil => simp at brace
  | cons first more =>
      rw [List.head?_cons, Option.some.injEq] at brace
      subst brace
      rcases firstLine_of_byte (c := '\x7b') (by decide) (by decide) found with ⟨tail, rfl⟩
      rcases requestsOf_of_firstLine found (trim_cons_ne_nil (by decide) tail) all with
        ⟨requests, later, same⟩
      cases listener with
      | tcp =>
          rw [processedOf_eq later] at same
          exact absurd same.symm (cons_ne_self _ _)
      | unix =>
          rcases requestsOf_afterResponse later with ⟨fewer, after, shorter⟩
          rw [processedOf_eq after] at same
          have lengths := congrArg List.length same
          simp at lengths
          omega

theorem helloLooks_of_firstLine {bytes rest : List UInt8} {line : Text}
    (brace : bytes.head? = some plainJsonrpcMarker)
    (found : firstLineOf bytes how = some (line, rest)) :
    helloLooks bytes how =
      if lineLooksLikeBtspClientHello line then some (line, rest) else none := by
  rw [helloLooks, if_pos brace, found, Option.filter_some]

theorem namesHandshake_iff {bytes rest : List UInt8} {line : Text}
    (brace : bytes.head? = some plainJsonrpcMarker)
    (found : firstLineOf bytes how = some (line, rest)) :
    NamesHandshake env bytes how ↔
      lineLooksLikeBtspClientHello line ∧ ∃ req, env.serde.requestFromStr (trim line) = .ok req := by
  rw [NamesHandshake, helloLooks_of_firstLine brace found]
  cases lineLooksLikeBtspClientHello line <;> simp

theorem helloLine_eq {bytes rest : List UInt8} {line : Text}
    (brace : bytes.head? = some plainJsonrpcMarker)
    (found : firstLineOf bytes how = some (line, rest)) :
    helloLine env bytes how =
      if lineLooksLikeBtspClientHello line then
        match env.serde.requestFromStr (trim line) with
        | .ok _ => none
        | .error _ => some rest
      else none := by
  rw [helloLine, helloLooks_of_firstLine brace found]
  cases lineLooksLikeBtspClientHello line <;> rfl

/-- Where no request is processed, none is among the lines of a stream that starts with a
brace. -/
theorem not_processes_brace {events : List ConnEvent} (quiet : exchanges events = [])
    (delivered : firstLineOf (plainJsonrpcMarker :: more) how ≠ none) :
    ¬Processes env events (plainJsonrpcMarker :: more) how := by
  rw [processes_quiet quiet]
  refine requestsOf_solid (c := '\x7b') (by decide) (by decide) (by decide) ?_
  intro missing
  exact delivered (by rw [firstLineOf, missing])

/-- Without a first line there is no hello: a lone brace is none. -/
theorem helloLooks_of_missing (missing : firstLineOf more how = none) :
    helloLooks (plainJsonrpcMarker :: more) how = none := by
  have brace : (plainJsonrpcMarker :: more).head? = some plainJsonrpcMarker := rfl
  rw [helloLooks, if_pos brace, firstLineOf_cons (c := '\x7b') (by decide) (by decide), missing]
  split_ifs with alone
  · rw [Option.filter_some, if_neg (by decide)]
  · rfl

/-- After a relay of a hello the requests are those after its two lines. -/
theorem exchanges_relay (env : ServerEnv) (line : Text) (peeker : BufReader Socket) :
    exchanges (env.relayJsonLineHandshake line peeker).1 = [] :=
  exchanges_of_opening (env.relayJsonLineHandshake_opening line peeker)

/-- A relay that succeeds leaves the bytes after a line; one that does not return waits for it. -/
theorem relay_spec (env : ServerEnv) (line : Text) (peeker : BufReader Socket) :
    (∃ events error, env.relayJsonLineHandshake line peeker = (events, some (.error error))) ∨
      (∃ events sessionId rest,
        env.relayJsonLineHandshake line peeker = (events, some (.ok (sessionId, rest))) ∧
        content rest = afterResponse (content peeker) (ending peeker) ∧
        ending rest = ending peeker) ∨
      ∃ events, env.relayJsonLineHandshake line peeker = (events, none) ∧
        nextDelivered (content peeker) (ending peeker) = none := by
  cases relayed : env.relayJsonLineHandshake line peeker with
  | mk events result =>
  cases result with
  | none =>
      rw [ServerEnv.relayJsonLineHandshake] at relayed
      cases started : env.relayClientHello line with
      | mk early outcome =>
      rw [started] at relayed
      cases outcome with
      | error error => simp at relayed
      | ok challenge =>
      cases read : peeker.readLine with
      | stopped how => exact .inr (.inr ⟨events, rfl, (BufReader.readLine_stopped read).1⟩)
      | line waited bytes rest =>
      simp only [read] at relayed
      cases decoded : utf8Decode bytes with
      | none => simp [decoded] at relayed
      | some text =>
      simp only [decoded] at relayed
      cases ended : env.relayChallengeResponse challenge text with
      | mk later outcome => cases outcome <;> simp [ended] at relayed
  | some result =>
      cases result with
      | error error => exact .inl ⟨events, error, rfl⟩
      | ok session =>
          rcases session with ⟨sessionId, rest⟩
          rcases ServerEnv.relayJsonLineHandshake_ok relayed with
            ⟨_, _, _, ends, response, text, next, _⟩
          refine .inr (.inl ⟨events, sessionId, rest, rfl, ?_, ends⟩)
          rw [afterResponse, next]

/-- Where no line comes behind the brace, nothing is processed. -/
theorem brace_missing {how : StreamEnd} (missing : firstLineOf more how = none) :
    Processes env [] (requestBytes .unix env (plainJsonrpcMarker :: more) how) how ↔
      requestsOf (requestBytes .unix env (plainJsonrpcMarker :: more) how) how ≠ none ∧
        ¬ NamesHandshake env (plainJsonrpcMarker :: more) how ∧
        (requestsOf (plainJsonrpcMarker :: more) how = some [] ∨ more ≠ []) := by
  have no_negotiation : negotiationLine (plainJsonrpcMarker :: more) = none :=
    negotiationLine_other (by simp [plainJsonrpcMarker])
  have no_hello := helloLooks_of_missing missing
  have unnamed : ¬NamesHandshake env (plainJsonrpcMarker :: more) how := by
    rintro ⟨line, rest, req, found, _⟩
    rw [no_hello] at found
    cases found
  rw [requestBytes_plain no_negotiation (by rw [helloLine, no_hello]), processes_quiet rfl]
  constructor
  · intro empty
    exact ⟨by simp [empty], unnamed, .inl empty⟩
  · rintro ⟨some_requests, _, empty | some_more⟩
    · exact empty
    · refine (requestsOf_of_firstLine_none ?_ (by simp)).mpr some_requests
      rw [firstLineOf_cons (c := '\x7b') (by decide) (by decide), missing, if_neg]
      · rfl
      · rintro ⟨alone, _⟩
        exact some_more alone

/-- What the connection does after the line of a hello. -/
def helloEvents (env : ServerEnv) (line : Text) (peeker : BufReader Socket) : List ConnEvent :=
  match env.relayJsonLineHandshake line peeker with
  | (events, none) => events
  | (events, some (.error error)) => events ++ [.refused error]
  | (events, some (.ok (_, rest))) => events ++ env.processNewlineReaderWriter 2 rest

/-- The line of a hello is taken by the handshake, and what follows is processed; a request that
looks like a hello is lost. -/
theorem helloEvents_lossless (takes : ∀ count, env.takes count) {how : StreamEnd} {line : Text}
    {peeker : BufReader Socket}
    (whole : firstLineOf (plainJsonrpcMarker :: more) how = some (line, content peeker))
    (same_end : ending peeker = how) (looks : lineLooksLikeBtspClientHello line = true)
    (accepted : helloLine env (plainJsonrpcMarker :: more) how ≠ none →
      ∀ error, .refused error ∉ helloEvents env line peeker) :
    Processes env (helloEvents env line peeker)
        (requestBytes .unix env (plainJsonrpcMarker :: more) how) how ↔
      requestsOf (requestBytes .unix env (plainJsonrpcMarker :: more) how) how ≠ none ∧
        ¬ ∃ req, env.serde.requestFromStr (trim line) = .ok req := by
  have brace : (plainJsonrpcMarker :: more).head? = some plainJsonrpcMarker := rfl
  have no_negotiation : negotiationLine (plainJsonrpcMarker :: more) = none :=
    negotiationLine_other (by simp [plainJsonrpcMarker])
  have delivered : firstLineOf (plainJsonrpcMarker :: more) how ≠ none := by
    simp [whole]
  have quiet := exchanges_relay env line peeker
  have handshake := relay_spec env line peeker
  rw [same_end] at handshake
  unfold helloEvents at accepted ⊢
  cases parsed : env.serde.requestFromStr (trim line) with
  | ok req =>
      have named : requestBytes .unix env (plainJsonrpcMarker :: more) how =
          plainJsonrpcMarker :: more := by
        refine requestBytes_plain no_negotiation ?_
        rw [helloLine_eq brace whole, looks, if_pos rfl, parsed]
      rw [named]
      refine iff_of_false ?_ (by simp)
      rcases handshake with
        ⟨events, error, relayed⟩ | ⟨events, sessionId, rest, relayed, left, ends'⟩ |
          ⟨events, relayed, missing⟩
      · rw [relayed] at quiet ⊢
        refine not_processes_brace ?_ delivered
        rw [exchanges_append]
        exact (append_nil _).trans quiet
      · rw [relayed] at quiet ⊢
        dsimp only
        rw [processNewlineReaderWriter_eq, left, ends']
        exact processes_namesHandshake .unix takes brace whole quiet
      · rw [relayed] at quiet ⊢
        exact not_processes_brace quiet delivered
  | error message =>
      have hello : helloLine env (plainJsonrpcMarker :: more) how = some (content peeker) := by
        rw [helloLine_eq brace whole, looks, if_pos rfl, parsed]
      rw [requestBytes_hello no_negotiation hello]
      simp only [reduceCtorEq, exists_false, not_false_eq_true, and_true]
      rcases handshake with
        ⟨events, error, relayed⟩ | ⟨events, sessionId, rest, relayed, left, ends'⟩ |
          ⟨events, relayed, missing⟩
      · rw [relayed] at accepted
        exact absurd (mem_append_right _ mem_cons_self) (accepted (by simp [hello]) error)
      · rw [relayed] at quiet ⊢
        dsimp only
        rw [processNewlineReaderWriter_eq, left, ends', processes_iff takes quiet,
          processedOf_self]
      · rw [relayed] at quiet ⊢
        dsimp only
        rw [processes_quiet quiet, afterResponse, missing]
        simp [requestsOf_nil]

/-- A connection that starts with a brace. -/
theorem unix_lossless_brace (takes : ∀ count, env.takes count)
    (inTime : firstInTime socket = some plainJsonrpcMarker) (soon : restDelay socket < peekTimeout)
    (bytes : socket.bytes = plainJsonrpcMarker :: more)
    (accepted : Accepted .unix env socket) :
    Lossless .unix env socket ↔ Kept .unix env socket.bytes socket.ending := by
  rcases readFirstByte_some inTime with ⟨stream, read, shape, ends, delay⟩
  rw [bytes] at shape
  have stream_bytes : more = stream.bytes := (List.cons.inj shape).2
  have stream_end : AsyncRead.ending (BufReader.new stream) = socket.ending := ends
  have brace : (plainJsonrpcMarker :: more).head? = some plainJsonrpcMarker := rfl
  have no_negotiation : negotiationLine (plainJsonrpcMarker :: more) = none :=
    negotiationLine_other (by simp [plainJsonrpcMarker])
  have connection : dispatchConnection env socket = handleBraceConnection env stream := by
    rw [dispatchConnection, read]
    rfl
  have not_p : plainJsonrpcMarker ≠ 80 := by decide
  rw [Accepted, Listener.connection, connection, bytes] at accepted
  rw [bytes, kept_unix_cons, Lossless, Listener.connection, connection, bytes,
    negotiatesTarpc_none no_negotiation]
  simp only [Bool.false_eq_true, if_false, false_or, not_p, if_true]
  rw [handleBraceConnection] at accepted ⊢
  cases first : readFirstLine (BufReader.new stream) with
  | none =>
      have missing := readFirstLine_none first (delay ▸ soon)
      rw [content_new, stream_end] at missing
      have stream_content : content stream = more := stream_bytes.symm
      rw [stream_content] at missing
      exact brace_missing missing
  | some pair =>
      rcases pair with ⟨lineRest, peeker⟩
      rcases readFirstLine_some first with ⟨_, found, same_end⟩
      have stream_content : content stream = more := stream_bytes.symm
      rw [content_new, stream_content, stream_end] at found
      rw [stream_end] at same_end
      have some_more : more ≠ [] := by
        rintro rfl
        revert found
        cases socket.ending <;> simp [firstLineOf, nextDelivered, splitAtNewline]
      have whole : firstLineOf (plainJsonrpcMarker :: more) socket.ending =
          some ('\x7b' :: lineRest, content peeker) := by
        rw [firstLineOf_cons (c := '\x7b') (by decide) (by decide), if_neg (by simp [some_more]),
          found]
        rfl
      have line_shape : Char.ofNat plainJsonrpcMarker.toNat :: lineRest = '\x7b' :: lineRest := rfl
      rw [first] at accepted
      rw [namesHandshake_iff brace whole]
      dsimp only at accepted ⊢
      rw [line_shape] at accepted ⊢
      cases looks : lineLooksLikeBtspClientHello ('\x7b' :: lineRest) with
      | false =>
          have no_hello : helloLine env (plainJsonrpcMarker :: more) socket.ending = none := by
            rw [helloLine_eq brace whole, looks]
            rfl
          rw [requestBytes_plain no_negotiation no_hello]
          simp only [Bool.false_eq_true, if_false, ServerEnv.processNewlineAfterBraceLine, looks,
            processNewlineReaderWriter_eq, content_linePrefixed, ending_linePrefixed, same_end,
            utf8Encode_firstLine whole, false_and, not_false_eq_true, some_more, ne_eq, or_true,
            and_true]
          have loop : Processes env ([] ++ env.answerLines 0
              (textLines (plainJsonrpcMarker :: more) socket.ending))
              (plainJsonrpcMarker :: more) socket.ending ↔ _ :=
            processes_iff takes rfl
          rw [nil_append] at loop
          rw [loop, processedOf_self]
      | true =>
          rw [looks] at accepted
          simp only [if_true, true_and, some_more, ne_eq, not_false_eq_true, or_true,
            and_true] at accepted ⊢
          exact helloEvents_lossless takes whole same_end looks accepted

end Unix

variable {env : ServerEnv}

theorem unix_lossless {socket : Socket} (takes : ∀ count, env.takes count)
    (inTime : InTime socket) (accepted : Accepted .unix env socket) :
    Lossless .unix env socket ↔ Kept .unix env socket.bytes socket.ending := by
  have in_time := firstInTime_eq inTime
  cases bytes : socket.bytes with
  | nil =>
      rw [bytes] at in_time
      have connection := dispatchConnection_late env in_time
      have quiet := exchanges_of_opening (env.guardFromFirstByte_quiet none).2.1
      have no_hello : ([] : List UInt8).head? ≠ some plainJsonrpcMarker := by simp
      have plain : requestBytes .unix env [] socket.ending = [] :=
        requestBytes_plain rfl (helloLine_other no_hello)
      have empty := requestsOf_nil socket.ending
      rw [Lossless, bytes, negotiatesTarpc_none rfl, Listener.connection, connection, bytes, plain]
      simp only [Bool.false_eq_true, if_false]
      rw [processes_iff takes quiet]
      exact iff_of_true (by rw [processedOf_eq empty, empty])
        ⟨.inr (by rw [plain]; simp [empty]), namesHandshake_other no_hello, trivial⟩
  | cons first more =>
      rw [bytes, List.head?_cons] at in_time
      rw [← bytes]
      by_cases not_p : first = 80
      · subst not_p
        rcases readFirstByte_some in_time with ⟨stream, read, shape, ends, _⟩
        exact unix_lossless_negotiation takes read shape ends
      · by_cases not_brace : first = plainJsonrpcMarker
        · subst not_brace
          exact unix_lossless_brace takes in_time inTime.line bytes accepted
        · exact unix_lossless_other takes in_time bytes not_p not_brace

/-! ## The TCP listener -/

theorem kept_tcp {bytes : List UInt8} :
    Kept .tcp env bytes how ↔
      (negotiatesTarpc env bytes ∨ requestsOf (requestBytes .tcp env bytes how) how ≠ none) ∧
      ¬NamesHandshake env bytes how ∧ negotiationLine bytes = none := by
  cases bytes <;> exact Iff.rfl

theorem tarpcStream_answerLines (env : ServerEnv) (count : Nat) (lines : List Text) :
    tarpcStream (env.answerLines count lines) = none := by
  induction lines generalizing count with
  | nil => rfl
  | cons line lines hind =>
      have at_line : tarpcStream (env.answer count (trim line)).1 = none := by
        rw [ServerEnv.answer]
        cases env.serde.requestFromStr (trim line) with
        | error message => rfl
        | ok req =>
            dsimp only
            split <;> rfl
      by_cases blank : trim line = []
      · rw [ServerEnv.answerLines_blank blank, hind]
      · rw [ServerEnv.answerLines_request blank]
        split_ifs
        · rw [tarpcStream, List.findSome?_append, ← tarpcStream, at_line, Option.none_or]
          exact hind (count + 1)
        · exact at_line

theorem tarpcStream_of_opening {events : List ConnEvent}
    (opening : events.all ConnEvent.isOpening) : tarpcStream events = none := by
  rw [tarpcStream, List.findSome?_eq_none_iff]
  intro event member
  have opens := all_eq_true.mp opening event member
  cases event <;> simp [ConnEvent.isOpening] at opens ⊢

/-- A negotiation line is taken for a request by the TCP listener. -/
theorem tcp_lossless_negotiation {socket : Socket} (takes : ∀ count, env.takes count)
    (inTime : InTime socket) {names : List IpcProtocol}
    {rest : List UInt8} (found : negotiationLine socket.bytes = some (names, rest)) :
    ¬Lossless .tcp env socket := by
  have starts : socket.bytes.head? = some 80 := by
    by_contra other
    rw [negotiationLine_other other] at found
    cases found
  have in_time := firstInTime_eq inTime
  have not_brace : firstInTime socket ≠ some plainJsonrpcMarker := by
    rw [in_time, starts]
    decide
  have opening := (env.guardFromFirstByte_quiet (firstInTime socket)).2.1
  rw [Lossless, Listener.connection, tcpConnection_other env not_brace,
    requestBytes_negotiation found]
  split_ifs
  · rintro ⟨given, _⟩
    rw [tarpcStream, List.findSome?_append, ← tarpcStream, tarpcStream_of_opening opening,
      Option.none_or, ← tarpcStream, tarpcStream_answerLines] at given
    cases given
  · rw [processes_iff takes (exchanges_of_opening opening)]
    intro all
    rw [negotiationLine] at found
    cases split : splitAtNewline socket.bytes with
    | none => simp [split] at found
    | some pair =>
        rcases pair with ⟨line, after⟩
        rw [split] at found
        simp only [Option.ite_none_right_eq_some, Option.map_eq_some_iff, Prod.mk.injEq,
          Option.bind_eq_some_iff] at found
        rcases found with ⟨_, names', ⟨text, decoded, _⟩, _, rfl⟩
        have some_line : line ≠ [] := length_pos_iff.mp (splitAtNewline_length split)
        have next : nextDelivered socket.bytes socket.ending = some (line, after) := by
          rw [nextDelivered, split]
        have first : firstLineOf socket.bytes socket.ending = some (text, after) :=
          firstLineOf_eq_some.mpr ⟨line, next, some_line, decoded⟩
        have solid : trim text ≠ [] := by
          cases bytes : socket.bytes with
          | nil => simp [bytes] at starts
          | cons byte more =>
              rw [bytes, List.head?_cons, Option.some.injEq] at starts
              subst starts
              rw [bytes] at first
              rcases firstLine_of_byte (c := 'P') (by decide) (by decide) first with ⟨tail, rfl⟩
              exact trim_cons_ne_nil (by decide) tail
        have whole := (requestsOf_of_next next some_line).mpr ⟨text, _, decoded, all, rfl⟩
        have processed := processedOf_eq whole
        rw [if_neg solid] at processed
        exact absurd processed.symm (cons_ne_self _ _)

theorem tcp_lossless {socket : Socket} (takes : ∀ count, env.takes count)
    (inTime : InTime socket) :
    Lossless .tcp env socket ↔ Kept .tcp env socket.bytes socket.ending := by
  rw [kept_tcp]
  cases no_negotiation : negotiationLine socket.bytes with
  | some pair =>
      rcases pair with ⟨names, rest⟩
      exact iff_of_false (tcp_lossless_negotiation takes inTime no_negotiation) (by simp)
  | none =>
      have in_time := firstInTime_eq inTime
      rw [Lossless, Listener.connection, negotiatesTarpc_none no_negotiation]
      simp only [Bool.false_eq_true, if_false, false_or, and_true]
      by_cases brace : socket.bytes.head? = some plainJsonrpcMarker
      · rw [brace] at in_time
        rw [tcpConnection_brace env in_time, if_pos inTime.line]
        cases bytes : socket.bytes with
        | nil => simp [bytes] at brace
        | cons byte more =>
        rw [bytes] at no_negotiation brace
        have byte_eq : byte = plainJsonrpcMarker := by simpa using brace
        subst byte_eq
        cases found : firstLineOf (plainJsonrpcMarker :: more) socket.ending with
        | none =>
            have no_hello : helloLooks (plainJsonrpcMarker :: more) socket.ending = none := by
              rw [helloLooks, if_pos brace, found]
              rfl
            have unnamed : ¬NamesHandshake env (plainJsonrpcMarker :: more) socket.ending := by
              rintro ⟨line, rest, req, looks, _⟩
              rw [no_hello] at looks
              cases looks
            rw [requestBytes_plain no_negotiation (by rw [helloLine, no_hello]),
              processes_quiet rfl, requestsOf_of_firstLine_none found (by simp), and_iff_left unnamed]
        | some pair =>
            rcases pair with ⟨line, rest⟩
            have quiet := exchanges_of_opening (env.guardFromFirstLineAfterBrace_quiet line).2.1
            rw [namesHandshake_iff brace found]
            dsimp only
            cases looks : lineLooksLikeBtspClientHello line with
            | false =>
                have no_hello :
                    helloLine env (plainJsonrpcMarker :: more) socket.ending = none := by
                  rw [helloLine_eq brace found, looks]
                  rfl
                rw [requestBytes_plain no_negotiation no_hello, utf8Encode_firstLine found]
                simp only [Bool.false_eq_true, if_false, false_and, not_false_eq_true, and_true]
                rw [processes_iff takes quiet, processedOf_self]
            | true =>
                simp only [if_true, true_and]
                cases parsed : env.serde.requestFromStr (trim line) with
                | ok req =>
                    have no_hello :
                        helloLine env (plainJsonrpcMarker :: more) socket.ending = none := by
                      rw [helloLine_eq brace found, looks, if_pos rfl, parsed]
                    rw [requestBytes_plain no_negotiation no_hello]
                    exact iff_of_false (processes_namesHandshake .tcp takes brace
                      found quiet) (by simp)
                | error message =>
                    have hello :
                        helloLine env (plainJsonrpcMarker :: more) socket.ending = some rest := by
                      rw [helloLine_eq brace found, looks, if_pos rfl, parsed]
                    rw [requestBytes_hello no_negotiation hello, processes_iff takes quiet,
                      processedOf_self]
                    simp
      · have other : firstInTime socket ≠ some plainJsonrpcMarker := by
          rw [in_time]
          exact brace
        have quiet := exchanges_of_opening (env.guardFromFirstByte_quiet (firstInTime socket)).2.1
        rw [tcpConnection_other env other,
          requestBytes_plain no_negotiation (helloLine_other brace), processes_iff takes quiet,
          processedOf_self]
        simp [namesHandshake_other brace]

theorem inTime_ofBytes (bytes : List UInt8) (how : StreamEnd) :
    InTime { Socket.ofBytes bytes with ending := how } := by
  cases bytes with
  | nil => exact ⟨by simp [Socket.ofBytes], Nat.zero_lt_succ _⟩
  | cons first more =>
      refine ⟨?_, ?_⟩
      · intro arrival member
        cases member
        show 0 < peekTimeout
        decide
      · have on_time : restDelay { Socket.ofBytes (first :: more) with ending := how } = 0 := by
          simp [restDelay, Socket.ofBytes, lineDelay]
        rw [on_time]
        decide

/-- A client that sends a line and waits for its answer. -/
def waitingClient (text : Text) : Socket :=
  { Socket.ofBytes (utf8Encode (text ++ ['\n'])) with ending := .silent }

/-- A `health` request with the two words of a hello among its parameters. -/
def namingRequest : Text :=
  "\x7b\"jsonrpc\":\"2.0\",\"method\":\"health\",\"params\":[\"protocol\",\"btsp\"],\"id\":1\x7d".toList

/-- `reefServer` with the parser's result for `namingRequest`. -/
def namingServer : ServerEnv :=
  { reefServer with
    serde :=
      { reefServer.serde with
        requestFromStr := fun text =>
          if text = namingRequest then
            .ok ⟨"2.0", "health", .arr [.str "protocol", .str "btsp"], .nat 1⟩
          else reefServer.serde.requestFromStr text } }

end CoralReef
