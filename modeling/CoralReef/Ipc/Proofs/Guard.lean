import CoralReef.Ipc.Proofs.Detection

/-!
# What authenticates a connection

A method may be dispatched on a connection that does not start with plain JSON-RPC only after
the provider has verified the challenge sent on it. The relay on the Unix socket ensures this.
The TCP listener and every other branch of the Unix listener only create a session, so there
it holds exactly when the client leaves nothing to dispatch.
-/

open List

namespace CoralReef

open AsyncRead

namespace ConnEvent

def isDispatch : ConnEvent → Bool
  | .dispatched _ => true
  | _ => false

def isVerify : ConnEvent → Bool
  | .called method _ _ => method = "btsp.session.verify"
  | _ => false

/-- An event of a guard, a handshake or a negotiation. -/
def isOpening : ConnEvent → Bool
  | .called _ _ _ | .registered _ _ | .sent _ | .negotiated _ => true
  | _ => false

end ConnEvent

variable {events : List ConnEvent}

theorem isDispatch_of_opening (opening : events.all ConnEvent.isOpening) :
    events.any ConnEvent.isDispatch = false := by
  rw [any_eq_false]
  intro event member is_dispatch
  have opens := all_eq_true.mp opening event member
  cases event <;> simp [ConnEvent.isDispatch, ConnEvent.isOpening] at is_dispatch opens

/-- A challenge was sent on the connection and the provider then verified it. -/
def Verified (events : List ConnEvent) : Prop :=
  ∃ before hello middle params answer after challenge,
    events = before ++ .sent hello :: middle ++
      .called "btsp.session.verify" params (.ok answer) :: after ∧
    hello.getStr "challenge" = some challenge ∧ params.getStr "challenge" = some challenge ∧
    (answer.get "verified").bind Json.asBool = some true

/-- Every method is dispatched after a verification. -/
def AuthenticatedFirst (events : List ConnEvent) : Prop :=
  ∀ early method late, events = early ++ .dispatched method :: late → Verified early

/-- A method is dispatched. -/
def Dispatches (events : List ConnEvent) : Prop := events.any ConnEvent.isDispatch

theorem Verified.append {first : List ConnEvent} (verified : Verified first)
    (second : List ConnEvent) : Verified (first ++ second) := by
  rcases verified with ⟨before, hello, middle, params, answer, after, challenge, rfl, facts⟩
  exact ⟨before, hello, middle, params, answer, after ++ second, challenge, by simp, facts⟩

theorem authenticatedFirst_of_quiet (quiet : ¬Dispatches events) :
    AuthenticatedFirst events := by
  rintro early method late rfl
  simp [Dispatches, ConnEvent.isDispatch] at quiet

/-- Without a verification, only a connection that dispatches nothing is authenticated. -/
theorem authenticatedFirst_iff_of_unverified (unverified : events.any ConnEvent.isVerify = false) :
    AuthenticatedFirst events ↔ ¬Dispatches events := by
  refine ⟨?_, authenticatedFirst_of_quiet⟩
  intro authenticated dispatches
  rcases any_eq_true.mp dispatches with ⟨event, member, is_dispatch⟩
  cases event with
  | dispatched method =>
      rcases mem_iff_append.mp member with ⟨early, late, rfl⟩
      rcases authenticated early method late rfl with
        ⟨before, hello, middle, params, answer, after, _, rfl, _⟩
      simp [ConnEvent.isVerify] at unverified
  | _ => simp [ConnEvent.isDispatch] at is_dispatch

/-- After a verified handshake everything is authenticated. -/
theorem Verified.authenticatedFirst {first : List ConnEvent} (verified : Verified first)
    (quiet : ¬Dispatches first) (second : List ConnEvent) :
    AuthenticatedFirst (first ++ second) := by
  intro early method late split
  rcases append_eq_append_iff.mp split with ⟨more, rfl, _⟩ | ⟨more, shape, rest⟩
  · exact verified.append more
  · cases more with
    | nil =>
        rw [append_nil] at shape
        exact shape ▸ verified
    | cons event more =>
        cases rest
        subst shape
        simp [Dispatches, ConnEvent.isDispatch] at quiet

/-! ## The loop -/

namespace ServerEnv

variable (env : ServerEnv)

/-- A line is a JSON-RPC 2.0 request, and the client takes the responses to those before it. -/
def hasRequest (env : ServerEnv) : Nat → List Text → Bool
  | _, [] => false
  | count, line :: lines =>
      if trim line = [] then env.hasRequest count lines
      else
        match env.serde.requestFromStr (trim line) with
        | .ok req => req.jsonrpc = "2.0" || env.takes count && env.hasRequest (count + 1) lines
        | .error _ => env.takes count && env.hasRequest (count + 1) lines

theorem isDispatch_answer (count : Nat) (request : Text) :
    (env.answer count request).1.any ConnEvent.isDispatch =
      match env.serde.requestFromStr request with
      | .ok req => decide (req.jsonrpc = "2.0")
      | .error _ => false := by
  rw [answer]
  cases env.serde.requestFromStr request with
  | error message => rfl
  | ok req =>
      dsimp only
      split <;> simp_all [ConnEvent.isDispatch]

theorem isVerify_answer (count : Nat) (request : Text) :
    (env.answer count request).1.any ConnEvent.isVerify = false := by
  rw [answer]
  cases env.serde.requestFromStr request with
  | error message => rfl
  | ok req =>
      dsimp only
      split <;> simp [ConnEvent.isVerify]

/-- The loop dispatches a method exactly when it gets to a request. -/
theorem isDispatch_answerLines (count : Nat) (lines : List Text) :
    (env.answerLines count lines).any ConnEvent.isDispatch = env.hasRequest count lines := by
  induction lines generalizing count with
  | nil => rfl
  | cons line lines hind =>
      rw [hasRequest]
      by_cases blank : trim line = []
      · rw [answerLines_blank blank, if_pos blank, hind]
      · rw [answerLines_request blank, if_neg blank]
        have at_line := env.isDispatch_answer count (trim line)
        cases parsed : env.serde.requestFromStr (trim line) <;>
          cases taken : env.takes count <;>
            simp [at_line, parsed, hind, ConnEvent.isDispatch]

theorem isVerify_answerLines (count : Nat) (lines : List Text) :
    (env.answerLines count lines).any ConnEvent.isVerify = false := by
  induction lines generalizing count with
  | nil => rfl
  | cons line lines hind =>
      by_cases blank : trim line = []
      · rw [answerLines_blank blank, hind]
      · rw [answerLines_request blank]
        cases taken : env.takes count <;>
          simp [isVerify_answer, hind, ConnEvent.isVerify, -any_eq_false]

/-- One message fewer before the same lines reaches no fewer requests. -/
theorem hasRequest_pred {env : ServerEnv} {count : Nat} {lines : List Text}
    (taken : env.takes count) (request : env.hasRequest (count + 1) lines) :
    env.hasRequest count lines := by
  induction lines generalizing count with
  | nil => simp [hasRequest] at request
  | cons line lines hind =>
      rw [hasRequest] at request ⊢
      split_ifs at request ⊢ with blank
      · exact hind taken request
      · have later (more : (env.takes (count + 1) && env.hasRequest (count + 1 + 1) lines) = true) :
            env.hasRequest (count + 1) lines := by
          rw [Bool.and_eq_true] at more
          exact hind more.1 more.2
        cases parsed : env.serde.requestFromStr (trim line) with
        | ok req =>
            simp only [parsed, Bool.or_eq_true] at request ⊢
            exact request.imp_right fun more => by simp [taken, later more]
        | error message =>
            simp only [parsed] at request ⊢
            simp [taken, later request]

/-! ## The guard and the relay -/

/-- In production mode every guard accepts. -/
theorem guardConnectionInner_quiet :
    env.guardConnectionInner.2.shouldAccept ∧
      env.guardConnectionInner.1.all ConnEvent.isOpening ∧
      env.guardConnectionInner.1.any ConnEvent.isVerify = false := by
  rw [guardConnectionInner]
  cases env.mode with
  | development => exact ⟨rfl, rfl, rfl⟩
  | production familyId =>
      cases env.provider with
      | none => exact ⟨rfl, rfl, rfl⟩
      | some provider =>
          simp only [createBtspSession]
          cases env.createResult provider (.obj [("family_id", .str familyId)]) with
          | error error => exact ⟨rfl, rfl, rfl⟩
          | ok result =>
              dsimp only
              cases result.getStr "session_id" <;> exact ⟨rfl, rfl, rfl⟩

theorem guardFromFirstByte_quiet (byte : Option UInt8) :
    (env.guardFromFirstByte byte).2.shouldAccept ∧
      (env.guardFromFirstByte byte).1.all ConnEvent.isOpening ∧
      (env.guardFromFirstByte byte).1.any ConnEvent.isVerify = false := by
  cases byte with
  | none =>
      rw [guardFromFirstByte.eq_def]
      split_ifs <;> exact ⟨rfl, rfl, rfl⟩
  | some byte =>
      rw [guardFromFirstByte.eq_def]
      dsimp only
      split_ifs
      · exact ⟨rfl, rfl, rfl⟩
      · exact ⟨rfl, rfl, rfl⟩
      · exact env.guardConnectionInner_quiet

theorem guardFromFirstLineAfterBrace_quiet (line : Text) :
    (env.guardFromFirstLineAfterBrace line).2.shouldAccept ∧
      (env.guardFromFirstLineAfterBrace line).1.all ConnEvent.isOpening ∧
      (env.guardFromFirstLineAfterBrace line).1.any ConnEvent.isVerify = false := by
  rw [guardFromFirstLineAfterBrace]
  split_ifs
  · exact ⟨rfl, rfl, rfl⟩
  · exact env.guardConnectionInner_quiet
  · exact ⟨rfl, rfl, rfl⟩

/-- The first half of the relay ends with the challenge sent, or fails. -/
theorem relayClientHello_cases (line : Text) :
    (env.relayClientHello line).1.all ConnEvent.isOpening ∧
      ∀ challenge, (env.relayClientHello line).2 = .ok challenge →
        env.takes 0 ∧ ∃ before hello, (env.relayClientHello line).1 = before ++ [.sent hello] ∧
          hello.getStr "challenge" = some challenge.challenge := by
  rw [relayClientHello]
  cases env.mode with
  | development => exact ⟨rfl, by simp⟩
  | production _ =>
  cases env.provider with
  | none => exact ⟨rfl, by simp⟩
  | some provider =>
  cases env.serde.fromStr (trim line) with
  | error message => exact ⟨rfl, by simp⟩
  | ok clientHello =>
  dsimp only
  cases clientHello.getStr "client_ephemeral_pub" with
  | none => exact ⟨rfl, by simp⟩
  | some clientEphemeralPub =>
  dsimp only
  cases env.securityRpc provider "btsp.session.create" _ with
  | error error => exact ⟨rfl, by simp⟩
  | ok created =>
  dsimp only
  cases ((created.get "session_id").or (created.get "session_token")).bind Json.asStr with
  | none => exact ⟨rfl, by simp⟩
  | some sessionId =>
  dsimp only
  cases created.getStr "challenge" with
  | none => exact ⟨rfl, by simp⟩
  | some challenge =>
  dsimp only
  cases taken : env.takes 0 with
  | false => exact ⟨rfl, by simp⟩
  | true =>
      refine ⟨rfl, ?_⟩
      intro result same
      cases same
      exact ⟨rfl, [_], _, rfl, rfl⟩

/-- The second half of the relay succeeds only when the provider verifies the challenge. -/
theorem relayChallengeResponse_cases (challenge : Challenge) (line : Text) :
    (env.relayChallengeResponse challenge line).1.all ConnEvent.isOpening ∧
      ∀ sessionId, (env.relayChallengeResponse challenge line).2 = .ok sessionId →
        env.takes 1 ∧ ∃ params answer after, (env.relayChallengeResponse challenge line).1 =
            .called "btsp.session.verify" params (.ok answer) :: after ∧
          params.getStr "challenge" = some challenge.challenge ∧
          (answer.get "verified").bind Json.asBool = some true := by
  rw [relayChallengeResponse]
  cases env.serde.fromStr (trim line) with
  | error message => exact ⟨rfl, by simp⟩
  | ok response =>
      dsimp only
      generalize asked : Json.obj [("challenge", .str challenge.challenge), _, _, _, _] = params
      have same : params.getStr "challenge" = some challenge.challenge := by
        rw [← asked]
        rfl
      cases env.securityRpc challenge.provider "btsp.session.verify" params with
      | error error => exact ⟨rfl, by simp⟩
      | ok result =>
          dsimp only
          cases verdict : (result.get "verified").bind Json.asBool with
          | none => cases env.takes 1 <;> exact ⟨rfl, by simp⟩
          | some verified =>
              cases verified with
              | false => cases env.takes 1 <;> exact ⟨rfl, by simp⟩
              | true =>
                  cases taken : env.takes 1 with
                  | false => exact ⟨rfl, by simp⟩
                  | true =>
                      refine ⟨rfl, ?_⟩
                      intro sessionId _
                      exact ⟨rfl, _, _, _, rfl, same, verdict⟩

theorem relayJsonLineHandshake_opening {R : Type} [AsyncRead R] (line : Text)
    (reader : BufReader R) :
    (env.relayJsonLineHandshake line reader).1.all ConnEvent.isOpening := by
  have hello := (env.relayClientHello_cases line).1
  rw [relayJsonLineHandshake]
  cases started : env.relayClientHello line with
  | mk events result =>
  rw [started] at hello
  cases result with
  | error error => exact hello
  | ok challenge =>
  cases reader.readLine with
  | stopped how => cases how <;> exact hello
  | line waited bytes rest =>
  dsimp only
  cases utf8Decode bytes with
  | none => exact hello
  | some text =>
  have response := (env.relayChallengeResponse_cases challenge text).1
  dsimp only
  cases ended : env.relayChallengeResponse challenge text with
  | mk later result =>
  rw [ended] at response
  have both : (events ++ later).all ConnEvent.isOpening := by
    rw [all_append, hello, response]
    rfl
  cases result <;> exact both

/-- A successful relay has verified the challenge, and takes one line off the stream. -/
theorem relayJsonLineHandshake_ok {R : Type} [AsyncRead R] {env : ServerEnv} {line : Text}
    {reader rest : BufReader R} {events : List ConnEvent} {sessionId : String}
    (result : env.relayJsonLineHandshake line reader = (events, some (.ok (sessionId, rest)))) :
    Verified events ∧ env.takes 0 ∧ env.takes 1 ∧ ending rest = ending reader ∧
      ∃ response text, nextDelivered (content reader) (ending reader) =
        some (response, content rest) ∧ utf8Decode response = some text := by
  have hello := (env.relayClientHello_cases line).2
  rw [relayJsonLineHandshake] at result
  cases started : env.relayClientHello line with
  | mk events started_result =>
  rw [started] at result hello
  cases started_result with
  | error error => simp at result
  | ok challenge =>
  rcases hello challenge rfl with ⟨taken, before, hello_message, shape, sent⟩
  cases read : reader.readLine with
  | stopped how => cases how <;> simp [read] at result
  | line waited bytes rest =>
  rcases BufReader.readLine_line read with ⟨found, same_end⟩
  simp only [read] at result
  cases decoded : utf8Decode bytes with
  | none => simp [decoded] at result
  | some text =>
  have response := (env.relayChallengeResponse_cases challenge text).2
  simp only [decoded] at result
  cases ended : env.relayChallengeResponse challenge text with
  | mk later ended_result =>
  rw [ended] at result response
  cases ended_result with
  | error error => simp at result
  | ok sessionId =>
  cases result
  rcases response sessionId rfl with ⟨taken', params, answer, after, shape', asked, verdict⟩
  dsimp only at shape shape'
  subst shape shape'
  exact ⟨⟨before, hello_message, [], params, answer, after, _, by simp, sent, asked, verdict⟩,
    taken, taken', same_end, bytes, text, found, decoded⟩

end ServerEnv

variable (env : ServerEnv) {socket : Socket}

/-! ## The listeners -/

/-- What follows the guard: a loop over lines that only the guard precedes. -/
theorem loop_after_guard (count : Nat) (lines : List Text) {guard : List ConnEvent}
    (opening : guard.all ConnEvent.isOpening) (unverified : guard.any ConnEvent.isVerify = false) :
    (AuthenticatedFirst (guard ++ env.answerLines count lines) ↔
      ¬env.hasRequest count lines) ∧
    (Dispatches (guard ++ env.answerLines count lines) ↔ env.hasRequest count lines) := by
  have dispatches : Dispatches (guard ++ env.answerLines count lines) ↔
      env.hasRequest count lines := by
    rw [Dispatches, any_append, isDispatch_of_opening opening, Bool.false_or,
      env.isDispatch_answerLines]
  have no_verify : (guard ++ env.answerLines count lines).any ConnEvent.isVerify = false := by
    rw [any_append, unverified, Bool.false_or, env.isVerify_answerLines]
  exact ⟨by rw [authenticatedFirst_iff_of_unverified no_verify, dispatches], dispatches⟩

theorem dispatchConnection_late (late : firstInTime socket = none) :
    dispatchConnection env socket = (env.guardFromFirstByte none).1 ++
      env.answerLines 0 (textLines socket.bytes socket.ending) := by
  rw [dispatchConnection, readFirstByte_none late]
  simp only [(env.guardFromFirstByte_quiet none).1, if_true, processNewlineReaderWriter_eq]
  rfl

theorem tcpConnection_other (other : firstInTime socket ≠ some plainJsonrpcMarker) :
    tcpConnection env socket = (env.guardFromFirstByte (firstInTime socket)).1 ++
      env.answerLines 0 (textLines socket.bytes socket.ending) := by
  rcases peekFirstByte_eq socket with ⟨reader, peeked, bytes, ends, _⟩
  rw [tcpConnection, peeked]
  cases first : firstInTime socket with
  | none =>
      simp only [(env.guardFromFirstByte_quiet none).1, if_true, processNewlineReaderWriter_eq,
        bytes, ends]
  | some byte =>
      have not_brace : byte ≠ plainJsonrpcMarker := fun same => other (by rw [first, same])
      simp only [(env.guardFromFirstByte_quiet (some byte)).1, if_true, not_brace, if_false,
        processNewlineReaderWriter_eq, bytes, ends]

theorem tcpConnection_brace (brace : firstInTime socket = some plainJsonrpcMarker) :
    tcpConnection env socket =
      if restDelay socket < peekTimeout then
        match firstLineOf socket.bytes socket.ending with
        | none => []
        | some (line, rest) =>
            (env.guardFromFirstLineAfterBrace line).1 ++
              if lineLooksLikeBtspClientHello line then
                env.answerLines 0 (textLines rest socket.ending)
              else env.answerLines 0 (textLines (utf8Encode line ++ rest) socket.ending)
      else [] := by
  rcases peekFirstByte_eq socket with ⟨reader, peeked, bytes, ends, delay⟩
  have spent := delay plainJsonrpcMarker brace (by decide)
  rw [tcpConnection, peeked, brace]
  simp only [if_true]
  cases read : readFirstLine reader with
  | none =>
      split_ifs with soon
      · have missing := readFirstLine_none read (spent ▸ soon)
        rw [bytes, ends] at missing
        rw [missing]
      · rfl
  | some pair =>
      rcases pair with ⟨line, rest⟩
      rcases readFirstLine_some read with ⟨soon, found, same_end⟩
      rw [bytes, ends] at found
      rw [if_pos (spent ▸ soon), found]
      simp only [(env.guardFromFirstLineAfterBrace_quiet line).1, if_true,
        ServerEnv.processNewlineAfterBraceLine, processNewlineReaderWriter_eq,
        content_linePrefixed, ending_linePrefixed, same_end, ends]

theorem dispatchConnection_other {byte : UInt8} (first : firstInTime socket = some byte)
    (not_p : byte ≠ 80) (not_brace : byte ≠ plainJsonrpcMarker) :
    dispatchConnection env socket = (env.guardFromFirstByte (some byte)).1 ++
      env.answerLines 0 (textLines socket.bytes.tail socket.ending) := by
  rcases readFirstByte_some first with ⟨stream, read, bytes, ends, _⟩
  rw [dispatchConnection, read, bytes]
  simp only [not_p, not_brace, if_false, (env.guardFromFirstByte_quiet (some byte)).1, if_true,
    processNewlineReaderWriter_eq, tail_cons, ← ends]
  rfl

/-- The connection starts with a line of JSON that is not a BTSP hello. -/
def PlainFirstLine (socket : Socket) : Prop :=
  socket.bytes.head? = some plainJsonrpcMarker ∧
    ∀ line rest, firstLineOf socket.bytes socket.ending = some (line, rest) →
      lineLooksLikeBtspClientHello line = false

/-- The protocol negotiation of a connection that starts with `P`. -/
def negotiationOf (env : ServerEnv) (socket : Socket) :
    Option (List ConnEvent × Option IpcProtocol × Socket) :=
  negotiateServerAfterP (env.takes 0)
    (if env.tarpcAvailable then IpcProtocol.supported else [.JsonRpc]) (readFirstByte socket).2

/-- The client leaves a request to dispatch on one of the listeners: in the lines that a loop
gets without a handshake, or on a negotiated `tarpc` stream. -/
def RequestsLeft (env : ServerEnv) (socket : Socket) : Prop :=
  if firstInTime socket = some plainJsonrpcMarker then
    restDelay socket < peekTimeout ∧
      ∃ line rest, firstLineOf socket.bytes socket.ending = some (line, rest) ∧
        env.hasRequest 0 (textLines rest socket.ending)
  else
    env.hasRequest 0 (textLines socket.bytes socket.ending) ∨
      if firstInTime socket = some 80 then
        ∃ events selected rest, negotiationOf env socket = some (events, selected, rest) ∧
          if selected = some .Tarpc then env.tarpcMethods rest.bytes ≠ []
          else env.hasRequest events.length (textLines rest.bytes rest.ending)
      else firstInTime socket ≠ none ∧
        env.hasRequest 0 (textLines socket.bytes.tail socket.ending)

theorem nextDelivered_nil_rest {bytes rest : List UInt8} {ending : StreamEnd}
    (found : nextDelivered bytes ending = some ([], rest)) : rest = [] := by
  rw [nextDelivered] at found
  cases split : splitAtNewline bytes with
  | some pair =>
      rw [split] at found
      cases found
      rcases splitAtNewline_eq_some.mp split with ⟨before, _, empty, _⟩
      simp at empty
  | none =>
      rw [split] at found
      simp only [Option.ite_none_right_eq_some, Option.some.injEq, Prod.mk.injEq] at found
      exact found.2.2.symm

/-- The lines after the response to the challenge are among those after the hello. -/
theorem hasRequest_of_response {env : ServerEnv} {bytes response rest : List UInt8}
    {ending : StreamEnd} {text : Text} (taken : env.takes 0) (taken' : env.takes 1)
    (found : nextDelivered bytes ending = some (response, rest))
    (decoded : utf8Decode response = some text)
    (request : env.hasRequest 2 (textLines rest ending)) :
    env.hasRequest 0 (textLines bytes ending) := by
  by_cases empty : response = []
  · subst empty
    rw [nextDelivered_nil_rest found] at request
    cases ending <;> simp [textLines, deliveredLines, splitLines, decodeLines,
      ServerEnv.hasRequest] at request
  · have later := ServerEnv.hasRequest_pred taken' request
    rw [textLines, deliveredLines_of_some found empty, decodeLines, decoded]
    dsimp only
    rw [ServerEnv.hasRequest]
    split_ifs with blank
    · exact ServerEnv.hasRequest_pred taken later
    · have more : (env.takes 0 && env.hasRequest 1 (textLines rest ending)) = true := by
        simp [taken, later]
      simp only [textLines] at more
      cases env.serde.requestFromStr (trim (chomp text)) <;> simp [more]

/-- After a hello the Unix socket dispatches nothing before the handshake has succeeded, and
nothing that the TCP listener would not. -/
theorem dispatchConnection_hello (brace : firstInTime socket = some plainJsonrpcMarker)
    (hello : ¬PlainFirstLine socket) :
    AuthenticatedFirst (dispatchConnection env socket) ∧
      (Dispatches (dispatchConnection env socket) → RequestsLeft env socket) := by
  rcases readFirstByte_some brace with ⟨stream, read, bytes, ends, delay⟩
  have quiet : AuthenticatedFirst ([] : List ConnEvent) ∧
      (Dispatches [] → RequestsLeft env socket) :=
    ⟨authenticatedFirst_of_quiet (by simp [Dispatches]), by simp [Dispatches]⟩
  rw [dispatchConnection, read]
  simp only [show plainJsonrpcMarker ≠ 80 by decide, if_false, if_true]
  rw [handleBraceConnection]
  cases first : readFirstLine (BufReader.new stream) with
  | none => exact quiet
  | some pair =>
  rcases pair with ⟨lineRest, peeker⟩
  rcases readFirstLine_some first with ⟨soon, found, same_end⟩
  have stream_bytes : content (BufReader.new stream) = stream.bytes := rfl
  have stream_end : ending (BufReader.new stream) = socket.ending := ends
  rw [stream_bytes, stream_end] at found
  have whole : firstLineOf socket.bytes socket.ending =
      some (Char.ofNat plainJsonrpcMarker.toNat :: lineRest, content peeker) := by
    rw [bytes, firstLineOf_cons (c := Char.ofNat plainJsonrpcMarker.toNat) (by decide) (by decide),
      found]
    rw [if_neg]
    · rfl
    · rintro ⟨no_bytes, closed⟩
      rw [no_bytes, closed] at found
      simp [firstLineOf, nextDelivered, splitAtNewline] at found
  have looks : lineLooksLikeBtspClientHello (Char.ofNat plainJsonrpcMarker.toNat :: lineRest) := by
    by_contra plain
    refine hello ⟨firstInTime_mem_bytes brace, ?_⟩
    intro line rest same
    rw [whole] at same
    cases same
    simpa using plain
  dsimp only
  rw [if_pos looks]
  have opening := env.relayJsonLineHandshake_opening
    (Char.ofNat plainJsonrpcMarker.toNat :: lineRest) peeker
  cases relayed : env.relayJsonLineHandshake (Char.ofNat plainJsonrpcMarker.toNat :: lineRest)
    peeker with
  | mk events result =>
  rw [relayed] at opening
  have silent : ¬Dispatches events := by
    rw [Dispatches, isDispatch_of_opening opening]
    simp
  cases result with
  | none => exact ⟨authenticatedFirst_of_quiet silent, fun dispatches => absurd dispatches silent⟩
  | some result =>
  cases result with
  | error error =>
      have refused : ¬Dispatches (events ++ [.refused error]) := by
        simpa [Dispatches, ConnEvent.isDispatch] using silent
      exact ⟨authenticatedFirst_of_quiet refused, fun dispatches => absurd dispatches refused⟩
  | ok session =>
  rcases session with ⟨sessionId, rest⟩
  rcases ServerEnv.relayJsonLineHandshake_ok relayed with
    ⟨verified, taken, taken', rest_end, response, text, next, decoded⟩
  dsimp only
  rw [processNewlineReaderWriter_eq, rest_end, same_end, stream_end]
  rw [same_end, stream_end] at next
  refine ⟨verified.authenticatedFirst silent _, ?_⟩
  intro dispatches
  have request : env.hasRequest 2 (textLines (content rest) socket.ending) := by
    rw [← env.isDispatch_answerLines]
    rw [Dispatches, any_append, Bool.or_eq_true] at dispatches
    exact dispatches.resolve_left silent
  rw [RequestsLeft, if_pos brace]
  exact ⟨delay ▸ soon, _, _, whole,
    hasRequest_of_response taken taken' next decoded request⟩

/-- A negotiated connection is not authenticated. -/
theorem dispatchConnection_negotiated (first : firstInTime socket = some 80) :
    (AuthenticatedFirst (dispatchConnection env socket) ↔
        ¬Dispatches (dispatchConnection env socket)) ∧
      (Dispatches (dispatchConnection env socket) ↔
        ∃ events selected rest, negotiationOf env socket = some (events, selected, rest) ∧
          if selected = some .Tarpc then env.tarpcMethods rest.bytes ≠ []
          else env.hasRequest events.length (textLines rest.bytes rest.ending)) := by
  rcases readFirstByte_some first with ⟨stream, read, _⟩
  have same : negotiationOf env socket = negotiateServerAfterP (env.takes 0)
      (if env.tarpcAvailable then IpcProtocol.supported else [.JsonRpc]) stream := by
    rw [negotiationOf, read]
  rw [dispatchConnection, read]
  simp only [if_true]
  rw [handleG65Connection, same]
  cases negotiated : negotiateServerAfterP (env.takes 0)
      (if env.tarpcAvailable then IpcProtocol.supported else [.JsonRpc]) stream with
  | none =>
      exact ⟨authenticatedFirst_iff_of_unverified rfl, by simp [Dispatches]⟩
  | some outcome =>
  rcases outcome with ⟨events, selected, rest⟩
  have plain : events.all ConnEvent.isOpening ∧ events.any ConnEvent.isVerify = false := by
    rw [negotiateServerAfterP] at negotiated
    split at negotiated
    · simp at negotiated
    · cases negotiated
      exact ⟨rfl, rfl⟩
    · split at negotiated
      · cases negotiated
        cases env.takes 0 <;> exact ⟨rfl, rfl⟩
      · dsimp only at negotiated
        split at negotiated <;> cases negotiated <;> exact ⟨rfl, rfl⟩
  dsimp only
  by_cases tarpc : selected = some .Tarpc
  · rw [if_pos tarpc]
    have unverified : (events ++ ConnEvent.tarpc (content rest) ::
        (env.tarpcMethods (content rest)).map ConnEvent.dispatched).any
          ConnEvent.isVerify = false := by
      simp [any_append, plain.2, ConnEvent.isVerify]
    refine ⟨authenticatedFirst_iff_of_unverified unverified, ?_⟩
    have dispatches : Dispatches (events ++ ConnEvent.tarpc (content rest) ::
        (env.tarpcMethods (content rest)).map ConnEvent.dispatched) ↔
          env.tarpcMethods rest.bytes ≠ [] := by
      rw [Dispatches, any_append, isDispatch_of_opening plain.1]
      show _ ↔ env.tarpcMethods (content rest) ≠ []
      cases env.tarpcMethods (content rest) <;> simp [ConnEvent.isDispatch]
    rw [dispatches]
    constructor
    · intro methods
      exact ⟨_, _, _, rfl, by rw [if_pos tarpc]; exact methods⟩
    · rintro ⟨_, _, _, same, methods⟩
      cases same
      rwa [if_pos tarpc] at methods
  · rw [if_neg tarpc, processNewlineReaderWriter_eq]
    have loop := loop_after_guard env events.length
      (textLines (content (BufReader.new rest)) (ending (BufReader.new rest))) plain.1 plain.2
    refine ⟨by rw [loop.1, loop.2], ?_⟩
    rw [loop.2]
    constructor
    · intro request
      exact ⟨_, _, _, rfl, by rw [if_neg tarpc]; exact request⟩
    · rintro ⟨_, _, _, same, request⟩
      cases same
      rwa [if_neg tarpc] at request

/-- What is required of a connection that does not start with plain JSON-RPC. -/
structure BtspGuarded (env : ServerEnv) (socket : Socket) : Prop where
  unix : AuthenticatedFirst (dispatchConnection env socket)
  tcp : AuthenticatedFirst (tcpConnection env socket)
  same : Dispatches (dispatchConnection env socket) ↔ Dispatches (tcpConnection env socket)

/-- After a hello the TCP listener dispatches whatever follows. -/
theorem tcpConnection_hello (brace : firstInTime socket = some plainJsonrpcMarker)
    (hello : ¬PlainFirstLine socket) :
    (AuthenticatedFirst (tcpConnection env socket) ↔ ¬RequestsLeft env socket) ∧
      (Dispatches (tcpConnection env socket) ↔ RequestsLeft env socket) := by
  have some_line : ∃ line rest, firstLineOf socket.bytes socket.ending = some (line, rest) ∧
      lineLooksLikeBtspClientHello line := by
    by_contra none_looks
    refine hello ⟨firstInTime_mem_bytes brace, ?_⟩
    intro line rest found
    by_contra looks
    exact none_looks ⟨line, rest, found, by simpa using looks⟩
  rcases some_line with ⟨line, rest, found, looks⟩
  have left : RequestsLeft env socket ↔
      restDelay socket < peekTimeout ∧ env.hasRequest 0 (textLines rest socket.ending) := by
    rw [RequestsLeft, if_pos brace, found]
    simp
  rw [tcpConnection_brace env brace, found, left]
  by_cases soon : restDelay socket < peekTimeout
  · have guard := env.guardFromFirstLineAfterBrace_quiet line
    have loop := loop_after_guard env 0 (textLines rest socket.ending) guard.2.1 guard.2.2
    rw [if_pos soon]
    simp only [looks, if_true, soon, true_and]
    exact loop
  · rw [if_neg soon]
    exact ⟨by simpa [soon] using authenticatedFirst_of_quiet (by simp [Dispatches]),
      by simp [Dispatches, soon]⟩

/-- A connection that starts with any other byte, or late, is dispatched as it comes. -/
theorem connections_other (other : firstInTime socket ≠ some plainJsonrpcMarker) :
    (AuthenticatedFirst (dispatchConnection env socket) ↔
        ¬Dispatches (dispatchConnection env socket)) ∧
      (AuthenticatedFirst (tcpConnection env socket) ↔
        ¬Dispatches (tcpConnection env socket)) ∧
      (RequestsLeft env socket ↔
        Dispatches (tcpConnection env socket) ∨ Dispatches (dispatchConnection env socket)) := by
  have tcp_guard := env.guardFromFirstByte_quiet (firstInTime socket)
  have tcp := loop_after_guard env 0 (textLines socket.bytes socket.ending)
    tcp_guard.2.1 tcp_guard.2.2
  rw [← tcpConnection_other env other] at tcp
  rw [RequestsLeft, if_neg other, tcp.2]
  cases first : firstInTime socket with
  | none =>
      have guard := env.guardFromFirstByte_quiet none
      have unix := loop_after_guard env 0 (textLines socket.bytes socket.ending)
        guard.2.1 guard.2.2
      rw [← dispatchConnection_late env first] at unix
      rw [unix.1, unix.2]
      exact ⟨Iff.rfl, tcp.1, by simp⟩
  | some byte =>
      by_cases negotiation : byte = 80
      · subst negotiation
        have unix := dispatchConnection_negotiated env first
        rw [if_pos rfl, ← unix.2]
        exact ⟨unix.1, tcp.1, Iff.rfl⟩
      · have guard := env.guardFromFirstByte_quiet (some byte)
        have not_brace : byte ≠ plainJsonrpcMarker := fun same => other (by rw [first, same])
        have unix := loop_after_guard env 0 (textLines socket.bytes.tail socket.ending)
          guard.2.1 guard.2.2
        rw [← dispatchConnection_other env first negotiation not_brace] at unix
        rw [if_neg (by simpa using negotiation), unix.1, unix.2]
        exact ⟨Iff.rfl, tcp.1, by simp⟩

/-- Authentication is not bypassed exactly on the connections that start with plain JSON-RPC
and on those that leave no request to dispatch. -/
theorem btspGuarded_iff (env : ServerEnv) (socket : Socket) :
    (¬PlainFirstLine socket → BtspGuarded env socket) ↔
      (PlainFirstLine socket ∨ ¬RequestsLeft env socket) := by
  by_cases plain : PlainFirstLine socket
  · simp [plain]
  simp only [plain, not_false_eq_true, forall_const, false_or]
  by_cases brace : firstInTime socket = some plainJsonrpcMarker
  · rcases dispatchConnection_hello env brace plain with ⟨unix, unix_left⟩
    rcases tcpConnection_hello env brace plain with ⟨tcp, tcp_left⟩
    constructor
    · intro guarded
      exact tcp.mp guarded.tcp
    · intro no_requests
      refine ⟨unix, tcp.mpr no_requests, ?_⟩
      rw [tcp_left]
      exact ⟨unix_left, fun left => absurd left no_requests⟩
  · rcases connections_other env brace with ⟨unix, tcp, left⟩
    constructor
    · intro guarded
      rw [left, not_or]
      exact ⟨tcp.mp guarded.tcp, unix.mp guarded.unix⟩
    · intro no_requests
      rw [left, not_or] at no_requests
      exact ⟨unix.mpr no_requests.2, tcp.mpr no_requests.1,
        by simp [no_requests.1, no_requests.2]⟩

/-- A socket on which bytes arrive at once, before the client stops sending. -/
def Socket.ofBytes (bytes : List UInt8) : Socket :=
  match bytes with
  | [] => ⟨[], .eof⟩
  | first :: more => ⟨[⟨0, first, more⟩], .eof⟩

/-- A `health` request. -/
def healthRequest : Text := "\x7b\"jsonrpc\":\"2.0\",\"method\":\"health\",\"id\":1\x7d".toList

/-- A production server of family `reef` whose provider creates sessions, with the parser's
results for its answers and for a `health` request. -/
def reefServer : ServerEnv where
  mode := .production "reef"
  familySeed := "seed"
  socketDir := "/run/biomeos"
  provider := some
    { endpoint := "unix:///run/biomeos/crypto.sock"
      exchange := fun _ _ => .ok (some "\x7b\"result\":\x7b\"session_id\":\"s\"\x7d\x7d".toList) }
  serde :=
    { fromStr := fun text =>
        if text = "\x7b\"result\":\x7b\"session_id\":\"s\"\x7d\x7d".toList then
          .ok (.obj [("result", .obj [("session_id", .str "s")])])
        else .error "expected value at line 1 column 1"
      requestFromStr := fun text =>
        if text = healthRequest then .ok ⟨"2.0", "health", .null, .nat 1⟩
        else .error "expected value at line 1 column 1" }
  base64Decode := fun _ => none
  dispatch := fun _ _ _ => .ok (.obj [("status", .str "healthy")])
  takes := fun _ => true
  tarpcAvailable := true
  tarpcMethods := fun _ => []

/-- After the line `PROTOCOLS: jsonrpc` a method is dispatched without any handshake. -/
theorem negotiation_skips_handshake :
    let socket := Socket.ofBytes (utf8Encode ("PROTOCOLS: jsonrpc\n".toList ++ healthRequest))
    ¬(¬PlainFirstLine socket → BtspGuarded reefServer socket) := by
  intro socket guarded
  have not_plain : ¬PlainFirstLine socket := fun plain => absurd plain.1 (by decide)
  have unverified : (dispatchConnection reefServer socket).any ConnEvent.isVerify = false := by
    decide
  have dispatches : (dispatchConnection reefServer socket).any ConnEvent.isDispatch := by
    decide
  exact (authenticatedFirst_iff_of_unverified unverified).mp (guarded not_plain).unix dispatches

end CoralReef
