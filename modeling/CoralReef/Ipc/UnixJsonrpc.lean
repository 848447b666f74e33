import CoralReef.Ipc.Btsp

/-!
# The Unix listener

`ipc/unix_jsonrpc.rs`: a connection is sent by its first byte to the protocol negotiation, to
the handshake or to plain JSON-RPC.
-/

/-!
## Newline-delimited JSON-RPC

`ipc/newline_jsonrpc.rs`: the loop that answers the lines of a stream, and the TCP listener.
-/

namespace CoralReef

open AsyncRead

/-- `make_response`. -/
def makeResponse (id : Json) (result : Except IpcServiceError Json) : Json :=
  match result with
  | .ok value => .obj [("jsonrpc", .str "2.0"), ("result", value), ("id", id)]
  | .error error =>
      .obj [("jsonrpc", .str "2.0"),
        ("error", .obj [("code", .minus error.phase.jsonrpcCode), ("message", .str error.display)]),
        ("id", id)]

namespace ServerEnv

/-- What the loop does with a request that it has read after `count` messages: the method it
dispatches and the response. -/
def answer (env : ServerEnv) (count : Nat) (request : Text) : List ConnEvent × Json :=
  match env.serde.requestFromStr request with
  | .ok req =>
      if req.jsonrpc = "2.0" then
        ([.dispatched req.method], makeResponse req.id (env.dispatch count req.method req.params))
      else
        ([], makeResponse req.id
          (.error (.dispatch ("invalid jsonrpc version: " ++ req.jsonrpc))))
  | .error message => ([], makeResponse .null (.error (.transport ("parse error: " ++ message))))

/-- The loop of `process_newline_reader_writer`, which stops when a response is not taken. -/
def answerLines (env : ServerEnv) : Nat → List Text → List ConnEvent
  | _, [] => []
  | count, line :: lines =>
      let request := trim line
      if request = [] then answerLines env count lines
      else
        let (events, response) := env.answer count request
        if env.takes count then
          events ++ .answered request response.compact :: answerLines env (count + 1) lines
        else events

theorem answerLines_blank {env : ServerEnv} {count : Nat} {line : Text} {lines : List Text}
    (blank : trim line = []) :
    env.answerLines count (line :: lines) = env.answerLines count lines := by
  rw [answerLines]
  exact if_pos blank

theorem answerLines_request {env : ServerEnv} {count : Nat} {line : Text} {lines : List Text}
    (request : trim line ≠ []) :
    env.answerLines count (line :: lines) =
      if env.takes count then
        (env.answer count (trim line)).1 ++
          .answered (trim line) (env.answer count (trim line)).2.compact ::
            env.answerLines (count + 1) lines
      else (env.answer count (trim line)).1 := by
  rw [answerLines]
  exact if_neg request

/-- `process_newline_reader_writer` on a connection that has written `count` messages. -/
def processNewlineReaderWriter {R : Type} [AsyncRead R] (env : ServerEnv) (count : Nat)
    (reader : R) : List ConnEvent :=
  env.answerLines count (BufReader.new reader).lines

/-- `process_newline_after_brace_line`. -/
def processNewlineAfterBraceLine {R : Type} [AsyncRead R] (env : ServerEnv) (firstLine : Text)
    (reader : R) : List ConnEvent :=
  if lineLooksLikeBtspClientHello firstLine then env.processNewlineReaderWriter 0 reader
  else env.processNewlineReaderWriter 0 (LinePrefixed.mk (utf8Encode firstLine) reader)

end ServerEnv

/-- `PEEK_TIMEOUT` in milliseconds. -/
def peekTimeout : Nat := 5000

/-- The first byte in the buffer of a connection, if it arrives before the time-out. -/
def peekFirstByte (socket : Socket) : Option UInt8 × BufReader Socket :=
  match (BufReader.new socket).fillBuf with
  | .got wait first more rest =>
      if wait < peekTimeout then (some first, ⟨first :: more, rest.inner⟩)
      else (none, .new socket)
  | .stopped _ => (none, .new socket)

/-- The first line, read before the time-out: `Ok(Ok(_))` with its text, or anything else. -/
def readFirstLine {R : Type} [AsyncRead R] (reader : BufReader R) :
    Option (Text × BufReader R) :=
  match reader.readLine with
  | .line waited bytes rest =>
      if peekTimeout ≤ waited ∨ bytes = [] then none
      else (utf8Decode bytes).map fun text => (text, rest)
  | .stopped _ => none

/-- A connection that `start_newline_tcp_jsonrpc` accepts. -/
def tcpConnection (env : ServerEnv) (socket : Socket) : List ConnEvent :=
  match peekFirstByte socket with
  | (some byte, reader) =>
      if byte = plainJsonrpcMarker then
        match readFirstLine reader with
        | none => []
        | some (line, rest) =>
            let (events, outcome) := env.guardFromFirstLineAfterBrace line
            if outcome.shouldAccept then events ++ env.processNewlineAfterBraceLine line rest
            else events
      else
        let (events, outcome) := env.guardFromFirstByte (some byte)
        if outcome.shouldAccept then events ++ env.processNewlineReaderWriter 0 reader else events
  | (none, reader) =>
      let (events, outcome) := env.guardFromFirstByte none
      if outcome.shouldAccept then events ++ env.processNewlineReaderWriter 0 reader else events

/-!
## Protocol negotiation

`ipc_protocol.rs` and `protocol_negotiation.rs`: the `PROTOCOLS:` line of a client and the
`PROTOCOL:` line that answers it.
-/

/-- `IpcProtocol`. -/
inductive IpcProtocol where
  | JsonRpc
  | Tarpc
  deriving DecidableEq, Repr

namespace IpcProtocol

/-- `from_name`. -/
def fromName (name : Text) : Option IpcProtocol :=
  let lower := name.map Char.toLower
  if lower = "jsonrpc".toList ∨ lower = "json-rpc".toList ∨ lower = "json_rpc".toList then
    some .JsonRpc
  else if lower = "tarpc".toList then some .Tarpc
  else none

/-- `supported`. -/
def supported : List IpcProtocol := [.Tarpc, .JsonRpc]

/-- `negotiation_name`. -/
def negotiationName : IpcProtocol → Text
  | .JsonRpc => "jsonrpc".toList
  | .Tarpc => "tarpc".toList

end IpcProtocol

/-- `MAX_NEGOTIATION_LINE_LEN`. -/
def maxNegotiationLineLen : Nat := 256

/-- `str::strip_prefix`. -/
def stripStart (start text : Text) : Option Text :=
  if start.isPrefixOf text then some (text.drop start.length) else none

/-- `ProtocolRequest::from_wire`: the protocols that the client names, in its order. -/
def fromWire (line : Text) : Option (List IpcProtocol) :=
  match stripStart "PROTOCOLS: ".toList (trim line) with
  | none => none
  | some names =>
      let supported := (names.splitOn ',').filterMap fun name => IpcProtocol.fromName (trim name)
      if supported = [] then none else some supported

/-- `ProtocolResponse::to_wire`. -/
def ProtocolResponse.toWire (selected : IpcProtocol) : Text :=
  "PROTOCOL: ".toList ++ selected.negotiationName ++ ['\n']

/-- `select_protocol`. -/
def selectProtocol (client server : List IpcProtocol) : IpcProtocol :=
  match client.find? fun protocol => server.contains protocol with
  | some protocol => protocol
  | none => .JsonRpc

section

variable {R : Type} [AsyncRead R]

/-- The loop of `read_negotiation_line_after_p`, one byte at a time. It returns with the text
of the line, or with nothing when the line is unusable; `none` is a read that never returns. -/
def readNegotiationLineFrom : Nat → List UInt8 → R → Option (Option Text × R)
  | 0, _, stream => some (none, stream)
  | fuel + 1, buf, stream =>
      match AsyncRead.read stream 1 with
      | .stopped .silent => none
      | .stopped _ => some (none, stream)
      | .got _ byte _ rest =>
          let buf := buf ++ [byte]
          if byte = newline then some (utf8Decode buf, rest)
          else if maxNegotiationLineLen < buf.length then some (none, rest)
          else readNegotiationLineFrom fuel buf rest

/-- `read_negotiation_line_after_p`. The length limit stops the loop before the fuel does. -/
def readNegotiationLineAfterP (stream : R) : Option (Option Text × R) :=
  readNegotiationLineFrom (maxNegotiationLineLen + 1) [80] stream

/-- `negotiate_server_after_p`: what is written, the protocol, and the stream after the line. -/
def negotiateServerAfterP (takes : Bool) (serverSupported : List IpcProtocol) (stream : R) :
    Option (List ConnEvent × Option IpcProtocol × R) :=
  match readNegotiationLineAfterP stream with
  | none => none
  | some (none, rest) => some ([], none, rest)
  | some (some line, rest) =>
      match fromWire line with
      | none =>
          let reply := ProtocolResponse.toWire .JsonRpc
          some (if takes then [.negotiated reply] else [], some .JsonRpc, rest)
      | some request =>
          let selected := selectProtocol request serverSupported
          if takes then
            some ([.negotiated (ProtocolResponse.toWire selected)], some selected, rest)
          else some ([], none, rest)

end

/-- `G65_TIMEOUT` in milliseconds. -/
def g65Timeout : Nat := 100

/-- The first byte, read before either time-out, and the stream after it. A read that times out
takes nothing. -/
def readFirstByte (socket : Socket) : Option UInt8 × Socket :=
  match AsyncRead.read socket 1 with
  | .got wait byte _ rest =>
      if wait < g65Timeout then (some byte, rest)
      else if wait - g65Timeout < peekTimeout - g65Timeout then (some byte, rest)
      else (none, socket)
  | .stopped _ => (none, socket)

/-- `handle_g65_connection`. -/
def handleG65Connection (env : ServerEnv) (stream : Socket) : List ConnEvent :=
  let serverSupported := if env.tarpcAvailable then IpcProtocol.supported else [.JsonRpc]
  match negotiateServerAfterP (env.takes 0) serverSupported stream with
  | none => []
  | some (events, selected, rest) =>
      if selected = some .Tarpc then
        events ++ .tarpc (content rest) :: (env.tarpcMethods (content rest)).map .dispatched
      else events ++ env.processNewlineReaderWriter events.length (BufReader.new rest)

/-- `handle_brace_connection`. -/
def handleBraceConnection (env : ServerEnv) (stream : Socket) : List ConnEvent :=
  match readFirstLine (BufReader.new stream) with
  | none => []
  | some (lineRest, peeker) =>
      let firstLine := Char.ofNat plainJsonrpcMarker.toNat :: lineRest
      if lineLooksLikeBtspClientHello firstLine then
        match env.relayJsonLineHandshake firstLine peeker with
        | (events, none) => events
        | (events, some (.error error)) => events ++ [.refused error]
        | (events, some (.ok (_, rest))) => events ++ env.processNewlineReaderWriter 2 rest
      else env.processNewlineAfterBraceLine firstLine peeker

/-- `dispatch_connection`. -/
def dispatchConnection (env : ServerEnv) (socket : Socket) : List ConnEvent :=
  match readFirstByte socket with
  | (some byte, stream) =>
      if byte = 80 then handleG65Connection env stream
      else if byte = plainJsonrpcMarker then handleBraceConnection env stream
      else
        let (events, outcome) := env.guardFromFirstByte (some byte)
        if outcome.shouldAccept then
          events ++ env.processNewlineReaderWriter 0 (BufReader.new stream)
        else events
  | (none, stream) =>
      let (events, outcome) := env.guardFromFirstByte none
      if outcome.shouldAccept then
        events ++ env.processNewlineReaderWriter 0 (BufReader.new stream)
      else events

end CoralReef
