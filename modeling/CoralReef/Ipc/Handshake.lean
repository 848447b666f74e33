import CoralReef.Ipc.UnixJsonrpc

/-!
# The two ends of a handshake

A client that runs `handshake_on_stream_sync` against a connection that `handle_brace_connection`
handles: the two ends, and the lines in flight between them in either direction. A line is
without its line feed here.
-/

namespace CoralReef

/-!
## Handshake of outgoing connections

`ipc/btsp_client.rs`: `handshake_on_stream_sync`, cut where it waits for a line of the peer.
-/

/-- `BtspSession`. -/
structure BtspSession where
  sessionId : String
  cipher : String
  deriving DecidableEq, Repr

/-- `BtspClientError`. -/
inductive BtspClientError where
  | io (message : String)
  | json (message : String)
  | protocol (message : String)
  deriving DecidableEq, Repr

/-- `DEFAULT_CIPHER`. -/
def defaultCipher : String := "chacha20_poly1305"

/-- Everything the client depends on except the lines of its peer. -/
structure ClientEnv where
  provider : SecurityProvider
  serde : SerdeJson

/-- `check_wire_error`. -/
def checkWireError (response : Json) (context : String) : Except BtspClientError Unit :=
  match response.get "error" with
  | none => .ok ()
  | some error =>
      let reason := (((error.get "reason").or (error.get "message")).bind Json.asStr).getD "unknown"
      .error (.protocol (context ++ ": " ++ reason))

namespace ClientEnv

/-- `read_json_line` on a line that has arrived. -/
def readJsonLine (env : ClientEnv) (line : Text) : Except BtspClientError Json :=
  match env.serde.fromStr line with
  | .ok value => .ok value
  | .error message => .error (.json message)

/-- `provider_rpc`. -/
def providerRpc (env : ClientEnv) (method : String) (params : Json) :
    Except BtspClientError Json :=
  match env.provider.exchange method params with
  | .error message =>
      .error (.protocol
        ("security provider at " ++ env.provider.endpoint ++ " unreachable: " ++ message))
  | .ok none => .error (.io "failed to fill whole buffer")
  | .ok (some line) => do
      let response ← env.readJsonLine line
      checkWireError response method
      match response.get "result" with
      | some result => .ok result
      | none => .error (.protocol (method ++ ": missing result"))

/-- What the client knows while it waits for the `ServerHello`. -/
structure Opened where
  clientEphemeralPub : String
  sessionRef : String

/-- The `ClientHello`. -/
def clientHello (clientEphemeralPub : String) : Json :=
  .obj [("client_ephemeral_pub", .str clientEphemeralPub), ("type", .str "ClientHello"),
    ("version", .nat 1)]

/-- The parameters of the client's `btsp.session.create`. -/
def createParams : Json :=
  .obj [("family_seed_ref", .str "env:FAMILY_SEED"), ("role", .str "client")]

/-- `handshake_on_stream_sync` up to the `ClientHello`. -/
def openHandshake (env : ClientEnv) : Except BtspClientError (Json × Opened) := do
  let created ← env.providerRpc "btsp.session.create" createParams
  match created.getStr "client_ephemeral_pub" with
  | none => .error (.protocol "missing client_ephemeral_pub")
  | some clientEphemeralPub =>
      match created.getStr "session_id" with
      | none => .error (.protocol "missing session_id")
      | some sessionRef =>
          .ok (clientHello clientEphemeralPub, { clientEphemeralPub, sessionRef })

/-- `handshake_on_stream_sync` from the `ServerHello` to the `ChallengeResponse`. -/
def receiveServerHello (env : ClientEnv) (opened : Opened) (line : Text) :
    Except BtspClientError Json := do
  let serverHello ← env.readJsonLine line
  checkWireError serverHello "server rejected handshake"
  match serverHello.getStr "server_ephemeral_pub" with
  | none => .error (.protocol "missing server_ephemeral_pub")
  | some serverEphemeralPub =>
      match serverHello.getStr "challenge" with
      | none => .error (.protocol "missing challenge")
      | some challenge =>
          let verified ← env.providerRpc "btsp.session.verify" (.obj
            [("challenge", .str challenge),
              ("client_ephemeral_pub", .str opened.clientEphemeralPub), ("role", .str "client"),
              ("server_ephemeral_pub", .str serverEphemeralPub),
              ("session_id", .str opened.sessionRef)])
          match verified.getStr "client_response" with
          | none => .error (.protocol "missing client_response")
          | some clientResponse =>
              .ok (.obj [("preferred_cipher", .str defaultCipher),
                ("response", .str clientResponse), ("type", .str "ChallengeResponse")])

/-- `handshake_on_stream_sync` from the `HandshakeComplete` on. -/
def receiveComplete (env : ClientEnv) (line : Text) : Except BtspClientError BtspSession := do
  let complete ← env.readJsonLine line
  checkWireError complete "handshake verification failed"
  let cipher := (complete.getStr "cipher").getD defaultCipher
  match complete.getStr "session_id" with
  | none => .error (.protocol "missing session_id in HandshakeComplete")
  | some sessionId => .ok { sessionId, cipher }

end ClientEnv

/-- Where the server stands between two lines of a connection. -/
inductive ServerState where
  /-- No line has been read. -/
  | fresh
  /-- The `ServerHello` is out. -/
  | challenged (challenge : Challenge)
  /-- The loop is running, after a handshake for a session or without one. -/
  | serving (session : Option String) (count : Nat)
  | closed

/-- Where the client stands between two lines of its peer. -/
inductive ClientState where
  | fresh
  /-- The `ClientHello` is out. -/
  | opened (opened : ClientEnv.Opened)
  /-- The `ChallengeResponse` is out. -/
  | responded
  /-- `handshake_on_stream_sync` has returned. -/
  | returned (result : Except BtspClientError BtspSession)

/-- The client waits for a line. -/
def ClientState.waits : ClientState → Bool
  | .opened _ | .responded => true
  | .fresh | .returned _ => false

namespace ServerState

/-- The loop with the next line. -/
def receiveRequest (env : ServerEnv) (session : Option String) (count : Nat) (line : Text) :
    List ConnEvent × ServerState :=
  let request := trim line
  if request = [] then ([], .serving session count)
  else
    let (events, response) := env.answer count request
    if env.takes count then
      (events ++ [.answered request response.compact], .serving session (count + 1))
    else (events, .closed)

/-- The server with the next line of the connection. -/
def receive (env : ServerEnv) : ServerState → Text → List ConnEvent × ServerState
  | .fresh, line =>
      if lineLooksLikeBtspClientHello line then
        match env.relayClientHello line with
        | (events, .ok challenge) => (events, .challenged challenge)
        | (events, .error error) => (events ++ [.refused error], .closed)
      else receiveRequest env none 0 line
  | .challenged challenge, line =>
      match env.relayChallengeResponse challenge line with
      | (events, .ok sessionId) => (events, .serving (some sessionId) 2)
      | (events, .error error) => (events ++ [.refused error], .closed)
  | .serving session count, line => receiveRequest env session count line
  | .closed, _ => ([], .closed)

/-- The server at the end of its client's stream. -/
def receiveEof (env : ServerEnv) : ServerState → List ConnEvent
  | .challenged challenge => (receive env (.challenged challenge) []).1
  | _ => []

end ServerState

/-- The line that an event puts on the connection. -/
def ConnEvent.output : ConnEvent → Option Text
  | .sent message => some message.compact
  | .answered _ response => some response
  | _ => none

/-- Both ends of a connection with the lines in flight. -/
structure Handshake where
  client : ClientState
  server : ServerState
  toServer : List Text
  toClient : List Text

namespace Handshake

/-- A new connection. -/
def initial : Handshake := ⟨.fresh, .fresh, [], []⟩

/-- One end takes its next step. -/
inductive Step (server : ServerEnv) (client : ClientEnv) : Handshake → Handshake → Prop where
  /-- The client has a session and says hello. -/
  | opens {state : Handshake} {hello : Json} {opened : ClientEnv.Opened}
      (fresh : state.client = .fresh) (created : client.openHandshake = .ok (hello, opened)) :
      Step server client state
        { state with client := .opened opened, toServer := state.toServer ++ [hello.compact] }
  | opensNot {state : Handshake} {error : BtspClientError}
      (fresh : state.client = .fresh) (created : client.openHandshake = .error error) :
      Step server client state { state with client := .returned (.error error) }
  /-- The client answers the challenge of a `ServerHello`. -/
  | responds {state : Handshake} {opened : ClientEnv.Opened} {line : Text} {later : List Text}
      {response : Json} (waits : state.client = .opened opened)
      (arrived : state.toClient = line :: later)
      (verified : client.receiveServerHello opened line = .ok response) :
      Step server client state
        { state with
          client := .responded
          toServer := state.toServer ++ [response.compact]
          toClient := later }
  | respondsNot {state : Handshake} {opened : ClientEnv.Opened} {line : Text} {later : List Text}
      {error : BtspClientError} (waits : state.client = .opened opened)
      (arrived : state.toClient = line :: later)
      (verified : client.receiveServerHello opened line = .error error) :
      Step server client state
        { state with client := .returned (.error error), toClient := later }
  /-- The client reads the last line of the handshake. -/
  | completes {state : Handshake} {line : Text} {later : List Text}
      (waits : state.client = .responded) (arrived : state.toClient = line :: later) :
      Step server client state
        { state with client := .returned (client.receiveComplete line), toClient := later }
  /-- The client waits for a line of a closed connection. -/
  | broken {state : Handshake} (waits : state.client.waits)
      (nothing : state.toClient = []) (closed : state.server = .closed) :
      Step server client state
        { state with client := .returned (.error (.io "failed to fill whole buffer")) }
  /-- The server reads a line. -/
  | receives {state : Handshake} {line : Text} {later : List Text}
      (arrived : state.toServer = line :: later) (running : state.server ≠ .closed) :
      Step server client state
        { state with
          server := (state.server.receive server line).2
          toServer := later
          toClient := state.toClient ++
            (state.server.receive server line).1.filterMap ConnEvent.output }
  /-- The server reads the end of the stream of a client that has given up. -/
  | hangsUp {state : Handshake} {error : BtspClientError}
      (failed : state.client = .returned (.error error)) (nothing : state.toServer = [])
      (running : state.server ≠ .closed) :
      Step server client state { state with server := .closed }

/-- The states that a connection can be in. -/
inductive Reachable (server : ServerEnv) (client : ClientEnv) : Handshake → Prop where
  | start : Reachable server client initial
  | step {state next : Handshake} (reached : Reachable server client state)
      (taken : Step server client state next) : Reachable server client next

end Handshake

end CoralReef
