import CoralReef.Ipc.Connection

/-!
# Handshake of incoming connections

`ipc/btsp.rs`: what is required of a connection by its first byte or its first line, and the
relay of the JSON-line handshake through the security provider.
-/

namespace CoralReef

open AsyncRead

/-- `BtspOutcome`. -/
inductive BtspOutcome where
  | DevMode
  | Authenticated (sessionId : String)
  | Degraded (reason : String)
  | Rejected (reason : String)
  deriving DecidableEq, Repr

/-- `BtspOutcome::should_accept`. -/
def BtspOutcome.shouldAccept : BtspOutcome → Bool
  | .DevMode | .Authenticated _ | .Degraded _ => true
  | .Rejected _ => false

/-- `PLAIN_JSONRPC_MARKER`. -/
def plainJsonrpcMarker : UInt8 := 123

/-- `line_looks_like_btsp_client_hello`. -/
def lineLooksLikeBtspClientHello (line : Text) : Bool :=
  decide (Json.quote "protocol" <:+: line) && decide (Json.quote "btsp" <:+: line)

/-- `b64_encode`. -/
def b64Encode (input : List UInt8) : String :=
  let chars := "ABCDEFGHIJKLMNOPQRSTUVWXYZabcdefghijklmnopqrstuvwxyz0123456789+/".toList
  let digit := fun value : Nat => chars.getD (value % 64) '='
  String.ofList <| (input.toChunks 3).flatMap fun chunk =>
    let byte := fun i => (chunk.getD i 0).toNat
    let triple := byte 0 * 65536 + byte 1 * 256 + byte 2
    [digit (triple / 262144), digit (triple / 4096),
      if 1 < chunk.length then digit (triple / 64) else '=',
      if 2 < chunk.length then digit triple else '=']

namespace ServerEnv

/-- `security_rpc`. -/
def securityRpc (env : ServerEnv) (provider : SecurityProvider) (method : String)
    (params : Json) : Except BtspSessionError Json :=
  match provider.exchange method params with
  | .error message => .error (.io message)
  | .ok none => .error (.protocol "no response from provider")
  | .ok (some line) =>
      match env.serde.fromStr line with
      | .error message => .error (.json message)
      | .ok response =>
          match response.get "error" with
          | some error => .error (.protocol (method ++ ": " ++ String.ofList error.compact))
          | none =>
              match response.get "result" with
              | some result => .ok result
              | none => .error (.protocol (method ++ ": missing result"))

/-- The response of `btsp.session.create` as `create_btsp_session` reads it. -/
def createResult (env : ServerEnv) (provider : SecurityProvider) (params : Json) :
    Except BtspSessionError Json :=
  match provider.exchange "btsp.session.create" params with
  | .error message => .error (.io message)
  | .ok none => .error (.protocol "no response from security provider")
  | .ok (some line) =>
      match env.serde.fromStr line with
      | .error message => .error (.json message)
      | .ok response =>
          match response.get "error" with
          | some error =>
              .error (.protocol ("btsp.session.create: " ++ String.ofList error.compact))
          | none =>
              match response.get "result" with
              | some result => .ok result
              | none => .error (.protocol "missing result in btsp.session.create response")

/-- The handshake key of a response, when it is the text of 32 bytes. -/
def handshakeKey (env : ServerEnv) (result : Json) : Option (List UInt8) := do
  let bytes ← (result.getStr "handshake_key").bind env.base64Decode
  if bytes.length = 32 then some bytes else none

/-- `create_btsp_session`. -/
def createBtspSession (env : ServerEnv) (provider : SecurityProvider) (familyId : String) :
    List ConnEvent × Except BtspSessionError (String × Option (List UInt8)) :=
  let params := Json.obj [("family_id", .str familyId)]
  let answer := env.createResult provider params
  let session := match answer with
    | .error error => .error error
    | .ok result =>
        match result.getStr "session_id" with
        | none => .error (.protocol "missing session_id in btsp.session.create response")
        | some sessionId => .ok (sessionId, env.handshakeKey result)
  ([.called "btsp.session.create" params answer], session)

/-- `BtspSessionError`'s `Display` form. -/
def sessionErrorText : BtspSessionError → String
  | .io message => "I/O: " ++ message
  | .json message => "JSON: " ++ message
  | .protocol message => message

/-- `guard_connection_inner`. -/
def guardConnectionInner (env : ServerEnv) : List ConnEvent × BtspOutcome :=
  match env.mode with
  | .development => ([], .DevMode)
  | .production familyId =>
      match env.provider with
      | none =>
          ([], .Degraded ("FAMILY_ID=" ++ familyId ++ " but security provider not discoverable at "
            ++ env.socketDir ++ ". BTSP handshake cannot be enforced — accepting in degraded mode. "
            ++ "Deploy a crypto-domain provider to enable BTSP authentication."))
      | some provider =>
          match env.createBtspSession provider familyId with
          | (events, .ok (sessionId, key)) =>
              (events ++ [.registered sessionId key], .Authenticated sessionId)
          | (events, .error error) =>
              (events, .Degraded ("BTSP session creation failed (provider at "
                ++ provider.endpoint ++ "): " ++ sessionErrorText error
                ++ ". Accepting in degraded mode."))

/-- `guard_from_first_byte`. -/
def guardFromFirstByte (env : ServerEnv) (firstByte : Option UInt8) :
    List ConnEvent × BtspOutcome :=
  if env.mode = .development then ([], .DevMode)
  else
    match firstByte with
    | some byte =>
        if byte = plainJsonrpcMarker then ([], .DevMode) else env.guardConnectionInner
    | none =>
        ([], .Degraded "first-byte peek failed or timed out — accepting in degraded mode")

/-- `guard_from_first_line_after_brace`. -/
def guardFromFirstLineAfterBrace (env : ServerEnv) (firstLine : Text) :
    List ConnEvent × BtspOutcome :=
  if env.mode = .development then ([], .DevMode)
  else if lineLooksLikeBtspClientHello firstLine then env.guardConnectionInner
  else ([], .DevMode)

end ServerEnv

/-! ## The relay -/

/-- What `relay_json_line_handshake` knows while it waits for the `ChallengeResponse`. -/
structure Challenge where
  provider : SecurityProvider
  sessionId : String
  clientEphemeralPub : String
  serverEphemeralPub : String
  challenge : String

namespace ServerEnv

/-- `relay_json_line_handshake` up to the `ServerHello`. -/
def relayClientHello (env : ServerEnv) (clientHelloLine : Text) :
    List ConnEvent × Except BtspSessionError Challenge :=
  match env.mode with
  | .development => ([], .error (.protocol "dev mode, no BTSP"))
  | .production _ =>
  match env.provider with
  | none => ([], .error (.protocol "security provider not discoverable"))
  | some provider =>
  match env.serde.fromStr (trim clientHelloLine) with
  | .error message => ([], .error (.json message))
  | .ok clientHello =>
  match clientHello.getStr "client_ephemeral_pub" with
  | none => ([], .error (.protocol "ClientHello missing client_ephemeral_pub"))
  | some clientEphemeralPub =>
  let seed := b64Encode (utf8Encode env.familySeed.toList)
  let params := Json.obj [("family_seed", .str seed)]
  let answer := env.securityRpc provider "btsp.session.create" params
  let called := ConnEvent.called "btsp.session.create" params answer
  match answer with
  | .error error => ([called], .error error)
  | .ok created =>
  -- The session token stands in only for a session id that is absent, not for one of another type.
  match ((created.get "session_id").or (created.get "session_token")).bind Json.asStr with
  | none => ([called], .error (.protocol "missing session_id in create response"))
  | some sessionId =>
  let serverEphemeralPub := (created.getStr "server_ephemeral_pub").getD ""
  match created.getStr "challenge" with
  | none => ([called], .error (.protocol "missing challenge in create response"))
  | some challenge =>
  let serverHello := Json.obj [("challenge", .str challenge),
    ("server_ephemeral_pub", .str serverEphemeralPub), ("version", .nat 1)]
  if env.takes 0 then
    ([called, .sent serverHello],
      .ok { provider, sessionId, clientEphemeralPub, serverEphemeralPub, challenge })
  else ([called], .error (.protocol "write ServerHello"))

/-- `relay_json_line_handshake` from the `ChallengeResponse` line on. -/
def relayChallengeResponse (env : ServerEnv) (challenge : Challenge) (line : Text) :
    List ConnEvent × Except BtspSessionError String :=
  match env.serde.fromStr (trim line) with
  | .error message => ([], .error (.protocol ("parse ChallengeResponse: " ++ message)))
  | .ok response =>
  let hmacResponse := (response.getStr "response").getD ""
  let params := Json.obj [("challenge", .str challenge.challenge),
    ("client_ephemeral_pub", .str challenge.clientEphemeralPub),
    ("response", .str hmacResponse),
    ("server_ephemeral_pub", .str challenge.serverEphemeralPub),
    ("session_token", .str challenge.sessionId)]
  let answer := env.securityRpc challenge.provider "btsp.session.verify" params
  let called := ConnEvent.called "btsp.session.verify" params answer
  match answer with
  | .error error => ([called], .error error)
  | .ok result =>
  if ((result.get "verified").bind Json.asBool).getD false then
    let complete := Json.obj [("cipher", .str "BTSP_NULL"), ("session_id", .str challenge.sessionId)]
    if env.takes 1 then ([called, .sent complete], .ok challenge.sessionId)
    else ([called], .error (.protocol "write HandshakeComplete"))
  else
    let failed := Json.obj [("error", .str "handshake_failed"),
      ("reason", .str "family_verification")]
    (called :: (if env.takes 1 then [.sent failed] else []),
      .error (.protocol "verification failed"))

/-- `relay_json_line_handshake`: the events, and the session with the rest of the stream.
`none` is a read that never returns. -/
def relayJsonLineHandshake {R : Type} [AsyncRead R] (env : ServerEnv) (clientHelloLine : Text)
    (reader : BufReader R) :
    List ConnEvent × Option (Except BtspSessionError (String × BufReader R)) :=
  match env.relayClientHello clientHelloLine with
  | (events, .error error) => (events, some (.error error))
  | (events, .ok challenge) =>
  match reader.readLine with
  | .stopped .silent => (events, none)
  | .stopped _ => (events, some (.error (.protocol "read ChallengeResponse")))
  | .line _ bytes rest =>
  match utf8Decode bytes with
  | none => (events, some (.error (.protocol "read ChallengeResponse")))
  | some line =>
  match env.relayChallengeResponse challenge line with
  | (later, .error error) => (events ++ later, some (.error error))
  | (later, .ok sessionId) => (events ++ later, some (.ok (sessionId, rest)))

end ServerEnv

end CoralReef
