import CoralReef.Ipc.Btsp

/-!
# Cipher negotiation

`ipc/btsp_negotiate.rs`: the keys of an encrypted channel, and `btsp.negotiate` up to the point
where it stores them.
-/

namespace CoralReef

/-- `NegotiateError`. -/
inductive NegotiateError where
  | invalidSession (message : String)
  | invalidParams (message : String)
  deriving DecidableEq, Repr

/-- The `Display` form of an error. -/
def NegotiateError.display : NegotiateError → String
  | .invalidSession message => "invalid session: " ++ message
  | .invalidParams message => "invalid params: " ++ message

/-- What a negotiation depends on except the registries and the random bytes. -/
structure NegotiateEnv where
  mode : BtspMode
  serde : SerdeJson
  /-- The message of `serde_json::from_value` where a value is no `NegotiateRequest`. -/
  requestError : Json → String
  /-- `base64`'s standard decoder. -/
  base64Decode : String → Except String (List UInt8)
  /-- HKDF-SHA256 with a salt, a key and the information of an expansion to 32 bytes. -/
  hkdf : List UInt8 → List UInt8 → String → Except String (List UInt8)
  /-- ChaCha20-Poly1305 with a key and a nonce. -/
  encrypt : List UInt8 → List UInt8 → List UInt8 → Option (List UInt8)
  decrypt : List UInt8 → List UInt8 → List UInt8 → Option (List UInt8)

/-- `NegotiateRequest`, without the bond type that only the log shows. -/
structure NegotiateRequest where
  sessionId : String
  preferredCipher : String
  clientNonce : String
  deriving DecidableEq, Repr

/-- `serde_json::from_value::<NegotiateRequest>`: the four fields by name or in order. -/
def NegotiateRequest.fromValue : Json → Option NegotiateRequest
  | .obj members => do
      let sessionId ← (Json.obj members).getStr "session_id"
      let preferredCipher ← (Json.obj members).getStr "preferred_cipher"
      let clientNonce ← (Json.obj members).getStr "client_nonce"
      let _ ← (Json.obj members).getStr "bond_type"
      some { sessionId, preferredCipher, clientNonce }
  | .arr [.str sessionId, .str preferredCipher, .str clientNonce, .str _] =>
      some { sessionId, preferredCipher, clientNonce }
  | _ => none

/-- `NegotiateResponse`. -/
structure NegotiateResponse where
  cipher : String
  serverNonce : String

def NegotiateResponse.toJson (response : NegotiateResponse) : Json :=
  .obj [("cipher", .str response.cipher), ("server_nonce", .str response.serverNonce)]

/-- `NONCE_BYTES`. -/
def nonceBytes : Nat := 12

/-- `MIN_CLIENT_NONCE_BYTES`. -/
def minClientNonceBytes : Nat := 12

/-! ## Keys -/

/-- `SessionKeys`. -/
structure SessionKeys where
  encryptKey : List UInt8
  decryptKey : List UInt8
  deriving DecidableEq, Repr

namespace SessionKeys

/-- `SessionKeys::derive`. -/
def derive (env : NegotiateEnv) (handshakeKey clientNonce serverNonce : List UInt8)
    (isClient : Bool) : Except NegotiateError SessionKeys :=
  let salt := clientNonce ++ serverNonce
  match env.hkdf salt handshakeKey "btsp-session-v1-c2s" with
  | .error message => .error (.invalidParams ("HKDF c2s expansion failed: " ++ message))
  | .ok clientToServer =>
  match env.hkdf salt handshakeKey "btsp-session-v1-s2c" with
  | .error message => .error (.invalidParams ("HKDF s2c expansion failed: " ++ message))
  | .ok serverToClient =>
      if isClient then .ok ⟨clientToServer, serverToClient⟩
      else .ok ⟨serverToClient, clientToServer⟩

/-- `SessionKeys::encrypt`, with the nonce that `getrandom` fills or its error. -/
def encrypt (env : NegotiateEnv) (keys : SessionKeys) (nonce : Except String (List UInt8))
    (plaintext : List UInt8) : Except NegotiateError (List UInt8) :=
  match nonce with
  | .error message => .error (.invalidParams ("nonce generation failed: " ++ message))
  | .ok nonce =>
      match env.encrypt keys.encryptKey nonce plaintext with
      | none => .error (.invalidParams "AEAD encrypt failed: aead::Error")
      | some ciphertext => .ok (nonce ++ ciphertext)

/-- `SessionKeys::decrypt`. -/
def decrypt (env : NegotiateEnv) (keys : SessionKeys) (frame : List UInt8) :
    Except NegotiateError (List UInt8) :=
  let minFrameBytes := nonceBytes + 16
  if frame.length < minFrameBytes then
    .error (.invalidParams ("frame too short: " ++ toString frame.length ++ " bytes (need >= "
      ++ toString minFrameBytes ++ ")"))
  else
    match env.decrypt keys.decryptKey (frame.take nonceBytes) (frame.drop nonceBytes) with
    | none => .error (.invalidParams "AEAD decrypt failed: aead::Error")
    | some plaintext => .ok plaintext

/-- The keys of the other side. -/
def mirror (keys : SessionKeys) : SessionKeys := ⟨keys.decryptKey, keys.encryptKey⟩

/-- Both sides derive each other's keys. -/
theorem derive_client (env : NegotiateEnv) (handshakeKey clientNonce serverNonce : List UInt8) :
    derive env handshakeKey clientNonce serverNonce true =
      (derive env handshakeKey clientNonce serverNonce false).map mirror := by
  simp only [derive]
  cases env.hkdf (clientNonce ++ serverNonce) handshakeKey "btsp-session-v1-c2s" with
  | error message => rfl
  | ok clientToServer =>
      cases env.hkdf (clientNonce ++ serverNonce) handshakeKey "btsp-session-v1-s2c" <;> rfl

end SessionKeys

/-! ## The handler -/

/-- The session registry. -/
abbrev Sessions := String → Option (Option (List UInt8))

/-- The keys of one negotiation: derived from the handshake key that its session had in the
registry, the nonce of its request and the random bytes of its response. -/
structure Exchange (env : NegotiateEnv) where
  sessions : Sessions
  req : NegotiateRequest
  serverNonce : List UInt8
  handshakeKey : List UInt8
  clientNonce : List UInt8
  keys : SessionKeys
  registered : sessions req.sessionId = some (some handshakeKey)
  decoded : env.base64Decode req.clientNonce = .ok clientNonce
  derived : SessionKeys.derive env handshakeKey clientNonce serverNonce false = .ok keys

/-- The client derives the same keys the other way round. -/
theorem Exchange.client {env : NegotiateEnv} (exchange : Exchange env) :
    SessionKeys.derive env exchange.handshakeKey exchange.clientNonce exchange.serverNonce true =
      .ok exchange.keys.mirror := by
  rw [SessionKeys.derive_client, exchange.derived]
  rfl

/-- A successful negotiation, with the keys that it stores. -/
structure Negotiated (env : NegotiateEnv) where
  sessionId : String
  serverNonce : String
  exchange : Option (Exchange env)

/-- The response of a negotiation. -/
def Negotiated.response {env : NegotiateEnv} (negotiated : Negotiated env) : NegotiateResponse where
  cipher := if negotiated.exchange.isSome then "chacha20-poly1305" else "null"
  serverNonce := negotiated.serverNonce

namespace NegotiateEnv

/-- `lookup_session`. -/
def lookupSession (env : NegotiateEnv) (sessions : Sessions) (sessionId : String) :
    Except NegotiateError (Option (List UInt8)) :=
  match sessions sessionId with
  | some handshakeKey => .ok handshakeKey
  | none =>
      match env.mode with
      | .production _ =>
          .error (.invalidSession
            ("session_id '" ++ sessionId ++ "' not found in active sessions"))
      | .development => .ok none

theorem lookupSession_some {env : NegotiateEnv} {sessions : Sessions} {sessionId : String}
    {key : List UInt8} (found : env.lookupSession sessions sessionId = .ok (some key)) :
    sessions sessionId = some (some key) := by
  rw [lookupSession] at found
  cases entry : sessions sessionId with
  | some handshakeKey =>
      rw [entry] at found
      cases found
      rfl
  | none =>
      rw [entry] at found
      cases mode : env.mode with
      | production familyId =>
          rw [mode] at found
          cases found
      | development =>
          rw [mode] at found
          cases found

/-- The keys of a request whose session has been looked up, if there are any. -/
def deriveExchange (env : NegotiateEnv) (sessions : Sessions) (req : NegotiateRequest)
    (serverNonce : List UInt8) {handshakeKey : Option (List UInt8)} {clientNonce : List UInt8}
    (lookup : env.lookupSession sessions req.sessionId = .ok handshakeKey)
    (decoded : env.base64Decode req.clientNonce = .ok clientNonce) : Option (Exchange env) :=
  match handshakeKey, lookup with
  | none, _ => none
  | some key, lookup =>
      if req.preferredCipher = "chacha20-poly1305" ∨ req.preferredCipher = "" then
        match derived : SessionKeys.derive env key clientNonce serverNonce false with
        | .ok keys =>
            some
              { sessions, req, serverNonce, handshakeKey := key, clientNonce, keys
                registered := lookupSession_some lookup
                decoded
                derived }
        | .error _ => none
      else none

/-- `handle_negotiate` with its 24 random bytes. The keys are stored in a step of their own. -/
def handleNegotiate (env : NegotiateEnv) (sessions : Sessions) (req : NegotiateRequest)
    (serverNonce : List UInt8) : Except NegotiateError (Negotiated env) :=
  if req.sessionId = "" then .error (.invalidSession "session_id must not be empty")
  else
    match lookup : env.lookupSession sessions req.sessionId with
    | .error error => .error error
    | .ok _ =>
        if req.clientNonce = "" then .error (.invalidParams "client_nonce must not be empty")
        else
          match decoded : env.base64Decode req.clientNonce with
          | .error message =>
              .error (.invalidParams ("client_nonce is not valid base64: " ++ message))
          | .ok clientNonce =>
              if clientNonce.length < minClientNonceBytes then
                .error (.invalidParams ("client_nonce too short: " ++ toString clientNonce.length
                  ++ " bytes (need >= " ++ toString minClientNonceBytes ++ ")"))
              else
                .ok
                  { sessionId := req.sessionId
                    serverNonce := b64Encode serverNonce
                    exchange := env.deriveExchange sessions req serverNonce lookup decoded }

/-- A session, a request and random bytes for which the handler derives keys. -/
def DerivesKeys (env : NegotiateEnv) (sessions : Sessions) (req : NegotiateRequest)
    (serverNonce : List UInt8) : Prop :=
  req.sessionId ≠ "" ∧ req.clientNonce ≠ "" ∧
  ∃ handshakeKey clientNonce keys, sessions req.sessionId = some (some handshakeKey) ∧
    minClientNonceBytes ≤ clientNonce.length ∧
    (req.preferredCipher = "chacha20-poly1305" ∨ req.preferredCipher = "") ∧
    env.base64Decode req.clientNonce = .ok clientNonce ∧
    SessionKeys.derive env handshakeKey clientNonce serverNonce false = .ok keys

/-- Keys are derived only for a session with a handshake key and a cipher that the client
accepts. -/
theorem deriveExchange_some {env : NegotiateEnv} {sessions : Sessions} {req : NegotiateRequest}
    {serverNonce : List UInt8} {handshakeKey : Option (List UInt8)} {clientNonce : List UInt8}
    {lookup : env.lookupSession sessions req.sessionId = .ok handshakeKey}
    {decoded : env.base64Decode req.clientNonce = .ok clientNonce} {exchange : Exchange env}
    (found : env.deriveExchange sessions req serverNonce lookup decoded = some exchange) :
    ∃ key keys, sessions req.sessionId = some (some key) ∧
      (req.preferredCipher = "chacha20-poly1305" ∨ req.preferredCipher = "") ∧
      SessionKeys.derive env key clientNonce serverNonce false = .ok keys := by
  cases handshakeKey with
  | none => cases found
  | some key =>
      rw [deriveExchange] at found
      split at found
      next preferred =>
        split at found
        next keys derived => exact ⟨key, keys, lookupSession_some lookup, preferred, derived⟩
        next => cases found
      next => cases found

/-- The keys that the handler derives are those of the session of the request. -/
theorem handleNegotiate_exchange {env : NegotiateEnv} {sessions : Sessions}
    {req : NegotiateRequest} {serverNonce : List UInt8} {negotiated : Negotiated env}
    {exchange : Exchange env}
    (handled : env.handleNegotiate sessions req serverNonce = .ok negotiated)
    (found : negotiated.exchange = some exchange) :
    negotiated.sessionId = req.sessionId ∧ env.DerivesKeys sessions req serverNonce := by
  rw [handleNegotiate] at handled
  split at handled
  next => cases handled
  next some_session =>
    split at handled
    next => cases handled
    next handshakeKey lookup =>
      split at handled
      next => cases handled
      next some_nonce =>
        split at handled
        next => cases handled
        next clientNonce decoded =>
          split at handled
          next => cases handled
          next long =>
            cases handled
            rcases deriveExchange_some found with ⟨key, keys, registered, preferred, derived⟩
            exact ⟨rfl, some_session, some_nonce, key, clientNonce, keys, registered, by omega,
              preferred, decoded, derived⟩

end NegotiateEnv

end CoralReef
