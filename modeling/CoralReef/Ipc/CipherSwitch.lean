import CoralReef.Ipc.BtspNegotiate
import CoralReef.Ipc.UnixJsonrpc

/-!
# The switch to encrypted frames

The connection loops of `ipc/unix_jsonrpc.rs` and `ipc/newline_jsonrpc.rs` around
`btsp.negotiate`: any number of connections that take turns, with the session registry and the
registry of negotiated keys between them. A registry is locked for one access at a time, so each
access is a step.
-/

namespace CoralReef

/-- How the bytes of a connection are read and written. -/
inductive Channel where
  | plaintext
  | encrypted (keys : SessionKeys)
  deriving DecidableEq, Repr

/-- The loop that a connection starts in. -/
inductive ConnLoop where
  /-- `process_newline_reader_writer`. -/
  | newline
  /-- `handle_connection`, with the session of the connection. -/
  | handle (sessionId : Option String)
  deriving DecidableEq, Repr

/-- What the loop does with a request. -/
structure Reply (env : NegotiateEnv) where
  response : Json
  /-- The negotiation that the response reports. -/
  negotiated : Option (Negotiated env)
  /-- The session whose keys the loop takes once the response is out. -/
  take : Option String

/-- The keys that a reply stores, with their session. -/
def Reply.exchange {env : NegotiateEnv} (reply : Reply env) : Option (String × Exchange env) :=
  reply.negotiated.bind fun negotiated =>
    negotiated.exchange.map fun exchange => (negotiated.sessionId, exchange)

namespace NegotiateEnv

/-- `extract_params` for the parameters of `btsp.negotiate`. -/
def extractParams (env : NegotiateEnv) (params : Json) :
    Except IpcServiceError NegotiateRequest :=
  let fromValue := fun value =>
    match NegotiateRequest.fromValue value with
    | some req => .ok req
    | none => .error (.dispatch ("invalid params: " ++ env.requestError value))
  match params with
  | .arr [] => .error (.dispatch "missing request parameter")
  | .arr (first :: _) => fromValue first
  | .obj members => fromValue (.obj members)
  | _ => .error (.dispatch "params must be array or object")

/-- `handler_result` of a negotiation. -/
def handlerResult {env : NegotiateEnv} (result : Except NegotiateError (Negotiated env)) :
    Except IpcServiceError Json × Option (Negotiated env) :=
  match result with
  | .ok negotiated => (.ok negotiated.response.toJson, some negotiated)
  | .error error => (.error (.handler error.display), none)

/-- `dispatch_jsonrpc`, where `other` is the result of any other handler. -/
def dispatchJsonrpc (env : NegotiateEnv) (sessions : Sessions) (nonce : List UInt8)
    (other : Except IpcServiceError Json) (method : String) (params : Json) :
    Except IpcServiceError Json × Option (Negotiated env) :=
  if method = "btsp.negotiate" then
    match env.extractParams params with
    | .error error => (.error error, none)
    | .ok req => handlerResult (env.handleNegotiate sessions req nonce)
  else (other, none)

/-- The reply to a dispatched request. -/
def dispatchReply (env : NegotiateEnv) (sessions : Sessions) (nonce : List UInt8)
    (other : Except IpcServiceError Json) (method : String) (params id : Json) : Reply env :=
  let (result, negotiated) := env.dispatchJsonrpc sessions nonce other method params
  { response := makeResponse id result, negotiated, take := none }

/-- `req_val`'s method. -/
def methodOf (value : Json) : String := (value.getStr "method").getD ""

/-- `req_val`'s parameters. -/
def paramsOf (value : Json) : Json := (value.get "params").getD .null

/-- `req_val`'s id. -/
def idOf (value : Json) : Json := (value.get "id").getD .null

/-- The body of `process_newline_reader_writer`'s loop. -/
def newlineReply (env : NegotiateEnv) (sessions : Sessions) (nonce : List UInt8)
    (other : Except IpcServiceError Json) (request : Text) : Reply env :=
  match env.serde.requestFromStr request with
  | .ok req =>
      if req.jsonrpc = "2.0" then
        env.dispatchReply sessions nonce other req.method req.params req.id
      else
        { response := makeResponse req.id
            (.error (.dispatch ("invalid jsonrpc version: " ++ req.jsonrpc)))
          negotiated := none
          take := none }
  | .error message =>
      { response := makeResponse .null (.error (.transport ("parse error: " ++ message)))
        negotiated := none
        take := none }

/-- The negotiation that `handle_connection` handles itself. -/
def directRequest (value : Json) : Option NegotiateRequest :=
  if methodOf value = "btsp.negotiate" then NegotiateRequest.fromValue (paramsOf value) else none

/-- The body of `handle_connection`'s loop. -/
def connectionReply (env : NegotiateEnv) (sessionId : Option String) (sessions : Sessions)
    (nonce : List UInt8) (other : Except IpcServiceError Json) (request : Text) : Reply env :=
  match env.serde.fromStr request with
  | .error _ =>
      { response := makeResponse .null (.error (.transport "parse error"))
        negotiated := none
        take := none }
  | .ok value =>
      match directRequest value with
      | some req =>
          let (result, negotiated) := handlerResult (env.handleNegotiate sessions req nonce)
          { response := makeResponse (idOf value) result
            negotiated
            take := (negotiated.bind (·.exchange)).map fun _ => sessionId.getD req.sessionId }
      | none =>
          env.dispatchReply sessions nonce other (methodOf value) (paramsOf value) (idOf value)

/-- The body of a loop that reads lines. -/
def lineReply (env : NegotiateEnv) (loop : ConnLoop) (sessions : Sessions) (nonce : List UInt8)
    (other : Except IpcServiceError Json) (request : Text) : Reply env :=
  match loop with
  | .newline => env.newlineReply sessions nonce other request
  | .handle sessionId => env.connectionReply sessionId sessions nonce other request

/-- The body of `process_encrypted_frames`'s loop, which stops where there is no reply. -/
def frameReply (env : NegotiateEnv) (keys : SessionKeys) (sessions : Sessions)
    (nonce : List UInt8) (other : Except IpcServiceError Json) (frame : List UInt8) :
    Option (Reply env) :=
  if frame.length = 0 ∨ 16 * 1024 * 1024 < frame.length then none
  else
    match keys.decrypt env frame with
    | .error _ => none
    | .ok plaintext =>
        match utf8Decode plaintext with
        | none => none
        | some request =>
            match env.serde.fromStr request with
            | .error _ => none
            | .ok value =>
                some (env.dispatchReply sessions nonce other (methodOf value) (paramsOf value)
                  (idOf value))

end NegotiateEnv

/-! ## Connections -/

/-- What an answer to `btsp.negotiate` says. -/
inductive Answer (env : NegotiateEnv) where
  | null
  | chacha (exchange : Exchange env)

/-- Bytes that the server reads or writes. -/
inductive IoEvent (env : NegotiateEnv) where
  | read (channel : Channel) (bytes : List UInt8)
  | wrote (channel : Channel) (bytes : List UInt8) (answer : Option (Answer env))

/-- What the loop of a connection does next. -/
inductive LoopState (env : NegotiateEnv) where
  | reading
  /-- The handler has derived keys and not stored them yet. -/
  | storing (reply : Reply env)
  | writing (reply : Reply env)
  /-- The response is out and the keys are about to be taken. -/
  | taking (sessionId : String)
  | closed

/-- A connection. -/
structure Conn (env : NegotiateEnv) where
  channel : Channel
  loop : LoopState env
  io : List (IoEvent env)

/-- A connection on which nothing has happened. -/
def Conn.accepted (env : NegotiateEnv) : Conn env := ⟨.plaintext, .reading, []⟩

/-- Where a loop goes with a reply. -/
def Reply.next {env : NegotiateEnv} (reply : Reply env) : LoopState env :=
  match reply.exchange with
  | some _ => .storing reply
  | none => .writing reply

/-- What the response of a reply says about the cipher. -/
def Reply.answer {env : NegotiateEnv} (reply : Reply env) : Option (Answer env) :=
  reply.negotiated.map fun negotiated =>
    match negotiated.exchange with
    | some exchange => .chacha exchange
    | none => .null

/-- Keys in the registry, with the connection that stored them. -/
structure Stored where
  keys : SessionKeys
  conn : Nat

/-- The registries and the connections. -/
structure System (env : NegotiateEnv) where
  sessions : Sessions
  negotiated : String → Option Stored
  conns : Nat → Conn env

namespace System

variable {env : NegotiateEnv}

/-- Empty registries and new connections. -/
def start (env : NegotiateEnv) : System env where
  sessions := fun _ => none
  negotiated := fun _ => none
  conns := fun _ => .accepted env

/-- One connection changed. -/
def setConn (s : System env) (c : Nat) (conn : Conn env) : System env :=
  { s with conns := Function.update s.conns c conn }

/-- The next event of the system. -/
inductive Action where
  /-- `register_session`. -/
  | register (sessionId : String) (handshakeKey : Option (List UInt8))
  /-- A connection reads a line, with the random bytes and the result of any other handler. -/
  | line (c : Nat) (line : Text) (nonce : List UInt8) (other : Except IpcServiceError Json)
  /-- A connection reads an encrypted frame. -/
  | frame (c : Nat) (frame : List UInt8) (nonce : List UInt8)
      (other : Except IpcServiceError Json)
  /-- The handler stores its keys. -/
  | store (c : Nat)
  /-- The response is written, or not, with the nonce of its frame. -/
  | write (c : Nat) (nonce : Except String (List UInt8)) (written : Bool)
  /-- `take_negotiated_keys`. -/
  | take (c : Nat)
  /-- The client's stream ends. -/
  | stop (c : Nat)

/-- The length of a frame in four bytes. -/
def lengthBytes (length : Nat) : List UInt8 :=
  [UInt8.ofNat (length / 16777216), UInt8.ofNat (length / 65536), UInt8.ofNat (length / 256),
    UInt8.ofNat length]

/-- The bytes of a response on a channel, unless it cannot be encrypted. -/
def responseBytes (env : NegotiateEnv) (channel : Channel) (nonce : Except String (List UInt8))
    (response : Json) : Option (List UInt8) :=
  match channel with
  | .plaintext => some (utf8Encode response.compact ++ [newline])
  | .encrypted keys =>
      match keys.encrypt env nonce (utf8Encode response.compact) with
      | .ok encrypted => some (lengthBytes encrypted.length ++ encrypted)
      | .error _ => none

/-- A line on a plaintext channel. -/
def readLine (s : System env) (loop : ConnLoop) (conn : Conn env) (line : Text)
    (nonce : List UInt8) (other : Except IpcServiceError Json) : Conn env :=
  let io := conn.io ++ [.read .plaintext (utf8Encode line)]
  let request := trim line
  if request = [] then { conn with io }
  else { conn with io, loop := (env.lineReply loop s.sessions nonce other request).next }

/-- A frame on an encrypted channel. -/
def readFrame (s : System env) (keys : SessionKeys) (conn : Conn env) (frame nonce : List UInt8)
    (other : Except IpcServiceError Json) : Conn env :=
  let io := conn.io ++ [.read (.encrypted keys) (lengthBytes frame.length ++ frame)]
  match env.frameReply keys s.sessions nonce other frame with
  | some reply => { conn with io, loop := reply.next }
  | none => { conn with io, loop := .closed }

/-- A response that is out, or not. -/
def writeResponse (conn : Conn env) (reply : Reply env) (nonce : Except String (List UInt8))
    (written : Bool) : Conn env :=
  match responseBytes env conn.channel nonce reply.response with
  | some bytes =>
      if written then
        { conn with
          io := conn.io ++ [.wrote conn.channel bytes reply.answer]
          loop := match reply.take with
            | some sessionId => .taking sessionId
            | none => .reading }
      else { conn with loop := .closed }
  | none => { conn with loop := .closed }

/-- The system after an event. An event that cannot happen changes nothing. -/
def step (loops : Nat → ConnLoop) (s : System env) : Action → System env
  | .register sessionId handshakeKey =>
      { s with sessions := Function.update s.sessions sessionId (some handshakeKey) }
  | .line c line nonce other =>
      match (s.conns c).loop, (s.conns c).channel with
      | .reading, .plaintext =>
          s.setConn c (s.readLine (loops c) (s.conns c) line nonce other)
      | _, _ => s
  | .frame c frame nonce other =>
      match (s.conns c).loop, (s.conns c).channel with
      | .reading, .encrypted keys =>
          s.setConn c (s.readFrame keys (s.conns c) frame nonce other)
      | _, _ => s
  | .store c =>
      match (s.conns c).loop with
      | .storing reply =>
          match reply.exchange with
          | some (sessionId, exchange) =>
              { s.setConn c { s.conns c with loop := .writing reply } with
                negotiated := Function.update s.negotiated sessionId (some ⟨exchange.keys, c⟩) }
          | none => s
      | _ => s
  | .write c nonce written =>
      match (s.conns c).loop with
      | .writing reply => s.setConn c (writeResponse (s.conns c) reply nonce written)
      | _ => s
  | .take c =>
      match (s.conns c).loop with
      | .taking sessionId =>
          match s.negotiated sessionId with
          | some stored =>
              { s.setConn c
                  { s.conns c with channel := .encrypted stored.keys, loop := .reading } with
                negotiated := Function.update s.negotiated sessionId none }
          | none => s.setConn c { s.conns c with loop := .reading }
      | _ => s
  | .stop c =>
      match (s.conns c).loop with
      | .reading => s.setConn c { s.conns c with loop := .closed }
      | _ => s

/-- The system after a run. -/
def run (env : NegotiateEnv) (loops : Nat → ConnLoop) (actions : List Action) : System env :=
  actions.foldl (step loops) (start env)

end System

end CoralReef
