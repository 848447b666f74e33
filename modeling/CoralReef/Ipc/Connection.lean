import CoralReef.Misc.Json
import CoralReef.Misc.ReadLine

/-!
# Connections

What happens on one accepted connection, as the list of its events in order, and the parts of
the system outside the IPC code that decide it: `serde_json`, `base64`, the security provider,
the handlers of the methods, the `tarpc` server and the client's end of the socket.

Nothing else connects one connection with another: a handler's result may depend on every
request of every connection, so the results are an arbitrary sequence.
-/

namespace CoralReef

/-- The text of a line or of a message. -/
abbrev Text := List Char

/-- `IpcPhase`. -/
inductive IpcPhase where
  | Transport
  | Dispatch
  | Handler
  | GateDenied
  | Internal
  deriving DecidableEq, Repr

/-- `IpcPhase::jsonrpc_code`, without its minus sign. -/
def IpcPhase.jsonrpcCode : IpcPhase → Nat
  | .Transport | .Handler => 32000
  | .GateDenied => 32001
  | .Dispatch => 32601
  | .Internal => 32603

/-- The `Debug` form of a phase. -/
def IpcPhase.name : IpcPhase → String
  | .Transport => "Transport"
  | .Dispatch => "Dispatch"
  | .Handler => "Handler"
  | .GateDenied => "GateDenied"
  | .Internal => "Internal"

/-- `IpcServiceError`. -/
structure IpcServiceError where
  phase : IpcPhase
  message : String
  code : Option String
  deriving DecidableEq, Repr

namespace IpcServiceError

def transport (message : String) : IpcServiceError := ⟨.Transport, message, none⟩

def dispatch (message : String) : IpcServiceError := ⟨.Dispatch, message, none⟩

def handler (message : String) : IpcServiceError := ⟨.Handler, message, none⟩

def internal (message : String) : IpcServiceError := ⟨.Internal, message, none⟩

/-- The `Display` form of an error. -/
def display (error : IpcServiceError) : String :=
  "[" ++ error.phase.name ++ "] " ++ error.message ++
    match error.code with
    | some code => " (" ++ code ++ ")"
    | none => ""

end IpcServiceError

/-- `JsonRpcRequest`. -/
structure JsonRpcRequest where
  jsonrpc : String
  method : String
  params : Json
  id : Json
  deriving Repr

/-- `BtspSessionError`. -/
inductive BtspSessionError where
  | io (message : String)
  | json (message : String)
  | protocol (message : String)
  deriving DecidableEq, Repr

/-- `BtspMode`. -/
inductive BtspMode where
  | development
  | production (familyId : String)
  deriving DecidableEq, Repr

/-- The parsers of `serde_json` that the server uses. -/
structure SerdeJson where
  /-- `from_str::<Value>`. -/
  fromStr : Text → Except String Json
  /-- `from_str::<JsonRpcRequest>`. -/
  requestFromStr : Text → Except String JsonRpcRequest

/-- The provider of the `crypto` domain, as `discover_security_socket` finds it. -/
structure SecurityProvider where
  /-- The `display_uri` of its endpoint. -/
  endpoint : String
  /-- One connection to it: a request for a method is written and a line is read. -/
  exchange : String → Json → Except String (Option Text)

/-- Everything a connection depends on except the bytes its client sends. -/
structure ServerEnv where
  mode : BtspMode
  /-- `FAMILY_SEED` or else `BTSP_FAMILY_SEED` or else nothing. -/
  familySeed : String
  /-- `resolve_socket_dir`. -/
  socketDir : String
  provider : Option SecurityProvider
  serde : SerdeJson
  /-- `base64`'s standard decoder. -/
  base64Decode : String → Option (List UInt8)
  /-- What `dispatch_maybe_blocking` returns for a method when the connection has written
  that many messages. -/
  dispatch : Nat → String → Json → Except IpcServiceError Json
  /-- Whether the client still takes a message after that many. -/
  takes : Nat → Bool
  /-- `feature = "tarpc-transport"`. -/
  tarpcAvailable : Bool
  /-- The methods that the `tarpc` server calls for the bytes of a stream. -/
  tarpcMethods : List UInt8 → List String

/-- What happens on a connection. -/
inductive ConnEvent where
  /-- A method of the security provider was called with these parameters. -/
  | called (method : String) (params : Json) (answer : Except BtspSessionError Json)
  /-- `register_session`. -/
  | registered (sessionId : String) (handshakeKey : Option (List UInt8))
  /-- A message of the handshake was written. -/
  | sent (message : Json)
  /-- The line of the protocol negotiation was written. -/
  | negotiated (line : Text)
  /-- The handshake failed and the connection was closed. -/
  | refused (error : BtspSessionError)
  /-- A method was dispatched. -/
  | dispatched (method : String)
  /-- A line of the stream was processed as a request, and this line answered it. -/
  | answered (request : Text) (response : Text)
  /-- The stream was handed to the `tarpc` server with these bytes still to come. -/
  | tarpc (bytes : List UInt8)

end CoralReef
