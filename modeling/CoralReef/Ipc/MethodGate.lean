import CoralReef.Ipc.CipherSwitch

/-!
# The method gate

`ipc/method_gate.rs`: how methods are classified and what a check answers; and the requests of all
connections on their way through `dispatch_jsonrpc` to the handlers.
-/

namespace CoralReef

/-- `MethodAccessLevel`. -/
inductive MethodAccessLevel where
  | Public
  | Protected
  deriving DecidableEq, Repr

/-- `PUBLIC_METHOD_PREFIXES`. -/
def publicMethodPrefixes : List String := ["health."]

/-- `PUBLIC_METHODS`. -/
def publicMethods : List String :=
  ["health", "identity.get", "capabilities.list", "capability.list", "lifecycle.status",
    "auth.check", "auth.mode", "auth.peer_info"]

/-- `classify_method`. -/
def classifyMethod (method : String) : MethodAccessLevel :=
  if method ∈ publicMethods then .Public
  else if publicMethodPrefixes.any fun start => start.toList.isPrefixOf method.toList then .Public
  else .Protected

/-- `PeerCredentials`. -/
structure PeerCredentials where
  pid : Option Nat
  uid : Nat
  deriving DecidableEq, Repr

/-- `ConnectionOrigin`. -/
inductive ConnectionOrigin where
  | Unix
  | Loopback
  | Remote
  deriving DecidableEq, Repr

/-- `CallerContext`. -/
structure CallerContext where
  bearerToken : Option String
  peer : Option PeerCredentials
  origin : ConnectionOrigin
  deriving DecidableEq, Repr

/-- `CallerContext::from_params`. -/
def CallerContext.fromParams (params : Json) : CallerContext where
  bearerToken := params.getStr "_bearer_token"
  peer := none
  origin := .Loopback

/-- `EnforcementMode`. -/
inductive EnforcementMode where
  | Permissive
  | Enforced
  deriving DecidableEq, Repr

/-- `GateDenied`. -/
structure GateDenied where
  code : Int
  message : String
  deriving DecidableEq, Repr

/-- `PERMISSION_DENIED`. -/
def permissionDenied : Int := -32001

/-- `MethodGate`. -/
structure MethodGate where
  mode : EnforcementMode
  deriving DecidableEq, Repr

/-- `MethodGate::check`. -/
def MethodGate.check (gate : MethodGate) (method : String) (caller : CallerContext) :
    Except GateDenied Unit :=
  if classifyMethod method = .Public then .ok ()
  else if caller.bearerToken.isSome then .ok ()
  else
    match gate.mode with
    | .Permissive => .ok ()
    | .Enforced =>
        .error
          { code := permissionDenied
            message := "permission denied: method '" ++ method ++ "' requires a capability token" }

/-! ## Requests and handlers -/

/-- A method and its parameters. -/
structure Call where
  method : String
  params : Json

/-- The gate's check for a call. -/
def MethodGate.checkCall (gate : MethodGate) (call : Call) : Except GateDenied Unit :=
  gate.check call.method (.fromParams call.params)

/-- The methods with an arm in `dispatch_jsonrpc`. -/
def servedMethods : List String :=
  ["shader.compile.status", "shader.compile.capabilities", "shader.compile.wgsl",
    "shader.compile.spirv", "shader.compile.wgsl.multi", "health", "health.check",
    "health.liveness", "health.readiness", "identity.get", "capability.list", "capabilities.list",
    "shader.compile.multi", "shader.compile.gemm", "shader.compile.wgsl_to_spirv",
    "health.version", "btsp.negotiate", "auth.check", "auth.mode", "auth.peer_info"]

namespace NegotiateEnv

/-- The call of a line, for the loop that reads it. -/
def lineCall (env : NegotiateEnv) (loop : ConnLoop) (request : Text) : Option Call :=
  match loop with
  | .newline =>
      match env.serde.requestFromStr request with
      | .ok req => if req.jsonrpc = "2.0" then some ⟨req.method, req.params⟩ else none
      | .error _ => none
  | .handle _ =>
      match env.serde.fromStr request with
      | .ok value => some ⟨methodOf value, paramsOf value⟩
      | .error _ => none

/-- The call of an encrypted frame. -/
def frameCall (env : NegotiateEnv) (keys : SessionKeys) (frame : List UInt8) : Option Call :=
  if frame.length = 0 ∨ 16 * 1024 * 1024 < frame.length then none
  else
    match keys.decrypt env frame with
    | .error _ => none
    | .ok plaintext =>
        match utf8Decode plaintext with
        | none => none
        | some request =>
            match env.serde.fromStr request with
            | .error _ => none
            | .ok value => some ⟨methodOf value, paramsOf value⟩

end NegotiateEnv

/-- The handlers: what a call makes of their state, and its result. -/
abbrev Handlers (σ : Type) := Call → σ → σ × Except IpcServiceError Json

/-- The connections and registries, the state of the handlers, and the calls that have reached
the arm of one. -/
structure Service (env : NegotiateEnv) (σ : Type) where
  system : System env
  handlers : σ
  calls : List Call

namespace Service

variable {env : NegotiateEnv} {σ : Type}

def start (env : NegotiateEnv) (handlers : σ) : Service env σ where
  system := System.start env
  handlers
  calls := []

/-- The call that an event brings to `dispatch_jsonrpc`, or to the negotiation in front of it. -/
def received (loops : Nat → ConnLoop) (s : Service env σ) : System.Action → Option Call
  | .line c line _ _ =>
      match (s.system.conns c).loop, (s.system.conns c).channel with
      | .reading, .plaintext =>
          if trim line = [] then none else env.lineCall (loops c) (trim line)
      | _, _ => none
  | .frame c frame _ _ =>
      match (s.system.conns c).loop, (s.system.conns c).channel with
      | .reading, .encrypted keys => env.frameCall keys frame
      | _, _ => none
  | _ => none

/-- The event with the result of its handler. -/
def answered (result : Except IpcServiceError Json) : System.Action → System.Action
  | .line c line nonce _ => .line c line nonce result
  | .frame c frame nonce _ => .frame c frame nonce result
  | action => action

/-- What a call does to the state of the handlers, and its result. A negotiation only uses the
registries. -/
def dispatch (handle : Handlers σ) (call : Call) (handlers : σ) :
    σ × Except IpcServiceError Json :=
  if call.method ∈ servedMethods then
    if call.method = "btsp.negotiate" then (handlers, .ok .null) else handle call handlers
  else (handlers, .error (.dispatch ("method not found: " ++ call.method)))

/-- The service after an event. -/
def step (loops : Nat → ConnLoop) (handle : Handlers σ) (s : Service env σ)
    (action : System.Action) :
    Service env σ :=
  match s.received loops action with
  | none => { s with system := s.system.step loops action }
  | some call =>
      let (handlers, result) := dispatch handle call s.handlers
      { system := s.system.step loops (answered result action)
        handlers
        calls := if call.method ∈ servedMethods then s.calls ++ [call] else s.calls }

/-- The service after a run. -/
def run (env : NegotiateEnv) (loops : Nat → ConnLoop) (handle : Handlers σ) (handlers : σ)
    (actions : List System.Action) : Service env σ :=
  actions.foldl (step loops handle) (start env handlers)

end Service

end CoralReef
