import CoralReef.Ipc.MethodGate

/-!
# Three loops, one request

What the loops of a connection answer to the same request: as a line of
`process_newline_reader_writer`, as a line of `handle_connection`, and in a frame of
`process_encrypted_frames`. Answers are compared up to the texts of errors.

A handler may panic. The first loop runs the handlers of compile methods on the blocking pool and
reports a panic as an error; else a panic ends the task of the connection, without a response.
-/

namespace CoralReef

/-- What a response says: its id, its result, and the code of its error. -/
structure Outcome where
  id : Option Json
  result : Option Json
  code : Option Json

/-- The outcome that a response reports. -/
def Json.outcome (response : Json) : Outcome where
  id := response.get "id"
  result := response.get "result"
  code := (response.get "error").bind (·.get "code")

/-- The code of a phase, as responses show it. -/
def IpcPhase.code (phase : IpcPhase) : Json := .minus phase.jsonrpcCode

theorem outcome_error (id : Json) (error : IpcServiceError) :
    (makeResponse id (.error error)).outcome = ⟨some id, none, some error.phase.code⟩ := rfl

/-- A request as JSON-RPC asks for it: an object of version 2.0 with a method. -/
def WellFormed (value : Json) : Prop :=
  (∃ members, value = .obj members) ∧ value.getStr "jsonrpc" = some "2.0" ∧
    ∃ method, value.getStr "method" = some method

/-- What `serde_json` keeps of a request that it reads as a `JsonRpcRequest`: the members of an
object by their keys, or the items of an array in order. -/
structure SerdeJson.Lawful (serde : SerdeJson) : Prop where
  object : ∀ text members req, serde.fromStr text = .ok (.obj members) →
    serde.requestFromStr text = .ok req →
      (Json.obj members).getStr "jsonrpc" = some req.jsonrpc ∧
        (Json.obj members).getStr "method" = some req.method ∧
        ((Json.obj members).get "params").getD .null = req.params ∧
        (Json.obj members).get "id" = some req.id
  array : ∀ text items req, serde.fromStr text = .ok (.arr items) →
    serde.requestFromStr text = .ok req →
      items = [.str req.jsonrpc, .str req.method, req.params, req.id]
  other : ∀ text value req, serde.fromStr text = .ok value → serde.requestFromStr text = .ok req →
    (∃ members, value = .obj members) ∨ ∃ items, value = .arr items

/-- How a handler ends. -/
inductive Handled where
  | returned (result : Except IpcServiceError Json)
  | panicked (message : String)

namespace Handled

/-- The result of `dispatch_jsonrpc` in the task of the connection. -/
def inTask : Handled → Option (Except IpcServiceError Json)
  | .returned result => some result
  | .panicked _ => none

/-- The result of `dispatch_maybe_blocking`. -/
def maybeBlocking (method : String) : Handled → Option (Except IpcServiceError Json)
  | .returned result => some result
  | .panicked message =>
      if "shader.compile.".toList.isPrefixOf method.toList then
        some (.error (.internal ("compile task panicked: " ++ message)))
      else none

end Handled

/-- What a request meets: the sessions, the random bytes, and the handlers of all methods but
`btsp.negotiate`. A call reaches its handler where its method is served and its parameters are
taken; else its result is an error of `dispatch_jsonrpc`. -/
structure Turn where
  sessions : Sessions
  nonce : List UInt8
  handle : Call → Handled
  reaches : Call → Bool
  served : ∀ call, reaches call = true →
    call.method ∈ servedMethods ∧ call.method ≠ "btsp.negotiate"
  unreached : ∀ call, reaches call = false →
    ∃ message, handle call = .returned (.error (.dispatch message))

namespace Turn

variable (env : NegotiateEnv) (turn : Turn)

/-- A call runs a handler. -/
def runs (call : Call) : Bool :=
  if call.method = "btsp.negotiate" then (env.extractParams call.params).isOk
  else turn.reaches call

/-- How the handler for a call ends, if there is one. -/
def other : Option Call → Handled
  | some call => turn.handle call
  | none => .returned (.error (.dispatch ""))

/-- The body of the loop of `process_newline_reader_writer`. Each loop ends where there is no
reply. -/
def newline (request : Text) : Option (Reply env) :=
  let call := env.lineCall .newline request
  ((turn.other call).maybeBlocking ((call.map Call.method).getD "")).map fun result =>
    env.newlineReply turn.sessions turn.nonce result request

/-- The body of the loop of `handle_connection`. -/
def connection (sessionId : Option String) (request : Text) : Option (Reply env) :=
  (turn.other (env.lineCall (.handle sessionId) request)).inTask.map fun result =>
    env.connectionReply sessionId turn.sessions turn.nonce result request

/-- The body of the loop of `process_encrypted_frames`. -/
def frame (keys : SessionKeys) (frame : List UInt8) : Option (Reply env) :=
  (turn.other (env.frameCall keys frame)).inTask.bind fun result =>
    env.frameReply keys turn.sessions turn.nonce result frame

/-- A handler runs for a line of `process_newline_reader_writer`. -/
def newlineRuns (request : Text) : Bool := (env.lineCall .newline request).any (turn.runs env)

/-- A handler runs for a line of `handle_connection`. -/
def connectionRuns (sessionId : Option String) (request : Text) : Bool :=
  (match env.serde.fromStr request with
    | .ok value => (NegotiateEnv.directRequest value).isSome
    | .error _ => false) || (env.lineCall (.handle sessionId) request).any (turn.runs env)

/-- A handler runs for a frame. -/
def frameRuns (keys : SessionKeys) (frame : List UInt8) : Bool :=
  (env.frameCall keys frame).any (turn.runs env)

end Turn

/-- A frame that carries a request. -/
structure Carries (env : NegotiateEnv) (keys : SessionKeys) (frame : List UInt8) (request : Text) :
    Prop where
  length : 0 < frame.length ∧ frame.length ≤ 16 * 1024 * 1024
  plaintext : keys.decrypt env frame = .ok (utf8Encode request)

/-- The outcome of a reply, if there is one. -/
def outcomeOf {env : NegotiateEnv} (reply : Option (Reply env)) : Option Outcome :=
  reply.map (·.response.outcome)

/-- Each loop answers a request with this outcome. It has the id of the request, and to a malformed
request it is an error for which no handler has run. -/
structure AnsweredWith (env : NegotiateEnv) (turn : Turn) (sessionId : Option String)
    (keys : SessionKeys) (frame : List UInt8) (request : Text) (outcome : Outcome) : Prop where
  newline : outcomeOf (turn.newline env request) = some outcome
  connected : outcomeOf (turn.connection env sessionId request) = some outcome
  framed : outcomeOf (turn.frame env keys frame) = some outcome
  id : ∀ value id, env.serde.fromStr request = .ok value → value.get "id" = some id →
    outcome.id = some id
  malformed : ¬ (∃ value, env.serde.fromStr request = .ok value ∧ WellFormed value) →
    outcome.code.isSome = true ∧
      turn.newlineRuns env request = false ∧ turn.connectionRuns env sessionId request = false ∧
      turn.frameRuns env keys frame = false

/-- The loops answer a request alike: each sends one response, with the same outcome. -/
def Alike (env : NegotiateEnv) (turn : Turn) (sessionId : Option String) (keys : SessionKeys)
    (frame : List UInt8) (request : Text) : Prop :=
  ∃ outcome, AnsweredWith env turn sessionId keys frame request outcome

namespace Turn

variable (env : NegotiateEnv) (turn : Turn)

/-- The handler of a call does not panic. -/
def returns (call : Call) : Prop := ∃ result, turn.handle call = .returned result

/-- The reply of `dispatch_jsonrpc` to a call whose handler has this result. -/
def replyWith (call : Call) (id : Json) (result : Except IpcServiceError Json) : Reply env :=
  env.dispatchReply turn.sessions turn.nonce result call.method call.params id

/-- The reply to a call that is dispatched in the task of the connection. -/
def reply (call : Call) (id : Json) : Option (Reply env) :=
  (turn.handle call).inTask.map (turn.replyWith env call id)

/-- The call that the loops over JSON values make of a request. -/
def valueCall (value : Json) : Call :=
  ⟨NegotiateEnv.methodOf value, NegotiateEnv.paramsOf value⟩

/-- The handler of a call fails with the code that `process_newline_reader_writer` gives a text it
cannot read. -/
def failsAsUnread (call : Call) : Prop :=
  ∃ outcome, outcomeOf (turn.reply env call .null) = some outcome ∧
    outcome.code = some IpcPhase.Transport.code

/-- The requests that the loops answer alike. The text is JSON, and
* as a `JsonRpcRequest` it is an object of version 2.0 whose handler does not panic, and no
  negotiation with its parameters in an array;
* or it is an object of another version, whose call runs no handler;
* or it is an array with the id null, of another version or with a call that runs no handler;
* or it is well-formed but no `JsonRpcRequest`, its id is null or missing, and its handler fails. -/
def answersAlike (request : Text) : Prop :=
  ∃ value, env.serde.fromStr request = .ok value ∧
    match env.serde.requestFromStr request, value with
    | .ok req, .obj members =>
      if req.jsonrpc = "2.0" then
        turn.returns ⟨req.method, req.params⟩ ∧
          ((NegotiateEnv.directRequest (.obj members)).isSome = true →
            ∃ params, NegotiateEnv.paramsOf (.obj members) = .obj params)
      else NegotiateEnv.directRequest (.obj members) = none ∧
        turn.runs env ⟨req.method, req.params⟩ = false
    | .ok req, _ => req.id = .null ∧
        (req.jsonrpc = "2.0" → turn.runs env ⟨req.method, req.params⟩ = false)
    | .error _, value => WellFormed value ∧ NegotiateEnv.idOf value = .null ∧
        turn.failsAsUnread env (valueCall value)

/-! ## Calls -/

theorem code_ne : IpcPhase.Dispatch.code ≠ IpcPhase.Transport.code := by
  intro same
  have literal : "-" ++ toString 32601 = "-" ++ toString 32000 := by
    injection same with same
    injection same
  revert literal
  decide

/-- What is answered where no handler runs. -/
def refused (id : Json) : Outcome := ⟨some id, none, some IpcPhase.Dispatch.code⟩

/-- A negotiation reaches no other handler. -/
theorem returns_negotiate {call : Call} (negotiates : call.method = "btsp.negotiate") :
    ∃ message, turn.handle call = .returned (.error (.dispatch message)) := by
  apply turn.unreached
  cases reached : turn.reaches call with
  | false => rfl
  | true => exact absurd negotiates (turn.served call reached).2

variable {env turn}

theorem outcomeOf_eq_some {reply : Option (Reply env)} {outcome : Outcome} :
    outcomeOf reply = some outcome ↔ ∃ r, reply = some r ∧ r.response.outcome = outcome :=
  Option.map_eq_some_iff

theorem reply_returned {call : Call} {result : Except IpcServiceError Json}
    (returned : turn.handle call = .returned result) (id : Json) :
    turn.reply env call id = some (turn.replyWith env call id result) := by
  rw [reply, returned]
  rfl

theorem returns_of_reply {call : Call} {id : Json} {outcome : Outcome}
    (replied : outcomeOf (turn.reply env call id) = some outcome) : turn.returns call := by
  cases handled : turn.handle call with
  | returned result => exact ⟨result, handled⟩
  | panicked message =>
    rw [reply, handled] at replied
    cases replied

/-- A call for which no handler runs is refused. -/
theorem reply_unrun {call : Call} (unrun : turn.runs env call = false) (id : Json) :
    outcomeOf (turn.reply env call id) = some (refused id) := by
  rw [runs] at unrun
  split at unrun
  next negotiates =>
    obtain ⟨message, returned⟩ := returns_negotiate turn negotiates
    rw [reply_returned returned]
    show some (makeResponse id (env.dispatchJsonrpc turn.sessions turn.nonce _ call.method
      call.params).1).outcome = _
    rw [NegotiateEnv.dispatchJsonrpc, if_pos negotiates]
    cases taken : env.extractParams call.params with
    | ok req => rw [taken] at unrun; cases unrun
    | error error =>
      have phase : error.phase = .Dispatch := by
        unfold NegotiateEnv.extractParams at taken
        dsimp only at taken
        repeat' split at taken
        all_goals first | (cases taken; rfl) | cases taken
      show some (makeResponse id (.error error)).outcome = _
      rw [outcome_error, phase]
      rfl
  next served =>
    obtain ⟨message, returned⟩ := turn.unreached call unrun
    rw [reply_returned returned]
    show some (makeResponse id (env.dispatchJsonrpc turn.sessions turn.nonce _ call.method
      call.params).1).outcome = _
    rw [NegotiateEnv.dispatchJsonrpc, if_neg served]
    rfl

/-- The outcome of a reply is that of some result. -/
theorem reply_outcome {call : Call} {id : Json} {outcome : Outcome}
    (replied : outcomeOf (turn.reply env call id) = some outcome) :
    ∃ result, outcome = (makeResponse id result).outcome := by
  obtain ⟨result, returned⟩ := returns_of_reply replied
  rw [reply_returned returned] at replied
  exact ⟨_, (Option.some.inj replied).symm⟩

/-- An outcome with a code has no result. -/
theorem reply_code {call : Call} {id code : Json} {outcome : Outcome}
    (replied : outcomeOf (turn.reply env call id) = some outcome)
    (failed : outcome.code = some code) : outcome = ⟨some id, none, some code⟩ := by
  obtain ⟨result, rfl⟩ := reply_outcome replied
  cases result with
  | ok value => cases failed
  | error error =>
    rw [outcome_error] at failed ⊢
    rw [← Option.some.inj failed]

theorem runs_nil (params : Json) : turn.runs env ⟨"", params⟩ = false := by
  have unnamed : "" ≠ "btsp.negotiate" ∧ "" ∉ servedMethods := by decide
  rw [runs, if_neg unnamed.1]
  cases reached : turn.reaches ⟨"", params⟩ with
  | false => rfl
  | true => exact absurd (turn.served _ reached).1 unnamed.2

/-- The outcome of a reply has the id of its request. -/
theorem reply_id {call : Call} {id : Json} {outcome : Outcome}
    (replied : outcomeOf (turn.reply env call id) = some outcome) : outcome.id = some id := by
  obtain ⟨result, rfl⟩ := reply_outcome replied
  cases result <;> rfl

/-! ## The three bodies -/

section

variable (turn) {request : Text} {value : Json} {req : JsonRpcRequest}
variable {direct : NegotiateRequest}

/-- Where its handler returns, a request is answered as in the task. -/
theorem newline_request (read : env.serde.requestFromStr request = .ok req)
    (version : req.jsonrpc = "2.0") (returns : turn.returns ⟨req.method, req.params⟩) :
    turn.newline env request = turn.reply env ⟨req.method, req.params⟩ req.id := by
  obtain ⟨result, returned⟩ := returns
  unfold newline NegotiateEnv.newlineReply NegotiateEnv.lineCall
  simp only [read, if_pos version, other, returned, reply_returned returned]
  rfl

theorem newlineRuns_request (read : env.serde.requestFromStr request = .ok req)
    (version : req.jsonrpc = "2.0") :
    turn.newlineRuns env request = turn.runs env ⟨req.method, req.params⟩ := by
  unfold newlineRuns NegotiateEnv.lineCall
  simp only [read, if_pos version]
  rfl

theorem newline_version (read : env.serde.requestFromStr request = .ok req)
    (version : req.jsonrpc ≠ "2.0") :
    outcomeOf (turn.newline env request) = some (refused req.id) ∧
      turn.newlineRuns env request = false := by
  unfold newline newlineRuns NegotiateEnv.newlineReply NegotiateEnv.lineCall
  simp only [read, if_neg version]
  exact ⟨rfl, rfl⟩

theorem newline_unread {message : String}
    (unread : env.serde.requestFromStr request = .error message) :
    outcomeOf (turn.newline env request) =
        some ⟨some .null, none, some IpcPhase.Transport.code⟩ ∧
      turn.newlineRuns env request = false := by
  unfold newline newlineRuns NegotiateEnv.newlineReply NegotiateEnv.lineCall
  simp only [unread]
  exact ⟨rfl, rfl⟩

theorem frame_value {keys : SessionKeys} {frame : List UInt8}
    (carries : Carries env keys frame request) (read : env.serde.fromStr request = .ok value) :
    turn.frame env keys frame = turn.reply env (valueCall value) (NegotiateEnv.idOf value) ∧
      turn.frameRuns env keys frame = turn.runs env (valueCall value) := by
  have within : ¬ (frame.length = 0 ∨ 16 * 1024 * 1024 < frame.length) := by
    have := carries.length
    omega
  unfold Turn.frame frameRuns NegotiateEnv.frameReply NegotiateEnv.frameCall
  simp only [if_neg within, carries.plaintext, utf8Decode_encode, read]
  exact ⟨Option.map_eq_bind.symm, rfl⟩

theorem frame_unread {keys : SessionKeys} {frame : List UInt8} {message : String}
    (carries : Carries env keys frame request)
    (unread : env.serde.fromStr request = .error message) :
    turn.frame env keys frame = none := by
  have within : ¬ (frame.length = 0 ∨ 16 * 1024 * 1024 < frame.length) := by
    have := carries.length
    omega
  unfold Turn.frame NegotiateEnv.frameReply
  simp only [if_neg within, carries.plaintext, utf8Decode_encode, unread]
  exact Option.bind_fun_none _

variable (sessionId : Option String)

theorem connection_value (read : env.serde.fromStr request = .ok value)
    (plain : NegotiateEnv.directRequest value = none) :
    turn.connection env sessionId request =
        turn.reply env (valueCall value) (NegotiateEnv.idOf value) ∧
      turn.connectionRuns env sessionId request = turn.runs env (valueCall value) := by
  unfold connection connectionRuns NegotiateEnv.connectionReply NegotiateEnv.lineCall
  simp only [read, plain]
  exact ⟨rfl, rfl⟩

/-- A negotiation that `handle_connection` handles itself has its parameters in an object or in an
array. -/
theorem direct_params (asked : NegotiateEnv.directRequest value = some direct) :
    NegotiateEnv.methodOf value = "btsp.negotiate" ∧
      NegotiateRequest.fromValue (NegotiateEnv.paramsOf value) = some direct := by
  unfold NegotiateEnv.directRequest at asked
  split at asked
  next negotiates => exact ⟨negotiates, asked⟩
  next => cases asked

theorem connection_direct (read : env.serde.fromStr request = .ok value)
    (asked : NegotiateEnv.directRequest value = some direct) :
    outcomeOf (turn.connection env sessionId request) = some (makeResponse (NegotiateEnv.idOf value)
        (NegotiateEnv.handlerResult
          (env.handleNegotiate turn.sessions direct turn.nonce)).1).outcome ∧
      turn.connectionRuns env sessionId request = true := by
  obtain ⟨message, returned⟩ :=
    returns_negotiate turn (show (valueCall value).method = _ from (direct_params asked).1)
  unfold valueCall at returned
  unfold connection connectionRuns NegotiateEnv.connectionReply NegotiateEnv.lineCall
  constructor
  · simp only [read, asked, other, returned]
    rfl
  · simp only [read, asked]
    rfl

/-- With its parameters in an object it is answered as `dispatch_jsonrpc` answers it. -/
theorem connection_object {params : List (String × Json)}
    (read : env.serde.fromStr request = .ok value)
    (asked : NegotiateEnv.directRequest value = some direct)
    (object : NegotiateEnv.paramsOf value = .obj params) :
    outcomeOf (turn.connection env sessionId request) =
        outcomeOf (turn.reply env (valueCall value) (NegotiateEnv.idOf value)) := by
  obtain ⟨negotiates, taken⟩ := direct_params asked
  obtain ⟨message, returned⟩ :=
    returns_negotiate turn (show (valueCall value).method = _ from negotiates)
  have extracted : env.extractParams (NegotiateEnv.paramsOf value) = .ok direct := by
    rw [object] at taken ⊢
    unfold NegotiateEnv.extractParams
    simp only [taken]
  rw [(connection_direct turn sessionId read asked).1, reply_returned returned]
  show _ = some (makeResponse _ (env.dispatchJsonrpc turn.sessions turn.nonce _
    (NegotiateEnv.methodOf value) (NegotiateEnv.paramsOf value)).1).outcome
  rw [NegotiateEnv.dispatchJsonrpc, if_pos negotiates, extracted]

/-- With its parameters in an array `dispatch_jsonrpc` refuses it. -/
theorem unrun_array (asked : NegotiateEnv.directRequest value = some direct)
    (array : ¬ ∃ params, NegotiateEnv.paramsOf value = .obj params) :
    turn.runs env (valueCall value) = false := by
  obtain ⟨negotiates, taken⟩ := direct_params asked
  have items : ∃ first rest, NegotiateEnv.paramsOf value = .arr (.str first :: rest) := by
    unfold NegotiateRequest.fromValue at taken
    split at taken
    next members isParams => exact absurd ⟨members, isParams⟩ array
    next isParams => exact ⟨_, _, isParams⟩
    next => cases taken
  obtain ⟨first, rest, isParams⟩ := items
  rw [runs, if_pos (show (valueCall value).method = _ from negotiates)]
  show (env.extractParams (NegotiateEnv.paramsOf value)).isOk = false
  rw [isParams]
  rfl

/-- What a negotiation answers is no refusal. -/
theorem handlerResult_code {result : Except NegotiateError (Negotiated env)} (id id' : Json) :
    (makeResponse id (NegotiateEnv.handlerResult result).1).outcome ≠ refused id' := by
  cases result with
  | ok negotiated =>
    intro same
    cases congrArg Outcome.code same
  | error error =>
    intro same
    have code : IpcPhase.Handler.code = IpcPhase.Dispatch.code :=
      Option.some.inj (congrArg Outcome.code same)
    exact code_ne code.symm

end

end Turn

/-! ## Agreement -/

theorem WellFormed.of_object {members : List (String × Json)} {req : JsonRpcRequest}
    (version : (Json.obj members).getStr "jsonrpc" = some req.jsonrpc)
    (method : (Json.obj members).getStr "method" = some req.method) :
    WellFormed (.obj members) ↔ req.jsonrpc = "2.0" := by
  constructor
  · intro formed
    have same := version.symm.trans formed.2.1
    exact Option.some.inj same
  · intro isVersion
    exact ⟨⟨members, rfl⟩, by rw [version, isVersion], req.method, method⟩

section

variable {env : NegotiateEnv} {turn : Turn} {sessionId : Option String} {keys : SessionKeys}
  {frame : List UInt8} {request : Text}

/-- An object that is read as a request of version 2.0. -/
theorem alike_object {members : List (String × Json)} {req : JsonRpcRequest}
    (lawful : env.serde.Lawful) (carries : Carries env keys frame request)
    (value : env.serde.fromStr request = .ok (.obj members))
    (read : env.serde.requestFromStr request = .ok req) (version : req.jsonrpc = "2.0") :
    Alike env turn sessionId keys frame request ↔ turn.returns ⟨req.method, req.params⟩ ∧
      ((NegotiateEnv.directRequest (.obj members)).isSome = true →
        ∃ params, NegotiateEnv.paramsOf (.obj members) = .obj params) := by
  obtain ⟨isVersion, isMethod, isParams, isId⟩ := lawful.object _ _ _ value read
  have sameCall : Turn.valueCall (.obj members) = ⟨req.method, req.params⟩ := by
    show Call.mk _ _ = _
    rw [NegotiateEnv.methodOf, NegotiateEnv.paramsOf, isMethod, isParams]
    rfl
  have sameId : NegotiateEnv.idOf (.obj members) = req.id := by
    rw [NegotiateEnv.idOf, isId]
    rfl
  have framed := (Turn.frame_value turn carries value).1
  rw [sameCall, sameId] at framed
  constructor
  · rintro ⟨outcome, alike⟩
    have replied := framed ▸ alike.framed
    refine ⟨Turn.returns_of_reply replied, fun asks => ?_⟩
    obtain ⟨direct, asked⟩ := Option.isSome_iff_exists.mp asks
    by_contra array
    have unrun : turn.runs env (Turn.valueCall (.obj members)) = false :=
      Turn.unrun_array turn asked array
    have refused := Turn.reply_unrun unrun req.id
    rw [sameCall, replied] at refused
    have connected := alike.connected
    rw [(Turn.connection_direct turn sessionId value asked).1, refused] at connected
    exact Turn.handlerResult_code _ _ (Option.some.inj connected)
  · rintro ⟨returns, params⟩
    have newline := Turn.newline_request turn read version returns
    have connected : outcomeOf (turn.connection env sessionId request) =
        outcomeOf (turn.reply env ⟨req.method, req.params⟩ req.id) := by
      cases asked : NegotiateEnv.directRequest (.obj members) with
      | none => rw [(Turn.connection_value turn sessionId value asked).1, sameCall, sameId]
      | some direct =>
        obtain ⟨params, object⟩ := params (by rw [asked]; rfl)
        rw [Turn.connection_object turn sessionId value asked object, sameCall, sameId]
    obtain ⟨result, returned⟩ := returns
    have replied : outcomeOf (turn.reply env ⟨req.method, req.params⟩ req.id) = some _ :=
      congrArg outcomeOf (Turn.reply_returned returned req.id)
    refine ⟨_, newline ▸ replied, connected.trans replied, framed ▸ replied, ?_, ?_⟩
    · intro value' id read' hasId
      rw [value] at read'
      cases read'
      exact (Turn.reply_id replied).trans (isId.symm.trans hasId)
    · intro malformed
      exact absurd ⟨_, value, (WellFormed.of_object isVersion isMethod).mpr version⟩ malformed

/-- An object that is read as a request of another version. -/
theorem alike_version {members : List (String × Json)} {req : JsonRpcRequest}
    (lawful : env.serde.Lawful) (carries : Carries env keys frame request)
    (value : env.serde.fromStr request = .ok (.obj members))
    (read : env.serde.requestFromStr request = .ok req) (version : req.jsonrpc ≠ "2.0") :
    Alike env turn sessionId keys frame request ↔
      NegotiateEnv.directRequest (.obj members) = none ∧
        turn.runs env ⟨req.method, req.params⟩ = false := by
  obtain ⟨isVersion, isMethod, isParams, isId⟩ := lawful.object _ _ _ value read
  have sameCall : Turn.valueCall (.obj members) = ⟨req.method, req.params⟩ := by
    show Call.mk _ _ = _
    rw [NegotiateEnv.methodOf, NegotiateEnv.paramsOf, isMethod, isParams]
    rfl
  have sameId : NegotiateEnv.idOf (.obj members) = req.id := by
    rw [NegotiateEnv.idOf, isId]
    rfl
  obtain ⟨newline, newlineRuns⟩ := Turn.newline_version turn read version
  obtain ⟨framed, frameRuns⟩ := Turn.frame_value turn carries value
  rw [sameCall] at framed frameRuns
  rw [sameId] at framed
  constructor
  · rintro ⟨outcome, alike⟩
    have malformed : ¬ ∃ value, env.serde.fromStr request = .ok value ∧ WellFormed value := by
      rintro ⟨value', read', formed⟩
      rw [value] at read'
      cases read'
      exact version ((WellFormed.of_object isVersion isMethod).mp formed)
    obtain ⟨-, -, connectionRuns, unframed⟩ := alike.malformed malformed
    refine ⟨?_, frameRuns ▸ unframed⟩
    cases asked : NegotiateEnv.directRequest (.obj members) with
    | none => rfl
    | some direct =>
      rw [(Turn.connection_direct turn sessionId value asked).2] at connectionRuns
      cases connectionRuns
  · rintro ⟨plain, unrun⟩
    obtain ⟨connection, connectionRuns⟩ :=
      Turn.connection_value turn sessionId value plain
    rw [sameCall] at connection connectionRuns
    rw [sameId] at connection
    have refused := Turn.reply_unrun unrun req.id
    refine ⟨Turn.refused req.id, newline, connection ▸ refused, framed ▸ refused, ?_, ?_⟩
    · intro value' id read' hasId
      rw [value] at read'
      cases read'
      exact isId.symm.trans hasId
    · exact fun _ => ⟨rfl, newlineRuns, connectionRuns.trans unrun, frameRuns.trans unrun⟩

/-- An array that is read as a request. -/
theorem alike_array {items : List Json} {req : JsonRpcRequest}
    (carries : Carries env keys frame request)
    (value : env.serde.fromStr request = .ok (.arr items))
    (read : env.serde.requestFromStr request = .ok req) :
    Alike env turn sessionId keys frame request ↔ req.id = .null ∧
      (req.jsonrpc = "2.0" → turn.runs env ⟨req.method, req.params⟩ = false) := by
  have plain : NegotiateEnv.directRequest (.arr items) = none := rfl
  have unrun : turn.runs env (Turn.valueCall (.arr items)) = false := Turn.runs_nil _
  obtain ⟨connection, connectionRuns⟩ :=
    Turn.connection_value turn sessionId value plain
  obtain ⟨framed, frameRuns⟩ := Turn.frame_value turn carries value
  have refused : outcomeOf (turn.reply env (Turn.valueCall (.arr items)) .null) =
      some (Turn.refused .null) := Turn.reply_unrun unrun .null
  have malformed : ¬ ∃ value, env.serde.fromStr request = .ok value ∧ WellFormed value := by
    rintro ⟨value', read', ⟨members, isObject⟩, -⟩
    rw [value, isObject] at read'
    cases read'
  have noId : ∀ value' id, env.serde.fromStr request = .ok value' → value'.get "id" ≠ some id := by
    intro value' id read' hasId
    rw [value] at read'
    cases read'
    cases hasId
  constructor
  · rintro ⟨outcome, alike⟩
    have isRefused : Turn.refused .null = outcome :=
      Option.some.inj (refused.symm.trans (connection ▸ alike.connected))
    have unran := (alike.malformed malformed).2.1
    have answered := alike.newline
    by_cases version : req.jsonrpc = "2.0"
    · have unrun' := Turn.newlineRuns_request turn read version ▸ unran
      have refused' := Turn.reply_unrun unrun' req.id
      rw [Turn.newline_request turn read version (Turn.returns_of_reply refused'), refused',
        ← isRefused] at answered
      exact ⟨Option.some.inj (congrArg Outcome.id (Option.some.inj answered)), fun _ => unrun'⟩
    · rw [(Turn.newline_version turn read version).1, ← isRefused] at answered
      exact ⟨Option.some.inj (congrArg Outcome.id (Option.some.inj answered)),
        fun isVersion => absurd isVersion version⟩
  · rintro ⟨isNull, unruns⟩
    have newline : outcomeOf (turn.newline env request) = some (Turn.refused .null) ∧
        turn.newlineRuns env request = false := by
      rw [← isNull]
      by_cases version : req.jsonrpc = "2.0"
      · have refused' := Turn.reply_unrun (unruns version) req.id
        rw [Turn.newline_request turn read version (Turn.returns_of_reply refused'),
          Turn.newlineRuns_request turn read version]
        exact ⟨refused', unruns version⟩
      · exact Turn.newline_version turn read version
    refine ⟨Turn.refused .null, newline.1, connection ▸ refused, framed ▸ refused, ?_, ?_⟩
    · exact fun value' id read' hasId => absurd hasId (noId value' id read')
    · exact fun _ => ⟨rfl, newline.2, connectionRuns.trans unrun, frameRuns.trans unrun⟩

/-- A request that is not read as a `JsonRpcRequest`. -/
theorem alike_unread {value : Json} {message : String} (carries : Carries env keys frame request)
    (read : env.serde.fromStr request = .ok value)
    (unread : env.serde.requestFromStr request = .error message) :
    Alike env turn sessionId keys frame request ↔ WellFormed value ∧
      NegotiateEnv.idOf value = .null ∧ turn.failsAsUnread env (Turn.valueCall value) := by
  obtain ⟨newline, newlineRuns⟩ := Turn.newline_unread turn unread
  obtain ⟨framed, frameRuns⟩ := Turn.frame_value turn carries read
  constructor
  · rintro ⟨outcome, alike⟩
    have same : outcome = ⟨some .null, none, some IpcPhase.Transport.code⟩ :=
      Option.some.inj (alike.newline.symm.trans newline)
    subst same
    have replied := framed ▸ alike.framed
    have isNull : NegotiateEnv.idOf value = .null := (Option.some.inj (Turn.reply_id replied)).symm
    rw [isNull] at replied
    refine ⟨?_, isNull, _, replied, rfl⟩
    by_contra unformed
    have malformed : ¬ ∃ value, env.serde.fromStr request = .ok value ∧ WellFormed value := by
      rintro ⟨value', read', formed⟩
      rw [read] at read'
      cases read'
      exact unformed formed
    have unrun := frameRuns ▸ (alike.malformed malformed).2.2.2
    rw [Turn.reply_unrun unrun] at replied
    exact Turn.code_ne (Option.some.inj (congrArg Outcome.code (Option.some.inj replied)))
  · rintro ⟨formed, isNull, outcome, replied, fails⟩
    have failed : outcome = ⟨some .null, none, some IpcPhase.Transport.code⟩ :=
      Turn.reply_code replied fails
    rw [isNull] at framed
    have connected : outcomeOf (turn.connection env sessionId request) =
        outcomeOf (turn.reply env (Turn.valueCall value) .null) := by
      cases asked : NegotiateEnv.directRequest value with
      | none => rw [(Turn.connection_value turn sessionId read asked).1, isNull]
      | some direct =>
        by_cases object : ∃ params, NegotiateEnv.paramsOf value = .obj params
        · obtain ⟨params, isParams⟩ := object
          rw [Turn.connection_object turn sessionId read asked isParams, isNull]
        · have unrun : turn.runs env (Turn.valueCall value) = false :=
            Turn.unrun_array turn asked object
          have refused := (Turn.reply_unrun unrun .null).symm.trans replied
          rw [failed] at refused
          exact absurd (Option.some.inj (congrArg Outcome.code (Option.some.inj refused)))
            Turn.code_ne
    subst failed
    refine ⟨_, newline, connected.trans replied, framed ▸ replied, ?_, ?_⟩
    · intro value' id read' hasId
      rw [read] at read'
      cases read'
      rw [NegotiateEnv.idOf, hasId] at isNull
      exact congrArg some isNull.symm
    · intro malformed
      exact absurd ⟨value, read, formed⟩ malformed

/-- The loops answer exactly these requests alike. -/
theorem alike_iff (lawful : env.serde.Lawful) (carries : Carries env keys frame request) :
    Alike env turn sessionId keys frame request ↔ turn.answersAlike env request := by
  unfold Turn.answersAlike
  cases read : env.serde.fromStr request with
  | error message =>
    constructor
    · rintro ⟨outcome, alike⟩
      have framed := alike.framed
      rw [Turn.frame_unread turn carries read] at framed
      cases framed
    · rintro ⟨value, never, -⟩
      cases never
  | ok value =>
    have here : ∀ {p : Json → Prop},
        (∃ value', Except.ok value = (.ok value' : Except String Json) ∧ p value') ↔ p value := by
      intro p
      constructor
      · rintro ⟨value', same, holds⟩
        cases same
        exact holds
      · exact fun holds => ⟨value, rfl, holds⟩
    rw [here]
    cases asked : env.serde.requestFromStr request with
    | error message => exact alike_unread carries read asked
    | ok req =>
      rcases lawful.other _ _ _ read asked with ⟨members, rfl⟩ | ⟨items, rfl⟩
      · by_cases version : req.jsonrpc = "2.0"
        · dsimp only
          rw [if_pos version]
          exact alike_object lawful carries read asked version
        · dsimp only
          rw [if_neg version]
          exact alike_version lawful carries read asked version
      · exact alike_array carries read asked

end

/-! ## Streams of requests -/

/-- A request of a stream, with the frame that carries it and what it meets. After a negotiation the
keys of the connection may be in the registry. -/
structure Asked where
  turn : Turn
  request : Text
  frame : List UInt8
  keysStored : Bool

section

variable (env : NegotiateEnv) (sessionId : Option String) (keys : SessionKeys)

/-- The responses of `process_newline_reader_writer`, and whether it still reads. -/
def serveNewline : List Asked → List Json × Bool
  | [] => ([], true)
  | asked :: rest =>
    match asked.turn.newline env asked.request with
    | none => ([], false)
    | some reply =>
      let (responses, reading) := serveNewline rest
      (reply.response :: responses, reading)

/-- The responses of `process_encrypted_frames`, and whether it still reads. -/
def serveFrames : List Asked → List Json × Bool
  | [] => ([], true)
  | asked :: rest =>
    match asked.turn.frame env keys asked.frame with
    | none => ([], false)
    | some reply =>
      let (responses, reading) := serveFrames rest
      (reply.response :: responses, reading)

/-- The responses of `handle_connection`, and whether it still reads. With the keys of a negotiation
it reads frames. -/
def serveConnection : List Asked → List Json × Bool
  | [] => ([], true)
  | asked :: rest =>
    match asked.turn.connection env sessionId asked.request with
    | none => ([], false)
    | some reply =>
      let (responses, reading) :=
        if reply.take.isSome && asked.keysStored then serveFrames env keys rest
        else serveConnection rest
      (reply.response :: responses, reading)

/-- Responses with the same outcomes, from loops that still read. -/
def SameService (served served' : List Json × Bool) : Prop :=
  served.1.map Json.outcome = served'.1.map Json.outcome ∧ served.2 = true ∧ served'.2 = true

variable {env sessionId keys}

theorem SameService.cons {response response' : Json} {served served' : List Json × Bool}
    (same : response.outcome = response'.outcome) (rest : SameService served served') :
    SameService (response :: served.1, served.2) (response' :: served'.1, served'.2) := by
  refine ⟨?_, rest.2⟩
  rw [List.map_cons, List.map_cons, same, rest.1]

theorem serveFrames_alike : ∀ {stream : List Asked},
    (∀ asked ∈ stream,
      Alike env asked.turn sessionId keys asked.frame asked.request) →
      SameService (serveFrames env keys stream) (serveNewline env stream) := by
  intro stream
  induction stream with
  | nil => exact fun _ => ⟨rfl, rfl, rfl⟩
  | cons asked rest ih =>
    intro alike
    obtain ⟨outcome, answered⟩ := alike asked List.mem_cons_self
    obtain ⟨reply, framed, isOutcome⟩ := Turn.outcomeOf_eq_some.mp answered.framed
    obtain ⟨reply', read, isOutcome'⟩ := Turn.outcomeOf_eq_some.mp answered.newline
    have later := ih fun asked member => alike asked (List.mem_cons_of_mem _ member)
    rw [serveFrames, serveNewline]
    simp only [framed, read]
    exact later.cons (isOutcome.trans isOutcome'.symm)

theorem serveConnection_alike : ∀ {stream : List Asked},
    (∀ asked ∈ stream,
      Alike env asked.turn sessionId keys asked.frame asked.request) →
      SameService (serveConnection env sessionId keys stream) (serveNewline env stream) := by
  intro stream
  induction stream with
  | nil => exact fun _ => ⟨rfl, rfl, rfl⟩
  | cons asked rest ih =>
    intro alike
    obtain ⟨outcome, answered⟩ := alike asked List.mem_cons_self
    obtain ⟨reply, connected, isOutcome⟩ := Turn.outcomeOf_eq_some.mp answered.connected
    obtain ⟨reply', read, isOutcome'⟩ := Turn.outcomeOf_eq_some.mp answered.newline
    have same := isOutcome.trans isOutcome'.symm
    have later : ∀ asked ∈ rest, Alike env asked.turn sessionId keys asked.frame asked.request :=
      fun asked member => alike asked (List.mem_cons_of_mem _ member)
    rw [serveConnection, serveNewline]
    simp only [connected, read]
    split
    · exact (serveFrames_alike later).cons same
    · exact (ih later).cons same

end

/-- A request that is well-formed. -/
def healthText : Text := "\x7b\"jsonrpc\":\"2.0\",\"method\":\"health\",\"id\":1\x7d".toList

/-- The parsers' results for that request, and frames of a nonce, a text and a tag. -/
def healthEnv : NegotiateEnv where
  mode := .development
  serde :=
    { fromStr := fun text =>
        if text = healthText then
          .ok (.obj [("id", .nat 1), ("jsonrpc", .str "2.0"), ("method", .str "health")])
        else .error "expected value at line 1 column 1"
      requestFromStr := fun text =>
        if text = healthText then .ok ⟨"2.0", "health", .null, .nat 1⟩
        else .error "expected value at line 1 column 1" }
  requestError := fun _ => "missing field"
  base64Decode := fun _ => .error "Invalid padding"
  hkdf := fun _ _ _ => .error "invalid number of blocks, too large output"
  encrypt := fun _ _ text => some (text ++ List.replicate 16 0)
  decrypt := fun _ _ ciphertext => some (ciphertext.take (ciphertext.length - 16))

/-- The only handler is that of `health`. -/
def healthTurn : Turn where
  sessions := fun _ => none
  nonce := []
  handle call := .returned (if call.method = "health" then .ok .null
    else .error (.dispatch ("method not found: " ++ call.method)))
  reaches call := decide (call.method = "health")
  served := by
    intro call reached
    rw [of_decide_eq_true reached]
    decide
  unreached := by
    intro call unreached
    exact ⟨_, congrArg Handled.returned (if_neg (of_decide_eq_false unreached))⟩

def healthKeys : SessionKeys := ⟨[], []⟩

/-- A frame that carries a text. -/
def frameOf (text : Text) : List UInt8 :=
  List.replicate 12 0 ++ utf8Encode text ++ List.replicate 16 0

theorem healthEnv_lawful : healthEnv.serde.Lawful where
  object := by
    intro text members req value read
    simp only [healthEnv] at value read
    split at read
    next isText =>
      rw [if_pos isText] at value
      cases value
      cases read
      exact ⟨rfl, rfl, rfl, rfl⟩
    next => cases read
  array := by
    intro text items req value read
    simp only [healthEnv] at value read
    split at read
    next isText =>
      rw [if_pos isText] at value
      cases value
    next => cases read
  other := by
    intro text value req isValue read
    simp only [healthEnv] at isValue read
    split at read
    next isText =>
      rw [if_pos isText] at isValue
      cases isValue
      exact .inl ⟨_, rfl⟩
    next => cases read

end CoralReef
