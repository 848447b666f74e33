import CoralReef.Ipc.MethodGate
import CoralReef.Ipc.Proofs.CipherSwitch

/-!
# The gate and the handlers

No loop asks the gate, so a protected method reaches its handler whatever the check would answer.
The gate is enforced in exactly the runs whose clients send their tokens anyway.
-/

namespace CoralReef

open NegotiateEnv

theorem check_enforced {method : String} {caller : CallerContext} :
    (MethodGate.mk .Enforced).check method caller = .ok () ↔
      (classifyMethod method = .Protected → caller.bearerToken.isSome) := by
  rw [MethodGate.check]
  cases level : classifyMethod method with
  | Public => simp
  | Protected =>
      cases caller.bearerToken with
      | none => simp
      | some token => simp

namespace NegotiateEnv

variable {env : NegotiateEnv} {sessions : Sessions} {nonce : List UInt8}
  {other : Except IpcServiceError Json}

theorem dispatchedRequest_method {method : String} {params : Json} {req : NegotiateRequest}
    (asked : env.dispatchedRequest method params = some req) : method = "btsp.negotiate" := by
  by_contra no_negotiation
  rw [dispatchedRequest, if_neg no_negotiation] at asked
  cases asked

theorem directRequest_method {value : Json} {req : NegotiateRequest}
    (asked : directRequest value = some req) : methodOf value = "btsp.negotiate" := by
  by_contra no_negotiation
  rw [directRequest, if_neg no_negotiation] at asked
  cases asked

/-- Only a call of `btsp.negotiate` negotiates. -/
theorem lineRequest_method {loop : ConnLoop} {request : Text} {call : Call}
    {asked : NegotiateRequest × Option String} (called : env.lineCall loop request = some call)
    (asks : env.lineRequest loop request = some asked) : call.method = "btsp.negotiate" := by
  cases loop with
  | newline =>
      rw [lineCall] at called
      rw [lineRequest] at asks
      cases parsed : env.serde.requestFromStr request with
      | error message =>
          rw [parsed] at called
          cases called
      | ok req =>
          rw [parsed] at called asks
          dsimp only at called asks
          split at called
          next version =>
            cases called
            rw [if_pos version, Option.map_eq_some_iff] at asks
            rcases asks with ⟨req', dispatched, _⟩
            exact dispatchedRequest_method dispatched
          next => cases called
  | handle own =>
      rw [lineCall] at called
      rw [lineRequest] at asks
      cases parsed : env.serde.fromStr request with
      | error message =>
          rw [parsed] at called
          cases called
      | ok value =>
          rw [parsed] at called asks
          cases called
          dsimp only at asks
          cases direct : directRequest value with
          | some req => exact directRequest_method direct
          | none =>
              rw [direct, Option.map_eq_some_iff] at asks
              rcases asks with ⟨req', dispatched, _⟩
              exact dispatchedRequest_method dispatched

theorem lineReply_stores_nothing {loop : ConnLoop} {request : Text} {call : Call}
    (called : env.lineCall loop request = some call) (other_method : call.method ≠ "btsp.negotiate") :
    (env.lineReply loop sessions nonce other request).exchange = none := by
  cases stored : (env.lineReply loop sessions nonce other request).exchange with
  | none => rfl
  | some pair =>
      rcases lineReply_exchange stored with ⟨req, asks, _⟩
      exact absurd (lineRequest_method called asks) other_method

theorem frameRequest_method {keys : SessionKeys} {frame : List UInt8} {call : Call}
    {req : NegotiateRequest} (called : env.frameCall keys frame = some call)
    (asks : env.frameRequest keys frame = some req) : call.method = "btsp.negotiate" := by
  rw [frameCall] at called
  rw [frameRequest] at asks
  split at called
  next => cases called
  next =>
    cases decrypted : keys.decrypt env frame with
    | error error =>
        rw [decrypted] at called
        cases called
    | ok plaintext =>
        rw [decrypted] at called asks
        dsimp only at called asks
        cases decoded : utf8Decode plaintext with
        | none =>
            rw [decoded] at called
            cases called
        | some request =>
            rw [decoded] at called asks
            dsimp only at called asks
            cases parsed : env.serde.fromStr request with
            | error message =>
                rw [parsed] at called
                cases called
            | ok value =>
                rw [parsed] at called
                cases called
                simp only [parsed, Except.toOption, Option.bind_eq_bind, Option.bind_some] at asks
                exact dispatchedRequest_method asks

theorem frameReply_stores_nothing {keys : SessionKeys} {frame : List UInt8} {call : Call}
    {reply : Reply env} (called : env.frameCall keys frame = some call)
    (other_method : call.method ≠ "btsp.negotiate")
    (replied : env.frameReply keys sessions nonce other frame = some reply) :
    reply.exchange = none := by
  cases stored : reply.exchange with
  | none => rfl
  | some pair =>
      rcases (frameReply_some replied).2 _ _ stored with ⟨req, asks, _⟩
      exact absurd (frameRequest_method called asks) other_method

end NegotiateEnv

namespace Service

variable {env : NegotiateEnv} {σ : Type} {loops : Nat → ConnLoop} {handle : Handlers σ}

/-- A step of the service has no effect beyond the answer to its client. -/
structure Harmless (s s' : Service env σ) : Prop where
  handlers : s'.handlers = s.handlers
  calls : s'.calls = s.calls
  sessions : s'.system.sessions = s.system.sessions
  negotiated : s'.system.negotiated = s.system.negotiated
  /-- No keys are on their way to the registry. -/
  stores : ∀ c reply, (s'.system.conns c).loop = .storing reply →
    (s.system.conns c).loop = .storing reply

/-- The gate is enforced in a run: a protected method has reached a handler only where the check
for its call is `Ok`, and a call that is refused has no effect. -/
structure GateEnforced (gate : MethodGate) (env : NegotiateEnv) (loops : Nat → ConnLoop)
    (handle : Handlers σ) (handlers : σ) (actions : List System.Action) : Prop where
  handled : ∀ call ∈ (run env loops handle handlers actions).calls,
    classifyMethod call.method = .Protected → gate.checkCall call = .ok ()
  refused : ∀ early action late, actions = early ++ action :: late →
    ∀ call, (run env loops handle handlers early).received loops action = some call →
      gate.checkCall call ≠ .ok () →
        Harmless (run env loops handle handlers early)
          (run env loops handle handlers (early ++ [action]))

/-- Every request of the run for a protected method that has a handler brings a token. -/
def TokensSent (env : NegotiateEnv) (loops : Nat → ConnLoop) (handle : Handlers σ) (handlers : σ)
    (actions : List System.Action) : Prop :=
  ∀ early action late, actions = early ++ action :: late →
    ∀ call, (run env loops handle handlers early).received loops action = some call →
      call.method ∈ servedMethods → classifyMethod call.method = .Protected →
        (call.params.getStr "_bearer_token").isSome

theorem run_append (env : NegotiateEnv) (loops : Nat → ConnLoop) (handle : Handlers σ)
    (handlers : σ) (actions : List System.Action) (action : System.Action) :
    run env loops handle handlers (actions ++ [action]) =
      step loops handle (run env loops handle handlers actions) action := by
  rw [run, List.foldl_append]
  rfl

/-- A step adds the call that it brings to a handler. -/
theorem step_calls (s : Service env σ) (action : System.Action) :
    (step loops handle s action).calls =
      s.calls ++ ((s.received loops action).filter (·.method ∈ servedMethods)).toList := by
  rw [step]
  cases received loops s action with
  | none => simp
  | some call =>
      by_cases served : call.method ∈ servedMethods
      · simp [served, Option.filter]
      · simp [served, Option.filter]

/-- The calls that have reached a handler were brought by the events of the run. -/
theorem mem_calls {handlers : σ} {actions : List System.Action} {call : Call} :
    call ∈ (run env loops handle handlers actions).calls ↔
      ∃ early action late, actions = early ++ action :: late ∧
        (run env loops handle handlers early).received loops action = some call ∧
        call.method ∈ servedMethods := by
  induction actions using List.reverseRecOn with
  | nil =>
      constructor
      · intro never
        cases never
      · rintro ⟨early, action, late, empty, _⟩
        simp at empty
  | append_singleton actions last hind =>
      rw [run_append, step_calls, List.mem_append, hind, Option.mem_toList,
        Option.filter_eq_some_iff, decide_eq_true_eq]
      constructor
      · rintro (⟨early, action, late, rfl, brought, served⟩ | ⟨brought, served⟩)
        · exact ⟨early, action, late ++ [last], by simp, brought, served⟩
        · exact ⟨actions, last, [], rfl, brought, served⟩
      · rintro ⟨early, action, late, split, brought, served⟩
        rcases List.eq_nil_or_concat late with rfl | ⟨late, last', rfl⟩
        · rcases List.append_inj' split rfl with ⟨rfl, same⟩
          cases same
          exact .inr ⟨brought, served⟩
        · rw [List.concat_eq_append, ← List.cons_append, ← List.append_assoc] at split
          rcases List.append_inj' split rfl with ⟨rfl, _⟩
          exact .inl ⟨early, action, late, rfl, brought, served⟩

/-- A call without a handler is answered and changes nothing. -/
theorem step_unserved {s : Service env σ} {action : System.Action} {call : Call}
    (brought : s.received loops action = some call) (unserved : call.method ∉ servedMethods) :
    Harmless s (step loops handle s action) := by
  have other_method : call.method ≠ "btsp.negotiate" := by
    intro negotiation
    rw [negotiation] at unserved
    exact unserved (by decide)
  have stepped : step loops handle s action =
      { system := s.system.step loops
          (answered (.error (.dispatch ("method not found: " ++ call.method))) action)
        handlers := s.handlers
        calls := s.calls } := by
    rw [step, brought]
    simp only [dispatch, if_neg unserved]
  rw [stepped]
  cases action with
  | line c line nonce other =>
      obtain ⟨reading, plain⟩ : (s.system.conns c).loop = .reading ∧
          (s.system.conns c).channel = .plaintext := by
        rw [received] at brought
        split at brought
        next reading plain => exact ⟨reading, plain⟩
        next => cases brought
      simp only [received, reading, plain] at brought
      simp only [answered, System.step, reading, plain]
      split at brought
      next => cases brought
      next some_text =>
        refine ⟨rfl, rfl, rfl, rfl, ?_⟩
        intro c' reply storing
        by_cases same : c' = c
        · subst same
          rw [System.setConn_self, System.readLine, if_neg some_text, Reply.next,
            lineReply_stores_nothing brought other_method] at storing
          cases storing
        · rw [System.setConn_other _ _ same] at storing
          exact storing
  | frame c frame nonce other =>
      obtain ⟨keys, reading, encrypted⟩ : ∃ keys, (s.system.conns c).loop = .reading ∧
          (s.system.conns c).channel = .encrypted keys := by
        rw [received] at brought
        split at brought
        next keys reading encrypted => exact ⟨keys, reading, encrypted⟩
        next => cases brought
      simp only [received, reading, encrypted] at brought
      simp only [answered, System.step, reading, encrypted]
      refine ⟨rfl, rfl, rfl, rfl, ?_⟩
      intro c' reply storing
      by_cases same : c' = c
      · subst same
        rw [System.setConn_self, System.readFrame] at storing
        split at storing
        next reply' replied =>
          rw [Reply.next, frameReply_stores_nothing brought other_method replied] at storing
          cases storing
        next => cases storing
      · rw [System.setConn_other _ _ same] at storing
        exact storing
  | register | store | write | take | stop => cases brought

/-- The gate is enforced in exactly the runs in which every request for a protected method that
has a handler brings a token. -/
theorem gateEnforced_iff (env : NegotiateEnv) (loops : Nat → ConnLoop) (handle : Handlers σ)
    (handlers : σ) (actions : List System.Action) :
    GateEnforced ⟨.Enforced⟩ env loops handle handlers actions ↔
      TokensSent env loops handle handlers actions := by
  constructor
  · intro enforced early action late split call brought served level
    have handled := mem_calls.mpr ⟨early, action, late, split, brought, served⟩
    exact check_enforced.mp (enforced.handled call handled level) level
  · intro sent
    constructor
    · intro call handled level
      rcases mem_calls.mp handled with ⟨early, action, late, split, brought, served⟩
      apply check_enforced.mpr
      exact sent early action late split call brought served
    · intro early action late split call brought refused
      rw [run_append]
      apply step_unserved brought
      intro served
      apply refused
      apply check_enforced.mpr
      exact sent early action late split call brought served

/-! ## A run without a token -/

/-- A request to compile WGSL that brings no token. -/
def compileRequest : Text :=
  "\x7b\"jsonrpc\":\"2.0\",\"method\":\"shader.compile.wgsl\",\"params\":\x7b\"wgsl_source\":\"\"\x7d,\"id\":1\x7d".toList

/-- A server that parses `compileRequest`. -/
def compileEnv : NegotiateEnv where
  mode := .development
  serde :=
    { fromStr := fun text =>
        if text = compileRequest then
          .ok (.obj [("id", .nat 1), ("jsonrpc", .str "2.0"), ("method", .str "shader.compile.wgsl"),
            ("params", .obj [("wgsl_source", .str "")])])
        else .error "expected value at line 1 column 1"
      requestFromStr := fun text =>
        if text = compileRequest then
          .ok ⟨"2.0", "shader.compile.wgsl", .obj [("wgsl_source", .str "")], .nat 1⟩
        else .error "expected value at line 1 column 1" }
  requestError := fun _ => "missing field"
  base64Decode := fun _ => .error "Invalid padding"
  hkdf := fun _ _ _ => .error "invalid number of blocks, too large output"
  encrypt := fun _ _ _ => none
  decrypt := fun _ _ _ => none

/-- Handlers that count the compilations. -/
def countCompilations : Handlers Nat := fun _ compiled => (compiled + 1, .ok .null)

/-- The compiler is called although the gate refuses. -/
theorem compile_reaches_handler :
    (run compileEnv (fun _ => .newline) countCompilations 0
      [.line 0 compileRequest [] (.ok .null)]).handlers = 1 ∧
    ¬GateEnforced ⟨.Enforced⟩ compileEnv (fun _ => .newline) countCompilations 0
      [.line 0 compileRequest [] (.ok .null)] := by
  constructor
  · decide
  · intro enforced
    have brought : (start compileEnv 0).received (fun _ => .newline)
        (.line 0 compileRequest [] (.ok .null)) =
          some ⟨"shader.compile.wgsl", .obj [("wgsl_source", .str "")]⟩ := by
      have trimmed : trim compileRequest = compileRequest := by decide
      have some_text : compileRequest ≠ [] := by decide
      have parsed : compileEnv.serde.requestFromStr compileRequest =
          .ok ⟨"2.0", "shader.compile.wgsl", .obj [("wgsl_source", .str "")], .nat 1⟩ := by
        simp only [compileEnv, ↓reduceIte]
      have called : compileEnv.lineCall .newline compileRequest =
          some ⟨"shader.compile.wgsl", .obj [("wgsl_source", .str "")]⟩ := by
        rw [lineCall, parsed]
        exact if_pos rfl
      rw [received, trimmed, if_neg some_text]
      exact called
    have refused : (MethodGate.mk .Enforced).checkCall
        ⟨"shader.compile.wgsl", .obj [("wgsl_source", .str "")]⟩ ≠ .ok () := by decide
    have harmless := enforced.refused [] _ [] rfl _ brought refused
    have compiled : (run compileEnv (fun _ => .newline) countCompilations 0
        [.line 0 compileRequest [] (.ok .null)]).handlers = 1 := by decide
    have unchanged := harmless.handlers
    rw [List.nil_append, compiled] at unchanged
    cases unchanged

end Service

end CoralReef
