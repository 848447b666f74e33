import CoralReef.Ipc.CipherSwitch

/-!
# Agreement on the cipher

Every connection reads and writes as its last answer to `btsp.negotiate` says, and takes its own
keys, in the runs whose negotiations are handled by the loop that knows about the switch, for the
connection's own session and one at a time. The loop of the listeners does not switch.
-/

namespace CoralReef

open NegotiateEnv

/-! ## What the replies store and take -/

namespace NegotiateEnv

variable {env : NegotiateEnv} {sessions : Sessions} {nonce : List UInt8}
  {other : Except IpcServiceError Json} {sessionId : String} {exchange : Exchange env}

/-- The negotiation that `dispatch_jsonrpc` handles. -/
def dispatchedRequest (env : NegotiateEnv) (method : String) (params : Json) :
    Option NegotiateRequest :=
  if method = "btsp.negotiate" then (env.extractParams params).toOption else none

/-- The negotiation that a line asks for, and the session whose keys are taken after it. -/
def lineRequest (env : NegotiateEnv) (loop : ConnLoop) (request : Text) :
    Option (NegotiateRequest × Option String) :=
  match loop with
  | .newline =>
      match env.serde.requestFromStr request with
      | .ok req =>
          if req.jsonrpc = "2.0" then
            (env.dispatchedRequest req.method req.params).map fun req => (req, none)
          else none
      | .error _ => none
  | .handle own =>
      match env.serde.fromStr request with
      | .ok value =>
          match directRequest value with
          | some req => some (req, some (own.getD req.sessionId))
          | none =>
              (env.dispatchedRequest (methodOf value) (paramsOf value)).map fun req => (req, none)
      | .error _ => none

/-- The negotiation that a frame asks for. -/
def frameRequest (env : NegotiateEnv) (keys : SessionKeys) (frame : List UInt8) :
    Option NegotiateRequest :=
  match keys.decrypt env frame with
  | .error _ => none
  | .ok plaintext => do
      let request ← utf8Decode plaintext
      let value ← (env.serde.fromStr request).toOption
      env.dispatchedRequest (methodOf value) (paramsOf value)

theorem handlerResult_exchange {req : NegotiateRequest} {negotiated : Negotiated env}
    (handled : (handlerResult (env.handleNegotiate sessions req nonce)).2 = some negotiated)
    (found : negotiated.exchange = some exchange) :
    negotiated.sessionId = req.sessionId ∧ env.DerivesKeys sessions req nonce := by
  cases result : env.handleNegotiate sessions req nonce with
  | error error =>
      rw [result] at handled
      cases handled
  | ok success =>
      rw [result] at handled
      cases handled
      exact handleNegotiate_exchange result found

theorem exchange_eq_some {reply : Reply env} :
    reply.exchange = some (sessionId, exchange) ↔
      ∃ negotiated, reply.negotiated = some negotiated ∧
        negotiated.exchange = some exchange ∧ negotiated.sessionId = sessionId := by
  rw [Reply.exchange, Option.bind_eq_some_iff]
  simp only [Option.map_eq_some_iff, Prod.mk.injEq]
  constructor
  · rintro ⟨negotiated, found, _, keys, rfl, rfl⟩
    exact ⟨negotiated, found, keys, rfl⟩
  · rintro ⟨negotiated, found, keys, rfl⟩
    exact ⟨negotiated, found, exchange, keys, rfl, rfl⟩

@[simp] theorem dispatchReply_take (env : NegotiateEnv) (sessions : Sessions) (nonce : List UInt8)
    (other : Except IpcServiceError Json) (method : String) (params id : Json) :
    (env.dispatchReply sessions nonce other method params id).take = none := rfl

theorem dispatchReply_exchange {method : String} {params id : Json}
    (found : (env.dispatchReply sessions nonce other method params id).exchange =
      some (sessionId, exchange)) :
    ∃ req, env.dispatchedRequest method params = some req ∧ req.sessionId = sessionId ∧
      env.DerivesKeys sessions req nonce := by
  rcases exchange_eq_some.mp found with ⟨negotiated, handled, keys, rfl⟩
  change (env.dispatchJsonrpc sessions nonce other method params).2 = some negotiated at handled
  rw [dispatchJsonrpc] at handled
  rw [dispatchedRequest]
  split at handled
  next negotiation =>
    rw [if_pos negotiation]
    cases extracted : env.extractParams params with
    | error error =>
        rw [extracted] at handled
        cases handled
    | ok req =>
        rw [extracted] at handled
        rcases handlerResult_exchange handled keys with ⟨same, derives⟩
        exact ⟨req, rfl, same.symm, derives⟩
  next => cases handled

/-- The keys that a line's reply stores are those of the request of the line. -/
theorem lineReply_exchange {loop : ConnLoop} {request : Text}
    (found : (env.lineReply loop sessions nonce other request).exchange =
      some (sessionId, exchange)) :
    ∃ req, env.lineRequest loop request =
        some (req, (env.lineReply loop sessions nonce other request).take) ∧
      req.sessionId = sessionId ∧ env.DerivesKeys sessions req nonce := by
  cases loop with
  | newline =>
      simp only [lineReply, newlineReply, lineRequest] at found ⊢
      cases parsed : env.serde.requestFromStr request with
      | error message =>
          rw [parsed] at found
          cases found
      | ok req =>
          rw [parsed] at found
          dsimp only at found ⊢
          split at found
          next version =>
            rcases dispatchReply_exchange found with ⟨asked, dispatched, same, derives⟩
            exact ⟨asked, by simp [version, dispatched], same, derives⟩
          next => cases found
  | handle own =>
      simp only [lineReply, connectionReply, lineRequest] at found ⊢
      cases parsed : env.serde.fromStr request with
      | error message =>
          rw [parsed] at found
          cases found
      | ok value =>
          rw [parsed] at found
          dsimp only at found ⊢
          cases direct : directRequest value with
          | none =>
              rw [direct] at found
              rcases dispatchReply_exchange found with ⟨asked, dispatched, same, derives⟩
              exact ⟨asked, by simp [dispatched], same, derives⟩
          | some req =>
              rw [direct] at found
              rcases exchange_eq_some.mp found with ⟨negotiated, handled, keys, rfl⟩
              rcases handlerResult_exchange handled keys with ⟨same, derives⟩
              dsimp only at handled ⊢
              exact ⟨req, by simp [handled, keys], same.symm, derives⟩

/-- Keys are taken only after an answer that stores some. -/
theorem lineReply_take {loop : ConnLoop} {request : Text}
    (none_stored : (env.lineReply loop sessions nonce other request).exchange = none) :
    (env.lineReply loop sessions nonce other request).take = none := by
  cases loop with
  | newline =>
      simp only [lineReply, newlineReply]
      split
      · split <;> rfl
      · rfl
  | handle own =>
      simp only [lineReply, connectionReply] at none_stored ⊢
      cases parsed : env.serde.fromStr request with
      | error message => rfl
      | ok value =>
          rw [parsed] at none_stored
          dsimp only at none_stored ⊢
          cases direct : directRequest value with
          | none => rfl
          | some req =>
              rw [direct] at none_stored
              simp only [Reply.exchange, Option.bind_eq_none_iff, Option.map_eq_none_iff]
                at none_stored ⊢
              exact none_stored

theorem frameReply_some {keys : SessionKeys} {frame : List UInt8} {reply : Reply env}
    (replied : env.frameReply keys sessions nonce other frame = some reply) :
    reply.take = none ∧ ∀ sessionId exchange, reply.exchange = some (sessionId, exchange) →
      ∃ req, env.frameRequest keys frame = some req ∧ env.DerivesKeys sessions req nonce := by
  rw [frameReply] at replied
  rw [frameRequest]
  split at replied
  next => cases replied
  next =>
    cases decrypted : keys.decrypt env frame with
    | error error =>
        rw [decrypted] at replied
        cases replied
    | ok plaintext =>
        rw [decrypted] at replied
        dsimp only at replied ⊢
        cases decoded : utf8Decode plaintext with
        | none =>
            rw [decoded] at replied
            cases replied
        | some request =>
            rw [decoded] at replied
            dsimp only at replied
            cases parsed : env.serde.fromStr request with
            | error message =>
                rw [parsed] at replied
                cases replied
            | ok value =>
                rw [parsed] at replied
                cases replied
                refine ⟨rfl, ?_⟩
                intro sessionId exchange stored
                rcases dispatchReply_exchange stored with ⟨req, dispatched, _, derives⟩
                exact ⟨req, by simp [Except.toOption, parsed, dispatched], derives⟩

end NegotiateEnv

/-! ## What a connection has agreed on -/

section

variable {env : NegotiateEnv}

/-- The channel that the bytes of an event were on. -/
def IoEvent.channel : IoEvent env → Channel
  | .read channel _ => channel
  | .wrote channel _ _ => channel

/-- The channel that an event leaves a client with. -/
def Channel.after (channel : Channel) : IoEvent env → Channel
  | .wrote _ _ (some (.chacha exchange)) => .encrypted exchange.keys
  | _ => channel

/-- Every event is on the channel of the last answer before it. -/
def Follows (channel : Channel) : List (IoEvent env) → Prop
  | [] => True
  | event :: later => event.channel = channel ∧ Follows (channel.after event) later

instance Follows.decidable : (channel : Channel) → (events : List (IoEvent env)) →
    Decidable (Follows channel events)
  | _, [] => inferInstanceAs (Decidable True)
  | channel, event :: later =>
      have := Follows.decidable (channel.after event) later
      inferInstanceAs (Decidable (event.channel = channel ∧ Follows (channel.after event) later))

theorem follows_append {channel : Channel} {events : List (IoEvent env)} {event : IoEvent env} :
    Follows channel (events ++ [event]) ↔
      Follows channel events ∧ event.channel = events.foldl Channel.after channel := by
  induction events generalizing channel with
  | nil => simp [Follows]
  | cons first events hind => simp [Follows, hind, and_assoc]

/-- The channel that a connection has agreed on. -/
def Conn.agreed (conn : Conn env) : Channel := conn.io.foldl Channel.after .plaintext

/-- The session whose keys a connection is about to store and take. -/
def LoopState.session : LoopState env → Option String
  | .storing reply | .writing reply => reply.exchange.map Prod.fst
  | .taking sessionId => some sessionId
  | .reading | .closed => none

/-- The session whose keys a connection has stored and is about to take. -/
def LoopState.collects : LoopState env → Option String
  | .writing reply => reply.exchange.map Prod.fst
  | .taking sessionId => some sessionId
  | .storing _ | .reading | .closed => none

theorem LoopState.session_of_collects {loop : LoopState env} {sessionId : String}
    (collects : loop.collects = some sessionId) : loop.session = some sessionId := by
  cases loop with
  | writing reply => exact collects
  | taking sessionId => exact collects
  | storing reply => cases collects
  | reading => cases collects
  | closed => cases collects

end

/-! ## Runs -/

namespace System

variable {env : NegotiateEnv}
variable {s : System env}

/-- The agreement on the cipher in one state of the system. -/
structure CipherAgreement (s : System env) : Prop where
  /-- After an answer with a cipher every byte is an encrypted frame under the keys of its
  exchange, and a connection without such an answer stays in plaintext. -/
  switched : ∀ c, Follows .plaintext (s.conns c).io
  /-- The client of an exchange derives the same keys. -/
  mirrored : ∀ c channel bytes exchange,
    .wrote channel bytes (some (.chacha exchange)) ∈ (s.conns c).io →
      SessionKeys.derive env exchange.handshakeKey exchange.clientNonce exchange.serverNonce true =
        .ok exchange.keys.mirror
  /-- A connection that takes keys finds its own. -/
  own : ∀ c sessionId, (s.conns c).loop = .taking sessionId →
    ∃ stored, s.negotiated sessionId = some stored ∧ stored.conn = c
  /-- Keys in the registry are about to be taken. -/
  collected : ∀ sessionId stored, s.negotiated sessionId = some stored →
    (s.conns stored.conn).loop.collects = some sessionId

/-- The condition on a step: keys are derived only for a connection that will take them, while
no other connection is at the keys of the session, and the response that reports them is
written. -/
def Meets (loops : Nat → ConnLoop) (s : System env) : Action → Prop
  | .line c line nonce _ =>
      ∀ req take, (s.conns c).loop = .reading → (s.conns c).channel = .plaintext →
        env.lineRequest (loops c) (trim line) = some (req, take) →
          env.DerivesKeys s.sessions req nonce →
            take = some req.sessionId ∧ ∀ c', (s.conns c').loop.session ≠ some req.sessionId
  | .frame c frame nonce _ =>
      ∀ req keys, (s.conns c).loop = .reading → (s.conns c).channel = .encrypted keys →
        env.frameRequest keys frame = some req → ¬env.DerivesKeys s.sessions req nonce
  | .write c _ written => (s.conns c).loop.session = none ∨ written
  | _ => True

/-- Every step of a run meets the condition. -/
def AllMeet (loops : Nat → ConnLoop) (s : System env) : List Action → Prop
  | [] => True
  | action :: actions => Meets loops s action ∧ AllMeet loops (step loops s action) actions

/-- What a connection's loop has to do with the channel it has agreed on and the registry. -/
def Settled (negotiated : String → Option Stored) (c : Nat) (conn : Conn env) : Prop :=
  match conn.loop with
  | .reading => conn.channel = conn.agreed
  | .storing reply =>
      conn.channel = conn.agreed ∧ conn.channel = .plaintext ∧
        ∃ sessionId exchange, reply.exchange = some (sessionId, exchange) ∧
          reply.take = some sessionId
  | .writing reply =>
      conn.channel = conn.agreed ∧
        ((reply.exchange = none ∧ reply.take = none) ∨
          conn.channel = .plaintext ∧ ∃ sessionId exchange,
            reply.exchange = some (sessionId, exchange) ∧
              reply.take = some sessionId ∧ negotiated sessionId = some ⟨exchange.keys, c⟩)
  | .taking sessionId =>
      ∃ keys, conn.agreed = .encrypted keys ∧ negotiated sessionId = some ⟨keys, c⟩
  | .closed => True

/-- The invariant of the runs that meet the condition. -/
structure Inv (s : System env) : Prop where
  follows : ∀ c, Follows .plaintext (s.conns c).io
  settled : ∀ c, Settled s.negotiated c (s.conns c)
  alone : ∀ c c' sessionId, (s.conns c).loop.session = some sessionId →
    (s.conns c').loop.session = some sessionId → c = c'
  collected : ∀ sessionId stored, s.negotiated sessionId = some stored →
    (s.conns stored.conn).loop.collects = some sessionId

theorem Inv.agreement (inv : Inv s) : CipherAgreement s where
  switched := inv.follows
  mirrored := fun _ _ _ exchange _ => exchange.client
  own := by
    intro c sessionId taking
    have settled := inv.settled c
    rw [Settled, taking] at settled
    rcases settled with ⟨keys, _, stored⟩
    exact ⟨_, stored, rfl⟩
  collected := inv.collected

theorem inv_start (env : NegotiateEnv) : Inv (start env) where
  follows := fun _ => trivial
  settled := fun _ => rfl
  alone := by
    intro c c' sessionId session
    cases session
  collected := by
    intro sessionId stored found
    cases found

@[simp] theorem setConn_self (s : System env) (c : Nat) (conn : Conn env) :
    (s.setConn c conn).conns c = conn := Function.update_self ..

theorem setConn_other (s : System env) {c c' : Nat} (conn : Conn env) (other : c' ≠ c) :
    (s.setConn c conn).conns c' = s.conns c' := Function.update_of_ne other ..

/-- The registry matters to a connection only at the session that it is at. -/
theorem Settled.congr {negotiated negotiated' : String → Option Stored} {c : Nat}
    {conn : Conn env} (settled : Settled negotiated c conn)
    (same : ∀ sessionId, conn.loop.session = some sessionId →
      negotiated' sessionId = negotiated sessionId) : Settled negotiated' c conn := by
  rw [Settled] at settled ⊢
  cases loop : conn.loop with
  | reading => rwa [loop] at settled
  | storing reply => rwa [loop] at settled
  | closed => trivial
  | writing reply =>
      rw [loop] at settled same
      rcases settled with ⟨agreed, none_stored | ⟨plain, sessionId, exchange, stores, take, stored⟩⟩
      · exact ⟨agreed, .inl none_stored⟩
      · refine ⟨agreed, .inr ⟨plain, sessionId, exchange, stores, take, ?_⟩⟩
        rw [same sessionId (by simp [LoopState.session, stores]), stored]
  | taking sessionId =>
      rw [loop] at settled same
      rcases settled with ⟨keys, agreed, stored⟩
      exact ⟨keys, agreed, by rw [same sessionId rfl, stored]⟩

/-- A step of one connection at its own session in the registry. -/
theorem Inv.update (inv : Inv s) (c : Nat) (conn : Conn env) (negotiated : String → Option Stored)
    (follows : Follows .plaintext conn.io) (settled : Settled negotiated c conn)
    (session : ∀ sessionId, conn.loop.session = some sessionId →
      (s.conns c).loop.session = some sessionId ∨
        ∀ c', (s.conns c').loop.session ≠ some sessionId)
    (others : ∀ c' sessionId, c' ≠ c → (s.conns c').loop.session = some sessionId →
      negotiated sessionId = s.negotiated sessionId)
    (collected : ∀ sessionId stored, negotiated sessionId = some stored →
      (stored.conn = c ∧ conn.loop.collects = some sessionId) ∨
        (stored.conn ≠ c ∧ s.negotiated sessionId = some stored)) :
    Inv { s.setConn c conn with negotiated } where
  follows := by
    intro c'
    by_cases same : c' = c
    · subst same
      rwa [setConn_self]
    · rw [setConn_other s conn same]
      exact inv.follows c'
  settled := by
    intro c'
    by_cases same : c' = c
    · subst same
      rwa [setConn_self]
    · rw [setConn_other s conn same]
      exact (inv.settled c').congr fun sessionId at_session =>
        others c' sessionId same at_session
  alone := by
    have apart : ∀ c' sessionId, c' ≠ c → conn.loop.session = some sessionId →
        (s.conns c').loop.session ≠ some sessionId := by
      intro c' sessionId other mine theirs
      rcases session sessionId mine with before | nobody
      · exact other (inv.alone _ _ _ theirs before)
      · exact nobody c' theirs
    intro c₁ c₂ sessionId first second
    by_cases same₁ : c₁ = c <;> by_cases same₂ : c₂ = c
    · rw [same₁, same₂]
    · rw [same₁, setConn_self] at first
      rw [setConn_other s conn same₂] at second
      exact absurd second (apart c₂ sessionId same₂ first)
    · rw [same₂, setConn_self] at second
      rw [setConn_other s conn same₁] at first
      exact absurd first (apart c₁ sessionId same₁ second)
    · rw [setConn_other s conn same₁] at first
      rw [setConn_other s conn same₂] at second
      exact inv.alone _ _ _ first second
  collected := by
    intro sessionId stored found
    rcases collected sessionId stored found with ⟨same, collects⟩ | ⟨other, before⟩
    · rw [same, setConn_self]
      exact collects
    · rw [setConn_other s conn other]
      exact inv.collected sessionId stored before

/-- A step of one connection that leaves the registry alone. -/
theorem Inv.setConn (inv : Inv s) (c : Nat) (conn : Conn env) (follows : Follows .plaintext conn.io)
    (settled : Settled s.negotiated c conn)
    (session : ∀ sessionId, conn.loop.session = some sessionId →
      (s.conns c).loop.session = some sessionId ∨
        ∀ c', (s.conns c').loop.session ≠ some sessionId)
    (collects : ∀ sessionId, (s.conns c).loop.collects = some sessionId →
      conn.loop.collects = some sessionId) : Inv (s.setConn c conn) := by
  apply inv.update c conn s.negotiated follows settled session fun _ _ _ _ => rfl
  intro sessionId stored found
  have before := inv.collected sessionId stored found
  by_cases same : stored.conn = c
  · rw [same] at before
    exact .inl ⟨same, collects sessionId before⟩
  · exact .inr ⟨same, found⟩

/-! ### The steps -/

variable {loops : Nat → ConnLoop}

/-- A read on the channel that was agreed on. -/
theorem follows_read {conn : Conn env} (follows : Follows .plaintext conn.io)
    (agreed : conn.channel = conn.agreed) (bytes : List UInt8) :
    Follows .plaintext (conn.io ++ [.read conn.channel bytes]) ∧
      (conn.io ++ [IoEvent.read conn.channel bytes]).foldl Channel.after .plaintext =
        conn.agreed := by
  constructor
  · exact follows_append.mpr ⟨follows, agreed⟩
  · rw [List.foldl_append]
    rfl

theorem inv_line (inv : Inv s) (c : Nat) (line : Text) (nonce : List UInt8)
    (other : Except IpcServiceError Json) (meets : Meets loops s (.line c line nonce other)) :
    Inv (step loops s (.line c line nonce other)) := by
  rw [step]
  split
  next reading plain =>
    have settled := inv.settled c
    rw [Settled, reading] at settled
    have read := follows_read (inv.follows c) settled (utf8Encode line)
    rw [plain] at read
    have idle : ∀ sessionId, (s.conns c).loop.collects = some sessionId → False := by
      rw [reading]
      intro sessionId collects
      cases collects
    rw [readLine]
    split
    next blank =>
      refine inv.setConn c _ read.1 ?_ (fun sessionId session => .inl session)
        fun sessionId collects => collects
      rw [Settled, reading]
      exact settled.trans read.2.symm
    next asked =>
      cases stored : (env.lineReply (loops c) s.sessions nonce other (trim line)).exchange with
      | none =>
          have next : (env.lineReply (loops c) s.sessions nonce other (trim line)).next =
              .writing (env.lineReply (loops c) s.sessions nonce other (trim line)) := by
            rw [Reply.next, stored]
          rw [next]
          refine inv.setConn c _ read.1
            ⟨settled.trans read.2.symm, .inl ⟨stored, lineReply_take stored⟩⟩ ?_
            fun sessionId collects => (idle sessionId collects).elim
          intro sessionId session
          rw [LoopState.session, stored] at session
          cases session
      | some pair =>
          rcases pair with ⟨sessionId, exchange⟩
          have next : (env.lineReply (loops c) s.sessions nonce other (trim line)).next =
              .storing (env.lineReply (loops c) s.sessions nonce other (trim line)) := by
            rw [Reply.next, stored]
          rcases lineReply_exchange stored with ⟨req, request, rfl, derives⟩
          rcases meets req _ reading plain request derives with ⟨take, nobody⟩
          rw [next]
          refine inv.setConn c _ read.1
            ⟨settled.trans read.2.symm, plain, _, exchange, stored, take⟩ ?_
            fun sessionId collects => (idle sessionId collects).elim
          intro sessionId session
          rw [LoopState.session, stored] at session
          cases session
          exact .inr nobody
  next => exact inv

theorem inv_frame (inv : Inv s) (c : Nat) (frame nonce : List UInt8)
    (other : Except IpcServiceError Json) (meets : Meets loops s (.frame c frame nonce other)) :
    Inv (step loops s (.frame c frame nonce other)) := by
  rw [step]
  split
  next keys reading encrypted =>
    have settled := inv.settled c
    rw [Settled, reading] at settled
    have read := follows_read (inv.follows c) settled (lengthBytes frame.length ++ frame)
    rw [encrypted] at read
    have idle : ∀ sessionId, (s.conns c).loop.collects = some sessionId → False := by
      rw [reading]
      intro sessionId collects
      cases collects
    rw [readFrame]
    cases replied : env.frameReply keys s.sessions nonce other frame with
    | none =>
        refine inv.setConn c _ read.1 trivial ?_
          fun sessionId collects => (idle sessionId collects).elim
        intro sessionId session
        cases session
    | some reply =>
        rcases frameReply_some replied with ⟨take, derived⟩
        have stored : reply.exchange = none := by
          cases exchange : reply.exchange with
          | none => rfl
          | some pair =>
              rcases derived pair.1 pair.2 exchange with ⟨req, request, derives⟩
              exact absurd derives (meets req keys reading encrypted request)
        have next : reply.next = .writing reply := by rw [Reply.next, stored]
        dsimp only
        rw [next]
        refine inv.setConn c _ read.1
          ⟨settled.trans read.2.symm, .inl ⟨stored, take⟩⟩ ?_
          fun sessionId collects => (idle sessionId collects).elim
        intro sessionId session
        rw [LoopState.session, stored] at session
        cases session
  next => exact inv

theorem inv_store (inv : Inv s) (c : Nat) : Inv (step loops s (.store c)) := by
  rw [step]
  split
  next reply storing =>
    have settled := inv.settled c
    rw [Settled, storing] at settled
    rcases settled with ⟨agreed, plain, sessionId, exchange, stored, take⟩
    have session : (s.conns c).loop.session = some sessionId := by
      rw [storing, LoopState.session, stored]
      rfl
    have collects : (LoopState.writing reply).collects = some sessionId := by
      rw [LoopState.collects, stored]
      rfl
    rw [stored]
    refine inv.update c _ _ (inv.follows c) ?_ ?_ ?_ ?_
    · exact ⟨agreed, .inr ⟨plain, sessionId, exchange, stored, take, Function.update_self ..⟩⟩
    · intro sessionId' at_session
      cases (LoopState.session_of_collects collects).symm.trans at_session
      exact .inl session
    · intro c' sessionId' other at_session
      have apart : sessionId' ≠ sessionId := by
        rintro rfl
        exact other (inv.alone _ _ _ at_session session)
      exact Function.update_of_ne apart ..
    · intro sessionId' entry found
      by_cases same : sessionId' = sessionId
      · subst same
        rw [Function.update_self] at found
        cases found
        exact .inl ⟨rfl, collects⟩
      · rw [Function.update_of_ne same] at found
        refine .inr ⟨?_, found⟩
        intro mine
        have before := inv.collected sessionId' entry found
        rw [mine, storing] at before
        cases before
  next => exact inv

theorem inv_write (inv : Inv s) (c : Nat) (nonce : Except String (List UInt8)) (written : Bool)
    (meets : Meets loops s (.write c nonce written)) :
    Inv (step loops s (.write c nonce written)) := by
  rw [step]
  split
  next reply writing =>
    have settled := inv.settled c
    rw [Settled, writing] at settled
    rcases settled with ⟨agreed, ⟨none_stored, take⟩ | ⟨plain, sessionId, exchange, stored, take,
      registered⟩⟩
    · have idle : ∀ sessionId, (s.conns c).loop.collects = some sessionId → False := by
        rw [writing, LoopState.collects, none_stored]
        intro sessionId collects
        cases collects
      have closes : Inv (s.setConn c { s.conns c with loop := .closed }) := by
        refine inv.setConn c _ (inv.follows c) trivial ?_
          fun sessionId collects => (idle sessionId collects).elim
        intro sessionId session
        cases session
      have plain_answer : ∀ channel : Channel, ∀ bytes,
          channel.after (.wrote channel bytes reply.answer) = channel := by
        intro channel bytes
        rw [Reply.exchange, Option.bind_eq_none_iff] at none_stored
        cases negotiated : reply.negotiated with
        | none => simp [Reply.answer, negotiated, Channel.after]
        | some success =>
            have no_keys := none_stored success negotiated
            rw [Option.map_eq_none_iff] at no_keys
            simp [Reply.answer, negotiated, no_keys, Channel.after]
      rw [writeResponse]
      cases responseBytes env (s.conns c).channel nonce reply.response with
      | none => exact closes
      | some bytes =>
          cases written with
          | false => exact closes
          | true =>
              simp only [if_true, take]
              refine inv.setConn c _ (follows_append.mpr ⟨inv.follows c, agreed⟩) ?_ ?_
                fun sessionId collects => (idle sessionId collects).elim
              · rw [Settled, Conn.agreed, List.foldl_append]
                change (s.conns c).channel = (s.conns c).agreed.after _
                rw [← agreed, plain_answer]
              · intro sessionId session
                cases session
    · have session : (LoopState.writing reply).session = some sessionId := by
        rw [LoopState.session, stored]
        rfl
      have out : written = true := by
        rcases meets with idle | out
        · rw [writing, session] at idle
          cases idle
        · exact out
      have answer : reply.answer = some (.chacha exchange) := by
        rcases exchange_eq_some.mp stored with ⟨negotiated, found, keys, _⟩
        simp [Reply.answer, found, keys]
      rw [writeResponse, plain, responseBytes]
      simp only [out, if_true, take]
      refine inv.setConn c _ (follows_append.mpr ⟨inv.follows c, plain.symm.trans agreed⟩) ?_ ?_ ?_
      · refine ⟨exchange.keys, ?_, registered⟩
        rw [Conn.agreed, List.foldl_append, answer]
        rfl
      · intro sessionId' at_session
        cases at_session
        exact .inl (by rw [writing, session])
      · intro sessionId' collects
        rw [writing] at collects
        exact (LoopState.session_of_collects collects).symm.trans session ▸ rfl
  next => exact inv

theorem inv_take (inv : Inv s) (c : Nat) : Inv (step loops s (.take c)) := by
  rw [step]
  split
  next sessionId taking =>
    have settled := inv.settled c
    rw [Settled, taking] at settled
    rcases settled with ⟨keys, agreed, registered⟩
    have session : (s.conns c).loop.session = some sessionId := by rw [taking]; rfl
    rw [registered]
    refine inv.update c _ _ (inv.follows c) agreed.symm ?_ ?_ ?_
    · intro sessionId' at_session
      cases at_session
    · intro c' sessionId' other at_session
      have apart : sessionId' ≠ sessionId := by
        rintro rfl
        exact other (inv.alone _ _ _ at_session session)
      exact Function.update_of_ne apart ..
    · intro sessionId' entry found
      by_cases same : sessionId' = sessionId
      · subst same
        rw [Function.update_self] at found
        cases found
      · rw [Function.update_of_ne same] at found
        refine .inr ⟨?_, found⟩
        intro mine
        have before := inv.collected sessionId' entry found
        rw [mine, taking] at before
        cases before
        exact same rfl
  next => exact inv

/-- One step that meets the condition keeps the invariant. -/
theorem inv_step (inv : Inv s) (action : Action) (meets : Meets loops s action) :
    Inv (step loops s action) := by
  cases action with
  | register sessionId handshakeKey =>
      exact ⟨inv.follows, inv.settled, inv.alone, inv.collected⟩
  | line c line nonce other => exact inv_line inv c line nonce other meets
  | frame c frame nonce other => exact inv_frame inv c frame nonce other meets
  | store c => exact inv_store inv c
  | write c nonce written => exact inv_write inv c nonce written meets
  | take c => exact inv_take inv c
  | stop c =>
      rw [step]
      split
      next reading =>
        refine inv.setConn c _ (inv.follows c) trivial ?_ ?_
        · intro sessionId session
          cases session
        · intro sessionId collects
          rw [reading] at collects
          cases collects
      next => exact inv

theorem inv_foldl (inv : Inv s) {actions : List Action} (meets : AllMeet loops s actions) :
    Inv (actions.foldl (step loops) s) := by
  induction actions generalizing s with
  | nil => exact inv
  | cons action actions hind => exact hind (inv_step inv action meets.1) meets.2

/-- The part of a run before any of its states meets the condition too. -/
theorem AllMeet.of_append {early later : List Action} (meets : AllMeet loops s (early ++ later)) :
    AllMeet loops s early := by
  induction early generalizing s with
  | nil => trivial
  | cons action early hind => exact ⟨meets.1, hind meets.2⟩

/-- In a run whose steps all meet the condition both ends agree on the cipher in every state. -/
theorem cipherAgreement (env : NegotiateEnv) (loops : Nat → ConnLoop) (actions : List Action)
    (meets : AllMeet loops (start env) actions) (early later : List Action)
    (split : actions = early ++ later) : CipherAgreement (run env loops early) := by
  subst split
  exact (inv_foldl (inv_start env) meets.of_append).agreement

/-! ## One negotiation -/

/-- A `btsp.negotiate` request for the session `s`. -/
def negotiateRequest : Text :=
  ("\x7b\"jsonrpc\":\"2.0\",\"method\":\"btsp.negotiate\",\"params\":\x7b\"session_id\":\"s\"," ++
    "\"preferred_cipher\":\"chacha20-poly1305\",\"client_nonce\":\"AQEBAQEBAQEBAQEB\"," ++
    "\"bond_type\":\"Covalent\"\x7d,\"id\":1\x7d").toList

/-- Its parameters. -/
def negotiateParams : Json :=
  .obj [("bond_type", .str "Covalent"), ("client_nonce", .str "AQEBAQEBAQEBAQEB"),
    ("preferred_cipher", .str "chacha20-poly1305"), ("session_id", .str "s")]

/-- The handshake key of the session and the random bytes of the response. -/
def reefKey : List UInt8 := List.replicate 32 171

def reefNonce : List UInt8 := List.replicate 24 2

/-- The two keys that HKDF-SHA256 expands from these and a client nonce of twelve ones. -/
def reefClientToServer : List UInt8 :=
  [145, 135, 127, 61, 94, 100, 165, 13, 92, 99, 126, 199, 242, 224, 84, 197,
    74, 199, 139, 226, 191, 49, 223, 118, 103, 20, 180, 69, 10, 19, 247, 190]

def reefServerToClient : List UInt8 :=
  [113, 137, 10, 245, 239, 71, 138, 241, 1, 203, 251, 139, 18, 37, 118, 146,
    200, 9, 163, 49, 203, 66, 32, 85, 247, 229, 109, 91, 33, 3, 64, 9]

/-- The parsers' and HKDF's results for that request, with the handshake key and random bytes of
the run below. -/
def reefNegotiate : NegotiateEnv where
  mode := .production "reef"
  serde :=
    { fromStr := fun text =>
        if text = negotiateRequest then
          .ok (.obj [("id", .nat 1), ("jsonrpc", .str "2.0"), ("method", .str "btsp.negotiate"),
            ("params", negotiateParams)])
        else .error "expected value at line 1 column 1"
      requestFromStr := fun text =>
        if text = negotiateRequest then .ok ⟨"2.0", "btsp.negotiate", negotiateParams, .nat 1⟩
        else .error "expected value at line 1 column 1" }
  requestError := fun _ => "missing field"
  base64Decode := fun text =>
    if text = "AQEBAQEBAQEBAQEB" then .ok (List.replicate 12 1) else .error "Invalid padding"
  hkdf := fun salt key info =>
    if salt = List.replicate 12 1 ++ reefNonce ∧ key = reefKey then
      if info = "btsp-session-v1-c2s" then .ok reefClientToServer else .ok reefServerToClient
    else .error "invalid number of blocks, too large output"
  encrypt := fun _ _ _ => none
  decrypt := fun _ _ _ => none

/-- The session is registered and the first connection negotiates, up to the answer. -/
def negotiates : List Action :=
  [.register "s" (some reefKey), .line 0 negotiateRequest reefNonce (.ok .null), .store 0,
    .write 0 (.ok []) true]

theorem not_cipherAgreement (c : Nat) (strays : ¬Follows .plaintext (s.conns c).io) :
    ¬CipherAgreement s :=
  fun agreement => strays (agreement.switched c)

/-- The listeners' loop says that it encrypts and reads the next line in plaintext. -/
theorem newline_loop_stays_plaintext :
    ¬CipherAgreement (run reefNegotiate (fun _ => .newline)
      (negotiates ++ [.line 0 "x".toList [] (.ok .null)])) :=
  not_cipherAgreement 0 (by decide +kernel)

/-- The loop for a connection with a session switches to the keys of the exchange. -/
theorem cipherAgreement_negotiates :
    CipherAgreement (run reefNegotiate (fun _ => .handle (some "s"))
        (negotiates ++ [.take 0])) ∧
      ((run reefNegotiate (fun _ => .handle (some "s"))
        (negotiates ++ [.take 0])).conns 0).channel =
          .encrypted ⟨reefServerToClient, reefClientToServer⟩ := by
  have meets : AllMeet (fun _ => .handle (some "s")) (start reefNegotiate)
      (negotiates ++ [.take 0]) := by
    refine ⟨trivial, ?_, trivial, .inr rfl, trivial, trivial⟩
    intro req take reading plain asked derives
    have request : reefNegotiate.lineRequest (.handle (some "s")) (trim negotiateRequest) =
        some (⟨"s", "chacha20-poly1305", "AQEBAQEBAQEBAQEB"⟩, some "s") := by
      decide +kernel
    rw [request] at asked
    cases asked
    exact ⟨rfl, fun c' session => by cases session⟩
  constructor
  · apply cipherAgreement reefNegotiate (fun _ => .handle (some "s")) (negotiates ++ [.take 0])
      meets _ []
    rw [List.append_nil]
  · decide +kernel

end System

end CoralReef
