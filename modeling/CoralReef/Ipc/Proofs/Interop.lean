import CoralReef.Ipc.Handshake
import CoralReef.Ipc.Proofs.Guard

/-!
# The handshake of the repository's own client

The client's hello does not contain the two words that the server looks for, whatever the
provider's key is, so the server takes it for a JSON-RPC request and no handshake succeeds.
-/

open List

namespace CoralReef

namespace Json

/-! ## Quotation marks in a compact text -/

/-- The texts after the quotation marks that follow one of the characters. -/
def afterQuotes (before : List Char) (last : Char) : List Char → List (List Char)
  | [] => []
  | c :: text =>
      if c = quoteMark ∧ last ∈ before then text :: afterQuotes before c text
      else afterQuotes before c text

theorem mem_afterQuotes (before : List Char) {c : Char} (ends : c ∈ before) (last : Char)
    (early late : List Char) :
    late ∈ afterQuotes before last (early ++ c :: quoteMark :: late) := by
  induction early generalizing last with
  | nil =>
      have found : late ∈ afterQuotes before c (quoteMark :: late) := by
        rw [afterQuotes, if_pos ⟨rfl, ends⟩]
        exact mem_cons_self
      rw [nil_append, afterQuotes]
      split
      · exact mem_cons_of_mem _ found
      · exact found
  | cons d early hind =>
      rw [cons_append, afterQuotes]
      split
      · exact mem_cons_of_mem _ (hind d)
      · exact hind d

/-- Text without quotation marks. -/
theorem afterQuotes_append (before : List Char) {text : List Char} (none : quoteMark ∉ text)
    (after : List Char) (last : Char) :
    ∃ last', afterQuotes before last (text ++ after) = afterQuotes before last' after := by
  induction text generalizing last with
  | nil => exact ⟨last, rfl⟩
  | cons c text hind =>
      rw [mem_cons, not_or] at none
      rw [cons_append, afterQuotes, if_neg fun facts => none.1 facts.1.symm]
      exact hind none.2 c

theorem quoteMark_notMem_escapeChar {c : Char} (other : c ≠ quoteMark) :
    quoteMark ∉ escapeChar c := by
  rw [escapeChar, if_neg other]
  split_ifs with is_backslash is_8 is_c is_feed is_return is_tab is_control
  all_goals try (simp [backslash, quoteMark]; done)
  · have digit : ∀ d < 16, hexDigit d ≠ quoteMark := by decide
    have upper := digit (c.toNat / 16) (by omega)
    have lower := digit (c.toNat % 16) (by omega)
    simp [backslash, upper.symm, lower.symm]
    simp [quoteMark]
  · simpa using Ne.symm other

/-- A quotation mark inside an escaped string follows a backslash. -/
theorem afterQuotes_escape (before : List Char) (words : backslash ∉ before)
    (text after : List Char) (last : Char) :
    ∃ last', afterQuotes before last (text.flatMap escapeChar ++ after) =
      afterQuotes before last' after := by
  induction text generalizing last with
  | nil => exact ⟨last, rfl⟩
  | cons c text hind =>
      rw [flatMap_cons, append_assoc]
      by_cases mark : c = quoteMark
      · have escaped : escapeChar c = [backslash, quoteMark] := if_pos mark
        rw [escaped, cons_append, cons_append, nil_append, afterQuotes,
          if_neg (by simp [backslash, quoteMark]), afterQuotes,
          if_neg fun facts => words facts.2]
        exact hind quoteMark
      · rcases afterQuotes_append before (quoteMark_notMem_escapeChar mark)
          (text.flatMap escapeChar ++ after) last with ⟨middle, same⟩
        rw [same]
        exact hind middle

end Json

open Json

/-- A `ClientHello` up to the key of the provider. -/
def helloStart : Text := '\x7b' :: quote "client_ephemeral_pub" ++ [':', quoteMark]

/-- A `ClientHello` after the closing quotation mark of the key. -/
def helloEnd : Text :=
  ',' :: (quote "type" ++ ':' :: quote "ClientHello" ++ ',' :: (quote "version" ++ ':' ::
    (nat 1).compact)) ++ ['\x7d']

theorem compact_clientHello (key : String) :
    (ClientEnv.clientHello key).compact =
      helloStart ++ (key.toList.flatMap escapeChar ++ quoteMark :: helloEnd) := by
  have value : compact (.str key) = quoteMark :: key.toList.flatMap escapeChar ++ [quoteMark] := by
    rw [compact, quote]
  rw [ClientEnv.clientHello, compact, compactMembers, compactMembers, compactMembers, value,
    compact, helloStart, helloEnd]
  simp only [append_assoc, cons_append, nil_append]

/-- The only quotation mark of a hello that can close a word of the server's test. -/
theorem afterQuotes_clientHello (key : String) :
    ∀ after ∈ afterQuotes ['l', 'p'] ' ' (ClientEnv.clientHello key).compact,
      after = helloEnd := by
  have start (rest : Text) : afterQuotes ['l', 'p'] ' ' (helloStart ++ rest) =
      afterQuotes ['l', 'p'] quoteMark rest := by
    rfl
  have none_later : afterQuotes ['l', 'p'] quoteMark helloEnd = [] := by decide
  rcases afterQuotes_escape ['l', 'p'] (by decide) key.toList (quoteMark :: helloEnd)
    quoteMark with ⟨last, same⟩
  rw [compact_clientHello, start, same, afterQuotes, none_later]
  split
  · simp
  · simp

/-- No hello of the client looks like one to the server. -/
theorem lineLooks_clientHello (key : String) :
    lineLooksLikeBtspClientHello (ClientEnv.clientHello key).compact = false := by
  by_contra looks
  rw [Bool.not_eq_false, lineLooksLikeBtspClientHello, Bool.and_eq_true, decide_eq_true_iff,
    decide_eq_true_iff] at looks
  rcases looks with ⟨⟨early, late, protocol⟩, ⟨early', late', btsp⟩⟩
  have first : quote "protocol" = quoteMark :: "protoco".toList ++ ['l', quoteMark] := by
    decide
  have second : quote "btsp" = quoteMark :: "bts".toList ++ ['p', quoteMark] := by
    decide
  have protocol_end : late = helloEnd := by
    apply afterQuotes_clientHello key
    rw [← protocol, first]
    simpa using mem_afterQuotes ['l', 'p'] (c := 'l') (by simp) ' '
      (early ++ quoteMark :: "protoco".toList) late
  have btsp_end : late' = helloEnd := by
    apply afterQuotes_clientHello key
    rw [← btsp, second]
    simpa using mem_afterQuotes ['l', 'p'] (c := 'p') (by simp) ' '
      (early' ++ quoteMark :: "bts".toList) late'
  have both := protocol.trans btsp.symm
  rw [protocol_end, btsp_end, append_cancel_right_eq, first, second] at both
  have lasts := congrArg (fun text => text.dropLast.getLast?) both
  simp [dropLast_append_of_ne_nil] at lasts

/-! ## Runs of both ends -/

namespace Handshake

variable (server : ServerEnv) {client : ClientEnv} {opened : ClientEnv.Opened}

/-- What the two ends of an interoperable handshake do in every run. -/
structure Interoperates (server : ServerEnv) (client : ClientEnv) : Prop where
  /-- The server takes the hello for the start of a handshake. -/
  recognised : ∀ state, Reachable server client state → state.server = .fresh →
    ∀ hello ∈ state.toServer, lineLooksLikeBtspClientHello hello
  /-- After the hello the server is never in plain JSON-RPC. -/
  guarded : ∀ state, Reachable server client state →
    ∀ count, state.server ≠ .serving none count
  /-- A line that an end waits for is one that the other sends. -/
  proceeds : ∀ state, Reachable server client state →
    (∃ result, state.client = .returned result) ∨ ∃ next, Step server client state next
  /-- The ends agree on the session. -/
  agrees : ∀ state, Reachable server client state → ∀ session,
    state.client = .returned (.ok session) →
      ∃ count, state.server = .serving (some session.sessionId) count
  /-- After a verification the client does not fail. -/
  succeeds : ∀ state, Reachable server client state → ∀ sessionId count error,
    state.server = .serving (some sessionId) count → state.client ≠ .returned (.error error)
  /-- Without a verification both ends fail. -/
  fails : ∀ state, Reachable server client state → state.server = .closed →
    ∀ session, state.client ≠ .returned (.ok session)

/-- The hello that the client opens with. -/
theorem openHandshake_hello {hello : Json} (created : client.openHandshake = .ok (hello, opened)) :
    hello = ClientEnv.clientHello opened.clientEphemeralPub := by
  rw [ClientEnv.openHandshake] at created
  cases asked : client.providerRpc "btsp.session.create" ClientEnv.createParams with
  | error error =>
      rw [asked] at created
      cases created
  | ok result =>
      rw [asked] at created
      dsimp only [bind, Except.bind] at created
      cases pub : result.getStr "client_ephemeral_pub" with
      | none =>
          rw [pub] at created
          cases created
      | some clientEphemeralPub =>
          rw [pub] at created
          dsimp only at created
          cases sid : result.getStr "session_id" with
          | none =>
              rw [sid] at created
              cases created
          | some sessionRef =>
              rw [sid] at created
              cases created
              rfl

/-- Without a session the client says nothing. -/
theorem Reachable.silent {server : ServerEnv} {error : BtspClientError}
    (created : client.openHandshake = .error error) {state : Handshake}
    (reached : Reachable server client state) :
    state = initial ∨ ∃ final, (final = .fresh ∨ final = .closed) ∧
      state = ⟨.returned (.error error), final, [], []⟩ := by
  induction reached with
  | start => exact .inl rfl
  | step reached taken hind =>
      rcases hind with rfl | ⟨final, quiet, rfl⟩
      · cases taken with
        | opens fresh same =>
            rw [created] at same
            cases same
        | opensNot fresh same =>
            rw [created] at same
            cases same
            exact .inr ⟨.fresh, .inl rfl, rfl⟩
        | responds waits | respondsNot waits | completes waits | broken waits => cases waits
        | receives arrived => cases arrived
        | hangsUp failed => cases failed
      · cases taken with
        | opens fresh => cases fresh
        | opensNot fresh => cases fresh
        | responds waits | respondsNot waits | completes waits | broken waits => cases waits
        | receives arrived => cases arrived
        | hangsUp failed => exact .inr ⟨.closed, .inr rfl, rfl⟩

/-- A client without a session fails before the handshake starts. -/
theorem interoperates_of_error {server : ServerEnv} {error : BtspClientError}
    (created : client.openHandshake = .error error) :
    Interoperates server client where
  recognised := by
    intro state reached fresh hello waiting
    rcases reached.silent created with rfl | ⟨final, quiet, rfl⟩ <;> cases waiting
  guarded := by
    intro state reached count serving
    rcases reached.silent created with rfl | ⟨final, rfl | rfl, rfl⟩ <;> cases serving
  proceeds := by
    intro state reached
    rcases reached.silent created with rfl | ⟨final, quiet, rfl⟩
    · exact .inr ⟨_, .opensNot rfl created⟩
    · exact .inl ⟨_, rfl⟩
  agrees := by
    intro state reached session returned
    rcases reached.silent created with rfl | ⟨final, quiet, rfl⟩ <;> cases returned
  succeeds := by
    intro state reached sessionId count failure serving
    rcases reached.silent created with rfl | ⟨final, rfl | rfl, rfl⟩ <;> cases serving
  fails := by
    intro state reached closed session returned
    rcases reached.silent created with rfl | ⟨final, quiet, rfl⟩ <;> cases returned

/-- The server does not recognise a client that has said hello. -/
theorem not_interoperates {hello : Json} (created : client.openHandshake = .ok (hello, opened)) :
    ¬Interoperates server client := by
  intro works
  have said : Reachable server client ⟨.opened opened, .fresh, [hello.compact], []⟩ :=
    Reachable.start.step (.opens rfl created)
  have looks := works.recognised _ said rfl hello.compact (by simp)
  rw [openHandshake_hello created, lineLooks_clientHello] at looks
  cases looks

/-- Whatever session the providers give the client and the server, their handshake does not
work. -/
theorem interoperates_iff (server : ServerEnv) (client : ClientEnv) :
    Interoperates server client ↔
      ∀ hello opened, client.openHandshake ≠ .ok (hello, opened) := by
  constructor
  · intro works hello opened created
    exact not_interoperates server created works
  · intro never
    cases created : client.openHandshake with
    | error error => exact interoperates_of_error created
    | ok pair => exact absurd created (never pair.1 pair.2)

/-! ## One pair of providers -/

/-- What a provider answers a method on the side of the server or of the client. -/
def reefAnswer (client : Bool) (method : String) : Json :=
  .obj [("result", match client, method with
    | false, "btsp.session.create" => .obj [("challenge", .str "c"),
        ("server_ephemeral_pub", .str "p"), ("session_id", .str "s")]
    | false, _ => .obj [("verified", .bool true)]
    | true, "btsp.session.create" => .obj [("client_ephemeral_pub", .str "k"),
        ("session_id", .str "s")]
    | true, _ => .obj [("client_response", .str "r")])]

/-- The provider of both sides. -/
def reefProvider (client : Bool) : SecurityProvider where
  endpoint := "unix:///run/biomeos/crypto.sock"
  exchange := fun method _ => .ok (some (reefAnswer client method).compact)

/-- The parser's results for the answers of the provider. -/
def reefSerde (client : Bool) : SerdeJson where
  fromStr := fun text =>
    (["btsp.session.create", "btsp.session.verify"].find? fun method =>
      (reefAnswer client method).compact = text).elim
        (.error "expected value at line 1 column 1") fun method => .ok (reefAnswer client method)
  requestFromStr := fun _ => .error "missing field at line 1 column 66"

/-- With providers that vouch for both sides the client is still not recognised. -/
theorem reefClient_not_recognised :
    ¬Interoperates
      { reefServer with provider := some (reefProvider false), serde := reefSerde false }
      ⟨reefProvider true, reefSerde true⟩ := by
  have created : ClientEnv.openHandshake ⟨reefProvider true, reefSerde true⟩ =
      .ok (ClientEnv.clientHello "k", ⟨"k", "s"⟩) := by
    have line : (reefSerde true).fromStr (reefAnswer true "btsp.session.create").compact =
        .ok (reefAnswer true "btsp.session.create") := by
      simp only [reefSerde, List.find?_cons, decide_true, Option.elim_some]
    simp only [ClientEnv.openHandshake, ClientEnv.providerRpc, reefProvider,
      ClientEnv.readJsonLine, line]
    rfl
  exact not_interoperates _ created

end Handshake

end CoralReef
