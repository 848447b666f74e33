import CoralReef.Ipc.UnixJsonrpc

/-!
# Transport endpoints

`transport/mod.rs`: the text that an endpoint is shown as and the bind strings that are read as one.
A host with a colon is shown in brackets, which are not taken off when it is read.
-/

open List

namespace CoralReef

/-- `TransportEndpoint`. -/
inductive TransportEndpoint where
  | Uds (path : Text)
  | Tcp (host : Text) (port : UInt16)
  | MeshRelay (peerId capability : Text)
  deriving DecidableEq

/-- `u16::from_str`: decimal digits, after one plus sign at most. -/
def parseU16 (text : Text) : Option UInt16 :=
  let digits := (stripStart ['+'] text).getD text
  let value := Nat.ofDigitChars 10 digits 0
  if digits ≠ [] ∧ digits.all Char.isDigit ∧ value < 65536 then some (UInt16.ofNat value) else none

/-- `str::rsplit_once` with a character. -/
def rsplitOnce (separator : Char) : Text → Option (Text × Text)
  | [] => none
  | c :: text =>
      match rsplitOnce separator text with
      | some (before, after) => some (c :: before, after)
      | none => if c = separator then some ([], text) else none

namespace TransportEndpoint

variable {endpoint : TransportEndpoint}

/-- A port in decimal. -/
def portText (port : UInt16) : Text := Nat.toDigits 10 port.toNat

/-- `display_uri`. -/
def displayUri : TransportEndpoint → Text
  | Uds path => "unix://".toList ++ path
  | Tcp host port =>
      if ':' ∈ host then "tcp://[".toList ++ host ++ "]:".toList ++ portText port
      else "tcp://".toList ++ host ++ ":".toList ++ portText port
  | MeshRelay peerId capability => "mesh://".toList ++ peerId ++ "/".toList ++ capability

/-- `parse_host_port`. -/
def parseHostPort (text : Text) : Option TransportEndpoint := do
  let (host, portStr) ← rsplitOnce ':' text
  let port ← parseU16 portStr
  if host = [] then none else return Tcp host port

/-- `from_bind_string`. -/
def fromBindString (bind : Text) : Option TransportEndpoint :=
  let b := trim bind
  if b = [] then none
  else
    match stripStart "unix://".toList b with
    | some rest => if rest = [] then none else some (Uds rest)
    | none =>
        match stripStart "tcp://".toList b with
        | some rest => parseHostPort rest
        | none => if ['/'].isPrefixOf b then some (Uds b) else parseHostPort b

/-! ## Reading texts -/

theorem unix_toList : "unix://".toList = 'u' :: "nix://".toList := by decide

theorem tcp_toList : "tcp://".toList = 't' :: "cp://".toList := by decide

theorem tcpBracket_toList : "tcp://[".toList = "tcp://".toList ++ ['['] := by decide

theorem bracketColon_toList : "]:".toList = [']', ':'] := by decide

theorem colon_toList : ":".toList = [':'] := by decide

theorem stripStart_append (start text : Text) : stripStart start (start ++ text) = some text := by
  rw [stripStart, if_pos ( isPrefixOf_iff_prefix.mpr (prefix_append start text)),
    drop_left]

theorem stripStart_eq_some {start text rest : Text} (found : stripStart start text = some rest) :
    text = start ++ rest := by
  rw [stripStart] at found
  split at found
  · next isPrefix =>
    rcases isPrefixOf_iff_prefix.mp isPrefix with ⟨after, rfl⟩
    rw [drop_left] at found
    rw [Option.some.inj found]
  · cases found

theorem stripStart_of_ne {first first' : Char} (apart : first ≠ first') (start text : Text) :
    stripStart (first :: start) (first' :: text) = none := by
  rw [stripStart, if_neg]
  simp [List.isPrefixOf, apart]

/-- A text that ends in no white space. -/
def EndsBare (text : Text) : Prop := ∀ c, text.getLast? = some c → isWhitespace c = false

theorem endsBare_trim (text : Text) : EndsBare (trim text) := by
  intro c last
  have nonempty : trim text ≠ [] := by
    rintro empty
    rw [empty] at last
    cases last
  rw [List.getLast?_eq_some_getLast nonempty, Option.some.injEq] at last
  have bare := rdropWhile_last_not isWhitespace (text.dropWhile isWhitespace) nonempty
  rw [← last, Bool.eq_false_iff]
  exact bare

theorem EndsBare.append {text : Text} (bare : EndsBare text) (nonempty : text ≠ []) (front : Text) :
    EndsBare (front ++ text) := by
  intro c last
  rw [List.getLast?_append_of_ne_nil front nonempty] at last
  exact bare c last

theorem EndsBare.right {front text : Text} (bare : EndsBare (front ++ text)) : EndsBare text := by
  intro c last
  have nonempty : text ≠ [] := by
    rintro rfl
    cases last
  exact bare c (by rw [List.getLast?_append_of_ne_nil front nonempty, last])

theorem trim_of_bare {first : Char} {text : Text} (start : isWhitespace first = false)
    (bare : EndsBare (first :: text)) : trim (first :: text) = first :: text := by
  have same : (first :: text).dropWhile isWhitespace = first :: text :=
    dropWhile_cons_of_neg (by simp [start])
  rw [trim, same]
  have shape := dropLast_append_getLast (cons_ne_nil first text)
  have last := bare _ (List.getLast?_eq_some_getLast (cons_ne_nil first text))
  rw [← shape]
  exact rdropWhile_concat_neg _ _ _ (by simp [last])

theorem rsplitOnce_eq_none {separator : Char} {text : Text} :
    rsplitOnce separator text = none ↔ separator ∉ text := by
  induction text with
  | nil => simp [rsplitOnce]
  | cons c text ih =>
      rw [rsplitOnce, mem_cons, not_or]
      cases rest : rsplitOnce separator text with
      | none => simp [ih.mp rest, eq_comm]
      | some pair =>
          have absent : ¬ separator ∉ text := fun absent => by simp [ih.mpr absent] at rest
          simp [absent]

theorem rsplitOnce_append {separator : Char} {after : Text} (absent : separator ∉ after)
    (before : Text) :
    rsplitOnce separator (before ++ separator :: after) = some (before, after) := by
  induction before with
  | nil =>
      rw [nil_append, rsplitOnce, rsplitOnce_eq_none.mpr absent]
      exact if_pos rfl
  | cons c before ih => rw [cons_append, rsplitOnce, ih]

theorem rsplitOnce_eq_some {separator : Char} {text before after : Text}
    (found : rsplitOnce separator text = some (before, after)) :
    text = before ++ separator :: after ∧ separator ∉ after := by
  induction text generalizing before with
  | nil => cases found
  | cons c text ih =>
      rw [rsplitOnce] at found
      cases rest : rsplitOnce separator text with
      | some pair =>
          rw [rest] at found
          cases found
          rcases ih rest with ⟨shape, absent⟩
          exact ⟨congrArg (c :: ·) shape, absent⟩
      | none =>
          rw [rest] at found
          dsimp only at found
          split at found
          · next same =>
            cases found
            rw [same]
            exact ⟨rfl, rsplitOnce_eq_none.mp rest⟩
          · cases found

/-! ## Ports -/

theorem isDigit_of_mem_portText {port : UInt16} {c : Char} (member : c ∈ portText port) :
    c.isDigit :=
  Nat.isDigit_of_mem_toDigits (by decide) (by decide) member

theorem portText_ne_nil (port : UInt16) : portText port ≠ [] := Nat.toDigits_ne_nil

theorem not_isDigit_mem (port : UInt16) {c : Char} (other : c.isDigit = false) :
    c ∉ portText port := by
  intro member
  have digit := isDigit_of_mem_portText member
  rw [other] at digit
  cases digit

/-- A port is read from its text. -/
theorem parseU16_portText (port : UInt16) : parseU16 (portText port) = some port := by
  have unsigned : stripStart ['+'] (portText port) = none := by
    cases shape : portText port with
    | nil => exact absurd shape (portText_ne_nil port)
    | cons c text =>
        refine stripStart_of_ne ?_ [] text
        rintro rfl
        exact not_isDigit_mem port (by decide) (shape ▸ mem_cons_self)
  have value : Nat.ofDigitChars 10 (portText port) 0 = port.toNat := Nat.ofDigitChars_ten_toDigits
  have digits : (portText port).all Char.isDigit = true :=
    all_eq_true.mpr fun c member => isDigit_of_mem_portText member
  rw [parseU16, unsigned, Option.getD_none]
  simp only [value, digits, portText_ne_nil port, ne_eq, not_false_eq_true, true_and,
    port.toNat_lt, if_true, UInt16.ofNat_toNat]

theorem portText_endsBare (port : UInt16) : EndsBare (portText port) := by
  intro c last
  have digit := isDigit_of_mem_portText (mem_of_getLast? last)
  simp only [Char.isDigit, Bool.and_eq_true, decide_eq_true_eq] at digit
  have low : 48 ≤ c.toNat := digit.1
  have high : c.toNat ≤ 57 := digit.2
  simp only [isWhitespace, Bool.or_eq_false_iff, Bool.and_eq_false_iff, decide_eq_false_iff_not]
  omega

/-- An address and a port are read apart at the last colon. -/
theorem parseHostPort_append {host : Text} (nonempty : host ≠ []) (port : UInt16) :
    parseHostPort (host ++ ':' :: portText port) = some (Tcp host port) := by
  have noColon : ':' ∉ portText port := not_isDigit_mem port (by decide)
  simp [parseHostPort, rsplitOnce_append noColon host, parseU16_portText, nonempty]

/-! ## Endpoints -/

/-- The endpoints that a display can be read back to. -/
def Shown : TransportEndpoint → Prop
  | Uds path => path ≠ [] ∧ EndsBare path
  | Tcp host _ => host ≠ []
  | MeshRelay _ _ => False

/-- The endpoint is not a TCP endpoint whose host has a colon. -/
def HostWithoutColon : TransportEndpoint → Prop
  | Tcp host _ => ':' ∉ host
  | Uds _ | MeshRelay _ _ => True

/-- What is shown of a TCP endpoint is read from behind the scheme. -/
theorem fromBindString_tcp {rest : Text} (bare : EndsBare rest) (nonempty : rest ≠ []) :
    fromBindString ("tcp://".toList ++ rest) = parseHostPort rest := by
  have trimmed : trim ("tcp://".toList ++ rest) = "tcp://".toList ++ rest := by
    have whole := bare.append nonempty "tcp://".toList
    rw [tcp_toList] at whole ⊢
    exact trim_of_bare (by decide) whole
  have notUnix : stripStart "unix://".toList ("tcp://".toList ++ rest) = none := by
    rw [unix_toList, tcp_toList]
    exact stripStart_of_ne (by decide) _ _
  have whole : "tcp://".toList ++ rest ≠ [] := append_ne_nil_of_right_ne_nil _ nonempty
  rw [fromBindString, trimmed]
  simp only [whole, if_false, notUnix, stripStart_append]

/-- What is shown of a socket is read as its path. -/
theorem fromBindString_unix {path : Text} (bare : EndsBare path) (nonempty : path ≠ []) :
    fromBindString ("unix://".toList ++ path) = some (Uds path) := by
  have trimmed : trim ("unix://".toList ++ path) = "unix://".toList ++ path := by
    have whole := bare.append nonempty "unix://".toList
    rw [unix_toList] at whole ⊢
    exact trim_of_bare (by decide) whole
  have whole : "unix://".toList ++ path ≠ [] := append_ne_nil_of_right_ne_nil _ nonempty
  rw [fromBindString, trimmed]
  simp only [whole, stripStart_append, nonempty, if_false]

theorem displayUri_tcp (host : Text) (port : UInt16) : displayUri (Tcp host port) =
    if ':' ∈ host then "tcp://[".toList ++ host ++ "]:".toList ++ portText port
    else "tcp://".toList ++ host ++ ":".toList ++ portText port := rfl

/-- A host without a colon is read as it is, a host with one in its brackets. -/
theorem fromBindString_displayUri_tcp {host : Text} (nonempty : host ≠ []) (port : UInt16) :
    fromBindString (displayUri (Tcp host port)) =
      some (Tcp (if ':' ∈ host then '[' :: host ++ [']'] else host) port) := by
  have tail : EndsBare (':' :: portText port) :=
    (portText_endsBare port).append (portText_ne_nil port) [':']
  have read : ∀ {text : Text}, text ≠ [] →
      fromBindString ("tcp://".toList ++ (text ++ ':' :: portText port)) = some (Tcp text port) := by
    intro text nonempty
    rw [fromBindString_tcp (tail.append (cons_ne_nil _ _) _) (by simp),
      parseHostPort_append nonempty]
  rw [displayUri_tcp]
  split
  · have bracketed : '[' :: host ++ [']'] ≠ [] := cons_ne_nil _ _
    rw [← read bracketed, tcpBracket_toList, bracketColon_toList]
    simp only [append_assoc, cons_append, nil_append]
  · rw [← read nonempty, colon_toList]
    simp only [append_assoc, cons_append, nil_append]

/-- Reading what is shown gives the endpoint back exactly if its host has no colon. -/
theorem fromBindString_displayUri (shown : endpoint.Shown) :
    fromBindString endpoint.displayUri = some endpoint ↔ endpoint.HostWithoutColon := by
  cases endpoint with
  | MeshRelay => exact shown.elim
  | Uds path => exact iff_of_true (fromBindString_unix shown.2 shown.1) trivial
  | Tcp host port =>
      rw [fromBindString_displayUri_tcp shown, HostWithoutColon, Option.some.injEq, Tcp.injEq]
      by_cases colon : ':' ∈ host
      · rw [if_pos colon]
        refine iff_of_false ?_ (not_not.mpr colon)
        rintro ⟨same, _⟩
        have lengths := congrArg List.length same
        simp only [cons_append, length_cons, length_append, length_nil] at lengths
        omega
      · rw [if_neg colon]
        exact iff_of_true ⟨rfl, rfl⟩ colon

/-- The part of a bind string that is read as an address and a port, when it is not a path. -/
def hostPort (bind : Text) : Option Text :=
  match stripStart "unix://".toList (trim bind) with
  | some _ => none
  | none =>
      match stripStart "tcp://".toList (trim bind) with
      | some rest => some rest
      | none => if ['/'].isPrefixOf (trim bind) then none else some (trim bind)

/-- No colon but the one before the port. -/
def OneColon (bind : Text) : Prop := ∀ text, hostPort bind = some text → text.count ':' ≤ 1

theorem parseHostPort_eq_some {text : Text} (found : parseHostPort text = some endpoint) :
    ∃ host port, endpoint = Tcp host port ∧ host ≠ [] ∧ text.count ':' = host.count ':' + 1 := by
  rw [parseHostPort] at found
  cases split : rsplitOnce ':' text with
  | none => simp [split] at found
  | some pair =>
      rcases pair with ⟨host, portStr⟩
      rcases rsplitOnce_eq_some split with ⟨rfl, absent⟩
      simp only [split, Option.bind_eq_bind, Option.bind_some] at found
      cases parsed : parseU16 portStr with
      | none => simp [parsed] at found
      | some port =>
          simp only [parsed, Option.bind_some] at found
          split at found
          · cases found
          · next nonempty =>
            cases found
            refine ⟨host, port, rfl, nonempty, ?_⟩
            rw [count_append, count_cons_self, count_eq_zero_of_not_mem absent]

/-- What a bind string is read as can be shown, and its host has a colon exactly if the string has
one more than the one before the port. -/
theorem fromBindString_shown {bind : Text} (found : fromBindString bind = some endpoint) :
    endpoint.Shown ∧ (endpoint.HostWithoutColon ↔ OneColon bind) := by
  have bare := endsBare_trim bind
  have address : ∀ {text}, hostPort bind = some text → parseHostPort text = some endpoint →
      endpoint.Shown ∧ (endpoint.HostWithoutColon ↔ OneColon bind) := by
    intro text isAddress parsed
    rcases parseHostPort_eq_some parsed with ⟨host, port, rfl, nonempty, colons⟩
    refine ⟨nonempty, ?_⟩
    rw [HostWithoutColon, OneColon, isAddress, ← count_eq_zero]
    constructor
    · intro none text same
      cases same
      omega
    · intro few
      have := few text rfl
      omega
  have path : ∀ {path}, hostPort bind = none → endpoint = Uds path → path ≠ [] → EndsBare path →
      endpoint.Shown ∧ (endpoint.HostWithoutColon ↔ OneColon bind) := by
    rintro path isPath rfl nonempty bare
    refine ⟨⟨nonempty, bare⟩, iff_of_true trivial ?_⟩
    intro text same
    rw [isPath] at same
    cases same
  rw [fromBindString] at found
  split at found
  · cases found
  · next nonempty =>
    cases unix : stripStart "unix://".toList (trim bind) with
    | some rest =>
        rw [unix] at found
        dsimp only at found
        split at found
        · cases found
        · next nonempty =>
          cases found
          refine path (by rw [hostPort, unix]) rfl nonempty ?_
          rw [stripStart_eq_some unix] at bare
          exact bare.right
    | none =>
        rw [unix] at found
        dsimp only at found
        cases tcp : stripStart "tcp://".toList (trim bind) with
        | some rest =>
            rw [tcp] at found
            exact address (by rw [hostPort, unix, tcp]) found
        | none =>
            rw [tcp] at found
            dsimp only at found
            split at found
            · next slash =>
              cases found
              exact path (by rw [hostPort, unix, tcp]; exact if_pos slash) rfl nonempty bare
            · next noSlash =>
              exact address (by rw [hostPort, unix, tcp]; exact if_neg noSlash) found

/-! ## Round trips -/

/-- A UDS endpoint with a path or a TCP endpoint with a host, without white space around it. -/
def Tidy : TransportEndpoint → Prop
  | Uds text | Tcp text _ => text ≠ [] ∧ trim text = text
  | MeshRelay _ _ => False

/-- An endpoint is read back from its display, and what a bind string is read as from the display of
that, exactly if the host has no colon. -/
theorem bindString_roundTrip (endpoint : TransportEndpoint) :
    (endpoint.Tidy →
      (fromBindString endpoint.displayUri = some endpoint ↔ endpoint.HostWithoutColon)) ∧
    ∀ bind, fromBindString bind = some endpoint →
      (fromBindString endpoint.displayUri = some endpoint ↔ OneColon bind) := by
  refine ⟨fun tidy => fromBindString_displayUri ?_, fun bind found => ?_⟩
  · cases endpoint with
    | Uds path => exact ⟨tidy.1, tidy.2 ▸ endsBare_trim path⟩
    | Tcp host port => exact tidy.1
    | MeshRelay => exact tidy
  · rcases fromBindString_shown found with ⟨shown, colons⟩
    rw [fromBindString_displayUri shown, colons]

/-- The loopback address of IPv6 is read back in brackets, and once more in two pairs of them. -/
theorem bindString_brackets :
    fromBindString (Tcp "::1".toList 80).displayUri = some (Tcp "[::1]".toList 80) ∧
    fromBindString (Tcp "[::1]".toList 80).displayUri = some (Tcp "[[::1]]".toList 80) := by
  decide

end TransportEndpoint

end CoralReef
