import Mathlib.Tactic.Common

/-!
# JSON values

The values, the accessors and the compact text of `serde_json`. An object lists its members in
the order in which its map iterates, by key.
-/

namespace CoralReef

/-- A number, kept as the text it prints as. -/
structure JsonNumber where
  literal : String
  plain : ∀ c ∈ literal.toList, c.isDigit ∨ c ∈ ['+', '-', '.', 'e', 'E']
  deriving Repr

/-- `serde_json::Value`. -/
inductive Json where
  | null
  | bool (value : Bool)
  | number (value : JsonNumber)
  | str (text : String)
  | arr (items : List Json)
  | obj (members : List (String × Json))
  deriving Repr

namespace Json

/-- `Value::get` with a key. -/
def get (value : Json) (key : String) : Option Json :=
  match value with
  | .obj members => members.lookup key
  | _ => none

/-- `Value::as_str`. -/
def asStr : Json → Option String
  | .str text => some text
  | _ => none

/-- `Value::as_bool`. -/
def asBool : Json → Option Bool
  | .bool value => some value
  | _ => none

theorem isDigit_of_mem_toString {value : Nat} {c : Char} (member : c ∈ (toString value).toList) :
    c.isDigit := by
  have digits : c ∈ Nat.toDigits 10 value := by simpa [toString, Nat.repr] using member
  exact Nat.isDigit_of_mem_toDigits (by decide) (by decide) digits

/-- A natural number. -/
def nat (value : Nat) : Json :=
  .number ⟨toString value, fun _ member => .inl (isDigit_of_mem_toString member)⟩

/-- A number with a minus sign. -/
def minus (value : Nat) : Json :=
  .number ⟨"-" ++ toString value, fun c member => by
    rw [String.toList_append, List.mem_append] at member
    rcases member with sign | digit
    · exact .inr (by simp_all)
    · exact .inl (isDigit_of_mem_toString digit)⟩

/-- `get` then `as_str`. -/
def getStr (value : Json) (key : String) : Option String := (value.get key).bind asStr

/-! ## Compact text -/

def quoteMark : Char := '\x22'

def backslash : Char := '\x5c'

/-- A hexadecimal digit in lower case. -/
def hexDigit (digit : Nat) : Char :=
  if digit < 10 then Char.ofNat (48 + digit) else Char.ofNat (87 + digit)

/-- A character inside a string. -/
def escapeChar (c : Char) : List Char :=
  if c = quoteMark then [backslash, quoteMark]
  else if c = backslash then [backslash, backslash]
  else if c = '\x08' then [backslash, 'b']
  else if c = '\x0c' then [backslash, 'f']
  else if c = '\n' then [backslash, 'n']
  else if c = '\r' then [backslash, 'r']
  else if c = '\t' then [backslash, 't']
  else if c.toNat < 32 then
    [backslash, 'u', '0', '0', hexDigit (c.toNat / 16), hexDigit (c.toNat % 16)]
  else [c]

/-- A string with its quotation marks. -/
def quote (text : String) : List Char :=
  quoteMark :: text.toList.flatMap escapeChar ++ [quoteMark]

mutual

/-- `serde_json::to_string`. -/
def compact : Json → List Char
  | .null => "null".toList
  | .bool value => (if value then "true" else "false").toList
  | .number value => value.literal.toList
  | .str text => quote text
  | .arr items => '[' :: compactItems items ++ [']']
  | .obj members => '\x7b' :: compactMembers members ++ ['\x7d']

/-- The items of an array, with commas between them. -/
def compactItems : List Json → List Char
  | [] => []
  | [item] => compact item
  | item :: next :: items => compact item ++ ',' :: compactItems (next :: items)

/-- The members of an object, with commas between them. -/
def compactMembers : List (String × Json) → List Char
  | [] => []
  | [(key, value)] => quote key ++ ':' :: compact value
  | (key, value) :: next :: members =>
      quote key ++ ':' :: compact value ++ ',' :: compactMembers (next :: members)

end

/-! ## The text is one line -/

theorem newline_notMem_escapeChar (c : Char) : '\n' ∉ escapeChar c := by
  rw [escapeChar]
  split_ifs with is_quote is_backslash is_8 is_c is_feed is_return is_tab is_control
  all_goals try (simp [backslash, quoteMark]; done)
  · have digit : ∀ d < 16, hexDigit d ≠ '\n' := by decide
    have upper := digit (c.toNat / 16) (by omega)
    have lower := digit (c.toNat % 16) (by omega)
    simp [backslash, upper.symm, lower.symm]
  · simpa using Ne.symm is_feed

theorem newline_notMem_quote (text : String) : '\n' ∉ quote text := by
  simp [quote, quoteMark, newline_notMem_escapeChar]

mutual

/-- A compact text has no line feed, so a value with one after it is one line. -/
theorem newline_notMem_compact (value : Json) : '\n' ∉ compact value := by
  cases value with
  | null => simp [compact]
  | bool value => cases value <;> simp [compact]
  | number value =>
      rw [compact]
      intro member
      rcases value.plain _ member with digit | sign
      · simp at digit
      · simp at sign
  | str text => exact newline_notMem_quote text
  | arr items => simp [compact, newline_notMem_compactItems items]
  | obj members => simp [compact, newline_notMem_compactMembers members]

theorem newline_notMem_compactItems (items : List Json) : '\n' ∉ compactItems items := by
  match items with
  | [] => simp [compactItems]
  | [item] => simpa [compactItems] using newline_notMem_compact item
  | item :: next :: items =>
      simp [compactItems, newline_notMem_compact item, newline_notMem_compactItems (next :: items)]

theorem newline_notMem_compactMembers (members : List (String × Json)) :
    '\n' ∉ compactMembers members := by
  match members with
  | [] => simp [compactMembers]
  | [(key, value)] =>
      simp [compactMembers, newline_notMem_quote key, newline_notMem_compact value]
  | (key, value) :: next :: members =>
      simp [compactMembers, newline_notMem_quote key, newline_notMem_compact value,
        newline_notMem_compactMembers (next :: members)]

end

end Json

end CoralReef
