import HashTrie.Text.Decimal
import HashTrie.Text.Hex

/-!
# JSON values

JSON values and their compact text. The fields of an object are written in the
order in which they are given.
-/

namespace HashTrie

/-- A JSON value. A number is an integer if its text has neither a fraction nor an
exponent and it fits 64 bits with or without a sign. -/
inductive Json where
  | null
  | bool (value : Bool)
  | int (value : Int)
  | real (value : Float)
  | str (text : String)
  | arr (items : List Json)
  | obj (fields : List (String × Json))
deriving Inhabited

namespace Json

/-- A character as it stands in a JSON string. -/
def escapeChar (char : Char) : String :=
  match char with
  | '"' => "\\\""
  | '\\' => "\\\\"
  | '\x08' => "\\b"
  | '\x0c' => "\\f"
  | '\n' => "\\n"
  | '\r' => "\\r"
  | '\t' => "\\t"
  | char =>
      if char.toNat < 0x20 then "\\u" ++ String.ofList (Text.hexDigits 4 char.toNat)
      else String.singleton char

/-- A text as a JSON string. -/
def quote (text : String) : String :=
  "\"" ++ text.foldl (fun quoted char => quoted ++ escapeChar char) "" ++ "\""

mutual

/-- The compact text of a value. -/
def compact : Json → String
  | .null => "null"
  | .bool true => "true"
  | .bool false => "false"
  | .int value => toString value
  | .real value => Text.floatText value
  | .str text => quote text
  | .arr items => "[" ++ ",".intercalate (compactItems items) ++ "]"
  | .obj fields => "\x7b" ++ ",".intercalate (compactFields fields) ++ "\x7d"

/-- The compact texts of several values. -/
def compactItems : List Json → List String
  | [] => []
  | item :: rest => compact item :: compactItems rest

/-- The compact texts of several fields. -/
def compactFields : List (String × Json) → List String
  | [] => []
  | (name, value) :: rest => (quote name ++ ":" ++ compact value) :: compactFields rest

end

/-- A count as a JSON number. -/
def ofNat (count : Nat) : Json := .int count

/-- The value of a field. If an object names a field twice, the last one counts. -/
def field? (name : String) : Json → Option Json
  | .obj fields => (fields.reverse.find? (·.1 == name)).map Prod.snd
  | _ => none

/-- The text of a JSON string. -/
def str? : Json → Option String
  | .str text => some text
  | _ => none

/-- The items of an array. -/
def items? : Json → Option (List Json)
  | .arr items => some items
  | _ => none

/-- A signed 64-bit integer. -/
def int64? : Json → Option Int64
  | .int value =>
      if Int64.minValue.toInt ≤ value ∧ value ≤ Int64.maxValue.toInt then some (.ofInt value)
      else none
  | _ => none

/-- An unsigned 64-bit integer. -/
def word? : Json → Option UInt64
  | .int value =>
      if 0 ≤ value ∧ value.toNat < UInt64.size then some (.ofNat value.toNat) else none
  | _ => none

end Json

end HashTrie
