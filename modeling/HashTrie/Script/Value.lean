import HashTrie.Script.Key

/-!
# Values of a script

Values are nothing, integers, texts and floating-point numbers. The numbers are
kept as bits and never computed with; their equality is the numerical one, in which
a value that is not a number differs from itself and the two zeros are equal.
-/

namespace HashTrie.Script

/-- A value. -/
inductive Value where
  | null
  | int (value : Int64)
  | text (value : String)
  | float (bits : UInt64)
deriving Inhabited

/-- Whether the bits of a floating-point number stand for no number. -/
def isNaN (bits : UInt64) : Bool := 0x7ff0000000000000 < bits &&& 0x7fffffffffffffff

/-- Whether the bits of a floating-point number stand for one of the zeros. -/
def isZero (bits : UInt64) : Bool := bits &&& 0x7fffffffffffffff == 0

/-- The numerical equality of floating-point numbers given by their bits. -/
def floatBeq (bits other : UInt64) : Bool :=
  !isNaN bits && !isNaN other && (bits == other || (isZero bits && isZero other))

namespace Value

/-- Values are equal if they are of one kind and equal there. -/
protected def beq : Value → Value → Bool
  | .null, .null => true
  | .int value, .int other => value == other
  | .text value, .text other => value == other
  | .float bits, .float other => floatBeq bits other
  | _, _ => false

instance : BEq Value := ⟨Value.beq⟩

/-- The number that stands for a value in arithmetic. -/
def num : Value → Int64
  | .null => 0
  | .int value => value
  | .text value => .ofNat value.utf8ByteSize
  | .float _ => 0

/-- A value in JSON; the bits of a floating-point number are written in
hexadecimal. -/
def toJson : Value → Json
  | .null => .null
  | .int value => .int value.toInt
  | .text value => .str value
  | .float bits => .obj [("f", .str (Text.hexWord bits))]

/-- The value that a JSON value writes. -/
def ofJson? : Json → Option Value
  | .null => some .null
  | .str value => some (.text value)
  | .obj fields => do
      let digits ← ((Json.obj fields).field? "f").bind Json.str?
      return .float (← Text.hexWord? digits)
  | json => json.int64?.map .int

/-- The text of a value: a text stands for itself, any other value for its JSON. -/
def display : Value → String
  | .text value => value
  | value => value.toJson.compact

/-- The key that a value turns into. -/
def toKey : Value → Key
  | .null => .text "null"
  | .int value => .int value
  | .text value => .text value
  | .float bits => .text (Text.hexWord bits)

/-- The value that a key turns into. -/
def ofKey : Key → Value
  | .int value => .int value
  | .text value => .text value
  | .custom _ _ label => .text label

/-- A value written out for reading. -/
def layout : Value → Text.Layout
  | .null => .atom "null"
  | .int value => .atom (toString value.toInt)
  | .text value => .atom (Text.quoted value)
  | .float bits => .atom ("f" ++ Text.hexWord bits)

end Value

/-- An entry of a script. -/
abbrev Entry := Key × Value

namespace Entry

/-- An entry in JSON. -/
def toJson (entry : Entry) : Json := .arr [entry.1.toJson, entry.2.toJson]

/-- The entry that a JSON value writes. -/
def ofJson? : Json → Option Entry
  | .arr [key, value] => do return (← Key.ofJson? key, ← Value.ofJson? value)
  | _ => none

end Entry

end HashTrie.Script
