import HashTrie.Json.Reader
import HashTrie.Text.Quoted

/-!
# Decoding JSON of a known shape

A decoder reads a value of one shape from the front of a list of tokens. It stops
at the first token that does not fit, so text after that point is never looked at.
-/

namespace HashTrie.Json

/-- What stands in a text where something else is wanted. -/
inductive Found where
  | null
  | bool (value : Bool)
  | integer (value : Int)
  | real (value : Float)
  | text (value : String)
  | sequence
  | map

/-- The name of what stands in a text. -/
def Found.name : Found → String
  | .null => "null"
  | .bool value => "boolean `" ++ toString value ++ "`"
  | .integer value => "integer `" ++ toString value ++ "`"
  | .real value => "floating point `" ++ Text.floatText value ++ "`"
  | .text value => "string " ++ Text.quoted value
  | .sequence => "sequence"
  | .map => "map"

/-- What a decoder wants. -/
inductive Wanted where
  | map
  | sequence
  | text
  | integer

/-- The name of what a decoder wants. -/
def Wanted.name : Wanted → String
  | .map => "a map"
  | .sequence => "a sequence"
  | .text => "a string"
  | .integer => "i64"

/-- Why a text cannot be decoded. -/
inductive DecodeError where
  /-- The text is not JSON at this point, or a key is not a number. -/
  | malformed
  /-- The text holds a value of another shape. -/
  | wrongShape (found : Found) (wanted : Wanted)
  /-- The text holds an integer that does not fit. -/
  | outOfRange (value : Int)

/-- The wording of an error about a value; text that is not JSON has none. -/
def DecodeError.message? : DecodeError → Option String
  | .malformed => none
  | .wrongShape found wanted =>
      some ("invalid type: " ++ found.name ++ ", expected " ++ wanted.name)
  | .outOfRange value =>
      some ("invalid value: " ++ (Found.integer value).name ++ ", expected " ++ Wanted.integer.name)

/-- A reader of the values of one shape. -/
def Decoder (α : Type) := (tokens : List Token) → Except DecodeError (α × Rest tokens)

namespace Decoder

/-- The complaint about the value at the front of some tokens. -/
def mismatch {α : Type} (wanted : Wanted) : List Token → Except DecodeError α
  | .null :: _ => .error (.wrongShape .null wanted)
  | .bool value :: _ => .error (.wrongShape (.bool value) wanted)
  | .number (.integer value) :: _ => .error (.wrongShape (.integer value) wanted)
  | .number (.real value) :: _ => .error (.wrongShape (.real value) wanted)
  | .text value _ :: _ => .error (.wrongShape (.text value) wanted)
  | .openList :: _ => .error (.wrongShape .sequence wanted)
  | .openMap :: _ => .error (.wrongShape .map wanted)
  | _ => .error .malformed

/-- A number as a signed 64-bit integer. -/
def int64OfNumber : Number → Except DecodeError Int64
  | .integer value =>
      match (Json.int value).int64? with
      | some number => .ok number
      | none => .error (.outOfRange value)
  | .real value => .error (.wrongShape (.real value) .integer)

/-- A signed 64-bit integer. -/
def int64 : Decoder Int64
  | .number number :: rest =>
      (int64OfNumber number).map fun value => (value, .afterOne (.number number) rest)
  | tokens => mismatch .integer tokens

/-- A text. -/
def text : Decoder String
  | .text value lead :: rest => .ok (value, .afterOne (.text value lead) rest)
  | tokens => mismatch .text tokens

/-- A key that is any text. -/
def textKey : Token → Except DecodeError String
  | .text value _ => .ok value
  | _ => .error .malformed

/-- The signed 64-bit integer at the start of a key, which ends there if the key is
whole. -/
def leadingInt64 (whole : Bool) (lead : List Char) : Except DecodeError Int64 :=
  match readNumber lead with
  | none => .error .malformed
  | some (number, rest) => do
      let value ← int64OfNumber number
      if whole && rest.isEmpty then .ok value else .error .malformed

/-- A key whose characters write a signed 64-bit integer, none of them escaped. The
number is read before the rest of the key is. -/
def int64Key : Token → Except DecodeError Int64
  | .text value lead => leadingInt64 (lead.length == value.length) lead
  | .brokenText lead => leadingInt64 false lead
  | _ => .error .malformed

variable {α κ : Type}

/-- The items of a sequence after its opening, of which there is one at least. -/
def items (item : Decoder α) (tokens : List Token) : Except DecodeError (List α × Rest tokens) :=
  match item tokens with
  | .error reason => .error reason
  | .ok (value, ⟨.closeList :: rest, shorter⟩) =>
      .ok ([value], (Rest.afterOne .closeList rest).within shorter)
  | .ok (value, ⟨.comma :: rest, shorter⟩) =>
      (items item rest).map fun (values, after) =>
        (value :: values, (after.beyond .comma).within shorter)
  | .ok _ => .error .malformed
termination_by tokens.length
decreasing_by exact Nat.lt_of_succ_lt shorter

/-- A sequence of values of one shape. -/
def list (item : Decoder α) : Decoder (List α)
  | .openList :: .closeList :: rest =>
      .ok ([], (Rest.afterOne .closeList rest).beyond .openList)
  | .openList :: rest =>
      (items item rest).map fun (values, after) => (values, after.beyond .openList)
  | tokens => mismatch .sequence tokens

/-- The fields of a map after its opening, of which there is one at least. -/
def fields (key : Token → Except DecodeError κ) (value : Decoder α) (tokens : List Token) :
    Except DecodeError (List (κ × α) × Rest tokens) :=
  match tokens with
  | [] => .error .malformed
  | name :: rest =>
      match key name with
      | .error reason => .error reason
      | .ok label =>
          match rest with
          | .colon :: rest =>
              match value rest with
              | .error reason => .error reason
              | .ok (content, ⟨.closeMap :: rest, shorter⟩) =>
                  .ok ([(label, content)],
                    (((Rest.afterOne .closeMap rest).within shorter).beyond .colon).beyond name)
              | .ok (content, ⟨.comma :: rest, shorter⟩) =>
                  (fields key value rest).map fun (others, after) =>
                    ((label, content) :: others,
                      (((after.beyond .comma).within shorter).beyond .colon).beyond name)
              | .ok _ => .error .malformed
          | _ => .error .malformed
termination_by tokens.length
decreasing_by exact Nat.lt_add_right 2 (Nat.lt_of_succ_lt shorter)

/-- The entries of a map with keys and values of given shapes, in the order of the
text and with repetitions. -/
def entries (key : Token → Except DecodeError κ) (value : Decoder α) :
    Decoder (List (κ × α))
  | .openMap :: .closeMap :: rest =>
      .ok ([], (Rest.afterOne .closeMap rest).beyond .openMap)
  | .openMap :: rest =>
      (fields key value rest).map fun (values, after) => (values, after.beyond .openMap)
  | tokens => mismatch .map tokens

/-- What a decoder yields, mapped. -/
def map {β : Type} (function : α → β) (decoder : Decoder α) : Decoder β := fun tokens =>
  (decoder tokens).map fun (value, rest) => (function value, rest)

/-- The value that some tokens write, if they write nothing after it. -/
def whole (decoder : Decoder α) (tokens : List Token) : Except DecodeError α := do
  let (value, rest) ← decoder tokens
  if rest.1.isEmpty then .ok value else .error .malformed

/-- The value that a text writes, if the text holds nothing after it. -/
def run (decoder : Decoder α) (text : String) : Except DecodeError α :=
  decoder.whole (tokens text)

end Decoder

end HashTrie.Json
