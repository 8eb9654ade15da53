import HashTrie.Format
import HashTrie.Json.Decoder
import HashTrie.Script.Argument
import HashTrie.Script.Key

/-!
# Documents

Maps and sets read from JSON text and written again. A map is an object and a set is
an array, written in iteration order; where a text repeats a key, the last value
counts. Keys that are numbers are written in quotes, as the keys of an object are.
-/

namespace HashTrie.Script

/-- The shapes of document. -/
inductive Shape where
  | textToInt
  | intToText
  | textToList
  | textToMap
  | textSet
  | intSet

namespace Shape

/-- The shape that a JSON value names. -/
def ofJson? : Json → Option Shape
  | .str "map<str,int>" => some .textToInt
  | .str "map<int,str>" => some .intToText
  | .str "map<str,list>" => some .textToList
  | .str "map<str,map>" => some .textToMap
  | .str "set<str>" => some .textSet
  | .str "set<int>" => some .intSet
  | _ => none

end Shape

namespace Document

open Json (Decoder)

/-- The stamp of the nodes of a document. -/
def stamp : Stamp := .ofNat 0

/-- A number as a JSON value. -/
def numberJson (number : Int64) : Json := .int number.toInt

/-- The field name that a key is written as. -/
def fieldName : Key → String
  | .int value => toString value.toInt
  | .text value => value
  | .custom _ _ label => label

/-- Entries as a JSON object. -/
def objectJson {ν : Type} (toJson : ν → Json) (entries : List (Key × ν)) : Json :=
  .obj (entries.map fun entry => (fieldName entry.1, toJson entry.2))

/-- Entries whose keys are texts. -/
def textEntries {ν : Type} (value : Decoder ν) : Decoder (List (Key × ν)) :=
  (Decoder.entries Decoder.textKey value).map fun entries =>
    entries.map fun (name, value) => (.text name, value)

/-- Entries whose keys are numbers. -/
def intEntries {ν : Type} (value : Decoder ν) : Decoder (List (Key × ν)) :=
  (Decoder.entries Decoder.int64Key value).map fun entries =>
    entries.map fun (number, value) => (.int number, value)

/-- Objects with the entries that a decoder reads. -/
def objectFormat {ν : Type} (toJson : ν → Json) (entries : Decoder (List (Key × ν))) :
    Format String Json.DecodeError (Key × ν) where
  write _ items := (objectJson toJson items).compact
  read := entries.run

/-- Arrays of the keys that a decoder reads. -/
def arrayFormat (keys : Decoder (List Key)) : Format String Json.DecodeError Key where
  write _ items := (Json.arr (items.map Key.toJson)).compact
  read := keys.run

/-- Objects in which names stand for texts and values are numbers. -/
def textToIntFormat : Format String Json.DecodeError (Key × Int64) :=
  objectFormat numberJson (textEntries Decoder.int64)

/-- Objects in which names stand for numbers and values are texts. -/
def intToTextFormat : Format String Json.DecodeError (Key × String) :=
  objectFormat .str (intEntries Decoder.text)

/-- Objects in which names stand for texts and values are lists of numbers. -/
def textToListFormat : Format String Json.DecodeError (Key × List Int64) :=
  objectFormat (fun numbers => .arr (numbers.map numberJson))
    (textEntries (Decoder.list Decoder.int64))

/-- Objects in which names stand for texts and values are maps from texts to numbers. -/
def textToMapFormat : Format String Json.DecodeError (Key × TrieMap Key Int64) :=
  objectFormat (fun map => objectJson numberJson map.toList)
    (textEntries ((textEntries Decoder.int64).map (.ofList stamp)))

/-- Arrays of texts. -/
def textSetFormat : Format String Json.DecodeError Key :=
  arrayFormat ((Decoder.list Decoder.text).map fun texts => texts.map .text)

/-- Arrays of numbers. -/
def intSetFormat : Format String Json.DecodeError Key :=
  arrayFormat ((Decoder.list Decoder.int64).map fun numbers => numbers.map .int)

/-- The answer to a text that cannot be decoded. -/
def errorJson (reason : Json.DecodeError) : Json :=
  match reason.message? with
  | none => .obj [("error", .str "syntax")]
  | some message => .obj [("error", .str "data"), ("message", .str message)]

/-- What a text holds, written again, and its length. -/
def normalized {α : Type} (write : α → String) (length : α → Nat) :
    Except Json.DecodeError α → Json
  | .ok content => .obj [("json", .str (write content)), ("len", .ofNat (length content))]
  | .error reason => errorJson reason

/-- Read a map and write it again. -/
def normalizeMap {ν : Type} (format : Format String Json.DecodeError (Key × ν)) (text : String) :
    Json :=
  normalized (TrieMap.write format) TrieMap.length (TrieMap.read format stamp text)

/-- Read a set and write it again. -/
def normalizeSet (format : Format String Json.DecodeError Key) (text : String) : Json :=
  normalized (TrieSet.write format) TrieSet.length (TrieSet.read format stamp text)

/-- Read a document of a shape and write it again. -/
def normalize : Shape → String → Json
  | .textToInt => normalizeMap textToIntFormat
  | .intToText => normalizeMap intToTextFormat
  | .textToList => normalizeMap textToListFormat
  | .textToMap => normalizeMap textToMapFormat
  | .textSet => normalizeSet textSetFormat
  | .intSet => normalizeSet intSetFormat

end Document

end HashTrie.Script
