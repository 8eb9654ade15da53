import HashTrie.Json.Basic

/-!
# Arguments

What a request says is written in the fields of a JSON object. An argument has to be
there and to be readable; an option may be left out, but if it is there it has to be
readable too.
-/

namespace HashTrie.Script

variable {α : Type}

/-- The argument in a field. -/
def argument? (read : Json → Option α) (field : String) (request : Json) : Option α :=
  (request.field? field).bind read

/-- The option in a field; the outer result is none if the field cannot be read. -/
def option? (read : Json → Option α) (field : String) (request : Json) : Option (Option α) :=
  match request.field? field with
  | none => some none
  | some json => (read json).map some

/-- The items of an array, each of which can be read. -/
def listOf? (read : Json → Option α) (json : Json) : Option (List α) :=
  json.items?.bind (List.mapM read)

/-- A number that counts something, which fits 64 bits without a sign. -/
def count? (json : Json) : Option Nat := json.word?.map UInt64.toNat

/-- A truth value. -/
def truth? : Json → Option Bool
  | .bool value => some value
  | _ => none

/-- Whether a truth value is there and holds. -/
def flag? (field : String) (request : Json) : Option Bool :=
  (option? truth? field request).map (·.getD false)

end HashTrie.Script
