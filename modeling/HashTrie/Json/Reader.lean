import HashTrie.Json.Basic
import HashTrie.Json.Token

/-!
# Reading JSON values

A JSON value of any shape read from a text that holds nothing else.
-/

namespace HashTrie.Json

/-- What is left of some tokens once the first of them are read. -/
abbrev Rest (tokens : List Token) := { rest : List Token // rest.length < tokens.length }

namespace Rest

/-- What is left once a single token is read. -/
def afterOne (token : Token) (rest : List Token) : Rest (token :: rest) :=
  ⟨rest, Nat.lt_succ_self rest.length⟩

/-- What is left after the first token is left of all tokens. -/
def beyond {tokens : List Token} (token : Token) (after : Rest tokens) : Rest (token :: tokens) :=
  ⟨after.1, Nat.lt_succ_of_lt after.2⟩

/-- What is left of the rest of some tokens is left of the tokens. -/
def within {tokens rest : List Token} (shorter : rest.length < tokens.length)
    (after : Rest rest) : Rest tokens :=
  ⟨after.1, Nat.lt_trans after.2 shorter⟩

end Rest

/-- How deep arrays and objects may be nested. -/
def deepestNesting : Nat := 127

mutual

/-- A value at the front of some tokens. -/
def readValue (nesting : Nat) (tokens : List Token) : Option (Json × Rest tokens) :=
  match tokens with
  | .null :: rest => some (.null, .afterOne .null rest)
  | .bool value :: rest => some (.bool value, .afterOne (.bool value) rest)
  | .number (.integer value) :: rest =>
      some (.int value, .afterOne (.number (.integer value)) rest)
  | .number (.real value) :: rest => some (.real value, .afterOne (.number (.real value)) rest)
  | .text value lead :: rest => some (.str value, .afterOne (.text value lead) rest)
  | .openList :: rest =>
      match nesting, rest with
      | 0, _ => none
      | _ + 1, .closeList :: rest =>
          some (.arr [], (Rest.afterOne .closeList rest).beyond .openList)
      | nesting + 1, rest =>
          (readItems nesting rest).map fun (items, after) => (.arr items, after.beyond .openList)
  | .openMap :: rest =>
      match nesting, rest with
      | 0, _ => none
      | _ + 1, .closeMap :: rest =>
          some (.obj [], (Rest.afterOne .closeMap rest).beyond .openMap)
      | nesting + 1, rest =>
          (readFields nesting rest).map fun (fields, after) => (.obj fields, after.beyond .openMap)
  | _ => none
termination_by (tokens.length, 0)
decreasing_by
  all_goals exact Prod.Lex.left _ _ (Nat.lt_succ_self _)

/-- The items of an array, of which there is one at least, and its end. -/
def readItems (nesting : Nat) (tokens : List Token) : Option (List Json × Rest tokens) :=
  match readValue nesting tokens with
  | some (item, ⟨.closeList :: rest, shorter⟩) =>
      some ([item], (Rest.afterOne .closeList rest).within shorter)
  | some (item, ⟨.comma :: rest, shorter⟩) =>
      (readItems nesting rest).map fun (items, after) =>
        (item :: items, (after.beyond .comma).within shorter)
  | _ => none
termination_by (tokens.length, 1)
decreasing_by
  · exact Prod.Lex.right _ Nat.zero_lt_one
  · exact Prod.Lex.left _ _ (Nat.lt_of_succ_lt shorter)

/-- The fields of an object, of which there is one at least, and its end. -/
def readFields (nesting : Nat) (tokens : List Token) :
    Option (List (String × Json) × Rest tokens) :=
  match tokens with
  | .text name lead :: .colon :: rest =>
      match readValue nesting rest with
      | some (value, ⟨.closeMap :: rest, shorter⟩) =>
          some ([(name, value)],
            (((Rest.afterOne .closeMap rest).within shorter).beyond .colon).beyond
              (.text name lead))
      | some (value, ⟨.comma :: rest, shorter⟩) =>
          (readFields nesting rest).map fun (fields, after) =>
            ((name, value) :: fields,
              (((after.beyond .comma).within shorter).beyond .colon).beyond (.text name lead))
      | _ => none
  | _ => none
termination_by (tokens.length, 1)
decreasing_by
  · exact Prod.Lex.left _ _ (Nat.lt_add_right 1 (Nat.lt_succ_self _))
  · exact Prod.Lex.left _ _ (Nat.lt_add_right 2 (Nat.lt_of_succ_lt shorter))

end

/-- The value that a text writes, if it writes one value and no more. -/
def ofText? (text : String) : Option Json :=
  match readValue deepestNesting (tokens text) with
  | some (value, ⟨[], _⟩) => some value
  | _ => none

end HashTrie.Json
