/-!
# Layout of nested values

Maps and sets of values written in braces, on one line or with one member a line
indented by four spaces.
-/

namespace HashTrie.Text

/-- A value to be written out. -/
inductive Layout where
  | atom (text : String)
  | map (members : List (Layout × Layout))
  | set (members : List Layout)

namespace Layout

mutual

/-- The value on one line. -/
def inline : Layout → String
  | .atom text => text
  | .map members => "\x7b" ++ ", ".intercalate (inlineMembers members) ++ "\x7d"
  | .set members => "\x7b" ++ ", ".intercalate (inlineElements members) ++ "\x7d"

/-- The members of a map, each on one line. -/
def inlineMembers : List (Layout × Layout) → List String
  | [] => []
  | (key, value) :: rest => (inline key ++ ": " ++ inline value) :: inlineMembers rest

/-- The elements of a set, each on one line. -/
def inlineElements : List Layout → List String
  | [] => []
  | element :: rest => inline element :: inlineElements rest

end

/-- Put four spaces before every line of a text. -/
def indentFrom (lineStart : Bool) : List Char → List Char
  | [] => []
  | char :: rest =>
      let tail := char :: indentFrom (char == '\n') rest
      if lineStart then ' ' :: ' ' :: ' ' :: ' ' :: tail else tail

/-- Members in braces, each on lines of its own and followed by a comma. -/
def block : List String → String
  | [] => "\x7b\x7d"
  | members =>
      let lines := String.join (members.map (· ++ ",\n"))
      "\x7b\n" ++ String.ofList (indentFrom true lines.toList) ++ "\x7d"

mutual

/-- The value with one member a line. -/
def pretty : Layout → String
  | .atom text => text
  | .map members => block (prettyMembers members)
  | .set members => block (prettyElements members)

/-- The members of a map, each with its own lines. -/
def prettyMembers : List (Layout × Layout) → List String
  | [] => []
  | (key, value) :: rest => (pretty key ++ ": " ++ pretty value) :: prettyMembers rest

/-- The elements of a set, each with its own lines. -/
def prettyElements : List Layout → List String
  | [] => []
  | element :: rest => pretty element :: prettyElements rest

end

end Layout

end HashTrie.Text
