import HashTrie.Text.Hex
import HashTrie.Text.Shapeless

/-!
# Quoted text

A text in double quotes as programmers read it: quotes, backslashes and the usual
white space escaped by a letter, other control characters and characters without
a shape of their own by their number in braces.
-/

namespace HashTrie.Text

/-- The hexadecimal digits of a number without leading zeros. -/
def hexNumber (value : Nat) : String :=
  let digits := (hexDigits 8 value).dropWhile (· == '0')
  if digits.isEmpty then "0" else String.ofList digits

/-- A character as it stands between quotes. -/
def quotedChar (char : Char) : String :=
  match char with
  | '"' => "\\\""
  | '\\' => "\\\\"
  | '\n' => "\\n"
  | '\r' => "\\r"
  | '\t' => "\\t"
  | '\x00' => "\\0"
  | char =>
      if isShapeless char then "\\u\x7b" ++ hexNumber char.toNat ++ "\x7d"
      else String.singleton char

/-- A text in quotes. -/
def quoted (text : String) : String :=
  "\"" ++ String.join (text.toList.map quotedChar) ++ "\""

end HashTrie.Text
