import HashTrie.Text.Decimal
import HashTrie.Text.Hex

/-!
# JSON tokens

A JSON text as a list of tokens. Whatever is not a token ends the list as a broken
string or as malformed, so that a reader finds out about it when it gets there and not
before.
-/

namespace HashTrie.Json

/-- A number as it is read: an integer of 64 bits, or a floating-point number. -/
inductive Number where
  | integer (value : Int)
  | real (value : Float)

/-- The smallest parts of a JSON text. -/
inductive Token where
  | openMap
  | closeMap
  | openList
  | closeList
  | colon
  | comma
  | null
  | bool (value : Bool)
  | number (value : Number)
  /-- A string, and the part of it before its first escape. -/
  | text (value : String) (lead : List Char)
  /-- The start of a string that does not come to an end, up to its first escape or
  to the character that has no place in it. -/
  | brokenText (lead : List Char)
  | malformed

/-- The value of a hexadecimal digit of either case. -/
def hexValue? (digit : Char) : Option Nat := Text.hexValue? digit.toLower

/-- Four hexadecimal digits, and what follows them. -/
def readHex4 : List Char → Option (Nat × List Char)
  | first :: second :: third :: fourth :: rest => do
      let digits ← [first, second, third, fourth].mapM hexValue?
      return (digits.foldl (fun value digit => value * 16 + digit) 0, rest)
  | _ => none

/-- The character that an escape stands for, and what follows the escape. Beyond
the basic plane a character takes two escapes, a high and a low half. -/
def readEscape : List Char → Option (Char × List Char)
  | '"' :: rest => some ('"', rest)
  | '\\' :: rest => some ('\\', rest)
  | '/' :: rest => some ('/', rest)
  | 'b' :: rest => some ('\x08', rest)
  | 'f' :: rest => some ('\x0c', rest)
  | 'n' :: rest => some ('\n', rest)
  | 'r' :: rest => some ('\r', rest)
  | 't' :: rest => some ('\t', rest)
  | 'u' :: rest =>
      match readHex4 rest with
      | none => none
      | some (high, rest) =>
          if high < 0xd800 ∨ 0xe000 ≤ high then some (Char.ofNat high, rest)
          else if 0xdc00 ≤ high then none
          else
            match rest with
            | '\\' :: 'u' :: rest =>
                match readHex4 rest with
                | none => none
                | some (low, rest) =>
                    if 0xdc00 ≤ low ∧ low < 0xe000 then
                      some (Char.ofNat (0x10000 + (high - 0xd800) * 0x400 + (low - 0xdc00)), rest)
                    else none
            | _ => none
  | _ => none

theorem readHex4_shorter {chars rest : List Char} {value : Nat}
    (read : readHex4 chars = some (value, rest)) : rest.length < chars.length := by
  unfold readHex4 at read
  split at read
  · simp only [bind, Option.bind, pure] at read
    split at read
    · simp at read
    · obtain ⟨-, rfl⟩ : _ ∧ _ = rest := by simpa using read
      simp only [List.length_cons]
      omega
  · simp at read

theorem readEscape_shorter {chars rest : List Char} {char : Char}
    (read : readEscape chars = some (char, rest)) : rest.length < chars.length := by
  unfold readEscape at read
  split at read
  iterate 8
    · obtain ⟨-, rfl⟩ : _ ∧ _ = rest := by simpa using read
      simp
  · split at read
    · simp at read
    · next high after first =>
      have shorter := readHex4_shorter first
      split at read
      · obtain ⟨-, rfl⟩ : _ ∧ _ = rest := by simpa using read
        simp only [List.length_cons]
        omega
      · split at read
        · simp at read
        · split at read
          · split at read
            · simp at read
            · next low last second =>
              have shortest := readHex4_shorter second
              split at read
              · obtain ⟨-, rfl⟩ : _ ∧ _ = rest := by simpa using read
                simp only [List.length_cons] at shorter ⊢
                omega
              · simp at read
          · simp at read
  · simp at read

/-- Read a string after its opening quote. The first result is what comes before the
first escape; the second one is the string and what follows its closing quote, if it
has one. Characters that have been read come newest first. -/
def readText (read : List Char) (lead : Option (List Char)) (chars : List Char) :
    List Char × Option (String × List Char) :=
  match chars with
  | [] => ((lead.getD read).reverse, none)
  | '"' :: rest => ((lead.getD read).reverse, some (String.ofList read.reverse, rest))
  | '\\' :: rest =>
      match _escape : readEscape rest with
      | some (char, after) => readText (char :: read) (some (lead.getD read)) after
      | none => ((lead.getD read).reverse, none)
  | char :: rest =>
      if char.toNat < 0x20 then ((lead.getD read).reverse, none)
      else readText (char :: read) lead rest
termination_by chars.length
decreasing_by
  · have := readEscape_shorter _escape
    simp only [List.length_cons]
    omega
  · simp

/-- The leading decimal digits, and what follows them. -/
def readDigits (chars : List Char) : List Nat × List Char :=
  ((chars.takeWhile Char.isDigit).map (fun digit => digit.toNat - 48), chars.dropWhile Char.isDigit)

/-- The number that decimal digits write. -/
def decimalValue (digits : List Nat) : Nat :=
  digits.foldl (fun value digit => value * 10 + digit) 0

/-- The fraction after a number, which has at least one digit. -/
def readFraction : List Char → Option (List Nat × List Char)
  | '.' :: rest =>
      match readDigits rest with
      | ([], _) => none
      | (digits, rest) => some (digits, rest)
  | rest => some ([], rest)

/-- The exponent after a number, which has at least one digit. -/
def readExponent (chars : List Char) : Option (Option Int × List Char) :=
  let signed (negative : Bool) (rest : List Char) : Option (Option Int × List Char) :=
    match readDigits rest with
    | ([], _) => none
    | (digits, rest) =>
        let value : Int := decimalValue digits
        some (some (if negative then -value else value), rest)
  match chars with
  | mark :: rest =>
      if mark = 'e' ∨ mark = 'E' then
        match rest with
        | '+' :: rest => signed false rest
        | '-' :: rest => signed true rest
        | rest => signed false rest
      else some (none, chars)
  | [] => some (none, [])

/-- The number with the given parts. Minus zero and integers beyond 64 bits are
floating-point numbers. -/
def numberOf? (negative : Bool) (whole fraction : List Nat) (exponent : Option Int) :
    Option Number :=
  let magnitude := decimalValue whole
  let value : Int := if negative then -(magnitude : Int) else magnitude
  let exact := fraction.isEmpty && exponent.isNone
  let fits :=
    if negative then 0 < magnitude && Int64.minValue.toInt ≤ value else magnitude < UInt64.size
  if exact && fits then some (.integer value)
  else
    (Text.floatOfDigits? whole fraction (exponent.getD 0)).map fun number =>
      .real (if negative then -number else number)

/-- An unsigned number and what follows it. A number of several digits does not
start with zero. -/
def readUnsigned (negative : Bool) (chars : List Char) : Option (Number × List Char) :=
  match readDigits chars with
  | ([], _) => none
  | (0 :: _ :: _, _) => none
  | (whole, rest) => do
      let (fraction, rest) ← readFraction rest
      let (exponent, rest) ← readExponent rest
      let number ← numberOf? negative whole fraction exponent
      return (number, rest)

/-- A number and what follows it. -/
def readNumber : List Char → Option (Number × List Char)
  | '-' :: rest => readUnsigned true rest
  | chars => readUnsigned false chars

/-- The tokens of a text of at most `steps` characters. Each token takes a
character at least. -/
def tokensWithin : Nat → List Char → List Token
  | 0, _ => []
  | _, [] => []
  | steps + 1, char :: rest =>
      match char with
      | ' ' | '\n' | '\t' | '\r' => tokensWithin steps rest
      | '\x7b' => .openMap :: tokensWithin steps rest
      | '\x7d' => .closeMap :: tokensWithin steps rest
      | '[' => .openList :: tokensWithin steps rest
      | ']' => .closeList :: tokensWithin steps rest
      | ':' => .colon :: tokensWithin steps rest
      | ',' => .comma :: tokensWithin steps rest
      | 'n' =>
          match rest with
          | 'u' :: 'l' :: 'l' :: rest => .null :: tokensWithin steps rest
          | _ => [.malformed]
      | 't' =>
          match rest with
          | 'r' :: 'u' :: 'e' :: rest => .bool true :: tokensWithin steps rest
          | _ => [.malformed]
      | 'f' =>
          match rest with
          | 'a' :: 'l' :: 's' :: 'e' :: rest => .bool false :: tokensWithin steps rest
          | _ => [.malformed]
      | '"' =>
          match readText [] none rest with
          | (lead, some (text, rest)) => .text text lead :: tokensWithin steps rest
          | (lead, none) => [.brokenText lead]
      | char =>
          match readNumber (char :: rest) with
          | some (number, rest) => .number number :: tokensWithin steps rest
          | none => [.malformed]

/-- The tokens of a text. -/
def tokens (text : String) : List Token :=
  let chars := text.toList
  tokensWithin chars.length chars

end HashTrie.Json
