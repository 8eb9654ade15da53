/-!
# Hexadecimal words

64-bit words written as sixteen lower-case hexadecimal digits, the highest first.
-/

namespace HashTrie.Text

/-- The lower-case digit of a number below sixteen. -/
def hexDigit (value : Nat) : Char :=
  if value < 10 then Char.ofNat (48 + value) else Char.ofNat (87 + value)

/-- The value of a lower-case digit. -/
def hexValue? (digit : Char) : Option Nat :=
  if '0' ≤ digit ∧ digit ≤ '9' then some (digit.toNat - 48)
  else if 'a' ≤ digit ∧ digit ≤ 'f' then some (digit.toNat - 87)
  else none

/-- The lowest `count` hexadecimal digits of a number, the highest first. -/
def hexDigits : Nat → Nat → List Char
  | 0, _ => []
  | count + 1, value => hexDigits count (value / 16) ++ [hexDigit (value % 16)]

/-- The sixteen digits of a word. -/
def hexWord (word : UInt64) : String := String.ofList (hexDigits 16 word.toNat)

/-- The word written in sixteen lower-case digits. -/
def hexWord? (text : String) : Option UInt64 :=
  let digits := text.toList
  if digits.length = 16 then
    (digits.foldlM (fun value digit => (hexValue? digit).map (value * 16 + ·)) 0).map UInt64.ofNat
  else none

end HashTrie.Text
