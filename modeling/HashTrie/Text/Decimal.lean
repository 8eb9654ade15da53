/-!
# Decimal floating point

Reading decimals into 64-bit floating-point numbers, and writing such a number
with the fewest digits that single it out among its neighbours.
-/

namespace HashTrie.Text

/-- A finite non-negative floating-point number `mantissa * 2 ^ exponent`. -/
structure BinaryFloat where
  mantissa : Nat
  exponent : Int
  /-- The gap to the number below is half the gap to the number above. -/
  narrowBelow : Bool

/-- The number with the given bits, whose sign is ignored. -/
def BinaryFloat.ofBits (bits : UInt64) : BinaryFloat :=
  let scale := ((bits >>> 52) &&& 0x7ff).toNat
  let fraction := (bits &&& 0xfffffffffffff).toNat
  if scale = 0 then ⟨fraction, -1074, false⟩
  else ⟨0x10000000000000 + fraction, (scale : Int) - 1075, fraction == 0 && 1 < scale⟩

/-- A decimal number `digits * 10 ^ exponent`. -/
structure Decimal where
  digits : Nat
  exponent : Int

/-- A number times powers of ten and of two; a power with a negative exponent counts
as one. -/
def scaled (number : Nat) (tens twos : Int) : Nat :=
  number * Nat.pow 10 tens.toNat * Nat.pow 2 twos.toNat

/-- Compare `digits * 10 ^ tens` with `mantissa * 2 ^ twos`. -/
def compareScaled (digits : Nat) (tens : Int) (mantissa : Nat) (twos : Int) : Ordering :=
  compare (scaled digits tens (-twos)) (scaled mantissa (-tens) twos)

/-- Whether a decimal lies among the real numbers that round to a floating-point
number. The ends of that interval belong to it if the mantissa is even. -/
def BinaryFloat.roundsFrom (number : BinaryFloat) (decimal : Decimal) : Bool :=
  let low := if number.narrowBelow then 4 * number.mantissa - 1 else 4 * number.mantissa - 2
  let high := 4 * number.mantissa + 2
  let closed := number.mantissa % 2 == 0
  let above := compareScaled decimal.digits decimal.exponent low (number.exponent - 2)
  let below := compareScaled decimal.digits decimal.exponent high (number.exponent - 2)
  (above == .gt || (closed && above == .eq)) && (below == .lt || (closed && below == .eq))

/-- The integer part of a number divided by a power of ten. -/
def BinaryFloat.quotient (number : BinaryFloat) (tens : Int) : Nat :=
  scaled number.mantissa (-tens) number.exponent / scaled 1 tens (-number.exponent)

/-- The decimal on the grid of a power of ten that rounds to a number, if there
is one: the grid points around the number are tried, and the nearer one wins. -/
def BinaryFloat.onGrid? (number : BinaryFloat) (tens : Int) : Option Decimal :=
  let lower : Decimal := ⟨number.quotient tens, tens⟩
  let upper : Decimal := ⟨number.quotient tens + 1, tens⟩
  match number.roundsFrom lower, number.roundsFrom upper with
  | true, true =>
      match compareScaled (lower.digits + upper.digits) tens (2 * number.mantissa)
          number.exponent with
      | .lt => some upper
      | .gt => some lower
      | .eq => some (if lower.digits % 2 = 0 then lower else upper)
  | true, false => some lower
  | false, true => some upper
  | false, false => none

/-- A decimal without trailing zeros among its first `count` digits. -/
def Decimal.trim : Nat → Decimal → Decimal
  | 0, decimal => decimal
  | count + 1, decimal =>
      if decimal.digits % 10 = 0 ∧ 0 < decimal.digits then
        trim count ⟨decimal.digits / 10, decimal.exponent + 1⟩
      else decimal

/-- The shortest decimal that rounds to a number: the coarsest grid with such a
decimal, counted from above every number. Seventeen digits always suffice. -/
def BinaryFloat.shortest (number : BinaryFloat) : Decimal :=
  let grids : List Int := (List.range 660).map fun (index : Nat) => 330 - (index : Int)
  match grids.findSome? number.onGrid? with
  | some decimal => decimal.trim 20
  | none => ⟨number.mantissa, 0⟩

/-- An integer with its sign, a plus sign if it is not negative. -/
def signedText (number : Int) : String :=
  if number < 0 then toString number else "+" ++ toString number

/-- The text of a decimal. Numbers from a hundred-thousandth up to ten to the
sixteenth are written positionally with at least one place after the point; other
numbers have one digit before the point and an exponent, always with its sign. -/
def Decimal.text (decimal : Decimal) : String :=
  let digits := (toString decimal.digits).toList
  let point := digits.length + decimal.exponent
  let zeros (count : Int) : List Char := List.replicate count.toNat '0'
  let characters :=
    if 0 ≤ decimal.exponent ∧ point ≤ 16 then digits ++ zeros decimal.exponent ++ ['.', '0']
    else if 0 < point ∧ point ≤ 16 then digits.take point.toNat ++ '.' :: digits.drop point.toNat
    else if -5 < point ∧ point ≤ 0 then '0' :: '.' :: zeros (-point) ++ digits
    else
      let exponent := 'e' :: (signedText (point - 1)).toList
      match digits with
      | [digit] => digit :: exponent
      | digits => digits.take 1 ++ '.' :: digits.drop 1 ++ exponent
  String.ofList characters

/-- The text of a finite floating-point number. -/
def floatText (number : Float) : String :=
  let bits := number.toBits
  let sign := if bits >>> 63 = 1 then "-" else ""
  let binary := BinaryFloat.ofBits bits
  sign ++ if binary.mantissa = 0 then "0.0" else binary.shortest.text

/-- Append digits to a 64-bit significand as long as they fit. The rest of the
digits is counted, not read. -/
def appendDigits (significand : Nat) : List Nat → Nat × Nat × Nat
  | [] => (significand, 0, 0)
  | digit :: rest =>
      if significand * 10 + digit < UInt64.size then
        let (significand, taken, dropped) := appendDigits (significand * 10 + digit) rest
        (significand, taken + 1, dropped)
      else (significand, 0, rest.length + 1)

/-- Divide by a power of ten, in steps of the largest one that is a number. -/
def scaleDown (number : Float) (tens : Nat) : Float :=
  if tens ≤ 308 then number / Float.ofScientific 1 false tens
  else if number == 0 then number
  else scaleDown (number / 1e308) (tens - 308)
termination_by tens

/-- The number with the given whole and fractional digits and exponent: as many
digits as fit a 64-bit significand, scaled once. Nothing for a number out of range. -/
def floatOfDigits? (whole fraction : List Nat) (exponent : Int) : Option Float :=
  let (significand, _, dropped) := appendDigits 0 whole
  let (significand, places, _) := appendDigits significand fraction
  let tens := exponent + dropped - places
  let number := (UInt64.ofNat significand).toFloat
  if tens < 0 then some (scaleDown number (-tens).toNat)
  else if number == 0 then some number
  else if 308 < tens then none
  else
    let product := number * Float.ofScientific 1 false tens.toNat
    if product.isInf then none else some product

end HashTrie.Text
