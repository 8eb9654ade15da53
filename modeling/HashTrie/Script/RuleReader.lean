import HashTrie.Script.Rule

/-!
# Reading the rules of a script

A rule is written as a JSON array: its name, followed by what it takes. A combiner
takes nothing and is written as its name alone. Anything else writes no rule, and
neither does a remainder by a number that is not positive.
-/

namespace HashTrie.Script

/-- A number to divide by. -/
def modulus? (json : Json) : Option Int64 := do
  let modulus ← json.int64?
  if 0 < modulus then some modulus else none

/-- The test that a JSON value writes. -/
def Predicate.ofJson? : Json → Option Predicate
  | .arr [.str "true"] => some (.always true)
  | .arr [.str "false"] => some (.always false)
  | .arr [.str "key_lt", key] => (Key.ofJson? key).map .keyBelow
  | .arr [.str "key_eq", key] => (Key.ofJson? key).map .keyIs
  | .arr [.str "val_eq", value] => (Value.ofJson? value).map .valueIs
  | .arr [.str "val_lt", bound] => bound.int64?.map .valueBelow
  | .arr [.str "key_mod", modulus, rest] => do
      return .keyRemainder (← modulus? modulus) (← rest.int64?)
  | .arr [.str "val_mod", modulus, rest] => do
      return .valueRemainder (← modulus? modulus) (← rest.int64?)
  | .arr [.str "not", test] => (ofJson? test).map .not
  | .arr [.str "and", first, second] => do return .and (← ofJson? first) (← ofJson? second)
  | .arr [.str "or", first, second] => do return .or (← ofJson? first) (← ofJson? second)
  | _ => none

/-- The function of a value that a JSON value writes. -/
def ValueRule.ofJson? : Json → Option ValueRule
  | .arr [.str "id"] => some .keep
  | .arr [.str "const", value] => (Value.ofJson? value).map .constant
  | .arr [.str "show"] => some .show
  | .arr [.str "num"] => some .number
  | .arr [.str "mul", factor] => factor.int64?.map .times
  | .arr [.str "add", summand] => summand.int64?.map .plus
  | _ => none

/-- The combiner that a JSON value names. -/
def Combiner.ofJson? : Json → Option Combiner
  | .str "left" => some .left
  | .str "right" => some .right
  | .str "sum" => some .sum
  | .str "sub" => some .difference
  | .str "cat" => some .join
  | _ => none

/-- The function from entries to entries that a JSON value writes. -/
def EntryRule.ofJson? : Json → Option EntryRule
  | .arr [.str "keep"] => some .keep
  | .arr [.str "swap"] => some .swap
  | .arr [.str "const_key", key] => (Key.ofJson? key).map .constantKey
  | .arr [.str "key_mod", modulus] => (modulus? modulus).map .keyRemainder
  | .arr [.str "key_add", summand] => summand.int64?.map .keyPlus
  | .arr [.str "collide", word] => word.word?.map .collide
  | .arr [.str "tag", label] => label.str?.map .relabel
  | _ => none

/-- The function from entries to several entries that a JSON value writes. -/
def FanRule.ofJson? : Json → Option FanRule
  | .arr [.str "nothing"] => some .nothing
  | .arr [.str "both"] => some .both
  | .arr [.str "dup", count] => count.int64?.map .repeated
  | .arr [.str "fan_val"] => some .byValue
  | _ => none

/-- The classifier that a JSON value writes. -/
def Classifier.ofJson? : Json → Option Classifier
  | .arr [.str "mod", modulus] => (modulus? modulus).map .keyRemainder
  | .arr [.str "vmod", modulus] => (modulus? modulus).map .valueRemainder
  | .arr [.str "kind"] => some .kind
  | .arr [.str "val"] => some .value
  | .arr [.str "key"] => some .key
  | .arr [.str "collide", modulus] => (modulus? modulus).map .collide
  | .arr [.str "fail_if", test, classifier] => do
      return .failIf (← Predicate.ofJson? test) (← ofJson? classifier)
  | _ => none

/-- The step of a fold that a JSON value writes. -/
def FoldRule.ofJson? : Json → Option FoldRule
  | .arr [.str "sum"] => some .sum
  | .arr [.str "horner", factor] => factor.int64?.map .horner
  | .arr [.str "cat"] => some .concat
  | .arr [.str "last"] => some .last
  | _ => none

/-- The step of a scan that a JSON value writes. -/
def ScanRule.ofJson? : Json → Option ScanRule
  | .arr [.str "running"] => some .running
  | .arr [.str "mod", modulus] => (modulus? modulus).map .byRemainder
  | .arr [.str "max"] => some .greatest
  | _ => none

end HashTrie.Script
