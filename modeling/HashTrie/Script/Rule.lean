import HashTrie.Script.Value

/-!
# Rules of a script

The functions that a script hands to the operations: tests of entries, functions of
values, and so on. They are data, so that a script can write them down.
-/

namespace HashTrie.Script

/-- The remainder of a division that is never negative. -/
def remainder (number modulus : Int64) : Int64 := .ofInt (number.toInt % modulus.toInt)

/-- A test of an entry. -/
inductive Predicate where
  | always (accepted : Bool)
  | keyBelow (key : Key)
  | keyIs (key : Key)
  | valueIs (value : Value)
  | valueBelow (bound : Int64)
  | keyRemainder (modulus rest : Int64)
  | valueRemainder (modulus rest : Int64)
  | not (test : Predicate)
  | and (first second : Predicate)
  | or (first second : Predicate)

/-- Whether a test accepts an entry. -/
def Predicate.accepts (entry : Entry) : Predicate → Bool
  | .always accepted => accepted
  | .keyBelow key => compare entry.1 key == .lt
  | .keyIs key => entry.1 == key
  | .valueIs value => entry.2 == value
  | .valueBelow bound => entry.2.num < bound
  | .keyRemainder modulus rest => remainder entry.1.num modulus == rest
  | .valueRemainder modulus rest => remainder entry.2.num modulus == rest
  | .not test => !test.accepts entry
  | .and first second => first.accepts entry && second.accepts entry
  | .or first second => first.accepts entry || second.accepts entry

/-- A function of a value. -/
inductive ValueRule where
  | keep
  | constant (value : Value)
  | show
  | number
  | times (factor : Int64)
  | plus (summand : Int64)

/-- The value that a rule makes of a value. -/
def ValueRule.apply : ValueRule → Value → Value
  | .keep, value => value
  | .constant value, _ => value
  | .show, value => .text value.toJson.compact
  | .number, value => .int value.num
  | .times factor, .int value => .int (value * factor)
  | .times _, value => value
  | .plus summand, .null => .int summand
  | .plus summand, .int value => .int (value + summand)
  | .plus summand, .text value => .text (value ++ toString summand.toInt)
  | .plus _, .float bits => .float bits

/-- A way to make one value of two. -/
inductive Combiner where
  | left
  | right
  | sum
  | difference
  | join

/-- The value that a combiner makes of two values. -/
def Combiner.apply : Combiner → Value → Value → Value
  | .left, first, _ => first
  | .right, _, second => second
  | .sum, .int first, .int second => .int (first + second)
  | .difference, .int first, .int second => .int (first - second)
  | _, first, second => .text (first.display ++ "|" ++ second.display)

/-- A function that makes an entry of an entry. -/
inductive EntryRule where
  | keep
  | swap
  | constantKey (key : Key)
  | keyRemainder (modulus : Int64)
  | keyPlus (summand : Int64)
  | collide (word : UInt64)
  | relabel (label : String)

/-- The entry that a rule makes of an entry. -/
def EntryRule.apply : EntryRule → Entry → Entry
  | .keep, entry => entry
  | .swap, (key, value) => (value.toKey, .ofKey key)
  | .constantKey key, (_, value) => (key, value)
  | .keyRemainder modulus, (key, value) => (.int (remainder key.num modulus), value)
  | .keyPlus summand, (key, value) => (.int (key.num + summand), value)
  | .collide word, (key, value) => (.custom word key.num key.toJson.compact, value)
  | .relabel label, (.custom word id _, value) => (.custom word id label, value)
  | .relabel _, entry => entry

/-- A function that makes several entries of an entry. -/
inductive FanRule where
  | nothing
  | both
  | repeated (count : Int64)
  | byValue

/-- Entries with successive keys from the number of a key on. -/
def successors (key : Key) (count : Nat) : List Entry :=
  (List.range count).map fun (index : Nat) =>
    (.int (key.num + .ofNat index), .int (.ofNat index))

/-- The entries that a rule makes of an entry. -/
def FanRule.apply : FanRule → Entry → List Entry
  | .nothing, _ => []
  | .both, (key, value) => [(key, value), (value.toKey, .ofKey key)]
  | .repeated count, (key, _) => successors key (min 64 count.toInt.toNat)
  | .byValue, (key, value) => successors key (min 8 value.num.toInt.toNat)

/-- A function that puts an entry into a class, or says why it cannot. -/
inductive Classifier where
  | keyRemainder (modulus : Int64)
  | valueRemainder (modulus : Int64)
  | kind
  | value
  | key
  | collide (modulus : Int64)
  | failIf (test : Predicate) (classifier : Classifier)

/-- The class of an entry, or the reason why it has none. -/
def Classifier.classify (entry : Entry) : Classifier → Except String Key
  | .keyRemainder modulus => .ok (.int (remainder entry.1.num modulus))
  | .valueRemainder modulus => .ok (.int (remainder entry.2.num modulus))
  | .kind =>
      .ok <| .text <|
        match entry.1 with
        | .int _ => "int"
        | .text _ => "str"
        | .custom .. => "custom"
  | .value => .ok entry.2.toKey
  | .key => .ok entry.1
  | .collide modulus =>
      .ok (.custom 7 (remainder entry.1.num modulus) entry.1.toJson.compact)
  | .failIf test classifier =>
      if test.accepts entry then .error ("cannot classify " ++ entry.1.toJson.compact)
      else classifier.classify entry

/-- The class of an entry, where the entries without one make a class of their own. -/
def Classifier.classOf (classifier : Classifier) (entry : Entry) : Key :=
  match classifier.classify entry with
  | .ok label => label
  | .error _ => .int (-1)

/-- The result of classifying an entry, as something to be compared. -/
inductive Verdict where
  | classified (label : Key)
  | failed (reason : String)

/-- Verdicts are equal if they name equal classes or the same reason. -/
instance : BEq Verdict where
  beq
    | .classified label, .classified other => label == other
    | .failed reason, .failed other => reason == other
    | _, _ => false

/-- The verdict on an entry. -/
def Classifier.verdict (classifier : Classifier) (entry : Entry) : Verdict :=
  match classifier.classify entry with
  | .ok label => .classified label
  | .error reason => .failed reason

/-- A step of a fold over entries. -/
inductive FoldRule where
  | sum
  | horner (factor : Int64)
  | concat
  | last

/-- The state of a fold after an entry. -/
def FoldRule.step (rule : FoldRule) (state : Value) (entry : Entry) : Value :=
  match rule with
  | .sum => .int (state.num + entry.2.num)
  | .horner factor => .int (state.num * factor + entry.1.num)
  | .concat =>
      .text (state.display ++ entry.1.toJson.compact ++ "=" ++ entry.2.toJson.compact ++ ";")
  | .last => .ofKey entry.1

/-- A step of a scan whose states are entries. -/
inductive ScanRule where
  | running
  | byRemainder (modulus : Int64)
  | greatest

/-- The state of a scan after an entry. -/
def ScanRule.step (rule : ScanRule) (state entry : Entry) : Entry :=
  match rule with
  | .running => (entry.1, .int (state.2.num + entry.2.num))
  | .byRemainder modulus =>
      (.int (remainder entry.1.num modulus), .int (state.2.num + entry.2.num))
  | .greatest => if state.2.num < entry.2.num then entry else state

end HashTrie.Script
