/-!
# Errors

The reasons for which an operation on a map gives no result, and their wording.
-/

namespace HashTrie

/-- The operations that refuse some of their inputs. -/
inductive Operation where
  | init
  | tail
  | grouped
  | sliding
deriving DecidableEq, Repr

/-- The name of an operation in messages. -/
def Operation.name : Operation → String
  | .init => "init"
  | .tail => "tail"
  | .grouped => "grouped"
  | .sliding => "sliding"

/-- The parameters that have to be positive. -/
inductive Parameter where
  | size
  | step
deriving DecidableEq, Repr

/-- The name of a parameter in messages. -/
def Parameter.name : Parameter → String
  | .size => "size"
  | .step => "step"

/-- Why an operation on a map gives no result. -/
inductive MapError where
  /-- The key is not in the map. -/
  | keyNotFound
  /-- The operation needs an entry and the map has none. -/
  | emptyMap (operation : Operation)
  /-- A parameter that divides the entries into parts is not positive. -/
  | invalidPartition (operation : Operation) (parameter : Parameter) (value : Nat)
deriving DecidableEq, Repr

namespace MapError

/-- The name of the kind of error. -/
def kind : MapError → String
  | .keyNotFound => "KeyNotFound"
  | .emptyMap _ => "EmptyMap"
  | .invalidPartition .. => "InvalidPartitionParameter"

/-- The wording of an error. -/
def message : MapError → String
  | .keyNotFound => "key not found"
  | .emptyMap operation => operation.name ++ " of an empty map"
  | .invalidPartition operation parameter value =>
      operation.name ++ ": " ++ parameter.name ++ " must be positive, got " ++ toString value

/-- A parameter together with the fact that it is positive. -/
def requirePositive (operation : Operation) (parameter : Parameter) (value : Nat) :
    Except MapError { count : Nat // 0 < count } :=
  if positive : 0 < value then .ok ⟨value, positive⟩
  else .error (.invalidPartition operation parameter value)

end MapError

end HashTrie
