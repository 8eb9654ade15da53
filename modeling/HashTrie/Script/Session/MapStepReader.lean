import HashTrie.Script.Session.MapStep

/-!
# Reading steps on maps

A step names what it does and the slot that it reads. The map that it makes goes to
that slot unless another one is named. A step that makes a new map reads no slot, so
either name will do.
-/

namespace HashTrie.Script

/-- The greatest distance between the ends of a range of keys. -/
def longestRange : Int := 5000

/-- The numbers from a start on that lie a positive step apart below an end. -/
def range? (request : Json) : Option (List Int64) := do
  let start ← argument? Json.int64? "from" request
  let stop ← argument? Json.int64? "until" request
  let step ← argument? Json.int64? "by" request
  let distance := stop.toInt - start.toInt
  guard (0 < step ∧ distance ≤ longestRange)
  let count := (distance + step.toInt - 1) / step.toInt
  return (List.range count.toNat).map fun (index : Nat) => start + .ofNat index * step

/-- The new map of the given name that a request writes. -/
def NewMap.ofRequest? (name : String) (request : Json) : Option NewMap :=
  match name with
  | "new" | "default" => some .empty
  | "singleton" => do
      return .singleton (← argument? Key.ofJson? "k" request)
        (← argument? Value.ofJson? "v" request)
  | "from" => (argument? (listOf? Entry.ofJson?) "entries" request).map .ofEntries
  | _ => none

/-- The edit of the given name that a request writes. -/
def MapEdit.ofRequest? (name : String) (request : Json) : Option MapEdit :=
  match name with
  | "clone" => some .keep
  | "clear" => some .clear
  | "distinct" => some .distinct
  | "insert" => do
      return .insert (← argument? Key.ofJson? "k" request) (← argument? Value.ofJson? "v" request)
  | "insert_entry" => (argument? Entry.ofJson? "entry" request).map .insertEntry
  | "insert_many" => (argument? (listOf? Entry.ofJson?) "entries" request).map .insertMany
  | "insert_range" => do
      let factor ← argument? Json.int64? "mul" request
      return .insertMany ((← range? request).map fun key => (.int key, .int (key * factor)))
  | "remove" => (argument? Key.ofJson? "k" request).map .erase
  | "remove_all" => (argument? (listOf? Key.ofJson?) "keys" request).map .eraseAll
  | "remove_range" => (range? request).map fun keys => .eraseAll (keys.map .int)
  | "update" => do
      return .update (← argument? Key.ofJson? "k" request)
        (← argument? ValueRule.ofJson? "f" request)
  | "update_with" => do
      return .alter (← argument? Key.ofJson? "k" request)
        (← option? ValueRule.ofJson? "some" request) (← option? Value.ofJson? "none" request)
  | "replace" => do
      return .replace (← argument? Entry.ofJson? "entry" request)
        (← argument? Entry.ofJson? "with" request)
  | "map_values" => (argument? ValueRule.ofJson? "f" request).map .mapValues
  | _ => none

/-- The combination of the given name that a request writes. -/
def MapCombination.ofRequest? (name : String) (request : Json) : Option MapCombination :=
  match name with
  | "merge" => some .merge
  | "merge_with" => (argument? Combiner.ofJson? "f" request).map .mergeWith
  | _ => none

/-- The comparison of the given name. -/
def MapComparison.ofName? : String → Option MapComparison
  | "eq" => some .equality
  | "ptr_eq" => some .sharing
  | _ => none

/-- The inspection of the given name that a request writes. -/
def MapInspection.ofRequest? (name : String) (request : Json) : Option MapInspection :=
  match name with
  | "dump" => some .dump
  | "len" => some .length
  | "get" => (argument? Key.ofJson? "k" request).map .get
  | "apply" => (argument? Key.ofJson? "k" request).map .apply
  | "contains_key" => (argument? Key.ofJson? "k" request).map .containsKey
  | "contains_value" => (argument? Value.ofJson? "v" request).map .containsValue
  | "contains" => do
      return .contains
        (← argument? Key.ofJson? "k" request, ← argument? Value.ofJson? "v" request)
  | "keys" => some .keys
  | "values" => some .values
  | "for_each" => some .visit
  | "transform" => (argument? FoldRule.ofJson? "f" request).map .transform
  | "iter" => (argument? count? "n" request).map .iterate
  | "into_iter" => (argument? count? "n" request).map .handOut
  | "debug" => (flag? "pretty" request).map .layout
  | "debug_groups" => do
      return .groupLayout (← argument? Classifier.ofJson? "f" request) (← flag? "pretty" request)
  | _ => none

namespace MapStep

/-- The grouping that a request writes. A group is kept if both its class and a slot for
it are named. -/
def groupOfRequest? (slot : String) (target : Option String) (total : Bool) (request : Json) :
    Option MapStep := do
  let classifier ← argument? Classifier.ofJson? "f" request
  let label ← option? Key.ofJson? "pick" request
  return .group slot (label.bind fun label => target.map fun target => (label, target)) total
    classifier

/-- The query of the given name that a request writes. -/
def queryOfRequest? (name slot : String) (target : Option String) (quiet : Bool) (request : Json) :
    Option MapStep := do
  let question ← Query.ofRequest? "entries" name request
  let second ← option? Json.str? "to2" request
  let picked ← option? count? "pick" request
  return .query slot target second picked quiet question

/-- The step of the given name on the map in a slot. -/
def ofSlotRequest? (name slot : String) (named : Option String) (quiet : Bool) (request : Json) :
    Option MapStep :=
  let target := named.getD slot
  match name with
  | "peek" => some (.peek slot target)
  | "key_set" => named.map (.keySet slot)
  | "group_by" => groupOfRequest? slot named true request
  | "try_group_by" => groupOfRequest? slot named false request
  | name =>
      let other? := argument? Json.str? "o" request
      (do return .edit slot target quiet (← MapEdit.ofRequest? name request)) <|>
      (do
        let combination ← MapCombination.ofRequest? name request
        return .combine slot (← other?) target quiet combination) <|>
      (do return .compare slot (← other?) (← MapComparison.ofName? name)) <|>
      (do return .inspect slot (← MapInspection.ofRequest? name request)) <|>
      queryOfRequest? name slot named quiet request

/-- The step of the given name that a request writes. -/
def ofRequest? (name : String) (request : Json) : Option MapStep := do
  let slot? := argument? Json.str? "m" request
  let named ← option? Json.str? "to" request
  let quiet ← flag? "quiet" request
  (do return .make (← named <|> slot?) quiet (← NewMap.ofRequest? name request)) <|>
  (do ofSlotRequest? name (← slot?) named quiet request)

end MapStep

end HashTrie.Script
