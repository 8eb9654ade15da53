import HashTrie.Script.Argument
import HashTrie.Script.Session.Slots

/-!
# Steps on sets

The steps of a session that make, combine and inspect sets.
-/

namespace HashTrie.Script

/-- The set with which a slot is filled. -/
inductive NewSet where
  | empty
  | singleton (key : Key)
  | ofKeys (keys : List Key)

/-- What is made of a set. -/
inductive SetEdit where
  | keep
  | insert (key : Key)
  | erase (key : Key)

/-- What is made of two sets. -/
inductive SetCombination where
  | union
  | intersection
  | difference

/-- What is asked of a set. -/
inductive SetInspection where
  | dump
  | length
  | contains (key : Key)
  | layout (pretty : Bool)
  | iterate (count : Nat)
  | handOut (count : Nat)

/-- A step on sets: the slots that it reads, the slot that it fills, and what it does. -/
inductive SetStep where
  | make (target : String) (new : NewSet)
  | edit (slot target : String) (edit : SetEdit)
  | combine (slot other target : String) (combination : SetCombination)
  | relate (slot other : String)
  | inspect (slot : String) (inspection : SetInspection)

/-- The new set. -/
def NewSet.build (stamp : Stamp) : NewSet → TrieSet Key
  | .empty => .empty
  | .singleton key => .singleton stamp key
  | .ofKeys keys => .ofList stamp keys

/-- The edited set. -/
def SetEdit.apply (stamp : Stamp) (set : TrieSet Key) : SetEdit → TrieSet Key
  | .keep => set
  | .insert key => set.insert stamp key
  | .erase key => set.erase stamp key

/-- The combined set. -/
def SetCombination.apply (stamp : Stamp) (set other : TrieSet Key) : SetCombination → TrieSet Key
  | .union => set.union stamp other
  | .intersection => set.intersection stamp other
  | .difference => set.difference stamp other

/-- What a set answers. -/
def SetInspection.answer (set : TrieSet Key) : SetInspection → Json
  | .dump => elementListing set
  | .length => .arr [.ofNat set.length, .bool set.isEmpty, .ofNat set.cursor.remaining]
  | .contains key => .bool (set.contains key)
  | .layout pretty => written pretty (.set (set.toList.map Key.layout))
  | .iterate count => iteration (fun entry => entry.1.toJson) count none set.cursor
  | .handOut count => iteration (fun entry => entry.1.toJson) count none set.gathered

namespace SetStep

/-- Put a set into a slot and show it. -/
def fill (target : String) (set : TrieSet Key) : Act Json := do
  Act.keepSet target set
  return elementListing set

/-- Carry out a step. -/
def perform (stamp : Stamp) : SetStep → Act Json
  | .make target new => fill target (new.build stamp)
  | .edit slot target change => do fill target (change.apply stamp (← Act.setIn slot))
  | .combine slot other target combination => do
      fill target (combination.apply stamp (← Act.setIn slot) (← Act.setIn other))
  | .relate slot other => do
      let set ← Act.setIn slot
      let other ← Act.setIn other
      return .obj [
        ("eq", .bool (set == other)),
        ("subset", .bool (set.isSubset other)),
        ("superset", .bool (set.isSuperset other))]
  | .inspect slot inspection => return inspection.answer (← Act.setIn slot)

/-- The step of the given name that a request writes. A new set goes to the slot that is
named for it or else to the one that other steps would read. -/
def ofRequest? (name : String) (request : Json) : Option SetStep := do
  let slot? := argument? Json.str? "s" request
  let target? := (← option? Json.str? "to" request) <|> slot?
  let key? := argument? Key.ofJson? "k" request
  let other? := argument? Json.str? "o" request
  match name with
  | "s_new" | "s_default" => return .make (← target?) .empty
  | "s_singleton" => return .make (← target?) (.singleton (← key?))
  | "s_from" =>
      return .make (← target?) (.ofKeys (← argument? (listOf? Key.ofJson?) "keys" request))
  | "s_clone" => return .edit (← slot?) (← target?) .keep
  | "s_insert" => return .edit (← slot?) (← target?) (.insert (← key?))
  | "s_remove" => return .edit (← slot?) (← target?) (.erase (← key?))
  | "s_union" => return .combine (← slot?) (← other?) (← target?) .union
  | "s_intersection" => return .combine (← slot?) (← other?) (← target?) .intersection
  | "s_difference" => return .combine (← slot?) (← other?) (← target?) .difference
  | "s_relate" => return .relate (← slot?) (← other?)
  | "s_dump" => return .inspect (← slot?) .dump
  | "s_len" => return .inspect (← slot?) .length
  | "s_contains" => return .inspect (← slot?) (.contains (← key?))
  | "s_debug" => return .inspect (← slot?) (.layout (← flag? "pretty" request))
  | "s_iter" => return .inspect (← slot?) (.iterate (← argument? count? "n" request))
  | "s_into_iter" => return .inspect (← slot?) (.handOut (← argument? count? "n" request))
  | _ => none

end SetStep

end HashTrie.Script
