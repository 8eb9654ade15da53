import HashTrie.Script.Query
import HashTrie.Script.Session.SetStep
import HashTrie.Traversal.Grouping

/-!
# Steps on maps

The steps of a session that make, change, combine and inspect maps, or put a query to
one.
-/

namespace HashTrie.Script

/-- The map with which a slot is filled. -/
inductive NewMap where
  | empty
  | singleton (key : Key) (value : Value)
  | ofEntries (entries : List Entry)

/-- What is made of a map. -/
inductive MapEdit where
  | keep
  | clear
  | distinct
  | insert (key : Key) (value : Value)
  | insertEntry (entry : Entry)
  | insertMany (entries : List Entry)
  | erase (key : Key)
  | eraseAll (keys : List Key)
  | update (key : Key) (rule : ValueRule)
  | alter (key : Key) (present : Option ValueRule) (absent : Option Value)
  | replace (current replacement : Entry)
  | mapValues (rule : ValueRule)

/-- What is made of two maps. -/
inductive MapCombination where
  | merge
  | mergeWith (combiner : Combiner)

/-- How two maps are compared. -/
inductive MapComparison where
  | equality
  | sharing

/-- What is asked of a map. -/
inductive MapInspection where
  | dump
  | length
  | get (key : Key)
  | apply (key : Key)
  | containsKey (key : Key)
  | containsValue (value : Value)
  | contains (entry : Entry)
  | keys
  | values
  | visit
  | transform (rule : FoldRule)
  | iterate (count : Nat)
  | handOut (count : Nat)
  | layout (pretty : Bool)
  | groupLayout (classifier : Classifier) (pretty : Bool)

/-- A step on maps: the slots that it reads, the slots that it fills, and what it does. A
quiet step shows the length of the map that it makes and not its entries. -/
inductive MapStep where
  | make (target : String) (quiet : Bool) (new : NewMap)
  | edit (slot target : String) (quiet : Bool) (edit : MapEdit)
  | combine (slot other target : String) (quiet : Bool) (combination : MapCombination)
  | compare (slot other : String) (comparison : MapComparison)
  | inspect (slot : String) (inspection : MapInspection)
  | peek (slot target : String)
  | keySet (slot target : String)
  | group (slot : String) (picked : Option (Key × String)) (total : Bool) (classifier : Classifier)
  | query (slot : String) (target second : Option String) (picked : Option Nat) (quiet : Bool)
      (query : Query)

/-- The new map. -/
def NewMap.build (stamp : Stamp) : NewMap → TrieMap Key Value
  | .empty => .empty
  | .singleton key value => .singleton stamp key value
  | .ofEntries entries => .ofList stamp entries

/-- The edited map, or none if there is nothing to update. -/
def MapEdit.apply (stamp : Stamp) (map : TrieMap Key Value) : MapEdit → Option (TrieMap Key Value)
  | .keep => some map
  | .clear => some map.clear
  | .distinct => some map.distinct
  | .insert key value => some (map.insert stamp key value)
  | .insertEntry entry => some (map.insertEntry stamp entry)
  | .insertMany entries => some (map.insertMany stamp entries)
  | .erase key => some (map.erase stamp key)
  | .eraseAll keys => some (map.eraseAll stamp keys)
  | .update key rule => map.update? stamp key rule.apply
  | .alter key present absent =>
      some <| map.alter stamp key fun
        | some value => present.map fun rule => rule.apply value
        | none => absent
  | .replace current replacement => some (map.replace stamp current replacement)
  | .mapValues rule => some (map.mapValues stamp rule.apply)

/-- The combined map. -/
def MapCombination.apply (stamp : Stamp) (map other : TrieMap Key Value) :
    MapCombination → TrieMap Key Value
  | .merge => map.merge stamp other
  | .mergeWith combiner => map.mergeWith stamp other combiner.apply

/-- The result of a comparison. Whether two empty maps share their root is left
unanswered, as one empty node is not told from another (`Trie.same`). -/
def MapComparison.answer (map other : TrieMap Key Value) : MapComparison → Json
  | .equality => .bool (map == other)
  | .sharing => if map.isEmpty && other.isEmpty then .null else .bool (map.sharesRoot other)

/-- The layout of a map. -/
def mapLayout (map : TrieMap Key Value) : Text.Layout :=
  .map (map.toList.map fun entry => (entry.1.layout, entry.2.layout))

/-- The entries that an action on every entry gets to see. -/
def visited (map : TrieMap Key Value) : List Entry :=
  (StateT.run (m := Id) (map.forM fun key value => modify ((key, value) :: ·)) []).2.reverse

/-- What a map answers. -/
def MapInspection.answer (map : TrieMap Key Value) : MapInspection → Except MapError Json
  | .dump => .ok (entryListing map)
  | .length =>
      .ok <| .arr [
        .ofNat map.length, .bool map.isEmpty, .ofNat (entryCount map), .ofNat map.cursor.remaining]
  | .get key =>
      .ok <| .obj <|
        match map.get? key with
        | some value => [("some", value.toJson)]
        | none => [("none", .bool true)]
  | .apply key => (map.apply key).map fun value => .obj [("some", value.toJson)]
  | .containsKey key => .ok (.bool (map.containsKey key))
  | .containsValue value => .ok (.bool (map.containsValue value))
  | .contains entry => .ok (.bool (map.contains entry))
  | .keys => .ok (listingOf Key.toJson map.keys)
  | .values => .ok (listingOf Value.toJson map.values)
  | .visit => .ok (listingOf Entry.toJson (visited map))
  | .transform rule =>
      .ok (map.transform fun map => Traversal.foldLeft map .null rule.step).toJson
  | .iterate count => .ok (iteration Entry.toJson count (some .copy) map.cursor)
  | .handOut count => .ok (iteration Entry.toJson count none map.gathered)
  | .layout pretty => .ok (written pretty (mapLayout map))
  | .groupLayout classifier pretty =>
      let groups : TrieMap Key (TrieMap Key Value) :=
        Traversal.groupBy (.ofNat 0) map classifier.classOf
      .ok <| written pretty <| .map <|
        groups.toList.map fun group => (group.1.layout, mapLayout group.2)

namespace MapStep

/-- Put a map into a slot and show it. -/
def fill (target : String) (quiet : Bool) (map : TrieMap Key Value) : Act Json := do
  Act.keepMap target map
  return if quiet then .obj [("len", .ofNat map.length)] else entryListing map

/-- Put a map into a slot, if one is named. -/
def fillNamed (target : Option String) (map : TrieMap Key Value) : Act Unit :=
  target.forM fun target => Act.keepMap target map

/-- Carry out a grouping and keep the group that was picked, if it is there. -/
def performGroup (stamp : Stamp) (map : TrieMap Key Value) (picked : Option (Key × String))
    (total : Bool) (classifier : Classifier) : Act Json := do
  let groups : Except String (TrieMap Key (TrieMap Key Value)) :=
    if total then .ok (Traversal.groupBy stamp map classifier.classOf)
    else Traversal.tryGroupBy stamp map fun entry => classifier.classify entry
  match groups with
  | .error reason => throw (.unclassified reason)
  | .ok groups =>
      if let some (label, target) := picked then
        if let some members := groups.get? label then Act.keepMap target members
      return .arr (groups.toList.map fun group => .arr [group.1.toJson, entryListing group.2])

/-- Keep what a query yields and show it. A single map goes to the slot of the step
unless another one is named; of several maps only those with a slot to go to are kept. -/
def keepOutcome (slot : String) (target second : Option String) (picked : Option Nat)
    (quiet : Bool) : Outcome (TrieMap Key Value) → Act Json
  | .container map | .maybe (some map) => fill (target.getD slot) quiet map
  | .maybe none => return .null
  | .pair first other => do
      fillNamed target first
      fillNamed second other
      return .arr [entryListing first, entryListing other]
  | .parts maps => do
      if let some map := picked.bind fun (index : Nat) => maps[index]? then
        fillNamed target map
      return listingOf entryListing maps
  | .answer json => return json
  | .refused error => throw (.map error)

/-- Carry out a step. -/
def perform (stamp : Stamp) : MapStep → Act Json
  | .make target quiet new => fill target quiet (new.build stamp)
  | .edit slot target quiet change => do
      match change.apply stamp (← Act.mapIn slot) with
      | some map => fill target quiet map
      | none => return .null
  | .combine slot other target quiet combination => do
      fill target quiet (combination.apply stamp (← Act.mapIn slot) (← Act.mapIn other))
  | .compare slot other comparison => do
      return comparison.answer (← Act.mapIn slot) (← Act.mapIn other)
  | .inspect slot inspection => do
      match inspection.answer (← Act.mapIn slot) with
      | .ok json => return json
      | .error error => throw (.map error)
  | .peek slot target => do
      let (seen, map) := (← Act.mapIn slot).peek Prod.mk
      Act.keepMap target map
      return orNull (seen.map Entry.toJson)
  | .keySet slot target => do SetStep.fill target ((← Act.mapIn slot).keySet stamp)
  | .group slot picked total classifier => do
      performGroup stamp (← Act.mapIn slot) picked total classifier
  | .query slot target second picked quiet question => do
      keepOutcome slot target second picked quiet (question.outcome stamp (← Act.mapIn slot))

end MapStep

end HashTrie.Script
