import HashTrie.Script.Listing
import HashTrie.Script.Refusal
import HashTrie.SortedMap

/-!
# Slots

A session keeps maps and sets in slots with names of their own. Filling a slot leaves
every other slot as it is, since maps and sets are never changed.
-/

namespace HashTrie.Script

/-- The slots of a session. -/
structure Slots where
  maps : SortedMap String (TrieMap Key Value)
  sets : SortedMap String (TrieSet Key)

/-- The slots at the start of a session. -/
def Slots.empty : Slots := ⟨⟨[]⟩, ⟨[]⟩⟩

/-- Work on slots that may be refused, in which case it has changed nothing. -/
abbrev Act := StateT Slots (Except Refusal)

namespace Act

/-- The map in a slot. -/
def mapIn (slot : String) : Act (TrieMap Key Value) := do
  match (← get).maps.get? slot with
  | some map => return map
  | none => throw .noSuchSlot

/-- The set in a slot. -/
def setIn (slot : String) : Act (TrieSet Key) := do
  match (← get).sets.get? slot with
  | some set => return set
  | none => throw .noSuchSlot

/-- Put a map into a slot. -/
def keepMap (slot : String) (map : TrieMap Key Value) : Act Unit :=
  modify fun slots => { slots with maps := slots.maps.insert slot map }

/-- Put a set into a slot. -/
def keepSet (slot : String) (set : TrieSet Key) : Act Unit :=
  modify fun slots => { slots with sets := slots.sets.insert slot set }

end Act

/-- What the slots hold at the end of a session: for each of them the length and a
digest. -/
def Slots.toJson (slots : Slots) : Json :=
  .obj <|
    (slots.maps.entries.map fun (slot, map) =>
      ("m." ++ slot, .arr [.ofNat map.length, digestOf (map.toList.map Entry.toJson)])) ++
    (slots.sets.entries.map fun (slot, set) =>
      ("s." ++ slot, .arr [.ofNat set.length, digestOf (set.toList.map Key.toJson)]))

end HashTrie.Script
