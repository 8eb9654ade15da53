import HashTrie.Traversal.Basic

/-!
# Sorted maps

A map that keeps its entries in ascending order of the keys.
-/

namespace HashTrie

/-- A map in key order. -/
structure SortedMap (κ ν : Type) where
  entries : List (κ × ν)
deriving Inhabited

namespace SortedMap

variable {κ ν : Type}

/-- Put an entry in its place in an ascending list; an entry with an equal key
gives way to it. -/
def put [Ord κ] (entry : κ × ν) : List (κ × ν) → List (κ × ν)
  | [] => [entry]
  | other :: rest =>
      match compare entry.1 other.1 with
      | .lt => entry :: other :: rest
      | .eq => entry :: rest
      | .gt => other :: put entry rest

/-- Put an entry into a map. -/
def insert [Ord κ] (map : SortedMap κ ν) (key : κ) (value : ν) : SortedMap κ ν :=
  ⟨put (key, value) map.entries⟩

/-- The value of a key. -/
def get? [Ord κ] (map : SortedMap κ ν) (key : κ) : Option ν :=
  (map.entries.find? fun entry => (compare key entry.1).isEq).map Prod.snd

/-- The map of the given entries; of entries with equal keys the last one is kept. -/
def ofList [Ord κ] (entries : List (κ × ν)) : SortedMap κ ν :=
  entries.foldl (fun sorted entry => sorted.insert entry.1 entry.2) ⟨[]⟩

instance : EntrySequence (SortedMap κ ν) κ ν where
  entries := SortedMap.entries

instance [Ord κ] : Collection (SortedMap κ ν) κ ν where
  collect _ := ofList

end SortedMap

end HashTrie
