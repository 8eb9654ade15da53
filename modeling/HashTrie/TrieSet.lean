import HashTrie.Traversal.Selection
import HashTrie.TrieMap

/-!
# Sets

An immutable set of elements: a map whose values carry nothing.
-/

namespace HashTrie

/-- An immutable set: the keys of a map. -/
structure TrieSet (κ : Type) where
  map : TrieMap κ Unit
deriving Inhabited

namespace TrieSet

variable {κ : Type}

/-- The set without elements. -/
def empty : TrieSet κ := ⟨.empty⟩

/-- The number of elements. -/
def length (set : TrieSet κ) : Nat := set.map.length

/-- Whether the set has no elements. -/
def isEmpty (set : TrieSet κ) : Bool := set.map.isEmpty

/-- The elements in iteration order. -/
def toList (set : TrieSet κ) : List κ := set.map.keys

/-- A lazy iteration over the elements. -/
def cursor (set : TrieSet κ) : Trie.Cursor κ Unit := set.map.cursor

/-- An iteration over copies of the elements. -/
def gathered (set : TrieSet κ) : Trie.Gathered κ Unit := set.map.gathered

section Hashed

variable [BEq κ] [Hashable κ]

/-- Whether an element is in the set. -/
def contains (set : TrieSet κ) (element : κ) : Bool := set.map.containsKey element

/-- Whether every element of the first set is in the second. -/
def isSubset (set other : TrieSet κ) : Bool :=
  decide (set.length ≤ other.length) && set.toList.all other.contains

/-- Whether every element of the second set is in the first. -/
def isSuperset (set other : TrieSet κ) : Bool := other.isSubset set

instance : BEq (TrieSet κ) where
  beq set other := set.map == other.map

/-- Add an element; the element given is the one stored. -/
def insert (stamp : Stamp) (set : TrieSet κ) (element : κ) : TrieSet κ :=
  ⟨set.map.insert stamp element ()⟩

/-- The set of one element. -/
def singleton (stamp : Stamp) (element : κ) : TrieSet κ := empty.insert stamp element

/-- The set of the given elements. -/
def ofList (stamp : Stamp) (elements : List κ) : TrieSet κ :=
  ⟨.ofList stamp (elements.map fun element => (element, ()))⟩

/-- Take out an element. -/
def erase (stamp : Stamp) (set : TrieSet κ) (element : κ) : TrieSet κ :=
  ⟨set.map.erase stamp element⟩

/-- The elements of either set; an element of both is stored as in the first. -/
def union (stamp : Stamp) (set other : TrieSet κ) : TrieSet κ :=
  ⟨set.map.merge stamp other.map⟩

/-- The elements of both sets, stored as in the one with fewer elements, or as in
the first if they have equally many. -/
def intersection (stamp : Stamp) (set other : TrieSet κ) : TrieSet κ :=
  let (smaller, larger) := if set.length ≤ other.length then (set, other) else (other, set)
  ⟨Traversal.filter stamp smaller.map fun entry => larger.contains entry.1⟩

/-- The elements of the first set that are not in the second. -/
def difference (stamp : Stamp) (set other : TrieSet κ) : TrieSet κ :=
  ⟨Traversal.filterNot stamp set.map fun entry => other.contains entry.1⟩

end Hashed

end TrieSet

/-- The keys of a map, in a set of the same shape. -/
def TrieMap.keySet {κ ν : Type} (stamp : Stamp) (map : TrieMap κ ν) : TrieSet κ :=
  ⟨map.mapValues stamp fun _ => ()⟩

end HashTrie
