import HashTrie.Bitmap
import HashTrie.Run
import HashTrie.Stamp

/-!
# Hash tries

The nodes of a trie, what they hold, and when two of them are the same node.

A leaf holds the run of one hash. A branch stands at a depth and sends each entry
to the slot that its hash names there; it stores the children of its occupied
slots without gaps and remembers how many entries lie below it. The empty node is
the root of a map without entries and occurs nowhere else; one empty node is not
told from another.
-/

namespace HashTrie

/-- A node of a hash trie. -/
inductive Trie (κ ν : Type) where
  | empty
  | leaf (stamp : Stamp) (hash : UInt64) (run : Run κ ν)
  | branch (stamp : Stamp) (bitmap : Bitmap) (size : Nat) (children : List (Trie κ ν))

namespace Trie

variable {κ ν ω : Type}

instance : Inhabited (Trie κ ν) := ⟨.empty⟩

/-- The number of entries, as the nodes remember it. -/
def size : Trie κ ν → Nat
  | .empty => 0
  | .leaf _ _ run => run.length
  | .branch _ _ size _ => size

/-- The number of entries of several nodes. -/
def sizes (nodes : List (Trie κ ν)) : Nat := nodes.foldr (fun node total => node.size + total) 0

/-- Whether the node is the empty one. -/
def isEmpty : Trie κ ν → Bool
  | .empty => true
  | _ => false

/-- Whether the node is a leaf. -/
def isLeaf : Trie κ ν → Bool
  | .leaf .. => true
  | _ => false

/-- Whether two nodes met at one place are the same node.

A branch never moves, so one operation builds at most one at a place and the
stamps decide. A leaf moves up when its neighbours go and down when new ones
come, so leaves of one operation can meet; these differ in their hash.

Empty nodes bear no stamp and all count as the same, even those that were made
independently of one another. Only the question whether two empty maps share
their root can tell: such maps are equal and merge into an empty map in any
case. -/
def same : Trie κ ν → Trie κ ν → Bool
  | .empty, .empty => true
  | .leaf stamp hash _, .leaf other otherHash _ => stamp == other && hash == otherHash
  | .branch stamp .., .branch other .. => stamp == other
  | _, _ => false

mutual

/-- The entries in iteration order: children by slot, runs in their own order. -/
def toList : Trie κ ν → List (κ × ν)
  | .empty => []
  | .leaf _ _ run => run
  | .branch _ _ _ children => toLists children

/-- The entries of several nodes in turn. -/
def toLists : List (Trie κ ν) → List (κ × ν)
  | [] => []
  | child :: children => toList child ++ toLists children

end

theorem toLists_eq_flatMap (children : List (Trie κ ν)) :
    toLists children = children.flatMap toList := by
  induction children with
  | nil => rfl
  | cons child children ih => simp [toLists, ih]

mutual

/-- The trie of the same shape with every value mapped. Keys are not hashed
again, and every node is a new one. -/
def mapValues (stamp : Stamp) (function : ν → ω) : Trie κ ν → Trie κ ω
  | .empty => .empty
  | .leaf _ hash run => .leaf stamp hash (run.map fun entry => (entry.1, function entry.2))
  | .branch _ bitmap size children =>
      .branch stamp bitmap size (mapValuesAll stamp function children)

/-- Several nodes with every value mapped. -/
def mapValuesAll (stamp : Stamp) (function : ν → ω) : List (Trie κ ν) → List (Trie κ ω)
  | [] => []
  | child :: children => mapValues stamp function child :: mapValuesAll stamp function children

end

theorem mapValuesAll_eq_map (stamp : Stamp) (function : ν → ω) (children : List (Trie κ ν)) :
    mapValuesAll stamp function children = children.map (mapValues stamp function) := by
  induction children with
  | nil => rfl
  | cons child children ih => simp [mapValuesAll, ih]

/-- The child in a slot, if the slot is occupied. -/
def childAt (bitmap : Bitmap) (children : List (Trie κ ν)) (slot : Slot) : Option (Trie κ ν) :=
  if bitmap.contains slot then children[bitmap.rank slot]? else none

end Trie

end HashTrie
