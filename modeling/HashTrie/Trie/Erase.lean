import HashTrie.Trie.Basic

/-!
# Removal

Taking an entry out rebuilds the nodes on the path of its hash. A branch left
with a single leaf gives way to that leaf, level by level, so that the trie is
the one that the remaining entries build by themselves. A branch left with a
single branch stays, since the depth of a branch decides which digit it reads.
-/

namespace HashTrie.Trie

variable {κ ν : Type}

/-- The node that takes the place of a branch with one slot cleared. -/
def ofRemaining (stamp : Stamp) (bitmap : Bitmap) (size : Nat) :
    List (Trie κ ν) → Trie κ ν
  | [] => .empty
  | [survivor] =>
      if survivor.isLeaf then survivor else .branch stamp bitmap size [survivor]
  | children => .branch stamp bitmap size children

mutual

/-- Take out the entry under a key with the given hash, at or below a depth;
nothing if there is no such entry. -/
def erase? [BEq κ] (stamp : Stamp) (key : κ) (hash : UInt64) (depth : Nat) :
    Trie κ ν → Option (Trie κ ν)
  | .empty => none
  | .leaf _ leafHash run =>
      if leafHash = hash then
        (run.erase? key).map fun
          | [] => .empty
          | run => .leaf stamp hash run
      else none
  | .branch _ bitmap size children =>
      let slot := digit hash depth
      let position := bitmap.rank slot
      if bitmap.contains slot then
        (eraseChild? stamp key hash depth children position).map fun child =>
          if child.isEmpty then
            ofRemaining stamp (bitmap.erase slot) (size - 1) (children.eraseIdx position)
          else if children.length == 1 && child.isLeaf then child
          else .branch stamp bitmap (size - 1) (children.set position child)
      else none

/-- The child at a position with the entry taken out. -/
def eraseChild? [BEq κ] (stamp : Stamp) (key : κ) (hash : UInt64) (depth : Nat) :
    List (Trie κ ν) → Nat → Option (Trie κ ν)
  | [], _ => none
  | child :: _, 0 => erase? stamp key hash (depth + 1) child
  | _ :: children, position + 1 => eraseChild? stamp key hash depth children position

end

theorem eraseChild?_eq [BEq κ] (stamp : Stamp) (key : κ) (hash : UInt64) (depth : Nat)
    (children : List (Trie κ ν)) (position : Nat) :
    eraseChild? stamp key hash depth children position =
      children[position]?.bind (erase? stamp key hash (depth + 1)) := by
  induction children generalizing position with
  | nil => simp [eraseChild?]
  | cons child children ih => cases position <;> simp [eraseChild?, ih]

end HashTrie.Trie
