import HashTrie.Trie.Basic

/-!
# Insertion

Writing an entry rebuilds the nodes on the path of its hash and keeps every other
node. Where the path ends at a leaf of another hash, a chain of branches is built
down to the first digit in which the two hashes differ.
-/

namespace HashTrie.Trie

variable {κ ν : Type}

/-- Put two nodes under new branches: one branch with a single child for each
pair of equal digits, then a branch with both. The list of pairs runs out only
for two equal hashes, which never need to be told apart. -/
def join (stamp : Stamp) (existing incoming : Trie κ ν) : List (Slot × Slot) → Trie κ ν
  | [] => incoming
  | (existingSlot, incomingSlot) :: deeper =>
      let size := existing.size + incoming.size
      if existingSlot = incomingSlot then
        .branch stamp (.singleton existingSlot) size [join stamp existing incoming deeper]
      else
        .branch stamp ((Bitmap.singleton existingSlot).insert incomingSlot) size
          (if existingSlot < incomingSlot then [existing, incoming] else [incoming, existing])

mutual

/-- Write the value that `resolve` makes of the stored one, under a key with the
given hash, at or below a depth. The flag tells whether the key is new. -/
def upsert [BEq κ] (stamp : Stamp) (key : κ) (hash : UInt64) (resolve : Option ν → ν)
    (depth : Nat) : Trie κ ν → Trie κ ν × Bool
  | .empty => (.leaf stamp hash [(key, resolve none)], true)
  | .leaf leafStamp leafHash run =>
      if leafHash = hash then
        let (run, added) := run.upsert key resolve
        (.leaf stamp hash run, added)
      else
        (join stamp (.leaf leafStamp leafHash run) (.leaf stamp hash [(key, resolve none)])
          (digitPairs leafHash hash depth), true)
  | .branch _ bitmap size children =>
      let slot := digit hash depth
      let position := bitmap.rank slot
      if bitmap.contains slot then
        let (children, added) := upsertChild stamp key hash resolve depth children position
        (.branch stamp bitmap (if added then size + 1 else size) children, added)
      else
        (.branch stamp (bitmap.insert slot) (size + 1)
          (children.insertIdx position (.leaf stamp hash [(key, resolve none)])), true)

/-- Write below the child at a position. -/
def upsertChild [BEq κ] (stamp : Stamp) (key : κ) (hash : UInt64) (resolve : Option ν → ν)
    (depth : Nat) : List (Trie κ ν) → Nat → List (Trie κ ν) × Bool
  | [], _ => ([], false)
  | child :: children, 0 =>
      let (child, added) := upsert stamp key hash resolve (depth + 1) child
      (child :: children, added)
  | child :: children, position + 1 =>
      let (children, added) := upsertChild stamp key hash resolve depth children position
      (child :: children, added)

end

theorem upsertChild_eq [BEq κ] (stamp : Stamp) (key : κ) (hash : UInt64)
    (resolve : Option ν → ν) (depth : Nat) (children : List (Trie κ ν)) (position : Nat)
    (inside : position < children.length) :
    upsertChild stamp key hash resolve depth children position =
      (children.set position (upsert stamp key hash resolve (depth + 1) children[position]).1,
        (upsert stamp key hash resolve (depth + 1) children[position]).2) := by
  induction children generalizing position with
  | nil => simp at inside
  | cons child children ih =>
      cases position with
      | zero => simp [upsertChild]
      | succ position => simp [upsertChild, ih position (by simpa using inside)]

/-- Write a value under a key with the given hash, starting at the root. -/
def insert [BEq κ] (stamp : Stamp) (key : κ) (hash : UInt64) (value : ν) (trie : Trie κ ν) :
    Trie κ ν × Bool :=
  trie.upsert stamp key hash (fun _ => value) 0

end HashTrie.Trie
