import HashTrie.Trie.Insert
import HashTrie.Trie.Lookup

/-!
# Merging

Two tries are merged along their common shape. Where only one of them has a
child, the child is taken over as it stands; where a leaf meets another node, its
entries are written into that node one by one.
-/

namespace HashTrie.Trie

variable {κ ν : Type}

/-- What a merge does where both tries hold the same node, or the left one
already holds a key. -/
inductive Sharing where
  /-- Keep what the left trie has. -/
  | reuse
  /-- Go down and resolve every value, shared or not. -/
  | descend
deriving DecidableEq, Repr

/-- Write the entries of a left run into a right node. -/
def mergeRunInto [BEq κ] (stamp : Stamp) (resolve : ν → ν → ν) (depth : Nat) (hash : UInt64)
    (run : Run κ ν) (right : Trie κ ν) : Trie κ ν :=
  run.foldl (fun merged entry =>
    (merged.upsert stamp entry.1 hash
      (fun
        | none => entry.2
        | some value => resolve entry.2 value) depth).1) right

/-- Write the entries of a right run into a left node, leaving out those whose
key the node already holds if sharing says so. -/
def absorbRun [BEq κ] (stamp : Stamp) (sharing : Sharing) (resolve : ν → ν → ν) (depth : Nat)
    (hash : UInt64) (run : Run κ ν) (left : Trie κ ν) : Trie κ ν :=
  run.foldl (fun merged entry =>
    if sharing = .reuse ∧ (merged.lookup entry.1 hash depth).isSome then merged
    else
      (merged.upsert stamp entry.1 hash
        (fun
          | none => entry.2
          | some value => resolve value entry.2) depth).1) left

/-- The branch whose left children have been merged with the right ones in their
slots, and which takes over the right children in its free slots. It is the left
branch itself if nothing came of that. -/
def mergedBranch (stamp leftStamp : Stamp) (leftBitmap : Bitmap) (leftSize : Nat)
    (leftChildren merged : List (Trie κ ν)) (rightBitmap : Bitmap)
    (rightChildren : List (Trie κ ν)) : Trie κ ν :=
  let bitmap := leftBitmap.union rightBitmap
  if bitmap = leftBitmap ∧ (List.zipWith same merged leftChildren).all id then
    .branch leftStamp leftBitmap leftSize leftChildren
  else
    let children := bitmap.slots.filterMap fun slot =>
      childAt leftBitmap merged slot <|> childAt rightBitmap rightChildren slot
    .branch stamp bitmap (sizes children) children

mutual

/-- Merge two nodes at a depth; a key of both takes the value that `resolve`
makes of the left and the right one. -/
def merge [BEq κ] (stamp : Stamp) (sharing : Sharing) (resolve : ν → ν → ν) (depth : Nat) :
    Trie κ ν → Trie κ ν → Trie κ ν
  | .empty, right => right
  | .leaf leftStamp hash run, right =>
      if sharing = .reuse ∧ same (.leaf leftStamp hash run) right then .leaf leftStamp hash run
      else
        match right with
        | .empty => .leaf leftStamp hash run
        | right => mergeRunInto stamp resolve depth hash run right
  | .branch leftStamp leftBitmap leftSize leftChildren, right =>
      let left := .branch leftStamp leftBitmap leftSize leftChildren
      if sharing = .reuse ∧ left.same right then left
      else
        match right with
        | .empty => left
        | .leaf _ hash run => absorbRun stamp sharing resolve depth hash run left
        | .branch _ rightBitmap _ rightChildren =>
            mergedBranch stamp leftStamp leftBitmap leftSize leftChildren
              (mergeEach stamp sharing resolve depth leftChildren
                (leftBitmap.slots.map (childAt rightBitmap rightChildren)))
              rightBitmap rightChildren

/-- Merge each child of a branch at a depth with the node it meets, if any. -/
def mergeEach [BEq κ] (stamp : Stamp) (sharing : Sharing) (resolve : ν → ν → ν) (depth : Nat) :
    List (Trie κ ν) → List (Option (Trie κ ν)) → List (Trie κ ν)
  | child :: children, some other :: others =>
      merge stamp sharing resolve (depth + 1) child other ::
        mergeEach stamp sharing resolve depth children others
  | child :: children, none :: others =>
      child :: mergeEach stamp sharing resolve depth children others
  | children, [] => children
  | [], _ :: _ => []

end

theorem mergeEach_eq_zipWith [BEq κ] (stamp : Stamp) (sharing : Sharing) (resolve : ν → ν → ν)
    (depth : Nat) (children : List (Trie κ ν)) (others : List (Option (Trie κ ν)))
    (aligned : children.length = others.length) :
    mergeEach stamp sharing resolve depth children others =
      List.zipWith (fun child other =>
        match other with
        | some other => merge stamp sharing resolve (depth + 1) child other
        | none => child) children others := by
  induction children generalizing others with
  | nil => cases others <;> simp_all [mergeEach]
  | cons child children ih =>
      cases others with
      | nil => simp at aligned
      | cons other others =>
          have rest := ih others (by simpa using aligned)
          cases other <;> simp [mergeEach, rest]

end HashTrie.Trie
