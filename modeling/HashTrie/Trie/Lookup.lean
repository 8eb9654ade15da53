import HashTrie.Trie.Basic

/-!
# Lookup

The search for a key follows the digits of its hash down to a leaf, whose run is
searched only if the whole hash agrees.
-/

namespace HashTrie.Trie

variable {κ ν : Type} [BEq κ]

mutual

/-- The entry stored under a key with the given hash, at or below a depth. -/
def lookup (key : κ) (hash : UInt64) (depth : Nat) : Trie κ ν → Option (κ × ν)
  | .empty => none
  | .leaf _ leafHash run => if leafHash = hash then run.find? key else none
  | .branch _ bitmap _ children =>
      let slot := digit hash depth
      if bitmap.contains slot then lookupChild key hash depth children (bitmap.rank slot) else none

/-- The entry stored below the child at a position. -/
def lookupChild (key : κ) (hash : UInt64) (depth : Nat) :
    List (Trie κ ν) → Nat → Option (κ × ν)
  | [], _ => none
  | child :: _, 0 => lookup key hash (depth + 1) child
  | _ :: children, position + 1 => lookupChild key hash depth children position

end

theorem lookupChild_eq (key : κ) (hash : UInt64) (depth : Nat) (children : List (Trie κ ν))
    (position : Nat) :
    lookupChild key hash depth children position =
      children[position]?.bind (lookup key hash (depth + 1)) := by
  induction children generalizing position with
  | nil => simp [lookupChild]
  | cons child children ih => cases position <;> simp [lookupChild, ih]

end HashTrie.Trie
