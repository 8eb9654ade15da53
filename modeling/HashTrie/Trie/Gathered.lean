import HashTrie.Trie.Cursor

/-!
# Gathered entries

An iteration that owns what it hands out walks a trie to the end before it begins, and
hands out copies of the entries that it met.
-/

namespace HashTrie.Trie

variable {κ ν : Type}

/-- The entries of a trie that are still to be handed out. -/
structure Gathered (κ ν : Type) where
  entries : List (κ × ν)

namespace Gathered

/-- The entries that a cursor meets on its way to the end. -/
def ofCursor (cursor : Cursor κ ν) : Gathered κ ν := ⟨cursor.rest⟩

/-- The next entry, if there is one, and the entries after it. -/
def next : Gathered κ ν → Option (κ × ν) × Gathered κ ν
  | ⟨[]⟩ => (none, ⟨[]⟩)
  | ⟨entry :: entries⟩ => (some entry, ⟨entries⟩)

/-- The number of entries still to be handed out. -/
def remaining (gathered : Gathered κ ν) : Nat := gathered.entries.length

instance : Iteration (Gathered κ ν) (κ × ν) where
  next := next
  remaining := remaining
  rest := entries

end Gathered

end HashTrie.Trie
