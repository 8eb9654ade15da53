import HashTrie.Traversal.Basic

/-!
# Rebuilding and folding

New containers made of what a function yields for each entry, and values folded
from all entries. Where a result holds a key once, the last entry made with that
key counts.
-/

namespace HashTrie.Traversal

variable {σ δ κ ν μ ω β : Type} [EntrySequence σ κ ν]

/-- The entry that a function makes of each entry. -/
def map [Collection δ μ ω] (stamp : Stamp) (source : σ) (function : κ × ν → μ × ω) : δ :=
  collect stamp ((entries source).map function)

/-- The entries that a function makes of each entry, in turn. -/
def flatMap [Collection δ μ ω] (stamp : Stamp) (source : σ)
    (function : κ × ν → List (μ × ω)) : δ :=
  collect stamp ((entries source).flatMap function)

/-- The same keys with every value mapped. -/
def mapValues [Collection δ κ ω] (stamp : Stamp) (source : σ) (function : ν → ω) : δ :=
  collect stamp ((entries source).map fun entry => (entry.1, function entry.2))

/-- What a function makes of each entry. -/
def traverse (source : σ) (function : κ × ν → β) : List β := (entries source).map function

/-- Fold the entries from the first to the last. -/
def foldLeft (source : σ) (initial : β) (function : β → κ × ν → β) : β :=
  (entries source).foldl function initial

/-- Fold the entries from the last to the first. -/
def foldRight (source : σ) (initial : β) (function : κ × ν → β → β) : β :=
  (entries source).foldr function initial

end HashTrie.Traversal
