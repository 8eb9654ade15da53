import HashTrie.Stamp

/-!
# Entry sequences and collections

A traversal reads its source as a sequence of entries and collects its result
from one. Source and result may be containers of different kinds.
-/

namespace HashTrie

/-- A container whose entries are visited in a fixed order. -/
class EntrySequence (σ : Type) (κ ν : outParam Type) where
  /-- The entries in the order of the container. -/
  entries : σ → List (κ × ν)
  /-- The number of entries as the container reports it. Where it would only serve
  to reserve space for a result, it is taken to be the true number. -/
  entryCount : σ → Nat := fun source => (entries source).length

/-- A container that is collected from entries, one after another. The stamp is
for the nodes that have to be built. -/
class Collection (δ : Type) (κ ν : outParam Type) where
  /-- The container that holds the given entries. -/
  collect : Stamp → List (κ × ν) → δ

export EntrySequence (entries entryCount)
export Collection (collect)

/-- A plain list keeps the order and the repetitions of its entries. -/
instance {κ ν : Type} : EntrySequence (List (κ × ν)) κ ν where
  entries := id

instance {κ ν : Type} : Collection (List (κ × ν)) κ ν where
  collect _ := id

end HashTrie
