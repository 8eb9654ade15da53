import HashTrie.TrieSet

/-!
# Formats

A format writes sequences of items into documents and reads them back. A map is written as the
sequence of its entries and a set as that of its elements, in iteration order and with their
number announced beforehand. Reading collects what a document hands out, one item after another,
so of several entries with equal keys the last one counts. A document that fails on the way
gives no container at all.
-/

namespace HashTrie

/-- How sequences of items are written into documents and read from them. -/
structure Format (δ ε α : Type) where
  /-- The document of some items, whose number is announced beforehand. -/
  write : Nat → List α → δ
  /-- The items that a document hands out, or the reason why it fails. -/
  read : δ → Except ε (List α)

variable {κ ν δ ε : Type}

/-- A format hands back items if their document gives the same items in the same order. -/
def Format.HandsBack {α : Type} (format : Format δ ε α) (items : List α) : Prop :=
  format.read (format.write items.length items) = .ok items

namespace TrieMap

/-- The document of a map. -/
def write (format : Format δ ε (κ × ν)) (map : TrieMap κ ν) : δ :=
  format.write map.length map.toList

/-- The map of a document. -/
def read [BEq κ] [Hashable κ] (format : Format δ ε (κ × ν)) (stamp : Stamp) (document : δ) :
    Except ε (TrieMap κ ν) :=
  (format.read document).map (ofList stamp)

end TrieMap

namespace TrieSet

/-- The document of a set. The number of the elements is the one that their iteration reports. -/
def write (format : Format δ ε κ) (set : TrieSet κ) : δ :=
  format.write set.cursor.remaining set.toList

/-- The set of a document. -/
def read [BEq κ] [Hashable κ] (format : Format δ ε κ) (stamp : Stamp) (document : δ) :
    Except ε (TrieSet κ) :=
  (format.read document).map (ofList stamp)

end TrieSet

end HashTrie
