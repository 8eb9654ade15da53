import HashTrie.Script.Value
import HashTrie.Text.Digest
import HashTrie.Traversal.Basic
import HashTrie.TrieSet

/-!
# Listings

What answers show of containers. A sequence is given by its length and its items; of a
long one only the ends are shown, and a digest stands for the whole.
-/

namespace HashTrie.Script

/-- The greatest number of items that are shown. -/
def shownItems : Nat := 48

/-- The digest of a sequence: that of its items in JSON. -/
def digestOf (items : List Json) : Json := .str (Text.digest (Json.arr items).compact)

/-- The listing of items, of which a container reports a number of its own. -/
def listing (length : Nat) (items : List Json) : Json :=
  if items.length ≤ shownItems then .obj [("items", .arr items), ("len", .ofNat length)]
  else
    .obj [
      ("first", .arr (items.take 4)),
      ("fnv", digestOf items),
      ("last", .arr (items.drop (items.length - 4))),
      ("len", .ofNat length)]

/-- The listing of a plain sequence. -/
def listingOf {α : Type} (toJson : α → Json) (elements : List α) : Json :=
  listing elements.length (elements.map toJson)

/-- The listing of the entries of a container. -/
def entryListing {σ : Type} [EntrySequence σ Key Value] (source : σ) : Json :=
  listing (entryCount source) ((entries source).map Entry.toJson)

/-- The listing of the elements of a set. -/
def elementListing (set : TrieSet Key) : Json := listing set.length (set.toList.map Key.toJson)

/-- An optional item, where null stands for none. -/
def orNull : Option Json → Json
  | some json => json
  | none => .null

/-- A value written out, on one line or on many. -/
def written (pretty : Bool) (layout : Text.Layout) : Json :=
  .str (if pretty then layout.pretty else layout.inline)

/-- An iteration that takes some items, looks at where it stands, walks to the end
and tries to go on. The copy, if there is one, goes its own way from the middle. -/
def iteration {σ α : Type} [Iteration σ α] (toJson : α → Json) (count : Nat)
    (copy : Option (σ → σ)) (start : σ) : Json :=
  let (head, middle) := Iteration.take count start
  let rest := Iteration.rest middle
  let (beyond, last) := Iteration.next (Iteration.take rest.length middle).2
  .obj <|
    (copy.toList.map fun copy => ("copy", .ofNat (Iteration.rest (copy middle)).length)) ++ [
      ("end", .arr [.bool beyond.isNone, .ofNat (Iteration.remaining last)]),
      ("head", .arr (head.map toJson)),
      ("left", .ofNat (Iteration.remaining middle)),
      ("rest", listingOf toJson rest)]

end HashTrie.Script
