import HashTrie.Error
import HashTrie.Run
import HashTrie.Traversal.Basic

/-!
# Selections

Parts of an entry sequence: the entries that a test accepts, those at one end, and
those that are the first of their kind. A selection hands the entries that it keeps
to its result in the order of the source.
-/

namespace HashTrie.Traversal

variable {σ δ κ ν : Type} [EntrySequence σ κ ν] [Collection δ κ ν]

/-- The entries that a test accepts. -/
def filter (stamp : Stamp) (source : σ) (accepts : κ × ν → Bool) : δ :=
  collect stamp ((entries source).filter accepts)

/-- The entries that a test rejects. -/
def filterNot (stamp : Stamp) (source : σ) (accepts : κ × ν → Bool) : δ :=
  filter stamp source fun entry => !accepts entry

/-- The entries that a test accepts, and those that it rejects. -/
def partition (stamp : Stamp) (source : σ) (accepts : κ × ν → Bool) : δ × δ :=
  let (accepted, rejected) := (entries source).partition accepts
  (collect (stamp.part 0) accepted, collect (stamp.part 1) rejected)

/-- The entries before the first one that a test rejects, and the others. -/
def span (stamp : Stamp) (source : σ) (accepts : κ × ν → Bool) : δ × δ :=
  let (front, back) := (entries source).span accepts
  (collect (stamp.part 0) front, collect (stamp.part 1) back)

/-- The entries before the first one that a test rejects. -/
def takeWhile (stamp : Stamp) (source : σ) (accepts : κ × ν → Bool) : δ :=
  collect stamp ((entries source).takeWhile accepts)

/-- The entries from the first one on that a test rejects. -/
def dropWhile (stamp : Stamp) (source : σ) (accepts : κ × ν → Bool) : δ :=
  collect stamp ((entries source).dropWhile accepts)

/-- The entries before the first one that a test accepts. -/
def takeUntil (stamp : Stamp) (source : σ) (accepts : κ × ν → Bool) : δ :=
  takeWhile stamp source fun entry => !accepts entry

/-- The entries from the first one on that a test accepts. -/
def dropUntil (stamp : Stamp) (source : σ) (accepts : κ × ν → Bool) : δ :=
  dropWhile stamp source fun entry => !accepts entry

/-- The first `count` entries. -/
def take (stamp : Stamp) (source : σ) (count : Nat) : δ :=
  collect stamp ((entries source).take count)

/-- All but the first `count` entries. -/
def drop (stamp : Stamp) (source : σ) (count : Nat) : δ :=
  collect stamp ((entries source).drop count)

/-- The last `count` entries. -/
def takeRight (stamp : Stamp) (source : σ) (count : Nat) : δ :=
  drop stamp source (entryCount source - count)

/-- All but the last `count` entries. -/
def dropRight (stamp : Stamp) (source : σ) (count : Nat) : δ :=
  take stamp source (entryCount source - count)

/-- The first entry. -/
def head? (source : σ) : Option (κ × ν) := (entries source).head?

/-- All entries but the first, if there is a first. -/
def tail? (stamp : Stamp) (source : σ) : Option δ :=
  match entries source with
  | [] => none
  | _ :: rest => some (collect stamp rest)

/-- All entries but the last, if there is a last. -/
def init? (stamp : Stamp) (source : σ) : Option δ :=
  if 0 < entryCount source then some (take stamp source (entryCount source - 1)) else none

/-- All entries but the first. -/
def tail (stamp : Stamp) (source : σ) : Except MapError δ :=
  match tail? stamp source with
  | some result => .ok result
  | none => .error (.emptyMap .tail)

/-- All entries but the last. -/
def init (stamp : Stamp) (source : σ) : Except MapError δ :=
  match init? stamp source with
  | some result => .ok result
  | none => .error (.emptyMap .init)

/-- The elements whose label is neither among those seen nor that of an earlier
element. -/
def firstOfEach {α β : Type} [BEq β] (label : α → β) (seen : List β) : List α → List α
  | [] => []
  | element :: rest =>
      let mark := label element
      if seen.contains mark then firstOfEach label seen rest
      else element :: firstOfEach label (mark :: seen) rest

/-- The first entry of each label. -/
def distinctBy {β : Type} [BEq β] (stamp : Stamp) (source : σ) (label : κ × ν → β) : δ :=
  collect stamp (firstOfEach label [] (entries source))

/-- The values that elements give to each key, in the order of the elements. -/
def candidates [BEq κ] (elements : List (κ × ν)) : Run κ (List ν) :=
  elements.foldl (fun wanted element =>
    (wanted.upsert element.1 fun values => values.getD [] ++ [element.2]).1) []

/-- The entries equal in key and value to one of the given elements. -/
def retainAll [BEq κ] [BEq ν] (stamp : Stamp) (source : σ) (elements : List (κ × ν)) : δ :=
  let wanted := candidates elements
  filter stamp source fun entry =>
    match wanted.find? entry.1 with
    | some (_, values) => values.any (· == entry.2)
    | none => false

end HashTrie.Traversal
