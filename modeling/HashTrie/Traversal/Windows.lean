import HashTrie.Error
import HashTrie.Traversal.Basic

/-!
# Chunks and windows

Consecutive parts of an entry sequence: chunks that follow one another, and windows
that start a fixed number of entries apart. Only the last part can be short.
-/

namespace HashTrie.Traversal

/-- Cut a list into chunks of a size. The entries of the chunk at hand, newest
first, are still missing `room` entries. -/
def chunksFrom {α : Type} (size : Nat) (current : List α) (room : Nat) : List α → List (List α)
  | [] => if current.isEmpty then [] else [current.reverse]
  | element :: rest =>
      if room ≤ 1 then (element :: current).reverse :: chunksFrom size [] size rest
      else chunksFrom size (element :: current) (room - 1) rest

/-- The starts of the windows over a sequence of a length, from a start on. The
window that reaches the end is the last one, and so is one whose successor would
start beyond the end. -/
def windowStarts (length size : Nat) (step : { count : Nat // 0 < count }) (start : Nat) :
    List Nat :=
  if start < length then
    if start + size < length then start :: windowStarts length size step (start + step)
    else [start]
  else []
termination_by length - start
decreasing_by
  have := step.property
  omega

/-- The entries from a start on, at most `size` of them. -/
def window {α : Type} (size start : Nat) (elements : List α) : List α :=
  (elements.drop start).take size

variable {σ δ κ ν : Type} [EntrySequence σ κ ν] [Collection δ κ ν]

/-- The containers of several parts, collected in turn. -/
def collectParts (stamp : Stamp) (parts : List (List (κ × ν))) : List δ :=
  parts.mapIdx fun index part => collect (stamp.part index) part

/-- Chunks of a size that follow one another. The space that `entryCount` would
reserve for them is left out: the source is taken to report its true number of
entries, and then reserving has no effect on the result. -/
def grouped (stamp : Stamp) (source : σ) (size : Nat) : Except MapError (List δ) := do
  let size ← MapError.requirePositive .grouped .size size
  return collectParts stamp (chunksFrom size [] size (entries source))

/-- Windows of a size whose starts lie a step apart. -/
def slidingBy (stamp : Stamp) (source : σ) (size step : Nat) : Except MapError (List δ) := do
  let size ← MapError.requirePositive .sliding .size size
  let step ← MapError.requirePositive .sliding .step step
  let elements := entries source
  return collectParts stamp <|
    (windowStarts elements.length size step 0).map fun start => window size start elements

/-- Windows of a size that start at every entry. -/
def sliding (stamp : Stamp) (source : σ) (size : Nat) : Except MapError (List δ) :=
  slidingBy stamp source size 1

end HashTrie.Traversal
