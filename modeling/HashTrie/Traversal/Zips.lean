import HashTrie.Traversal.Basic

/-!
# Zips

Entries paired with the elements of another sequence, and entries split into parts.
As for chunks and scans, the space that `entryCount` would reserve is left out, since
it is taken to be the true number of entries.
-/

namespace HashTrie.Traversal

/-- Pairs of elements at the same place; the shorter list is continued with its
padding. -/
def zipPadded {α β : Type} (leftPad : α) (rightPad : β) : List α → List β → List (α × β)
  | [], [] => []
  | left :: lefts, [] => (left, rightPad) :: zipPadded leftPad rightPad lefts []
  | [], right :: rights => (leftPad, right) :: zipPadded leftPad rightPad [] rights
  | left :: lefts, right :: rights => (left, right) :: zipPadded leftPad rightPad lefts rights

variable {σ κ ν α β γ : Type} [EntrySequence σ κ ν]

/-- Entries paired with elements, as long as there are both. -/
def zip (source : σ) (elements : List α) : List ((κ × ν) × α) := (entries source).zip elements

/-- Entries paired with elements to the end of the longer side. -/
def zipAll (source : σ) (elements : List α) (entryPad : κ × ν) (elementPad : α) :
    List ((κ × ν) × α) :=
  zipPadded entryPad elementPad (entries source) elements

/-- Entries with their place in the sequence. -/
def zipWithIndex (source : σ) : List ((κ × ν) × Nat) := (entries source).zipIdx

/-- The first and the second parts into which entries are split. -/
def unzip (source : σ) (split : κ × ν → α × β) : List α × List β :=
  ((entries source).map split).unzip

/-- The first, second and third parts into which entries are split. -/
def unzip3 (source : σ) (split : κ × ν → α × β × γ) : List α × List β × List γ :=
  let parts := (entries source).map split
  (parts.map fun part => part.1, parts.map fun part => part.2.1, parts.map fun part => part.2.2)

end HashTrie.Traversal
