import HashTrie.Traversal.Basic

/-!
# Scans

The successive states of a fold. A scan of a sequence has one state more than the
sequence has entries.
-/

namespace HashTrie.Traversal

/-- The states of a fold from the left, the first one before any element. -/
def statesLeft {α β : Type} (operation : β → α → β) (state : β) : List α → List β
  | [] => [state]
  | element :: rest => state :: statesLeft operation (operation state element) rest

/-- The states of a fold from the right, the last one before any element. The
first component is the newest state. -/
def statesRight {α β : Type} (operation : α → β → β) (state : β) : List α → β × List β
  | [] => (state, [])
  | element :: rest =>
      let (newest, older) := statesRight operation state rest
      (operation element newest, newest :: older)

variable {σ δ κ ν β : Type} [EntrySequence σ κ ν]

/-- The states of the fold from the first entry to the last. The space that
`entryCount` would reserve for them is left out: the source is taken to report its
true number of entries, and then reserving has no effect on the result. -/
def scanLeft (source : σ) (zero : β) (operation : β → κ × ν → β) : List β :=
  statesLeft operation zero (entries source)

/-- The states of the fold from the last entry to the first, the newest first. -/
def scanRight (source : σ) (zero : β) (operation : κ × ν → β → β) : List β :=
  let (newest, older) := statesRight operation zero (entries source)
  newest :: older

/-- The container of the states, which are entries themselves. -/
def scan [Collection δ κ ν] (stamp : Stamp) (source : σ) (zero : κ × ν)
    (operation : κ × ν → κ × ν → κ × ν) : δ :=
  collect stamp (scanLeft source zero operation)

end HashTrie.Traversal
