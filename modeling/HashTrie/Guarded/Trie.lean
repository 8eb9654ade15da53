import HashTrie.Guarded.Step
import HashTrie.Trie.Merge

/-!
# Guarded operations on tries

The operations on nodes once more, with every step guarded. They find the child of a slot
as the code does: they shift a bit into the slot of the hash, test the bitmap for it, and
count the bits below it.
-/

namespace HashTrie.Trie.Guarded

open HashTrie.Guarded

variable {κ ν : Type}

section Lookup

variable [BEq κ]

mutual

/-- The entry stored under a key with the given hash, at or below a depth. -/
def lookup (key : κ) (hash : UInt64) (depth : Nat) : Trie κ ν → Guarded (Option (κ × ν))
  | .empty => pure none
  | .leaf _ leafHash run => pure (if leafHash = hash then run.find? key else none)
  | .branch _ bitmap _ children => do
      let bit ← oneBit (slotIndex hash depth)
      if bitmap.bits &&& bit = 0 then pure none
      else
        let position ← slotPosition bitmap.bits bit
        lookupChild key hash depth children position

/-- The entry stored below the child at a position. -/
def lookupChild (key : κ) (hash : UInt64) (depth : Nat) :
    List (Trie κ ν) → Nat → Guarded (Option (κ × ν))
  | [], _ => throw .position
  | child :: _, 0 => lookup key hash (depth + 1) child
  | _ :: children, position + 1 => lookupChild key hash depth children position

end

end Lookup

section Upsert

/-- Put two nodes under new branches, from a depth on. -/
def separate (stamp : Stamp) (existing incoming : Trie κ ν) (existingHash incomingHash : UInt64)
    (depth : Nat) : Guarded (Trie κ ν) :=
  let parted := (List.range depth).any fun level =>
    slotIndex existingHash level != slotIndex incomingHash level
  if existingHash = incomingHash ∨ parted ∨ levels ≤ depth then throw .separation
  else
    let existingIndex := slotIndex existingHash depth
    let incomingIndex := slotIndex incomingHash depth
    let size := existing.size + incoming.size
    if existingIndex = incomingIndex then do
      let child ← separate stamp existing incoming existingHash incomingHash (depth + 1)
      let bit ← oneBit existingIndex
      pure (.branch stamp ⟨bit⟩ size [child])
    else do
      let children := if existingIndex < incomingIndex then [existing, incoming]
        else [incoming, existing]
      let existingBit ← oneBit existingIndex
      let incomingBit ← oneBit incomingIndex
      pure (.branch stamp ⟨existingBit ||| incomingBit⟩ size children)
termination_by levels - depth
decreasing_by omega

variable [BEq κ]

/-- Write the value that `resolve` makes of the stored one into a run. -/
def upsertRun (key : κ) (resolve : Option ν → ν) (run : Run κ ν) : Guarded (Run κ ν × Bool) :=
  match run.findIdx? fun entry => entry.1 == key with
  | some position => do
      let entry ← read run position
      let run ← write run position (key, resolve (some entry.2))
      pure (run, false)
  | none => pure (run ++ [(key, resolve none)], true)

mutual

/-- Write the value that `resolve` makes of the stored one, under a key with the given
hash, at or below a depth. -/
def upsert (stamp : Stamp) (key : κ) (hash : UInt64) (resolve : Option ν → ν) (depth : Nat) :
    Trie κ ν → Guarded (Trie κ ν × Bool)
  | .empty => pure (.leaf stamp hash [(key, resolve none)], true)
  | .leaf leafStamp leafHash run =>
      if leafHash = hash then do
        let (run, added) ← upsertRun key resolve run
        pure (.leaf stamp hash run, added)
      else do
        let node ← separate stamp (.leaf leafStamp leafHash run)
          (.leaf stamp hash [(key, resolve none)]) leafHash hash depth
        pure (node, true)
  | .branch _ bitmap size children => do
      let bit ← oneBit (slotIndex hash depth)
      let position ← slotPosition bitmap.bits bit
      if bitmap.bits &&& bit = 0 then
        let lower ← front children position
        let upper ← back children position
        pure (.branch stamp ⟨bitmap.bits ||| bit⟩ (size + 1)
          (lower ++ .leaf stamp hash [(key, resolve none)] :: upper), true)
      else
        let (child, added) ← upsertChild stamp key hash resolve depth children position
        let children ← write children position child
        pure (.branch stamp bitmap (size + added.toNat) children, added)

/-- What writing below the child at a position makes of the child. -/
def upsertChild (stamp : Stamp) (key : κ) (hash : UInt64) (resolve : Option ν → ν)
    (depth : Nat) : List (Trie κ ν) → Nat → Guarded (Trie κ ν × Bool)
  | [], _ => throw .position
  | child :: _, 0 => upsert stamp key hash resolve (depth + 1) child
  | _ :: children, position + 1 => upsertChild stamp key hash resolve depth children position

end

end Upsert

section Erase

/-- Drop the child at a position, in a branch that then has the given slots and size. -/
def withoutSlot (stamp : Stamp) (bitmap : Bitmap) (size : Nat) (children : List (Trie κ ν))
    (position : Nat) : Guarded (Trie κ ν) :=
  match children.length with
  | 1 => pure .empty
  | 2 => do
      let other ← subtract 1 position
      let survivor ← read children other
      pure (if survivor.isLeaf then survivor else .branch stamp bitmap size [survivor])
  | length => do
      let _ ← subtract length 1
      let lower ← front children position
      let upper ← back children (position + 1)
      pure (.branch stamp bitmap size (lower ++ upper))

variable [BEq κ]

mutual

/-- Take out the entry under a key with the given hash, at or below a depth. -/
def erase? (stamp : Stamp) (key : κ) (hash : UInt64) (depth : Nat) :
    Trie κ ν → Guarded (Option (Trie κ ν))
  | .empty => pure none
  | .leaf _ leafHash run =>
      if leafHash = hash then
        match run.findIdx? fun entry => entry.1 == key with
        | none => pure none
        | some position =>
            if run.length = 1 then pure (some .empty)
            else do
              let run ← remove run position
              pure (some (.leaf stamp hash run))
      else pure none
  | .branch _ bitmap size children => do
      let bit ← oneBit (slotIndex hash depth)
      if bitmap.bits &&& bit = 0 then pure none
      else
        let position ← slotPosition bitmap.bits bit
        match ← eraseChild? stamp key hash depth children position with
        | none => pure none
        | some child =>
            if child.isEmpty then do
              let size ← subtract size 1
              some <$> withoutSlot stamp ⟨bitmap.bits &&& ~~~bit⟩ size children position
            else if children.length == 1 && child.isLeaf then pure (some child)
            else do
              let children ← write children position child
              let size ← subtract size 1
              pure (some (.branch stamp bitmap size children))

/-- The child at a position with the entry taken out. -/
def eraseChild? (stamp : Stamp) (key : κ) (hash : UInt64) (depth : Nat) :
    List (Trie κ ν) → Nat → Guarded (Option (Trie κ ν))
  | [], _ => throw .position
  | child :: _, 0 => erase? stamp key hash (depth + 1) child
  | _ :: children, position + 1 => eraseChild? stamp key hash depth children position

end

end Erase

section Merge

variable [BEq κ]

/-- Write the entries of a left run into a right node. -/
def mergeRunInto (stamp : Stamp) (resolve : ν → ν → ν) (depth : Nat) (hash : UInt64)
    (run : Run κ ν) (right : Trie κ ν) : Guarded (Trie κ ν) :=
  run.foldlM (fun merged entry =>
    Prod.fst <$> upsert stamp entry.1 hash
      (fun
        | none => entry.2
        | some value => resolve entry.2 value) depth merged) right

/-- Write an entry of a right run into a left node, unless the node already holds its key
and sharing says that it stays. -/
def absorbEntry (stamp : Stamp) (sharing : Sharing) (resolve : ν → ν → ν) (depth : Nat)
    (hash : UInt64) (left : Trie κ ν) (entry : κ × ν) : Guarded (Trie κ ν) := do
  let held ← if sharing = .reuse then Option.isSome <$> lookup entry.1 hash depth left
    else pure false
  if held then pure left
  else
    Prod.fst <$> upsert stamp entry.1 hash
      (fun
        | none => entry.2
        | some value => resolve value entry.2) depth left

/-- Write the entries of a right run into a left node one after another. -/
def absorbRun (stamp : Stamp) (sharing : Sharing) (resolve : ν → ν → ν) (depth : Nat)
    (hash : UInt64) (run : Run κ ν) (left : Trie κ ν) : Guarded (Trie κ ν) :=
  run.foldlM (absorbEntry stamp sharing resolve depth hash) left

/-- A branch on the way to the merge of two others: its children and their number of
entries so far, and whether the left branch will do in its place. -/
structure Assembly (κ ν : Type) where
  children : List (Trie κ ν)
  size : Nat
  unchanged : Bool

/-- The next child of an assembly. -/
def Assembly.push (assembly : Assembly κ ν) (child : Trie κ ν) (kept : Bool) : Assembly κ ν :=
  ⟨assembly.children ++ [child], assembly.size + child.size, assembly.unchanged && kept⟩

/-- Go on with the slot of an index. `meet` merges the left child at a position with a
right one and tells whether the left one stayed. -/
def assembleSlot (meet : Nat → Trie κ ν → Guarded (Trie κ ν × Bool)) (leftBits : BitVec 32)
    (leftChildren : List (Trie κ ν)) (rightBits : BitVec 32) (rightChildren : List (Trie κ ν))
    (assembly : Assembly κ ν) (index : Nat) : Guarded (Assembly κ ν) := do
  let bit ← oneBit index
  if leftBits &&& bit = 0 then
    if rightBits &&& bit = 0 then pure assembly
    else
      let position ← slotPosition rightBits bit
      let child ← read rightChildren position
      pure (assembly.push child true)
  else
    let leftPosition ← slotPosition leftBits bit
    if rightBits &&& bit = 0 then
      let child ← read leftChildren leftPosition
      pure (assembly.push child true)
    else
      let rightPosition ← slotPosition rightBits bit
      let other ← read rightChildren rightPosition
      let (child, kept) ← meet leftPosition other
      pure (assembly.push child kept)

/-- Merge two branches, slot by slot. -/
def mergeBranches (stamp leftStamp : Stamp) (meet : Nat → Trie κ ν → Guarded (Trie κ ν × Bool))
    (leftBitmap : Bitmap) (leftSize : Nat) (leftChildren : List (Trie κ ν)) (rightBitmap : Bitmap)
    (rightChildren : List (Trie κ ν)) : Guarded (Trie κ ν) := do
  let bitmap := leftBitmap.union rightBitmap
  let assembly ← (List.range 32).foldlM
    (assembleSlot meet leftBitmap.bits leftChildren rightBitmap.bits rightChildren)
    ⟨[], 0, bitmap == leftBitmap⟩
  if assembly.unchanged then pure (.branch leftStamp leftBitmap leftSize leftChildren)
  else pure (.branch stamp bitmap assembly.size assembly.children)

mutual

/-- Merge two nodes at a depth. -/
def merge (stamp : Stamp) (sharing : Sharing) (resolve : ν → ν → ν) (depth : Nat) :
    Trie κ ν → Trie κ ν → Guarded (Trie κ ν)
  | .empty, right => pure right
  | .leaf leftStamp hash run, right =>
      if sharing = .reuse ∧ same (.leaf leftStamp hash run) right then
        pure (.leaf leftStamp hash run)
      else
        match right with
        | .empty => pure (.leaf leftStamp hash run)
        | right => mergeRunInto stamp resolve depth hash run right
  | .branch leftStamp leftBitmap leftSize leftChildren, right =>
      let left := .branch leftStamp leftBitmap leftSize leftChildren
      if sharing = .reuse ∧ left.same right then pure left
      else
        match right with
        | .empty => pure left
        | .leaf _ hash run => absorbRun stamp sharing resolve depth hash run left
        | .branch _ rightBitmap _ rightChildren =>
            mergeBranches stamp leftStamp
              (fun position other =>
                mergeChild stamp sharing resolve depth leftChildren position other)
              leftBitmap leftSize leftChildren rightBitmap rightChildren

/-- Merge the child at a position with another node, and tell whether it stayed. -/
def mergeChild (stamp : Stamp) (sharing : Sharing) (resolve : ν → ν → ν) (depth : Nat) :
    List (Trie κ ν) → Nat → Trie κ ν → Guarded (Trie κ ν × Bool)
  | [], _, _ => throw .position
  | child :: _, 0, other => do
      let merged ← merge stamp sharing resolve (depth + 1) child other
      pure (merged, merged.same child)
  | _ :: children, position + 1, other =>
      mergeChild stamp sharing resolve depth children position other

end

end Merge

end HashTrie.Trie.Guarded
