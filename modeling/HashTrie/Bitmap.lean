import HashTrie.Slot

/-!
# Bitmaps

A branch stores its children without gaps and keeps beside them the set of its
occupied slots, one bit a slot. The rank of a slot, the number of occupied slots
below it, is the position of its child.
-/

namespace HashTrie

/-- A set of slots, one bit a slot. -/
@[ext]
structure Bitmap where
  bits : BitVec 32
deriving DecidableEq, Repr, Inhabited

namespace Bitmap

/-- Whether a slot is occupied. -/
def contains (bitmap : Bitmap) (slot : Slot) : Bool := bitmap.bits.getLsbD slot

/-- The set of one slot. -/
def singleton (slot : Slot) : Bitmap := ⟨BitVec.twoPow 32 slot⟩

/-- The slots of either set. -/
def union (left right : Bitmap) : Bitmap := ⟨left.bits ||| right.bits⟩

/-- The set with a slot added. -/
def insert (bitmap : Bitmap) (slot : Slot) : Bitmap := bitmap.union (singleton slot)

/-- The set with a slot taken out. -/
def erase (bitmap : Bitmap) (slot : Slot) : Bitmap :=
  ⟨bitmap.bits &&& ~~~ BitVec.twoPow 32 slot⟩

/-- The occupied slots in ascending order. -/
def slots (bitmap : Bitmap) : List Slot := (List.finRange 32).filter bitmap.contains

/-- The number of occupied slots. -/
def card (bitmap : Bitmap) : Nat := (List.finRange 32).countP bitmap.contains

/-- The number of occupied slots below a slot. -/
def rank (bitmap : Bitmap) (slot : Slot) : Nat :=
  (List.finRange 32).countP fun lower => lower < slot && bitmap.contains lower

theorem contains_union (left right : Bitmap) (slot : Slot) :
    (left.union right).contains slot = (left.contains slot || right.contains slot) := by
  simp [contains, union]

theorem contains_singleton (slot other : Slot) :
    (singleton slot).contains other = decide (slot = other) := by
  simp only [contains, singleton, BitVec.getLsbD_twoPow, Fin.ext_iff]
  simp

theorem contains_insert (bitmap : Bitmap) (slot other : Slot) :
    (bitmap.insert slot).contains other = (bitmap.contains other || decide (slot = other)) := by
  simp [insert, contains_union, contains_singleton]

theorem contains_erase (bitmap : Bitmap) (slot other : Slot) :
    (bitmap.erase slot).contains other = (bitmap.contains other && decide (slot ≠ other)) := by
  simp [contains, erase, Fin.ext_iff, eq_comm]

/-- Bitmaps with the same occupied slots are equal. -/
theorem ext_contains {left right : Bitmap}
    (same : ∀ slot, left.contains slot = right.contains slot) : left = right := by
  ext index bound
  simpa [contains, BitVec.getLsbD_eq_getElem bound] using same ⟨index, bound⟩

theorem mem_slots (bitmap : Bitmap) (slot : Slot) :
    slot ∈ bitmap.slots ↔ bitmap.contains slot = true := by
  simp [slots]

theorem length_slots (bitmap : Bitmap) : bitmap.slots.length = bitmap.card := by
  simp [slots, card, List.countP_eq_length_filter]

end Bitmap

end HashTrie
