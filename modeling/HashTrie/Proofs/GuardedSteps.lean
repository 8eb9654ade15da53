import HashTrie.Guarded.Step
import HashTrie.Proofs.Children
import HashTrie.Proofs.Digits

/-!
# When guarded steps succeed

The index of a slot, read off a hash with shifts and masks, is the digit of the hash
(`slotIndex_eq`), so it is a bit of a bitmap at every depth. The number of bits below that
bit is the rank of the slot (`slotPosition_twoPow`). A list may be read and written at a
position that it has, and be cut at any bound up to its length.
-/

namespace HashTrie

theorem range_eq_map_finRange : List.range 32 = (List.finRange 32).map Fin.val := rfl

/-- Counting the bits of a word below an index is counting the indices with a bit. -/
theorem cpopNatRec_eq_countP {width : Nat} (word : BitVec width) (count : Nat) :
    word.cpopNatRec count 0 = (List.range count).countP word.getLsbD := by
  induction count with
  | zero => rfl
  | succ count ih =>
      rw [BitVec.cpopNatRec_succ, BitVec.cpopNatRec_eq, ih, List.range_succ, List.countP_append,
        List.countP_singleton]
      cases word.getLsbD count <;> rfl

/-- One less than the bit of a slot is the mask of the slots below it. -/
theorem getLsbD_twoPow_sub_one (slot lower : Slot) :
    (BitVec.twoPow 32 slot - 1).getLsbD lower = decide (lower < slot) := by
  have mask : BitVec.twoPow 32 slot - 1 = BitVec.ofNat 32 (2 ^ slot.val - 1) := by
    have bit : BitVec.twoPow 32 slot = BitVec.ofNat 32 (2 ^ slot.val) := by
      apply BitVec.eq_of_toNat_eq
      rw [BitVec.toNat_twoPow, BitVec.toNat_ofNat]
    rw [bit]
    exact BitVec.ofNat_sub_ofNat_of_le (2 ^ slot.val) 1 (by decide) Nat.one_le_two_pow
  rw [mask, BitVec.getLsbD_ofNat, Nat.testBit_two_pow_sub_one, decide_eq_true lower.isLt,
    Bool.true_and]
  rfl

theorem twoPow_slot_ne_zero (slot : Slot) : BitVec.twoPow 32 slot ≠ 0 := by
  intro zero
  have bit := congrArg (BitVec.getLsbD · slot) zero
  simp at bit

namespace Guarded

/-- The index of a slot is the digit of the hash. -/
theorem slotIndex_eq (hash : UInt64) (depth : Nat) : slotIndex hash depth = digit hash depth := by
  rw [digit_val, Nat.mul_comm 5]
  unfold slotIndex
  split
  · rename_i inside
    have shift : (UInt64.ofNat (depth * 5)).toNat = depth * 5 := by
      rw [UInt64.toNat_ofNat']
      omega
    rw [UInt64.toNat_and, UInt64.toNat_shiftRight, shift, Nat.mod_eq_of_lt inside]
    exact Nat.and_two_pow_sub_one_eq_mod _ 5
  · rename_i outside
    have small : hash.toNat < 2 ^ (depth * 5) :=
      Nat.lt_of_lt_of_le hash.toNat_lt (Nat.pow_le_pow_right (by decide) (Nat.le_of_not_lt outside))
    rw [Nat.shiftRight_eq_div_pow, Nat.div_eq_of_lt small]
    rfl

theorem slotIndex_lt (hash : UInt64) (depth : Nat) : slotIndex hash depth < 32 := by
  rw [slotIndex_eq]
  exact (digit hash depth).isLt

theorem slotIndex_inj {left right : UInt64} {depth other : Nat} :
    slotIndex left depth = slotIndex right other ↔ digit left depth = digit right other := by
  rw [slotIndex_eq, slotIndex_eq, Fin.val_inj]

/-- A bit can be shifted into every slot. -/
theorem oneBit_slot (slot : Slot) : oneBit slot = .ok (BitVec.twoPow 32 slot) :=
  if_pos slot.isLt

theorem oneBit_slotIndex (hash : UInt64) (depth : Nat) :
    oneBit (slotIndex hash depth) = .ok (BitVec.twoPow 32 (digit hash depth)) := by
  rw [slotIndex_eq, oneBit_slot]

/-- The bit of a slot is set if the slot is occupied. -/
theorem and_twoPow_eq_zero_iff (bitmap : Bitmap) (slot : Slot) :
    bitmap.bits &&& BitVec.twoPow 32 slot = 0 ↔ bitmap.contains slot = false := by
  rw [BitVec.and_twoPow]
  change (if bitmap.contains slot = true then _ else _) = _ ↔ _
  cases bitmap.contains slot with
  | false => exact ⟨fun _ => rfl, fun _ => rfl⟩
  | true => exact ⟨fun zero => absurd zero (twoPow_slot_ne_zero slot), nofun⟩

/-- The number of bits below the bit of a slot is the rank of the slot. -/
theorem slotPosition_twoPow (bitmap : Bitmap) (slot : Slot) :
    slotPosition bitmap.bits (BitVec.twoPow 32 slot) = .ok (bitmap.rank slot) := by
  rw [slotPosition, if_neg (twoPow_slot_ne_zero slot), BitVec.toNat_cpop, cpopNatRec_eq_countP,
    range_eq_map_finRange, List.countP_map, Bitmap.rank]
  congr 1
  apply List.countP_congr
  intro lower _
  rw [Function.comp_apply, BitVec.getLsbD_and, getLsbD_twoPow_sub_one, Bool.and_comm]
  rfl

section Lists

variable {α : Type} {list : List α} {position bound : Nat}

theorem read_of_lt (inside : position < list.length) :
    read list position = .ok list[position] := by
  rw [read, List.getElem?_eq_getElem inside]

/-- A walk along a list down to a position is a read at the position. -/
theorem eq_read_bind {β : Type} (walk : List α → Nat → Guarded β) (visit : α → Guarded β)
    (outside : ∀ position, walk [] position = .error .position)
    (here : ∀ head tail, walk (head :: tail) 0 = visit head)
    (further : ∀ head tail position, walk (head :: tail) (position + 1) = walk tail position)
    (list : List α) (position : Nat) : walk list position = read list position >>= visit := by
  induction list generalizing position with
  | nil => exact outside position
  | cons head tail ih =>
      cases position with
      | zero => exact here head tail
      | succ position => exact (further head tail position).trans (ih position)

theorem write_of_lt (inside : position < list.length) (element : α) :
    write list position element = .ok (list.set position element) := if_pos inside

theorem remove_of_lt (inside : position < list.length) :
    remove list position = .ok (list.eraseIdx position) := if_pos inside

theorem front_of_le (inside : bound ≤ list.length) :
    front list bound = .ok (list.take bound) := if_pos inside

theorem back_of_le (inside : bound ≤ list.length) :
    back list bound = .ok (list.drop bound) := if_pos inside

end Lists

theorem subtract_of_le {whole part : Nat} (enough : part ≤ whole) :
    subtract whole part = .ok (whole - part) := if_pos enough

end Guarded

end HashTrie
