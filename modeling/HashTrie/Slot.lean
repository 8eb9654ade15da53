/-!
# Slots and hash digits

A 64-bit hash is read as thirteen digits in base 32, the lowest five bits first;
the last digit has four bits. The digit at a depth names the slot of the branch
at that depth below which the entries with that hash lie.
-/

namespace HashTrie

/-- One of the thirty-two places of a branch. -/
abbrev Slot := Fin 32

/-- The number of digits of a hash, which bounds the depth of a trie. -/
def levels : Nat := 13

/-- The base-32 digit of a hash at a depth, zero beyond the last one. -/
def digit (hash : UInt64) (depth : Nat) : Slot :=
  Fin.ofNat 32 (hash.toNat >>> (5 * depth))

theorem digit_val (hash : UInt64) (depth : Nat) :
    (digit hash depth).val = (hash.toNat >>> (5 * depth)) % 32 := rfl

/-- The digits of two hashes side by side, from a depth on. -/
def digitPairs (left right : UInt64) (depth : Nat) : List (Slot × Slot) :=
  (List.range' depth (levels - depth)).map fun level => (digit left level, digit right level)

end HashTrie
