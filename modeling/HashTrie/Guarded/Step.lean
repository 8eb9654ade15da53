import HashTrie.Trie.Basic

/-!
# Guarded steps

The code of a trie shifts words, reads and writes arrays by position, cuts them at a
bound, and subtracts counts. Each of these steps is allowed only under a condition, on
which the running definitions are silent: a read of a list beyond its end gives nothing
there, and a difference stops at zero. A guarded step gives its result where the
condition holds, and otherwise tells what is wrong.
-/

namespace HashTrie

/-- What is wrong with a step that is not allowed. -/
inductive Fault where
  /-- A word is shifted by as many bits as it has, or by more. -/
  | shift
  /-- A list is read, written or shortened at a position that it does not have. -/
  | position
  /-- A list is cut at a bound beyond its end. -/
  | bound
  /-- A number is taken from a smaller one. -/
  | underflow
  /-- Two nodes are to be told apart from a depth on by hashes that are equal, that differ
  above that depth already, or that have no digit left there. -/
  | separation
deriving DecidableEq, Repr

/-- The outcome of guarded steps. -/
abbrev Guarded := Except Fault

namespace Guarded

variable {α β : Type}

/-- The element of a list at a position. -/
def read (list : List α) (position : Nat) : Guarded α :=
  match list[position]? with
  | some element => .ok element
  | none => .error .position

/-- A list with another element at a position. -/
def write (list : List α) (position : Nat) (element : α) : Guarded (List α) :=
  if position < list.length then .ok (list.set position element) else .error .position

/-- A list without the element at a position. -/
def remove (list : List α) (position : Nat) : Guarded (List α) :=
  if position < list.length then .ok (list.eraseIdx position) else .error .position

/-- The part of a list before a bound. -/
def front (list : List α) (bound : Nat) : Guarded (List α) :=
  if bound ≤ list.length then .ok (list.take bound) else .error .bound

/-- The part of a list from a bound on. -/
def back (list : List α) (bound : Nat) : Guarded (List α) :=
  if bound ≤ list.length then .ok (list.drop bound) else .error .bound

/-- The difference of two numbers. -/
def subtract (whole part : Nat) : Guarded Nat :=
  if part ≤ whole then .ok (whole - part) else .error .underflow

/-- The five bits of a hash that name a slot at a depth. Beyond the width of the hash
there are none, and the index is zero. -/
def slotIndex (hash : UInt64) (depth : Nat) : Nat :=
  ((if depth * 5 < 64 then hash >>> UInt64.ofNat (depth * 5) else 0) &&& 31).toNat

/-- The word with a single bit, at an index. -/
def oneBit (index : Nat) : Guarded (BitVec 32) :=
  if index < 32 then .ok (1#32 <<< index) else .error .shift

/-- The number of bits of a word below a given bit. -/
def slotPosition (bits bit : BitVec 32) : Guarded Nat :=
  if bit = 0 then .error .underflow else .ok (bits &&& (bit - 1)).cpop.toNat

@[simp] theorem ok_bind (value : α) (next : α → Guarded β) :
    (Except.ok value : Guarded α) >>= next = next value := rfl

@[simp] theorem pure_eq_ok (value : α) : (pure value : Guarded α) = .ok value := rfl

end Guarded

end HashTrie
