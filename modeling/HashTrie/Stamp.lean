/-!
# Stamps

Maps are immutable values, and two maps that descend from one another hold the
same nodes. Callers can see that: a map that shares its root with another is
equal to it without any comparison, and a merge stops where the two operands
hold the same node. Sharing is therefore part of the data. Each node that holds
entries bears the stamp of the operation that built it, and two such nodes met at
the same place of two tries are one node exactly when an operation built both of
them at once.
-/

namespace HashTrie

/-- The mark that an operation leaves on the nodes it builds: the number of the
operation, preceded by the number of the result for an operation that returns
several. -/
structure Stamp where
  path : List Nat
deriving DecidableEq, Repr, Inhabited

namespace Stamp

/-- The stamp of the operation with the given number. -/
def ofNat (operation : Nat) : Stamp := ⟨[operation]⟩

/-- The stamp of one result of an operation that returns several. -/
def part (stamp : Stamp) (index : Nat) : Stamp := ⟨index :: stamp.path⟩

theorem part_inj {first second : Stamp} {index other : Nat} :
    first.part index = second.part other ↔ index = other ∧ first = second := by
  cases first
  cases second
  simp [part]

end Stamp

end HashTrie
