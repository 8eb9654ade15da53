import HashTrie.Traversal.Iteration
import HashTrie.Trie.Basic

/-!
# Cursors

A cursor walks a trie lazily. It holds the rest of the run it is in and, for each
branch above, the children still to be visited, and it counts the entries still to
come down from the number that the root remembers.
-/

namespace HashTrie.Trie

variable {κ ν : Type}

/-- A place in the iteration order of a trie. -/
structure Cursor (κ ν : Type) where
  /-- The unvisited children of the branches above, innermost first. -/
  stack : List (List (Trie κ ν))
  /-- The unvisited entries of the current leaf. -/
  run : Run κ ν
  /-- The number of entries still to come. -/
  remaining : Nat

namespace Cursor

/-- Enter a node: a leaf becomes the current run, a branch goes on the stack. -/
def descend (stack : List (List (Trie κ ν))) : Trie κ ν → List (List (Trie κ ν)) × Run κ ν
  | .empty => (stack, [])
  | .leaf _ _ run => (stack, run)
  | .branch _ _ _ children => (children :: stack, [])

/-- The cursor before the first entry of a trie. -/
def start (root : Trie κ ν) : Cursor κ ν :=
  let (stack, run) := descend [] root
  ⟨stack, run, root.size⟩

theorem sizeOf_descend_lt (stack : List (List (Trie κ ν))) (child : Trie κ ν)
    (children : List (Trie κ ν)) :
    sizeOf (descend (children :: stack) child).1 < sizeOf ((child :: children) :: stack) := by
  cases child with
  | empty => simp [descend]
  | leaf stamp hash run =>
      simp only [descend, List.cons.sizeOf_spec, Trie.leaf.sizeOf_spec]
      omega
  | branch stamp bitmap size children =>
      simp only [descend, List.cons.sizeOf_spec, Trie.branch.sizeOf_spec]
      omega

/-- The next entry below a stack, with the stack and the run that remain after
it. A branch without unvisited children is left, any other child is entered. -/
def advance : List (List (Trie κ ν)) → Option ((κ × ν) × List (List (Trie κ ν)) × Run κ ν)
  | [] => none
  | [] :: stack => advance stack
  | (child :: children) :: stack =>
      match (descend (children :: stack) child).2 with
      | entry :: run => some (entry, (descend (children :: stack) child).1, run)
      | [] => advance (descend (children :: stack) child).1
termination_by stack => sizeOf stack
decreasing_by
  · simp
  · exact sizeOf_descend_lt stack child children

/-- The next entry, if there is one, and the cursor after it. -/
def next (cursor : Cursor κ ν) : Option (κ × ν) × Cursor κ ν :=
  match cursor.run with
  | entry :: run => (some entry, ⟨cursor.stack, run, cursor.remaining - 1⟩)
  | [] =>
      match advance cursor.stack with
      | some (entry, stack, run) => (some entry, ⟨stack, run, cursor.remaining - 1⟩)
      | none => (none, ⟨[], [], cursor.remaining⟩)

/-- A cursor of its own at the same place. -/
def copy (cursor : Cursor κ ν) : Cursor κ ν := ⟨cursor.stack, cursor.run, cursor.remaining⟩

theorem advance_decreases {stack : List (List (Trie κ ν))} {entry : κ × ν}
    {after : List (List (Trie κ ν))} {run : Run κ ν}
    (found : advance stack = some (entry, after, run)) : sizeOf after < sizeOf stack := by
  fun_induction advance stack with
  | case1 => simp at found
  | case2 stack ih =>
      have := ih found
      simp only [List.cons.sizeOf_spec]
      omega
  | case3 child children stack first rest entered =>
      obtain ⟨rfl, rfl, rfl⟩ : first = entry ∧ _ = after ∧ rest = run := by
        simpa using found
      exact sizeOf_descend_lt stack child children
  | case4 child children stack entered ih =>
      exact Nat.lt_trans (ih found) (sizeOf_descend_lt stack child children)

/-- The entries from a stack and a run on, to the end. -/
def restFrom (stack : List (List (Trie κ ν))) (run : Run κ ν) : List (κ × ν) :=
  match _found : advance stack with
  | some (entry, after, rest) => run ++ entry :: restFrom after rest
  | none => run
termination_by sizeOf stack
decreasing_by exact advance_decreases _found

/-- All entries still to come, found by walking to the end. -/
def rest (cursor : Cursor κ ν) : List (κ × ν) := restFrom cursor.stack cursor.run

instance : Iteration (Cursor κ ν) (κ × ν) where
  next := next
  remaining := remaining
  rest := rest

end Cursor

end HashTrie.Trie
