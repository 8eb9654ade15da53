import HashTrie.TrieMap

/-!
# What a cursor yields

The entries below the stack of a cursor, in order (`Cursor.pending`), are what its
steps bring out one by one (`pending_of_advance_some`), so a cursor that starts at a
trie walks through the entries of the trie in their order (`rest_start`).
-/

namespace HashTrie.Trie.Cursor

variable {κ ν : Type}

/-- The entries below the unvisited children of a stack, innermost first. -/
def pending (stack : List (List (Trie κ ν))) : List (κ × ν) := stack.flatMap toLists

@[simp] theorem pending_nil : pending ([] : List (List (Trie κ ν))) = [] := rfl

theorem pending_cons (children : List (Trie κ ν)) (stack : List (List (Trie κ ν))) :
    pending (children :: stack) = toLists children ++ pending stack :=
  List.flatMap_cons ..

/-- Entering a node loses no entry and changes no order. -/
theorem pending_descend (stack : List (List (Trie κ ν))) (trie : Trie κ ν) :
    (descend stack trie).2 ++ pending (descend stack trie).1 = trie.toList ++ pending stack := by
  cases trie with
  | empty => rfl
  | leaf => rfl
  | branch => exact pending_cons ..

theorem pending_enter (child : Trie κ ν) (children : List (Trie κ ν))
    (stack : List (List (Trie κ ν))) : pending ((child :: children) :: stack) =
      (descend (children :: stack) child).2 ++ pending (descend (children :: stack) child).1 := by
  rw [pending_descend, pending_cons, pending_cons, toLists, List.append_assoc]

/-- The next entry is the first one pending. -/
theorem pending_of_advance_some {stack after : List (List (Trie κ ν))} {entry : κ × ν}
    {run : Run κ ν} (found : advance stack = some (entry, after, run)) :
    pending stack = entry :: (run ++ pending after) := by
  fun_induction advance stack with
  | case1 => cases found
  | case2 stack ih =>
      rw [pending_cons]
      exact ih found
  | case3 child children stack first rest entered =>
      cases found
      rw [pending_enter, entered]
      rfl
  | case4 child children stack entered ih =>
      rw [pending_enter, entered]
      exact ih found

/-- If there is no next entry, none is pending. -/
theorem pending_of_advance_none {stack : List (List (Trie κ ν))}
    (none : advance stack = none) : pending stack = [] := by
  fun_induction advance stack with
  | case1 => rfl
  | case2 stack ih =>
      rw [pending_cons]
      exact ih none
  | case3 => cases none
  | case4 child children stack entered ih =>
      rw [pending_enter, entered]
      exact ih none

/-- Walking to the end brings out the current run and then all that is pending. -/
theorem restFrom_eq (stack : List (List (Trie κ ν))) (run : Run κ ν) :
    restFrom stack run = run ++ pending stack := by
  fun_induction restFrom stack run with
  | case1 stack run entry after rest found ih => rw [ih, pending_of_advance_some found]
  | case2 stack run none => rw [pending_of_advance_none none, List.append_nil]

/-- **Iteration.** A cursor that starts at a trie walks through its entries in order. -/
theorem rest_start (root : Trie κ ν) : (start root).rest = root.toList := by
  have entered := pending_descend [] root
  rw [pending_nil, List.append_nil] at entered
  rw [rest, restFrom_eq]
  exact entered

end HashTrie.Trie.Cursor

namespace HashTrie.TrieMap

/-- The iteration over a map meets its entries in their order. -/
theorem rest_cursor {κ ν : Type} (map : TrieMap κ ν) : map.cursor.rest = map.toList :=
  Trie.Cursor.rest_start map.root

end HashTrie.TrieMap
