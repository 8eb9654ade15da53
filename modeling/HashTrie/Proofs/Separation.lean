import HashTrie.Proofs.NoFaults
import HashTrie.Proofs.Nodes

/-!
# Telling two hashes apart

Two nodes of different hashes are put under new branches from a depth on, one for each digit
that the hashes still share, until their digits differ. Nothing else ends these steps:
beyond the last digit all digits are zero, so from a depth at which the hashes agree for good
there is no end (`exists_separates_iff`). Different hashes that agree in all digits above the
depth do differ at some level from there on, at level 12 at the latest, and the steps end at
the first one (`separates_at_first_difference`).
-/

namespace HashTrie

variable {κ ν : Type}

/-- Some digits of a hash, from a depth on. -/
def digitsFrom (code : UInt64) (depth count : Nat) : List Slot :=
  (List.range' depth count).map (digit code)

theorem digitsFrom_succ (code : UInt64) (depth count : Nat) :
    digitsFrom code depth (count + 1) =
      digitsFrom code depth count ++ [digit code (depth + count)] := by
  rw [digitsFrom, List.range'_concat, List.map_append, Nat.one_mul]
  rfl

namespace Trie

/-- Two nodes under a branch with their slots, in the order of the slots. -/
def fork (stamp : Stamp) (existing incoming : Trie κ ν) (left right : Slot) : Trie κ ν :=
  .branch stamp ((Bitmap.singleton left).insert right) (existing.size + incoming.size)
    (if left < right then [existing, incoming] else [incoming, existing])

/-- A node under branches with a single child each, for the given slots from the top. -/
def chain (stamp : Stamp) (size : Nat) (slots : List Slot) (node : Trie κ ν) : Trie κ ν :=
  slots.foldr (fun slot below => .branch stamp (.singleton slot) size [below]) node

/-- Putting two nodes under new branches from a depth on comes to an end, with a result.
There is a constructor for each of the two ways in which a step can go: while the digits are
equal, the next step has to come to an end first. -/
inductive Separates (stamp : Stamp) (existing incoming : Trie κ ν) (left right : UInt64) :
    Nat → Trie κ ν → Prop where
  | deeper {depth : Nat} {child : Trie κ ν} (same : digit left depth = digit right depth)
      (below : Separates stamp existing incoming left right (depth + 1) child) :
      Separates stamp existing incoming left right depth
        (.branch stamp (.singleton (digit left depth)) (existing.size + incoming.size) [child])
  | apart {depth : Nat} (differ : digit left depth ≠ digit right depth) :
      Separates stamp existing incoming left right depth
        (fork stamp existing incoming (digit left depth) (digit right depth))

/-- What two nodes are put under from a depth on, if their hashes share some more digits and
then differ. -/
structure SeparatedAt [BEq κ] (stamp : Stamp) (existing incoming : Trie κ ν)
    (left right : UInt64) (depth shared : Nat) (result : Trie κ ν) : Prop where
  /-- There is a branch with a single child for each shared digit, and then one with two. -/
  shape : result = chain stamp (existing.size + incoming.size) (digitsFrom left depth shared)
    (fork stamp existing incoming (digit left (depth + shared)) (digit right (depth + shared)))
  /-- Either node stands where the digits of its hash lead. -/
  existing_at : result.nodeAt? (digitsFrom left depth (shared + 1)) = some existing
  incoming_at : result.nodeAt? (digitsFrom right depth (shared + 1)) = some incoming
  /-- The search for a key with either hash is the search in its own node. -/
  lookup_existing : ∀ key,
    result.lookup key left depth = existing.lookup key left (depth + shared + 1)
  lookup_incoming : ∀ key,
    result.lookup key right depth = incoming.lookup key right (depth + shared + 1)
  /-- The node with the smaller digit comes first. -/
  ordered : result.toList =
    if digit left (depth + shared) < digit right (depth + shared) then
      existing.toList ++ incoming.toList
    else incoming.toList ++ existing.toList
  /-- Every node down to the one with two children is a new branch of the same size. -/
  sized : ∀ path node, path.length ≤ shared → result.nodeAt? path = some node →
    ∃ bitmap children,
      node = .branch stamp bitmap (existing.size + incoming.size) children

variable {stamp : Stamp} {existing incoming result other node : Trie κ ν} {left right : UInt64}
  {depth shared size : Nat}

section Forks

variable {first second : Slot}

theorem childAt_fork (different : first ≠ second) (slot : Slot) :
    childAt ((Bitmap.singleton first).insert second)
        (if first < second then [existing, incoming] else [incoming, existing]) slot =
      if slot = second then some incoming else if slot = first then some existing else none := by
  have free : (Bitmap.singleton first).contains second = false := by
    rw [Bitmap.contains_singleton, decide_eq_false different]
  have full : [existing].length = (Bitmap.singleton first).card :=
    (Bitmap.card_singleton first).symm
  rw [pair_eq_insertIdx, childAt_insertIdx full free, childAt_singleton]

theorem nodeAt?_fork_left (different : first ≠ second) :
    (fork stamp existing incoming first second).nodeAt? [first] = some existing := by
  rw [fork, nodeAt?, childAt_fork different, if_neg different, if_pos rfl]
  rfl

theorem nodeAt?_fork_right (different : first ≠ second) :
    (fork stamp existing incoming first second).nodeAt? [second] = some incoming := by
  rw [fork, nodeAt?, childAt_fork different, if_pos rfl]
  rfl

theorem toList_fork : (fork stamp existing incoming first second).toList =
    if first < second then existing.toList ++ incoming.toList
    else incoming.toList ++ existing.toList := by
  rw [fork, toList]
  split <;> simp [toLists]

end Forks

section Chains

variable (slots : List Slot)

theorem nodeAt?_chain (path : List Slot) :
    (chain stamp size slots node).nodeAt? (slots ++ path) = node.nodeAt? path := by
  induction slots with
  | nil => rfl
  | cons slot slots ih =>
      rw [List.cons_append, ← ih]
      exact nodeAt?_branch (by rw [childAt_singleton, if_pos rfl]; rfl) (slots ++ path)

theorem toList_chain : (chain stamp size slots node).toList = node.toList := by
  induction slots with
  | nil => rfl
  | cons slot slots ih =>
      change toLists [chain stamp size slots node] = node.toList
      rw [toLists, toLists, List.append_nil, ih]

/-- On the way down a chain there are only branches of its size. -/
theorem branch_of_nodeAt?_chain {bitmap : Bitmap} {children : List (Trie κ ν)}
    {path : List Slot} (short : path.length ≤ slots.length)
    (found : (chain stamp size slots (.branch stamp bitmap size children)).nodeAt? path =
      some node) : ∃ bitmap children, node = .branch stamp bitmap size children := by
  induction slots generalizing path with
  | nil =>
      obtain rfl := List.eq_nil_of_length_eq_zero (Nat.le_zero.mp short)
      exact ⟨bitmap, children, (Option.some.inj found).symm⟩
  | cons slot slots ih =>
      cases path with
      | nil => exact ⟨_, _, (Option.some.inj found).symm⟩
      | cons first path =>
          obtain ⟨child, atSlot, found⟩ := Option.bind_eq_some_iff.mp found
          obtain rfl := List.mem_singleton.mp (mem_of_childAt atSlot)
          exact ih (Nat.le_of_succ_le_succ short) found

variable [BEq κ]

/-- A search whose hash has the digits of a chain goes on at its end. -/
theorem lookup_chain (key : κ) (code : UInt64) (count : Nat) :
    (chain stamp size (digitsFrom code depth count) node).lookup key code depth =
      node.lookup key code (depth + count) := by
  induction count generalizing depth with
  | zero => rfl
  | succ count ih =>
      change lookup key code depth (.branch stamp (.singleton (digit code depth)) size
        [chain stamp size (digitsFrom code (depth + 1) count) node]) = _
      rw [lookup_branch, childAt_singleton, if_pos rfl, Option.bind_some, ih, Nat.add_right_comm]
      rfl

end Chains

namespace Separates

/-- The result is the only one. -/
theorem unique (separates : Separates stamp existing incoming left right depth result)
    (again : Separates stamp existing incoming left right depth other) : result = other := by
  induction separates generalizing other with
  | deeper same _ ih =>
      cases again with
      | deeper _ below => rw [ih below]
      | apart differ => exact absurd same differ
  | apart differ =>
      cases again with
      | deeper same _ => exact absurd same differ
      | apart _ => rfl

/-- The steps end at the first difference from the depth on. -/
theorem exists_chain (separates : Separates stamp existing incoming left right depth result) :
    ∃ shared, (∀ level, depth ≤ level → level < depth + shared →
        digit left level = digit right level) ∧
      digit left (depth + shared) ≠ digit right (depth + shared) ∧
      result = chain stamp (existing.size + incoming.size) (digitsFrom left depth shared)
        (fork stamp existing incoming (digit left (depth + shared))
          (digit right (depth + shared))) := by
  induction separates with
  | @deeper depth child same _ ih =>
      obtain ⟨shared, agree, differ, rfl⟩ := ih
      rw [Nat.add_right_comm] at agree differ
      refine ⟨shared + 1, ?_, differ, ?_⟩
      · intro level from_depth below
        rcases Nat.eq_or_lt_of_le from_depth with rfl | deeper
        · exact same
        · exact agree level deeper below
      · rw [Nat.add_right_comm]
        rfl
  | @apart depth differ =>
      refine ⟨0, ?_, differ, rfl⟩
      intro level from_depth below
      exact absurd from_depth (Nat.not_le_of_lt below)

end Separates

/-- **When the steps end.** Putting two nodes under new branches from a depth on comes to an
end exactly if their hashes differ in some digit from there on. -/
theorem exists_separates_iff :
    (∃ result, Separates stamp existing incoming left right depth result) ↔
      ∃ level, depth ≤ level ∧ digit left level ≠ digit right level := by
  constructor
  · rintro ⟨result, separates⟩
    obtain ⟨shared, _, differ, _⟩ := separates.exists_chain
    exact ⟨depth + shared, Nat.le_add_right depth shared, differ⟩
  · rintro ⟨level, from_depth, differ⟩
    obtain ⟨count, rfl⟩ := Nat.exists_eq_add_of_le from_depth
    induction count generalizing depth with
    | zero => exact ⟨_, .apart differ⟩
    | succ count ih =>
        by_cases same : digit left depth = digit right depth
        · rw [← Nat.succ_add_eq_add_succ] at differ
          obtain ⟨child, below⟩ := ih (Nat.le_add_right _ _) differ
          exact ⟨_, .deeper same below⟩
        · exact ⟨_, .apart same⟩

/-- Along the pairs of digits the same branches are built. -/
theorem separates_join {depth : Nat} (different : left ≠ right)
    (same : Agree (digit left) (digit right) depth) :
    Separates stamp existing incoming left right depth
      (join stamp existing incoming (digitPairs left right depth)) := by
  have shallow := depth_lt_levels different same
  rw [digitPairs_cons left right shallow]
  by_cases here : digit left depth = digit right depth
  · rw [← here, join_cons_of_eq]
    exact .deeper here (separates_join different (Agree.succ_iff.mpr ⟨same, here⟩))
  · rw [join, if_neg here]
    exact .apart here
termination_by levels - depth
decreasing_by omega

/-- Hashes that differ in a digit differ in one of the thirteen. -/
theorem level_le_of_difference {level : Nat} (differ : digit left level ≠ digit right level) :
    level ≤ 12 := by
  by_contra deep
  have beyond : levels ≤ level := Nat.lt_of_not_le deep
  rw [digit_eq_zero left beyond, digit_eq_zero right beyond] at differ
  exact differ rfl

variable [BEq κ]

/-- A chain down to the first difference keeps both nodes where their hashes lead. -/
theorem separatedAt_chain (agree : ∀ level, depth ≤ level → level < depth + shared →
      digit left level = digit right level)
    (differ : digit left (depth + shared) ≠ digit right (depth + shared)) :
    SeparatedAt stamp existing incoming left right depth shared
      (chain stamp (existing.size + incoming.size) (digitsFrom left depth shared)
        (fork stamp existing incoming (digit left (depth + shared))
          (digit right (depth + shared)))) := by
  have sharedDigits : digitsFrom left depth shared = digitsFrom right depth shared := by
    apply List.map_congr_left
    intro level member
    rw [List.mem_range'_1] at member
    exact agree level member.1 member.2
  constructor
  case shape => rfl
  case existing_at => rw [digitsFrom_succ, nodeAt?_chain, nodeAt?_fork_left differ]
  case incoming_at =>
    rw [digitsFrom_succ, ← sharedDigits, nodeAt?_chain, nodeAt?_fork_right differ]
  case lookup_existing =>
    intro key
    rw [lookup_chain, fork, lookup_branch, childAt_fork differ, if_neg differ, if_pos rfl,
      Option.bind_some]
  case lookup_incoming =>
    intro key
    rw [sharedDigits, lookup_chain, fork, lookup_branch, childAt_fork differ, if_pos rfl,
      Option.bind_some]
  case ordered => rw [toList_chain, toList_fork]
  case sized =>
    intro path node short found
    refine branch_of_nodeAt?_chain (digitsFrom left depth shared) ?_ found
    rwa [digitsFrom, List.length_map, List.length_range']

end Trie

/-- **Different hashes are told apart at their first difference.** Putting two nodes under new
branches from a depth on, where their hashes agree in all digits above, comes to an end with
one result. It is a chain of branches with a single child for each digit that the hashes still
share, and a branch with both nodes at the first difference, at level 12 at the latest.
Insertions and merges of reachable maps never do so for other hashes. -/
theorem separates_at_first_difference [BEq κ] [Hashable κ] [EquivBEq κ] (stamp : Stamp)
    (existing incoming : Trie κ ν) {left right : UInt64} {depth : Nat} (different : left ≠ right)
    (same : Agree (digit left) (digit right) depth) :
    (∀ result, Trie.Separates stamp existing incoming left right depth result ↔
        result = .join stamp existing incoming (digitPairs left right depth)) ∧
      (∃ shared, depth + shared ≤ 12 ∧ Agree (digit left) (digit right) (depth + shared) ∧
        digit left (depth + shared) ≠ digit right (depth + shared) ∧
        Trie.SeparatedAt stamp existing incoming left right depth shared
          (.join stamp existing incoming (digitPairs left right depth))) ∧
      ∀ (pool : Pool κ), Reachable pool → ∀ (map operand : TrieMap κ ν), ⟨ν, map⟩ ∈ pool →
        ⟨ν, operand⟩ ∈ pool →
          (∀ mark key value, TrieMap.Guarded.insert mark map key value ≠ .error .separation) ∧
          (∀ mark, TrieMap.Guarded.merge mark map operand ≠ .error .separation) ∧
          ∀ mark resolve, TrieMap.Guarded.mergeWith mark map operand resolve ≠
            .error .separation := by
  have ends : Trie.Separates stamp existing incoming left right depth
      (.join stamp existing incoming (digitPairs left right depth)) :=
    Trie.separates_join different same
  refine ⟨?_, ?_, ?_⟩
  · intro result
    constructor
    · exact fun separates => separates.unique ends
    · rintro rfl
      exact ends
  · obtain ⟨shared, agree, differ, shape⟩ := ends.exists_chain
    refine ⟨shared, Trie.level_le_of_difference differ, ?_, differ, ?_⟩
    · intro level below
      rcases Nat.lt_or_ge level depth with above | from_depth
      · exact same level above
      · exact agree level from_depth below
    · rw [shape]
      exact Trie.separatedAt_chain agree differ
  · intro pool reachable map operand held operandHeld
    have faultFree := (reachable.sound held).faultFree
    have sound := reachable.sound operandHeld
    refine ⟨?_, ?_, ?_⟩
    · intro mark key value
      rw [faultFree.insert]
      exact nofun
    · intro mark
      rw [faultFree.merge mark operand sound]
      exact nofun
    · intro mark resolve
      rw [faultFree.mergeWith mark operand resolve sound]
      exact nofun

/-- The hashes 0 and 2^60 differ in the last digit only. From the tenth level on their leaves
are put under two branches with a single child, and one with both. -/
theorem separates_at_first_difference_of_last_digit :
    let far : UInt64 := 0x1000000000000000
    let existing : Trie Nat Nat := .leaf (.ofNat 0) 0 [(0, 1)]
    let incoming : Trie Nat Nat := .leaf (.ofNat 1) far [(0x1000000000000000, 2)]
    let map : TrieMap Nat Nat := .ofList (.ofNat 0) [(0, 1)]
    let result := Trie.chain (.ofNat 1) 2 [0, 0] (.fork (.ofNat 1) existing incoming 0 1)
    0 ≠ far ∧ Agree (digit 0) (digit far) 10 ∧
      Trie.Separates (.ofNat 1) existing incoming 0 far 10 result ∧
      result.toList = [(0, 1), (0x1000000000000000, 2)] ∧ Reachable [⟨Nat, map⟩] ∧
      TrieMap.Guarded.insert (.ofNat 1) map 0x1000000000000000 2 ≠ .error .separation := by
  intro far existing incoming map result
  have different : 0 ≠ far := by decide
  have same : Agree (digit 0) (digit far) 10 := by
    unfold Agree
    decide
  have reachable : Reachable [⟨Nat, map⟩] := .ofList _ _
  obtain ⟨ends, _, reached⟩ :=
    separates_at_first_difference (.ofNat 1) existing incoming different same
  have digits : digitPairs 0 far 10 = [(0, 0), (0, 0), (0, 1)] := by decide
  have joined : result = .join (.ofNat 1) existing incoming (digitPairs 0 far 10) := by
    rw [digits]
    rfl
  obtain ⟨inserted, _⟩ := reached _ reachable map map List.mem_cons_self List.mem_cons_self
  exact ⟨different, same, (ends result).mpr joined, rfl, reachable, inserted _ _ _⟩

end HashTrie
