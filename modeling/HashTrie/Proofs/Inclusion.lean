import HashTrie.Proofs.SetAlgebra

/-!
# Inclusion of sets

Whether a set is part of another is decided in two steps: by a comparison of the lengths, and
by a search for each element in the other set. The comparison never rejects a part, since the
elements of a set are unequal to one another and find partners of their own in any set that
has them all (`TrieSet.length_le_of_all`). What is left is membership (`TrieSet.isSubset_iff`),
and so inclusion orders the sets of a history, with equality for sets that include one another
and with the parts of a set as those that add nothing to it (`isSubset_ordersSets`).
-/

namespace HashTrie

variable {κ : Type} [BEq κ] [Hashable κ] [EquivBEq κ]

namespace TrieSet

variable {set other third : TrieSet κ}

/-- To look for the elements that a set stores is to look for all that are equal to them. -/
theorem all_contains_iff_forall (sound : set.map.WellFormed) (otherSound : other.map.WellFormed) :
    set.toList.all other.contains = true ↔
      ∀ element, set.contains element = true → other.contains element = true := by
  rw [List.all_eq_true]
  constructor
  · intro all element held
    rw [contains_eq_isSome] at held
    obtain ⟨own, stored⟩ := Option.isSome_iff_exists.mp held
    obtain ⟨listed, same, equal⟩ := (stored?_eq_some_iff sound).mp stored
    rw [← respects_contains otherSound own element same equal]
    exact all own listed
  · intro included element listed
    obtain ⟨entry, member, rfl⟩ := List.mem_map.mp listed
    exact included entry.1 (sound.containsKey_of_mem member)

/-- A set whose elements are all found in another one is not the longer of the two. -/
theorem length_le_of_all (sound : set.map.WellFormed) (otherSound : other.map.WellFormed)
    (all : set.toList.all other.contains = true) : set.length ≤ other.length :=
  (sound.length_le_of_keys otherSound ((all_contains_iff_forall sound otherSound).mp all)).1

/-- The lengths decide nothing that the elements do not decide: a set is part of another if its
elements are elements of the other. -/
theorem isSubset_iff (sound : set.map.WellFormed) (otherSound : other.map.WellFormed) :
    set.isSubset other = true ↔
      ∀ element, set.contains element = true → other.contains element = true := by
  rw [isSubset, Bool.and_eq_true, decide_eq_true_iff]
  constructor
  · rintro ⟨-, all⟩
    exact (all_contains_iff_forall sound otherSound).mp all
  · intro included
    have all := (all_contains_iff_forall sound otherSound).mpr included
    exact ⟨length_le_of_all sound otherSound all, all⟩

end TrieSet

variable {pool : Pool κ} {set other : TrieSet κ}

/-- Sets of a history are equal if they have the same elements. -/
theorem Reachable.beq_iff_contains (reachable : Reachable pool) (held : ⟨Unit, set.map⟩ ∈ pool)
    (otherHeld : ⟨Unit, other.map⟩ ∈ pool) : (set == other) = true ↔
      ∀ element, set.contains element = other.contains element := by
  constructor
  · intro equal
    exact ((reachable.beq_iff_sameValues held otherHeld).mp equal).containsKey_eq
  · exact TrieSet.beq_of_contains (reachable.sound held) (reachable.sound otherHeld)

/-- The union with a set is equal to that set if it has no other elements. -/
theorem Reachable.union_beq_iff {stamp : Stamp} (reachable : Reachable pool)
    (held : ⟨Unit, set.map⟩ ∈ pool) (otherHeld : ⟨Unit, other.map⟩ ∈ pool)
    (fresh : Fresh stamp pool) : (set.union stamp other == other) = true ↔
      ∀ element, set.contains element = true → other.contains element = true := by
  have united : Reachable (⟨Unit, (set.union stamp other).map⟩ :: pool) :=
    .cons reachable fresh (.merge held otherHeld)
  rw [united.beq_iff_contains List.mem_cons_self (.tail _ otherHeld)]
  refine forall_congr' fun element => ?_
  rw [TrieSet.contains_union (reachable.sound held) (reachable.sound otherHeld) (fresh _ held)
    (reachable.coherent held otherHeld)]
  cases set.contains element <;> cases other.contains element <;> simp

/-- **Inclusion orders sets.** Among the sets of a history, one is found to be a subset of
another exactly if every element of it is an element of the other; the comparison of lengths
that comes first holds whenever all elements are found. A superset is the other side of a
subset. Every set is a subset of itself, a subset of a subset is a subset, sets are subsets of
one another exactly if they are equal, and a set is a subset of another exactly if their union
is equal to the other. -/
theorem isSubset_ordersSets (reachable : Reachable pool) :
    (∀ {set other : TrieSet κ}, ⟨Unit, set.map⟩ ∈ pool → ⟨Unit, other.map⟩ ∈ pool →
        (set.isSubset other = true ↔
          ∀ element, set.contains element = true → other.contains element = true) ∧
        (set.isSubset other = true ↔
          ∀ element ∈ set.toList, other.contains element = true) ∧
        ((∀ element ∈ set.toList, other.contains element = true) → set.length ≤ other.length) ∧
        (set.isSuperset other = true ↔ other.isSubset set = true)) ∧
      (∀ {set : TrieSet κ}, ⟨Unit, set.map⟩ ∈ pool → set.isSubset set = true) ∧
      (∀ {set other third : TrieSet κ}, ⟨Unit, set.map⟩ ∈ pool → ⟨Unit, other.map⟩ ∈ pool →
        ⟨Unit, third.map⟩ ∈ pool → set.isSubset other = true → other.isSubset third = true →
          set.isSubset third = true) ∧
      (∀ {set other : TrieSet κ}, ⟨Unit, set.map⟩ ∈ pool → ⟨Unit, other.map⟩ ∈ pool →
        (set.isSubset other = true ∧ other.isSubset set = true ↔ (set == other) = true)) ∧
      ∀ {set other : TrieSet κ} {stamp : Stamp}, ⟨Unit, set.map⟩ ∈ pool →
        ⟨Unit, other.map⟩ ∈ pool → Fresh stamp pool →
          (set.isSubset other = true ↔ (set.union stamp other == other) = true) := by
  have decides {set other : TrieSet κ} (held : ⟨Unit, set.map⟩ ∈ pool)
      (otherHeld : ⟨Unit, other.map⟩ ∈ pool) :=
    TrieSet.isSubset_iff (reachable.sound held) (reachable.sound otherHeld)
  refine ⟨?_, ?_, ?_, ?_, ?_⟩
  · intro set other held otherHeld
    have sound := reachable.sound held
    have otherSound := reachable.sound otherHeld
    refine ⟨decides held otherHeld, ?_, ?_, Iff.rfl⟩
    · rw [decides held otherHeld, ← TrieSet.all_contains_iff_forall sound otherSound,
        List.all_eq_true]
    · intro found
      exact TrieSet.length_le_of_all sound otherSound (List.all_eq_true.mpr found)
  · intro set held
    exact (decides held held).mpr fun _ => id
  · intro set other third held otherHeld thirdHeld first second
    have included := (decides held otherHeld).mp first
    have next := (decides otherHeld thirdHeld).mp second
    exact (decides held thirdHeld).mpr fun element => next element ∘ included element
  · intro set other held otherHeld
    rw [decides held otherHeld, decides otherHeld held, reachable.beq_iff_contains held otherHeld,
      ← forall_and]
    exact forall_congr' fun element => (Bool.eq_iff_iff.trans iff_def).symm
  · intro set other stamp held otherHeld fresh
    rw [decides held otherHeld, reachable.union_beq_iff held otherHeld fresh]

omit [BEq κ] [Hashable κ] [EquivBEq κ] in
/-- The keys 0 and 2^64 have one hash, and they stand in one order in a set that was collected
and in the other in one that was united and cut back. The two are subsets of one another and so
equal, and each is a subset of the union from which the second was cut, but not the other way
round. -/
theorem isSubset_ordersSets_of_collisions :
    let twin := 0x10000000000000000
    let set : TrieSet Nat := .ofList (.ofNat 0) [0, 32, twin]
    let first : TrieSet Nat := .ofList (.ofNat 1) [32, twin]
    let second : TrieSet Nat := .ofList (.ofNat 2) [1, 0]
    let whole := second.union (.ofNat 3) first
    let other := whole.erase (.ofNat 4) 1
    (set.toList = [0, twin, 32] ∧ other.toList = [twin, 0, 32]) ∧
      (set == other) = true ∧ set.isSubset whole = true ∧
      (∀ element, set.contains element = true → whole.contains element = true) ∧
      (set.union (.ofNat 5) whole == whole) = true ∧ (whole.union (.ofNat 5) set == set) = false ∧
      set.isSubset set = true := by
  intro twin set first second whole other
  have one : Reachable [⟨Unit, set.map⟩] := .ofList _ _
  have two : Reachable [⟨Unit, first.map⟩, ⟨Unit, set.map⟩] := .cons one (by decide) (.ofList _)
  have three : Reachable [⟨Unit, second.map⟩, ⟨Unit, first.map⟩, ⟨Unit, set.map⟩] :=
    .cons two (by decide) (.ofList _)
  have four : Reachable
      [⟨Unit, whole.map⟩, ⟨Unit, second.map⟩, ⟨Unit, first.map⟩, ⟨Unit, set.map⟩] :=
    .cons three (by decide) (.merge List.mem_cons_self (.tail _ List.mem_cons_self))
  let pool : Pool Nat :=
    [⟨Unit, other.map⟩, ⟨Unit, whole.map⟩, ⟨Unit, second.map⟩, ⟨Unit, first.map⟩, ⟨Unit, set.map⟩]
  have five : Reachable pool := .cons four (by decide) (.erase List.mem_cons_self 1)
  have fresh : Fresh (.ofNat 5) pool := by decide
  have setHeld : ⟨Unit, set.map⟩ ∈ pool := by simp [pool]
  have wholeHeld : ⟨Unit, whole.map⟩ ∈ pool := .tail _ List.mem_cons_self
  have otherHeld : ⟨Unit, other.map⟩ ∈ pool := List.mem_cons_self
  obtain ⟨decides, reflexive, transitive, antisymmetric, joins⟩ := isSubset_ordersSets five
  have throughOther : set.isSubset whole = true :=
    transitive setHeld otherHeld wholeHeld (by decide) (by decide)
  refine ⟨⟨by decide, by decide⟩, ?_, throughOther, ?_, ?_, ?_, reflexive setHeld⟩
  · exact (antisymmetric setHeld otherHeld).mp ⟨by decide, by decide⟩
  · exact (decides setHeld wholeHeld).1.mp throughOther
  · exact (joins setHeld wholeHeld fresh).mp throughOther
  · rw [Bool.eq_false_iff]
    intro joined
    have reversed := (joins wholeHeld setHeld fresh).mpr joined
    revert reversed
    decide

end HashTrie
