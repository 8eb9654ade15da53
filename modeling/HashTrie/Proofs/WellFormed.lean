import HashTrie.Proofs.Children
import HashTrie.Proofs.Digits
import HashTrie.Proofs.Runs
import HashTrie.Trie.Lookup
import HashTrie.TrieMap

/-!
# Well-formed tries

The representation invariant (`Trie.WellFormed`, `TrieMap.WellFormed`) and what it
gives to a reader of a trie: the entries with one hash form a run of their own
(`runOf_toLists`), the search for a key is the search in that run
(`lookup_eq_find?`), and the remembered sizes are the numbers of entries
(`size_eq_length`).
-/

namespace HashTrie

variable {κ ν : Type} [BEq κ] [Hashable κ]

namespace Trie

/-- A non-empty trie whose root stands at a depth has the shape that the hashes of
its keys call for.

A leaf holds at least one entry, its keys are pairwise unequal, and all have the
hash of the leaf. A branch stands above the last level and has a child for each
occupied slot, in ascending order, and at least one; the entries below a child
have the slot of the child as their digit at this depth; a single child is no
leaf; and the size is the number of entries below. -/
inductive WellFormed : Nat → Trie κ ν → Prop where
  | leaf {depth : Nat} {stamp : Stamp} {code : UInt64} {run : Run κ ν}
      (inhabited : run ≠ [])
      (distinct : run.Distinct)
      (hashed : ∀ entry ∈ run, hash entry.1 = code) :
      WellFormed depth (.leaf stamp code run)
  | branch {depth : Nat} {stamp : Stamp} {bitmap : Bitmap} {size : Nat}
      {children : List (Trie κ ν)}
      (shallow : depth < levels)
      (full : children.length = bitmap.card)
      (inhabited : children ≠ [])
      (sound : ∀ child ∈ children, WellFormed (depth + 1) child)
      (routed : ∀ (index : Nat) (slot : Slot) (child : Trie κ ν),
        bitmap.slots[index]? = some slot → children[index]? = some child →
          ∀ entry ∈ child.toList, digit (hash entry.1) depth = slot)
      (collapsed : ∀ child, children = [child] → child.isLeaf = false)
      (counted : size = (toLists children).length) :
      WellFormed depth (.branch stamp bitmap size children)

/-- The children of a branch at a depth are well-formed and stand in the slots that
the hashes of their entries name. -/
structure Placed (depth : Nat) (bitmap : Bitmap) (children : List (Trie κ ν)) : Prop where
  full : children.length = bitmap.card
  sound : ∀ slot child, childAt bitmap children slot = some child →
    WellFormed (depth + 1) child
  routed : ∀ slot, ∀ entry ∈ entriesAt bitmap children slot, digit (hash entry.1) depth = slot

variable {depth size : Nat} {stamp : Stamp} {bitmap : Bitmap} {children : List (Trie κ ν)}
  {trie : Trie κ ν} {code : UInt64}

/-- Well-formed children, each in the slot at its position, are placed. -/
theorem Placed.of_children (full : children.length = bitmap.card)
    (sound : ∀ child ∈ children, WellFormed (depth + 1) child)
    (routed : ∀ (index : Nat) (slot : Slot) (child : Trie κ ν),
      bitmap.slots[index]? = some slot → children[index]? = some child →
        ∀ entry ∈ child.toList, digit (hash entry.1) depth = slot) :
    Placed depth bitmap children := by
  refine ⟨full, ?_, ?_⟩
  · intro slot child found
    exact sound child ((mem_iff_childAt full).mpr ⟨slot, found⟩)
  · intro slot entry member
    obtain ⟨child, found, member⟩ := mem_entriesAt.mp member
    obtain ⟨index, atSlot, atChild⟩ := childAt_eq_some_iff.mp found
    exact routed index slot child atSlot atChild entry member

/-- A branch is well-formed if its children are placed and three conditions on the
branch itself hold. -/
theorem Placed.wellFormed (placed : Placed depth bitmap children) (shallow : depth < levels)
    (inhabited : children ≠ []) (collapsed : ∀ child, children = [child] → child.isLeaf = false)
    (counted : size = (toLists children).length) :
    WellFormed depth (.branch stamp bitmap size children) := by
  refine .branch shallow placed.full inhabited ?_ ?_ collapsed counted
  · intro child member
    obtain ⟨slot, found⟩ := (mem_iff_childAt placed.full).mp member
    exact placed.sound slot child found
  · intro index slot child atSlot atChild entry member
    exact placed.routed slot entry
      (mem_entriesAt.mpr ⟨child, childAt_eq_some_iff.mpr ⟨index, atSlot, atChild⟩, member⟩)

namespace WellFormed

theorem hashed {run : Run κ ν} (wellFormed : WellFormed depth (.leaf stamp code run)) :
    ∀ entry ∈ run, hash entry.1 = code := by
  cases wellFormed with
  | leaf _ _ hashed => exact hashed

theorem placed (wellFormed : WellFormed depth (.branch stamp bitmap size children)) :
    Placed depth bitmap children := by
  cases wellFormed with
  | branch _ full _ sound routed _ _ => exact .of_children full sound routed

/-- A leaf is well-formed at every depth. -/
theorem leaf_mono {run : Run κ ν} (wellFormed : WellFormed depth (.leaf stamp code run))
    (other : Nat) : WellFormed other (.leaf stamp code run) := by
  cases wellFormed with
  | leaf inhabited distinct hashed => exact .leaf inhabited distinct hashed

theorem of_isLeaf (wellFormed : WellFormed depth trie) (isLeaf : trie.isLeaf = true)
    (other : Nat) : WellFormed other trie := by
  cases wellFormed with
  | leaf inhabited distinct hashed => exact .leaf inhabited distinct hashed
  | branch => cases isLeaf

/-- There are entries below every node. -/
theorem toList_ne_nil (wellFormed : WellFormed depth trie) : trie.toList ≠ [] := by
  induction wellFormed with
  | leaf inhabited _ _ => exact inhabited
  | @branch depth stamp bitmap size children _ _ inhabited _ _ _ _ ih =>
      cases children with
      | nil => exact absurd rfl inhabited
      | cons child children =>
          simp only [toList, toLists]
          exact List.append_ne_nil_of_left_ne_nil (ih child List.mem_cons_self) _

theorem isEmpty_eq_false (wellFormed : WellFormed depth trie) : trie.isEmpty = false := by
  cases wellFormed <;> rfl

/-- The number of entries that a node remembers is right. -/
theorem size_eq_length (wellFormed : WellFormed depth trie) :
    trie.size = trie.toList.length := by
  cases wellFormed with
  | leaf _ _ _ => rfl
  | branch _ _ _ _ _ _ counted => exact counted

end WellFormed

theorem Placed.toList_ne_nil (placed : Placed depth bitmap children) :
    ∀ child ∈ children, child.toList ≠ [] := by
  intro child member
  obtain ⟨slot, found⟩ := (mem_iff_childAt placed.full).mp member
  exact (placed.sound slot child found).toList_ne_nil

/-- The entries with one hash below a branch are those in the slot of its digit. -/
theorem Placed.runOf_toLists (placed : Placed depth bitmap children) (code : UInt64) :
    runOf code (toLists children) =
      runOf code (entriesAt bitmap children (digit code depth)) := by
  have elsewhere : ∀ slot, slot ≠ digit code depth →
      runOf code (entriesAt bitmap children slot) = [] := by
    intro slot different
    refine runOf_eq_nil_iff.mpr fun entry member same => different ?_
    rw [← placed.routed slot entry member, same]
  have slotwise (slots : List Slot) (nodup : slots.Nodup) :
      runOf code (slots.flatMap (entriesAt bitmap children)) =
        if digit code depth ∈ slots then
          runOf code (entriesAt bitmap children (digit code depth))
        else [] := by
    induction slots with
    | nil => rfl
    | cons slot slots ih =>
        obtain ⟨notMember, nodup⟩ := List.nodup_cons.mp nodup
        rw [List.flatMap_cons, runOf_append, ih nodup]
        by_cases here : slot = digit code depth
        · subst here
          simp [notMember]
        · simp [elsewhere slot here, Ne.symm here]
  rw [toLists_eq_flatMap_entriesAt placed.full, slotwise _ (List.nodup_finRange 32),
    if_pos (List.mem_finRange _)]

section Update

variable {slot : Slot} {bitmapAfter : Bitmap} {childrenAfter : List (Trie κ ν)}
  {replacement : Option (Trie κ ν)}

/-- The children stay placed when those of one slot are replaced by what belongs
there. -/
theorem Placed.update (placed : Placed depth bitmap children)
    (replaced : Replaced slot replacement bitmap children bitmapAfter childrenAfter)
    (sound : ∀ child, replacement = some child → WellFormed (depth + 1) child)
    (routed : ∀ entry ∈ replacement.elim [] toList, digit (hash entry.1) depth = slot) :
    Placed depth bitmapAfter childrenAfter := by
  refine ⟨replaced.full, ?_, ?_⟩
  · intro other child found
    rw [replaced.childAt_eq other] at found
    split at found
    · exact sound child found
    · exact placed.sound other child found
  · intro other entry member
    rw [entriesAt, replaced.childAt_eq other] at member
    split at member
    · rename_i same
      rw [same]
      exact routed entry member
    · exact placed.routed other entry member

/-- After a replacement the run of a hash that leads to the slot is the one of what
was put there. -/
theorem Placed.runOf_replacement (after : Placed depth bitmapAfter childrenAfter)
    (replaced : Replaced (digit code depth) replacement bitmap children bitmapAfter
      childrenAfter) :
    runOf code (toLists childrenAfter) = runOf code (replacement.elim [] toList) := by
  rw [after.runOf_toLists, entriesAt, replaced.childAt_eq, if_pos rfl]

/-- A replacement that keeps a run in its slot keeps it in the branch. -/
theorem Placed.runOf_kept (placed : Placed depth bitmap children)
    (after : Placed depth bitmapAfter childrenAfter)
    (replaced : Replaced slot replacement bitmap children bitmapAfter childrenAfter)
    (kept : runOf code (replacement.elim [] toList) =
      runOf code (entriesAt bitmap children slot)) :
    runOf code (toLists childrenAfter) = runOf code (toLists children) := by
  rw [after.runOf_toLists, placed.runOf_toLists, entriesAt, replaced.childAt_eq]
  split
  · rename_i leads
    rw [kept, leads]
  · rfl

end Update

/-- The keys with one hash are pairwise unequal. -/
theorem WellFormed.distinct_runOf (wellFormed : WellFormed depth trie) (code : UInt64) :
    (runOf code trie.toList).Distinct := by
  induction wellFormed with
  | leaf _ distinct hashed =>
      rw [toList, runOf_of_hashed hashed]
      split
      · exact distinct
      · exact List.Pairwise.nil
  | @branch depth stamp bitmap size children shallow full inhabited sound routed collapsed
      counted ih =>
      have placed := Placed.of_children full sound routed
      rw [toList, placed.runOf_toLists]
      unfold entriesAt
      cases found : childAt bitmap children (digit code depth) with
      | none => exact List.Pairwise.nil
      | some child => exact ih child ((mem_iff_childAt full).mpr ⟨_, found⟩)

omit [Hashable κ] in
theorem lookup_branch (key : κ) (code : UInt64) (depth : Nat) :
    lookup key code depth (.branch stamp bitmap size children) =
      (childAt bitmap children (digit code depth)).bind (lookup key code (depth + 1)) := by
  rw [lookup, childAt, lookupChild_eq]
  split <;> rfl

/-- Searching a trie for a key with a hash is searching the run of that hash. -/
theorem WellFormed.lookup_eq_find? (wellFormed : WellFormed depth trie) (key : κ)
    (code : UInt64) : trie.lookup key code depth = (runOf code trie.toList).find? key := by
  induction wellFormed with
  | @leaf _ stamp leafCode run _ _ hashed =>
      rw [toList, runOf_of_hashed hashed, lookup]
      simp only [eq_comm (a := code)]
      split <;> rfl
  | @branch depth stamp bitmap size children shallow full inhabited sound routed collapsed
      counted ih =>
      have placed := Placed.of_children full sound routed
      rw [toList, placed.runOf_toLists, lookup_branch]
      unfold entriesAt
      cases found : childAt bitmap children (digit code depth) with
      | none => rfl
      | some child => exact ih child ((mem_iff_childAt full).mpr ⟨_, found⟩)

/-- The hashes of all entries follow a path of slots down to a depth. -/
def Under (path : Nat → Slot) (depth : Nat) (entries : List (κ × ν)) : Prop :=
  ∀ entry ∈ entries, Agree (digit (hash entry.1)) path depth

omit [BEq κ] in
theorem Under.root (entries : List (κ × ν)) : Under (fun _ => 0) 0 entries := fun _ _ => .zero

omit [BEq κ] in
theorem Under.of_agree {path other : Nat → Slot} {entries : List (κ × ν)}
    (under : Under path depth entries) (agree : Agree other path depth) :
    Under other depth entries :=
  fun entry member => (under entry member).trans agree.symm

/-- The entries of a child follow the path of the branch and its own slot. -/
theorem Placed.under_entriesAt (placed : Placed depth bitmap children) {path next : Nat → Slot}
    (under : Under path depth (toLists children)) (same : Agree path next depth) :
    Under next (depth + 1) (entriesAt bitmap children (next depth)) := by
  intro entry member
  refine Agree.succ_iff.mpr ⟨?_, placed.routed _ entry member⟩
  exact (under entry ((mem_toLists_iff placed.full).mpr ⟨_, member⟩)).trans same

end Trie

/-- A map is well-formed: its trie is the empty node or a well-formed trie that
starts at the lowest digit, and its length is the number of its entries. The empty
node is no well-formed trie, so it occurs as the root of a map without entries and
nowhere else. -/
structure TrieMap.WellFormed (map : TrieMap κ ν) : Prop where
  root : map.root = .empty ∨ map.root.WellFormed 0
  length : map.length = map.toList.length

end HashTrie
