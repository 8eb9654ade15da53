import HashTrie.Proofs.WellFormed
import HashTrie.Trie.Erase

/-!
# Taking out an entry

Taking out a key fails exactly if the key is not there (`erase?_eq_none_iff`).
Otherwise it leaves the empty node or a well-formed trie, and takes one entry out
of the run of one hash (`Erased`, `wellFormed_of_erase?`). A branch that would be
left with a single leaf gives way to it, so a leaf may come up any number of
levels; a leaf is well-formed at each of them.
-/

namespace HashTrie

variable {κ ν : Type} [BEq κ] [Hashable κ]

/-- What taking out a key makes of some entries: one entry leaves the run of the
hash of the key, and every other run stays. -/
structure Erased (key : κ) (before after : List (κ × ν)) : Prop where
  run : (runOf (hash key) before).erase? key = some (runOf (hash key) after)
  others : ∀ code, code ≠ hash key → runOf code after = runOf code before
  length : after.length + 1 = before.length

/-- What is there after taking out was there before. -/
theorem Erased.mem {key : κ} {before after : List (κ × ν)} (erased : Erased key before after)
    {entry : κ × ν} (member : entry ∈ after) : entry ∈ before := by
  rw [mem_iff_mem_runOf] at member ⊢
  by_cases same : hash entry.1 = hash key
  · rw [same] at member ⊢
    exact (Run.sublist_of_erase? erased.run).mem member
  · rwa [erased.others _ same] at member

namespace Trie

variable {depth size : Nat} {old : Stamp} {code : UInt64} {run : Run κ ν}
  {bitmap : Bitmap} {children : List (Trie κ ν)} (stamp : Stamp) (key : κ)

/-- The node in the place of a branch from which a child was taken out: it lists
what is left, and it is well-formed unless nothing is left. -/
theorem ofRemaining_wellFormed (shallow : depth < levels)
    (placed : Placed depth bitmap children) (counted : size = (toLists children).length) :
    (ofRemaining stamp bitmap size children = .empty ∨
        WellFormed depth (ofRemaining stamp bitmap size children)) ∧
      (ofRemaining stamp bitmap size children).toList = toLists children := by
  match children with
  | [] => exact ⟨.inl rfl, rfl⟩
  | [survivor] =>
      by_cases isLeaf : survivor.isLeaf = true
      · obtain ⟨slot, found⟩ := (mem_iff_childAt placed.full).mp List.mem_cons_self
        have sound := (placed.sound slot survivor found).of_isLeaf isLeaf depth
        simp [ofRemaining, isLeaf, sound, toLists]
      · have noLeaf : survivor.isLeaf = false := by simpa using isLeaf
        have sound : WellFormed depth (.branch stamp bitmap size [survivor]) :=
          placed.wellFormed shallow (by simp) (by simpa using noLeaf) counted
        simp [ofRemaining, noLeaf, sound, toList]
  | first :: second :: rest =>
      exact ⟨.inr (placed.wellFormed shallow (by simp) (by simp) counted), rfl⟩

omit [Hashable κ] in
/-- Taking out below an occupied slot. -/
theorem erase?_branch_of_childAt {child : Trie κ ν} (full : children.length = bitmap.card)
    (found : childAt bitmap children (digit code depth) = some child) :
    erase? stamp key code depth (.branch old bitmap size children) =
      (erase? stamp key code (depth + 1) child).map fun after =>
        if after.isEmpty then
          ofRemaining stamp (bitmap.erase (digit code depth)) (size - 1)
            (children.eraseIdx (bitmap.rank (digit code depth)))
        else if children.length == 1 && after.isLeaf then after
        else .branch stamp bitmap (size - 1)
          (children.set (bitmap.rank (digit code depth)) after) := by
  obtain ⟨inside, here⟩ := getElem_rank_of_childAt full found
  rw [erase?]
  simp only [contains_of_childAt found, if_true, eraseChild?_eq,
    List.getElem?_eq_getElem inside, here, Option.bind_some]

omit [Hashable κ] in
/-- Below a free slot there is nothing to take out. -/
theorem erase?_branch_of_free (full : children.length = bitmap.card)
    (missing : childAt bitmap children (digit code depth) = none) :
    erase? stamp key code depth (.branch old bitmap size children) = none := by
  rw [erase?]
  simp [free_of_childAt full missing]

variable {stamp key}

omit [Hashable κ] in
mutual

/-- A key is taken out of a node unless the search for it finds nothing there. -/
theorem erase?_eq_none_iff_lookup (depth : Nat) (trie : Trie κ ν) :
    trie.erase? stamp key code depth = none ↔ trie.lookup key code depth = none := by
  cases trie with
  | empty => exact ⟨fun _ => rfl, fun _ => rfl⟩
  | leaf old leafCode run =>
      rw [erase?, lookup]
      split
      · rw [Option.map_eq_none_iff, Run.erase?_eq_none_iff]
      · exact ⟨fun _ => rfl, fun _ => rfl⟩
  | branch old bitmap size children =>
      rw [erase?, lookup]
      split
      · rw [Option.map_eq_none_iff]
        exact eraseChild?_eq_none_iff_lookupChild depth children _
      · exact ⟨fun _ => rfl, fun _ => rfl⟩

theorem eraseChild?_eq_none_iff_lookupChild (depth : Nat) (children : List (Trie κ ν))
    (position : Nat) : eraseChild? stamp key code depth children position = none ↔
      lookupChild key code depth children position = none := by
  cases children with
  | nil => exact ⟨fun _ => rfl, fun _ => rfl⟩
  | cons child children =>
      cases position with
      | zero => exact erase?_eq_none_iff_lookup (depth + 1) child
      | succ position => exact eraseChild?_eq_none_iff_lookupChild depth children position

end

/-- **A key is taken out unless it is not there.** -/
theorem erase?_eq_none_iff {trie : Trie κ ν} (wellFormed : WellFormed depth trie) :
    trie.erase? stamp key (hash key) depth = none ↔
      (runOf (hash key) trie.toList).find? key = none := by
  rw [erase?_eq_none_iff_lookup, wellFormed.lookup_eq_find?]

/-- What is taken out in the slot of a key is taken out below the branch. -/
theorem Placed.erased_update {replacement : Option (Trie κ ν)} {bitmapAfter : Bitmap}
    {childrenAfter : List (Trie κ ν)} (placed : Placed depth bitmap children)
    (after : Placed depth bitmapAfter childrenAfter)
    (replaced : Replaced (digit (hash key) depth) replacement bitmap children bitmapAfter
      childrenAfter)
    (erased : Erased key (entriesAt bitmap children (digit (hash key) depth))
      (replacement.elim [] toList)) :
    Erased key (toLists children) (toLists childrenAfter) := by
  refine ⟨?_, ?_, ?_⟩
  · rw [after.runOf_replacement replaced, placed.runOf_toLists]
    exact erased.run
  · intro code different
    exact placed.runOf_kept after replaced (erased.others code different)
  · have lengths := replaced.length
    have shrunk := erased.length
    omega

/-- Taking out of a leaf. -/
theorem leaf_of_erase? {after : Trie κ ν} (distinct : run.Distinct)
    (hashed : ∀ entry ∈ run, hash entry.1 = code)
    (erased : erase? stamp key (hash key) depth (.leaf old code run) = some after) :
    (after = .empty ∨ WellFormed depth after) ∧ Erased key run after.toList := by
  rw [erase?] at erased
  split at erased
  · rename_i same
    subst same
    obtain ⟨shorter, shortened, rfl⟩ := Option.map_eq_some_iff.mp erased
    have sublist := Run.sublist_of_erase? shortened
    have hashedAfter : ∀ entry ∈ shorter, hash entry.1 = hash key :=
      fun entry member => hashed entry (sublist.mem member)
    have taken : Erased key run shorter := by
      refine ⟨?_, ?_, Run.length_of_erase? shortened⟩
      · rw [runOf_eq_self hashed, runOf_eq_self hashedAfter, shortened]
      · intro other different
        rw [runOf_of_hashed hashed, runOf_of_hashed hashedAfter, if_neg different,
          if_neg different]
    cases shorter with
    | nil => exact ⟨.inl rfl, taken⟩
    | cons entry rest =>
        exact ⟨.inr (.leaf (by simp) (distinct.sublist sublist) hashedAfter), taken⟩
  · cases erased

/-- Taking out below the child that the hash of the key leads to. -/
theorem branch_of_erase? {child after : Trie κ ν} (shallow : depth < levels)
    (placed : Placed depth bitmap children) (inhabited : children ≠ [])
    (counted : size = (toLists children).length)
    (found : childAt bitmap children (digit (hash key) depth) = some child)
    (erased : erase? stamp key (hash key) depth (.branch old bitmap size children) = some after)
    (ofChild : ∀ childAfter, child.erase? stamp key (hash key) (depth + 1) = some childAfter →
      (childAfter = .empty ∨ WellFormed (depth + 1) childAfter) ∧
        Erased key child.toList childAfter.toList) :
    (after = .empty ∨ WellFormed depth after) ∧ Erased key (toLists children) after.toList := by
  have routed := placed.routed (digit (hash key) depth)
  rw [entriesAt_of_childAt found] at routed
  rw [erase?_branch_of_childAt stamp key placed.full found] at erased
  obtain ⟨childAfter, erasedChild, rfl⟩ := Option.map_eq_some_iff.mp erased
  obtain ⟨childEmpty | sound, taken⟩ := ofChild childAfter erasedChild
  · -- the slot becomes free
    subst childEmpty
    have replaced := replaced_eraseIdx placed.full found
    have placedAfter := placed.update replaced (fun _ same => by cases same) (by simp)
    have takenAfter := placed.erased_update placedAfter replaced
      (entriesAt_of_childAt found ▸ taken)
    have countedAfter : size - 1 = (toLists (children.eraseIdx
        (bitmap.rank (digit (hash key) depth)))).length := by
      rw [counted, ← takenAfter.length]
      rfl
    obtain ⟨soundAfter, listed⟩ := ofRemaining_wellFormed stamp shallow placedAfter countedAfter
    exact ⟨soundAfter, listed ▸ takenAfter⟩
  · have replaced := replaced_set placed.full found childAfter
    have placedAfter := placed.update replaced (fun _ same => Option.some.inj same ▸ sound)
      (fun entry member => routed entry (taken.mem member))
    have takenAfter := placed.erased_update placedAfter replaced
      (entriesAt_of_childAt found ▸ taken)
    rw [sound.isEmpty_eq_false, if_neg Bool.false_ne_true]
    split
    · -- the branch gives way to its last leaf
      rename_i lastLeaf
      simp only [Bool.and_eq_true, beq_iff_eq] at lastLeaf
      obtain ⟨only, rfl⟩ := List.length_eq_one_iff.mp lastLeaf.1
      obtain ⟨inside, here⟩ := getElem_rank_of_childAt placed.full found
      have first : bitmap.rank (digit (hash key) depth) = 0 := Nat.lt_one_iff.mp inside
      simp only [first, List.set_cons_zero, toLists, List.append_nil] at takenAfter ⊢
      exact ⟨.inr (sound.of_isLeaf lastLeaf.2 depth), takenAfter⟩
    · rename_i noLastLeaf
      refine ⟨.inr (placedAfter.wellFormed shallow ?_ ?_ ?_), takenAfter⟩
      · simpa using inhabited
      · intro single alone
        obtain ⟨only, rfl⟩ := alone_of_set placed.full found alone
        simpa [only] using noLastLeaf
      · rw [counted, ← takenAfter.length]
        rfl

/-- **Taking out.** If a key is taken out, one entry leaves the run of its hash, and
what is left is the empty node or a well-formed trie. -/
theorem wellFormed_of_erase? {trie after : Trie κ ν} (wellFormed : WellFormed depth trie)
    (erased : trie.erase? stamp key (hash key) depth = some after) :
    (after = .empty ∨ WellFormed depth after) ∧ Erased key trie.toList after.toList := by
  induction wellFormed generalizing after with
  | leaf _ distinct hashed => exact leaf_of_erase? distinct hashed erased
  | @branch depth _ bitmap _ children shallow full inhabited sound routed collapsed counted ih =>
      have placed := Placed.of_children full sound routed
      cases found : childAt bitmap children (digit (hash key) depth) with
      | none =>
          rw [erase?_branch_of_free stamp key full found] at erased
          cases erased
      | some child =>
          exact branch_of_erase? shallow placed inhabited counted found erased
            fun _ erasedChild => ih child ((mem_iff_childAt full).mpr ⟨_, found⟩) erasedChild

end Trie

end HashTrie
