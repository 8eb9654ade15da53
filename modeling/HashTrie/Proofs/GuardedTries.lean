import HashTrie.Guarded.Trie
import HashTrie.Proofs.Erasing
import HashTrie.Proofs.GuardedSteps
import HashTrie.Proofs.Writing

/-!
# Guarded steps on the path of a hash

On a well-formed trie every guarded step of a search, of writing, and of taking out
succeeds, and the guarded operation does what the operation does (`lookup_eq`,
`upsert_eq`, `erase?_eq`). In a branch this rests on the tie between the bitmap and the
children: the rank of an occupied slot is the position of its child (`read_rank`), and the
rank of a free slot is at most the number of children. Two leaves are only told apart where
their hashes agree in all digits above (`separate_eq`).
-/

namespace HashTrie

namespace Run

variable {κ ν : Type} [BEq κ] {key : κ} {run : Run κ ν} {position : Nat}

/-- Writing under a key that is in a run changes the entry at its position. -/
theorem upsert_of_findIdx? (found : run.findIdx? (fun entry => entry.1 == key) = some position)
    (resolve : Option ν → ν) (inside : position < run.length) :
    run.upsert key resolve =
      (run.set position (key, resolve (some run[position].2)), false) := by
  induction run generalizing position with
  | nil => cases inside
  | cons entry run ih =>
      rw [List.findIdx?_cons] at found
      cases equal : entry.1 == key with
      | true =>
          rw [equal, if_pos rfl, Option.some.injEq] at found
          subst found
          exact upsert_cons_of_eq key resolve run equal
      | false =>
          rw [equal, if_neg Bool.false_ne_true, Option.map_eq_some_iff] at found
          obtain ⟨before, found, rfl⟩ := found
          rw [upsert_cons_of_ne key resolve run equal, ih found (Nat.lt_of_succ_lt_succ inside)]
          rfl

/-- Taking out a key that is in a run takes out the entry at its position. -/
theorem erase?_of_findIdx? (found : run.findIdx? (fun entry => entry.1 == key) = some position) :
    run.erase? key = some (run.eraseIdx position) := by
  induction run generalizing position with
  | nil => cases found
  | cons entry run ih =>
      rw [List.findIdx?_cons] at found
      cases equal : entry.1 == key with
      | true =>
          rw [equal, if_pos rfl, Option.some.injEq] at found
          subst found
          exact erase?_cons_of_eq run equal
      | false =>
          rw [equal, if_neg Bool.false_ne_true, Option.map_eq_some_iff] at found
          obtain ⟨before, found, rfl⟩ := found
          rw [erase?_cons_of_ne run equal, ih found]
          rfl

theorem find?_of_findIdx?_none (missing : run.findIdx? (fun entry => entry.1 == key) = none) :
    run.find? key = none :=
  find?_eq_none_iff.mpr (List.findIdx?_eq_none_iff.mp missing)

end Run

/-- An element put between the two parts of a list cut at a bound. -/
theorem take_append_cons_drop {α : Type} (list : List α) (element : α) {bound : Nat}
    (inside : bound ≤ list.length) :
    list.take bound ++ element :: list.drop bound = list.insertIdx bound element := by
  induction list generalizing bound with
  | nil =>
      obtain rfl : bound = 0 := Nat.le_zero.mp inside
      rfl
  | cons head tail ih =>
      cases bound with
      | zero => rfl
      | succ bound => exact congrArg (head :: ·) (ih (Nat.le_of_succ_le_succ inside))

namespace Trie.Guarded

open HashTrie.Guarded

variable {κ ν : Type} {bitmap : Bitmap} {children : List (Trie κ ν)} {slot : Slot}
  {depth size : Nat} {code : UInt64}

section Children

/-- The bit of a slot without a child is not set. -/
theorem bit_of_free (full : children.length = bitmap.card)
    (missing : childAt bitmap children slot = none) :
    bitmap.bits &&& BitVec.twoPow 32 slot = 0 :=
  (and_twoPow_eq_zero_iff bitmap slot).mpr (free_of_childAt full missing)

/-- The bit of a slot with a child is set. -/
theorem bit_of_childAt {child : Trie κ ν} (found : childAt bitmap children slot = some child) :
    bitmap.bits &&& BitVec.twoPow 32 slot ≠ 0 := by
  intro zero
  have free := (and_twoPow_eq_zero_iff bitmap slot).mp zero
  rw [contains_of_childAt found] at free
  cases free

/-- The child of a slot stands at the rank of the slot. -/
theorem read_rank (full : children.length = bitmap.card) {child : Trie κ ν}
    (found : childAt bitmap children slot = some child) :
    read children (bitmap.rank slot) = .ok child := by
  obtain ⟨inside, here⟩ := getElem_rank_of_childAt full found
  rw [read_of_lt inside, here]

end Children

section Separation

/-- Two nodes of different hashes that agree in all digits above are told apart without a
fault. -/
theorem separate_eq (stamp : Stamp) (existing incoming : Trie κ ν) {left right : UInt64}
    {depth : Nat} (different : left ≠ right) (same : Agree (digit left) (digit right) depth) :
    separate stamp existing incoming left right depth =
      .ok (join stamp existing incoming (digitPairs left right depth)) := by
  -- the hashes agree above and differ, so there is a digit left at the depth
  have shallow := depth_lt_levels different same
  have together : ¬ (left = right ∨ ((List.range depth).any fun level =>
      slotIndex left level != slotIndex right level) = true ∨ levels ≤ depth) := by
    rintro (equal | parted | deep)
    · exact different equal
    · obtain ⟨level, above, parted⟩ := List.any_eq_true.mp parted
      rw [slotIndex_inj.mpr (same level (List.mem_range.mp above)), bne_self_eq_false] at parted
      cases parted
    · exact Nat.not_lt_of_le deep shallow
  rw [separate, if_neg together, digitPairs_cons left right shallow]
  by_cases here : digit left depth = digit right depth
  · rw [if_pos (slotIndex_inj.mpr here),
      separate_eq stamp existing incoming different (Agree.succ_iff.mpr ⟨same, here⟩), ok_bind,
      oneBit_slotIndex, ok_bind, ← here, join_cons_of_eq]
    rfl
  · rw [if_neg (mt slotIndex_inj.mp here), oneBit_slotIndex, ok_bind, oneBit_slotIndex, ok_bind,
      join, if_neg here]
    simp only [slotIndex_eq, Fin.lt_def]
    rfl
termination_by levels - depth
decreasing_by omega

end Separation

variable [BEq κ]

theorem lookupChild_eq (key : κ) (children : List (Trie κ ν)) (position : Nat) :
    lookupChild key code depth children position =
      read children position >>= lookup key code (depth + 1) :=
  eq_read_bind _ _ (fun _ => rfl) (fun _ _ => rfl) (fun _ _ _ => rfl) children position

theorem upsertChild_eq (stamp : Stamp) (key : κ) (resolve : Option ν → ν)
    (children : List (Trie κ ν)) (position : Nat) :
    upsertChild stamp key code resolve depth children position =
      read children position >>= upsert stamp key code resolve (depth + 1) :=
  eq_read_bind _ _ (fun _ => rfl) (fun _ _ => rfl) (fun _ _ _ => rfl) children position

theorem eraseChild?_eq (stamp : Stamp) (key : κ) (children : List (Trie κ ν)) (position : Nat) :
    eraseChild? stamp key code depth children position =
      read children position >>= erase? stamp key code (depth + 1) :=
  eq_read_bind _ _ (fun _ => rfl) (fun _ _ => rfl) (fun _ _ _ => rfl) children position

/-- The position found in a run is valid in a copy of it. -/
theorem upsertRun_eq (key : κ) (resolve : Option ν → ν) (run : Run κ ν) :
    upsertRun key resolve run = .ok (run.upsert key resolve) := by
  unfold upsertRun
  split
  · rename_i position found
    obtain ⟨inside, _⟩ := List.findIdx?_eq_some_iff_getElem.mp found
    rw [read_of_lt inside, ok_bind, write_of_lt inside, ok_bind,
      Run.upsert_of_findIdx? found resolve inside]
    rfl
  · rename_i missing
    have written : (run.upsert key resolve).1 = run ++ [(key, resolve none)] :=
      Run.upsert_of_new key resolve (List.findIdx?_eq_none_iff.mp missing)
    have added : (run.upsert key resolve).2 = true := by
      rw [Run.upsert_added, Run.find?_of_findIdx?_none missing]
      rfl
    rw [← written, ← added]
    rfl

omit [BEq κ] in
theorem ofRemaining_of_two (stamp : Stamp) (two : 2 ≤ children.length) :
    ofRemaining stamp bitmap size children = .branch stamp bitmap size children := by
  match children, two with
  | _ :: _ :: _, _ => rfl

omit [BEq κ] in
/-- Dropping a child at a position that there is. -/
theorem withoutSlot_eq (stamp : Stamp) {position : Nat} (inside : position < children.length) :
    withoutSlot stamp bitmap size children position =
      .ok (ofRemaining stamp bitmap size (children.eraseIdx position)) := by
  match children with
  | [only] =>
      obtain rfl : position = 0 := Nat.lt_one_iff.mp inside
      rfl
  | [first, second] =>
      have either : position = 0 ∨ position = 1 := by
        simp only [List.length_cons, List.length_nil] at inside
        omega
      rcases either with rfl | rfl <;> rfl
  | first :: second :: third :: rest =>
      have two : 2 ≤ ((first :: second :: third :: rest).eraseIdx position).length := by
        rw [List.length_eraseIdx_of_lt inside]
        simp
      change (do
        let _ ← subtract (rest.length + 3) 1
        let lower ← front (first :: second :: third :: rest) position
        let upper ← back (first :: second :: third :: rest) (position + 1)
        pure (.branch stamp bitmap size (lower ++ upper)) : Guarded (Trie κ ν)) = _
      rw [subtract_of_le (by omega), ok_bind, front_of_le (Nat.le_of_lt inside), ok_bind,
        back_of_le inside, ok_bind, ← List.eraseIdx_eq_take_drop_succ, ofRemaining_of_two stamp two]
      rfl

variable [Hashable κ] {trie : Trie κ ν}

/-- No step of a search faults. -/
theorem lookup_eq (sound : WellFormed depth trie) (key : κ) (code : UInt64) :
    lookup key code depth trie = .ok (trie.lookup key code depth) := by
  induction sound with
  | leaf => rfl
  | @branch depth stamp bitmap size children _ full _ _ _ _ _ ih =>
      rw [lookup, oneBit_slotIndex, ok_bind, lookup_branch]
      cases found : childAt bitmap children (digit code depth) with
      | none =>
          rw [if_pos (bit_of_free full found)]
          rfl
      | some child =>
          rw [if_neg (bit_of_childAt found), slotPosition_twoPow, ok_bind, lookupChild_eq,
            read_rank full found, ok_bind, ih child (mem_of_childAt found), Option.bind_some]

omit [Hashable κ] in
/-- A search does fault in a branch that has no child for an occupied slot. -/
theorem lookup_of_childless {stamp : Stamp} (key : κ)
    (occupied : bitmap.contains (digit code depth) = true)
    (short : children.length ≤ bitmap.rank (digit code depth)) :
    lookup key code depth (.branch stamp bitmap size children) = .error .position := by
  have set : bitmap.bits &&& BitVec.twoPow 32 (digit code depth) ≠ 0 := by
    rw [Ne, and_twoPow_eq_zero_iff, occupied]
    exact Bool.noConfusion
  have missing : read children (bitmap.rank (digit code depth)) = .error .position := by
    simp only [HashTrie.Guarded.read, List.getElem?_eq_none short]
  rw [lookup, oneBit_slotIndex, ok_bind, if_neg set, slotPosition_twoPow, ok_bind, lookupChild_eq,
    missing]
  rfl

/-- No step of writing faults, if the entries lie where the hash leads. -/
theorem upsert_eq (stamp : Stamp) (key : κ) (resolve : Option ν → ν)
    (sound : WellFormed depth trie) (under : Under (digit code) depth trie.toList) :
    upsert stamp key code resolve depth trie =
      .ok (trie.upsert stamp key code resolve depth) := by
  induction sound with
  | @leaf depth old leafCode run inhabited _ hashed =>
      by_cases same : leafCode = code
      · subst same
        rw [upsert, if_pos rfl, upsertRun_eq, ok_bind, upsert_leaf_of_eq]
        rfl
      · -- a leaf has an entry, and its hash has led here like the one written
        obtain ⟨entry, member⟩ := List.exists_mem_of_ne_nil run inhabited
        have agree : Agree (digit leafCode) (digit code) depth :=
          hashed entry member ▸ under entry member
        rw [upsert, if_neg same, separate_eq stamp _ _ same agree, ok_bind,
          upsert_leaf_of_ne stamp key resolve same]
        rfl
  | @branch depth old bitmap size children shallow full inhabited sound routed collapsed
      counted ih =>
      rw [upsert, oneBit_slotIndex, ok_bind, slotPosition_twoPow, ok_bind]
      cases found : childAt bitmap children (digit code depth) with
      | none =>
          have free := free_of_childAt full found
          have inside : bitmap.rank (digit code depth) ≤ children.length :=
            full ▸ Bitmap.rank_le_card bitmap _
          rw [if_pos (bit_of_free full found), front_of_le inside, ok_bind, back_of_le inside,
            ok_bind, take_append_cons_drop children _ inside,
            upsert_branch_of_free stamp key resolve free]
          rfl
      | some child =>
          have placed := Placed.of_children full sound routed
          have underChild := placed.under_entriesAt under (.refl _ depth)
          rw [entriesAt_of_childAt found] at underChild
          obtain ⟨inside, _⟩ := getElem_rank_of_childAt full found
          rw [if_neg (bit_of_childAt found), upsertChild_eq, read_rank full found, ok_bind,
            ih child (mem_of_childAt found) underChild, ok_bind,
            upsert_branch_of_childAt stamp key resolve full found]
          change write children _ _ >>= _ = _
          rw [write_of_lt inside, ok_bind]
          cases (child.upsert stamp key code resolve (depth + 1)).2 <;> rfl

omit [Hashable κ] in
/-- The position found in the run of a leaf is taken out, or the leaf goes with its only
entry. -/
theorem erase?_leaf_eq (stamp old : Stamp) (key : κ) (leafCode : UInt64) (run : Run κ ν) :
    erase? stamp key code depth (.leaf old leafCode run) =
      .ok (Trie.erase? stamp key code depth (.leaf old leafCode run)) := by
  rw [erase?, Trie.erase?]
  by_cases same : leafCode = code
  · rw [if_pos same, if_pos same]
    split
    · rename_i missing
      rw [Run.erase?_eq_none_iff.mpr (Run.find?_of_findIdx?_none missing)]
      rfl
    · rename_i position found
      obtain ⟨inside, _⟩ := List.findIdx?_eq_some_iff_getElem.mp found
      rw [Run.erase?_of_findIdx? found, remove_of_lt inside]
      have shorter := List.length_eraseIdx_of_lt inside
      cases rest : run.eraseIdx position with
      | nil =>
          rw [rest, List.length_nil] at shorter
          rw [if_pos (by omega)]
          rfl
      | cons =>
          rw [rest, List.length_cons] at shorter
          rw [if_neg (by omega)]
          rfl
  · rw [if_neg same, if_neg same]
    rfl

/-- No step of taking out faults. -/
theorem erase?_eq (stamp : Stamp) (key : κ) (sound : WellFormed depth trie) :
    erase? stamp key code depth trie = .ok (trie.erase? stamp key code depth) := by
  induction sound with
  | leaf => exact erase?_leaf_eq ..
  | @branch depth old bitmap size children shallow full inhabited sound routed collapsed
      counted ih =>
      have whole : WellFormed depth (.branch old bitmap size children) :=
        .branch shallow full inhabited sound routed collapsed counted
      rw [erase?, oneBit_slotIndex, ok_bind]
      cases found : childAt bitmap children (digit code depth) with
      | none =>
          rw [if_pos (bit_of_free full found), erase?_branch_of_free stamp key full found]
          rfl
      | some child =>
          obtain ⟨inside, _⟩ := getElem_rank_of_childAt full found
          -- the size counts the entries below the branch, and there are some
          have positive : 1 ≤ size := by
            rw [counted]
            exact List.length_pos_iff.mpr whole.toList_ne_nil
          rw [if_neg (bit_of_childAt found), slotPosition_twoPow, ok_bind, eraseChild?_eq,
            read_rank full found, ok_bind, ih child (mem_of_childAt found), ok_bind,
            erase?_branch_of_childAt stamp key full found]
          cases child.erase? stamp key code (depth + 1) with
          | none => rfl
          | some after =>
              rw [Option.map_some]
              by_cases gone : after.isEmpty = true
              · simp only [if_pos gone, subtract_of_le positive, ok_bind,
                  withoutSlot_eq stamp inside]
                rfl
              · simp only [if_neg gone, subtract_of_le positive, ok_bind, write_of_lt inside]
                split <;> rfl

end Trie.Guarded

end HashTrie
