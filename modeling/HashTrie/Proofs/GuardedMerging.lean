import HashTrie.Proofs.GuardedTries
import HashTrie.Proofs.Merging

/-!
# Guarded steps of a merge

A merge of two branches goes through all slots and puts the new children together one by
one. At each slot it reads a child only where there is one (`assembleSlot_eq`), and after
all of them it has what the merge has in each slot, with the sum of the sizes
(`assemble_eq`). Whether the left branch will do instead is decided on the way, from the
slots in which two children met; that is the comparison of all merged children with the left
ones (`zipWith_same_mergeEach`). So no step of a merge of well-formed tries faults (`merge_eq`).
-/

namespace HashTrie.Trie.Guarded

open HashTrie.Guarded

variable {κ ν : Type} [BEq κ] {stamp : Stamp} {sharing : Sharing} {resolve : ν → ν → ν}
  {depth : Nat}

section Runs

theorem mergeRunInto_eq_absorbRun (code : UInt64) (run : Run κ ν) (right : Trie κ ν) :
    mergeRunInto stamp resolve depth code run right =
      absorbRun stamp .descend (fun stored incoming => resolve incoming stored) depth code run
        right := rfl

variable [Hashable κ] [EquivBEq κ]

omit [EquivBEq κ] in
/-- No step of taking in an entry faults. -/
theorem absorbEntry_eq {entry : κ × ν} {left : Trie κ ν} (sound : WellFormed depth left)
    (under : Under (digit (hash entry.1)) depth left.toList) :
    absorbEntry stamp sharing resolve depth (hash entry.1) left entry =
      .ok (if sharing = .reuse ∧ (left.lookup entry.1 (hash entry.1) depth).isSome then left
        else (left.upsert stamp entry.1 (hash entry.1) (Run.settle resolve entry.2) depth).1) := by
  rw [absorbEntry, lookup_eq sound, upsert_eq stamp entry.1 _ sound under, ← settle_eq]
  by_cases reused : sharing = .reuse
  · rw [if_pos reused]
    cases left.lookup entry.1 (hash entry.1) depth with
    | none =>
        rw [if_neg (by simp)]
        rfl
    | some stored =>
        rw [if_pos ⟨reused, rfl⟩]
        rfl
  · rw [if_neg reused, if_neg fun both => reused both.1]
    rfl

/-- No step of taking in a run of one hash faults. -/
theorem absorbRun_eq {code : UInt64} {run : Run κ ν} {left : Trie κ ν}
    (sound : WellFormed depth left) (under : Under (digit code) depth left.toList)
    (hashed : ∀ entry ∈ run, hash entry.1 = code) :
    absorbRun stamp sharing resolve depth code run left =
      .ok (Trie.absorbRun stamp sharing resolve depth code run left) := by
  induction run generalizing left with
  | nil => rfl
  | cons entry run ih =>
      have rest : ∀ other ∈ run, hash other.1 = code :=
        fun other member => hashed other (List.mem_cons_of_mem _ member)
      obtain rfl := hashed entry List.mem_cons_self
      rw [absorbRun, List.foldlM_cons, absorbEntry_eq sound under, ok_bind, Trie.absorbRun_cons]
      split
      · exact ih sound under rest
      · obtain ⟨soundAfter, written⟩ := upsert_wellFormed stamp
          (Run.settle resolve entry.2) sound under
        exact ih soundAfter (under.of_written written) rest

end Runs

section Branches

variable {bitmap rightBitmap : Bitmap} {children rightChildren : List (Trie κ ν)}

/-- Whether the left child of a slot stays in a merge, or meets no other. -/
def stays (stamp : Stamp) (sharing : Sharing) (resolve : ν → ν → ν) (depth : Nat)
    (bitmap : Bitmap) (children : List (Trie κ ν)) (rightBitmap : Bitmap)
    (rightChildren : List (Trie κ ν)) (slot : Slot) : Bool :=
  match childAt bitmap children slot, childAt rightBitmap rightChildren slot with
  | some child, some other => (Trie.merge stamp sharing resolve (depth + 1) child other).same child
  | _, _ => true

/-- A left child stays where it is the same node as its merge. -/
theorem zipWith_same_mergeEach (full : children.length = bitmap.card) :
    List.zipWith same (mergeEach stamp sharing resolve depth children
        (bitmap.slots.map (childAt rightBitmap rightChildren))) children =
      bitmap.slots.map
        (stays stamp sharing resolve depth bitmap children rightBitmap rightChildren) := by
  have aligned : children.length =
      (bitmap.slots.map (childAt rightBitmap rightChildren)).length := by
    rw [List.length_map, Bitmap.length_slots, full]
  rw [mergeEach_eq_zipWith _ _ _ _ _ _ aligned]
  apply List.ext_getElem?
  intro index
  rw [List.getElem?_zipWith, List.getElem?_zipWith, List.getElem?_map, List.getElem?_map]
  cases atSlot : bitmap.slots[index]? with
  | none =>
      rw [List.getElem?_eq_none_iff, Bitmap.length_slots, ← full] at atSlot
      rw [List.getElem?_eq_none atSlot]
      rfl
  | some slot =>
      obtain ⟨occupied, rfl⟩ := Bitmap.rank_of_getElem? atSlot
      obtain ⟨child, found⟩ := exists_childAt full occupied
      rw [Option.map_some, Option.map_some, stays, found, ← childAt_of_occupied occupied, found]
      cases childAt rightBitmap rightChildren slot with
      | none => exact congrArg some (same_self child)
      | some other => rfl

/-- No left child is exchanged if the left child of every slot stays. -/
theorem all_stays (full : children.length = bitmap.card) :
    (List.zipWith same (mergeEach stamp sharing resolve depth children
        (bitmap.slots.map (childAt rightBitmap rightChildren))) children).all id =
      (List.finRange 32).all
        (stays stamp sharing resolve depth bitmap children rightBitmap rightChildren) := by
  rw [zipWith_same_mergeEach full, List.all_map, Bitmap.slots, List.all_filter]
  congr 1
  funext slot
  cases occupied : bitmap.contains slot with
  | true => rfl
  | false =>
      rw [stays, childAt_of_free occupied]
      rfl

omit [BEq κ] in
theorem sizes_append (first second : List (Trie κ ν)) :
    sizes (first ++ second) = sizes first + sizes second := by
  induction first with
  | nil => exact (Nat.zero_add _).symm
  | cons node first ih =>
      change node.size + sizes (first ++ second) = node.size + sizes first + sizes second
      rw [ih, Nat.add_assoc]

/-- An assembly that has gone on with some slots. -/
def Assembly.extend (assembly : Assembly κ ν) (chosen : Slot → Option (Trie κ ν))
    (kept : Slot → Bool) (slots : List Slot) : Assembly κ ν :=
  ⟨assembly.children ++ slots.filterMap chosen, assembly.size + sizes (slots.filterMap chosen),
    assembly.unchanged && slots.all kept⟩

omit [BEq κ] in
theorem Assembly.extend_append (assembly : Assembly κ ν) (chosen : Slot → Option (Trie κ ν))
    (kept : Slot → Bool) (first second : List Slot) :
    assembly.extend chosen kept (first ++ second) =
      (assembly.extend chosen kept first).extend chosen kept second := by
  simp only [extend, List.filterMap_append, List.append_assoc, sizes_append, Nat.add_assoc,
    List.all_append, Bool.and_assoc]

/-- Wherever two children meet, `meet` merges the left one, found by its position, with the
right one, and tells whether the left one stays. -/
def MergesChildren (meet : Nat → Trie κ ν → Guarded (Trie κ ν × Bool)) (stamp : Stamp)
    (sharing : Sharing) (resolve : ν → ν → ν) (depth : Nat) (bitmap : Bitmap)
    (children : List (Trie κ ν)) (rightBitmap : Bitmap) (rightChildren : List (Trie κ ν)) : Prop :=
  ∀ slot child other, childAt bitmap children slot = some child →
    childAt rightBitmap rightChildren slot = some other →
      let merged := Trie.merge stamp sharing resolve (depth + 1) child other
      meet (bitmap.rank slot) other = .ok (merged, merged.same child)

/-- A slot adds what the merge has in it. -/
theorem assembleSlot_eq {meet : Nat → Trie κ ν → Guarded (Trie κ ν × Bool)}
    (full : children.length = bitmap.card) (rightFull : rightChildren.length = rightBitmap.card)
    (merges : MergesChildren meet stamp sharing resolve depth bitmap children rightBitmap
      rightChildren) (slot : Slot) (assembly : Assembly κ ν) :
    assembleSlot meet bitmap.bits children rightBitmap.bits rightChildren assembly slot =
      .ok (assembly.extend
        (mergedAt stamp sharing resolve depth bitmap children rightBitmap rightChildren)
        (stays stamp sharing resolve depth bitmap children rightBitmap rightChildren)
        [slot]) := by
  rw [assembleSlot, oneBit_slot, ok_bind, Assembly.extend, List.filterMap_cons,
    List.filterMap_nil, List.all_cons, List.all_nil, mergedAt, stays]
  cases found : childAt bitmap children slot with
  | none =>
      rw [if_pos (bit_of_free full found)]
      cases meeting : childAt rightBitmap rightChildren slot with
      | none =>
          rw [if_pos (bit_of_free rightFull meeting)]
          simp [sizes]
      | some other =>
          rw [if_neg (bit_of_childAt meeting), slotPosition_twoPow, ok_bind,
            read_rank rightFull meeting]
          simp [Assembly.push, sizes]
  | some child =>
      rw [if_neg (bit_of_childAt found), slotPosition_twoPow, ok_bind]
      cases meeting : childAt rightBitmap rightChildren slot with
      | none =>
          rw [if_pos (bit_of_free rightFull meeting), read_rank full found]
          simp [Assembly.push, sizes]
      | some other =>
          rw [if_neg (bit_of_childAt meeting), slotPosition_twoPow, ok_bind,
            read_rank rightFull meeting, ok_bind, merges slot child other found meeting]
          simp [Assembly.push, sizes]

/-- Any number of slots add what the merge has in each of them. -/
theorem assemble_eq {meet : Nat → Trie κ ν → Guarded (Trie κ ν × Bool)}
    (full : children.length = bitmap.card) (rightFull : rightChildren.length = rightBitmap.card)
    (merges : MergesChildren meet stamp sharing resolve depth bitmap children rightBitmap
      rightChildren)
    (slots : List Slot) (assembly : Assembly κ ν) :
    (slots.map Fin.val).foldlM
        (assembleSlot meet bitmap.bits children rightBitmap.bits rightChildren) assembly =
      .ok (assembly.extend
        (mergedAt stamp sharing resolve depth bitmap children rightBitmap rightChildren)
        (stays stamp sharing resolve depth bitmap children rightBitmap rightChildren) slots) := by
  induction slots generalizing assembly with
  | nil => simp [Assembly.extend, sizes]
  | cons slot slots ih =>
      rw [List.map_cons, List.foldlM_cons, assembleSlot_eq full rightFull merges, ok_bind, ih,
        ← Assembly.extend_append, List.singleton_append]

/-- The branch that a merge of two branches builds has what the merge has in each slot. -/
theorem mergedBranch_eq {leftStamp : Stamp} {leftSize : Nat} (full : children.length = bitmap.card)
    (rightFull : rightChildren.length = rightBitmap.card) :
    mergedBranch stamp leftStamp bitmap leftSize children
        (mergeEach stamp sharing resolve depth children
          (bitmap.slots.map (childAt rightBitmap rightChildren))) rightBitmap rightChildren =
      if bitmap.union rightBitmap = bitmap ∧ (List.finRange 32).all
          (stays stamp sharing resolve depth bitmap children rightBitmap rightChildren) then
        .branch leftStamp bitmap leftSize children
      else
        let chosen := (List.finRange 32).filterMap
          (mergedAt stamp sharing resolve depth bitmap children rightBitmap rightChildren)
        .branch stamp (bitmap.union rightBitmap) (sizes chosen) chosen := by
  have chosen : (bitmap.union rightBitmap).slots.filterMap
        (mergedAt stamp sharing resolve depth bitmap children rightBitmap rightChildren) =
      (List.finRange 32).filterMap
        (mergedAt stamp sharing resolve depth bitmap children rightBitmap rightChildren) := by
    rw [Bitmap.slots, List.filterMap_filter]
    congr 1
    funext slot
    rw [← isSome_mergedAt stamp sharing resolve depth full rightFull slot]
    cases mergedAt stamp sharing resolve depth bitmap children rightBitmap rightChildren slot with
    | none => rfl
    | some child => rfl
  rw [mergedBranch, all_stays full, orElse_mergeEach full, chosen]

/-- No step of a merge of two branches faults, if none does where two children meet. -/
theorem mergeBranches_eq {meet : Nat → Trie κ ν → Guarded (Trie κ ν × Bool)} {leftStamp : Stamp}
    {leftSize : Nat} (full : children.length = bitmap.card)
    (rightFull : rightChildren.length = rightBitmap.card)
    (merges : MergesChildren meet stamp sharing resolve depth bitmap children rightBitmap
      rightChildren) :
    mergeBranches stamp leftStamp meet bitmap leftSize children rightBitmap rightChildren =
      .ok (mergedBranch stamp leftStamp bitmap leftSize children
        (mergeEach stamp sharing resolve depth children
          (bitmap.slots.map (childAt rightBitmap rightChildren))) rightBitmap rightChildren) := by
  rw [mergeBranches, range_eq_map_finRange, assemble_eq full rightFull merges, ok_bind,
    mergedBranch_eq full rightFull]
  simp only [Assembly.extend, List.nil_append, Nat.zero_add, Bool.and_eq_true, beq_iff_eq]
  split <;> rfl

theorem mergeChild_eq (children : List (Trie κ ν)) (position : Nat) (other : Trie κ ν) :
    mergeChild stamp sharing resolve depth children position other = (do
      let child ← read children position
      let merged ← merge stamp sharing resolve (depth + 1) child other
      pure (merged, merged.same child)) :=
  eq_read_bind
    (fun children position => mergeChild stamp sharing resolve depth children position other) _
    (fun _ => rfl) (fun _ _ => rfl) (fun _ _ _ => rfl) children position

end Branches

section Cases

variable {left right : Trie κ ν} {old rightOld : Stamp} {size rightSize : Nat} {code : UInt64}
  {run : Run κ ν} {bitmap rightBitmap : Bitmap} {children rightChildren : List (Trie κ ν)}

theorem merge_of_shared (nonempty : left.isEmpty = false)
    (shared : sharing = .reuse ∧ left.same right = true) :
    merge stamp sharing resolve depth left right = .ok left := by
  cases left with
  | empty => cases nonempty
  | leaf => simp only [merge, if_pos shared, pure_eq_ok]
  | branch => simp only [merge, if_pos shared, pure_eq_ok]

theorem merge_empty_right (left : Trie κ ν) :
    merge stamp sharing resolve depth left .empty = .ok left := by
  cases left <;> simp [merge, same]

theorem merge_leaf_left (nonempty : right.isEmpty = false)
    (unshared : ¬ (sharing = .reuse ∧ same (.leaf old code run) right = true)) :
    merge stamp sharing resolve depth (.leaf old code run) right =
      mergeRunInto stamp resolve depth code run right := by
  cases right with
  | empty => cases nonempty
  | leaf => simp only [merge, if_neg unshared]
  | branch => simp only [merge, if_neg unshared]

theorem merge_branch_leaf : merge stamp sharing resolve depth (.branch old bitmap size children)
      (.leaf rightOld code run) =
    absorbRun stamp sharing resolve depth code run (.branch old bitmap size children) := by
  simp [merge, same]

theorem merge_branch_branch (unshared : ¬ (sharing = .reuse ∧ same
      (.branch old bitmap size children)
      (.branch rightOld rightBitmap rightSize rightChildren) = true)) :
    merge stamp sharing resolve depth (.branch old bitmap size children)
        (.branch rightOld rightBitmap rightSize rightChildren) =
      mergeBranches stamp old (mergeChild stamp sharing resolve depth children) bitmap size children
        rightBitmap rightChildren := by
  simp only [merge, if_neg unshared]

end Cases

variable [Hashable κ] [EquivBEq κ] {left right : Trie κ ν} {path : Nat → Slot}

/-- No step of a merge faults, if the entries of both tries lie where one path leads. -/
theorem merge_eq (stamp : Stamp) (sharing : Sharing) (resolve : ν → ν → ν)
    (sound : WellFormed depth left) (rightSound : WellFormed depth right)
    (under : Under path depth left.toList) (rightUnder : Under path depth right.toList) :
    merge stamp sharing resolve depth left right =
      .ok (Trie.merge stamp sharing resolve depth left right) := by
  induction sound generalizing right path with
  | @leaf depth old code run inhabited distinct hashed =>
      obtain ⟨entry, member⟩ := List.exists_mem_of_ne_nil run inhabited
      have agree : Agree (digit code) path depth := hashed entry member ▸ under entry member
      by_cases both : sharing = .reuse ∧ same (.leaf old code run) right = true
      · rw [merge_of_shared rfl both, Trie.merge_of_shared rfl both]
      · have nonempty := rightSound.isEmpty_eq_false
        rw [merge_leaf_left nonempty both, mergeRunInto_eq_absorbRun,
          Trie.merge_leaf_left nonempty both, Trie.mergeRunInto_eq_absorbRun,
          absorbRun_eq rightSound (rightUnder.of_agree agree) hashed]
  | @branch depth old bitmap size children shallow full inhabited childSound routed collapsed
      counted ih =>
      have placed := Placed.of_children full childSound routed
      have whole : WellFormed depth (.branch old bitmap size children) :=
        .branch shallow full inhabited childSound routed collapsed counted
      by_cases both : sharing = .reuse ∧ same (.branch old bitmap size children) right = true
      · rw [merge_of_shared rfl both, Trie.merge_of_shared rfl both]
      · cases rightSound with
        | @leaf _ rightOld code run rightInhabited _ hashed =>
            obtain ⟨entry, member⟩ := List.exists_mem_of_ne_nil run rightInhabited
            have agree : Agree (digit code) path depth :=
              hashed entry member ▸ rightUnder entry member
            rw [merge_branch_leaf, Trie.merge_branch_leaf]
            exact absorbRun_eq whole (under.of_agree agree) hashed
        | @branch _ rightOld rightBitmap rightSize rightChildren _ rightFull _ rightChildSound
            rightRouted _ _ =>
            have rightPlaced := Placed.of_children rightFull rightChildSound rightRouted
            have merges : MergesChildren (mergeChild stamp sharing resolve depth children) stamp
                sharing resolve depth bitmap children rightBitmap rightChildren := by
              intro slot child other found meeting
              -- the entries of the two children also agree in the digit of their slot
              obtain ⟨next, agree, rfl⟩ := Agree.exists_next path depth slot
              have underChild := placed.under_entriesAt under agree
              have underOther := rightPlaced.under_entriesAt rightUnder agree
              rw [entriesAt_of_childAt found] at underChild
              rw [entriesAt_of_childAt meeting] at underOther
              rw [mergeChild_eq, read_rank full found, ok_bind, ih child (mem_of_childAt found)
                (rightPlaced.sound _ other meeting) underChild underOther]
              rfl
            rw [merge_branch_branch both, Trie.merge_branch_branch both,
              mergeBranches_eq full rightFull merges]

end HashTrie.Trie.Guarded
