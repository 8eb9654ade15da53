import HashTrie.Trie.Merge

/-!
# Stamps of nodes

The stamps that the nodes of a trie bear. An operation puts its own stamp on every
node it builds, so the result of a merge is either the left node itself or bears
the stamp of the merge (`merge_eq_or_rootStamp?`). If that stamp is new to the left
trie, a result that passes for the left node is the left node (`merge_eq_of_same`).
-/

namespace HashTrie.Trie

variable {κ ν : Type}

/-- The stamp of a node, if it is not the empty one. -/
def rootStamp? : Trie κ ν → Option Stamp
  | .empty => none
  | .leaf stamp _ _ => some stamp
  | .branch stamp _ _ _ => some stamp

mutual

/-- The stamps of a node and of all nodes below it. -/
def stamps : Trie κ ν → List Stamp
  | .empty => []
  | .leaf stamp _ _ => [stamp]
  | .branch stamp _ _ children => stamp :: stampsAll children

/-- The stamps of several nodes and of all nodes below them. -/
def stampsAll : List (Trie κ ν) → List Stamp
  | [] => []
  | child :: children => stamps child ++ stampsAll children

end

theorem mem_stamps_of_child {children : List (Trie κ ν)} {child : Trie κ ν}
    (member : child ∈ children) {mark : Stamp} (marked : mark ∈ child.stamps) :
    mark ∈ stampsAll children := by
  induction children with
  | nil => cases member
  | cons head children ih =>
      unfold stampsAll
      rcases List.mem_cons.mp member with rfl | member
      · exact List.mem_append_left _ marked
      · exact List.mem_append_right _ (ih member)

theorem exists_child_of_mem_stampsAll {children : List (Trie κ ν)} {mark : Stamp}
    (marked : mark ∈ stampsAll children) : ∃ child ∈ children, mark ∈ child.stamps := by
  induction children with
  | nil => cases marked
  | cons head children ih =>
      rw [stampsAll] at marked
      rcases List.mem_append.mp marked with marked | marked
      · exact ⟨head, List.mem_cons_self, marked⟩
      · obtain ⟨child, member, marked⟩ := ih marked
        exact ⟨child, .tail _ member, marked⟩

theorem mem_stamps_of_rootStamp? {trie : Trie κ ν} {mark : Stamp}
    (marked : trie.rootStamp? = some mark) : mark ∈ trie.stamps := by
  cases trie with
  | empty => cases marked
  | leaf =>
      cases marked
      exact List.mem_singleton_self _
  | branch =>
      cases marked
      exact List.mem_cons_self

theorem same_self (trie : Trie κ ν) : trie.same trie = true := by
  cases trie <;> simp [same]

theorem same_comm (first second : Trie κ ν) : first.same second = second.same first := by
  cases first <;> cases second <;> simp [same, Bool.beq_comm]

theorem isLeaf_eq_of_same {first second : Trie κ ν} (same : first.same second = true) :
    first.isLeaf = second.isLeaf := by
  cases first <;> cases second <;> first | rfl | cases same

theorem rootStamp?_eq_of_same {first second : Trie κ ν} (same : first.same second = true) :
    first.rootStamp? = second.rootStamp? := by
  cases first <;> cases second <;> simp_all [Trie.same, rootStamp?]

variable {stamp : Stamp}

theorem rootStamp?_join {existing incoming : Trie κ ν} (built : incoming.rootStamp? = some stamp)
    (pairs : List (Slot × Slot)) :
    (join stamp existing incoming pairs).rootStamp? = some stamp := by
  cases pairs with
  | nil => exact built
  | cons pair deeper =>
      unfold join
      split <;> rfl

variable [BEq κ]

/-- Writing builds a new root. -/
theorem rootStamp?_upsert (stamp : Stamp) (key : κ) (code : UInt64) (resolve : Option ν → ν)
    (depth : Nat) (trie : Trie κ ν) :
    (trie.upsert stamp key code resolve depth).1.rootStamp? = some stamp := by
  cases trie with
  | empty => rfl
  | leaf old leafCode run =>
      unfold upsert
      split
      · rfl
      · exact rootStamp?_join rfl _
  | branch old bitmap size children =>
      rw [upsert]
      split <;> rfl

/-- Writing a run into a node gives the node itself or builds a new root. -/
theorem absorbRun_eq_or_rootStamp? (sharing : Sharing) (resolve : ν → ν → ν) (depth : Nat)
    (code : UInt64) (run : Run κ ν) (left : Trie κ ν) :
    absorbRun stamp sharing resolve depth code run left = left ∨
      (absorbRun stamp sharing resolve depth code run left).rootStamp? = some stamp := by
  induction run generalizing left with
  | nil => exact .inl rfl
  | cons entry run ih =>
      rw [absorbRun, List.foldl_cons]
      split
      · exact ih left
      · rcases ih _ with kept | built
        · exact .inr ((congrArg rootStamp? kept).trans (rootStamp?_upsert stamp ..))
        · exact .inr built

/-- Writing at least one entry builds a new root. -/
theorem rootStamp?_mergeRunInto (resolve : ν → ν → ν) (depth : Nat) (code : UInt64)
    {run : Run κ ν} (inhabited : run ≠ []) (right : Trie κ ν) :
    (mergeRunInto stamp resolve depth code run right).rootStamp? = some stamp := by
  rw [← List.dropLast_concat_getLast inhabited, mergeRunInto, List.foldl_append]
  exact rootStamp?_upsert ..

section MergeCases

variable {sharing : Sharing} {resolve : ν → ν → ν} {depth size rightSize : Nat}
  {old rightOld : Stamp} {code rightCode : UInt64} {run rightRun : Run κ ν}
  {bitmap rightBitmap : Bitmap} {children rightChildren : List (Trie κ ν)}

/-- A node that both tries hold is taken over. -/
theorem merge_of_shared {left right : Trie κ ν} (nonempty : left.isEmpty = false)
    (shared : sharing = .reuse ∧ left.same right = true) :
    merge stamp sharing resolve depth left right = left := by
  cases left with
  | empty => cases nonempty
  | leaf => simp only [merge, if_pos shared]
  | branch => simp only [merge, if_pos shared]

theorem merge_empty_right (left : Trie κ ν) :
    merge stamp sharing resolve depth left .empty = left := by
  cases left <;> simp [merge]

/-- A left leaf is written into the right node. -/
theorem merge_leaf_left {right : Trie κ ν} (nonempty : right.isEmpty = false)
    (unshared : ¬ (sharing = .reuse ∧ same (.leaf old code run) right = true)) :
    merge stamp sharing resolve depth (.leaf old code run) right =
      mergeRunInto stamp resolve depth code run right := by
  cases right with
  | empty => cases nonempty
  | leaf => simp [merge, unshared]
  | branch => simp [merge, unshared]

/-- A right leaf is written into a left branch. -/
theorem merge_branch_leaf :
    merge stamp sharing resolve depth (.branch old bitmap size children)
        (.leaf rightOld rightCode rightRun) =
      absorbRun stamp sharing resolve depth rightCode rightRun
        (.branch old bitmap size children) := by
  simp [merge, same]

/-- Two branches are merged slot by slot. -/
theorem merge_branch_branch
    (unshared : ¬ (sharing = .reuse ∧ same (.branch old bitmap size children)
      (.branch rightOld rightBitmap rightSize rightChildren) = true)) :
    merge stamp sharing resolve depth (.branch old bitmap size children)
        (.branch rightOld rightBitmap rightSize rightChildren) =
      mergedBranch stamp old bitmap size children
        (mergeEach stamp sharing resolve depth children
          (bitmap.slots.map (childAt rightBitmap rightChildren)))
        rightBitmap rightChildren := by
  rw [merge, if_neg unshared]

end MergeCases

/-- Merging gives the left node itself or builds a new root. -/
theorem merge_eq_or_rootStamp? (sharing : Sharing) (resolve : ν → ν → ν) (depth : Nat)
    {left : Trie κ ν} (nonempty : left.toList ≠ []) (right : Trie κ ν) :
    merge stamp sharing resolve depth left right = left ∨
      (merge stamp sharing resolve depth left right).rootStamp? = some stamp := by
  have notEmpty : left.isEmpty = false := by
    cases left with
    | empty => exact absurd rfl nonempty
    | leaf => rfl
    | branch => rfl
  by_cases shared : sharing = .reuse ∧ left.same right = true
  · exact .inl (merge_of_shared notEmpty shared)
  · cases right with
    | empty => exact .inl (merge_empty_right left)
    | leaf rightOld rightCode rightRun =>
        cases left with
        | empty => cases notEmpty
        | leaf old code run =>
            rw [merge_leaf_left rfl shared]
            exact .inr (rootStamp?_mergeRunInto resolve depth code nonempty _)
        | branch =>
            rw [merge_branch_leaf]
            exact absorbRun_eq_or_rootStamp? sharing resolve depth rightCode rightRun _
    | branch rightOld rightBitmap rightSize rightChildren =>
        cases left with
        | empty => cases notEmpty
        | leaf old code run =>
            rw [merge_leaf_left rfl shared]
            exact .inr (rootStamp?_mergeRunInto resolve depth code nonempty _)
        | branch =>
            rw [merge_branch_branch shared, mergedBranch]
            split
            · exact .inl rfl
            · exact .inr rfl

/-- With a new stamp a result that passes for the left node is the left node. -/
theorem merge_eq_of_same {sharing : Sharing} {resolve : ν → ν → ν} {depth : Nat}
    {left right : Trie κ ν} (nonempty : left.toList ≠ []) (fresh : stamp ∉ left.stamps)
    (same : (merge stamp sharing resolve depth left right).same left = true) :
    merge stamp sharing resolve depth left right = left := by
  rcases merge_eq_or_rootStamp? sharing resolve depth nonempty right with kept | built
  · exact kept
  · rw [rootStamp?_eq_of_same same] at built
    exact absurd (mem_stamps_of_rootStamp? built) fresh

end HashTrie.Trie
