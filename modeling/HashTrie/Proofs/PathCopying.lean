import HashTrie.Proofs.Identity

/-!
# Path copying

An edit of one key follows the digits of its hash and builds anew the nodes that it passes.
What lies beside this path is not touched: its nodes are nodes of the trie before, at the same
places. Only a leaf can change its place. An insertion that ends at a leaf of another hash
moves this leaf down, to a place beside the path (`InsertionShares`), and a removal that leaves
a single leaf to a branch moves this leaf up, onto the path (`RemovalShares`). The main result
is `edits_share_off_path`.
-/

namespace HashTrie

variable {κ ν : Type}

/-- A path of slots that starts at a depth follows the digits of a hash. -/
def OnPath (code : UInt64) : Nat → List Slot → Prop
  | _, [] => True
  | depth, slot :: path => slot = digit code depth ∧ OnPath code (depth + 1) path

instance (code : UInt64) (depth : Nat) (path : List Slot) : Decidable (OnPath code depth path) :=
  match path with
  | [] => .isTrue trivial
  | slot :: path =>
      have := instDecidableOnPath code (depth + 1) path
      inferInstanceAs (Decidable (slot = digit code depth ∧ OnPath code (depth + 1) path))

theorem Bitmap.insert_of_contains {bitmap : Bitmap} {slot : Slot}
    (occupied : bitmap.contains slot = true) : bitmap.insert slot = bitmap := by
  apply ext_contains
  intro other
  rw [contains_insert, Bool.or_eq_left_iff_imp, decide_eq_true_iff]
  rintro rfl
  exact occupied

namespace Trie

/-- What the trie after an insertion under a hash shares with the trie before. -/
structure InsertionShares (stamp : Stamp) (code : UInt64) (depth : Nat)
    (before after : Trie κ ν) : Prop where
  /-- A branch on the path stands where it stood, with the slot of the hash added and the
  same nodes in all other slots. -/
  branch : ∀ {path slot old bitmap size children}, OnPath code depth (path ++ [slot]) →
    before.nodeAt? path = some (.branch old bitmap size children) →
      ∃ sizeAfter childrenAfter,
        after.nodeAt? path = some (.branch stamp (bitmap.insert slot) sizeAfter childrenAfter) ∧
        ∀ other, other ≠ slot →
          childAt (bitmap.insert slot) childrenAfter other = childAt bitmap children other
  /-- A leaf of another hash at the end of the path hangs beside the path, below branches
  that were built from its old place on. -/
  leaf : ∀ {path old other run}, OnPath code depth path →
    before.nodeAt? path = some (.leaf old other run) → other ≠ code →
      ∃ place slot, path <+: place ∧ OnPath code depth place ∧
        ¬ OnPath code depth (place ++ [slot]) ∧
        after.nodeAt? (place ++ [slot]) = some (.leaf old other run) ∧
        ∀ upper, path <+: upper → upper <+: place → ∃ bitmap size children,
          after.nodeAt? upper = some (.branch stamp bitmap size children)
  /-- A node beside the path stands where it stood. -/
  kept : ∀ {path node}, ¬ OnPath code depth path →
    before.nodeAt? path = some node → after.nodeAt? path = some node
  /-- A node beside the path stood there before, or it is the leaf that has been at the end
  of the path. -/
  origin : ∀ {path node}, ¬ OnPath code depth path → after.nodeAt? path = some node →
    before.nodeAt? path = some node ∨
      node.isLeaf = true ∧ ∃ place, OnPath code depth place ∧ before.nodeAt? place = some node

/-- A leaf of another hash was a child beside the path, of a branch at a place or below it,
and has come up to this place or above it. -/
structure CameUp (code : UInt64) (depth : Nat) (before after : Trie κ ν) (path : List Slot)
    (leaf : Trie κ ν) : Prop where
  other : ∃ old other run, leaf = .leaf old other run ∧ other ≠ code
  origin : ∃ place slot, path <+: place ∧ OnPath code depth place ∧
    ¬ OnPath code depth (place ++ [slot]) ∧ before.nodeAt? (place ++ [slot]) = some leaf
  place : ∃ upper, upper <+: path ∧ after.nodeAt? upper = some leaf

/-- What the trie after a removal under a hash shares with the trie before. -/
structure RemovalShares (stamp : Stamp) (code : UInt64) (depth : Nat)
    (before after : Trie κ ν) : Prop where
  /-- A branch on the path stands where it stood, with the same nodes in all slots but that
  of the hash; or it gave way to a leaf that has come up, and this leaf is all that it had in
  other slots. -/
  branch : ∀ {path slot old bitmap size children}, OnPath code depth (path ++ [slot]) →
    before.nodeAt? path = some (.branch old bitmap size children) →
      (∃ bitmapAfter sizeAfter childrenAfter,
          after.nodeAt? path = some (.branch stamp bitmapAfter sizeAfter childrenAfter) ∧
          ∀ other, other ≠ slot →
            childAt bitmapAfter childrenAfter other = childAt bitmap children other) ∨
        ∃ leaf, CameUp code depth before after path leaf ∧ ∀ other child, other ≠ slot →
          childAt bitmap children other = some child → child = leaf
  /-- A node beside the path stands where it stood, or it is a leaf that has come up. -/
  kept : ∀ {path node}, ¬ OnPath code depth path → before.nodeAt? path = some node →
    after.nodeAt? path = some node ∨
      node.isLeaf = true ∧ ∃ place, OnPath code depth place ∧ after.nodeAt? place = some node
  /-- A node beside the path stood there before. -/
  origin : ∀ {path node}, ¬ OnPath code depth path →
    after.nodeAt? path = some node → before.nodeAt? path = some node

/-- All nodes that an operation with a given stamp has built stand on the path of a hash. -/
def BuiltOnPath (stamp : Stamp) (code : UInt64) (trie : Trie κ ν) : Prop :=
  ∀ path node, trie.nodeAt? path = some node → node.rootStamp? = some stamp → OnPath code 0 path

variable {code : UInt64} {depth size sizeAfter : Nat} {stamp old : Stamp}
  {bitmap bitmapAfter : Bitmap} {children childrenAfter : List (Trie κ ν)} {path : List Slot}
  {slot : Slot} {node child childAfter before after : Trie κ ν} {replacement : Option (Trie κ ν)}

theorem nodeAt?_of_isLeaf {leaf : Trie κ ν} (isLeaf : leaf.isLeaf = true)
    (found : leaf.nodeAt? path = some node) : path = [] ∧ node = leaf := by
  cases path with
  | nil => exact ⟨rfl, (Option.some.inj found).symm⟩
  | cons =>
      cases leaf with
      | empty => cases isLeaf
      | leaf => cases found
      | branch => cases isLeaf

theorem nodeAt?_empty (found : nodeAt? (.empty : Trie κ ν) path = some node) :
    path = [] ∧ node = .empty := by
  cases path with
  | nil => exact ⟨rfl, (Option.some.inj found).symm⟩
  | cons => cases found

/-- Where the path leads after one slot, whether or not the slot is occupied. -/
theorem nodeAt?_getD
    (found : nodeAt? (.branch old bitmap size children) (slot :: path) = some node) :
    ((childAt bitmap children slot).getD .empty).nodeAt? path = some node := by
  obtain ⟨child, atSlot, found⟩ := Option.bind_eq_some_iff.mp found
  rwa [atSlot]

theorem isEmpty_of_isLeaf (isLeaf : node.isLeaf = true) : node.isEmpty = false := by
  cases node with
  | empty => cases isLeaf
  | leaf => rfl
  | branch => rfl

theorem nodeAt?_of_getD
    (found : ((childAt bitmap children slot).getD .empty).nodeAt? path = some node)
    (inhabited : path ≠ [] ∨ node.isEmpty = false) :
    nodeAt? (.branch old bitmap size children) (slot :: path) = some node := by
  cases atSlot : childAt bitmap children slot with
  | none =>
      rw [atSlot] at found
      obtain ⟨rfl, rfl⟩ := nodeAt?_empty found
      simp [isEmpty] at inhabited
  | some child =>
      rw [nodeAt?_branch atSlot]
      rwa [atSlot] at found

theorem InsertionShares.builtOnPath (shares : InsertionShares stamp code 0 before after)
    (fresh : stamp ∉ before.stamps) : BuiltOnPath stamp code after := by
  intro path node found marked
  by_contra beside
  rcases shares.origin beside found with before | ⟨-, _, -, before⟩
  · exact fresh (mem_stamps_of_nodeAt? before marked)
  · exact fresh (mem_stamps_of_nodeAt? before marked)

theorem RemovalShares.builtOnPath (shares : RemovalShares stamp code 0 before after)
    (fresh : stamp ∉ before.stamps) : BuiltOnPath stamp code after := by
  intro path node found marked
  by_contra beside
  exact fresh (mem_stamps_of_nodeAt? (shares.origin beside found) marked)

/-- Replacing the child in one slot changes nothing below the others. -/
theorem Replaced.nodeAt?_eq (replaced : Replaced slot replacement bitmap children bitmapAfter
    childrenAfter) {other : Slot} (different : other ≠ slot) (path : List Slot) :
    nodeAt? (.branch stamp bitmapAfter sizeAfter childrenAfter) (other :: path) =
      nodeAt? (.branch old bitmap size children) (other :: path) := by
  rw [nodeAt?, nodeAt?, replaced.childAt_eq, if_neg different]

section Insertion

/-- A branch whose child in the slot of the hash was written to. -/
theorem InsertionShares.of_child
    (shares : InsertionShares stamp code (depth + 1)
      ((childAt bitmap children (digit code depth)).getD .empty) childAfter)
    (replaced : Replaced (digit code depth) (some childAfter) bitmap children
      (bitmap.insert (digit code depth)) childrenAfter) :
    InsertionShares stamp code depth (.branch old bitmap size children)
      (.branch stamp (bitmap.insert (digit code depth)) sizeAfter childrenAfter) := by
  have below (path : List Slot) :
      nodeAt? (.branch stamp (bitmap.insert (digit code depth)) sizeAfter childrenAfter)
        (digit code depth :: path) = childAfter.nodeAt? path :=
    nodeAt?_branch ((replaced.childAt_eq _).trans (if_pos rfl)) path
  refine ⟨?_, ?_, ?_, ?_⟩
  · intro path slot olderStamp olderBitmap olderSize olderChildren onPath found
    cases path with
    | nil =>
        obtain ⟨rfl, -⟩ := onPath
        cases found
        exact ⟨_, _, rfl, fun other different => by rw [replaced.childAt_eq, if_neg different]⟩
    | cons here path =>
        obtain ⟨rfl, onPath⟩ := onPath
        rw [below]
        exact shares.branch onPath (nodeAt?_getD found)
  · intro path olderStamp otherCode run onPath found different
    cases path with
    | nil => cases found
    | cons here path =>
        obtain ⟨rfl, onPath⟩ := onPath
        obtain ⟨place, slot, under, placeOnPath, leaves, atPlace, chain⟩ :=
          shares.leaf onPath (nodeAt?_getD found) different
        refine ⟨digit code depth :: place, slot, List.cons_prefix_cons.mpr ⟨rfl, under⟩,
          ⟨rfl, placeOnPath⟩, fun onPath => leaves onPath.2, (below _).trans atPlace, ?_⟩
        intro upper above underPlace
        obtain ⟨rest, rfl, aboveRest⟩ := List.cons_prefix_iff.mp above
        rw [below]
        exact chain rest aboveRest (List.cons_prefix_cons.mp underPlace).2
  · intro path node offPath found
    cases path with
    | nil => exact absurd trivial offPath
    | cons slot path =>
        by_cases here : slot = digit code depth
        · subst here
          rw [below]
          exact shares.kept (fun onPath => offPath ⟨rfl, onPath⟩) (nodeAt?_getD found)
        · rw [replaced.nodeAt?_eq here]
          exact found
  · intro path node offPath found
    cases path with
    | nil => exact absurd trivial offPath
    | cons slot path =>
        by_cases here : slot = digit code depth
        · subst here
          rw [below] at found
          have offPath : ¬ OnPath code (depth + 1) path := fun onPath => offPath ⟨rfl, onPath⟩
          rcases shares.origin offPath found with before | ⟨isLeaf, place, onPath, before⟩
          · refine .inl (nodeAt?_of_getD before (.inl ?_))
            rintro rfl
            exact offPath trivial
          · exact .inr ⟨isLeaf, digit code depth :: place, ⟨rfl, onPath⟩,
              nodeAt?_of_getD before (.inr (isEmpty_of_isLeaf isLeaf))⟩
        · rw [replaced.nodeAt?_eq here] at found
          exact .inl found

variable {other : UInt64} {run : Run κ ν}

/-- A leaf hangs beside the path of a hash, below new branches, and nothing else stands beside
this path. -/
structure PushedDown (stamp : Stamp) (code : UInt64) (depth : Nat) (leaf after : Trie κ ν) :
    Prop where
  place : ∃ place slot, OnPath code depth place ∧ ¬ OnPath code depth (place ++ [slot]) ∧
    after.nodeAt? (place ++ [slot]) = some leaf ∧
    ∀ upper, upper <+: place → ∃ bitmap size children,
      after.nodeAt? upper = some (.branch stamp bitmap size children)
  alone : ∀ {path node}, ¬ OnPath code depth path → after.nodeAt? path = some node → node = leaf

/-- One more new branch on the path. -/
theorem PushedDown.under_branch (pushed : PushedDown stamp code (depth + 1) before after) :
    PushedDown stamp code depth before
      (.branch stamp (.singleton (digit code depth)) size [after]) := by
  constructor
  · obtain ⟨place, slot, onPath, leaves, atPlace, chain⟩ := pushed.place
    refine ⟨digit code depth :: place, slot, ⟨rfl, onPath⟩, fun onPath => leaves onPath.2, ?_, ?_⟩
    · rw [List.cons_append, nodeAt?, childAt_singleton, if_pos rfl]
      exact atPlace
    · intro upper above
      cases upper with
      | nil => exact ⟨_, _, _, rfl⟩
      | cons first upper =>
          obtain ⟨rfl, abovePlace⟩ := List.cons_prefix_cons.mp above
          rw [nodeAt?, childAt_singleton, if_pos rfl]
          exact chain upper abovePlace
  · intro path node offPath found
    cases path with
    | nil => exact absurd trivial offPath
    | cons slot path =>
        rw [nodeAt?, childAt_singleton] at found
        split at found
        · rename_i here
          exact pushed.alone (fun onPath => offPath ⟨here, onPath⟩) found
        · cases found

/-- A leaf of another hash and the leaf of the hash, told apart by their digits. -/
theorem pushedDown_pair (differ : digit other depth ≠ digit code depth) (entry : κ × ν)
    (deeper : List (Slot × Slot)) :
    PushedDown stamp code depth (.leaf old other run)
      (join stamp (.leaf old other run) (.leaf stamp code [entry])
        ((digit other depth, digit code depth) :: deeper)) := by
  have free : (Bitmap.singleton (digit other depth)).contains (digit code depth) = false := by
    rw [Bitmap.contains_singleton, decide_eq_false differ]
  have full : [Trie.leaf old other run].length = (Bitmap.singleton (digit other depth)).card :=
    (Bitmap.card_singleton (digit other depth)).symm
  have replaced := replaced_insertIdx full free (.leaf stamp code [entry])
  rw [join_cons_of_ne differ]
  constructor
  · refine ⟨[], digit other depth, trivial, fun onPath => differ onPath.1, ?_, ?_⟩
    · rw [List.nil_append, nodeAt?, replaced.childAt_eq, if_neg differ, childAt_singleton,
        if_pos rfl]
      rfl
    · intro upper above
      obtain rfl := List.prefix_nil.mp above
      exact ⟨_, _, _, rfl⟩
  · intro path node offPath found
    cases path with
    | nil => exact absurd trivial offPath
    | cons slot path =>
        rw [nodeAt?, replaced.childAt_eq, childAt_singleton] at found
        split at found
        · rename_i onCode
          obtain ⟨rfl, -⟩ := nodeAt?_of_isLeaf rfl found
          exact absurd ⟨onCode, trivial⟩ offPath
        · split at found
          · exact (nodeAt?_of_isLeaf rfl found).2
          · cases found

/-- A leaf of another hash and the leaf of the hash, told apart below a depth down to which the
hashes agree. -/
theorem pushedDown_join {depth : Nat} (different : other ≠ code)
    (same : Agree (digit other) (digit code) depth) (entry : κ × ν) :
    PushedDown stamp code depth (.leaf old other run)
      (join stamp (.leaf old other run) (.leaf stamp code [entry])
        (digitPairs other code depth)) := by
  have shallow := depth_lt_levels different same
  rw [digitPairs_cons other code shallow]
  by_cases here : digit other depth = digit code depth
  · rw [here, join_cons_of_eq]
    exact (pushedDown_join different (Agree.succ_iff.mpr ⟨same, here⟩) entry).under_branch
  · exact pushedDown_pair here entry _
termination_by levels - depth
decreasing_by omega

/-- At the end of the path a leaf of another hash makes room for the leaf of the hash. -/
theorem PushedDown.insertionShares
    (pushed : PushedDown stamp code depth (.leaf old other run) after) :
    InsertionShares stamp code depth (.leaf old other run) after := by
  refine ⟨?_, ?_, ?_, ?_⟩
  · intro path slot _ _ _ _ _ found
    cases (nodeAt?_of_isLeaf rfl found).2
  · intro path _ _ _ _ found _
    obtain ⟨rfl, ⟨⟩⟩ := nodeAt?_of_isLeaf rfl found
    obtain ⟨place, slot, onPath, leaves, atPlace, chain⟩ := pushed.place
    exact ⟨place, slot, List.nil_prefix, onPath, leaves, atPlace, fun upper _ => chain upper⟩
  · intro path node offPath found
    obtain ⟨rfl, -⟩ := nodeAt?_of_isLeaf rfl found
    exact absurd trivial offPath
  · intro path node offPath found
    obtain rfl := pushed.alone offPath found
    exact .inr ⟨rfl, [], trivial, rfl⟩

/-- At the end of the path the leaf of the hash is built anew. -/
theorem insertionShares_leaf {before : Trie κ ν} (runAfter : Run κ ν)
    (replaced : before = .empty ∨ ∃ old run, before = .leaf old code run) :
    InsertionShares stamp code depth before (.leaf stamp code runAfter) := by
  have root {path : List Slot} {node : Trie κ ν} (found : before.nodeAt? path = some node) :
      path = [] ∧ node = before := by
    rcases replaced with rfl | ⟨old, run, rfl⟩
    · exact nodeAt?_empty found
    · exact nodeAt?_of_isLeaf rfl found
  refine ⟨?_, ?_, ?_, ?_⟩
  · intro path slot _ _ _ _ _ found
    obtain ⟨-, rfl⟩ := root found
    rcases replaced with ⟨⟨⟩⟩ | ⟨_, _, ⟨⟩⟩
  · intro path _ _ _ _ found different
    obtain ⟨-, rfl⟩ := root found
    rcases replaced with ⟨⟨⟩⟩ | ⟨_, _, ⟨⟩⟩
    exact absurd rfl different
  · intro path node offPath found
    obtain ⟨rfl, -⟩ := root found
    exact absurd trivial offPath
  · intro path node offPath found
    obtain ⟨rfl, -⟩ := nodeAt?_of_isLeaf rfl found
    exact absurd trivial offPath

section Upsert

variable [BEq κ] [Hashable κ]

omit [Hashable κ] in
/-- Writing below a branch is writing into the child in the slot of the hash, where a free slot
counts as the empty node. -/
theorem exists_replaced_upsert (old : Stamp) (size : Nat) (full : children.length = bitmap.card)
    (key : κ) (code : UInt64) (resolve : Option ν → ν) (depth : Nat) :
    ∃ sizeAfter childrenAfter,
      (upsert stamp key code resolve depth (.branch old bitmap size children)).1 =
        .branch stamp (bitmap.insert (digit code depth)) sizeAfter childrenAfter ∧
      Replaced (digit code depth)
        (some (((childAt bitmap children (digit code depth)).getD .empty).upsert stamp key code
          resolve (depth + 1)).1)
        bitmap children (bitmap.insert (digit code depth)) childrenAfter := by
  cases found : childAt bitmap children (digit code depth) with
  | none =>
      have free := free_of_childAt full found
      rw [upsert_branch_of_free stamp key resolve free]
      exact ⟨_, _, rfl, replaced_insertIdx full free _⟩
  | some child =>
      rw [upsert_branch_of_childAt stamp key resolve full found,
        Bitmap.insert_of_contains (contains_of_childAt found)]
      exact ⟨_, _, rfl, replaced_set full found _⟩

/-- **Writing shares what lies beside the path.** -/
theorem insertionShares_upsert (sound : WellFormed depth before)
    (under : Under (digit code) depth before.toList) (key : κ) (resolve : Option ν → ν) :
    InsertionShares stamp code depth before (before.upsert stamp key code resolve depth).1 := by
  induction sound with
  | @leaf depth old other run inhabited _ hashed =>
      by_cases same : other = code
      · subst same
        rw [upsert_leaf_of_eq]
        exact insertionShares_leaf _ (.inr ⟨old, run, rfl⟩)
      · obtain ⟨entry, member⟩ := List.exists_mem_of_ne_nil run inhabited
        have agree : Agree (digit other) (digit code) depth := by
          rw [← hashed entry member]
          exact under entry member
        rw [upsert_leaf_of_ne stamp key resolve same]
        exact (pushedDown_join same agree _).insertionShares
  | @branch depth old bitmap size children _ full _ sound routed _ _ ih =>
      obtain ⟨sizeAfter, childrenAfter, written, replaced⟩ :=
        exists_replaced_upsert old size full key code resolve depth
      rw [written]
      refine InsertionShares.of_child ?_ replaced
      cases found : childAt bitmap children (digit code depth) with
      | none => exact insertionShares_leaf _ (.inl rfl)
      | some child =>
          have underChild := (Placed.of_children full sound routed).under_entriesAt under
            (Agree.refl (digit code) depth)
          rw [entriesAt_of_childAt found] at underChild
          exact ih child (mem_of_childAt found) underChild

end Upsert

end Insertion

section Removal

/-- Two slots of a branch with a single child are one slot. -/
theorem slot_eq_of_single {single first second : Trie κ ν} {other : Slot}
    (full : [single].length = bitmap.card) (found : childAt bitmap [single] slot = some first)
    (otherFound : childAt bitmap [single] other = some second) : slot = other := by
  obtain ⟨inside, -⟩ := getElem_rank_of_childAt full found
  obtain ⟨otherInside, -⟩ := getElem_rank_of_childAt full otherFound
  have ranks : bitmap.rank slot = bitmap.rank other :=
    (Nat.lt_one_iff.mp inside).trans (Nat.lt_one_iff.mp otherInside).symm
  exact Bitmap.rank_inj (contains_of_childAt found) (contains_of_childAt otherFound) ranks

/-- What takes the place of a branch after a removal below one of its slots. -/
inductive Remains (stamp : Stamp) (slot : Slot) (bitmap : Bitmap) (children : List (Trie κ ν))
    (childAfter : Trie κ ν) : Trie κ ν → Prop where
  /-- A branch with the other children, and with what is left of the child if that is
  anything. -/
  | branch {bitmapAfter : Bitmap} {sizeAfter : Nat} {childrenAfter : List (Trie κ ν)}
      {replacement : Option (Trie κ ν)}
      (replaced : Replaced slot replacement bitmap children bitmapAfter childrenAfter)
      (below : replacement.getD .empty = childAfter) :
      Remains stamp slot bitmap children childAfter
        (.branch stamp bitmapAfter sizeAfter childrenAfter)
  /-- The other child, a leaf, if nothing is left of the child. -/
  | other {leaf : Trie κ ν} {place : Slot} (nothing : childAfter = .empty)
      (isLeaf : leaf.isLeaf = true) (beside : place ≠ slot)
      (found : childAt bitmap children place = some leaf)
      (alone : ∀ third child, third ≠ slot → childAt bitmap children third = some child →
        third = place) :
      Remains stamp slot bitmap children childAfter leaf
  /-- What is left of the only child: nothing or a leaf. -/
  | only {single : Trie κ ν} (alone : children = [single])
      (small : childAfter.isEmpty = true ∨ childAfter.isLeaf = true) :
      Remains stamp slot bitmap children childAfter childAfter

theorem remains_ofRemaining (full : children.length = bitmap.card)
    (found : childAt bitmap children slot = some child) :
    Remains stamp slot bitmap children .empty
      (ofRemaining stamp (bitmap.erase slot) size
        (children.eraseIdx (bitmap.rank slot))) := by
  have replaced := replaced_eraseIdx full found
  obtain ⟨inside, -⟩ := getElem_rank_of_childAt full found
  have shorter := List.length_eraseIdx_of_lt inside
  generalize children.eraseIdx (bitmap.rank slot) = remaining at replaced shorter
  match remaining with
  | [] =>
      have single : children.length = 1 := by
        rw [List.length_nil] at shorter
        omega
      obtain ⟨only, alone⟩ := List.length_eq_one_iff.mp single
      exact .only alone (.inl rfl)
  | [survivor] =>
      by_cases isLeaf : survivor.isLeaf = true
      · rw [ofRemaining, if_pos isLeaf]
        obtain ⟨place, atPlace⟩ := (mem_iff_childAt replaced.full).mp List.mem_cons_self
        have beside : place ≠ slot := by
          rintro rfl
          rw [replaced.childAt_eq, if_pos rfl] at atPlace
          cases atPlace
        refine .other rfl isLeaf beside ?_ ?_
        · rwa [replaced.childAt_eq, if_neg beside] at atPlace
        · intro third other different atThird
          have atThird : childAt (bitmap.erase slot) [survivor] third = some other := by
            rwa [replaced.childAt_eq, if_neg different]
          exact slot_eq_of_single replaced.full atThird atPlace
      · rw [ofRemaining, if_neg isLeaf]
        exact .branch replaced rfl
  | _ :: _ :: _ => exact .branch replaced rfl

section Erase

variable [BEq κ] [Hashable κ]

omit [Hashable κ] in
/-- What is left of a branch. -/
theorem remains_of_erase? {key : κ} (full : children.length = bitmap.card)
    (found : childAt bitmap children (digit code depth) = some child)
    (erased : erase? stamp key code depth (.branch old bitmap size children) = some after) :
    ∃ childAfter, child.erase? stamp key code (depth + 1) = some childAfter ∧
      Remains stamp (digit code depth) bitmap children childAfter after := by
  rw [erase?_branch_of_childAt stamp key full found] at erased
  obtain ⟨childAfter, erasedChild, rfl⟩ := Option.map_eq_some_iff.mp erased
  refine ⟨childAfter, erasedChild, ?_⟩
  split
  · rename_i nothing
    obtain rfl : childAfter = .empty := by
      cases childAfter with
      | empty => rfl
      | leaf => cases nothing
      | branch => cases nothing
    exact remains_ofRemaining full found
  · split
    · rename_i lastLeaf
      simp only [Bool.and_eq_true, beq_iff_eq] at lastLeaf
      obtain ⟨only, alone⟩ := List.length_eq_one_iff.mp lastLeaf.1
      exact .only alone (.inr lastLeaf.2)
    · exact .branch (replaced_set full found childAfter) rfl

end Erase

variable {leaf : Trie κ ν}

theorem CameUp.isLeaf (came : CameUp code depth before after path leaf) : leaf.isLeaf = true := by
  obtain ⟨_, _, _, rfl, -⟩ := came.other
  rfl

/-- A leaf that comes up below a slot of the path. -/
theorem CameUp.under (came : CameUp code (depth + 1) child childAfter path leaf)
    (found : childAt bitmap children (digit code depth) = some child)
    (place : ∃ upper, upper <+: digit code depth :: path ∧ after.nodeAt? upper = some leaf) :
    CameUp code depth (.branch old bitmap size children) after (digit code depth :: path) leaf := by
  obtain ⟨origin, slot, under, onPath, leaves, atOrigin⟩ := came.origin
  refine ⟨came.other, ⟨digit code depth :: origin, slot, List.cons_prefix_cons.mpr ⟨rfl, under⟩,
    ⟨rfl, onPath⟩, fun onPath => leaves onPath.2, ?_⟩, place⟩
  exact (nodeAt?_branch found _).trans atOrigin

/-- A branch that stays, with less below the slot of the hash. -/
theorem RemovalShares.of_replaced
    (shares : RemovalShares stamp code (depth + 1) child (replacement.getD .empty))
    (found : childAt bitmap children (digit code depth) = some child)
    (replaced : Replaced (digit code depth) replacement bitmap children bitmapAfter
      childrenAfter) :
    RemovalShares stamp code depth (.branch old bitmap size children)
      (.branch stamp bitmapAfter sizeAfter childrenAfter) := by
  have here : (childAt bitmapAfter childrenAfter (digit code depth)).getD .empty =
      replacement.getD .empty := by
    rw [replaced.childAt_eq, if_pos rfl]
  have lift {path : List Slot} {node : Trie κ ν}
      (atPath : (replacement.getD .empty).nodeAt? path = some node)
      (inhabited : path ≠ [] ∨ node.isEmpty = false) :
      nodeAt? (.branch stamp bitmapAfter sizeAfter childrenAfter) (digit code depth :: path) =
        some node :=
    nodeAt?_of_getD (here ▸ atPath) inhabited
  refine ⟨?_, ?_, ?_⟩
  · intro path slot _ _ _ _ onPath atPath
    cases path with
    | nil =>
        obtain ⟨rfl, -⟩ := onPath
        cases atPath
        exact .inl ⟨_, _, _, rfl, fun other different => by
          rw [replaced.childAt_eq, if_neg different]⟩
    | cons first path =>
        obtain ⟨rfl, onPath⟩ := onPath
        rw [nodeAt?_branch found] at atPath
        rcases shares.branch onPath atPath with ⟨_, _, _, atPath, kept⟩ | ⟨leaf, came, alone⟩
        · exact .inl ⟨_, _, _, lift atPath (.inr rfl), kept⟩
        · obtain ⟨upper, above, atUpper⟩ := came.place
          exact .inr ⟨leaf, came.under found ⟨_, List.cons_prefix_cons.mpr ⟨rfl, above⟩,
            lift atUpper (.inr (isEmpty_of_isLeaf came.isLeaf))⟩, alone⟩
  · intro path node offPath atPath
    cases path with
    | nil => exact absurd trivial offPath
    | cons slot path =>
        by_cases onCode : slot = digit code depth
        · subst onCode
          rw [nodeAt?_branch found] at atPath
          have offPath : ¬ OnPath code (depth + 1) path := fun onPath => offPath ⟨rfl, onPath⟩
          rcases shares.kept offPath atPath with kept | ⟨isLeaf, place, onPath, atPlace⟩
          · refine .inl (lift kept (.inl ?_))
            rintro rfl
            exact offPath trivial
          · exact .inr ⟨isLeaf, digit code depth :: place, ⟨rfl, onPath⟩,
              lift atPlace (.inr (isEmpty_of_isLeaf isLeaf))⟩
        · rw [replaced.nodeAt?_eq onCode]
          exact .inl atPath
  · intro path node offPath atPath
    cases path with
    | nil => exact absurd trivial offPath
    | cons slot path =>
        by_cases onCode : slot = digit code depth
        · subst onCode
          rw [nodeAt?_branch found]
          exact shares.origin (fun onPath => offPath ⟨rfl, onPath⟩) (here ▸ nodeAt?_getD atPath)
        · rwa [replaced.nodeAt?_eq onCode] at atPath

/-- A branch that gives way to a leaf, which is all that it has beside the slot of the hash and
all that may be left below it. -/
theorem RemovalShares.of_collapse (shares : RemovalShares stamp code (depth + 1) child childAfter)
    (found : childAt bitmap children (digit code depth) = some child)
    (comesUp : CameUp code depth (.branch old bitmap size children) leaf [] leaf)
    (beside : ∀ other third, other ≠ digit code depth →
      childAt bitmap children other = some third → third = leaf)
    (below : ∀ path node, childAfter.nodeAt? path = some node →
      path = [] ∧ (node = .empty ∨ node = leaf)) :
    RemovalShares stamp code depth (.branch old bitmap size children) leaf := by
  have isLeaf := comesUp.isLeaf
  refine ⟨?_, ?_, ?_⟩
  · intro path slot _ _ _ _ onPath atPath
    cases path with
    | nil =>
        obtain ⟨rfl, -⟩ := onPath
        cases atPath
        exact .inr ⟨leaf, comesUp, beside⟩
    | cons first path =>
        obtain ⟨rfl, onPath⟩ := onPath
        rw [nodeAt?_branch found] at atPath
        rcases shares.branch onPath atPath with ⟨_, _, _, stays, -⟩ | ⟨upmost, came, alone⟩
        · rcases (below _ _ stays).2 with nothing | rfl
          · cases nothing
          · cases isLeaf
        · obtain ⟨upper, -, atUpper⟩ := came.place
          rcases (below _ _ atUpper).2 with rfl | rfl
          · cases came.isLeaf
          · exact .inr ⟨_, came.under found ⟨[], List.nil_prefix, rfl⟩, alone⟩
  · intro path node offPath atPath
    cases path with
    | nil => exact absurd trivial offPath
    | cons first path =>
        by_cases onCode : first = digit code depth
        · subst onCode
          rw [nodeAt?_branch found] at atPath
          rcases shares.kept (fun onPath => offPath ⟨rfl, onPath⟩) atPath with
            kept | ⟨nodeIsLeaf, _, -, atPlace⟩
          · obtain ⟨rfl, -⟩ := below _ _ kept
            exact absurd ⟨rfl, trivial⟩ offPath
          · rcases (below _ _ atPlace).2 with rfl | rfl
            · cases nodeIsLeaf
            · exact .inr ⟨isLeaf, [], trivial, rfl⟩
        · obtain ⟨third, atFirst, atPath⟩ := Option.bind_eq_some_iff.mp atPath
          obtain rfl := beside first third onCode atFirst
          obtain ⟨-, rfl⟩ := nodeAt?_of_isLeaf isLeaf atPath
          exact .inr ⟨isLeaf, [], trivial, rfl⟩
  · intro path node offPath atPath
    obtain ⟨rfl, -⟩ := nodeAt?_of_isLeaf isLeaf atPath
    exact absurd trivial offPath

/-- The branch gives way to its other child, a leaf beside the path. -/
theorem RemovalShares.of_other (shares : RemovalShares stamp code (depth + 1) child .empty)
    (found : childAt bitmap children (digit code depth) = some child)
    (other : ∃ old other run, leaf = .leaf old other run ∧ other ≠ code)
    (beside : slot ≠ digit code depth) (atSlot : childAt bitmap children slot = some leaf)
    (alone : ∀ third child, third ≠ digit code depth →
      childAt bitmap children third = some child → third = slot) :
    RemovalShares stamp code depth (.branch old bitmap size children) leaf := by
  refine shares.of_collapse found ?_ ?_ fun _ _ atPath => (nodeAt?_empty atPath).imp_right .inl
  · exact ⟨other, ⟨[], slot, List.nil_prefix, trivial, fun onPath => beside onPath.1,
      nodeAt?_branch atSlot []⟩, [], List.nil_prefix, rfl⟩
  · intro third child different atThird
    obtain rfl := alone third child different atThird
    exact Option.some.inj (atThird.symm.trans atSlot)

/-- The branch gives way to the leaf that its only child, a branch, gave way to. -/
theorem RemovalShares.of_only (shares : RemovalShares stamp code (depth + 1) child leaf)
    (full : [child].length = bitmap.card)
    (found : childAt bitmap [child] (digit code depth) = some child)
    (comesUp : CameUp code (depth + 1) child leaf [] leaf) :
    RemovalShares stamp code depth (.branch old bitmap size [child]) leaf := by
  refine shares.of_collapse found ?_ ?_
    fun _ _ atPath => (nodeAt?_of_isLeaf comesUp.isLeaf atPath).imp_right .inr
  · obtain ⟨other, ⟨place, slot, -, onPath, leaves, atPlace⟩, -⟩ := comesUp
    exact ⟨other, ⟨digit code depth :: place, slot, List.nil_prefix, ⟨rfl, onPath⟩,
      fun onPath => leaves onPath.2, (nodeAt?_branch found _).trans atPlace⟩, [],
      List.nil_prefix, rfl⟩
  · exact fun third other different atThird =>
      absurd (slot_eq_of_single full atThird found) different

section Erase

variable [BEq κ] [Hashable κ]

/-- **Taking out shares what lies beside the path.** -/
theorem removalShares_erase? {key : κ} (sound : WellFormed depth before)
    (erased : before.erase? stamp key code depth = some after) :
    RemovalShares stamp code depth before after := by
  induction sound generalizing after with
  | @leaf depth old other run _ _ _ =>
      -- a leaf has no node beside the path, and neither has what is left of it
      have small : after.isEmpty = true ∨ after.isLeaf = true := by
        rw [erase?] at erased
        split at erased
        · obtain ⟨shorter, -, rfl⟩ := Option.map_eq_some_iff.mp erased
          cases shorter with
          | nil => exact .inl rfl
          | cons => exact .inr rfl
        · cases erased
      refine ⟨?_, ?_, ?_⟩
      · intro path slot _ _ _ _ _ atPath
        cases (nodeAt?_of_isLeaf rfl atPath).2
      · intro path node offPath atPath
        obtain ⟨rfl, -⟩ := nodeAt?_of_isLeaf rfl atPath
        exact absurd trivial offPath
      · intro path node offPath atPath
        cases path with
        | nil => exact absurd trivial offPath
        | cons => cases after <;> first | cases atPath | simp [isEmpty, isLeaf] at small
  | @branch depth old bitmap size children _ full _ sound routed collapsed _ ih =>
      have placed := Placed.of_children full sound routed
      cases found : childAt bitmap children (digit code depth) with
      | none =>
          rw [erase?_branch_of_free stamp key full found] at erased
          cases erased
      | some child =>
          obtain ⟨childAfter, erasedChild, remains⟩ := remains_of_erase? full found erased
          have shares := ih child (mem_of_childAt found) erasedChild
          cases remains with
          | branch replaced below =>
              subst below
              exact shares.of_replaced found replaced
          | other nothing isLeaf beside atSlot alone =>
              subst nothing
              refine shares.of_other found ?_ beside atSlot alone
              cases after with
              | empty => cases isLeaf
              | branch => cases isLeaf
              | leaf leafStamp other run =>
                  refine ⟨leafStamp, other, run, rfl, ?_⟩
                  rintro rfl
                  have atRoot : nodeAt? (.leaf leafStamp other run) [] =
                      some (.leaf leafStamp other run) := rfl
                  exact beside (placed.digit_of_nodeAt? atSlot atRoot).symm
          | only alone small =>
              subst alone
              obtain rfl := List.mem_singleton.mp (mem_of_childAt found)
              have noLeaf := collapsed child rfl
              cases sound child List.mem_cons_self with
              | leaf => cases noLeaf
              | branch =>
                  -- the child did not stay, so a leaf has come up in its place
                  have onPath : OnPath code (depth + 1) ([] ++ [digit code (depth + 1)]) :=
                    ⟨rfl, trivial⟩
                  rcases shares.branch onPath rfl with ⟨_, _, _, stays, -⟩ | ⟨leaf, comesUp, -⟩
                  · obtain rfl := Option.some.inj stays
                    simp [isEmpty, isLeaf] at small
                  · obtain ⟨upper, above, atUpper⟩ := comesUp.place
                    obtain rfl := List.prefix_nil.mp above
                    obtain rfl := Option.some.inj atUpper
                    exact shares.of_only full found comesUp

end Erase

end Removal

end Trie

variable [BEq κ] [Hashable κ] {map : TrieMap κ ν} {stamp : Stamp}

namespace TrieMap.WellFormed

theorem insertionShares (wellFormed : map.WellFormed) (stamp : Stamp) (key : κ) (value : ν) :
    Trie.InsertionShares stamp (hash key) 0 map.root (map.insert stamp key value).root := by
  have written : (map.insert stamp key value).root =
      (map.root.upsert stamp key (hash key) (fun _ => value) 0).1 := rfl
  rw [written]
  rcases wellFormed.root with nothing | sound
  · rw [nothing]
    exact Trie.insertionShares_leaf _ (.inl rfl)
  · exact Trie.insertionShares_upsert sound (fun _ _ => .zero) key _

theorem removalShares (wellFormed : map.WellFormed) (stamp : Stamp) {key : κ}
    (present : map.containsKey key = true) :
    Trie.RemovalShares stamp (hash key) 0 map.root (map.erase stamp key).root := by
  cases erased : map.root.erase? stamp key (hash key) 0 with
  | none =>
      rw [Trie.erase?_eq_none_iff_lookup] at erased
      rw [containsKey, getEntry?, erased] at present
      cases present
  | some root =>
      rw [erase, erased]
      rcases wellFormed.root with nothing | sound
      · rw [nothing] at erased
        cases erased
      · exact Trie.removalShares_erase? sound erased

end TrieMap.WellFormed

/-- **Edits share what lies beside the path.** Whatever the history of a map, an insertion
and the removal of a key that is there leave the nodes beside the path of its hash as they
are. A branch on the path keeps its other children; of the leaves of other hashes, the one at
the end of the path goes down under new branches, and the last one of a branch comes up, each
as the same node. So whatever an edit builds stands on the path. -/
theorem edits_share_off_path [EquivBEq κ] {pool : Pool κ} (reachable : Reachable pool)
    (held : ⟨ν, map⟩ ∈ pool) (fresh : Fresh stamp pool) (key : κ) (value : ν) :
    (Trie.InsertionShares stamp (hash key) 0 map.root (map.insert stamp key value).root ∧
        Trie.BuiltOnPath stamp (hash key) (map.insert stamp key value).root) ∧
      (map.containsKey key = true →
        Trie.RemovalShares stamp (hash key) 0 map.root (map.erase stamp key).root ∧
          Trie.BuiltOnPath stamp (hash key) (map.erase stamp key).root) := by
  have wellFormed := reachable.sound held
  have new := fresh _ held
  have inserted := wellFormed.insertionShares stamp key value
  refine ⟨⟨inserted, inserted.builtOnPath new⟩, fun present => ?_⟩
  have removed := wellFormed.removalShares stamp present
  exact ⟨removed, removed.builtOnPath new⟩

omit [BEq κ] [Hashable κ] in
/-- The keys 0 and 32 share the first digit, and 2^60 differs from 0 in the last digit only.
Inserting 2^60 moves the leaf of 0 down to the last level, and removing 32 moves it up to the
root; both times it keeps its stamp, and so does the leaf of 1. -/
theorem edits_share_off_path_of_collisions :
    let map : TrieMap Nat Nat := .ofList (.ofNat 0) [(0, 1), (32, 2), (1, 3)]
    let far := 0x1000000000000000
    let down := map.insert (.ofNat 1) far 4
    let up := map.erase (.ofNat 1) 32
    let stampAt (trie : Trie Nat Nat) (path : List Slot) :=
      (trie.nodeAt? path).bind Trie.rootStamp?
    Trie.InsertionShares (.ofNat 1) (hash far) 0 map.root down.root ∧
      Trie.RemovalShares (.ofNat 1) (hash 32) 0 map.root up.root ∧
      stampAt down.root (List.replicate 12 0) = some (.ofNat 1) ∧
      stampAt down.root (List.replicate 13 0) = some (.ofNat 0) ∧
      stampAt up.root [0] = some (.ofNat 0) ∧
      stampAt down.root [1] = some (.ofNat 0) ∧ stampAt up.root [1] = some (.ofNat 0) := by
  intro map far down up stampAt
  have reachable : Reachable [⟨Nat, map⟩] := .ofList _ _
  have fresh : Fresh (.ofNat 1) [⟨Nat, map⟩] := by decide
  have inserted := edits_share_off_path reachable List.mem_cons_self fresh far 4
  have removed := edits_share_off_path reachable List.mem_cons_self fresh 32 4
  exact ⟨inserted.1.1, (removed.2 (by decide)).1, by decide, by decide, by decide, by decide,
    by decide⟩

end HashTrie
