import HashTrie.Proofs.CanonicalForm
import HashTrie.Proofs.MergeOrder

/-!
# Merges that hand back the left root

A merge that reuses what it can walks down both tries at once, from pairs of different
branches to the pairs of their children (`Trie.Meets`), and builds a node wherever the left
one does not already have all that the right one adds. So the result is the left node
itself exactly if every key of the right node is one of the left (`Trie.Covers`), and the
walk meets no two different leaves (`Trie.LeavesShared`): a left leaf is always written
into a right one, even if they have the same keys. The main result is
`merge_sharesRoot_iff`.
-/

namespace HashTrie

variable {κ ν : Type}

namespace Trie

/-- The pairs of nodes that a walk down two tries meets: it starts at the roots, stops at a
pair that is one and the same node, and goes from two different branches to the children in
each slot that is occupied in both. -/
inductive Meets : Trie κ ν → Trie κ ν → Trie κ ν → Trie κ ν → Prop where
  | here {left right : Trie κ ν} : Meets left right left right
  | descend {old rightOld : Stamp} {bitmap rightBitmap : Bitmap} {size rightSize : Nat}
      {children rightChildren : List (Trie κ ν)} {slot : Slot}
      {child other first second : Trie κ ν}
      (different : same (.branch old bitmap size children)
        (.branch rightOld rightBitmap rightSize rightChildren) = false)
      (atLeft : childAt bitmap children slot = some child)
      (atRight : childAt rightBitmap rightChildren slot = some other)
      (meets : Meets child other first second) :
      Meets (.branch old bitmap size children)
        (.branch rightOld rightBitmap rightSize rightChildren) first second

/-- Leaves of two tries that meet on the walk down both are one and the same. -/
def LeavesShared (left right : Trie κ ν) : Prop :=
  ∀ first second, Meets left right first second → first.isLeaf = true → second.isLeaf = true →
    first.same second = true

/-- Every key of the right node is one of the left. -/
def Covers [BEq κ] [Hashable κ] (left right : Trie κ ν) : Prop :=
  ∀ entry ∈ right.toList, ((runOf (hash entry.1) left.toList).find? entry.1).isSome = true

/-- Nodes that meet stand at one place. -/
theorem Meets.exists_path {left right first second : Trie κ ν}
    (meets : Meets left right first second) :
    ∃ path, left.nodeAt? path = some first ∧ right.nodeAt? path = some second := by
  induction meets with
  | here => exact ⟨[], rfl, rfl⟩
  | @descend _ _ _ _ _ _ _ _ slot _ _ _ _ _ atLeft atRight _ ih =>
      obtain ⟨path, found, rightFound⟩ := ih
      exact ⟨slot :: path, (nodeAt?_branch atLeft path).trans found,
        (nodeAt?_branch atRight path).trans rightFound⟩

/-- No leaf meets the empty node. -/
theorem leavesShared_empty (left : Trie κ ν) : LeavesShared left .empty := by
  intro first second meets _ isLeaf
  cases meets
  cases isLeaf

section Merging

variable [BEq κ] [Hashable κ] {stamp old rightOld : Stamp} {resolve : ν → ν → ν} {depth : Nat}
  {bitmap rightBitmap : Bitmap} {size rightSize : Nat} {children rightChildren : List (Trie κ ν)}
  {left right : Trie κ ν} {code : UInt64} {run : Run κ ν}

omit [BEq κ] [Hashable κ] in
theorem LeavesShared.below {slot : Slot} {child other : Trie κ ν}
    (shared : LeavesShared (.branch old bitmap size children)
      (.branch rightOld rightBitmap rightSize rightChildren))
    (different : same (.branch old bitmap size children)
      (.branch rightOld rightBitmap rightSize rightChildren) = false)
    (atLeft : childAt bitmap children slot = some child)
    (atRight : childAt rightBitmap rightChildren slot = some other) : LeavesShared child other :=
  fun first second meets => shared first second (.descend different atLeft atRight meets)

/-- The hash of a key of the right node is the hash of a key of the left. -/
theorem Covers.exists_hash (covers : Covers left right) {entry : κ × ν}
    (member : entry ∈ right.toList) : ∃ partner ∈ left.toList, hash partner.1 = hash entry.1 := by
  obtain ⟨partner, found⟩ := Option.isSome_iff_exists.mp (covers entry member)
  exact ⟨partner, mem_runOf.mp (Run.mem_of_find? found)⟩

/-- What two branches cover, they cover slot by slot. -/
theorem Covers.below {slot : Slot} {child other : Trie κ ν}
    (covers : Covers (.branch old bitmap size children)
      (.branch rightOld rightBitmap rightSize rightChildren))
    (placed : Placed depth bitmap children) (rightPlaced : Placed depth rightBitmap rightChildren)
    (atLeft : childAt bitmap children slot = some child)
    (atRight : childAt rightBitmap rightChildren slot = some other) : Covers child other := by
  intro entry member
  have inSlot : entry ∈ entriesAt rightBitmap rightChildren slot :=
    mem_entriesAt.mpr ⟨other, atRight, member⟩
  rw [placed.runOf_child atLeft, if_pos (rightPlaced.routed slot entry inSlot)]
  exact covers entry ((mem_toLists_iff rightPlaced.full).mpr ⟨slot, inSlot⟩)

/-- A branch that covers another one has its slots. -/
theorem Covers.union_eq
    (covers : Covers (.branch old bitmap size children)
      (.branch rightOld rightBitmap rightSize rightChildren))
    (placed : Placed depth bitmap children)
    (rightPlaced : Placed depth rightBitmap rightChildren) :
    bitmap.union rightBitmap = bitmap := by
  refine Bitmap.ext_contains ?_
  intro slot
  rw [Bitmap.contains_union, Bool.or_eq_left_iff_imp]
  intro occupied
  obtain ⟨other, atRight⟩ := exists_childAt rightPlaced.full occupied
  obtain ⟨entry, member⟩ := List.exists_mem_of_ne_nil _
    (rightPlaced.sound slot other atRight).toList_ne_nil
  have inSlot : entry ∈ entriesAt rightBitmap rightChildren slot :=
    mem_entriesAt.mpr ⟨other, atRight, member⟩
  obtain ⟨partner, held, same⟩ :=
    covers.exists_hash ((mem_toLists_iff rightPlaced.full).mpr ⟨slot, inSlot⟩)
  obtain ⟨there, inThere⟩ := (mem_toLists_iff placed.full).mp held
  have routed := placed.routed there partner inThere
  rw [same, rightPlaced.routed slot entry inSlot] at routed
  obtain ⟨child, atLeft, -⟩ := mem_entriesAt.mp (routed ▸ inThere)
  exact contains_of_childAt atLeft

omit [Hashable κ] in
/-- Entries whose keys a node has already are not written into it. -/
theorem absorbRun_of_found
    (found : ∀ entry ∈ run, (left.lookup entry.1 code depth).isSome = true) :
    absorbRun stamp .reuse resolve depth code run left = left := by
  induction run with
  | nil => rfl
  | cons entry run ih =>
      rw [absorbRun, List.foldl_cons, if_pos ⟨rfl, found entry List.mem_cons_self⟩]
      exact ih fun other member => found other (.tail _ member)

omit [Hashable κ] in
/-- If each child comes back from its merge, the branch does. -/
theorem merge_branch_eq_left (full : children.length = bitmap.card)
    (noSlots : bitmap.union rightBitmap = bitmap)
    (unshared : same (.branch old bitmap size children)
      (.branch rightOld rightBitmap rightSize rightChildren) = false)
    (kept : ∀ slot child other, childAt bitmap children slot = some child →
      childAt rightBitmap rightChildren slot = some other →
        merge stamp .reuse resolve (depth + 1) child other = child) :
    merge stamp .reuse resolve depth (.branch old bitmap size children)
      (.branch rightOld rightBitmap rightSize rightChildren) =
        .branch old bitmap size children := by
  have aligned : children.length =
      (bitmap.slots.map (childAt rightBitmap rightChildren)).length := by
    rw [List.length_map, Bitmap.length_slots, full]
  have mergedFull : (mergeEach stamp .reuse resolve depth children
      (bitmap.slots.map (childAt rightBitmap rightChildren))).length = bitmap.card := by
    rw [mergeEach_eq_zipWith _ _ _ _ _ _ aligned, List.length_zipWith, ← aligned, Nat.min_self,
      full]
  have each : mergeEach stamp .reuse resolve depth children
      (bitmap.slots.map (childAt rightBitmap rightChildren)) = children := by
    rw [eq_filterMap_childAt mergedFull]
    conv => rhs; rw [eq_filterMap_childAt full]
    refine List.filterMap_congr ?_
    intro slot _
    rw [childAt_mergeEach _ _ _ _ _ _ full, mergedAt]
    cases atLeft : childAt bitmap children slot with
    | none => rfl
    | some child =>
        cases atRight : childAt rightBitmap rightChildren slot with
        | none => rfl
        | some other => exact congrArg some (kept slot child other atLeft atRight)
  have same : (List.zipWith Trie.same children children).all id = true := by
    rw [List.zipWith_self, List.all_map, List.all_eq_true]
    exact fun child _ => same_self child
  rw [merge_branch_branch (by simp [unshared]), mergedBranch, each, if_pos ⟨noSlots, same⟩]

/-- **Handing back the left node.** The left node comes back from a merge if it has all keys
of the right one and leaves that meet are shared. -/
theorem merge_eq_left (sound : WellFormed depth left) (rightSound : WellFormed depth right)
    (covers : Covers left right) (shared : LeavesShared left right) :
    merge stamp .reuse resolve depth left right = left := by
  induction sound generalizing right with
  | @leaf depth old code run inhabited distinct hashed =>
      cases isLeaf : right.isLeaf with
      | true => exact merge_of_shared rfl ⟨rfl, shared _ _ .here rfl isLeaf⟩
      | false =>
          -- the branch has keys of another hash than that of the leaf
          obtain ⟨entry, member, different⟩ := rightSound.exists_other_hash isLeaf code
          obtain ⟨partner, inRun, same⟩ := covers.exists_hash member
          exact absurd (same.symm.trans (hashed partner inRun)) different
  | @branch depth old bitmap size children shallow full inhabited childSound routed collapsed
      counted ih =>
      have placed := Placed.of_children full childSound routed
      have whole : WellFormed depth (.branch old bitmap size children) :=
        .branch shallow full inhabited childSound routed collapsed counted
      cases rightSound with
      | @leaf _ rightOld code run _ _ hashed =>
          rw [merge_branch_leaf]
          refine absorbRun_of_found ?_
          intro entry member
          rw [whole.lookup_eq_find?, ← hashed entry member]
          exact covers entry member
      | @branch _ rightOld rightBitmap rightSize rightChildren _ rightFull _ rightChildSound
          rightRouted _ _ =>
          have rightPlaced := Placed.of_children rightFull rightChildSound rightRouted
          cases unshared : same (.branch old bitmap size children)
            (.branch rightOld rightBitmap rightSize rightChildren) with
          | true => exact merge_of_shared rfl ⟨rfl, unshared⟩
          | false =>
              refine merge_branch_eq_left full (covers.union_eq placed rightPlaced) unshared ?_
              intro slot child other atLeft atRight
              exact ih child (mem_of_childAt atLeft) (rightPlaced.sound slot other atRight)
                (covers.below placed rightPlaced atLeft atRight)
                (shared.below unshared atLeft atRight)

/-- If the left node comes back from a merge with a new stamp, leaves that meet are shared. -/
theorem leavesShared_of_merge_eq (sound : WellFormed depth left)
    (rightSound : WellFormed depth right) (fresh : stamp ∉ left.stamps)
    (kept : merge stamp .reuse resolve depth left right = left) : LeavesShared left right := by
  intro first second meets
  induction meets generalizing depth with
  | @here left right =>
      intro isLeaf rightIsLeaf
      by_contra unshared
      cases left with
      | empty => cases isLeaf
      | branch => cases isLeaf
      | leaf old code run =>
          have built : (merge stamp .reuse resolve depth (.leaf old code run) right).rootStamp? =
              some stamp := by
            rw [merge_leaf_left rightSound.isEmpty_eq_false (by simpa using unshared)]
            exact rootStamp?_mergeRunInto resolve depth code sound.toList_ne_nil right
          rw [kept] at built
          exact fresh (mem_stamps_of_rootStamp? built)
  | @descend old rightOld bitmap rightBitmap size rightSize children rightChildren slot child other
      _ _ different atLeft atRight _ ih =>
      have placed := sound.placed
      have rightPlaced := rightSound.placed
      have freshBelow : stamp ∉ stampsAll children := fun marked => fresh (.tail _ marked)
      have unshared : ¬ (Sharing.reuse = .reuse ∧ same (.branch old bitmap size children)
          (.branch rightOld rightBitmap rightSize rightChildren) = true) := by
        simp [different]
      rcases merge_branch_cases placed.full rightPlaced.full placed.toList_ne_nil freshBelow
        unshared with ⟨-, unchanged⟩ | ⟨_, built, -, -⟩
      · have here := unchanged slot
        rw [mergedAt, atLeft, atRight, Option.merge_some_some] at here
        exact ih (placed.sound slot child atLeft) (rightPlaced.sound slot other atRight)
          (fun marked => freshBelow (mem_stamps_of_child (mem_of_childAt atLeft) marked))
          (Option.some.inj here).symm
      · rw [kept] at built
        obtain ⟨rfl, -⟩ := Trie.branch.inj built
        exact absurd List.mem_cons_self fresh

/-- Two leaves meet on the walk down two tries. If the right one is also a node of the left
trie, at whatever place, that is the node it meets. -/
theorem Meets.eq_of_same {first second mine : Trie κ ν} {path : List Slot}
    (meets : Meets left right first second) (sound : WellFormed depth left)
    (rightSound : WellFormed depth right) (isLeaf : first.isLeaf = true)
    (rightIsLeaf : second.isLeaf = true) (found : left.nodeAt? path = some mine)
    (passes : mine.same second = true) : mine = first := by
  induction meets generalizing depth path with
  | @here left right =>
      cases left with
      | empty => cases isLeaf
      | branch => cases isLeaf
      | leaf =>
          cases path with
          | nil => exact (Option.some.inj found).symm
          | cons => cases found
  | @descend _ _ _ _ _ _ _ _ slot child other _ second _ atLeft atRight meets ih =>
      have placed := sound.placed
      have mineIsLeaf := (isLeaf_eq_of_same passes).trans rightIsLeaf
      cases path with
      | nil =>
          obtain rfl := Option.some.inj found
          cases mineIsLeaf
      | cons there path =>
          obtain ⟨mineChild, atThere, found⟩ := Option.bind_eq_some_iff.mp found
          obtain ⟨rightPath, -, rightFound⟩ := meets.exists_path
          -- leaves of one hash stand in one slot of a branch
          have leads : there = slot := by
            cases mine with
            | empty => cases mineIsLeaf
            | branch => cases mineIsLeaf
            | leaf stamp code run =>
                cases second with
                | empty => cases passes
                | branch => cases passes
                | leaf rightStamp rightCode rightRun =>
                    obtain ⟨-, rfl⟩ : stamp = rightStamp ∧ code = rightCode := by
                      simpa [same] using passes
                    exact (placed.digit_of_nodeAt? atThere found).symm.trans
                      (rightSound.placed.digit_of_nodeAt? atRight rightFound)
          subst leads
          obtain rfl := Option.some.inj (atLeft.symm.trans atThere)
          exact ih (placed.sound there child atLeft) (rightSound.placed.sound there other atRight)
            isLeaf rightIsLeaf found passes

/-- Leaves that meet are shared if every right leaf is a node of the left trie or stands
where that has a branch. -/
theorem LeavesShared.of_places (sound : WellFormed depth left)
    (rightSound : WellFormed depth right)
    (places : ∀ path leaf, right.nodeAt? path = some leaf → leaf.isLeaf = true →
      (∃ place mine, left.nodeAt? place = some mine ∧ mine.same leaf = true) ∨
        ∃ stamp bitmap size children,
          left.nodeAt? path = some (.branch stamp bitmap size children)) :
    LeavesShared left right := by
  intro first second meets isLeaf rightIsLeaf
  obtain ⟨path, found, rightFound⟩ := meets.exists_path
  rcases places path second rightFound rightIsLeaf with
    ⟨place, mine, mineFound, passes⟩ | ⟨_, _, _, _, branchFound⟩
  · rwa [← meets.eq_of_same sound rightSound isLeaf rightIsLeaf mineFound passes]
  · obtain rfl := Option.some.inj (found.symm.trans branchFound)
    cases isLeaf

end Merging

end Trie

namespace TrieMap.WellFormed

variable [BEq κ] [Hashable κ] {map other : TrieMap κ ν} {stamp : Stamp}

theorem root_of_inhabited (wellFormed : map.WellFormed) (inhabited : map.isEmpty = false) :
    map.root.WellFormed 0 := by
  refine wellFormed.root.resolve_left ?_
  intro nothing
  rw [isEmpty, wellFormed.length, toList, nothing] at inhabited
  cases inhabited

/-- A non-empty map gets its root back from a merge exactly if the tries merge to it. -/
theorem sharesRoot_merge_iff_eq (wellFormed : map.WellFormed) (otherWellFormed : other.WellFormed)
    (inhabited : map.isEmpty = false) (fresh : stamp ∉ map.root.stamps) :
    (map.merge stamp other).sharesRoot map = true ↔
      map.root.merge stamp .reuse (fun value _ => value) 0 other.root = map.root := by
  rw [wellFormed.merge_eq otherWellFormed]
  constructor
  · exact Trie.merge_eq_of_same (wellFormed.root_of_inhabited inhabited).toList_ne_nil fresh
  · intro kept
    rw [kept]
    exact Trie.same_self map.root

variable [EquivBEq κ]

theorem covers_iff (wellFormed : map.WellFormed) (otherWellFormed : other.WellFormed) :
    map.root.Covers other.root ↔
      ∀ key, other.containsKey key = true → map.containsKey key = true := by
  constructor
  · intro covers key contained
    obtain ⟨entry, inRun, equal⟩ := otherWellFormed.exists_of_containsKey contained
    obtain ⟨member, same⟩ := mem_runOf.mp inRun
    have found := covers entry member
    rw [same, Run.find?_congr _ equal] at found
    rwa [containsKey, wellFormed.getEntry?_eq_find?]
  · intro keys entry member
    have contained := keys entry.1 (otherWellFormed.containsKey_of_mem member)
    rwa [containsKey, wellFormed.getEntry?_eq_find?] at contained

/-- A map that gets its root back from a merge has the keys of the other map. -/
theorem containsKey_of_merge_eq (wellFormed : map.WellFormed)
    (otherWellFormed : other.WellFormed) (fresh : stamp ∉ map.root.stamps)
    (coherent : map.root.Coherent other.root)
    (kept : map.root.merge stamp .reuse (fun value _ => value) 0 other.root = map.root) {key : κ}
    (contained : other.containsKey key = true) : map.containsKey key = true := by
  have merged := wellFormed.getEntry?_merge otherWellFormed fresh coherent key
  rw [wellFormed.merge_eq otherWellFormed, kept, wellFormed.ofRoot_root] at merged
  rw [containsKey] at contained ⊢
  rw [merged, Option.isSome_or, contained, Bool.or_true]

/-- A non-empty map gets its root back from a merge exactly if it has the keys of the other
map and leaves that meet are shared. -/
theorem sharesRoot_merge_iff (wellFormed : map.WellFormed) (otherWellFormed : other.WellFormed)
    (inhabited : map.isEmpty = false) (fresh : stamp ∉ map.root.stamps)
    (coherent : map.root.Coherent other.root) :
    (map.merge stamp other).sharesRoot map = true ↔
      (∀ key, other.containsKey key = true → map.containsKey key = true) ∧
        map.root.LeavesShared other.root := by
  have sound := wellFormed.root_of_inhabited inhabited
  rw [wellFormed.sharesRoot_merge_iff_eq otherWellFormed inhabited fresh]
  constructor
  · intro kept
    have keys (key : κ) : other.containsKey key = true → map.containsKey key = true :=
      wellFormed.containsKey_of_merge_eq otherWellFormed fresh coherent kept
    refine ⟨keys, ?_⟩
    rcases otherWellFormed.root with nothing | otherSound
    · rw [nothing]
      exact Trie.leavesShared_empty map.root
    · exact Trie.leavesShared_of_merge_eq sound otherSound fresh kept
  · rintro ⟨keys, shared⟩
    rcases otherWellFormed.root with nothing | otherSound
    · rw [nothing]
      exact Trie.merge_empty_right map.root
    · exact Trie.merge_eq_left sound otherSound
        ((wellFormed.covers_iff otherWellFormed).mpr keys) shared

end TrieMap.WellFormed

variable [BEq κ] [Hashable κ] [EquivBEq κ]

/-- **When a merge hands back the left root.** The root of a non-empty map comes back from a
merge exactly if the map has all keys of the other one and the walk down both tries meets
no two different leaves. So it never comes back if the other map has a further key, and it
does if there is none and each leaf of the other map is shared with the map or stands where
the map has a branch. -/
theorem merge_sharesRoot_iff {pool : Pool κ} {stamp : Stamp} {map other : TrieMap κ ν}
    (reachable : Reachable pool) (held : ⟨ν, map⟩ ∈ pool) (otherHeld : ⟨ν, other⟩ ∈ pool)
    (fresh : Fresh stamp pool) (inhabited : map.isEmpty = false) :
    let merged := map.merge stamp other
    (merged.sharesRoot map = true ↔
        (∀ key, other.containsKey key = true → map.containsKey key = true) ∧
          map.root.LeavesShared other.root) ∧
      (∀ key, other.containsKey key = true → map.containsKey key = false →
        merged.sharesRoot map = false) ∧
      ((∀ key, other.containsKey key = true → map.containsKey key = true) →
        (∀ path leaf, other.root.nodeAt? path = some leaf → leaf.isLeaf = true →
          (∃ place mine, map.root.nodeAt? place = some mine ∧ mine.same leaf = true) ∨
            ∃ stamp bitmap size children,
              map.root.nodeAt? path = some (.branch stamp bitmap size children)) →
        merged.sharesRoot map = true) := by
  intro merged
  have wellFormed := reachable.sound held
  have otherWellFormed := reachable.sound otherHeld
  have exactly := wellFormed.sharesRoot_merge_iff otherWellFormed inhabited (fresh _ held)
    (reachable.coherent held otherHeld)
  refine ⟨exactly, ?_, ?_⟩
  · intro key contained absent
    by_contra shares
    rw [Bool.not_eq_false] at shares
    rw [(exactly.mp shares).1 key contained] at absent
    cases absent
  · intro keys places
    refine exactly.mpr ⟨keys, ?_⟩
    rcases otherWellFormed.root with nothing | otherSound
    · rw [nothing]
      exact Trie.leavesShared_empty map.root
    · exact .of_places (wellFormed.root_of_inhabited inhabited) otherSound places

omit [BEq κ] [Hashable κ] [EquivBEq κ] in
/-- The keys 0 and 2^64 have one hash, 32 differs from it in the second digit and 1 in the
first. Without 32 the run of the first two lies against a branch and the leaf of 1 is
shared, so the root comes back; a leaf of 1 that was built anew meets the one of the map. -/
theorem merge_sharesRoot_iff_of_collisions :
    let twin := 0x10000000000000000
    let map : TrieMap Nat Nat := .ofList (.ofNat 0) [(0, 1), (32, 2), (twin, 3), (1, 4)]
    let shorter := map.erase (.ofNat 1) 32
    let built : TrieMap Nat Nat := .ofList (.ofNat 2) [(0, 1), (1, 4)]
    ((∀ key, shorter.containsKey key = true → map.containsKey key = true) ∧
        map.root.LeavesShared shorter.root) ∧
      (∀ key, built.containsKey key = true → map.containsKey key = true) ∧
      ¬ map.root.LeavesShared built.root := by
  intro twin map shorter built
  have one : Reachable [⟨Nat, map⟩] := .ofList _ _
  have two : Reachable [⟨Nat, shorter⟩, ⟨Nat, map⟩] :=
    .cons one (by decide) (.erase List.mem_cons_self 32)
  have three : Reachable [⟨Nat, built⟩, ⟨Nat, shorter⟩, ⟨Nat, map⟩] :=
    .cons two (by decide) (.ofList _)
  have keys (key : Nat) (contained : built.containsKey key = true) :
      map.containsKey key = true := by
    have mapKeys : map.keys = [0, twin, 32, 1] := by decide
    have builtKeys : built.keys = [0, 1] := by decide
    rw [(three.sound List.mem_cons_self).containsKey_eq_any, builtKeys] at contained
    rw [(one.sound List.mem_cons_self).containsKey_eq_any, mapKeys]
    revert contained
    simp +contextual [or_imp]
  have inhabited : map.isEmpty = false := by decide
  have fresh : Fresh (.ofNat 2) [⟨Nat, shorter⟩, ⟨Nat, map⟩] := by decide
  have nextFresh : Fresh (.ofNat 3) [⟨Nat, built⟩, ⟨Nat, shorter⟩, ⟨Nat, map⟩] := by decide
  have shorterIff := (merge_sharesRoot_iff two (.tail _ List.mem_cons_self) List.mem_cons_self
    fresh inhabited).1
  have builtIff := (merge_sharesRoot_iff three (.tail _ (.tail _ List.mem_cons_self))
    List.mem_cons_self nextFresh inhabited).1
  refine ⟨shorterIff.mp (by decide), keys, ?_⟩
  intro shared
  have kept := builtIff.mpr ⟨keys, shared⟩
  revert kept
  decide

end HashTrie
