import HashTrie.Proofs.Maps

/-!
# The nodes of a trie

A node of a trie is named by the path of slots that leads to it from the root
(`Trie.nodeAt?`). Operations build nodes, keep nodes where they are, and move leaves up
and down. So a condition on nodes and their paths that holds of the empty node and of all
nodes that an operation builds, and that does not depend on where a leaf stands
(`Lasting`), holds of every node of the result once it holds of every node of the
operands (`AllNodes`). There is one lemma of this kind for each operation.
-/

namespace HashTrie

open Trie (Sharing)

variable {κ ν ω : Type}

namespace Trie

/-- The node to which a path of slots leads from the root of a trie. -/
def nodeAt? : Trie κ ν → List Slot → Option (Trie κ ν)
  | trie, [] => some trie
  | .branch _ bitmap _ children, slot :: path =>
      (childAt bitmap children slot).bind fun child => nodeAt? child path
  | _, _ :: _ => none

/-- Every node of a trie satisfies a condition with its own path, if the root stands at a
given one. -/
def AllNodes (holds : List Slot → Trie κ ν → Prop) (path : List Slot) (trie : Trie κ ν) : Prop :=
  ∀ below node, trie.nodeAt? below = some node → holds (path ++ below) node

/-- A condition on nodes and their paths that an operation with a given stamp cannot
break by building nodes or by moving leaves. -/
structure Lasting (stamp : Stamp) (holds : List Slot → Trie κ ν → Prop) : Prop where
  empty : ∀ path, holds path .empty
  built : ∀ path node, node.rootStamp? = some stamp → holds path node
  moved : ∀ path other node, node.isLeaf = true → holds path node → holds other node

variable {holds : List Slot → Trie κ ν → Prop} {path : List Slot} {stamp old : Stamp}
  {bitmap bitmapAfter : Bitmap} {depth size : Nat} {children childrenAfter : List (Trie κ ν)}
  {trie : Trie κ ν} {slot : Slot} {code : UInt64} {run : Run κ ν}

/-- Below a branch a path goes on from the child in its first slot. -/
theorem nodeAt?_branch {child : Trie κ ν} (found : childAt bitmap children slot = some child)
    (path : List Slot) :
    nodeAt? (.branch old bitmap size children) (slot :: path) = child.nodeAt? path := by
  rw [nodeAt?, found, Option.bind_some]

/-- A path of at least one slot leads into a child of a branch. -/
theorem exists_child_of_nodeAt? {node : Trie κ ν}
    (found : trie.nodeAt? (slot :: path) = some node) :
    ∃ stamp bitmap size children child, trie = .branch stamp bitmap size children ∧
      childAt bitmap children slot = some child ∧ child.nodeAt? path = some node := by
  cases trie with
  | empty => cases found
  | leaf => cases found
  | branch stamp bitmap size children =>
      obtain ⟨child, atSlot, found⟩ := Option.bind_eq_some_iff.mp found
      exact ⟨stamp, bitmap, size, children, child, rfl, atSlot, found⟩

theorem mem_stamps_of_nodeAt? {node : Trie κ ν} (found : trie.nodeAt? path = some node)
    {mark : Stamp} (marked : node.rootStamp? = some mark) : mark ∈ trie.stamps := by
  induction path generalizing trie with
  | nil =>
      obtain rfl : trie = node := Option.some.inj found
      exact mem_stamps_of_rootStamp? marked
  | cons slot path ih =>
      obtain ⟨_, _, _, _, child, rfl, atSlot, found⟩ := exists_child_of_nodeAt? found
      exact List.mem_cons_of_mem _ (mem_stamps_of_child (mem_of_childAt atSlot) (ih found))

theorem AllNodes.root (all : AllNodes holds path trie) : holds path trie := by
  simpa using all [] trie rfl

/-- A node without children is all the nodes there are. -/
theorem allNodes_of_root (childless : ∀ slot below, trie.nodeAt? (slot :: below) = none)
    (here : holds path trie) : AllNodes holds path trie := by
  intro below node found
  cases below with
  | nil =>
      obtain rfl : trie = node := Option.some.inj found
      rwa [List.append_nil]
  | cons slot below =>
      rw [childless] at found
      cases found

theorem AllNodes.child (all : AllNodes holds path (.branch old bitmap size children))
    {child : Trie κ ν} (found : childAt bitmap children slot = some child) :
    AllNodes holds (path ++ [slot]) child := by
  intro below node atBelow
  rw [List.append_assoc]
  exact all (slot :: below) node ((nodeAt?_branch found below).trans atBelow)

namespace Lasting

variable (lasting : Lasting stamp holds)

include lasting

theorem allNodes_empty (path : List Slot) : AllNodes holds path .empty :=
  allNodes_of_root (fun _ _ => rfl) (lasting.empty path)

theorem allNodes_leaf (path : List Slot) (code : UInt64) (run : Run κ ν) :
    AllNodes holds path (.leaf stamp code run) :=
  allNodes_of_root (fun _ _ => rfl) (lasting.built path _ rfl)

/-- A leaf may stand anywhere. -/
theorem allNodes_move (isLeaf : trie.isLeaf = true) (all : AllNodes holds path trie)
    (other : List Slot) : AllNodes holds other trie := by
  cases trie with
  | empty => cases isLeaf
  | leaf => exact allNodes_of_root (fun _ _ => rfl) (lasting.moved path other _ rfl all.root)
  | branch => cases isLeaf

theorem allNodes_branch (all : ∀ slot child, childAt bitmap children slot = some child →
      AllNodes holds (path ++ [slot]) child) :
    AllNodes holds path (.branch stamp bitmap size children) := by
  intro below node found
  cases below with
  | nil =>
      obtain rfl : Trie.branch stamp bitmap size children = node := Option.some.inj found
      exact lasting.built _ _ rfl
  | cons slot below =>
      obtain ⟨child, atSlot, found⟩ := Option.bind_eq_some_iff.mp found
      have here := all slot child atSlot below node found
      rwa [List.append_assoc] at here

/-- A branch with the child of one slot replaced. -/
theorem allNodes_replaced {replacement : Option (Trie κ ν)}
    (replaced : Replaced slot replacement bitmap children bitmapAfter childrenAfter)
    (before : AllNodes holds path (.branch old bitmap size children))
    (after : ∀ child, replacement = some child → AllNodes holds (path ++ [slot]) child)
    (sizeAfter : Nat) :
    AllNodes holds path (.branch stamp bitmapAfter sizeAfter childrenAfter) := by
  refine lasting.allNodes_branch ?_
  intro other child found
  rw [replaced.childAt_eq other] at found
  split at found
  · rename_i same
    subst same
    exact after child found
  · exact before.child found

/-- Two nodes that may stand anywhere, below a chain of new branches. -/
theorem allNodes_join {existing incoming : Trie κ ν}
    (existingAll : ∀ path, AllNodes holds path existing)
    (incomingAll : ∀ path, AllNodes holds path incoming) (pairs : List (Slot × Slot))
    (path : List Slot) : AllNodes holds path (join stamp existing incoming pairs) := by
  induction pairs generalizing path with
  | nil => exact incomingAll path
  | cons pair deeper ih =>
      rw [join]
      split
      · refine lasting.allNodes_branch ?_
        intro slot child found
        obtain rfl := List.mem_singleton.mp (mem_of_childAt found)
        exact ih _
      · refine lasting.allNodes_branch ?_
        intro slot child found
        have either : child = existing ∨ child = incoming := by
          have member := mem_of_childAt found
          split at member <;> simpa [or_comm] using member
        rcases either with rfl | rfl
        · exact existingAll _
        · exact incomingAll _

theorem allNodes_ofRemaining (full : children.length = bitmap.card)
    (all : AllNodes holds path (.branch stamp bitmap size children)) :
    AllNodes holds path (ofRemaining stamp bitmap size children) := by
  match children with
  | [] => exact lasting.allNodes_empty path
  | [survivor] =>
      rw [ofRemaining]
      split
      · rename_i isLeaf
        obtain ⟨slot, found⟩ := (mem_iff_childAt full).mp List.mem_cons_self
        exact lasting.allNodes_move isLeaf (all.child found) path
      · exact all
  | _ :: _ :: _ => exact all

section Operations

variable [BEq κ] [Hashable κ]

theorem allNodes_upsert (sound : WellFormed depth trie) (all : AllNodes holds path trie)
    (key : κ) (code : UInt64) (resolve : Option ν → ν) :
    AllNodes holds path (trie.upsert stamp key code resolve depth).1 := by
  induction sound generalizing path with
  | @leaf depth old leafCode run _ _ _ =>
      by_cases same : leafCode = code
      · rw [same, upsert_leaf_of_eq]
        exact lasting.allNodes_leaf path code _
      · rw [upsert_leaf_of_ne stamp key resolve same]
        exact lasting.allNodes_join (lasting.allNodes_move rfl all)
          (fun path => lasting.allNodes_leaf path code _) _ path
  | @branch depth old bitmap size children _ full _ _ _ _ _ ih =>
      cases found : childAt bitmap children (digit code depth) with
      | none =>
          have free := free_of_childAt full found
          rw [upsert_branch_of_free stamp key resolve free]
          refine lasting.allNodes_replaced (replaced_insertIdx full free _) all ?_ _
          rintro child ⟨⟩
          exact lasting.allNodes_leaf _ code _
      | some child =>
          rw [upsert_branch_of_childAt stamp key resolve full found]
          refine lasting.allNodes_replaced (replaced_set full found _) all ?_ _
          rintro after ⟨⟩
          exact ih child (mem_of_childAt found) (all.child found)

theorem allNodes_erase? (sound : WellFormed depth trie) (all : AllNodes holds path trie)
    {key : κ} {after : Trie κ ν} (erased : trie.erase? stamp key code depth = some after) :
    AllNodes holds path after := by
  induction sound generalizing path after with
  | leaf =>
      rw [erase?] at erased
      split at erased
      · obtain ⟨shorter, _, rfl⟩ := Option.map_eq_some_iff.mp erased
        cases shorter with
        | nil => exact lasting.allNodes_empty path
        | cons => exact lasting.allNodes_leaf path _ _
      · cases erased
  | @branch depth old bitmap size children _ full _ _ _ _ _ ih =>
      cases found : childAt bitmap children (digit code depth) with
      | none =>
          rw [erase?_branch_of_free stamp key full found] at erased
          cases erased
      | some child =>
          rw [erase?_branch_of_childAt stamp key full found] at erased
          obtain ⟨childAfter, erasedChild, rfl⟩ := Option.map_eq_some_iff.mp erased
          have below := ih child (mem_of_childAt found) (all.child found) erasedChild
          split
          · have replaced := replaced_eraseIdx full found
            exact lasting.allNodes_ofRemaining replaced.full
              (lasting.allNodes_replaced replaced all (fun _ none => by cases none) _)
          · split
            · rename_i lastLeaf
              exact lasting.allNodes_move (Bool.and_eq_true _ _ ▸ lastLeaf : _ ∧ _).2 below path
            · refine lasting.allNodes_replaced (replaced_set full found _) all ?_ _
              rintro _ ⟨⟩
              exact below

variable [EquivBEq κ]

theorem allNodes_absorbRun (sound : WellFormed depth trie)
    (under : Under (digit code) depth trie.toList) (all : AllNodes holds path trie)
    (sharing : Sharing) (resolve : ν → ν → ν) (hashed : ∀ entry ∈ run, hash entry.1 = code) :
    AllNodes holds path (absorbRun stamp sharing resolve depth code run trie) := by
  induction run generalizing trie with
  | nil => exact all
  | cons entry run ih =>
      have rest : ∀ other ∈ run, hash other.1 = code :=
        fun other member => hashed other (List.mem_cons_of_mem _ member)
      obtain rfl := hashed entry List.mem_cons_self
      rw [absorbRun_cons]
      split
      · exact ih sound under all rest
      · obtain ⟨soundAfter, written⟩ := upsert_wellFormed stamp
          (Run.settle resolve entry.2) sound under
        exact ih soundAfter (under.of_written written)
          (lasting.allNodes_upsert sound all entry.1 _ _) rest

theorem allNodes_merge (sharing : Sharing) (resolve : ν → ν → ν) {left right : Trie κ ν}
    {digits : Nat → Slot} (sound : WellFormed depth left) (rightSound : WellFormed depth right)
    (under : Under digits depth left.toList) (rightUnder : Under digits depth right.toList)
    (fresh : stamp ∉ left.stamps) (all : AllNodes holds path left)
    (rightAll : AllNodes holds path right) :
    AllNodes holds path (merge stamp sharing resolve depth left right) := by
  refine merge_induction (motive := fun _ left right merged => ∀ path, AllNodes holds path left →
    AllNodes holds path right → AllNodes holds path merged) ?shared ?leftLeaf ?rightLeaf
      ?branches sound rightSound under rightUnder fresh path all rightAll
  case shared =>
    intro depth left right _ _ path all _
    exact all
  case leftLeaf =>
    intro depth old code run right sound rightSound rightUnder path _ rightAll
    exact lasting.allNodes_absorbRun rightSound rightUnder rightAll _ _ sound.hashed
  case rightLeaf =>
    intro depth old bitmap size children rightOld code run sound rightSound under path all _
    exact lasting.allNodes_absorbRun sound under all _ _ rightSound.hashed
  case branches =>
    intro depth old bitmap size children rightOld rightBitmap rightSize rightChildren _ sound
      rightSound _ _ fresh unshared meeting path all rightAll
    have freshBelow : stamp ∉ stampsAll children :=
      fun marked => fresh (List.mem_cons_of_mem _ marked)
    rcases merge_branch_cases sound.placed.full rightSound.placed.full sound.placed.toList_ne_nil
      freshBelow unshared with ⟨unchanged, _⟩ | ⟨childrenAfter, built, _, chosen⟩
    · rwa [unchanged]
    · rw [built]
      refine lasting.allNodes_branch ?_
      intro slot after found
      rw [chosen, mergedAt] at found
      cases atLeft : childAt bitmap children slot with
      | none =>
          rw [atLeft, Option.merge_none_left] at found
          exact rightAll.child found
      | some child =>
          cases atRight : childAt rightBitmap rightChildren slot with
          | none =>
              rw [atRight, Option.merge_none_right] at found
              exact all.child found
          | some other =>
              rw [atLeft, atRight, Option.merge_some_some] at found
              cases found
              exact meeting slot child other atLeft atRight _ (all.child atLeft)
                (rightAll.child atRight)

end Operations

end Lasting

/-- Mapping the values builds every node anew. -/
theorem Lasting.allNodes_mapValues {holds : List Slot → Trie κ ω → Prop}
    (lasting : Lasting stamp holds) (function : ν → ω) (trie : Trie κ ν) (path : List Slot) :
    AllNodes holds path (trie.mapValues stamp function) := by
  intro below node found
  induction below generalizing trie path with
  | nil =>
      obtain rfl : trie.mapValues stamp function = node := Option.some.inj found
      cases trie with
      | empty => exact lasting.empty _
      | leaf => exact lasting.built _ _ rfl
      | branch => exact lasting.built _ _ rfl
  | cons slot below ih =>
      cases trie with
      | empty => cases found
      | leaf => cases found
      | branch old bitmap size children =>
          rw [mapValues, mapValuesAll_eq_map, nodeAt?, childAt_map] at found
          obtain ⟨after, atSlot, found⟩ := Option.bind_eq_some_iff.mp found
          obtain ⟨child, _, rfl⟩ := Option.map_eq_some_iff.mp atSlot
          have here := ih child (path ++ [slot]) found
          rwa [List.append_assoc] at here

end Trie

namespace TrieMap

variable [BEq κ] [Hashable κ] {stamp : Stamp} {holds : List Slot → Trie κ ν → Prop}
  {map other : TrieMap κ ν}

/-- Every node of a map satisfies a condition with its path from the root. -/
def AllNodes (holds : List Slot → Trie κ ν → Prop) (map : TrieMap κ ν) : Prop :=
  map.root.AllNodes holds []

namespace AllNodes

variable (lasting : Trie.Lasting stamp holds)

include lasting

omit [BEq κ] [Hashable κ] in
theorem empty : (TrieMap.empty : TrieMap κ ν).AllNodes holds := lasting.allNodes_empty []

theorem erase (wellFormed : map.WellFormed) (all : map.AllNodes holds) (key : κ) :
    (map.erase stamp key).AllNodes holds := by
  unfold TrieMap.erase
  split
  · rename_i root erased
    rcases wellFormed.root with nothing | sound
    · rw [nothing] at erased
      cases erased
    · exact lasting.allNodes_erase? sound all erased
  · exact all

theorem eraseAll (wellFormed : map.WellFormed) (all : map.AllNodes holds) (keys : List κ) :
    (map.eraseAll stamp keys).AllNodes holds := by
  induction keys generalizing map with
  | nil => exact all
  | cons key keys ih => exact ih (wellFormed.erase key) (erase lasting wellFormed all key)

theorem insert (wellFormed : map.WellFormed) (all : map.AllNodes holds) (key : κ) (value : ν) :
    (map.insert stamp key value).AllNodes holds := by
  change (map.root.upsert stamp key (hash key) (fun _ => value) 0).1.AllNodes holds []
  rcases wellFormed.root with nothing | sound
  · rw [nothing]
    exact lasting.allNodes_leaf [] _ _
  · exact lasting.allNodes_upsert sound all key _ _

theorem replace [BEq ν] (wellFormed : map.WellFormed) (all : map.AllNodes holds)
    (current replacement : κ × ν) : (map.replace stamp current replacement).AllNodes holds := by
  unfold TrieMap.replace
  split
  · exact insert lasting (wellFormed.erase current.1) (erase lasting wellFormed all current.1) _ _
  · exact all

variable [EquivBEq κ]

theorem insertMany (wellFormed : map.WellFormed) (all : map.AllNodes holds)
    (entries : List (κ × ν)) : (map.insertMany stamp entries).AllNodes holds := by
  induction entries generalizing map with
  | nil => exact all
  | cons entry entries ih =>
      exact ih (wellFormed.insert entry.1 entry.2) (insert lasting wellFormed all entry.1 entry.2)

theorem update? (wellFormed : map.WellFormed) (all : map.AllNodes holds) {key : κ}
    {function : ν → ν} {after : TrieMap κ ν}
    (updated : map.update? stamp key function = some after) : after.AllNodes holds := by
  rw [wellFormed.update?_eq, Option.map_eq_some_iff] at updated
  obtain ⟨entry, -, rfl⟩ := updated
  exact insert lasting wellFormed all entry.1 (function entry.2)

theorem alter (wellFormed : map.WellFormed) (all : map.AllNodes holds) (key : κ)
    (updater : Option ν → Option ν) : (map.alter stamp key updater).AllNodes holds := by
  rw [wellFormed.alter_eq]
  split
  · exact insert lasting wellFormed all _ _
  · exact erase lasting wellFormed all key
  · exact insert lasting wellFormed all _ _
  · exact all

theorem merge_root (wellFormed : map.WellFormed) (otherWellFormed : other.WellFormed)
    (fresh : stamp ∉ map.root.stamps) (all : map.AllNodes holds) (otherAll : other.AllNodes holds)
    (sharing : Sharing) (resolve : ν → ν → ν) :
    (map.root.merge stamp sharing resolve 0 other.root).AllNodes holds [] := by
  rcases wellFormed.root with nothing | sound
  · rw [nothing, Trie.merge]
    exact otherAll
  · rcases otherWellFormed.root with otherNothing | otherSound
    · rw [otherNothing, Trie.merge_empty_right]
      exact all
    · exact lasting.allNodes_merge sharing resolve sound otherSound (.root _) (.root _) fresh all
        otherAll

theorem merge (wellFormed : map.WellFormed) (otherWellFormed : other.WellFormed)
    (fresh : stamp ∉ map.root.stamps) (all : map.AllNodes holds)
    (otherAll : other.AllNodes holds) : (map.merge stamp other).AllNodes holds := by
  unfold TrieMap.merge
  split
  · exact otherAll
  · exact merge_root lasting wellFormed otherWellFormed fresh all otherAll _ _

end AllNodes

end TrieMap

end HashTrie
