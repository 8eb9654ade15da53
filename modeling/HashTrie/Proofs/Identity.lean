import HashTrie.Proofs.Nodes
import HashTrie.Proofs.Reachable
import HashTrie.Proofs.Shapes

/-!
# The identity of nodes

Two nodes count as the same if their stamps say so (`Trie.same`), and a program may rely
on that only if nodes that count as the same are equal. They are, in the maps that a
program holds at a time: wherever two held maps have nodes that count as the same, at one
place of the two tries or as leaves at any places, these nodes are equal
(`Reachable.coherent`). The reason is that an operation has a stamp of its own, so each
node of its result bears the new stamp or is a node of an operand
(`Makes.allNodes_newOrOld`); and of the nodes with the new stamp no two meet, since a branch
stays where it was built and a hash has only one leaf in a trie.
-/

namespace HashTrie

variable {κ ν : Type}

namespace Trie

/-- Nodes of two tries that count as the same are equal: branches at one place, leaves
anywhere. -/
def Coherent (first second : Trie κ ν) : Prop :=
  ∀ path otherPath node other, first.nodeAt? path = some node →
    second.nodeAt? otherPath = some other → path = otherPath ∨ node.isLeaf = true →
      node.same other = true → node = other

namespace Coherent

variable {first second : Trie κ ν}

theorem symm (coherent : Coherent first second) : Coherent second first := by
  intro path otherPath node other found otherFound meet passes
  rw [same_comm] at passes
  rw [← isLeaf_eq_of_same passes] at meet
  exact (coherent otherPath path other node otherFound found (meet.imp_left Eq.symm) passes).symm

/-- Tries whose roots count as the same are equal. -/
theorem eq_of_same (coherent : Coherent first second) (passes : first.same second = true) :
    first = second :=
  coherent [] [] first second rfl rfl (.inl rfl) passes

theorem child {stamp other : Stamp} {bitmap otherBitmap : Bitmap} {size otherSize : Nat}
    {children others : List (Trie κ ν)} {slot : Slot} {node counterpart : Trie κ ν}
    (coherent : Coherent (.branch stamp bitmap size children)
      (.branch other otherBitmap otherSize others))
    (found : childAt bitmap children slot = some node)
    (meets : childAt otherBitmap others slot = some counterpart) : Coherent node counterpart := by
  intro path otherPath below otherBelow atPath atOther meet
  exact coherent (slot :: path) (slot :: otherPath) below otherBelow
    ((nodeAt?_branch found path).trans atPath) ((nodeAt?_branch meets otherPath).trans atOther)
    (meet.imp_left (congrArg (slot :: ·)))

end Coherent

section Leaves

variable [BEq κ] [Hashable κ] {depth : Nat} {trie : Trie κ ν} {path : List Slot}

theorem WellFormed.nodeAt? {node : Trie κ ν} (wellFormed : WellFormed depth trie)
    (found : trie.nodeAt? path = some node) : WellFormed (depth + path.length) node := by
  induction path generalizing depth trie with
  | nil => exact Option.some.inj found ▸ wellFormed
  | cons slot path ih =>
      obtain ⟨_, _, _, _, child, rfl, atSlot, found⟩ := exists_child_of_nodeAt? found
      have below := ih (wellFormed.placed.sound slot child atSlot) found
      rwa [Nat.add_assoc, Nat.add_comm 1] at below

/-- A hash has only one leaf in a trie, and the leaf has its whole run. -/
theorem WellFormed.runOf_of_nodeAt? {stamp : Stamp} {code : UInt64} {run : Run κ ν}
    (wellFormed : WellFormed depth trie) (found : trie.nodeAt? path = some (.leaf stamp code run)) :
    runOf code trie.toList = run := by
  induction path generalizing depth trie with
  | nil =>
      obtain rfl : trie = .leaf stamp code run := Option.some.inj found
      exact runOf_eq_self wellFormed.hashed
  | cons slot path ih =>
      obtain ⟨_, _, _, _, child, rfl, atSlot, found⟩ := exists_child_of_nodeAt? found
      have placed := wellFormed.placed
      have sound := placed.sound slot child atSlot
      have inhabited : run ≠ [] := (sound.nodeAt? found).toList_ne_nil
      have inChild := placed.runOf_child atSlot code
      rw [ih sound found] at inChild
      split at inChild
      · exact inChild.symm
      · exact absurd inChild inhabited

/-- The hash of a leaf below a child names the slot of the child. -/
theorem Placed.digit_of_nodeAt? {bitmap : Bitmap} {children : List (Trie κ ν)} {old : Stamp}
    {code : UInt64} {run : Run κ ν} (placed : Placed depth bitmap children) {slot : Slot}
    {child : Trie κ ν} {path : List Slot} (atSlot : childAt bitmap children slot = some child)
    (found : child.nodeAt? path = some (.leaf old code run)) : digit code depth = slot := by
  have sound := placed.sound slot child atSlot
  have inhabited : run ≠ [] := (sound.nodeAt? found).toList_ne_nil
  obtain ⟨entry, member⟩ := List.exists_mem_of_ne_nil run inhabited
  rw [← sound.runOf_of_nodeAt? found] at member
  obtain ⟨inChild, rfl⟩ := mem_runOf.mp member
  exact placed.routed slot entry (mem_entriesAt.mpr ⟨child, atSlot, inChild⟩)

/-- A stamp that a trie bears is the stamp of one of its nodes. -/
theorem WellFormed.exists_node_of_mem_stamps (wellFormed : WellFormed depth trie) {mark : Stamp}
    (marked : mark ∈ trie.stamps) :
    ∃ path node, trie.nodeAt? path = some node ∧ node.rootStamp? = some mark := by
  induction wellFormed with
  | leaf =>
      obtain rfl := List.mem_singleton.mp marked
      exact ⟨[], _, rfl, rfl⟩
  | @branch depth stamp bitmap size children _ full _ _ _ _ _ ih =>
      rcases List.mem_cons.mp marked with rfl | marked
      · exact ⟨[], _, rfl, rfl⟩
      · obtain ⟨child, member, marked⟩ := exists_child_of_mem_stampsAll marked
        obtain ⟨path, node, found, marks⟩ := ih child member marked
        obtain ⟨slot, atSlot⟩ := (mem_iff_childAt full).mp member
        exact ⟨slot :: path, node, (nodeAt?_branch atSlot path).trans found, marks⟩

/-- Within one trie, nodes that count as the same are equal. -/
theorem WellFormed.coherent (wellFormed : WellFormed depth trie) : Coherent trie trie := by
  intro path otherPath node other found otherFound meet passes
  rcases meet with rfl | isLeaf
  · exact Option.some.inj (found.symm.trans otherFound)
  · cases node with
    | empty => cases isLeaf
    | branch => cases isLeaf
    | leaf stamp code run =>
        cases other with
        | empty => cases passes
        | branch => cases passes
        | leaf otherStamp otherCode otherRun =>
            obtain ⟨rfl, rfl⟩ : stamp = otherStamp ∧ code = otherCode := by
              simpa [same] using passes
            rw [← wellFormed.runOf_of_nodeAt? found, ← wellFormed.runOf_of_nodeAt? otherFound]

end Leaves

end Trie

theorem TrieMap.WellFormed.coherent [BEq κ] [Hashable κ] {map : TrieMap κ ν}
    (wellFormed : map.WellFormed) : map.root.Coherent map.root := by
  rcases wellFormed.root with nothing | sound
  · rw [nothing]
    intro path otherPath node other found otherFound _ _
    cases path with
    | nil =>
        cases otherPath with
        | nil => exact Option.some.inj (found.symm.trans otherFound)
        | cons => cases otherFound
    | cons => cases found
  · exact sound.coherent

variable [BEq κ] [Hashable κ] [EquivBEq κ] {pool : Pool κ} {stamp : Stamp}

/-- What holds of every node of the held maps, and cannot be broken by the operation,
holds of every node of a map that it makes. -/
theorem Makes.allNodes {map : TrieMap κ ν} (made : Makes pool stamp map)
    (fresh : Fresh stamp pool)
    (sound : ∀ {ν : Type} {map : TrieMap κ ν}, ⟨ν, map⟩ ∈ pool → map.WellFormed)
    {holds : List Slot → Trie κ ν → Prop} (lasting : Trie.Lasting stamp holds)
    (all : ∀ {map : TrieMap κ ν}, ⟨ν, map⟩ ∈ pool → map.AllNodes holds) : map.AllNodes holds := by
  cases made with
  | empty => exact .empty lasting
  | singleton key value => exact .insert lasting TrieMap.wellFormed_empty (.empty lasting) key value
  | ofList entries => exact .insertMany lasting TrieMap.wellFormed_empty (.empty lasting) entries
  | insert held key value => exact .insert lasting (sound held) (all held) key value
  | insertEntry held entry => exact .insert lasting (sound held) (all held) entry.1 entry.2
  | erase held key => exact .erase lasting (sound held) (all held) key
  | eraseAll held keys => exact .eraseAll lasting (sound held) (all held) keys
  | update held key function updated => exact .update? lasting (sound held) (all held) updated
  | alter held key updater => exact .alter lasting (sound held) (all held) key updater
  | replace held current replacement =>
      exact .replace lasting (sound held) (all held) current replacement
  | merge held otherHeld =>
      exact .merge lasting (sound held) (sound otherHeld) (fresh _ held) (all held) (all otherHeld)
  | mergeWith held otherHeld resolve =>
      exact .merge_root lasting (sound held) (sound otherHeld) (fresh _ held) (all held)
        (all otherHeld) _ resolve
  | mapValues held function => exact lasting.allNodes_mapValues function _ []
  | keySet held => exact lasting.allNodes_mapValues _ _ []

/-- A node is the empty one, bears a new stamp, or is a node of a held map: at the same
place, unless it is a leaf. -/
def NewOrOld (pool : Pool κ) (stamp : Stamp) (path : List Slot) (node : Trie κ ν) : Prop :=
  node = .empty ∨ node.rootStamp? = some stamp ∨
    ∃ held : TrieMap κ ν, ⟨ν, held⟩ ∈ pool ∧ ∃ origin,
      held.root.nodeAt? origin = some node ∧ (origin = path ∨ node.isLeaf = true)

omit [BEq κ] [Hashable κ] [EquivBEq κ] in
theorem lasting_newOrOld (pool : Pool κ) (stamp : Stamp) :
    Trie.Lasting stamp (NewOrOld (ν := ν) pool stamp) := by
  refine ⟨fun _ => .inl rfl, fun _ _ built => .inr (.inl built), ?_⟩
  intro path other node isLeaf origin
  refine origin.imp_right (Or.imp_right ?_)
  rintro ⟨held, inPool, origin, atOrigin, _⟩
  exact ⟨held, inPool, origin, atOrigin, .inr isLeaf⟩

/-- **Every node is new or old.** An operation builds the nodes of its result or takes them
from the maps that are held. -/
theorem Makes.allNodes_newOrOld {map : TrieMap κ ν} (made : Makes pool stamp map)
    (reachable : Reachable pool) (fresh : Fresh stamp pool) :
    map.AllNodes (NewOrOld pool stamp) := by
  refine made.allNodes fresh reachable.sound (lasting_newOrOld pool stamp) ?_
  intro held inPool path node found
  exact .inr (.inr ⟨held, inPool, path, found, .inl rfl⟩)

/-- A stamp that is new to the held maps, and not the stamp of the operation, is new to the
map that it makes. -/
theorem Makes.fresh_cons {map : TrieMap κ ν} (made : Makes pool stamp map)
    (reachable : Reachable pool) (fresh : Fresh stamp pool) {mark : Stamp}
    (markFresh : Fresh mark pool) (different : mark ≠ stamp) : Fresh mark (⟨ν, map⟩ :: pool) := by
  intro held inPool
  rcases List.mem_cons.mp inPool with rfl | inPool
  · intro marked
    rcases (made.wellFormed fresh reachable.sound).root with nothing | sound
    · rw [nothing] at marked
      cases marked
    · obtain ⟨path, node, found, marks⟩ := sound.exists_node_of_mem_stamps marked
      rcases made.allNodes_newOrOld reachable fresh path node found with rfl | built | origin
      · cases marks
      · exact different (Option.some.inj (marks.symm.trans built))
      · obtain ⟨source, sourceHeld, origin, atOrigin, -⟩ := origin
        exact markFresh _ sourceHeld (Trie.mem_stamps_of_nodeAt? atOrigin marks)
  · exact markFresh held inPool

/-- **Nodes are what their stamps say.** Wherever two maps that a program holds have nodes
that count as the same, these nodes are equal. -/
theorem Reachable.coherent (reachable : Reachable pool) {first second : TrieMap κ ν}
    (held : ⟨ν, first⟩ ∈ pool) (otherHeld : ⟨ν, second⟩ ∈ pool) :
    first.root.Coherent second.root := by
  induction reachable generalizing ν with
  | nil => cases held
  | @cons pool stamp _ map reachable fresh made ih =>
      -- of a new and an old map, the new one may be taken to come first
      have newOld {ν : Type} {map old : TrieMap κ ν} (made : Makes pool stamp map)
          (inPool : ⟨ν, old⟩ ∈ pool) : map.root.Coherent old.root := by
        intro path otherPath node other found otherFound meet passes
        rcases made.allNodes_newOrOld reachable fresh path node found with rfl | built | origin
        · cases other with
          | empty => rfl
          | leaf => cases passes
          | branch => cases passes
        · have marked := (Trie.rootStamp?_eq_of_same passes).symm.trans built
          exact absurd (Trie.mem_stamps_of_nodeAt? otherFound marked) (fresh _ inPool)
        · obtain ⟨source, sourceHeld, origin, atOrigin, stays⟩ := origin
          refine ih sourceHeld inPool origin otherPath node other atOrigin otherFound ?_ passes
          rcases stays with rfl | isLeaf
          · exact meet
          · exact .inr isLeaf
      cases held with
      | head =>
          cases otherHeld with
          | head => exact (made.wellFormed fresh reachable.sound).coherent
          | tail _ otherHeld => exact newOld made otherHeld
      | tail _ held =>
          cases otherHeld with
          | head => exact (newOld made held).symm
          | tail _ otherHeld => exact ih held otherHeld

end HashTrie
