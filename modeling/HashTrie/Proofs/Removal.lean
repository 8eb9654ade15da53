import HashTrie.Proofs.CanonicalForm
import HashTrie.Traversal.Selection

/-!
# Removal

Taking out a key rebuilds the nodes on one path and lets branches give way to their last
leaf. What comes of it has the entries with other keys in the order of the iteration
(`WellFormed.toList_erase`), and by canonical form that is the trie which these entries
build by themselves. Removing any keys is therefore rebuilding without them, in whatever
order and however often they are named (`eraseAll_agrees_rebuilding`), and removal unwinds
the insertion of a new key, chain of branches included (`erase_undoes_insert`).
-/

namespace HashTrie

variable {κ ν : Type} [BEq κ]

namespace Trie

variable {stamp : Stamp} {key : κ} {code : UInt64} {depth : Nat} {after : Trie κ ν}

omit [BEq κ] in
/-- What takes the place of a branch with one slot cleared is no branch or a new one. -/
theorem new_ofRemaining (stamp : Stamp) (bitmap : Bitmap) (size : Nat)
    (children : List (Trie κ ν)) :
    (ofRemaining stamp bitmap size children).isEmpty = true ∨
      (ofRemaining stamp bitmap size children).isLeaf = true ∨
      (ofRemaining stamp bitmap size children).rootStamp? = some stamp := by
  match children with
  | [] => exact .inl rfl
  | [survivor] =>
      rw [ofRemaining]
      split
      · rename_i isLeaf
        exact .inr (.inl isLeaf)
      · exact .inr (.inr rfl)
  | _ :: _ :: _ => exact .inr (.inr rfl)

/-- Taking out below a branch gives no branch or a new one. -/
theorem new_of_erase?_branch {old : Stamp} {bitmap : Bitmap} {size : Nat}
    {children : List (Trie κ ν)}
    (erased : erase? stamp key code depth (.branch old bitmap size children) = some after) :
    after.isEmpty = true ∨ after.isLeaf = true ∨ after.rootStamp? = some stamp := by
  rw [erase?] at erased
  split at erased
  · obtain ⟨child, -, rfl⟩ := Option.map_eq_some_iff.mp erased
    split
    · exact new_ofRemaining ..
    · split
      · rename_i lastLeaf
        exact .inr (.inl (Bool.and_eq_true_iff.mp lastLeaf).2)
      · exact .inr (.inr rfl)
  · cases erased

/-- A node from which a key was taken out does not pass for the node before. -/
theorem same_of_erase? {trie : Trie κ ν} (new : stamp ∉ trie.stamps)
    (erased : trie.erase? stamp key code depth = some after) : after.same trie = false := by
  by_contra passes
  rw [Bool.not_eq_false] at passes
  have roots := rootStamp?_eq_of_same passes
  cases trie with
  | empty => cases erased
  | leaf old leafCode run =>
      rw [erase?] at erased
      split at erased
      · obtain ⟨shorter, -, rfl⟩ := Option.map_eq_some_iff.mp erased
        cases shorter with
        | nil => cases passes
        | cons => exact new (mem_stamps_of_rootStamp? roots.symm)
      · cases erased
  | branch old bitmap size children =>
      rcases new_of_erase?_branch erased with nothing | isLeaf | built
      · cases after with
        | empty => cases passes
        | leaf => cases nothing
        | branch => cases nothing
      · rw [isLeaf_eq_of_same passes] at isLeaf
        cases isLeaf
      · exact new (mem_stamps_of_rootStamp? (roots.symm.trans built))

end Trie

variable [Hashable κ] [EquivBEq κ] {map : TrieMap κ ν} {key : κ}

namespace TrieMap.WellFormed

section Rebuilding

variable [LawfulHashable κ]

/-- Taking out a key leaves the entries with other keys, in their order. -/
theorem toList_erase (wellFormed : map.WellFormed) (stamp : Stamp) (key : κ) :
    (map.erase stamp key).toList = map.toList.filter fun entry => !entry.1 == key := by
  apply eq_of_inDigitOrder (wellFormed.erase key).inDigitOrder
    (wellFormed.inDigitOrder.sublist List.filter_sublist)
  intro code
  rw [wellFormed.runOf_erase, runOf_filter]

/-- Taking out keys leaves the entries with none of them, in their order. -/
theorem toList_eraseAll (wellFormed : map.WellFormed) (stamp : Stamp) (keys : List κ) :
    (map.eraseAll stamp keys).toList =
      map.toList.filter fun entry => !keys.contains entry.1 := by
  induction keys generalizing map with
  | nil => exact (List.filter_eq_self.mpr fun _ _ => rfl).symm
  | cons key keys ih =>
      have stepped : map.eraseAll stamp (key :: keys) =
          (map.erase stamp key).eraseAll stamp keys := rfl
      rw [stepped, ih (wellFormed.erase key), wellFormed.toList_erase, List.filter_filter]
      congr 1
      funext entry
      rw [List.contains_cons, Bool.not_or, Bool.and_comm]

end Rebuilding

/-- Taking out a new key after its insertion leaves every run as it was. -/
theorem runOf_erase_insert (wellFormed : map.WellFormed) (missing : map.containsKey key = false)
    (stamp mark : Stamp) (value : ν) (code : UInt64) :
    runOf code ((map.insert stamp key value).erase mark key).toList = runOf code map.toList := by
  have absent : map.getEntry? key = none := by simpa [containsKey] using missing
  have written := wellFormed.insert_written stamp key value
  have inserted : (map.insert stamp key value).WellFormed := wellFormed.insert key value
  have found : getEntry? (map.insert stamp key value) key = some (key, value) := by
    rw [inserted.getEntry?_eq_find?, written.run, Run.find?_upsert, if_pos BEq.rfl]
  have erased := (inserted.erased_of_found mark found).2
  by_cases same : code = hash key
  · subst same
    have unwound := erased.run
    rw [wellFormed.getEntry?_eq_find?] at absent
    rw [written.run, Run.erase?_upsert_of_new (Run.find?_eq_none_iff.mp absent)] at unwound
    exact (Option.some.inj unwound).symm
  · rw [erased.others code same, written.others code same]

/-- Taking out a new key after its insertion gives the map back. -/
theorem replica_erase_insert (wellFormed : map.WellFormed)
    (missing : map.containsKey key = false) (stamp mark : Stamp) (value : ν) :
    ((map.insert stamp key value).erase mark key).Replica map := by
  have sound : ((map.insert stamp key value).erase mark key).WellFormed :=
    (wellFormed.insert key value).erase key
  exact sound.replica wellFormed (eq_of_inDigitOrder sound.inDigitOrder wellFormed.inDigitOrder
    (wellFormed.runOf_erase_insert missing stamp mark value))

omit [EquivBEq κ] in
/-- A map keeps its root exactly if the key that is to be taken out is not there. -/
theorem sharesRoot_erase_iff (wellFormed : map.WellFormed) {stamp : Stamp}
    (new : stamp ∉ map.root.stamps) (key : κ) :
    (map.erase stamp key).sharesRoot map = true ↔ map.containsKey key = false := by
  constructor
  · intro shared
    cases taken : map.root.erase? stamp key (hash key) 0 with
    | none =>
        rw [containsKey, getEntry?, (Trie.erase?_eq_none_iff_lookup 0 map.root).mp taken]
        rfl
    | some root =>
        rw [erase, taken, sharesRoot, Trie.same_of_erase? new taken] at shared
        cases shared
  · intro missing
    have absent : map.getEntry? key = none := by simpa [containsKey] using missing
    rw [wellFormed.erase_of_missing absent]
    exact Trie.same_self map.root

end TrieMap.WellFormed

variable {pool : Pool κ}

/-- **Removal agrees with rebuilding.** Whatever the history of a map, removing some keys
leaves its iteration without the entries of these keys, and the map is a replica of the one
that is collected from these entries. So neither the order nor the repetitions of the keys
count, and nothing but the empty node is left exactly if all keys of the map are named. -/
theorem eraseAll_agrees_rebuilding [LawfulHashable κ] (reachable : Reachable pool)
    (held : ⟨ν, map⟩ ∈ pool) (stamp : Stamp) (keys : List κ) :
    (map.eraseAll stamp keys).cursor.rest =
        map.cursor.rest.filter (fun entry => !keys.contains entry.1) ∧
      (∀ mark, (map.eraseAll stamp keys).Replica
        (Traversal.filterNot mark map fun entry => keys.contains entry.1)) ∧
      (∀ (mark : Stamp) (others : List κ), (∀ key, others.contains key = keys.contains key) →
        (map.eraseAll mark others).Replica (map.eraseAll stamp keys)) ∧
      (map.eraseAll stamp keys = .empty ↔ ∀ key ∈ map.keys, keys.contains key = true) := by
  have wellFormed := reachable.sound held
  have sound : (map.eraseAll stamp keys).WellFormed := wellFormed.eraseAll keys
  have listed := wellFormed.toList_eraseAll stamp keys
  refine ⟨?_, ?_, ?_, ?_⟩
  · rw [TrieMap.rest_cursor, TrieMap.rest_cursor, listed]
  · intro mark
    refine sound.replica (TrieMap.wellFormed_ofList mark _) (listed.trans ?_)
    exact (wellFormed.toList_ofList_sublist mark List.filter_sublist).symm
  · intro mark others same
    refine (wellFormed.eraseAll others).replica sound ?_
    rw [wellFormed.toList_eraseAll, listed]
    simp only [same]
  · rw [sound.eq_empty_iff, listed, List.filter_eq_nil_iff, TrieMap.keys]
    simp

omit [BEq κ] [Hashable κ] [EquivBEq κ] in
/-- The keys 0 and 2^64 have one hash, 32 differs from it in the second digit and 1 in the
first. Without 32 and 2^64 the leaf of 0 comes up from the second branch. -/
theorem eraseAll_agrees_rebuilding_of_collisions :
    let twin := 0x10000000000000000
    let map : TrieMap Nat Nat := .ofList (.ofNat 0) [(0, 1), (32, 2), (twin, 3), (1, 4)]
    let keys := [32, 5, twin, 32]
    (map.eraseAll (.ofNat 1) keys).Replica
        (Traversal.filterNot (.ofNat 2) map fun entry => keys.contains entry.1) ∧
      (map.eraseAll (.ofNat 3) [twin, 32, 5]).Replica (map.eraseAll (.ofNat 1) keys) ∧
      (map.eraseAll (.ofNat 1) keys).toList = [(0, 1), (1, 4)] ∧
      map.eraseAll (.ofNat 1) [twin, 0, 1, 32] = .empty := by
  intro twin map keys
  have reachable : Reachable [⟨Nat, map⟩] := .ofList _ _
  have agrees := eraseAll_agrees_rebuilding reachable List.mem_cons_self (.ofNat 1) keys
  refine ⟨agrees.2.1 _, agrees.2.2.1 _ _ ?_, by decide, ?_⟩
  · intro key
    simp [keys, Bool.or_comm, Bool.or_left_comm, Bool.or_assoc]
  · exact (eraseAll_agrees_rebuilding reachable List.mem_cons_self _ _).2.2.2.mpr (by decide)

/-- **Removal undoes insertion.** Whatever the history of a map, inserting a key that it does
not have and removing it again gives a replica of the map. Removing a key gives back the root
of the map exactly if the map does not have the key: at any node, nothing is taken out exactly
if the search for the key finds nothing there. -/
theorem erase_undoes_insert (reachable : Reachable pool) (held : ⟨ν, map⟩ ∈ pool) :
    (∀ (key : κ) (value : ν) (stamp mark : Stamp), map.containsKey key = false →
        ((map.insert stamp key value).erase mark key).Replica map) ∧
      (∀ (key : κ) (stamp : Stamp), Fresh stamp pool →
        ((map.erase stamp key).sharesRoot map = true ↔ map.containsKey key = false)) ∧
      ∀ (stamp : Stamp) (key : κ) (code : UInt64) (depth : Nat) (trie : Trie κ ν),
        trie.erase? stamp key code depth = none ↔ trie.lookup key code depth = none := by
  have wellFormed := reachable.sound held
  refine ⟨?_, ?_, ?_⟩
  · intro key value stamp mark missing
    exact wellFormed.replica_erase_insert missing stamp mark value
  · intro key stamp fresh
    exact wellFormed.sharesRoot_erase_iff (fresh _ held) key
  · intro stamp key code depth trie
    exact Trie.erase?_eq_none_iff_lookup depth trie

omit [BEq κ] [Hashable κ] [EquivBEq κ] in
/-- The key 2^60 differs from 0 in the last digit only, so inserting it builds a chain of
branches down to the last level, beside the leaf of 1; the key 2^64 joins the run of 0. -/
theorem erase_undoes_insert_of_collisions :
    let map : TrieMap Nat Nat := .ofList (.ofNat 0) [(0, 1), (1, 2)]
    let far := 0x1000000000000000
    let twin := 0x10000000000000000
    ((map.insert (.ofNat 1) far 3).erase (.ofNat 2) far).Replica map ∧
      ((map.insert (.ofNat 1) twin 3).erase (.ofNat 2) twin).Replica map ∧
      (map.insert (.ofNat 1) far 3).toList = [(0, 1), (far, 3), (1, 2)] ∧
      (map.erase (.ofNat 1) far).sharesRoot map = true ∧
      (map.erase (.ofNat 1) 1).sharesRoot map = false := by
  intro map far twin
  have reachable : Reachable [⟨Nat, map⟩] := .ofList _ _
  have undoes := erase_undoes_insert reachable List.mem_cons_self
  have fresh : Fresh (.ofNat 1) [⟨Nat, map⟩] := by decide
  refine ⟨undoes.1 far 3 _ _ (by decide), undoes.1 twin 3 _ _ (by decide), by decide,
    (undoes.2.1 far _ fresh).mpr (by decide), ?_⟩
  rw [← Bool.not_eq_true, undoes.2.1 1 _ fresh]
  decide

end HashTrie
