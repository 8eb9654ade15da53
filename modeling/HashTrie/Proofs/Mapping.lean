import HashTrie.Proofs.CanonicalForm
import HashTrie.Traversal.Rebuild

/-!
# Mapped values

The values of a map can be mapped in two ways: node by node, which keeps the shape of the
trie and hashes no key again, or by collecting the mapped entries one after another. The
iteration of the first result is the mapped iteration (`Trie.toList_mapValues`), which is
what the second way collects, so both come to the same trie (`mapValues_agrees_rebuilding`).
The set of the keys is the case of a function that forgets the values.
-/

namespace HashTrie

variable {κ ν ω : Type}

theorem runOf_map_values [Hashable κ] (function : ν → ω) (entries : List (κ × ν)) (code : UInt64) :
    runOf code (entries.map fun entry => (entry.1, function entry.2)) =
      (runOf code entries).map fun entry => (entry.1, function entry.2) :=
  List.filter_map ..

variable [BEq κ] [Hashable κ] {map : TrieMap κ ν}

namespace TrieMap

omit [BEq κ] [Hashable κ] in
theorem toList_mapValues (map : TrieMap κ ν) (stamp : Stamp) (function : ν → ω) :
    (map.mapValues stamp function).toList =
      map.toList.map fun entry => (entry.1, function entry.2) :=
  Trie.toList_mapValues stamp function map.root

/-- Mapping the values keeps the shape of the trie and the keys in their places. -/
theorem WellFormed.alike_mapValues (wellFormed : map.WellFormed) (stamp : Stamp)
    (function : ν → ω) :
    map.root.Alike (fun run mapped => mapped = run.map fun entry => (entry.1, function entry.2))
      (map.mapValues stamp function).root := by
  refine wellFormed.alike rfl ?_ (wellFormed.mapValues function) ?_
  · intro run mapped same
    rw [same, List.length_map]
  · intro code
    rw [toList_mapValues, runOf_map_values]

variable [EquivBEq κ]

/-- Collecting the mapped entries makes a replica of the map whose values were mapped node
by node. -/
theorem WellFormed.replica_mapValues (wellFormed : map.WellFormed) (stamp mark : Stamp)
    (function : ν → ω) :
    (ofList mark (map.toList.map fun entry => (entry.1, function entry.2))).Replica
      (map.mapValues stamp function) := by
  rw [← toList_mapValues map stamp]
  exact (wellFormed.mapValues function).replica_ofList mark

end TrieMap

variable [EquivBEq κ]

/-- **Mapping in place agrees with rebuilding.** Whatever the history of a map, mapping its
values node by node and collecting the mapped entries give replicas of one another, and they
are iterated as the map is, with the function applied to each value; the first way also
leaves every key in its place. In the same way the set of the keys, made node by node, is a
replica of the set that is collected from the keys. -/
theorem mapValues_agrees_rebuilding {pool : Pool κ} (reachable : Reachable pool)
    (held : ⟨ν, map⟩ ∈ pool) (stamp mark : Stamp) (function : ν → ω) :
    ((Traversal.mapValues mark map function : TrieMap κ ω).Replica
          (map.mapValues stamp function) ∧
        (map.mapValues stamp function).cursor.rest =
          map.cursor.rest.map (fun entry => (entry.1, function entry.2)) ∧
        map.root.Alike
          (fun run mapped => mapped = run.map fun entry => (entry.1, function entry.2))
          (map.mapValues stamp function).root) ∧
      (TrieSet.ofList mark map.keys).map.Replica (map.keySet stamp).map ∧
        (map.keySet stamp).cursor.rest.map Prod.fst = map.cursor.rest.map Prod.fst := by
  have wellFormed := reachable.sound held
  have iterated {ω : Type} (function : ν → ω) : (map.mapValues stamp function).cursor.rest =
      map.cursor.rest.map fun entry => (entry.1, function entry.2) := by
    rw [TrieMap.rest_cursor, TrieMap.rest_cursor, TrieMap.toList_mapValues]
  refine ⟨⟨wellFormed.replica_mapValues stamp mark function, iterated function,
    wellFormed.alike_mapValues stamp function⟩, ?_, ?_⟩
  · have elements : map.keys.map (fun key => (key, ())) =
        map.toList.map fun entry => (entry.1, ()) := List.map_map
    rw [TrieSet.ofList, elements]
    exact wellFormed.replica_mapValues stamp mark fun _ => ()
  · have keys := congrArg (List.map Prod.fst) (iterated fun _ => ())
    rw [List.map_map] at keys
    exact keys

omit [BEq κ] [Hashable κ] [EquivBEq κ] in
/-- The keys 0 and 2^64 have one hash, and 32 differs from it in the second digit. The map was
merged and cut back, so its run stands in the order of the merge, which both ways keep. -/
theorem mapValues_agrees_rebuilding_of_collisions :
    let twin := 0x10000000000000000
    let first : TrieMap Nat Nat := .ofList (.ofNat 0) [(32, 4), (twin, 5)]
    let second : TrieMap Nat Nat := .ofList (.ofNat 1) [(1, 6), (0, 7)]
    let merged := second.merge (.ofNat 2) first
    let map := merged.erase (.ofNat 3) 1
    (Traversal.mapValues (.ofNat 5) map (· + 1) : TrieMap Nat Nat).Replica
        (map.mapValues (.ofNat 4) (· + 1)) ∧
      (map.mapValues (.ofNat 4) (· + 1)).toList = [(twin, 6), (0, 8), (32, 5)] ∧
      (TrieSet.ofList (.ofNat 5) map.keys).map.Replica (map.keySet (.ofNat 4)).map := by
  intro twin first second merged map
  have one : Reachable [⟨Nat, first⟩] := .ofList _ _
  have two : Reachable [⟨Nat, second⟩, ⟨Nat, first⟩] := .cons one (by decide) (.ofList _)
  have three : Reachable [⟨Nat, merged⟩, ⟨Nat, second⟩, ⟨Nat, first⟩] :=
    .cons two (by decide) (.merge List.mem_cons_self (.tail _ List.mem_cons_self))
  have four : Reachable [⟨Nat, map⟩, ⟨Nat, merged⟩, ⟨Nat, second⟩, ⟨Nat, first⟩] :=
    .cons three (by decide) (.erase List.mem_cons_self 1)
  have agrees := mapValues_agrees_rebuilding four List.mem_cons_self (.ofNat 4) (.ofNat 5) (· + 1)
  exact ⟨agrees.1.1, by decide, agrees.2.1⟩

end HashTrie
