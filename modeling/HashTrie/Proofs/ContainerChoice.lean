import HashTrie.Proofs.CanonicalForm
import HashTrie.Proofs.Grouping
import HashTrie.Proofs.Mapping
import HashTrie.Proofs.SortedMaps
import HashTrie.Script.Key
import HashTrie.Traversal.Selection

/-!
# The choice of the container

A hash map and a sorted map with the same entries are traversed in unrelated orders, and their
results may again be collected into either. Where a traversal treats each entry by itself this
makes no difference: its entries are those of the other source in another order, and containers
that lose nothing hold them all as long as no two of the keys are equal
(`sameEntries_collect`). Groups may bear equal classes that are not identical, as each has the
class of the first of its entries; apart from that they are the same too
(`PartitionOf.rearranged`). So the two containers can stand for one another
(`containers_agree`).
-/

namespace HashTrie

/-- Two containers have the same entries, each of them in an order of its own. -/
def SameEntries {σ τ κ ν : Type} [EntrySequence σ κ ν] [EntrySequence τ κ ν] (first : σ)
    (second : τ) : Prop :=
  (entries first).Perm (entries second)

instance {σ τ κ ν : Type} [DecidableEq κ] [DecidableEq ν] [EntrySequence σ κ ν]
    [EntrySequence τ κ ν] (first : σ) (second : τ) : Decidable (SameEntries first second) :=
  inferInstanceAs (Decidable ((entries first).Perm (entries second)))

/-- Two containers have groups of the same entries under equal classes, in orders of their
own. -/
def SameGroups {Γ Δ γ δ δ' κ ν : Type} [BEq γ] [EntrySequence Γ γ δ] [EntrySequence Δ γ δ']
    [EntrySequence δ κ ν] [EntrySequence δ' κ ν] (first : Γ) (second : Δ) : Prop :=
  Run.Rearranged (fun group other => SameKey group other ∧ SameEntries group.2 other.2)
    (entries first) (entries second)

section Collections

variable {δ δ' κ ν : Type} [BEq κ] [EquivBEq κ] [EntrySequence δ κ ν] [Collection δ κ ν]
  [LawfulCollection δ] [EntrySequence δ' κ ν] [Collection δ' κ ν] [LawfulCollection δ']

/-- Containers that lose nothing have the same entries if they are collected from the same
entries with unequal keys, in whatever order. -/
theorem sameEntries_collect (stamp mark : Stamp) {first second : List (κ × ν)}
    (order : first.Perm second) (distinct : Run.Distinct first) :
    SameEntries (collect stamp first : δ) (collect mark second : δ') := by
  have kept := LawfulCollection.perm (δ := δ) stamp distinct
  have otherKept := LawfulCollection.perm (δ := δ') mark (distinct.of_perm order.symm)
  exact kept.trans (order.trans otherKept.symm)

end Collections

namespace Traversal

section Groups

variable {γ ε κ ν : Type} [BEq γ] [EquivBEq γ] {classify : κ × ν → Except ε γ}
  {δ δ' : Type} [EntrySequence δ κ ν] [EntrySequence δ' κ ν]
  {first second : List (κ × ν)} {held : List (γ × δ)} {others : List (γ × δ')}

/-- Classes that are equal have the same elements. -/
theorem ofClass_congr {label mark : γ} (same : (label == mark) = true) (elements : List (κ × ν)) :
    ofClass classify label elements = ofClass classify mark elements := by
  refine List.filter_congr fun element _ => ?_
  cases (classify element).toOption with
  | none => rfl
  | some own => exact BEq.congr_left same

/-- Each group of a partition has a partner in a partition of the same entries. -/
theorem PartitionOf.exists_partner (partition : PartitionOf classify first held)
    (otherPartition : PartitionOf classify second others) (order : first.Perm second)
    {group : γ × δ} (member : group ∈ held) :
    ∃ other ∈ others, SameKey group other ∧ SameEntries group.2 other.2 := by
  obtain ⟨entry, atHead, given⟩ := partition.first group member
  have inFirst := List.mem_of_mem_filter (List.mem_of_mem_head? atHead)
  have listed := mem_classesOf.mpr ⟨entry, order.mem_iff.mp inFirst, given⟩
  have known : (others.map Prod.fst).any (· == group.1) = true := by
    rw [otherPartition.classes.any_eq, any_eraseDups]
    exact List.any_eq_true.mpr ⟨group.1, listed, BEq.rfl⟩
  rw [List.any_map, List.any_eq_true] at known
  obtain ⟨other, otherMember, equal⟩ := known
  have same : (group.1 == other.1) = true := BEq.symm equal
  have elements : (ofClass classify group.1 first).Perm (ofClass classify other.1 second) := by
    rw [ofClass_congr same]
    exact order.filter _
  exact ⟨other, otherMember, same, (partition.members group member).trans
    (elements.trans (otherPartition.members other otherMember).symm)⟩

/-- Partitions of the same entries have the same groups. -/
theorem PartitionOf.rearranged (partition : PartitionOf classify first held)
    (otherPartition : PartitionOf classify second others) (order : first.Perm second) :
    Run.Rearranged (fun group other => SameKey group other ∧ SameEntries group.2 other.2)
      held others := by
  refine .of_found And.left partition.unequal otherPartition.unequal ?_ ?_
  · exact fun group member => partition.exists_partner otherPartition order member
  · intro other member
    obtain ⟨group, held, same, entries⟩ :=
      otherPartition.exists_partner partition order.symm member
    exact ⟨group, held, BEq.symm same, entries.symm⟩

/-- Grouping a source with unequal keys makes a partition of it. -/
theorem partitionOf_groupBy {σ Γ : Type} [EntrySequence σ κ ν] [BEq κ] [Collection δ κ ν]
    [LawfulCollection δ] [EntrySequence Γ γ δ] [Collection Γ γ δ] [LawfulCollection Γ]
    (stamp : Stamp) {source : σ} (labelOf : κ × ν → γ) (distinct : Run.Distinct (entries source)) :
    PartitionOf (fun entry => (.ok (labelOf entry) : Except Empty γ)) (entries source)
      (entries (groupBy stamp source labelOf : Γ)) := by
  have classified : AllClassified (fun entry => (.ok (labelOf entry) : Except Empty γ))
      (entries source) := fun entry _ => ⟨_, rfl⟩
  obtain ⟨held, groups, grouped⟩ := tryGroupBy_of_classified (δ := δ) stamp classified
  rw [groupBy, grouped]
  refine groups.partitionOf classified ?_ (LawfulCollection.perm stamp groups.unequal)
  intro mark part selected
  exact ⟨LawfulCollection.perm mark (distinct.sublist selected), LawfulCollection.counted mark part⟩

end Groups

section Sources

variable {σ τ δ δ' κ ν : Type} [EntrySequence σ κ ν] [EntrySequence τ κ ν] [BEq κ] [EquivBEq κ]
  {source : σ} {other : τ}

section Selections

variable [EntrySequence δ κ ν] [Collection δ κ ν] [LawfulCollection δ] [EntrySequence δ' κ ν]
  [Collection δ' κ ν] [LawfulCollection δ']

/-- The entries that a test accepts do not depend on the order of the source. -/
theorem sameEntries_filter (stamp mark : Stamp) (same : SameEntries source other)
    (distinct : Run.Distinct (entries source)) (accepts : κ × ν → Bool) :
    SameEntries (filter stamp source accepts : δ) (filter mark other accepts : δ') :=
  sameEntries_collect stamp mark (same.filter accepts) (distinct.sublist List.filter_sublist)

/-- The entries that a test accepts and those that it rejects do not depend on the order of the
source. -/
theorem sameEntries_partition (stamp mark : Stamp) (same : SameEntries source other)
    (distinct : Run.Distinct (entries source)) (accepts : κ × ν → Bool) :
    let parts : δ × δ := partition stamp source accepts
    let otherParts : δ' × δ' := partition mark other accepts
    SameEntries parts.1 otherParts.1 ∧ SameEntries parts.2 otherParts.2 := by
  intro parts otherParts
  have accepted : SameEntries parts.1 otherParts.1 := by
    simp only [parts, otherParts, partition, List.partition_eq_filter_filter]
    exact sameEntries_filter _ _ same distinct accepts
  have rejected : SameEntries parts.2 otherParts.2 := by
    simp only [parts, otherParts, partition, List.partition_eq_filter_filter]
    exact sameEntries_filter _ _ same distinct (not ∘ accepts)
  exact ⟨accepted, rejected⟩

end Selections

/-- Mapped values do not depend on the order of the source. -/
theorem sameEntries_mapValues {ω : Type} [EntrySequence δ κ ω] [Collection δ κ ω]
    [LawfulCollection δ] [EntrySequence δ' κ ω] [Collection δ' κ ω] [LawfulCollection δ']
    (stamp mark : Stamp) (same : SameEntries source other)
    (distinct : Run.Distinct (entries source)) (function : ν → ω) :
    SameEntries (mapValues stamp source function : δ) (mapValues mark other function : δ') :=
  sameEntries_collect stamp mark (same.map _) (List.pairwise_map.mpr distinct)

/-- The groups do not depend on the order of the source. -/
theorem sameGroups_groupBy {γ Γ Δ : Type} [BEq γ] [EquivBEq γ] [EntrySequence δ κ ν]
    [Collection δ κ ν] [LawfulCollection δ] [EntrySequence δ' κ ν] [Collection δ' κ ν]
    [LawfulCollection δ'] [EntrySequence Γ γ δ] [Collection Γ γ δ] [LawfulCollection Γ]
    [EntrySequence Δ γ δ'] [Collection Δ γ δ'] [LawfulCollection Δ] (stamp mark : Stamp)
    (same : SameEntries source other) (distinct : Run.Distinct (entries source))
    (labelOf : κ × ν → γ) :
    SameGroups (groupBy stamp source labelOf : Γ) (groupBy mark other labelOf : Δ) :=
  (partitionOf_groupBy stamp labelOf distinct).rearranged
    (partitionOf_groupBy mark labelOf (distinct.of_perm same.symm)) same

end Sources

/-- **The algebra does not depend on the container.** A reachable map and a sorted map with the
same entries give the same entries when they are filtered, parted, cut down to given elements or
mapped by value, and the same groups when they are grouped, whatever containers that lose nothing
the results are collected into. For the values of the hash map it makes no difference either
whether they are mapped in place. If a function makes entries with unequal keys only, mapping
gives the same entries too, and so does mapping to many. -/
theorem containers_agree {κ ν : Type} [BEq κ] [Hashable κ] [EquivBEq κ] [LawfulHashable κ]
    {pool : Pool κ} (reachable : Reachable pool) {map : TrieMap κ ν} (held : ⟨ν, map⟩ ∈ pool)
    {sorted : SortedMap κ ν} (same : SameEntries map sorted) (stamp mark : Stamp) :
    (∀ {δ δ' : Type} [EntrySequence δ κ ν] [Collection δ κ ν] [LawfulCollection δ]
        [EntrySequence δ' κ ν] [Collection δ' κ ν] [LawfulCollection δ'],
      (∀ accepts : κ × ν → Bool,
        SameEntries (filter stamp map accepts : δ) (filter mark sorted accepts : δ') ∧
          SameEntries (filterNot stamp map accepts : δ) (filterNot mark sorted accepts : δ') ∧
          SameEntries (partition stamp map accepts : δ × δ).1
            (partition mark sorted accepts : δ' × δ').1 ∧
          SameEntries (partition stamp map accepts : δ × δ).2
            (partition mark sorted accepts : δ' × δ').2) ∧
      ∀ [BEq ν] (elements : List (κ × ν)),
        SameEntries (retainAll stamp map elements : δ) (retainAll mark sorted elements : δ')) ∧
    (∀ {ω δ δ' : Type} [EntrySequence δ κ ω] [Collection δ κ ω] [LawfulCollection δ]
        [EntrySequence δ' κ ω] [Collection δ' κ ω] [LawfulCollection δ'] (function : ν → ω),
      SameEntries (mapValues stamp map function : δ) (mapValues mark sorted function : δ')) ∧
    (∀ {ω δ : Type} [EntrySequence δ κ ω] [Collection δ κ ω] [LawfulCollection δ]
        (function : ν → ω),
      SameEntries (map.mapValues stamp function) (mapValues mark sorted function : δ)) ∧
    (∀ {γ δ δ' Γ Δ : Type} [BEq γ] [EquivBEq γ] [EntrySequence δ κ ν] [Collection δ κ ν]
        [LawfulCollection δ] [EntrySequence δ' κ ν] [Collection δ' κ ν] [LawfulCollection δ']
        [EntrySequence Γ γ δ] [Collection Γ γ δ] [LawfulCollection Γ] [EntrySequence Δ γ δ']
        [Collection Δ γ δ'] [LawfulCollection Δ] (labelOf : κ × ν → γ),
      SameGroups (groupBy stamp map labelOf : Γ) (groupBy mark sorted labelOf : Δ)) ∧
    ∀ {μ ω δ δ' : Type} [BEq μ] [EquivBEq μ] [EntrySequence δ μ ω] [Collection δ μ ω]
        [LawfulCollection δ] [EntrySequence δ' μ ω] [Collection δ' μ ω] [LawfulCollection δ'],
      (∀ function : κ × ν → μ × ω, Run.Distinct ((entries map).map function) →
        SameEntries (Traversal.map stamp map function : δ)
          (Traversal.map mark sorted function : δ')) ∧
      ∀ function : κ × ν → List (μ × ω), Run.Distinct ((entries map).flatMap function) →
        SameEntries (flatMap stamp map function : δ) (flatMap mark sorted function : δ') := by
  have distinct : Run.Distinct (entries map) := (reachable.sound held).distinct_toList
  refine ⟨?_, ?_, ?_, ?_, ?_⟩
  · intro δ δ' _ _ _ _ _ _
    refine ⟨?_, ?_⟩
    · intro accepts
      exact ⟨sameEntries_filter stamp mark same distinct accepts,
        sameEntries_filter stamp mark same distinct fun entry => !accepts entry,
        sameEntries_partition stamp mark same distinct accepts⟩
    · intro _ elements
      exact sameEntries_filter stamp mark same distinct _
  · intro ω δ δ' _ _ _ _ _ _ function
    exact sameEntries_mapValues stamp mark same distinct function
  · intro ω δ _ _ _ function
    have rebuilt : SameEntries (mapValues stamp map function : List (κ × ω))
        (mapValues mark sorted function : δ) :=
      sameEntries_mapValues stamp mark same distinct function
    exact (List.Perm.of_eq (TrieMap.toList_mapValues map stamp function)).trans rebuilt
  · intro γ δ δ' Γ Δ _ _ _ _ _ _ _ _ _ _ _ _ _ _ labelOf
    exact sameGroups_groupBy stamp mark same distinct labelOf
  · intro μ ω δ δ' _ _ _ _ _ _ _ _
    refine ⟨?_, ?_⟩
    · intro function unequal
      exact sameEntries_collect stamp mark (same.map function) unequal
    · intro function unequal
      exact sameEntries_collect stamp mark (same.flatMap_right function) unequal

/-- The keys 0 and 2^64 have one hash, and the hash map is iterated from 2^64 on while the
sorted map ends there. Their results have the same entries, each in an order of its own;
filtered into a sorted map, the two even give one and the same map. The class of the odd values
bears the label of its first entry, so it is low in one grouping and high in the other, but the
two labels are equal. The keys that the mapping makes all have one hash, and a hash map keeps
them in the order of the source. -/
theorem containers_agree_of_collisions :
    let twin := 0x10000000000000000
    let map : TrieMap Nat Nat := .ofList (.ofNat 0) [(1, 3), (32, 2), (twin, 1), (0, 4)]
    let sorted : SortedMap Nat Nat := .ofList map.toList
    let small (entry : Nat × Nat) : Bool := entry.2 < 4
    let parity (entry : Nat × Nat) : Script.Key :=
      .custom 0 (.ofNat (entry.2 % 2)) (if entry.2 < 3 then "low" else "high")
    let crowded (entry : Nat × Nat) : Nat × Nat := (twin * entry.2, entry.1)
    let both (entry : Nat × Nat) : List (Nat × Nat) := [(2 * entry.1, 0), (2 * entry.1 + 1, 1)]
    let filtered : TrieMap Nat Nat := filter (.ofNat 1) map small
    let filteredSorted : SortedMap Nat Nat := filter (.ofNat 2) sorted small
    let others : TrieMap Nat Nat := filterNot (.ofNat 1) map small
    let othersSorted : SortedMap Nat Nat := filterNot (.ofNat 2) sorted small
    let parts : TrieMap Nat Nat × TrieMap Nat Nat := partition (.ofNat 1) map small
    let partsSorted : SortedMap Nat Nat × SortedMap Nat Nat := partition (.ofNat 2) sorted small
    let retained : TrieMap Nat Nat := retainAll (.ofNat 1) map [(32, 2), (0, 9), (twin, 1)]
    let retainedSorted : SortedMap Nat Nat :=
      retainAll (.ofNat 2) sorted [(32, 2), (0, 9), (twin, 1)]
    let raised : TrieMap Nat Nat := map.mapValues (.ofNat 1) (· + 1)
    let raisedSorted : SortedMap Nat Nat := mapValues (.ofNat 2) sorted (· + 1)
    let groups : SortedMap Script.Key (TrieMap Nat Nat) := groupBy (.ofNat 1) map parity
    let groupsSorted : TrieMap Script.Key (SortedMap Nat Nat) := groupBy (.ofNat 2) sorted parity
    let mapped : TrieMap Nat Nat := Traversal.map (.ofNat 1) map crowded
    let mappedSorted : TrieMap Nat Nat := Traversal.map (.ofNat 2) sorted crowded
    let doubled : SortedMap Nat Nat := flatMap (.ofNat 1) map both
    let doubledSorted : TrieMap Nat Nat := flatMap (.ofNat 2) sorted both
    (entries map = [(twin, 1), (0, 4), (32, 2), (1, 3)] ∧
        entries sorted = [(0, 4), (1, 3), (32, 2), (twin, 1)] ∧ SameEntries map sorted) ∧
      (SameEntries filtered filteredSorted ∧
        (filter (.ofNat 1) map small : SortedMap Nat Nat) = filteredSorted ∧
        entries filtered = [(twin, 1), (32, 2), (1, 3)] ∧
        entries filteredSorted = [(1, 3), (32, 2), (twin, 1)]) ∧
      (SameEntries others othersSorted ∧ entries others = [(0, 4)] ∧
        entries othersSorted = [(0, 4)]) ∧
      ((SameEntries parts.1 partsSorted.1 ∧ SameEntries parts.2 partsSorted.2) ∧
        entries parts.1 = [(twin, 1), (32, 2), (1, 3)] ∧ entries parts.2 = [(0, 4)] ∧
        entries partsSorted.1 = [(1, 3), (32, 2), (twin, 1)] ∧
        entries partsSorted.2 = [(0, 4)]) ∧
      (SameEntries retained retainedSorted ∧ entries retained = [(twin, 1), (32, 2)] ∧
        entries retainedSorted = [(32, 2), (twin, 1)]) ∧
      (SameEntries raised raisedSorted ∧
        entries raised = [(twin, 2), (0, 5), (32, 3), (1, 4)] ∧
        entries raisedSorted = [(0, 5), (1, 4), (32, 3), (twin, 2)]) ∧
      (SameGroups groups groupsSorted ∧
        (entries groups).map (fun group => (group.1, entries group.2)) =
          [(.custom 0 0 "high", [(0, 4), (32, 2)]), (.custom 0 1 "low", [(twin, 1), (1, 3)])] ∧
        (entries groupsSorted).map (fun group => (group.1, entries group.2)) =
          [(.custom 0 0 "high", [(0, 4), (32, 2)]), (.custom 0 1 "high", [(1, 3), (twin, 1)])]) ∧
      (Run.Distinct ((entries map).map crowded) ∧ SameEntries mapped mappedSorted ∧
        entries mapped = [(twin, twin), (twin * 4, 0), (twin * 2, 32), (twin * 3, 1)] ∧
        entries mappedSorted = [(twin * 4, 0), (twin * 3, 1), (twin * 2, 32), (twin, twin)]) ∧
      Run.Distinct ((entries map).flatMap both) ∧ SameEntries doubled doubledSorted ∧
      entries doubled = [(0, 0), (1, 1), (2, 0), (3, 1), (64, 0), (65, 1), (twin * 2, 0),
        (twin * 2 + 1, 1)] ∧
      entries doubledSorted = [(0, 0), (twin * 2, 0), (64, 0), (1, 1), (twin * 2 + 1, 1), (65, 1),
        (2, 0), (3, 1)] := by
  intro twin map sorted small parity crowded both filtered filteredSorted others othersSorted
    parts partsSorted retained retainedSorted raised raisedSorted groups groupsSorted mapped
    mappedSorted doubled doubledSorted
  have reachable : Reachable [⟨Nat, map⟩] := .ofList _ _
  have listed : entries map = [(twin, 1), (0, 4), (32, 2), (1, 3)] := by decide
  have listedSorted : entries sorted = [(0, 4), (1, 3), (32, 2), (twin, 1)] := by decide
  have same : SameEntries map sorted := by decide
  have crowdedApart : Run.Distinct ((entries map).map crowded) := by decide
  have bothApart : Run.Distinct ((entries map).flatMap both) := by decide
  obtain ⟨selections, -, inPlace, grouped, rebuilt⟩ :=
    containers_agree reachable List.mem_cons_self same (.ofNat 1) (.ofNat 2)
  have kept : SameEntries (filter (.ofNat 1) map small : SortedMap Nat Nat) filteredSorted :=
    (selections.1 small).1
  have ascending : SortedMap.Ascending
      (entries (filter (.ofNat 1) map small : SortedMap Nat Nat)) := SortedMap.ascending_ofList _
  refine ⟨⟨listed, listedSorted, same⟩, ?_, ?_, ?_, ?_, ?_, ?_, ?_, ?_⟩
  · exact ⟨(selections.1 small).1,
      SortedMap.eq_of_perm ascending (SortedMap.ascending_ofList _) kept, by decide, by decide⟩
  · exact ⟨(selections.1 small).2.1, by decide, by decide⟩
  · exact ⟨(selections.1 small).2.2, by decide, by decide, by decide, by decide⟩
  · exact ⟨selections.2 _, by decide, by decide⟩
  · exact ⟨inPlace (· + 1), by decide, by decide⟩
  · refine ⟨grouped parity, ?_, ?_⟩
    · let odd : TrieMap Nat Nat := collect (.part (.ofNat 1) 0) [(twin, 1), (1, 3)]
      let even : TrieMap Nat Nat := collect (.part (.ofNat 1) 1) [(0, 4), (32, 2)]
      have oddListed : entries odd = [(twin, 1), (1, 3)] := by decide
      have evenListed : entries even = [(0, 4), (32, 2)] := by decide
      have iterated : entries groups = [(.custom 0 0 "high", even), (.custom 0 1 "low", odd)] := by
        refine (congrArg entries (groupBy_eq_collect (.ofNat 1) map parity)).trans ?_
        rw [listed]
        rfl
      rw [iterated, List.map_cons, List.map_singleton, oddListed, evenListed]
    · let classes : List (Script.Key × SortedMap Nat Nat) :=
        [(.custom 0 0 "high", .ofList [(0, 4), (32, 2)]),
          (.custom 0 1 "high", .ofList [(1, 3), (twin, 1)])]
      have apart : Run.Distinct classes := by decide
      -- the two classes have one hash, whatever it is
      have ordered : InDigitOrder classes := List.pairwise_pair.mpr (digitLE_iff.mpr (.inr rfl))
      have iterated : entries groupsSorted = classes := by
        refine (congrArg entries (groupBy_eq_collect (.ofNat 2) sorted parity)).trans ?_
        rw [listedSorted]
        exact TrieMap.toList_ofList (.ofNat 2) (fun _ => apart.sublist List.filter_sublist) ordered
      rw [iterated]
      rfl
  · exact ⟨crowdedApart, rebuilt.1 crowded crowdedApart, by decide, by decide⟩
  · exact ⟨bothApart, rebuilt.2 both bothApart, by decide, by decide⟩

end Traversal

end HashTrie
