import HashTrie.Proofs.Containers
import HashTrie.Proofs.Union
import HashTrie.Script.Key
import HashTrie.Traversal.Grouping
import Mathlib.Algebra.GroupWithZero.Nat
import Mathlib.Data.List.Induction
import Mathlib.Data.List.Perm.Basic

/-!
# Grouping as a partition

The loop fills groups at positions that it looks up by class. While it runs, the positions
are in step with the groups, and the groups are those of the elements so far: one for each
distinct class, under the class that came first, with the elements of that class
(`Grouping.Sorts`). One element preserves this (`Grouping.Sorts.add`), so it holds at the
end (`Grouping.Sorts.addAll`). What the groups are then is said without the loop
(`GroupsOf`), and containers that lose nothing hold a partition of the source
(`tryGroupBy_partitions`).
-/

namespace HashTrie.Traversal

variable {α γ ε : Type}

/-- Every element has a class. -/
def AllClassified (classify : α → Except ε γ) (elements : List α) : Prop :=
  ∀ element ∈ elements, ∃ label, classify element = .ok label

/-- The classes of the elements that have one, in the order of the elements. -/
def classesOf (classify : α → Except ε γ) (elements : List α) : List γ :=
  elements.filterMap fun element => (classify element).toOption

/-- The elements whose class equals the given one. -/
def ofClass [BEq γ] (classify : α → Except ε γ) (label : γ) (elements : List α) : List α :=
  elements.filter fun element => (classify element).toOption.any (label == ·)

section Classes

variable {classify : α → Except ε γ} {front : List α} {element : α} {label mark : γ}

theorem AllClassified.of_append {back : List α}
    (classified : AllClassified classify (front ++ back)) :
    AllClassified classify front ∧ AllClassified classify back :=
  List.forall_mem_append.mp classified

theorem classesOf_concat (classified : classify element = .ok label) :
    classesOf classify (front ++ [element]) = classesOf classify front ++ [label] := by
  simp [classesOf, classified, Except.toOption]

theorem mem_classesOf : label ∈ classesOf classify front ↔
    ∃ element ∈ front, classify element = .ok label := by
  refine List.mem_filterMap.trans (exists_congr fun element => and_congr_right fun _ => ?_)
  cases classify element <;> simp [Except.toOption]

variable [BEq γ]

theorem mem_ofClass (classified : classify element = .ok mark) :
    element ∈ ofClass classify label front ↔ element ∈ front ∧ (label == mark) = true := by
  simp [ofClass, classified, Except.toOption]

theorem ofClass_concat (classified : classify element = .ok mark) :
    ofClass classify label (front ++ [element]) =
      if label == mark then ofClass classify label front ++ [element]
      else ofClass classify label front := by
  cases same : label == mark <;> simp [ofClass, classified, Except.toOption, same]

variable [EquivBEq γ]

/-- No element is of a class that is equal to none of theirs. -/
theorem ofClass_eq_nil (classified : AllClassified classify front)
    (new : (classesOf classify front).any (· == label) = false) :
    ofClass classify label front = [] := by
  refine List.eq_nil_iff_forall_not_mem.mpr ?_
  intro element member
  obtain ⟨mark, given⟩ := classified element (List.mem_of_mem_filter member)
  obtain ⟨held, same⟩ := (mem_ofClass given).mp member
  have unequal := List.any_eq_false.mp new mark (mem_classesOf.mpr ⟨element, held, given⟩)
  exact unequal (BEq.symm same)

/-- A class that is listed was given by the first of its elements. -/
theorem exists_first (classified : AllClassified classify front)
    (listed : label ∈ (classesOf classify front).eraseDups) :
    ∃ element ∈ (ofClass classify label front).head?, classify element = .ok label := by
  -- from the end: the last element is the first of its class only if no earlier one is of it
  induction front using List.reverseRecOn with
  | nil => cases listed
  | append_singleton front element ih =>
      obtain ⟨earlier, last⟩ := classified.of_append
      obtain ⟨mark, given⟩ := last element List.mem_cons_self
      have step (known : label ∈ (classesOf classify front).eraseDups) :
          ∃ first ∈ (ofClass classify label (front ++ [element])).head?,
            classify first = .ok label := by
        obtain ⟨first, atHead, own⟩ := ih earlier known
        refine ⟨first, ?_, own⟩
        rw [ofClass_concat given]
        split
        · exact List.mem_head?_append_of_mem_head? atHead
        · exact atHead
      rw [classesOf_concat given, eraseDups_concat] at listed
      split at listed
      · exact step listed
      · rename_i new
        rcases List.mem_append.mp listed with known | last
        · exact step known
        · obtain rfl := List.mem_singleton.mp last
          refine ⟨element, ?_, given⟩
          rw [ofClass_concat given, if_pos BEq.rfl,
            ofClass_eq_nil earlier (Bool.eq_false_iff.mpr new)]
          rfl

/-- Elements that all fall into one of some unequal classes are parted by them. -/
theorem perm_flatMap_ofClass {labels : List γ}
    (unequal : labels.Pairwise fun label other => (label == other) = false)
    (classified : AllClassified classify front)
    (covered : ∀ mark ∈ classesOf classify front, labels.any (· == mark) = true) :
    (labels.flatMap fun label => ofClass classify label front).Perm front := by
  induction unequal generalizing front with
  | nil =>
      cases front with
      | nil => exact .refl _
      | cons element front =>
          obtain ⟨mark, given⟩ := classified element List.mem_cons_self
          cases covered mark (mem_classesOf.mpr ⟨element, List.mem_cons_self, given⟩)
  | @cons label labels apart _ ih =>
      let others := front.filter fun element => !(classify element).toOption.any (label == ·)
      have fewer : AllClassified classify others := fun element member =>
        classified element (List.mem_of_mem_filter member)
      -- an element of one of the later classes is not of this one
      have elsewhere : ∀ other ∈ labels,
          ofClass classify other others = ofClass classify other front := by
        intro other member
        rw [ofClass, ofClass, List.filter_filter]
        refine List.filter_congr ?_
        intro element held
        obtain ⟨mark, given⟩ := classified element held
        cases same : other == mark with
        | false => simp [given, Except.toOption, same]
        | true =>
            have different : (label == mark) = false := by
              rw [← BEq.congr_right same]
              exact apart other member
            simp [given, Except.toOption, same, different]
      have covers : ∀ mark ∈ classesOf classify others, labels.any (· == mark) = true := by
        intro mark listed
        obtain ⟨element, member, given⟩ := mem_classesOf.mp listed
        obtain ⟨held, outside⟩ := List.mem_filter.mp member
        have found := covered mark (mem_classesOf.mpr ⟨element, held, given⟩)
        have different : (label == mark) = false := by
          simpa [given, Except.toOption] using outside
        rwa [List.any_cons, different, Bool.false_or] at found
      rw [List.flatMap_cons, ← List.flatMap_congr elsewhere]
      exact ((ih fewer covers).append_left _).trans (List.filter_append_perm ..)

end Classes

section Positions

variable {β : Type} {groups : List (γ × β)} {position : Nat}

theorem map_fst_mapIdx {β' : Type} (value : Nat → γ × β → β') (groups : List (γ × β)) :
    (groups.mapIdx fun index group => (group.1, value index group)).map Prod.fst =
      groups.map Prod.fst := by
  refine List.ext_getElem? ?_
  intro index
  simp only [List.getElem?_map, List.getElem?_mapIdx, Option.map_map]
  rfl

/-- Changing the groups in their places leaves the positions of the classes. -/
theorem positions_map (change : γ × β → β) :
    (groups.map fun group => (group.1, change group)).mapIdx (fun index group => (group.1, index)) =
      groups.mapIdx fun index group => (group.1, index) := by
  refine List.ext_getElem? ?_
  intro index
  simp only [List.getElem?_map, List.getElem?_mapIdx, Option.map_map]
  rfl

/-- Changing the group at the position of a class is changing the group of that class. -/
theorem modify_eq_map [BEq γ] [EquivBEq γ] {group : γ × β} {label : γ}
    (unequal : Run.Distinct groups) (found : groups[position]? = some group)
    (same : (group.1 == label) = true) (change : β → β) :
    groups.modify position (fun group => (group.1, change group.2)) =
      groups.map fun group =>
        (group.1, if group.1 == label then change group.2 else group.2) := by
  induction groups generalizing position with
  | nil => cases found
  | cons head groups ih =>
      obtain ⟨apart, unequal⟩ := Run.distinct_cons.mp unequal
      cases position with
      | zero =>
          obtain rfl : head = group := by simpa using found
          have kept : groups.map (fun group =>
              (group.1, if group.1 == label then change group.2 else group.2)) = groups := by
            refine (List.map_congr_left ?_).trans (List.map_id groups)
            intro other member
            rw [Run.unequal_of_head apart same other member]
            rfl
          simp [same, kept]
      | succ position =>
          have inTail : groups[position]? = some group := by simpa using found
          have other : (head.1 == label) = false := by
            rw [← BEq.congr_right same]
            exact apart group (List.mem_of_getElem? inTail)
          simp [other, ih unequal inTail]

end Positions

namespace Grouping

variable [BEq γ] {classify : α → Except ε γ} {front rest : List α} {classes : List γ}
  {grouping : Grouping γ α} {element : α} {label mark : γ}

/-- The groups are those of the given classes, with the elements so far, and the positions
are in step with them. -/
structure Sorts (classify : α → Except ε γ) (front : List α) (classes : List γ)
    (grouping : Grouping γ α) : Prop where
  groups : grouping.groups =
    classes.eraseDups.map fun label => (label, ofClass classify label front)
  positions : grouping.positions = grouping.groups.mapIdx fun index group => (group.1, index)

theorem sorts_empty : (empty : Grouping γ α).Sorts classify [] (classesOf classify []) :=
  ⟨rfl, rfl⟩

namespace Sorts

theorem map_fst (sorts : grouping.Sorts classify front classes) :
    grouping.groups.map Prod.fst = classes.eraseDups := by
  rw [sorts.groups, List.map_map]
  exact List.map_id _

/-- The position of a class is within bounds, and the group of the class is there. -/
theorem exists_group (sorts : grouping.Sorts classify front classes) {position : Nat}
    (found : Run.find? grouping.positions label = some (mark, position)) :
    ∃ group, grouping.groups[position]? = some group ∧ (group.1 == label) = true := by
  have equal := Run.key_of_find? found
  have listed := Run.mem_of_find? found
  rw [sorts.positions, List.mem_mapIdx] at listed
  obtain ⟨index, inside, same⟩ := listed
  obtain ⟨rfl, rfl⟩ := Prod.mk.inj same
  exact ⟨_, List.getElem?_eq_getElem inside, equal⟩

theorem members (sorts : grouping.Sorts classify front classes) :
    ∀ group ∈ grouping.groups, group.2 = ofClass classify group.1 front := by
  intro group listed
  rw [sorts.groups] at listed
  obtain ⟨label, -, rfl⟩ := List.mem_map.mp listed
  rfl

variable [EquivBEq γ]

theorem unequal (sorts : grouping.Sorts classify front classes) :
    Run.Distinct grouping.groups := by
  rw [sorts.groups]
  exact List.pairwise_map.mpr (unequal_eraseDups classes)

/-- A class has a position exactly if it is among the classes. -/
theorem isSome_find? (sorts : grouping.Sorts classify front classes) (label : γ) :
    (Run.find? grouping.positions label).isSome = classes.any (· == label) := by
  rw [← any_eraseDups, ← sorts.map_fst, ← map_fst_mapIdx (fun index _ => index),
    ← sorts.positions, List.any_map, Run.find?, List.isSome_find?]
  rfl

/-- Placing a class makes sure that it has a group, and finds it. -/
theorem place (sorts : grouping.Sorts classify front (classesOf classify front))
    (classified : AllClassified classify front) (label : γ) :
    (grouping.place label).2.Sorts classify front (classesOf classify front ++ [label]) ∧
      ∃ group, (grouping.place label).2.groups[(grouping.place label).1]? = some group ∧
        (group.1 == label) = true := by
  have known := sorts.isSome_find? label
  -- a new group is empty, as no element so far is of its class
  cases found : Run.find? grouping.positions label with
  | some entry =>
      rw [found] at known
      rw [place_of_known found]
      refine ⟨⟨?_, sorts.positions⟩, sorts.exists_group found⟩
      rw [eraseDups_concat, ← known]
      exact sorts.groups
  | none =>
      rw [found] at known
      rw [place_of_new found]
      refine ⟨⟨?_, ?_⟩, (label, []), ?_, BEq.rfl⟩
      · rw [eraseDups_concat, ← known]
        simp [sorts.groups, ofClass_eq_nil classified known.symm]
      · rw [Run.upsert_of_new _ _ (Run.find?_eq_none_iff.mp found), List.mapIdx_concat,
          sorts.positions]
      · exact List.getElem?_concat_length

/-- One more element keeps the positions in step, and the groups are those of the elements
so far. -/
theorem add (sorts : grouping.Sorts classify front (classesOf classify front))
    (classified : AllClassified classify front) (given : classify element = .ok label) :
    (grouping.add element label).Sorts classify (front ++ [element])
      (classesOf classify (front ++ [element])) := by
  obtain ⟨placed, group, found, same⟩ := sorts.place classified label
  have filled : (grouping.add element label).groups = (grouping.place label).2.groups.map
      fun group => (group.1, if group.1 == label then group.2 ++ [element] else group.2) :=
    modify_eq_map placed.unequal found same (· ++ [element])
  refine ⟨?_, ?_⟩
  · rw [filled, placed.groups, List.map_map, classesOf_concat given]
    refine List.map_congr_left ?_
    intro other _
    rw [Function.comp, ofClass_concat given]
  · rw [filled, positions_map]
    exact placed.positions

/-- The groups after all elements, if each has a class. -/
theorem addAll (sorts : grouping.Sorts classify front (classesOf classify front))
    (classified : AllClassified classify (front ++ rest)) :
    ∃ sorted, grouping.addAll classify rest = .ok sorted ∧
      sorted.Sorts classify (front ++ rest) (classesOf classify (front ++ rest)) := by
  induction rest generalizing front grouping with
  | nil =>
      rw [List.append_nil]
      exact ⟨grouping, rfl, sorts⟩
  | cons element rest ih =>
      obtain ⟨earlier, later⟩ := classified.of_append
      obtain ⟨label, given⟩ := later element List.mem_cons_self
      rw [Grouping.addAll, given]
      rw [List.append_cons] at classified ⊢
      exact ih (sorts.add earlier given) classified

end Sorts

/-- The loop goes to the end if every element has a class. -/
theorem exists_sorted [EquivBEq γ] (classified : AllClassified classify front) :
    ∃ sorted, (empty : Grouping γ α).addAll classify front = .ok sorted ∧
      sorted.Sorts classify front (classesOf classify front) :=
  sorts_empty.addAll classified

/-- The loop stops at the first element without a class. -/
theorem addAll_of_error {back : List α} {reason : ε} (classified : AllClassified classify front)
    (failed : classify element = .error reason) :
    grouping.addAll classify (front ++ element :: back) = .error reason := by
  induction front generalizing grouping with
  | nil => rw [List.nil_append, addAll, failed]
  | cons first front ih =>
      obtain ⟨label, given⟩ := classified first List.mem_cons_self
      rw [List.cons_append, addAll, given]
      exact ih fun other member => classified other (.tail _ member)

/-- With a total classification the loop goes to the end. -/
theorem addAll_ok (labelOf : α → γ) (grouping : Grouping γ α) (elements : List α) :
    grouping.addAll (fun element => (.ok (labelOf element) : Except ε γ)) elements =
      .ok (elements.foldl (fun grouping element => grouping.add element (labelOf element))
        grouping) := by
  induction elements generalizing grouping with
  | nil => rfl
  | cons element elements ih => exact ih (grouping.add element (labelOf element))

end Grouping

section Containers

variable {σ δ κ ν Γ : Type} [EntrySequence σ κ ν] [BEq γ]

/-- The containers of the groups of a source: one for each distinct class, in the order in
which the classes come first, collected from the entries of the class in their order. Each
bears the class as the first of its entries gives it. -/
structure GroupsOf [Collection δ κ ν] (classify : κ × ν → Except ε γ) (source : List (κ × ν))
    (held : List (γ × δ)) : Prop where
  classes : held.map Prod.fst = (classesOf classify source).eraseDups
  members : ∀ group ∈ held, ∃ stamp, group.2 = collect stamp (ofClass classify group.1 source)
  first : ∀ group ∈ held, ∃ entry ∈ (ofClass classify group.1 source).head?,
    classify entry = .ok group.1

/-- Containers that hold a partition of a source, in any order: one for each distinct class,
with the entries of the class and no others. None of them is empty, each bears the class as
the first of its entries gives it, and their counts add up to that of the source. -/
structure PartitionOf [EntrySequence δ κ ν] (classify : κ × ν → Except ε γ)
    (source : List (κ × ν)) (held : List (γ × δ)) : Prop where
  classes : (held.map Prod.fst).Perm (classesOf classify source).eraseDups
  unequal : Run.Distinct held
  members : ∀ group ∈ held, (entries group.2).Perm (ofClass classify group.1 source)
  first : ∀ group ∈ held, ∃ entry ∈ (ofClass classify group.1 source).head?,
    classify entry = .ok group.1
  inhabited : ∀ group ∈ held, entryCount group.2 ≠ 0
  complete : (held.flatMap fun group => entries group.2).Perm source
  sizes : (held.map fun group => entryCount group.2).sum = source.length

variable {classify : κ × ν → Except ε γ} {source : List (κ × ν)} {held : List (γ × δ)}

/-- The groups are as many as the distinct classes. -/
theorem PartitionOf.length_eq [EntrySequence δ κ ν] (partition : PartitionOf classify source held) :
    held.length = (classesOf classify source).eraseDups.length := by
  rw [← partition.classes.length_eq, List.length_map]

/-- One container with the entries of each class makes a partition. -/
theorem partitionOf_of_members [EquivBEq γ] [EntrySequence δ κ ν]
    (classified : AllClassified classify source)
    (classes : (held.map Prod.fst).Perm (classesOf classify source).eraseDups)
    (members : ∀ group ∈ held, (entries group.2).Perm (ofClass classify group.1 source))
    (counted : ∀ group ∈ held, entryCount group.2 = (entries group.2).length) :
    PartitionOf classify source held := by
  have unequal : (held.map Prod.fst).Pairwise fun label other => (label == other) = false :=
    (classes.pairwise_iff fun apart => BEq.comm.trans apart).mpr (unequal_eraseDups _)
  have first : ∀ group ∈ held, ∃ entry ∈ (ofClass classify group.1 source).head?,
      classify entry = .ok group.1 := by
    intro group member
    exact exists_first classified (classes.mem_iff.mp (List.mem_map_of_mem member))
  have complete : (held.flatMap fun group => entries group.2).Perm source := by
    refine (List.Perm.flatMap_left held members).trans ?_
    rw [← List.flatMap_map (f := Prod.fst) (g := fun label => ofClass classify label source)]
    refine perm_flatMap_ofClass unequal classified ?_
    intro mark listed
    rw [classes.any_eq, any_eraseDups]
    exact List.any_eq_true.mpr ⟨mark, listed, BEq.rfl⟩
  refine ⟨classes, List.pairwise_map.mp unequal, members, first, ?_, complete, ?_⟩
  · intro group member empty
    obtain ⟨entry, atHead, -⟩ := first group member
    have nothing := (members group member).symm.length_eq
    rw [← counted group member, empty, List.length_eq_zero_iff] at nothing
    rw [nothing] at atHead
    cases atHead
  · rw [← complete.length_eq, List.length_flatMap, List.map_congr_left counted]

theorem GroupsOf.unequal [EquivBEq γ] [Collection δ κ ν] (groups : GroupsOf classify source held) :
    Run.Distinct held := by
  have unequal := unequal_eraseDups (classesOf classify source)
  rw [← groups.classes] at unequal
  exact List.pairwise_map.mp unequal

/-- Containers that keep their entries hold a partition, in whatever order they stand. -/
theorem GroupsOf.partitionOf [EquivBEq γ] [EntrySequence δ κ ν] [Collection δ κ ν]
    (groups : GroupsOf classify source held) (classified : AllClassified classify source)
    (keeps : ∀ stamp {part : List (κ × ν)}, part.Sublist source →
      (entries (collect stamp part : δ)).Perm part ∧
        entryCount (collect stamp part : δ) = (entries (collect stamp part : δ)).length)
    {others : List (γ × δ)} (order : others.Perm held) :
    PartitionOf classify source others := by
  have kept : ∀ group ∈ others, (entries group.2).Perm (ofClass classify group.1 source) ∧
      entryCount group.2 = (entries group.2).length := by
    intro group member
    obtain ⟨stamp, collected⟩ := groups.members group (order.mem_iff.mp member)
    rw [collected]
    exact keeps stamp List.filter_sublist
  refine partitionOf_of_members classified ?_ (fun group member => (kept group member).1)
    fun group member => (kept group member).2
  rw [← groups.classes]
  exact order.map Prod.fst

/-- The containers that grouping collects. -/
theorem groupsOf_collectGroups [EquivBEq γ] [Collection δ κ ν] (stamp : Stamp)
    (classified : AllClassified classify source) {grouping : Grouping γ (κ × ν)}
    (sorts : grouping.Sorts classify source (classesOf classify source)) :
    GroupsOf classify source (collectGroups stamp grouping.groups : List (γ × δ)) := by
  have classes : (collectGroups stamp grouping.groups : List (γ × δ)).map Prod.fst =
      (classesOf classify source).eraseDups := by
    rw [collectGroups, map_fst_mapIdx, sorts.map_fst]
  refine ⟨classes, ?_, ?_⟩
  · intro group member
    obtain ⟨index, inside, rfl⟩ := List.mem_mapIdx.mp member
    exact ⟨_, congrArg _ (sorts.members _ (List.getElem_mem inside))⟩
  · intro group member
    exact exists_first classified (classes ▸ List.mem_map_of_mem member)

/-- Grouping comes to an end if every entry has a class. -/
theorem tryGroupBy_of_classified [EquivBEq γ] [Collection δ κ ν] (stamp : Stamp) {source : σ}
    (classified : AllClassified classify (entries source)) :
    ∃ held : List (γ × δ), GroupsOf classify (entries source) held ∧
      ∀ {Γ : Type} [Collection Γ γ δ],
        tryGroupBy stamp source classify = (.ok (collect stamp held) : Except ε Γ) := by
  obtain ⟨sorted, finished, sorts⟩ := Grouping.exists_sorted classified
  refine ⟨_, groupsOf_collectGroups stamp classified sorts, ?_⟩
  intro Γ _
  rw [tryGroupBy, finished]
  rfl

/-- With a total classification the groups are those that the loop ends with. -/
theorem groupBy_eq_collect [Collection δ κ ν] [Collection Γ γ δ] (stamp : Stamp) (source : σ)
    (labelOf : κ × ν → γ) :
    let sorted : Grouping γ (κ × ν) := (entries source).foldl
      (fun grouping entry => grouping.add entry (labelOf entry)) .empty
    (groupBy stamp source labelOf : Γ) = collect stamp (collectGroups stamp sorted.groups) := by
  rw [groupBy, tryGroupBy, Grouping.addAll_ok]
  rfl

end Containers

/-- **Grouping partitions its source.** The first entry without a class is the reason to give
up. If there is none, the groups stand in the order of their first entries when they are
collected into a plain list, and any other container is collected from this list. Containers
that lose nothing hold a partition of a source whose keys are unequal, in an order of their
own; if source and groups are hash maps, a group is iterated as the source is, with the
entries of other classes left out. A classification that cannot fail makes no difference. -/
theorem tryGroupBy_partitions {κ ν γ ε : Type} [BEq γ] [EquivBEq γ]
    (classify : κ × ν → Except ε γ) (stamp : Stamp) :
    (∀ {σ δ Γ : Type} [EntrySequence σ κ ν] [Collection δ κ ν] [Collection Γ γ δ] (source : σ),
        (∀ front entry back reason, entries source = front ++ entry :: back →
          AllClassified classify front → classify entry = .error reason →
            (tryGroupBy stamp source classify : Except ε Γ) = .error reason) ∧
        (AllClassified classify (entries source) →
          ∃ held : List (γ × δ), GroupsOf classify (entries source) held ∧
            tryGroupBy stamp source classify = .ok held ∧
            tryGroupBy stamp source classify = (.ok (collect stamp held) : Except ε Γ)) ∧
        ∀ [BEq κ] [EntrySequence δ κ ν] [LawfulCollection δ] [EntrySequence Γ γ δ]
          [LawfulCollection Γ], AllClassified classify (entries source) →
            Run.Distinct (entries source) → ∃ result : Γ,
              tryGroupBy stamp source classify = .ok result ∧
              PartitionOf classify (entries source) (entries result) ∧
              entryCount result = (classesOf classify (entries source)).eraseDups.length) ∧
      (∀ [BEq κ] [Hashable κ] [EquivBEq κ] {Γ : Type} [EntrySequence Γ γ (TrieMap κ ν)]
        [Collection Γ γ (TrieMap κ ν)] [LawfulCollection Γ] {pool : Pool κ} {map : TrieMap κ ν},
          Reachable pool → ⟨ν, map⟩ ∈ pool → AllClassified classify map.cursor.rest →
            ∃ result : Γ, tryGroupBy stamp map classify = .ok result ∧
              PartitionOf classify map.cursor.rest (entries result) ∧
              (∀ group ∈ entries result,
                group.2.cursor.rest = ofClass classify group.1 map.cursor.rest) ∧
              entryCount result = (classesOf classify map.cursor.rest).eraseDups.length ∧
              ((entries result).map fun group => group.2.length).sum = map.length) ∧
      ∀ {σ δ Γ : Type} [EntrySequence σ κ ν] [Collection δ κ ν] [Collection Γ γ δ] (source : σ)
        (labelOf : κ × ν → γ),
          tryGroupBy stamp source (fun entry => (.ok (labelOf entry) : Except ε γ)) =
            .ok (groupBy stamp source labelOf : Γ) := by
  refine ⟨?_, ?_, ?_⟩
  · intro σ δ Γ _ _ _ source
    refine ⟨?_, ?_, ?_⟩
    · intro front entry back reason parts classified failed
      rw [tryGroupBy, parts, Grouping.addAll_of_error classified failed]
      rfl
    · intro classified
      obtain ⟨held, groups, grouped⟩ := tryGroupBy_of_classified (δ := δ) stamp classified
      exact ⟨held, groups, grouped, grouped⟩
    · intro _ _ _ _ _ classified distinct
      obtain ⟨held, groups, grouped⟩ := tryGroupBy_of_classified (δ := δ) stamp classified
      have order := LawfulCollection.perm (δ := Γ) stamp groups.unequal
      have partition := groups.partitionOf classified (fun mark _ selected =>
        ⟨LawfulCollection.perm mark (distinct.sublist selected),
          LawfulCollection.counted mark _⟩) order
      exact ⟨_, grouped, partition,
        (LawfulCollection.counted stamp held).trans partition.length_eq⟩
  · intro _ _ _ Γ _ _ _ pool map reachable member classified
    have wellFormed := reachable.sound member
    simp only [TrieMap.rest_cursor] at classified ⊢
    have everywhere : AllClassified classify (entries map) := classified
    obtain ⟨held, groups, grouped⟩ :=
      tryGroupBy_of_classified (δ := TrieMap κ ν) stamp everywhere
    have order := LawfulCollection.perm (δ := Γ) stamp groups.unequal
    have partition := groups.partitionOf classified (fun mark _ selected =>
      ⟨.of_eq (wellFormed.toList_ofList_sublist mark selected),
        (TrieMap.wellFormed_ofList mark _).length⟩) order
    refine ⟨_, grouped, partition, ?_, ?_, ?_⟩
    · intro group listed
      obtain ⟨mark, collected⟩ := groups.members group (order.mem_iff.mp listed)
      rw [collected]
      exact wellFormed.toList_ofList_sublist mark List.filter_sublist
    · exact (LawfulCollection.counted stamp held).trans partition.length_eq
    · rw [wellFormed.length]
      exact partition.sizes
  · intro σ δ Γ _ _ _ source labelOf
    rw [groupBy_eq_collect, tryGroupBy, Grouping.addAll_ok]
    rfl

/-- The keys 0 and 2^64 have one hash, and 32 differs from it in the second digit. A class is
the parity of a value, with a label that equality ignores: the groups bear the labels of their
first entries. Without a class for the value 2 the grouping ends at the key 32. -/
theorem tryGroupBy_partitions_of_collisions :
    let twin := 0x10000000000000000
    let map : TrieMap Nat Nat := .ofList (.ofNat 0) [(1, 3), (32, 2), (twin, 1), (0, 4)]
    let parity (entry : Nat × Nat) : Script.Key :=
      .custom 0 (.ofNat (entry.2 % 2)) (if entry.2 < 3 then "low" else "high")
    let total (entry : Nat × Nat) : Except Nat Script.Key := .ok (parity entry)
    let partly (entry : Nat × Nat) : Except Nat Script.Key :=
      if entry.2 = 2 then .error entry.1 else .ok (parity entry)
    (∃ held : List (Script.Key × TrieMap Nat Nat), GroupsOf total map.toList held ∧
        tryGroupBy (.ofNat 1) map total = .ok held ∧
        held.map Prod.fst = [.custom 0 1 "low", .custom 0 0 "high"]) ∧
      (∃ result : TrieMap Script.Key (TrieMap Nat Nat),
        tryGroupBy (.ofNat 1) map total = .ok result ∧
        PartitionOf total map.cursor.rest (entries result) ∧
        ∀ group ∈ entries result, group.2.cursor.rest = ofClass total group.1 map.cursor.rest) ∧
      ofClass total (.custom 0 0 "") map.toList = [(0, 4), (32, 2)] ∧
      tryGroupBy (.ofNat 1) map partly =
        (.error 32 : Except Nat (List (Script.Key × TrieMap Nat Nat))) ∧
      tryGroupBy (.ofNat 1) map total =
        (.ok (groupBy (.ofNat 1) map parity) :
          Except Nat (List (Script.Key × TrieMap Nat Nat))) := by
  intro twin map parity total partly
  have reachable : Reachable [⟨Nat, map⟩] := .ofList _ _
  have listed : map.toList = [(twin, 1), (0, 4), (32, 2), (1, 3)] := by decide
  have classes : (classesOf total map.toList).eraseDups =
      [.custom 0 1 "low", .custom 0 0 "high"] := by
    rw [listed]
    rfl
  have classified : AllClassified total map.toList := fun entry _ => ⟨_, rfl⟩
  have grouping := tryGroupBy_partitions total (.ofNat 1)
  refine ⟨?_, ?_, by decide, ?_, ?_⟩
  · obtain ⟨held, groups, grouped, -⟩ :=
      (grouping.1 (Γ := List (Script.Key × TrieMap Nat Nat)) map).2.1 classified
    exact ⟨held, groups, grouped, groups.classes.trans classes⟩
  · obtain ⟨result, grouped, partition, iterated, -⟩ :=
      grouping.2.1 (Γ := TrieMap Script.Key (TrieMap Nat Nat)) reachable List.mem_cons_self
        fun entry _ => ⟨_, rfl⟩
    exact ⟨result, grouped, partition, iterated⟩
  · exact ((tryGroupBy_partitions partly (.ofNat 1)).1 map).1 [(twin, 1), (0, 4)] (32, 2) [(1, 3)]
      32 listed (by simp [AllClassified, partly]) rfl
  · exact grouping.2.2 map parity

end HashTrie.Traversal
