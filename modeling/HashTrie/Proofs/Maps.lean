import HashTrie.Proofs.Erasing
import HashTrie.Proofs.Merging

/-!
# Operations on well-formed maps

Every operation on maps keeps them well-formed. Two of them carry the others:
writing a value under a key (`WellFormed.insert_written`) and taking out a key
(`WellFormed.erased_of_found`). A conditional operation is one of these two, applied
to the stored key, or nothing at all (`WellFormed.update?_eq`,
`WellFormed.alter_eq`).
-/

namespace HashTrie

variable {κ ν ω : Type}

namespace Trie

variable (stamp : Stamp) (function : ν → ω)

mutual

theorem toList_mapValues (trie : Trie κ ν) : (trie.mapValues stamp function).toList =
    trie.toList.map fun entry => (entry.1, function entry.2) := by
  cases trie with
  | empty => rfl
  | leaf => rfl
  | branch old bitmap size children => exact toLists_mapValuesAll children

theorem toLists_mapValuesAll (children : List (Trie κ ν)) :
    toLists (mapValuesAll stamp function children) =
      (toLists children).map fun entry => (entry.1, function entry.2) := by
  cases children with
  | nil => rfl
  | cons child children =>
      rw [mapValuesAll, toLists, toLists, List.map_append, toList_mapValues child,
        toLists_mapValuesAll children]

end

theorem isLeaf_mapValues (trie : Trie κ ν) :
    (trie.mapValues stamp function).isLeaf = trie.isLeaf := by
  cases trie <;> rfl

variable [BEq κ] [Hashable κ] {stamp function}

/-- Mapping the values keeps the shape, and with it every condition on it. -/
theorem WellFormed.mapValues {depth : Nat} {trie : Trie κ ν} (wellFormed : WellFormed depth trie) :
    WellFormed depth (trie.mapValues stamp function) := by
  induction wellFormed with
  | leaf inhabited distinct hashed =>
      refine .leaf (by simpa using inhabited) (List.pairwise_map.mpr distinct) ?_
      intro entry member
      obtain ⟨before, held, rfl⟩ := List.mem_map.mp member
      exact hashed before held
  | @branch depth old bitmap size children shallow full inhabited sound routed collapsed counted
      ih =>
      rw [Trie.mapValues, mapValuesAll_eq_map]
      refine .branch shallow (by rw [List.length_map, full]) (by simpa using inhabited) ?_ ?_ ?_ ?_
      · intro child member
        obtain ⟨before, held, rfl⟩ := List.mem_map.mp member
        exact ih before held
      · intro index slot child atSlot atChild entry member
        rw [List.getElem?_map, Option.map_eq_some_iff] at atChild
        obtain ⟨before, atChild, rfl⟩ := atChild
        rw [toList_mapValues] at member
        obtain ⟨entryBefore, held, rfl⟩ := List.mem_map.mp member
        exact routed index slot before atSlot atChild entryBefore held
      · intro single alone
        obtain ⟨before, rfl, rfl⟩ := List.map_eq_singleton_iff.mp alone
        rw [isLeaf_mapValues]
        exact collapsed before rfl
      · rw [← mapValuesAll_eq_map, toLists_mapValuesAll, List.length_map, counted]

end Trie

namespace TrieMap

variable [BEq κ] [Hashable κ] {stamp : Stamp} {map other : TrieMap κ ν} {key : κ} {entry : κ × ν}

theorem wellFormed_empty : (empty : TrieMap κ ν).WellFormed := ⟨.inl rfl, rfl⟩

/-- A map that counts the entries of a well-formed trie. -/
theorem wellFormed_ofRoot {root : Trie κ ν} (sound : root = .empty ∨ root.WellFormed 0) :
    (ofRoot root).WellFormed := by
  refine ⟨sound, ?_⟩
  rcases sound with rfl | sound
  · rfl
  · exact sound.size_eq_length

namespace WellFormed

/-- The keys of one hash are pairwise unequal. -/
theorem distinct_runOf (wellFormed : map.WellFormed) (code : UInt64) :
    (runOf code map.toList).Distinct := by
  rcases wellFormed.root with empty | sound
  · rw [toList, empty]
    exact List.Pairwise.nil
  · exact sound.distinct_runOf code

/-- The entry of a key is the one in the run of its hash. -/
theorem getEntry?_eq_find? (wellFormed : map.WellFormed) (key : κ) :
    map.getEntry? key = (runOf (hash key) map.toList).find? key := by
  rcases wellFormed.root with empty | sound
  · rw [toList, getEntry?, empty]
    rfl
  · exact sound.lookup_eq_find? key (hash key)

/-- If equal keys have equal hashes, the entry of a key is the one among all entries. -/
theorem getEntry?_eq [LawfulHashable κ] (wellFormed : map.WellFormed) (key : κ) :
    map.getEntry? key = Run.find? map.toList key := by
  rw [wellFormed.getEntry?_eq_find?, find?_runOf]

/-- If equal keys have equal hashes, no two keys of a map are equal. -/
theorem distinct_toList [LawfulHashable κ] (wellFormed : map.WellFormed) :
    Run.Distinct map.toList :=
  distinct_of_runOf wellFormed.distinct_runOf

theorem containsKey_eq_any [LawfulHashable κ] (wellFormed : map.WellFormed) (key : κ) :
    map.containsKey key = map.keys.any (· == key) := by
  rw [containsKey, wellFormed.getEntry?_eq, Run.find?, List.isSome_find?, keys, List.any_map]
  rfl

/-- A stored key has the hash of the key under which it is found. -/
theorem hash_of_found (wellFormed : map.WellFormed) (found : map.getEntry? key = some entry) :
    hash entry.1 = hash key := by
  rw [wellFormed.getEntry?_eq_find?] at found
  exact (mem_runOf.mp (Run.mem_of_find? found)).2

section Writing

variable [EquivBEq κ]

/-- Writing at the root, whether or not there are entries. -/
theorem upsert_written (wellFormed : map.WellFormed) (stamp : Stamp) (key : κ)
    (resolve : Option ν → ν) :
    (map.root.upsert stamp key (hash key) resolve 0).1.WellFormed 0 ∧
      Written key resolve map.toList (map.root.upsert stamp key (hash key) resolve 0).1.toList
        (map.root.upsert stamp key (hash key) resolve 0).2 := by
  rcases wellFormed.root with empty | sound
  · rw [toList, empty]
    exact ⟨Trie.wellFormed_singleton stamp key 0 (resolve none),
      .of_new [] [] rfl (by simp [Trie.toList])⟩
  · exact Trie.upsert_wellFormed stamp resolve sound fun _ _ => .zero

/-- A key counts as new exactly if it was not there. -/
theorem upsert_added (wellFormed : map.WellFormed) (stamp : Stamp) (key : κ)
    (resolve : Option ν → ν) :
    (map.root.upsert stamp key (hash key) resolve 0).2 = (map.getEntry? key).isNone := by
  rw [(wellFormed.upsert_written stamp key resolve).2.flag, Run.upsert_added,
    wellFormed.getEntry?_eq_find?]

/-- Inserting writes to the run of the hash of the key. -/
theorem insert_written (wellFormed : map.WellFormed) (stamp : Stamp) (key : κ) (value : ν) :
    Written key (fun _ => value) map.toList (map.insert stamp key value).toList
      (map.getEntry? key).isNone := by
  have written := (wellFormed.upsert_written stamp key fun _ => value).2
  rwa [wellFormed.upsert_added] at written

protected theorem insert (wellFormed : map.WellFormed) (key : κ) (value : ν) :
    (map.insert stamp key value).WellFormed := by
  obtain ⟨sound, written⟩ := wellFormed.upsert_written stamp key fun _ => value
  refine ⟨.inr sound, ?_⟩
  change (if (map.root.upsert stamp key (hash key) (fun _ => value) 0).2 then map.length + 1
    else map.length) = (map.root.upsert stamp key (hash key) (fun _ => value) 0).1.toList.length
  rw [written.length, wellFormed.length]
  split <;> rfl

/-- Writing under a key that is there leaves the length. -/
theorem insert_of_found (wellFormed : map.WellFormed) (found : map.getEntry? key = some entry)
    (value : ν) : map.insert stamp entry.1 value =
      ⟨(map.root.insert stamp entry.1 (hash key) value).1, map.length⟩ := by
  have same := wellFormed.hash_of_found found
  have again : map.getEntry? entry.1 = some entry := by
    rw [wellFormed.getEntry?_eq_find?] at found ⊢
    rw [same, Run.find?_congr _ (Run.key_of_find? found), found]
  have added := wellFormed.upsert_added stamp entry.1 fun _ => value
  rw [again, same] at added
  simp only [insert, Trie.insert, added, same, Option.isNone_some, Bool.false_eq_true, if_false]

/-- Writing under a key that is not there adds one to the length. -/
theorem insert_of_missing (wellFormed : map.WellFormed) (missing : map.getEntry? key = none)
    (value : ν) : map.insert stamp key value =
      ⟨(map.root.insert stamp key (hash key) value).1, map.length + 1⟩ := by
  have added := wellFormed.upsert_added stamp key fun _ => value
  rw [missing] at added
  simp only [insert, Trie.insert, added, Option.isNone_none, if_true]

protected theorem insertMany (wellFormed : map.WellFormed) (entries : List (κ × ν)) :
    (map.insertMany stamp entries).WellFormed := by
  induction entries generalizing map with
  | nil => exact wellFormed
  | cons entry entries ih => exact ih (wellFormed.insert entry.1 entry.2)

end Writing

section Erasing

/-- A key that is not there is not taken out. -/
theorem erase_of_missing (wellFormed : map.WellFormed) (missing : map.getEntry? key = none) :
    map.erase stamp key = map := by
  rw [wellFormed.getEntry?_eq_find?] at missing
  have failed : map.root.erase? stamp key (hash key) 0 = none := by
    rcases wellFormed.root with empty | sound
    · rw [empty]
      rfl
    · exact (Trie.erase?_eq_none_iff sound).mpr missing
  rw [erase, failed]

/-- A key that is there is taken out of the run of its hash. -/
theorem erased_of_found (wellFormed : map.WellFormed) (stamp : Stamp)
    (found : map.getEntry? key = some entry) :
    (map.erase stamp key).WellFormed ∧
      Erased key map.toList (map.erase stamp key).toList := by
  rw [wellFormed.getEntry?_eq_find?] at found
  have sound : map.root.WellFormed 0 := by
    refine wellFormed.root.resolve_left ?_
    intro empty
    rw [toList, empty] at found
    cases found
  cases taken : map.root.erase? stamp key (hash key) 0 with
  | none =>
      rw [toList, (Trie.erase?_eq_none_iff sound).mp taken] at found
      cases found
  | some root =>
      obtain ⟨soundAfter, erased⟩ := Trie.wellFormed_of_erase? sound taken
      rw [erase, taken]
      refine ⟨⟨soundAfter, ?_⟩, erased⟩
      change map.length - 1 = root.toList.length
      rw [wellFormed.length, toList, ← erased.length]
      rfl

/-- If equal keys have equal hashes, the entries with other keys are left of each run. -/
theorem runOf_erase [EquivBEq κ] [LawfulHashable κ] (wellFormed : map.WellFormed) (stamp : Stamp)
    (key : κ) (code : UInt64) : runOf code (map.erase stamp key).toList =
      (runOf code map.toList).filter fun entry => !entry.1 == key := by
  have kept (absent : ∀ entry ∈ runOf code map.toList, (entry.1 == key) = false) :
      (runOf code map.toList).filter (fun entry => !entry.1 == key) = runOf code map.toList :=
    List.filter_eq_self.mpr fun entry member => by rw [absent entry member]; rfl
  cases found : map.getEntry? key with
  | none =>
      rw [wellFormed.erase_of_missing found, kept]
      intro entry member
      rw [wellFormed.getEntry?_eq] at found
      exact Run.find?_eq_none_iff.mp found entry (mem_runOf.mp member).1
  | some stored =>
      have erased := (wellFormed.erased_of_found stamp found).2
      by_cases same : code = hash key
      · subst same
        exact Run.eq_filter_of_erase? (wellFormed.distinct_runOf _) erased.run
      · rw [erased.others code same, kept]
        intro entry member
        by_contra equal
        rw [Bool.not_eq_false] at equal
        rw [← (mem_runOf.mp member).2] at same
        exact same (LawfulHashable.hash_eq _ _ equal)

protected theorem erase (wellFormed : map.WellFormed) (key : κ) :
    (map.erase stamp key).WellFormed := by
  cases found : map.getEntry? key with
  | none => rwa [wellFormed.erase_of_missing found]
  | some entry => exact (wellFormed.erased_of_found stamp found).1

protected theorem eraseAll (wellFormed : map.WellFormed) (keys : List κ) :
    (map.eraseAll stamp keys).WellFormed := by
  induction keys generalizing map with
  | nil => exact wellFormed
  | cons key keys ih => exact ih (wellFormed.erase key)

end Erasing

section Conditional

variable [EquivBEq κ]

/-- An update writes under the stored key. -/
theorem update?_eq (wellFormed : map.WellFormed) (key : κ) (function : ν → ν) :
    map.update? stamp key function =
      (map.getEntry? key).map fun entry => map.insert stamp entry.1 (function entry.2) := by
  unfold update?
  cases found : map.getEntry? key with
  | none => rfl
  | some entry => exact congrArg some (wellFormed.insert_of_found found _).symm

/-- The four cases of an alteration. -/
theorem alter_eq (wellFormed : map.WellFormed) (key : κ) (updater : Option ν → Option ν) :
    map.alter stamp key updater =
      match map.getEntry? key, updater ((map.getEntry? key).map Prod.snd) with
      | some entry, some value => map.insert stamp entry.1 value
      | some _, none => map.erase stamp key
      | none, some value => map.insert stamp key value
      | none, none => map := by
  rw [alter]
  cases found : map.getEntry? key with
  | none =>
      rw [Option.map_none]
      cases updater none with
      | none => rfl
      | some value => exact (wellFormed.insert_of_missing found value).symm
  | some entry =>
      rw [Option.map_some]
      cases updater (some entry.2) with
      | none => rfl
      | some value => exact (wellFormed.insert_of_found found value).symm

protected theorem update? {after : TrieMap κ ν} (wellFormed : map.WellFormed) {function : ν → ν}
    (updated : map.update? stamp key function = some after) : after.WellFormed := by
  rw [wellFormed.update?_eq, Option.map_eq_some_iff] at updated
  obtain ⟨entry, -, rfl⟩ := updated
  exact wellFormed.insert entry.1 (function entry.2)

protected theorem alter (wellFormed : map.WellFormed) (key : κ) (updater : Option ν → Option ν) :
    (map.alter stamp key updater).WellFormed := by
  rw [wellFormed.alter_eq]
  split
  · exact wellFormed.insert _ _
  · exact wellFormed.erase key
  · exact wellFormed.insert _ _
  · exact wellFormed

protected theorem replace [BEq ν] (wellFormed : map.WellFormed) (current replacement : κ × ν) :
    (map.replace stamp current replacement).WellFormed := by
  unfold replace
  split
  · exact (wellFormed.erase current.1).insert _ _
  · exact wellFormed

end Conditional

section Merging

variable [EquivBEq κ]

/-- Merging at the root, whether or not there are entries. -/
theorem merge_root (sharing : Trie.Sharing) (resolve : ν → ν → ν) (wellFormed : map.WellFormed)
    (otherWellFormed : other.WellFormed) (fresh : stamp ∉ map.root.stamps) :
    (map.root.merge stamp sharing resolve 0 other.root = .empty ∨
        (map.root.merge stamp sharing resolve 0 other.root).WellFormed 0) ∧
      ∀ code, Run.Merged sharing resolve (runOf code map.toList) (runOf code other.toList)
        (runOf code (map.root.merge stamp sharing resolve 0 other.root).toList) := by
  rcases wellFormed.root with empty | sound
  · rw [toList, empty, Trie.merge]
    exact ⟨otherWellFormed.root, fun _ => .left_nil⟩
  · rcases otherWellFormed.root with otherEmpty | otherSound
    · rw [toList, toList, otherEmpty, Trie.merge_empty_right]
      exact ⟨.inr sound, fun _ => .right_nil⟩
    · obtain ⟨soundAfter, merged⟩ := Trie.merge_wellFormed sharing resolve sound otherSound
        (.root _) (.root _) fresh
      exact ⟨.inr soundAfter, merged⟩

protected theorem merge (wellFormed : map.WellFormed) (otherWellFormed : other.WellFormed)
    (fresh : stamp ∉ map.root.stamps) : (map.merge stamp other).WellFormed := by
  unfold merge
  split
  · exact otherWellFormed
  · exact wellFormed_ofRoot (wellFormed.merge_root _ _ otherWellFormed fresh).1

protected theorem mergeWith (wellFormed : map.WellFormed) (otherWellFormed : other.WellFormed)
    (fresh : stamp ∉ map.root.stamps) (resolve : ν → ν → ν) :
    (map.mergeWith stamp other resolve).WellFormed :=
  wellFormed_ofRoot (wellFormed.merge_root _ resolve otherWellFormed fresh).1

end Merging

protected theorem mapValues (wellFormed : map.WellFormed) (function : ν → ω) :
    (map.mapValues stamp function).WellFormed := by
  refine ⟨?_, ?_⟩
  · rcases wellFormed.root with empty | sound
    · exact .inl (by rw [mapValues, empty]; rfl)
    · exact .inr sound.mapValues
  · change map.length = (map.root.mapValues stamp function).toList.length
    rw [Trie.toList_mapValues, List.length_map, wellFormed.length, toList]

end WellFormed

end TrieMap

end HashTrie
