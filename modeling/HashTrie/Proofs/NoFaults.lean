import HashTrie.Guarded.TrieMap
import HashTrie.Proofs.GuardedMerging
import HashTrie.Proofs.Reachable

/-!
# No operation faults

The code of a map reads children and entries at computed positions, cuts arrays at computed
bounds, and takes one from its counts. All this is sound because a bitmap has a bit for each
child and the counts are the numbers of entries, at every node that any history of
operations leaves behind. So with every step guarded, the operations on a reachable map
come to their results (`no_step_faults`).
-/

namespace HashTrie

variable {κ ν : Type} [BEq κ] [Hashable κ]

namespace TrieMap

/-- Every guarded operation on a map comes to the result of the operation. The other operand
of a merge may be any well-formed map. -/
structure FaultFree (map : TrieMap κ ν) : Prop where
  getEntry? : ∀ key, Guarded.getEntry? map key = .ok (map.getEntry? key)
  insert : ∀ stamp key value, Guarded.insert stamp map key value = .ok (map.insert stamp key value)
  insertMany : ∀ stamp entries,
    Guarded.insertMany stamp map entries = .ok (map.insertMany stamp entries)
  erase : ∀ stamp key, Guarded.erase stamp map key = .ok (map.erase stamp key)
  eraseAll : ∀ stamp keys, Guarded.eraseAll stamp map keys = .ok (map.eraseAll stamp keys)
  update? : ∀ stamp key function,
    Guarded.update? stamp map key function = .ok (map.update? stamp key function)
  alter : ∀ stamp key updater,
    Guarded.alter stamp map key updater = .ok (map.alter stamp key updater)
  replace : ∀ [BEq ν] stamp current replacement,
    Guarded.replace stamp map current replacement = .ok (map.replace stamp current replacement)
  merge : ∀ stamp (other : TrieMap κ ν), other.WellFormed →
    Guarded.merge stamp map other = .ok (map.merge stamp other)
  mergeWith : ∀ stamp (other : TrieMap κ ν) resolve, other.WellFormed →
    Guarded.mergeWith stamp map other resolve = .ok (map.mergeWith stamp other resolve)

namespace WellFormed

open HashTrie.Guarded

variable {map other : TrieMap κ ν} {stamp : Stamp}

theorem guarded_getEntry? (wellFormed : map.WellFormed) (key : κ) :
    Guarded.getEntry? map key = .ok (map.getEntry? key) := by
  rw [Guarded.getEntry?, TrieMap.getEntry?]
  rcases wellFormed.root with empty | sound
  · rw [empty]
    rfl
  · exact Trie.Guarded.lookup_eq sound key (hash key)

theorem guarded_contains [BEq ν] (wellFormed : map.WellFormed) (entry : κ × ν) :
    Guarded.contains map entry = .ok (map.contains entry) := by
  rw [Guarded.contains, wellFormed.guarded_getEntry?, ok_bind, TrieMap.contains, get?]
  cases map.getEntry? entry.1 <;> rfl

theorem guarded_insertRoot (wellFormed : map.WellFormed) (key : κ) (code : UInt64) (value : ν) :
    Guarded.insertRoot stamp map key code value = .ok (map.root.insert stamp key code value) := by
  rw [Guarded.insertRoot, Trie.insert]
  rcases wellFormed.root with empty | sound
  · rw [empty]
    rfl
  · exact Trie.Guarded.upsert_eq stamp key _ sound fun _ _ => .zero

theorem guarded_insert (wellFormed : map.WellFormed) (key : κ) (value : ν) :
    Guarded.insert stamp map key value = .ok (map.insert stamp key value) := by
  rw [Guarded.insert, wellFormed.guarded_insertRoot, ok_bind, TrieMap.insert]
  rcases map.root.insert stamp key (hash key) value with ⟨root, _ | _⟩ <;> rfl

/-- The number of entries is not zero where a key is taken out. -/
theorem guarded_erase (wellFormed : map.WellFormed) (key : κ) :
    Guarded.erase stamp map key = .ok (map.erase stamp key) := by
  rw [Guarded.erase, TrieMap.erase]
  rcases wellFormed.root with empty | sound
  · rw [empty]
    rfl
  · have counted : 1 ≤ map.length := by
      rw [wellFormed.length]
      exact List.length_pos_iff.mpr sound.toList_ne_nil
    rw [Trie.Guarded.erase?_eq stamp key sound, ok_bind]
    cases map.root.erase? stamp key (hash key) 0 with
    | none => rfl
    | some root =>
        change subtract map.length 1 >>= _ = _
        rw [subtract_of_le counted]
        rfl

theorem guarded_update? (wellFormed : map.WellFormed) (key : κ) (function : ν → ν) :
    Guarded.update? stamp map key function = .ok (map.update? stamp key function) := by
  rw [Guarded.update?, wellFormed.guarded_getEntry?, ok_bind, TrieMap.update?]
  cases map.getEntry? key with
  | none => rfl
  | some entry =>
      change Guarded.insertRoot stamp map entry.1 (hash key) (function entry.2) >>= _ = _
      rw [wellFormed.guarded_insertRoot]
      rfl

theorem guarded_alter (wellFormed : map.WellFormed) (key : κ) (updater : Option ν → Option ν) :
    Guarded.alter stamp map key updater = .ok (map.alter stamp key updater) := by
  rw [Guarded.alter, wellFormed.guarded_getEntry?, ok_bind, TrieMap.alter]
  cases map.getEntry? key with
  | none =>
      cases made : updater none with
      | none => simp [made]
      | some value => simp [made, wellFormed.guarded_insertRoot]
  | some entry =>
      cases made : updater (some entry.2) with
      | none => simp [made, wellFormed.guarded_erase]
      | some value => simp [made, wellFormed.guarded_insertRoot]

variable [EquivBEq κ]

theorem guarded_insertMany (wellFormed : map.WellFormed) (entries : List (κ × ν)) :
    Guarded.insertMany stamp map entries = .ok (map.insertMany stamp entries) := by
  induction entries generalizing map with
  | nil => rfl
  | cons entry entries ih =>
      rw [Guarded.insertMany, List.foldlM_cons, wellFormed.guarded_insert]
      exact ih (wellFormed.insert entry.1 entry.2)

omit [EquivBEq κ] in
theorem guarded_eraseAll (wellFormed : map.WellFormed) (keys : List κ) :
    Guarded.eraseAll stamp map keys = .ok (map.eraseAll stamp keys) := by
  induction keys generalizing map with
  | nil => rfl
  | cons key keys ih =>
      rw [Guarded.eraseAll, List.foldlM_cons, wellFormed.guarded_erase]
      exact ih (wellFormed.erase key)

omit [EquivBEq κ] in
theorem guarded_replace [BEq ν] (wellFormed : map.WellFormed) (current replacement : κ × ν) :
    Guarded.replace stamp map current replacement =
      .ok (map.replace stamp current replacement) := by
  rw [Guarded.replace, wellFormed.guarded_contains, ok_bind, TrieMap.replace]
  split
  · rw [wellFormed.guarded_erase, ok_bind]
    exact (wellFormed.erase current.1).guarded_insert _ _
  · rfl

/-- Merging at the root, whether or not there are entries. -/
theorem guarded_merge_root (wellFormed : map.WellFormed) (otherWellFormed : other.WellFormed)
    (sharing : Trie.Sharing) (resolve : ν → ν → ν) :
    Trie.Guarded.merge stamp sharing resolve 0 map.root other.root =
      .ok (map.root.merge stamp sharing resolve 0 other.root) := by
  rcases wellFormed.root with empty | sound
  · rw [empty]
    simp [Trie.Guarded.merge, Trie.merge]
  · rcases otherWellFormed.root with otherEmpty | otherSound
    · rw [otherEmpty, Trie.merge_empty_right, Trie.Guarded.merge_empty_right]
    · exact Trie.Guarded.merge_eq stamp sharing resolve sound otherSound (.root _) (.root _)

/-- No operation on a well-formed map faults. -/
theorem faultFree (wellFormed : map.WellFormed) : map.FaultFree where
  getEntry? := wellFormed.guarded_getEntry?
  insert _ := wellFormed.guarded_insert
  insertMany _ := wellFormed.guarded_insertMany
  erase _ := wellFormed.guarded_erase
  eraseAll _ := wellFormed.guarded_eraseAll
  update? _ := wellFormed.guarded_update?
  alter _ := wellFormed.guarded_alter
  replace _ := wellFormed.guarded_replace
  merge stamp other otherWellFormed := by
    rw [Guarded.merge, TrieMap.merge, wellFormed.guarded_merge_root otherWellFormed]
    split <;> rfl
  mergeWith stamp other resolve otherWellFormed := by
    rw [Guarded.mergeWith, wellFormed.guarded_merge_root otherWellFormed]
    rfl

end WellFormed

end TrieMap

/-- **No step faults.** Whatever the history of a map, the guarded operations on it come to
the results of the operations: every position and bound lies within its array, no count goes
below zero, and two leaves are told apart only by different hashes that agree above. The
indices of slots fit a bitmap at any depth. -/
theorem no_step_faults [EquivBEq κ] {pool : Pool κ} (reachable : Reachable pool)
    {map : TrieMap κ ν} (held : ⟨ν, map⟩ ∈ pool) :
    map.FaultFree ∧ ∀ (code : UInt64) (depth : Nat), Guarded.slotIndex code depth < 32 :=
  ⟨(reachable.sound held).faultFree, Guarded.slotIndex_lt⟩

omit [BEq κ] [Hashable κ] in
/-- The keys 0 and 2^64 have one and the same hash, and 32 has the same first digit. Taking
out 32 drops one of two children and brings up the run, and in a merge with the older map the
runs meet below the root. -/
theorem no_step_faults_of_collisions :
    let older : TrieMap Nat Nat := .ofList (.ofNat 0) [(0, 1), (32, 2)]
    let twin := 0x10000000000000000
    let map := older.insert (.ofNat 1) twin 3
    Reachable [⟨Nat, map⟩, ⟨Nat, older⟩] ∧ map.FaultFree ∧
      TrieMap.Guarded.erase (.ofNat 2) map 32 = .ok (map.erase (.ofNat 2) 32) ∧
      (map.erase (.ofNat 2) 32).toList = [(0, 1), (twin, 3)] ∧
      TrieMap.Guarded.mergeWith (.ofNat 2) map older (· + ·) =
        .ok (map.mergeWith (.ofNat 2) older (· + ·)) ∧
      (map.mergeWith (.ofNat 2) older (· + ·)).toList = [(0, 2), (twin, 3), (32, 4)] := by
  intro older twin map
  have first : Reachable [⟨Nat, older⟩] := .ofList _ _
  have second : Reachable [⟨Nat, map⟩, ⟨Nat, older⟩] :=
    .cons first (by decide) (.insert List.mem_cons_self twin 3)
  obtain ⟨faultFree, _⟩ := no_step_faults second List.mem_cons_self
  have operand := first.sound List.mem_cons_self
  exact ⟨second, faultFree, faultFree.erase _ _, by decide, faultFree.mergeWith _ _ _ operand,
    by decide⟩

end HashTrie
