import HashTrie.Proofs.Collecting
import HashTrie.Proofs.Reachable

/-!
# Canonical form

The trie of a map does not remember how the map came about. Collecting the entries of a
map in the order of its iteration gives its trie again, and maps with the same keys have
tries of one shape, in which only the runs may be rearranged (`canonical_of_reachable`).
Two ways to the same entries in the same order therefore end in replicas of one another
(`WellFormed.replica`), whatever nodes they build on the way.
-/

namespace HashTrie

variable {κ ν ω : Type} [BEq κ]

namespace Run

/-- The entries of one run are related to those of another, in any order. -/
def Rearranged (related : κ × ν → κ × ω → Prop) (first : Run κ ν) (second : Run κ ω) : Prop :=
  ∃ middle : Run κ ν, middle.Perm first ∧ List.Forall₂ related middle second

variable {related : κ × ν → κ × ω → Prop} {first : Run κ ν} {second : Run κ ω}

omit [BEq κ] in
theorem Rearranged.length_eq (rearranged : Rearranged related first second) :
    first.length = second.length := by
  obtain ⟨middle, order, entries⟩ := rearranged
  rw [← order.length_eq, entries.length_eq]

/-- Runs without duplicate keys in which each entry has a related one in the other, under
the same key. -/
theorem Rearranged.of_found [EquivBEq κ]
    (keys : ∀ {entry other}, related entry other → SameKey entry other)
    (distinct : first.Distinct) (otherDistinct : second.Distinct)
    (found : ∀ entry ∈ first, ∃ other ∈ second, related entry other)
    (otherFound : ∀ other ∈ second, ∃ entry ∈ first, related entry other) :
    Rearranged related first second := by
  induction second generalizing first with
  | nil =>
      cases first with
      | nil => exact ⟨[], .refl _, .nil⟩
      | cons entry first =>
          obtain ⟨_, impossible, _⟩ := found entry List.mem_cons_self
          cases impossible
  | cons other second ih =>
      obtain ⟨entry, member, paired⟩ := otherFound other List.mem_cons_self
      obtain ⟨front, back, rfl⟩ := List.append_of_mem member
      have same := keys paired
      have moved : (front ++ entry :: back).Perm (entry :: (front ++ back)) := List.perm_middle
      obtain ⟨unequal, distinct⟩ := distinct_cons.mp (distinct.of_perm moved.symm)
      obtain ⟨otherUnequal, otherDistinct⟩ := distinct_cons.mp otherDistinct
      -- what equals one of the two paired entries stands beside the other
      have rest : Rearranged related (front ++ back) second := by
        refine ih distinct otherDistinct ?_ ?_
        · intro kept inRest
          obtain ⟨partner, held, pair⟩ := found kept (moved.mem_iff.mpr (.tail _ inRest))
          rcases List.mem_cons.mp held with rfl | held
          · have clash : (entry.1 == kept.1) = true := BEq.trans same (BEq.symm (keys pair))
            rw [unequal kept inRest] at clash
            cases clash
          · exact ⟨partner, held, pair⟩
        · intro partner inRest
          obtain ⟨kept, held, pair⟩ := otherFound partner (.tail _ inRest)
          rcases List.mem_cons.mp (moved.mem_iff.mp held) with rfl | held
          · have clash : (other.1 == partner.1) = true := BEq.trans (BEq.symm same) (keys pair)
            rw [otherUnequal partner inRest] at clash
            cases clash
          · exact ⟨kept, held, pair⟩
      obtain ⟨middle, order, entries⟩ := rest
      exact ⟨entry :: middle, (order.cons entry).trans moved.symm, .cons paired entries⟩

omit [BEq κ] in
/-- A run of at most one entry cannot be rearranged. -/
theorem Rearranged.forall₂ (rearranged : Rearranged related first second)
    (short : first.length ≤ 1) : List.Forall₂ related first second := by
  obtain ⟨middle, order, entries⟩ := rearranged
  have kept : middle = first := by
    match first, short with
    | [], _ => exact order.eq_nil
    | [entry], _ => exact List.perm_singleton.mp order
  rwa [kept] at entries

end Run

/-- Two maps that only the identity of their nodes tells apart: they have the same bitmaps,
sizes, leaf hashes and runs at the same places, one length and one iteration. -/
structure TrieMap.Replica (map other : TrieMap κ ν) : Prop where
  trie : map.root.Alike (· = ·) other.root
  length : map.length = other.length
  iteration : map.cursor.rest = other.cursor.rest

variable [Hashable κ] [EquivBEq κ] {map : TrieMap κ ν} {other : TrieMap κ ω}

namespace TrieMap.WellFormed

omit [EquivBEq κ] in
/-- Maps with the same entries in the same order are replicas of one another. -/
theorem replica {other : TrieMap κ ν} (wellFormed : map.WellFormed)
    (otherWellFormed : other.WellFormed) (same : map.toList = other.toList) :
    map.Replica other := by
  refine ⟨wellFormed.alike rfl (congrArg List.length) otherWellFormed ?_, ?_, ?_⟩
  · intro code
    rw [same]
  · rw [wellFormed.length, same, otherWellFormed.length]
  · rw [rest_cursor, rest_cursor, same]

/-- The entries of a map, collected in the order of its iteration, make a replica of it. -/
theorem replica_ofList (wellFormed : map.WellFormed) (stamp : Stamp) :
    (ofList stamp map.toList).Replica map :=
  (wellFormed_ofList stamp map.toList).replica wellFormed
    (wellFormed.toList_ofList_sublist stamp (List.Sublist.refl map.toList))

omit [EquivBEq κ] in
theorem exists_of_containsKey (wellFormed : map.WellFormed) {key : κ}
    (contained : map.containsKey key = true) :
    ∃ entry ∈ runOf (hash key) map.toList, (entry.1 == key) = true := by
  rw [containsKey, wellFormed.getEntry?_eq_find?] at contained
  obtain ⟨entry, found⟩ := Option.isSome_iff_exists.mp contained
  exact ⟨entry, Run.mem_of_find? found, Run.key_of_find? found⟩

theorem containsKey_of_mem (wellFormed : map.WellFormed) {entry : κ × ν}
    (member : entry ∈ map.toList) : map.containsKey entry.1 = true := by
  rw [containsKey, wellFormed.getEntry?_eq_find?, (wellFormed.distinct_runOf _).find?_of_mem
    (mem_iff_mem_runOf.mp member) BEq.rfl]
  rfl

/-- Maps with the same keys have the same keys in each run. -/
theorem rearranged_runOf (wellFormed : map.WellFormed) (otherWellFormed : other.WellFormed)
    (keys : ∀ key, map.containsKey key = other.containsKey key) (code : UInt64) :
    Run.Rearranged SameKey (runOf code map.toList) (runOf code other.toList) := by
  refine .of_found id (wellFormed.distinct_runOf code) (otherWellFormed.distinct_runOf code) ?_ ?_
  · intro entry member
    obtain ⟨held, rfl⟩ := mem_runOf.mp member
    have contained := wellFormed.containsKey_of_mem held
    rw [keys] at contained
    obtain ⟨partner, inRun, same⟩ := otherWellFormed.exists_of_containsKey contained
    exact ⟨partner, inRun, BEq.symm same⟩
  · intro entry member
    obtain ⟨held, rfl⟩ := mem_runOf.mp member
    have contained := otherWellFormed.containsKey_of_mem held
    rw [← keys] at contained
    exact wellFormed.exists_of_containsKey contained

omit [EquivBEq κ] in
/-- If a hash belongs to one key only, its run has at most one entry. -/
theorem length_runOf_le_one (wellFormed : map.WellFormed)
    (injective : ∀ first ∈ map.keys, ∀ second ∈ map.keys, hash first = hash second →
      (first == second) = true) (code : UInt64) : (runOf code map.toList).length ≤ 1 := by
  have distinct := wellFormed.distinct_runOf code
  match listed : runOf code map.toList with
  | [] => exact Nat.zero_le 1
  | [_] => exact Nat.le_refl 1
  | first :: second :: _ =>
      have inMap (entry : κ × ν) (member : entry ∈ runOf code map.toList) :
          entry.1 ∈ map.keys ∧ hash entry.1 = code :=
        ⟨List.mem_map_of_mem (mem_runOf.mp member).1, (mem_runOf.mp member).2⟩
      rw [listed] at distinct inMap
      obtain ⟨firstHeld, firstHash⟩ := inMap first List.mem_cons_self
      obtain ⟨secondHeld, secondHash⟩ := inMap second (.tail _ List.mem_cons_self)
      have equal := injective _ firstHeld _ secondHeld (firstHash.trans secondHash.symm)
      rw [(Run.distinct_cons.mp distinct).1 second List.mem_cons_self] at equal
      cases equal

end TrieMap.WellFormed

/-- **Canonical form.** Collecting the entries of a map in the order of its iteration
gives a trie with the same bitmaps, sizes, leaf hashes and runs. Two maps with the same
keys, whatever their histories, have tries of one shape in which only the entries of
one hash may stand in another order; if no hash belongs to two keys, they are iterated
in the same order of keys. -/
theorem canonical_of_reachable {pool otherPool : Pool κ} (reachable : Reachable pool)
    (otherReachable : Reachable otherPool) (held : ⟨ν, map⟩ ∈ pool)
    (otherHeld : ⟨ω, other⟩ ∈ otherPool) :
    (∀ stamp, (TrieMap.ofList stamp map.cursor.rest).root.Alike (· = ·) map.root ∧
        (TrieMap.ofList stamp map.cursor.rest).length = map.length) ∧
      ((∀ key, map.containsKey key = other.containsKey key) →
        map.root.Alike (Run.Rearranged SameKey) other.root ∧
          ((∀ first ∈ map.keys, ∀ second ∈ map.keys, hash first = hash second →
              (first == second) = true) →
            List.Forall₂ SameKey map.cursor.rest other.cursor.rest)) := by
  have wellFormed := reachable.sound held
  have otherWellFormed := otherReachable.sound otherHeld
  rw [TrieMap.cursor, TrieMap.cursor, Trie.Cursor.rest_start, Trie.Cursor.rest_start]
  refine ⟨fun stamp => ⟨(wellFormed.replica_ofList stamp).trie,
    (wellFormed.replica_ofList stamp).length⟩, ?_⟩
  intro keys
  have rearranged := wellFormed.rearranged_runOf otherWellFormed keys
  refine ⟨wellFormed.alike ⟨[], .refl _, .nil⟩ Run.Rearranged.length_eq otherWellFormed
    rearranged, ?_⟩
  intro injective
  have alike := wellFormed.alike .nil List.Forall₂.length_eq otherWellFormed fun code =>
    (rearranged code).forall₂ (wellFormed.length_runOf_le_one injective code)
  exact alike.forall₂_toList

omit [BEq κ] [Hashable κ] [EquivBEq κ] in
/-- The keys 0 and 2^64 have one hash, and 32 differs from it in the second digit. Two
maps with these keys, the one collected and the other merged and cut back, have runs in
different orders; without the key 0 they are iterated alike. -/
theorem canonical_of_collisions :
    let twin := 0x10000000000000000
    let map : TrieMap Nat Nat := .ofList (.ofNat 0) [(0, 1), (32, 2), (twin, 3)]
    let first : TrieMap Nat Nat := .ofList (.ofNat 0) [(32, 4), (twin, 5)]
    let second : TrieMap Nat Nat := .ofList (.ofNat 1) [(1, 6), (0, 7)]
    let merged := second.merge (.ofNat 2) first
    let other := merged.erase (.ofNat 3) 1
    (map.root.Alike (Run.Rearranged SameKey) other.root ∧
        map.keys = [0, twin, 32] ∧ other.keys = [twin, 0, 32]) ∧
      List.Forall₂ SameKey first.cursor.rest (other.erase (.ofNat 4) 0).cursor.rest := by
  intro twin map first second merged other
  have ofMap : Reachable [⟨Nat, map⟩] := .cons .nil (by decide) (.ofList _)
  have one : Reachable [⟨Nat, first⟩] := .cons .nil (by decide) (.ofList _)
  have two : Reachable [⟨Nat, second⟩, ⟨Nat, first⟩] := .cons one (by decide) (.ofList _)
  have three : Reachable [⟨Nat, merged⟩, ⟨Nat, second⟩, ⟨Nat, first⟩] :=
    .cons two (by decide) (.merge List.mem_cons_self (.tail _ List.mem_cons_self))
  have four : Reachable [⟨Nat, other⟩, ⟨Nat, merged⟩, ⟨Nat, second⟩, ⟨Nat, first⟩] :=
    .cons three (by decide) (.erase List.mem_cons_self 1)
  have five : Reachable [⟨Nat, other.erase (.ofNat 4) 0⟩, ⟨Nat, other⟩, ⟨Nat, merged⟩,
      ⟨Nat, second⟩, ⟨Nat, first⟩] :=
    .cons four (by decide) (.erase List.mem_cons_self 0)
  have keys : map.keys = [0, twin, 32] := by decide
  have otherKeys : other.keys = [twin, 0, 32] := by decide
  refine ⟨⟨((canonical_of_reachable ofMap four List.mem_cons_self List.mem_cons_self).2 ?_).1,
    keys, otherKeys⟩, ?_⟩
  · intro key
    rw [(ofMap.sound List.mem_cons_self).containsKey_eq_any, keys,
      (four.sound List.mem_cons_self).containsKey_eq_any, otherKeys]
    simp [Bool.or_left_comm]
  · have shorter : (other.erase (.ofNat 4) 0).keys = [twin, 32] := by decide
    have firstKeys : first.keys = [twin, 32] := by decide
    refine ((canonical_of_reachable one five List.mem_cons_self List.mem_cons_self).2 ?_).2
      (by decide)
    intro key
    rw [(one.sound List.mem_cons_self).containsKey_eq_any, firstKeys,
      (five.sound List.mem_cons_self).containsKey_eq_any, shorter]

end HashTrie
