import HashTrie.Proofs.Collecting
import HashTrie.SortedMap

/-!
# Containers that lose nothing

A container may arrange the entries that it is collected from in an order of its own, and
of entries with equal keys it may keep only one. If no two keys are equal it has to hold all
entries, and its count has to be right (`LawfulCollection`). Plain lists, hash maps and
sorted maps do so.
-/

namespace HashTrie

/-- A container that holds just the entries it is collected from, provided that their keys
are unequal, and that counts its entries rightly. -/
class LawfulCollection (δ : Type) {κ ν : outParam Type} [BEq κ] [EntrySequence δ κ ν]
    [Collection δ κ ν] : Prop where
  perm : ∀ (stamp : Stamp) {part : List (κ × ν)}, Run.Distinct part →
    (entries (collect stamp part : δ)).Perm part
  counted : ∀ (stamp : Stamp) (part : List (κ × ν)),
    entryCount (collect stamp part : δ) = (entries (collect stamp part : δ)).length

variable {κ ν : Type} [BEq κ]

instance : LawfulCollection (List (κ × ν)) where
  perm _ _ _ := .refl _
  counted _ _ := rfl

instance [Hashable κ] [EquivBEq κ] : LawfulCollection (TrieMap κ ν) where
  perm stamp _ distinct := perm_of_runOf fun _ =>
    TrieMap.runOf_ofList stamp (distinct.sublist List.filter_sublist)
  counted stamp part := (TrieMap.wellFormed_ofList stamp part).length

namespace SortedMap

variable [Ord κ] [Std.LawfulBEqOrd κ]

/-- An entry under a new key is put among the others. -/
theorem perm_put {entry : κ × ν} {entries : List (κ × ν)}
    (new : ∀ stored ∈ entries, (entry.1 == stored.1) = false) :
    (put entry entries).Perm (entry :: entries) := by
  induction entries with
  | nil => exact .refl _
  | cons stored rest ih =>
      rw [put]
      cases order : compare entry.1 stored.1 with
      | lt => exact .refl _
      | eq =>
          have clash := Std.LawfulBEqCmp.compare_eq_iff_beq.mp order
          rw [new stored List.mem_cons_self] at clash
          cases clash
      | gt =>
          have moved := ih fun other member => new other (.tail _ member)
          exact (moved.cons stored).trans (.swap entry stored rest)

/-- Entries under new keys, inserted one after another, come to those that are there. -/
theorem perm_foldl_insert [EquivBEq κ] (map : SortedMap κ ν) {part : List (κ × ν)}
    (distinct : Run.Distinct (map.entries ++ part)) :
    (part.foldl (fun sorted entry => sorted.insert entry.1 entry.2) map).entries.Perm
      (map.entries ++ part) := by
  induction part generalizing map with
  | nil =>
      rw [List.append_nil]
      exact .refl _
  | cons entry part ih =>
      have new : ∀ stored ∈ map.entries, (entry.1 == stored.1) = false := by
        intro stored member
        rw [BEq.comm]
        exact (List.pairwise_append.mp distinct).2.2 stored member entry List.mem_cons_self
      have moved : ((map.insert entry.1 entry.2).entries ++ part).Perm
          (map.entries ++ entry :: part) :=
        ((perm_put new).append_right part).trans List.perm_middle.symm
      exact (ih _ (distinct.of_perm moved)).trans moved

instance [EquivBEq κ] : LawfulCollection (SortedMap κ ν) where
  perm _ _ distinct := perm_foldl_insert ⟨[]⟩ distinct
  counted _ _ := rfl

end SortedMap

end HashTrie
