import HashTrie.Proofs.IterationOrder
import HashTrie.Proofs.Shapes

/-!
# Maps collected from entries

Inserting entries one after another writes them to the runs of their hashes, in their
order (`WellFormed.runOf_insertMany`). Entries with unequal keys therefore keep their
order within each run, and entries that stand in digit order besides are iterated as
they were given (`toList_ofList`). A part of the iteration of a map is such a list. Of
entries with equal keys the last one is stored (`getEntry?_ofList`), in the place of the
first (`toList_ofList_eq_mergeSort`).
-/

namespace HashTrie

variable {κ ν : Type} [BEq κ]

/-- Writing entries under new keys puts them at the end. -/
theorem Run.writeAll_of_distinct {entries run : Run κ ν} (distinct : (run ++ entries).Distinct) :
    writeAll entries run = run ++ entries := by
  refine foldl_of_new ?_ distinct
  intro run entry new
  exact upsert_of_new entry.1 _ new

/-- The last entry under a key. -/
def Run.findLast? (run : Run κ ν) (key : κ) : Option (κ × ν) :=
  (run.filter fun entry => entry.1 == key).getLast?

theorem Run.findLast?_cons (entry : κ × ν) (run : Run κ ν) (key : κ) :
    findLast? (entry :: run) key =
      (findLast? run key).or (if entry.1 == key then some entry else none) := by
  rw [findLast?, findLast?, List.filter_cons]
  cases entry.1 == key with
  | false => exact Option.or_none.symm
  | true =>
      rw [if_pos rfl, if_pos rfl, List.getLast?_cons]
      cases (run.filter fun entry => entry.1 == key).getLast? <;> rfl

theorem Run.isSome_findLast? (run : Run κ ν) (key : κ) :
    (run.findLast? key).isSome = run.any fun entry => entry.1 == key := by
  induction run with
  | nil => rfl
  | cons entry run ih =>
      rw [findLast?_cons, Option.isSome_or, ih, List.any_cons, Bool.or_comm]
      cases entry.1 == key <;> rfl

/-- After writing entries a key is found as in the last entry that was written under it. -/
theorem Run.find?_writeAll [EquivBEq κ] (entries run : Run κ ν) (key : κ) :
    (writeAll entries run).find? key = (entries.findLast? key).or (run.find? key) := by
  induction entries generalizing run with
  | nil => rfl
  | cons entry entries ih =>
      have written : writeAll (entry :: entries) run =
          writeAll entries (run.upsert entry.1 fun _ => entry.2).1 := rfl
      rw [written, ih, find?_upsert, findLast?_cons]
      cases entry.1 == key with
      | false => rw [if_neg Bool.false_ne_true, if_neg Bool.false_ne_true, Option.or_none]
      | true => cases findLast? entries key <;> rfl

/-- The entries under a key are in the run of its hash. -/
theorem findLast?_runOf [Hashable κ] [LawfulHashable κ] (entries : List (κ × ν)) (key : κ) :
    (runOf (hash key) entries).findLast? key = Run.findLast? entries key := by
  have hashed : (runOf (hash key) entries).filter (fun entry => entry.1 == key) =
      entries.filter fun entry => entry.1 == key := by
    rw [runOf, List.filter_filter]
    refine List.filter_congr fun entry _ => ?_
    cases equal : entry.1 == key with
    | false => rfl
    | true => simp [LawfulHashable.hash_eq _ _ equal]
  rw [Run.findLast?, hashed, Run.findLast?]

namespace TrieMap

variable [EquivBEq κ] [Hashable κ] {map : TrieMap κ ν} {entries : List (κ × ν)}

/-- Inserting entries writes them to the runs of their hashes. -/
theorem WellFormed.runOf_insertMany (wellFormed : map.WellFormed) (stamp : Stamp)
    (entries : List (κ × ν)) (code : UInt64) : runOf code (map.insertMany stamp entries).toList =
      Run.writeAll (runOf code entries) (runOf code map.toList) := by
  induction entries generalizing map with
  | nil => rfl
  | cons entry entries ih =>
      have written := wellFormed.insert_written stamp entry.1 entry.2
      have stepped : map.insertMany stamp (entry :: entries) =
          (map.insert stamp entry.1 entry.2).insertMany stamp entries := rfl
      rw [stepped, ih (wellFormed.insert entry.1 entry.2)]
      by_cases here : hash entry.1 = code
      · subst here
        rw [written.run, runOf_cons_of_eq rfl]
        rfl
      · rw [written.others code (Ne.symm here), runOf_cons_of_ne here]

theorem wellFormed_ofList (stamp : Stamp) (entries : List (κ × ν)) :
    (ofList stamp entries).WellFormed :=
  wellFormed_empty.insertMany entries

/-- Entries with unequal keys keep their order within each run. -/
theorem runOf_ofList (stamp : Stamp) {code : UInt64} (distinct : (runOf code entries).Distinct) :
    runOf code (ofList stamp entries).toList = runOf code entries := by
  rw [ofList, wellFormed_empty.runOf_insertMany]
  exact Run.writeAll_of_distinct distinct

/-- Entries with unequal keys, given in digit order, are iterated as they were given. -/
theorem toList_ofList (stamp : Stamp) (distinct : ∀ code, (runOf code entries).Distinct)
    (ordered : InDigitOrder entries) : (ofList stamp entries).toList = entries :=
  eq_of_inDigitOrder (wellFormed_ofList stamp entries).inDigitOrder ordered
    fun code => runOf_ofList stamp (distinct code)

/-- Of the entries with a given key the last one is stored. -/
theorem getEntry?_ofList [LawfulHashable κ] (stamp : Stamp) (entries : List (κ × ν)) (key : κ) :
    getEntry? (ofList stamp entries) key = Run.findLast? entries key := by
  rw [(wellFormed_ofList stamp entries).getEntry?_eq_find?, ofList,
    wellFormed_empty.runOf_insertMany, Run.find?_writeAll, findLast?_runOf]
  exact Option.or_none

/-- Entries are iterated in digit order, those of one hash in the order in which their keys
come first. -/
theorem toList_ofList_eq_mergeSort [LawfulHashable κ] (stamp : Stamp) (entries : List (κ × ν)) :
    (ofList stamp entries).toList = (dedupInPlace entries).mergeSort digitLE := by
  apply eq_of_inDigitOrder (wellFormed_ofList stamp entries).inDigitOrder
    (inDigitOrder_mergeSort _)
  intro code
  have respects {first second : κ} (equal : (first == second) = true) :
      (hash first == code) = (hash second == code) := by rw [LawfulHashable.hash_eq _ _ equal]
  rw [runOf_mergeSort, ofList, wellFormed_empty.runOf_insertMany, dedupInPlace_eq_writeAll]
  exact (Run.filter_writeAll (fun key => hash key == code) respects entries []).symm

/-- Any entries of a map, in the order of its iteration, are iterated in that order when
they are collected. -/
theorem WellFormed.toList_ofList_sublist (wellFormed : map.WellFormed) (stamp : Stamp)
    (part : entries.Sublist map.toList) : (ofList stamp entries).toList = entries :=
  toList_ofList stamp (fun code => (wellFormed.distinct_runOf code).sublist (part.filter _))
    (wellFormed.inDigitOrder.sublist part)

end TrieMap

end HashTrie
