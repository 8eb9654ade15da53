import Mathlib.Data.List.Infix
import HashTrie.Proofs.Collecting
import HashTrie.Proofs.Union
import HashTrie.Script.Key
import HashTrie.Traversal.Rebuild
import HashTrie.Traversal.Scans

/-!
# Rebuilding

A map that is rebuilt from entries which a traversal produces takes each key from two places:
it iterates the key where it was produced first and stores what was produced last (`LastWins`).
Both follow from what a collected map is, whatever keys collide
(`TrieMap.lastWins_ofList`); a rebuilding traversal only has to say which entries it produces
and in which order (`rebuilding_lastWins`). For a scan these are the folds of all beginnings of
the source (`statesLeft_eq_map_inits`).
-/

namespace HashTrie

variable {κ ν : Type} [BEq κ]

/-- In entries without duplicate keys each key stands where it comes first, with the entry with
which it comes last. -/
theorem dedupInPlace_eq_filterMap [EquivBEq κ] (entries : List (κ × ν)) :
    dedupInPlace entries =
      (entries.map Prod.fst).eraseDups.filterMap (Run.findLast? entries) := by
  match entries with
  | [] => rfl
  | entry :: entries =>
      let others := entries.filter fun other => !other.1 == entry.1
      have respects {first second : κ} (equal : (first == second) = true) :
          (!first == entry.1) = !second == entry.1 := by rw [BEq.congr_left equal]
      have rest : (dedupInPlace entries).filter (fun other => !other.1 == entry.1) =
          dedupInPlace others := by
        rw [dedupInPlace_eq_writeAll, dedupInPlace_eq_writeAll]
        exact Run.filter_writeAll (fun key => !key == entry.1) respects entries []
      have keys : ((entry :: entries).map Prod.fst).eraseDups =
          entry.1 :: (others.map Prod.fst).eraseDups := by
        rw [List.map_cons, List.eraseDups_cons, List.filter_map]
        rfl
      have head : Run.findLast? (entry :: entries) entry.1 =
          some ((entries.filter (·.1 == entry.1)).getLastD entry) := by
        rw [Run.findLast?_cons, BEq.rfl, if_pos rfl, Run.findLast?, List.getLastD_eq_getLast?]
        cases (entries.filter fun other => other.1 == entry.1).getLast? <;> rfl
      have apart := unequal_eraseDups ((entry :: entries).map Prod.fst)
      rw [keys, List.pairwise_cons] at apart
      rw [dedupInPlace, rest, dedupInPlace_eq_filterMap others, keys,
        List.filterMap_cons_some head]
      refine congrArg _ (List.filterMap_congr fun key listed => ?_)
      -- the entries under a later key are neither the first one nor left out with it
      have different := apart.1 key listed
      rw [Run.findLast?_cons, different, if_neg Bool.false_ne_true, Option.or_none, Run.findLast?,
        Run.findLast?, List.filter_filter]
      refine congrArg _ (List.filter_congr fun other _ => ?_)
      cases equal : other.1 == key with
      | false => rfl
      | true => rw [BEq.congr_left equal, BEq.comm, different]; rfl
termination_by entries.length
decreasing_by exact Nat.lt_succ_of_le (List.length_filter_le ..)

variable [Hashable κ]

/-- A map holds each key of some entries as the last of the entries with that key has it, and no
other key. It is iterated in digit order, and keys with one hash stand in the order in which the
entries have them first. -/
structure LastWins (produced : List (κ × ν)) (map : TrieMap κ ν) : Prop where
  containsKey : ∀ key, map.containsKey key = produced.any fun entry => entry.1 == key
  getEntry? : ∀ key,
    map.getEntry? key = (produced.filter fun entry => entry.1 == key).getLast?
  length : map.length = (produced.map Prod.fst).eraseDups.length
  iteration : map.cursor.rest = ((produced.map Prod.fst).eraseDups.filterMap fun key =>
    (produced.filter fun entry => entry.1 == key).getLast?).mergeSort digitLE

/-- A map that is collected from entries holds them in this way. -/
theorem TrieMap.lastWins_ofList [EquivBEq κ] [LawfulHashable κ] (stamp : Stamp)
    (produced : List (κ × ν)) : LastWins produced (ofList stamp produced) := by
  have wellFormed := wellFormed_ofList stamp produced
  have stored := getEntry?_ofList stamp produced
  have contained (key : κ) : (ofList stamp produced).containsKey key =
      produced.any fun entry => entry.1 == key := by
    rw [containsKey, stored, Run.isSome_findLast?]
  have unequal : (ofList stamp produced).keys.Pairwise fun key other => (key == other) = false :=
    List.pairwise_map.mpr wellFormed.distinct_toList
  have same (key : κ) : (ofList stamp produced).keys.any (· == key) =
      (produced.map Prod.fst).any (· == key) := by
    rw [← wellFormed.containsKey_eq_any, contained, List.any_map]
    rfl
  refine ⟨contained, stored, ?_, ?_⟩
  · rw [← length_eq_length_eraseDups unequal same, keys, List.length_map, wellFormed.length]
  · rw [rest_cursor, toList_ofList_eq_mergeSort, dedupInPlace_eq_filterMap]
    rfl

namespace Traversal

/-- The states of a fold from the left are the folds of all beginnings. -/
theorem statesLeft_eq_map_inits {α β : Type} (operation : β → α → β) (state : β)
    (elements : List α) : statesLeft operation state elements =
      elements.inits.map fun front => front.foldl operation state := by
  induction elements generalizing state with
  | nil => rfl
  | cons element elements ih =>
      rw [statesLeft, ih, List.inits_cons, List.map_cons, List.map_map]
      rfl

/-- **The last entry wins.** Whatever source is traversed, a map that is rebuilt from it has
exactly the keys that are produced; each key is stored as it is produced last and iterated, among
the keys of its hash, where it is produced first; and the length is the number of distinct keys.
Mapping produces an entry for each entry of the source, in its order, mapping to many produces
the entries of each in turn, and a scan produces the first state and then the running ones. -/
theorem rebuilding_lastWins {σ κ ν μ ω : Type} [EntrySequence σ κ ν] [BEq κ] [Hashable κ]
    [EquivBEq κ] [LawfulHashable κ] [BEq μ] [Hashable μ] [EquivBEq μ] [LawfulHashable μ]
    (source : σ) (stamp : Stamp) :
    (∀ function : κ × ν → μ × ω,
        LastWins ((entries source).map function) (map stamp source function)) ∧
      (∀ function : κ × ν → List (μ × ω),
        LastWins ((entries source).flatMap function) (flatMap stamp source function)) ∧
      ∀ (zero : κ × ν) (operation : κ × ν → κ × ν → κ × ν),
        LastWins ((entries source).inits.map fun front => front.foldl operation zero)
          (scan stamp source zero operation) := by
  refine ⟨?_, ?_, ?_⟩
  · intro function
    exact TrieMap.lastWins_ofList stamp _
  · intro function
    exact TrieMap.lastWins_ofList stamp _
  · intro zero operation
    rw [← statesLeft_eq_map_inits]
    exact TrieMap.lastWins_ofList stamp _

/-- The key 7 and keys that choose the hash of 7 have one hash, and so have 0 and 2^64. Keys are
produced again and again, under labels that equality ignores: each is stored with its last label
and value, and stands where it came first. -/
theorem rebuilding_lastWins_of_collisions :
    let source : List (Nat × Nat) := [(0, 1), (1, 2), (2, 3), (3, 4)]
    let labelled (entry : Nat × Nat) : Script.Key × Nat :=
      (.custom 7 (.ofNat (entry.1 % 2)) (if entry.1 < 2 then "early" else "late"), entry.2)
    let both (entry : Nat × Nat) : List (Script.Key × Nat) := [labelled entry, (.int 7, entry.2)]
    let twin := 0x10000000000000000
    let toggle (state entry : Nat × Nat) : Nat × Nat :=
      (if state.1 = 0 then twin else 0, state.2 + entry.2)
    (LastWins (source.map labelled) (map (.ofNat 0) source labelled) ∧
        (map (.ofNat 0) source labelled : TrieMap Script.Key Nat).toList =
          [(.custom 7 0 "late", 3), (.custom 7 1 "late", 4)]) ∧
      (LastWins (source.flatMap both) (flatMap (.ofNat 0) source both) ∧
        (flatMap (.ofNat 0) source both : TrieMap Script.Key Nat).toList =
          [(.custom 7 0 "late", 3), (.int 7, 4), (.custom 7 1 "late", 4)]) ∧
      LastWins [(0, 0), (twin, 1), (0, 3), (twin, 6), (0, 10)]
        (scan (.ofNat 0) source (0, 0) toggle) ∧
      (scan (.ofNat 0) source (0, 0) toggle : TrieMap Nat Nat).toList = [(0, 10), (twin, 6)] := by
  intro source labelled both twin toggle
  have keyed := rebuilding_lastWins (μ := Script.Key) (ω := Nat) source (.ofNat 0)
  have scanned := rebuilding_lastWins (μ := Nat) (ω := Nat) source (.ofNat 0)
  refine ⟨⟨keyed.1 labelled, ?_⟩, ⟨keyed.2.1 both, ?_⟩, scanned.2.2 (0, 0) toggle, ?_⟩
  all_goals subst source labelled both twin toggle; rfl

end Traversal

end HashTrie
