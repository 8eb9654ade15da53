import HashTrie.Proofs.Collecting
import HashTrie.Proofs.Reachable
import HashTrie.Traversal.Selection
import Mathlib.Data.List.TakeDrop

/-!
# Selections and iteration

A selection hands to its result a part of the entries of its source, in their order
(`Selections`). Two things have to be seen to. The selections from the right and `init`
find their place by the number of entries that the source reports, so they rest on that
number being right (`selections_of_counted`). And a map that is collected from a part of
the iteration of another map is iterated in just that order, whatever hashes collide, so
a selection of a map commutes with its iteration (`selections_commute`).
-/

namespace HashTrie

/-- A list is cut before the first element that a test rejects: the front is the longest
one whose elements are all accepted. -/
structure CutWhile {α : Type} (accepts : α → Bool) (whole front back : List α) : Prop where
  parts : whole = front ++ back
  accepted : ∀ element ∈ front, accepts element = true
  stops : ∀ element ∈ back.head?, accepts element = false

theorem cutWhile {α : Type} (accepts : α → Bool) (whole : List α) :
    CutWhile accepts whole (whole.takeWhile accepts) (whole.dropWhile accepts) := by
  refine ⟨List.takeWhile_append_dropWhile.symm, ?_, ?_⟩
  · exact List.all_eq_true.mp List.all_takeWhile
  · intro element first
    have stopped := List.head?_dropWhile_not accepts whole
    rw [Option.mem_def.mp first] at stopped
    simpa using stopped

namespace Traversal

variable {σ δ κ ν : Type} [EntrySequence σ κ ν] [Collection δ κ ν]

/-- What the selections from a source hand to their results, with a test and a count as
their arguments. -/
structure Selections (source : σ) (accepts : κ × ν → Bool) (count : Nat)
    (yields : δ → List (κ × ν) → Prop) : Prop where
  filtered : ∀ stamp, yields (filter stamp source accepts) ((entries source).filter accepts)
  rejected : ∀ stamp, yields (filterNot stamp source accepts)
    ((entries source).filter fun entry => !accepts entry)
  parted : ∀ stamp, yields (partition stamp source accepts).1 ((entries source).filter accepts) ∧
    yields (partition stamp source accepts).2 ((entries source).filter fun entry => !accepts entry)
  whileAccepted : ∀ stamp, ∃ front back, CutWhile accepts (entries source) front back ∧
    yields (takeWhile stamp source accepts) front ∧ yields (dropWhile stamp source accepts) back ∧
    yields (span stamp source accepts).1 front ∧ yields (span stamp source accepts).2 back
  untilAccepted : ∀ stamp, ∃ front back,
    CutWhile (fun entry => !accepts entry) (entries source) front back ∧
    yields (takeUntil stamp source accepts) front ∧ yields (dropUntil stamp source accepts) back
  fromLeft : ∀ stamp, ∃ front back, entries source = front ++ back ∧
    front.length = min count (entries source).length ∧
    yields (take stamp source count) front ∧ yields (drop stamp source count) back
  fromRight : ∀ stamp, ∃ front back, entries source = front ++ back ∧
    back.length = min count (entries source).length ∧
    yields (dropRight stamp source count) front ∧ yields (takeRight stamp source count) back
  tails : ∀ stamp, (entries source = [] ∧ tail? stamp source = (none : Option δ) ∧
      tail stamp source = (.error (.emptyMap .tail) : Except MapError δ)) ∨
    ∃ first rest result, entries source = first :: rest ∧ tail? stamp source = some result ∧
      tail stamp source = .ok result ∧ yields result rest
  inits : ∀ stamp, (entries source = [] ∧ init? stamp source = (none : Option δ) ∧
      init stamp source = (.error (.emptyMap .init) : Except MapError δ)) ∨
    ∃ rest last result, entries source = rest ++ [last] ∧ init? stamp source = some result ∧
      init stamp source = .ok result ∧ yields result rest

variable {source : σ} {accepts : κ × ν → Bool} {count : Nat}

/-- What follows for parts of the source follows for all selections. -/
theorem Selections.imp {yields implied : δ → List (κ × ν) → Prop}
    (selections : Selections source accepts count yields)
    (step : ∀ result part, part.Sublist (entries source) → yields result part →
      implied result part) : Selections source accepts count implied := by
  have ofFront {front back : List (κ × ν)} (parts : entries source = front ++ back) (result : δ)
      (yielded : yields result front) : implied result front :=
    step result front (parts ▸ List.sublist_append_left front back) yielded
  have ofBack {front back : List (κ × ν)} (parts : entries source = front ++ back) (result : δ)
      (yielded : yields result back) : implied result back :=
    step result back (parts ▸ List.sublist_append_right front back) yielded
  refine ⟨?_, ?_, ?_, ?_, ?_, ?_, ?_, ?_, ?_⟩ <;> intro stamp
  · exact step _ _ List.filter_sublist (selections.filtered stamp)
  · exact step _ _ List.filter_sublist (selections.rejected stamp)
  · exact (selections.parted stamp).imp (step _ _ List.filter_sublist)
      (step _ _ List.filter_sublist)
  · obtain ⟨front, back, cut, taken, dropped, first, second⟩ := selections.whileAccepted stamp
    exact ⟨front, back, cut, ofFront cut.parts _ taken, ofBack cut.parts _ dropped,
      ofFront cut.parts _ first, ofBack cut.parts _ second⟩
  · obtain ⟨front, back, cut, taken, dropped⟩ := selections.untilAccepted stamp
    exact ⟨front, back, cut, ofFront cut.parts _ taken, ofBack cut.parts _ dropped⟩
  · obtain ⟨front, back, parts, long, taken, dropped⟩ := selections.fromLeft stamp
    exact ⟨front, back, parts, long, ofFront parts _ taken, ofBack parts _ dropped⟩
  · obtain ⟨front, back, parts, long, dropped, taken⟩ := selections.fromRight stamp
    exact ⟨front, back, parts, long, ofFront parts _ dropped, ofBack parts _ taken⟩
  · refine (selections.tails stamp).imp_right ?_
    rintro ⟨first, rest, result, parts, option, checked, yielded⟩
    have asParts : entries source = [first] ++ rest := parts
    exact ⟨first, rest, result, parts, option, checked, ofBack asParts result yielded⟩
  · refine (selections.inits stamp).imp_right ?_
    rintro ⟨rest, last, result, parts, option, checked, yielded⟩
    exact ⟨rest, last, result, parts, option, checked, ofFront parts result yielded⟩

/-- A source that reports the right number of entries hands to each selection the entries
that belong to it. -/
theorem selections_of_counted (counted : entryCount source = (entries source).length)
    (accepts : κ × ν → Bool) (count : Nat) :
    Selections source accepts count fun (result : δ) part =>
      ∃ stamp, result = collect stamp part := by
  refine ⟨?_, ?_, ?_, ?_, ?_, ?_, ?_, ?_, ?_⟩ <;> intro stamp
  · exact ⟨stamp, rfl⟩
  · exact ⟨stamp, rfl⟩
  · rw [partition, List.partition_eq_filter_filter]
    exact ⟨⟨stamp.part 0, rfl⟩, ⟨stamp.part 1, rfl⟩⟩
  · rw [span, List.span_eq_takeWhile_dropWhile]
    exact ⟨_, _, cutWhile accepts (entries source), ⟨stamp, rfl⟩, ⟨stamp, rfl⟩,
      ⟨stamp.part 0, rfl⟩, ⟨stamp.part 1, rfl⟩⟩
  · exact ⟨_, _, cutWhile _ (entries source), ⟨stamp, rfl⟩, ⟨stamp, rfl⟩⟩
  · exact ⟨_, _, (List.take_append_drop count (entries source)).symm, List.length_take,
      ⟨stamp, rfl⟩, ⟨stamp, rfl⟩⟩
  · refine ⟨_, _, (List.take_append_drop (entryCount source - count) (entries source)).symm, ?_,
      ⟨stamp, rfl⟩, ⟨stamp, rfl⟩⟩
    rw [List.length_drop, counted]
    omega
  · unfold tail tail?
    cases entries source with
    | nil => exact .inl ⟨rfl, rfl, rfl⟩
    | cons first rest => exact .inr ⟨first, rest, _, rfl, rfl, rfl, stamp, rfl⟩
  · unfold init init?
    rcases List.eq_nil_or_concat (entries source) with nothing | ⟨rest, last, parts⟩
    · rw [counted, nothing]
      exact .inl ⟨rfl, rfl, rfl⟩
    · rw [List.concat_eq_append] at parts
      have shorter : (entries source).take (entryCount source - 1) = rest := by
        rw [counted, parts, List.length_append, List.length_singleton, Nat.add_sub_cancel,
          List.take_left]
      have some : 0 < entryCount source := by
        rw [counted, parts, List.length_append]
        exact Nat.succ_pos _
      rw [if_pos some]
      exact .inr ⟨rest, last, _, parts, rfl, rfl, stamp, by rw [take, shorter]⟩

/-- **Selections commute with iteration.** A source that reports the right number of
entries hands to the result of each selection the entries that the selection means. A map
is such a source, and a map that is selected from it is iterated in the order of these
entries, collisions included, and has their number as its length. -/
theorem selections_commute {κ ν : Type} (accepts : κ × ν → Bool) (count : Nat) :
    (∀ {σ δ : Type} [EntrySequence σ κ ν] [Collection δ κ ν] (source : σ),
        entryCount source = (entries source).length →
          Selections source accepts count fun (result : δ) part =>
            ∃ stamp, result = collect stamp part) ∧
      ∀ [BEq κ] [Hashable κ] [EquivBEq κ] {pool : Pool κ} {map : TrieMap κ ν},
        Reachable pool → ⟨ν, map⟩ ∈ pool → entryCount map = (entries map).length ∧
          entries map = map.cursor.rest ∧
          Selections map accepts count fun (result : TrieMap κ ν) part =>
            result.cursor.rest = part ∧ result.length = part.length := by
  refine ⟨fun _ counted => selections_of_counted counted accepts count, ?_⟩
  intro _ _ _ pool map reachable held
  have wellFormed := reachable.sound held
  refine ⟨wellFormed.length, (Trie.Cursor.rest_start map.root).symm, ?_⟩
  refine (selections_of_counted wellFormed.length accepts count).imp ?_
  rintro result part selected ⟨stamp, rfl⟩
  have listed := wellFormed.toList_ofList_sublist stamp selected
  refine ⟨(Trie.Cursor.rest_start _).trans listed, ?_⟩
  exact (TrieMap.wellFormed_ofList stamp part).length.trans (congrArg List.length listed)

/-- The keys 0 and 2^64 have one hash, and 32 differs from it in the second digit. The run
of the first two is cut from both sides, and a plain list hands on its repetitions. -/
theorem selections_commute_of_collisions :
    let twin := 0x10000000000000000
    let map : TrieMap Nat Nat := .ofList (.ofNat 0) [(32, 1), (twin, 2), (0, 3)]
    let plain : List (Nat × Nat) := [(0, 1), (0, 1)]
    Reachable [⟨Nat, map⟩] ∧
      Selections map (fun entry => decide (entry.2 < 3)) 2
        (fun (result : TrieMap Nat Nat) part =>
          result.cursor.rest = part ∧ result.length = part.length) ∧
      (takeRight (.ofNat 1) map 2 : TrieMap Nat Nat).toList = [(0, 3), (32, 1)] ∧
      (takeWhile (.ofNat 1) map fun entry => decide (entry.2 < 3) : TrieMap Nat Nat).toList =
        [(twin, 2)] ∧
      Selections plain (fun _ => true) 1
        fun (result : List (Nat × Nat)) part => ∃ stamp, result = collect stamp part := by
  intro twin map plain
  have reachable : Reachable [⟨Nat, map⟩] := .cons .nil (by decide) (.ofList _)
  exact ⟨reachable, ((selections_commute _ 2).2 reachable List.mem_cons_self).2.2,
    by decide, by decide, (selections_commute _ 1).1 plain rfl⟩

end Traversal

end HashTrie
