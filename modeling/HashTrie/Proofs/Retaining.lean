import HashTrie.Proofs.CanonicalForm
import HashTrie.Proofs.Cursors
import HashTrie.Script.Key
import HashTrie.Script.Value
import HashTrie.Traversal.Selection

/-!
# First entries and given entries

Two selections consult something that was gathered beforehand. The one that keeps the first
entry of each label gathers the labels it has seen, which are those of the entries passed so far
(`Seen`); so it keeps an entry exactly if no earlier one has its label (`FirstOfEach`). The one
that keeps given entries sorts their values by key first, and a value is among those of a key
exactly if it was given with that key, wherever and however often (`any_candidates`). The main
result is `distinctBy_and_retainAll`.
-/

namespace HashTrie

namespace Traversal

section Labels

variable {α β : Type} [BEq β] {label : α → β} {whole kept : List α}

/-- Of the elements of a list those are kept that no earlier element shares its label with. No
two of them share a label, and each label is that of one of them. -/
structure FirstOfEach (label : α → β) (whole kept : List α) : Prop where
  exact : kept = (whole.zipIdx.filter fun placed =>
    !(whole.take placed.2).any fun earlier => label earlier == label placed.1).map Prod.fst
  apart : kept.Pairwise fun first second => (label first == label second) = false
  covers : ∀ element ∈ whole, ∃ first ∈ kept, (label first == label element) = true

/-- The labels that were gathered are those of the elements that were passed. -/
def Seen (label : α → β) (passed : List α) (seen : List β) : Prop :=
  ∀ mark, seen.contains mark = passed.any fun element => label element == mark

theorem seen_nil : Seen label [] [] := fun _ => rfl

variable [EquivBEq β] {passed elements : List α} {seen : List β} {element : α}

/-- An element whose label was seen is passed without gathering anything. -/
theorem Seen.of_known (gathered : Seen label passed seen)
    (known : seen.contains (label element) = true) :
    Seen label (passed ++ [element]) seen := by
  intro mark
  rw [List.any_append, ← gathered mark, List.any_cons, List.any_nil, Bool.or_false]
  cases same : label element == mark with
  | false => rw [Bool.or_false]
  | true =>
      rw [gathered] at known
      rw [Bool.or_true, gathered, ← known]
      congr 1
      funext earlier
      exact BEq.congr_right (BEq.symm same)

/-- An element whose label is new is passed with its label gathered. -/
theorem Seen.of_new (gathered : Seen label passed seen) (element : α) :
    Seen label (passed ++ [element]) (label element :: seen) := by
  intro mark
  rw [List.any_append, ← gathered mark, List.contains_cons, List.any_cons, List.any_nil,
    Bool.or_false, Bool.or_comm, BEq.comm]

/-- From the elements still to come those are kept whose label no earlier element has, whether
passed or kept. -/
theorem firstOfEach_eq (gathered : Seen label passed seen) (elements : List α) :
    firstOfEach label seen elements =
      ((elements.zipIdx passed.length).filter fun placed =>
        !((passed ++ elements).take placed.2).any fun earlier =>
          label earlier == label placed.1).map Prod.fst := by
  induction elements generalizing passed seen with
  | nil => rfl
  | cons element rest ih =>
      have front : (passed ++ element :: rest).take passed.length = passed := List.take_left
      have more : passed.length + 1 = (passed ++ [element]).length := by simp
      have known := gathered (label element)
      rw [firstOfEach, List.zipIdx_cons, List.filter_cons, front, ← known, List.append_cons, more]
      cases here : seen.contains (label element) with
      | true => exact ih (gathered.of_known here)
      | false => exact congrArg (element :: ·) (ih (gathered.of_new element))

omit [EquivBEq β] in
theorem sublist_firstOfEach (label : α → β) (seen : List β) (elements : List α) :
    (firstOfEach label seen elements).Sublist elements := by
  induction elements generalizing seen with
  | nil => exact .refl _
  | cons element rest ih =>
      rw [firstOfEach]
      split
      · exact (ih seen).cons element
      · exact (ih _).cons_cons element

omit [EquivBEq β] in
/-- A label that was seen is not kept. -/
theorem unseen_of_mem_firstOfEach (member : element ∈ firstOfEach label seen elements) :
    seen.contains (label element) = false := by
  induction elements generalizing seen with
  | nil => cases member
  | cons head rest ih =>
      rw [firstOfEach] at member
      split at member
      · exact ih member
      · rename_i new
        rcases List.mem_cons.mp member with rfl | member
        · simpa using new
        · have unseen := ih member
          rw [List.contains_cons, Bool.or_eq_false_iff] at unseen
          exact unseen.2

/-- No two elements that are kept share a label. -/
theorem pairwise_firstOfEach (label : α → β) (seen : List β) (elements : List α) :
    (firstOfEach label seen elements).Pairwise fun first second =>
      (label first == label second) = false := by
  induction elements generalizing seen with
  | nil => exact .nil
  | cons element rest ih =>
      rw [firstOfEach]
      split
      · exact ih seen
      · refine .cons ?_ (ih _)
        intro other member
        have unseen := unseen_of_mem_firstOfEach member
        rw [List.contains_cons, Bool.or_eq_false_iff] at unseen
        exact BEq.comm.trans unseen.1

/-- Every label is that of an element that is kept, unless it was seen before. -/
theorem exists_mem_firstOfEach (label : α → β) (seen : List β) (member : element ∈ elements) :
    seen.contains (label element) = true ∨
      ∃ first ∈ firstOfEach label seen elements, (label first == label element) = true := by
  induction elements generalizing seen with
  | nil => cases member
  | cons head rest ih =>
      rw [firstOfEach]
      split
      · rename_i known
        rcases List.mem_cons.mp member with rfl | member
        · exact .inl known
        · exact ih seen member
      · rcases List.mem_cons.mp member with rfl | member
        · exact .inr ⟨element, List.mem_cons_self, BEq.rfl⟩
        · rcases ih (label head :: seen) member with known | ⟨first, kept, same⟩
          · rw [List.contains_cons, Bool.or_eq_true] at known
            rcases known with same | known
            · exact .inr ⟨head, List.mem_cons_self, BEq.symm same⟩
            · exact .inl known
          · exact .inr ⟨first, List.mem_cons_of_mem _ kept, same⟩

/-- Where no two elements share a label, all are kept. -/
theorem firstOfEach_eq_self (gathered : Seen label passed seen)
    (apart : (passed ++ elements).Pairwise fun first second =>
      (label first == label second) = false) :
    firstOfEach label seen elements = elements := by
  induction elements generalizing passed seen with
  | nil => rfl
  | cons element rest ih =>
      have new : seen.contains (label element) = false := by
        rw [gathered, List.any_eq_false]
        intro earlier member
        rw [(List.pairwise_append.mp apart).2.2 earlier member element List.mem_cons_self]
        exact Bool.false_ne_true
      rw [List.append_cons] at apart
      rw [firstOfEach, new, if_neg Bool.false_ne_true, ih (gathered.of_new element) apart]

/-- The elements that are kept from the start are the first ones of each label. -/
theorem firstOfEach_spec (label : α → β) (whole : List α) :
    FirstOfEach label whole (firstOfEach label [] whole) := by
  refine ⟨firstOfEach_eq seen_nil whole, pairwise_firstOfEach label [] whole, ?_⟩
  intro element member
  exact (exists_mem_firstOfEach label [] member).resolve_left Bool.false_ne_true

/-- The first elements of each label are their own first elements. -/
theorem firstOfEach_firstOfEach (label : α → β) (whole : List α) :
    firstOfEach label [] (firstOfEach label [] whole) = firstOfEach label [] whole :=
  firstOfEach_eq_self seen_nil (pairwise_firstOfEach label [] whole)

end Labels

section Candidates

variable {κ ν : Type} [BEq κ] [EquivBEq κ]

/-- Whether a value that was gathered for a key is accepted. -/
def candidateFor (wanted : Run κ (List ν)) (key : κ) (accepts : ν → Bool) : Bool :=
  (wanted.find? key).any fun found => found.2.any accepts

/-- One more element adds its value to those of its key. -/
theorem candidateFor_upsert (wanted : Run κ (List ν)) (element : κ × ν) (key : κ)
    (accepts : ν → Bool) :
    candidateFor (wanted.upsert element.1 fun values => values.getD [] ++ [element.2]).1 key
        accepts =
      (candidateFor wanted key accepts || element.1 == key && accepts element.2) := by
  unfold candidateFor
  rw [Run.find?_upsert]
  cases same : element.1 == key with
  | false => rw [if_neg Bool.false_ne_true, Bool.false_and, Bool.or_false]
  | true =>
      rw [if_pos rfl, Run.find?_congr wanted same]
      cases wanted.find? key <;> simp

/-- A value is among those gathered for a key exactly if it was given with the key. -/
theorem any_candidates (elements : List (κ × ν)) (key : κ) (accepts : ν → Bool) :
    candidateFor (candidates elements) key accepts =
      elements.any fun element => element.1 == key && accepts element.2 := by
  have gathering (wanted : Run κ (List ν)) :
      candidateFor (elements.foldl (fun wanted element =>
          (wanted.upsert element.1 fun values => values.getD [] ++ [element.2]).1) wanted) key
          accepts =
        (candidateFor wanted key accepts ||
          elements.any fun element => element.1 == key && accepts element.2) := by
    induction elements generalizing wanted with
    | nil => exact (Bool.or_false _).symm
    | cons element rest ih =>
        rw [List.foldl_cons, ih, candidateFor_upsert, List.any_cons, Bool.or_assoc]
  exact gathering []

variable [BEq ν] {σ δ : Type} [EntrySequence σ κ ν] [Collection δ κ ν]

/-- The entries of a list that are equal in key and value to one of the given elements. -/
def retained (elements whole : List (κ × ν)) : List (κ × ν) :=
  whole.filter fun entry =>
    elements.any fun element => element.1 == entry.1 && element.2 == entry.2

theorem retainAll_eq (stamp : Stamp) (source : σ) (elements : List (κ × ν)) :
    (retainAll stamp source elements : δ) = collect stamp (retained elements (entries source)) := by
  have given (entry : κ × ν) := any_candidates elements entry.1 fun value => value == entry.2
  rw [retainAll, filter, retained]
  congr 2
  funext entry
  rw [← given entry, candidateFor]
  cases (candidates elements).find? entry.1 <;> rfl

omit [EquivBEq κ] in
theorem mem_retained {elements whole : List (κ × ν)} {entry : κ × ν} :
    entry ∈ retained elements whole ↔ entry ∈ whole ∧
      ∃ element ∈ elements, (element.1 == entry.1) = true ∧ (element.2 == entry.2) = true := by
  simp [retained]

omit [EquivBEq κ] in
/-- Only what is given counts, not where or how often. -/
theorem retained_congr {elements others : List (κ × ν)}
    (same : ∀ element, element ∈ elements ↔ element ∈ others) (whole : List (κ × ν)) :
    retained elements whole = retained others whole := by
  refine List.filter_congr fun entry _ => ?_
  rw [Bool.eq_iff_iff, List.any_eq_true, List.any_eq_true]
  exact exists_congr fun element => and_congr_left' (same element)

end Candidates

/-- A value that is kept is equal to itself, if equality of values is symmetric and transitive. -/
theorem value_beq_self_of_mem_retained {κ ν : Type} [BEq κ] [BEq ν] [PartialEquivBEq ν]
    {elements whole : List (κ × ν)} {entry : κ × ν} (member : entry ∈ retained elements whole) :
    (entry.2 == entry.2) = true := by
  obtain ⟨-, element, -, -, same⟩ := mem_retained.mp member
  exact PartialEquivBEq.trans (PartialEquivBEq.symm same) same

/-- **First entries and given entries.** Whatever is traversed, the first entries of each label
are handed on in the order of the source. A map that they are collected into from another map is
iterated in just this order, collisions included, and keeps all its entries if it is traversed in
this way again. The entries equal to given elements are those for which some element has an equal
key and an equal value; where and how often an element is given makes no difference, and an entry
whose value is not equal to itself is not among them. -/
theorem distinctBy_and_retainAll {κ ν : Type} [BEq κ] [EquivBEq κ] :
    (∀ {β : Type} [BEq β] [EquivBEq β] (label : κ × ν → β),
      (∀ {σ δ : Type} [EntrySequence σ κ ν] [Collection δ κ ν] (source : σ) (stamp : Stamp),
        ∃ kept, (distinctBy stamp source label : δ) = collect stamp kept ∧
          FirstOfEach label (entries source) kept) ∧
      ∀ [Hashable κ] {pool : Pool κ} {map : TrieMap κ ν}, Reachable pool → ⟨ν, map⟩ ∈ pool →
        ∀ stamp mark : Stamp,
          let result : TrieMap κ ν := distinctBy stamp map label
          let again : TrieMap κ ν := distinctBy mark result label
          FirstOfEach label map.cursor.rest result.cursor.rest ∧
            result.length = result.cursor.rest.length ∧
            again.cursor.rest = result.cursor.rest) ∧
    ∀ [BEq ν] (elements : List (κ × ν)),
      (∀ {σ δ : Type} [EntrySequence σ κ ν] [Collection δ κ ν] (source : σ) (stamp : Stamp),
        ∃ kept, (retainAll stamp source elements : δ) = collect stamp kept ∧
          kept = (entries source).filter (fun entry =>
            elements.any fun element => element.1 == entry.1 && element.2 == entry.2) ∧
          (∀ others, (∀ element, element ∈ elements ↔ element ∈ others) →
            (retainAll stamp source others : δ) = retainAll stamp source elements) ∧
          ∀ [PartialEquivBEq ν], ∀ entry ∈ kept, (entry.2 == entry.2) = true) ∧
      ∀ [Hashable κ] {pool : Pool κ} {map : TrieMap κ ν}, Reachable pool → ⟨ν, map⟩ ∈ pool →
        ∀ stamp : Stamp, (retainAll stamp map elements : TrieMap κ ν).cursor.rest =
          map.cursor.rest.filter fun entry =>
            elements.any fun element => element.1 == entry.1 && element.2 == entry.2 := by
  refine ⟨?_, ?_⟩
  · intro β _ _ label
    refine ⟨fun source stamp => ⟨_, rfl, firstOfEach_spec label (entries source)⟩, ?_⟩
    intro _ pool map reachable held stamp mark result again
    have wellFormed := reachable.sound held
    have part := sublist_firstOfEach label [] map.toList
    have listed : result.toList = firstOfEach label [] map.toList :=
      wellFormed.toList_ofList_sublist stamp part
    have repeated : again.toList = result.toList := by
      have collected : again = .ofList mark (firstOfEach label [] result.toList) := rfl
      rw [collected, listed, firstOfEach_firstOfEach]
      exact wellFormed.toList_ofList_sublist mark part
    rw [TrieMap.rest_cursor, TrieMap.rest_cursor, TrieMap.rest_cursor, repeated]
    exact ⟨listed ▸ firstOfEach_spec label map.toList,
      (TrieMap.wellFormed_ofList stamp _).length, rfl⟩
  · intro _ elements
    refine ⟨?_, ?_⟩
    · intro σ δ _ _ source stamp
      refine ⟨_, retainAll_eq stamp source elements, rfl, ?_, ?_⟩
      · intro others same
        rw [retainAll_eq, retainAll_eq, retained_congr same]
      · intro _ entry member
        exact value_beq_self_of_mem_retained member
    · intro _ pool map reachable held stamp
      have wellFormed := reachable.sound held
      rw [TrieMap.rest_cursor, TrieMap.rest_cursor, retainAll_eq]
      exact wellFormed.toList_ofList_sublist stamp List.filter_sublist

/-- A number that may be missing. What is missing is equal to nothing. -/
structure Reading where
  number? : Option Nat
deriving DecidableEq

instance : BEq Reading :=
  ⟨fun first second => first.number?.isSome && decide (first.number? = second.number?)⟩

instance : PartialEquivBEq Reading where
  symm := by
    rintro ⟨first⟩ ⟨second⟩ same
    simp only [BEq.beq, Bool.and_eq_true, decide_eq_true_eq] at same ⊢
    exact ⟨same.2 ▸ same.1, same.2.symm⟩
  trans := by
    rintro ⟨first⟩ ⟨second⟩ ⟨third⟩ same next
    simp only [BEq.beq, Bool.and_eq_true, decide_eq_true_eq] at same next ⊢
    exact ⟨same.1, same.2.trans next.2⟩

/-- The keys 0 and 2^64 have one hash, and 32 differs from it in the second digit. The first
entries of each parity are one of the run and one beside it. The elements are given in another
order than that of the map and more than once; the missing value is not kept although the very
entry is given. -/
theorem distinctBy_and_retainAll_of_collisions :
    let twin := 0x10000000000000000
    let missing : Reading := ⟨none⟩
    let reading (number : Nat) : Reading := ⟨some number⟩
    let map : TrieMap Nat Reading :=
      .ofList (.ofNat 0) [(1, missing), (32, reading 4), (twin, reading 2), (0, reading 4)]
    let label (entry : Nat × Reading) : Bool := entry.2.number?.any (· == 4)
    let elements := [(32, reading 4), (1, missing), (twin, reading 2), (0, reading 5),
      (32, reading 4), (32, reading 6)]
    let first : TrieMap Nat Reading := distinctBy (.ofNat 1) map label
    let kept : TrieMap Nat Reading := retainAll (.ofNat 1) map elements
    (Reachable [⟨Reading, map⟩] ∧ (missing == missing) = false ∧
        map.cursor.rest = [(twin, reading 2), (0, reading 4), (32, reading 4), (1, missing)]) ∧
      (FirstOfEach label map.cursor.rest first.cursor.rest ∧
        first.cursor.rest = [(twin, reading 2), (0, reading 4)] ∧
        (distinctBy (.ofNat 2) first label : TrieMap Nat Reading).cursor.rest =
          first.cursor.rest) ∧
      kept.cursor.rest = [(twin, reading 2), (32, reading 4)] ∧
      (retainAll (.ofNat 1) map elements.reverse : TrieMap Nat Reading) = kept ∧
      ∀ entry ∈ (retainAll (.ofNat 1) map elements : List (Nat × Reading)),
        (entry.2 == entry.2) = true := by
  intro twin missing reading map label elements first kept
  have reachable : Reachable [⟨Reading, map⟩] := .ofList _ _
  obtain ⟨labels, given⟩ := distinctBy_and_retainAll (κ := Nat) (ν := Reading)
  obtain ⟨spec, -, again⟩ :=
    (labels label).2 reachable List.mem_cons_self (.ofNat 1) (.ofNat 2)
  obtain ⟨_, -, -, reordered, -⟩ :=
    (given elements).1 (δ := TrieMap Nat Reading) map (.ofNat 1)
  obtain ⟨_, handed, -, -, equal⟩ :=
    (given elements).1 (δ := List (Nat × Reading)) map (.ofNat 1)
  have iterated := (given elements).2 reachable List.mem_cons_self (.ofNat 1)
  refine ⟨⟨reachable, rfl, by rw [TrieMap.rest_cursor]; decide⟩,
    ⟨spec, by rw [TrieMap.rest_cursor]; decide, again⟩, ?_, ?_, ?_⟩
  · rw [iterated, TrieMap.rest_cursor]
    decide
  · exact reordered elements.reverse fun _ => List.mem_reverse.symm
  · exact handed ▸ equal

end Traversal

end HashTrie
