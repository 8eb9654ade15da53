import HashTrie.Proofs.Rebuilding

/-!
# Scans and folds

The states of a scan are folds of parts of its source: a scan from the left has a state for each
beginning (`statesLeft_eq_map_inits`) and a scan from the right one for each end
(`statesRight_eq_map_tails`). Both have one more state than there are entries, and since reversing
a list turns its ends into its beginnings, a scan from the right is a scan from the left with
everything reversed (`statesRight_eq_reverse`). The main result is `scans_eq_folds`.
-/

namespace HashTrie.Traversal

section States

variable {α β : Type} (operation : α → β → β) (state : β)

/-- The newest state of a fold from the right is the fold. -/
theorem statesRight_newest (elements : List α) :
    (statesRight operation state elements).1 = elements.foldr operation state := by
  induction elements with
  | nil => rfl
  | cons element elements ih => exact congrArg (operation element) ih

/-- The states of a fold from the right are the folds of all ends. -/
theorem statesRight_eq_map_tails (elements : List α) :
    (statesRight operation state elements).1 :: (statesRight operation state elements).2 =
      elements.tails.map fun back => back.foldr operation state := by
  induction elements with
  | nil => rfl
  | cons element elements ih =>
      rw [List.tails_cons, List.map_cons, ← ih, ← statesRight_newest]
      rfl

/-- The states of a fold from the right, oldest first, are those of a fold from the left over the
reversed list. -/
theorem statesRight_eq_reverse (elements : List α) :
    (statesRight operation state elements).1 :: (statesRight operation state elements).2 =
      (statesLeft (fun older element => operation element older) state
        elements.reverse).reverse := by
  have folds (back : List α) :
      back.reverse.foldl (fun older element => operation element older) state =
        back.foldr operation state := List.foldl_reverse
  rw [statesRight_eq_map_tails, statesLeft_eq_map_inits, List.inits_reverse, List.map_reverse,
    List.reverse_reverse, List.map_map]
  exact List.map_congr_left fun back _ => (folds back).symm

end States

/-- States that are numbered from 0 to a last one. -/
structure Numbered {β : Type} (states : List β) (last : Nat) (state : Nat → β) : Prop where
  length : states.length = last + 1
  get? : ∀ count ≤ last, states[count]? = some (state count)

namespace Numbered

variable {α β : Type} {states : List β} {last : Nat} {state : Nat → β}

theorem head? (numbered : Numbered states last state) : states.head? = some (state 0) := by
  rw [List.head?_eq_getElem?, numbered.get? 0 (Nat.zero_le last)]

theorem getLast? (numbered : Numbered states last state) :
    states.getLast? = some (state last) := by
  rw [List.getLast?_eq_getElem?, numbered.length, Nat.add_sub_cancel,
    numbered.get? last (Nat.le_refl last)]

/-- The folds of the beginnings of a list are numbered by their lengths. -/
theorem of_inits (fold : List α → β) (whole : List α) :
    Numbered (whole.inits.map fold) whole.length fun count => fold (whole.take count) := by
  refine ⟨by rw [List.length_map, List.length_inits], ?_⟩
  intro count within
  have inside : count < whole.inits.length := by
    rw [List.length_inits]
    exact Nat.lt_succ_of_le within
  rw [List.getElem?_map, List.getElem?_eq_getElem inside, List.getElem_inits, Option.map_some]

/-- The folds of the ends of a list are numbered by the elements that they leave out. -/
theorem of_tails (fold : List α → β) (whole : List α) :
    Numbered (whole.tails.map fold) whole.length fun count => fold (whole.drop count) := by
  refine ⟨by rw [List.length_map, List.length_tails], ?_⟩
  intro count within
  have inside : count < whole.tails.length := by
    rw [List.length_tails]
    exact Nat.lt_succ_of_le within
  rw [List.getElem?_map, List.getElem?_eq_getElem inside, List.getElem_tails, Option.map_some]

end Numbered

/-- **Scans are the folds of all beginnings and ends.** A scan from the left has the folds of the
beginnings of its source as its states, so it ends with the fold of the whole source. A scan from
the right has the folds of the ends, so it begins with the fold of the whole source and ends with
the starting value; it is the reverse of the scan from the left over the reversed source. -/
theorem scans_eq_folds {σ κ ν β : Type} [EntrySequence σ κ ν] (source : σ) (zero : β) :
    (∀ operation : β → κ × ν → β,
      (scanLeft source zero operation).length = (entries source).length + 1 ∧
      (∀ count ≤ (entries source).length, (scanLeft source zero operation)[count]? =
        some (foldLeft ((entries source).take count) zero operation)) ∧
      (scanLeft source zero operation).getLast? = some (foldLeft source zero operation)) ∧
    ∀ operation : κ × ν → β → β,
      (scanRight source zero operation).length = (entries source).length + 1 ∧
      (∀ count ≤ (entries source).length, (scanRight source zero operation)[count]? =
        some (foldRight ((entries source).drop count) zero operation)) ∧
      (scanRight source zero operation).head? = some (foldRight source zero operation) ∧
      (scanRight source zero operation).getLast? = some zero ∧
      scanRight source zero operation = (scanLeft (entries source).reverse zero
        fun state entry => operation entry state).reverse := by
  refine ⟨?_, ?_⟩
  · intro operation
    have states : scanLeft source zero operation =
        (entries source).inits.map fun front => front.foldl operation zero :=
      statesLeft_eq_map_inits operation zero (entries source)
    have numbered := Numbered.of_inits (fun front => front.foldl operation zero) (entries source)
    rw [← states] at numbered
    have last := numbered.getLast?
    rw [List.take_length] at last
    exact ⟨numbered.length, numbered.get?, last⟩
  · intro operation
    have states : scanRight source zero operation =
        (entries source).tails.map fun back => back.foldr operation zero :=
      statesRight_eq_map_tails operation zero (entries source)
    have numbered := Numbered.of_tails (fun back => back.foldr operation zero) (entries source)
    rw [← states] at numbered
    have last := numbered.getLast?
    rw [List.drop_length] at last
    exact ⟨numbered.length, numbered.get?, numbered.head?, last,
      statesRight_eq_reverse operation zero (entries source)⟩

/-- Appending digits is neither commutative nor associative: the states tell from which side and
how far the entries were folded. -/
theorem scans_eq_folds_of_digits :
    let source : List (Nat × Nat) := [(0, 1), (0, 2), (1, 3)]
    let appended (state : Nat) (entry : Nat × Nat) : Nat := 10 * state + entry.2
    let put (entry : Nat × Nat) (state : Nat) : Nat := 10 * state + entry.2
    (scanLeft source 7 appended = [7, 71, 712, 7123] ∧
        (scanLeft source 7 appended)[2]? = some (foldLeft (source.take 2) 7 appended) ∧
        (scanLeft source 7 appended).getLast? = some (foldLeft source 7 appended)) ∧
      scanRight source 7 put = [7321, 732, 73, 7] ∧
      (scanRight source 7 put)[1]? = some (foldRight (source.drop 1) 7 put) ∧
      (scanRight source 7 put).head? = some (foldRight source 7 put) ∧
      scanRight source 7 put = (scanLeft source.reverse 7 appended).reverse := by
  intro source appended put
  obtain ⟨fromLeft, fromRight⟩ := scans_eq_folds source 7
  obtain ⟨-, leftStates, last⟩ := fromLeft appended
  obtain ⟨-, rightStates, first, -, reversed⟩ := fromRight put
  exact ⟨⟨rfl, leftStates 2 (by decide), last⟩, rfl, rightStates 1 (by decide), first, reversed⟩

end HashTrie.Traversal
