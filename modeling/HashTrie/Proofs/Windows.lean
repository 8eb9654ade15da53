import HashTrie.Proofs.Collecting
import HashTrie.Proofs.Reachable
import HashTrie.Traversal.Windows
import Mathlib.Algebra.Order.Floor.Div

/-!
# Windows of a sequence

The walk over a sequence that cuts its windows starts at the first entry, advances by the
step and ends with the window that reaches the last entry, or before a start beyond it.
The number of its windows is therefore a rounded quotient (`windowStarts_eq`), and each
window is the slice at its own multiple of the step (`windowsOf_windowStarts`). At a start
the walk computes two sums, the end of a full window and the next start, and neither
outgrows a machine word (`sumsFit`). The main result is `slidingBy_windows`.
-/

namespace HashTrie.Traversal

/-- The number of windows of a size, a step apart, in a sequence of a length. -/
def windowCount (length size step : Nat) : Nat :=
  if length = 0 then 0
  else if length ≤ size then 1
  else if step ≤ size then 1 + (length - size) ⌈/⌉ step
  else length ⌈/⌉ step

/-- What makes parts of a list its windows: their number, the slice that each of them is,
that only the last one can be short and none is empty, and that windows without gaps
between them leave out no element. -/
structure WindowsOf {α : Type} (elements : List α) (size step : Nat) (parts : List (List α)) :
    Prop where
  number : parts.length = windowCount elements.length size step
  slices : ∀ index part, parts[index]? = some part →
    part = elements.extract (index * step) (min (index * step + size) elements.length)
  inhabited : ∀ part ∈ parts, part ≠ []
  full : ∀ part ∈ parts.dropLast, part.length = size
  covering : step ≤ size → ∀ position element, elements[position]? = some element →
    ∃ index part, parts[index]? = some part ∧ index * step ≤ position ∧
      part[position - index * step]? = some element

/-- The sums that the walk over the windows computes at each of its starts, the end of a full
window and the next start if that end lies within the sequence, fit a 64-bit word. -/
def SumsFit (length size : Nat) (step : { count : Nat // 0 < count }) : Prop :=
  ∀ start ∈ windowStarts length size step 0,
    start + size < 2 ^ 64 ∧ (start + size < length → start + step < 2 ^ 64)

section Starts

variable {length size : Nat} {step : { count : Nat // 0 < count }} {start : Nat}

theorem ceilDiv_of_le {count step : Nat} (some : 0 < count) (fits : count ≤ step) :
    count ⌈/⌉ step = 1 := by
  rw [Nat.ceilDiv_eq_add_pred_div]
  exact Nat.div_eq_of_lt_le (by omega) (by omega)

theorem add_ceilDiv (count : Nat) {step : Nat} (advances : 0 < step) :
    (count + step) ⌈/⌉ step = count ⌈/⌉ step + 1 := by
  rw [Nat.ceilDiv_eq_add_pred_div, Nat.ceilDiv_eq_add_pred_div, ← Nat.add_div_right _ advances]
  congr 1
  omega

/-- After a window that does not reach the end the other windows are those of the sequence
without its first entries. -/
theorem windowCount_of_lt {step : Nat} (advances : 0 < step) (longer : size < length) :
    windowCount length size step = windowCount (length - step) size step + 1 := by
  obtain ⟨rest, rfl⟩ | beyond : (∃ rest, length = rest + step) ∨ length < step := by
    by_cases reached : step ≤ length
    · exact .inl ⟨length - step, by omega⟩
    · exact .inr (by omega)
  · rw [Nat.add_sub_cancel]
    unfold windowCount
    rw [if_neg (by omega), if_neg (by omega)]
    by_cases overlapping : step ≤ size
    · rw [if_pos overlapping, if_neg (by omega)]
      by_cases last : rest ≤ size
      · rw [if_pos last, ceilDiv_of_le (by omega) (by omega)]
      · have shifted : rest + step - size = rest - size + step := by omega
        rw [if_neg last, if_pos overlapping, shifted, add_ceilDiv _ advances, Nat.add_assoc]
    · rw [if_neg overlapping, add_ceilDiv _ advances]
      by_cases nothing : rest = 0
      · rw [if_pos nothing, nothing, zero_ceilDiv]
      · rw [if_neg nothing]
        by_cases last : rest ≤ size
        · rw [if_pos last, ceilDiv_of_le (by omega) (by omega)]
        · rw [if_neg last, if_neg overlapping]
  · have none : length - step = 0 := by omega
    unfold windowCount
    rw [none, if_neg (by omega), if_neg (by omega), if_neg (by omega), if_pos rfl,
      ceilDiv_of_le (by omega) (by omega)]

/-- The starts of the windows are the first multiples of the step. -/
theorem windowStarts_eq (length size : Nat) (step : { count : Nat // 0 < count }) (start : Nat) :
    windowStarts length size step start =
      (List.range (windowCount (length - start) size step)).map fun index =>
        start + index * step := by
  fun_induction windowStarts length size step start with
  | case1 start inside continues ih =>
      have longer : size < length - start := by omega
      rw [windowCount_of_lt step.property longer, List.range_succ_eq_map, List.map_cons, ih,
        List.map_map, Nat.zero_mul, Nat.add_zero, Nat.sub_sub]
      congr 2
      funext index
      simp only [Function.comp_apply, Nat.succ_mul]
      omega
  | case2 start inside reached =>
      rw [windowCount, if_neg (by omega), if_pos (by omega)]
      simp
  | case3 start beyond =>
      rw [windowCount, if_pos (by omega)]
      rfl

theorem lt_of_mem_windowStarts {member : Nat}
    (found : member ∈ windowStarts length size step start) : member < length := by
  fun_induction windowStarts length size step start with
  | case1 start inside continues ih =>
      rcases List.mem_cons.mp found with rfl | found
      · exact inside
      · exact ih found
  | case2 start inside reached => rwa [List.mem_singleton.mp found]
  | case3 start beyond => cases found

/-- Every window but the last one ends before the end of the sequence. -/
theorem add_lt_of_mem_dropLast {member : Nat}
    (found : member ∈ (windowStarts length size step start).dropLast) :
    member + size < length := by
  fun_induction windowStarts length size step start with
  | case1 start inside continues ih =>
      cases others : windowStarts length size step (start + step) with
      | nil =>
          rw [others] at found
          cases found
      | cons next rest =>
          rw [others] at ih found
          rcases List.mem_cons.mp found with rfl | found
          · exact continues
          · exact ih found
  | case2 start inside reached => cases found
  | case3 start beyond => cases found

/-- Windows whose step is no longer than they are leave no gaps. -/
theorem exists_start_le {position : Nat} (overlapping : step.val ≤ size)
    (reached : start ≤ position) (inside : position < length) :
    ∃ member ∈ windowStarts length size step start,
      member ≤ position ∧ position < member + size := by
  fun_induction windowStarts length size step start with
  | case1 start _ continues ih =>
      by_cases here : position < start + size
      · exact ⟨start, List.mem_cons_self, reached, here⟩
      · obtain ⟨member, found, before, behind⟩ := ih (by omega)
        exact ⟨member, .tail _ found, before, behind⟩
  | case2 start _ ends => exact ⟨start, List.mem_singleton_self start, reached, by omega⟩
  | case3 start beyond => omega

/-- A start beyond the first one lies a step behind a window that does not reach the end. -/
theorem eq_or_le_of_mem_windowStarts {member : Nat}
    (found : member ∈ windowStarts length size step start) :
    member = start ∨ (start + step ≤ member ∧ start + size < length) := by
  rw [windowStarts] at found
  split at found
  · split at found
    · rename_i continues
      rcases List.mem_cons.mp found with rfl | found
      · exact .inl rfl
      · rw [windowStarts_eq] at found
        obtain ⟨index, -, rfl⟩ := List.mem_map.mp found
        exact .inr ⟨Nat.le_add_right _ _, continues⟩
    · exact .inl (List.mem_singleton.mp found)
  · cases found

/-- **No overflow.** A long size ends the walk at its first window, and a long step after
it, so that all other sums are of numbers below the length. -/
theorem sumsFit (short : length < 2 ^ 63) (sized : size < 2 ^ 64) (stepped : step.val < 2 ^ 64) :
    SumsFit length size step := by
  intro start found
  have inside := lt_of_mem_windowStarts found
  rcases eq_or_le_of_mem_windowStarts found with rfl | ⟨behind, longer⟩
  · omega
  · omega

end Starts

section Parts

variable {α : Type} {size : Nat} {step : { count : Nat // 0 < count }} {elements : List α}

theorem window_eq_extract {start : Nat} (elements : List α) :
    window size start elements =
      elements.extract start (min (start + size) elements.length) := by
  rw [window, List.extract, List.take_eq_take_iff, List.length_drop]
  omega

theorem length_window (size start : Nat) (elements : List α) :
    (window size start elements).length = min size (elements.length - start) := by
  rw [window, List.length_take, List.length_drop]

/-- The windows that the walk over a list cuts, as a list of slices. -/
theorem map_window_eq (size : Nat) (step : { count : Nat // 0 < count }) (elements : List α) :
    (windowStarts elements.length size step 0).map (fun start => window size start elements) =
      (List.range (windowCount elements.length size step)).map fun index =>
        window size (index * step) elements := by
  rw [windowStarts_eq, Nat.sub_zero, List.map_map]
  simp only [Function.comp_def, Nat.zero_add]

/-- The walk over a list cuts its windows. -/
theorem windowsOf_windowStarts (size : Nat) (step : { count : Nat // 0 < count }) (sized : 0 < size)
    (elements : List α) : WindowsOf elements size step
      ((windowStarts elements.length size step 0).map fun start => window size start elements) := by
  refine ⟨?_, ?_, ?_, ?_, ?_⟩
  · rw [map_window_eq, List.length_map, List.length_range]
  · intro index part found
    rw [map_window_eq, List.getElem?_map, Option.map_eq_some_iff] at found
    obtain ⟨same, atIndex, rfl⟩ := found
    obtain ⟨-, rfl⟩ := List.getElem?_eq_some_iff.mp atIndex
    rw [List.getElem_range]
    exact window_eq_extract elements
  · intro part member
    obtain ⟨start, found, rfl⟩ := List.mem_map.mp member
    have inside := lt_of_mem_windowStarts found
    refine List.ne_nil_of_length_pos ?_
    rw [length_window]
    omega
  · intro part member
    rw [← List.map_dropLast] at member
    obtain ⟨start, found, rfl⟩ := List.mem_map.mp member
    have continues := add_lt_of_mem_dropLast found
    rw [length_window]
    omega
  · intro overlapping position element atPosition
    have inside := (List.getElem?_eq_some_iff.mp atPosition).1
    obtain ⟨start, found, before, behind⟩ :=
      exists_start_le overlapping (Nat.zero_le position) inside
    rw [windowStarts_eq, Nat.sub_zero] at found
    obtain ⟨index, within, rfl⟩ := List.mem_map.mp found
    rw [Nat.zero_add] at before behind
    refine ⟨index, window size (index * step) elements, ?_, before, ?_⟩
    · rw [map_window_eq, List.getElem?_map, List.getElem?_range (List.mem_range.mp within)]
      rfl
    · rw [window, List.getElem?_take, if_pos (by omega), List.getElem?_drop,
        Nat.add_sub_cancel' before]
      exact atPosition

/-- Every window is a part of the list. -/
theorem WindowsOf.sublist {step : Nat} {parts : List (List α)}
    (windows : WindowsOf elements size step parts) {part : List α} (member : part ∈ parts) :
    part.Sublist elements := by
  obtain ⟨index, found⟩ := List.getElem?_of_mem member
  rw [windows.slices index part found]
  exact (List.take_sublist _ _).trans (List.drop_sublist _ _)

end Parts

section Containers

variable {σ δ κ ν : Type} [EntrySequence σ κ ν] [Collection δ κ ν]

/-- What holds of the container of each part holds of the containers of all parts. -/
theorem forall₂_collectParts (stamp : Stamp) {parts : List (List (κ × ν))}
    {holds : δ → List (κ × ν) → Prop}
    (each : ∀ stamp, ∀ part ∈ parts, holds (collect stamp part) part) :
    List.Forall₂ holds (collectParts stamp parts) parts := by
  refine List.forall₂_iff_get.mpr ⟨List.length_mapIdx, ?_⟩
  intro index _ inside
  simp only [collectParts, List.get_eq_getElem, List.getElem_mapIdx]
  exact each _ _ (List.getElem_mem inside)

variable {source : σ} {size step : Nat} {stamp : Stamp}

omit [EntrySequence σ κ ν] [Collection δ κ ν] in
theorem requirePositive_of_pos (operation : Operation) (parameter : Parameter) {value : Nat}
    (positive : 0 < value) :
    MapError.requirePositive operation parameter value = .ok ⟨value, positive⟩ :=
  dif_pos positive

theorem slidingBy_size_zero :
    (slidingBy stamp source 0 step : Except MapError (List δ)) =
      .error (.invalidPartition .sliding .size 0) := rfl

theorem slidingBy_step_zero (sized : 0 < size) :
    (slidingBy stamp source size 0 : Except MapError (List δ)) =
      .error (.invalidPartition .sliding .step 0) := by
  rw [slidingBy, requirePositive_of_pos .sliding .size sized]
  rfl

theorem slidingBy_of_pos (sized : 0 < size) (advances : 0 < step) :
    (slidingBy stamp source size step : Except MapError (List δ)) =
      .ok (collectParts stamp ((windowStarts (entries source).length size ⟨step, advances⟩ 0).map
        fun start => window size start (entries source))) := by
  rw [slidingBy, requirePositive_of_pos .sliding .size sized,
    requirePositive_of_pos .sliding .step advances]
  rfl

end Containers

/-- **Sliding windows.** Windows are refused exactly for a size or a step of zero, and the
size is looked at first. For any other size and step, whatever the source, the result has
the container of each window of the entry sequence, and on the way to it no sum exceeds a
64-bit word. Windows of a map that are maps themselves are iterated as the slices of its
iteration, collisions included, and have their numbers of entries as lengths. -/
theorem slidingBy_windows {κ ν : Type} (size step : Nat) :
    (∀ {σ δ : Type} [EntrySequence σ κ ν] [Collection δ κ ν] (stamp : Stamp) (source : σ),
        (size = 0 → (slidingBy stamp source size step : Except MapError (List δ)) =
          .error (.invalidPartition .sliding .size 0)) ∧
        (0 < size → step = 0 → (slidingBy stamp source size step : Except MapError (List δ)) =
          .error (.invalidPartition .sliding .step 0)) ∧
        ∀ (_ : 0 < size) (advances : 0 < step),
          (∃ parts, WindowsOf (entries source) size step parts ∧
            slidingBy stamp source size step = .ok (collectParts stamp parts : List δ)) ∧
          ((entries source).length < 2 ^ 63 → size < 2 ^ 64 → step < 2 ^ 64 →
            SumsFit (entries source).length size ⟨step, advances⟩)) ∧
      ∀ [BEq κ] [Hashable κ] [EquivBEq κ] {pool : Pool κ} {map : TrieMap κ ν},
        Reachable pool → ⟨ν, map⟩ ∈ pool → 0 < size → 0 < step → ∀ stamp,
          ∃ parts windows, WindowsOf map.cursor.rest size step parts ∧
            slidingBy stamp map size step = .ok windows ∧
            List.Forall₂ (fun (window : TrieMap κ ν) part =>
              window.cursor.rest = part ∧ window.length = part.length) windows parts := by
  refine ⟨?_, ?_⟩
  · intro σ δ _ _ stamp source
    refine ⟨?_, ?_, ?_⟩
    · rintro rfl
      exact slidingBy_size_zero
    · rintro sized rfl
      exact slidingBy_step_zero sized
    · intro sized advances
      refine ⟨⟨_, windowsOf_windowStarts size ⟨step, advances⟩ sized (entries source),
        slidingBy_of_pos sized advances⟩, ?_⟩
      intro short sized stepped
      exact sumsFit short sized stepped
  · intro _ _ _ pool map reachable held sized advances stamp
    have wellFormed := reachable.sound held
    have windows := windowsOf_windowStarts size ⟨step, advances⟩ sized map.toList
    rw [TrieMap.cursor, Trie.Cursor.rest_start]
    refine ⟨_, _, windows, slidingBy_of_pos sized advances, ?_⟩
    refine forall₂_collectParts stamp ?_
    intro stamp part member
    have listed := wellFormed.toList_ofList_sublist stamp (windows.sublist member)
    refine ⟨(Trie.Cursor.rest_start _).trans listed, ?_⟩
    exact (TrieMap.wellFormed_ofList stamp part).length.trans (congrArg List.length listed)

/-- The keys 0 and 2^64 have one hash, and 32 differs from it in the second digit, so the run
of the first two is cut by the second window. In a plain list the longest step there is
leads beyond the end at once. -/
theorem slidingBy_windows_of_collisions :
    let twin := 0x10000000000000000
    let map : TrieMap Nat Nat := .ofList (.ofNat 0) [(32, 1), (twin, 2), (0, 3)]
    let plain : List (Nat × Nat) := [(0, 1), (0, 1), (1, 2)]
    (∃ parts windows, WindowsOf map.cursor.rest 2 1 parts ∧
        slidingBy (.ofNat 1) map 2 1 = .ok windows ∧
        List.Forall₂ (fun (window : TrieMap Nat Nat) part =>
          window.cursor.rest = part ∧ window.length = part.length) windows parts) ∧
      (slidingBy (.ofNat 1) map 2 1 : Except MapError (List (TrieMap Nat Nat))).toOption.map
          (List.map TrieMap.toList) = some [[(twin, 2), (0, 3)], [(0, 3), (32, 1)]] ∧
      SumsFit plain.length 2 ⟨2 ^ 64 - 1, by decide⟩ := by
  intro twin map plain
  have reachable : Reachable [⟨Nat, map⟩] := .ofList _ _
  have onList := (slidingBy_windows 2 (2 ^ 64 - 1)).1 (δ := List (Nat × Nat)) (.ofNat 1) plain
  refine ⟨(slidingBy_windows 2 1).2 reachable List.mem_cons_self (by decide) (by decide) _,
    by decide +kernel, ?_⟩
  exact (onList.2.2 (by decide) (by decide)).2 (by decide) (by decide) (by decide)

end HashTrie.Traversal
