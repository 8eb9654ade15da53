import HashTrie.Trie.Basic
import Mathlib.Tactic.ByContra

/-!
# Children by slot

A branch keeps its children in a list without gaps and finds them by rank. Here
the list is read as what it stands for, a child or none for each slot: a change of
the list at a rank replaces the child of one slot (`Replaced`), and the list is
determined by the children of the slots (`eq_filterMap_childAt`). Everything below
a branch can then be listed slot by slot (`toLists_eq_flatMap_entriesAt`).
-/

namespace HashTrie

private theorem countP_or_eq {α : Type} [DecidableEq α] {list : List α} (nodup : list.Nodup)
    {chosen : α} (member : chosen ∈ list) {holds : α → Bool} (new : holds chosen = false) :
    list.countP (fun other => holds other || decide (chosen = other)) =
      list.countP holds + 1 := by
  induction list with
  | nil => cases member
  | cons head tail ih =>
      obtain ⟨notMember, nodup⟩ := List.nodup_cons.mp nodup
      simp only [List.countP_cons]
      rcases List.mem_cons.mp member with rfl | member
      · have absent : ∀ other ∈ tail,
            (holds other || decide (chosen = other)) = true ↔ holds other = true := by
          intro other inTail
          have different : chosen ≠ other := fun same => notMember (same ▸ inTail)
          simp [different]
        rw [List.countP_congr absent]
        simp [new]
      · have different : chosen ≠ head := fun same => notMember (same ▸ member)
        rw [ih nodup member]
        simp only [different, decide_false, Bool.or_false]
        omega

/-- An element of an ascending list stands behind those that are smaller. -/
private theorem getElem?_countP_lt {list : List Slot} (ascending : list.Pairwise (· < ·))
    {slot : Slot} (member : slot ∈ list) :
    list[list.countP (fun lower => decide (lower < slot))]? = some slot := by
  induction list with
  | nil => cases member
  | cons head tail ih =>
      obtain ⟨least, ascending⟩ := List.pairwise_cons.mp ascending
      rcases List.mem_cons.mp member with rfl | member
      · have none : (slot :: tail).countP (fun lower => decide (lower < slot)) = 0 := by
          rw [List.countP_eq_zero]
          intro other inList
          rcases List.mem_cons.mp inList with rfl | inTail
          · simp
          · simpa using Fin.le_of_lt (least other inTail)
        rw [none]
        rfl
      · have smaller : decide (head < slot) = true := decide_eq_true (least slot member)
        simpa [List.countP_cons, smaller] using ih ascending member

private theorem getElem?_filterMap {α β : Type} {list : List α} {function : α → Option β}
    (total : ∀ element ∈ list, (function element).isSome) (index : Nat) :
    (list.filterMap function)[index]? = list[index]?.bind function := by
  induction list generalizing index with
  | nil => simp
  | cons head tail ih =>
      obtain ⟨image, defined⟩ := Option.isSome_iff_exists.mp (total head List.mem_cons_self)
      rw [List.filterMap_cons_some defined]
      cases index with
      | zero => simp [defined]
      | succ index =>
          simpa using ih (fun element member => total element (List.mem_cons_of_mem _ member)) index

namespace Bitmap

variable {bitmap : Bitmap} {slot : Slot}

/-- A slot that comes in moves up the ranks of the slots above it. -/
theorem rank_insert (free : bitmap.contains slot = false) (other : Slot) :
    (bitmap.insert slot).rank other = bitmap.rank other + if slot < other then 1 else 0 := by
  unfold rank
  by_cases above : slot < other
  · rw [if_pos above, ← countP_or_eq (List.nodup_finRange 32) (List.mem_finRange slot)
      (by simp [free])]
    apply List.countP_congr
    intro lower _
    by_cases same : slot = lower
    · subst same
      simp [contains_insert, above]
    · simp [contains_insert, same]
  · rw [if_neg above, Nat.add_zero]
    apply List.countP_congr
    intro lower _
    by_cases same : slot = lower
    · subst same
      simp [above]
    · simp [contains_insert, same]

theorem card_insert (free : bitmap.contains slot = false) :
    (bitmap.insert slot).card = bitmap.card + 1 := by
  unfold card
  rw [← countP_or_eq (List.nodup_finRange 32) (List.mem_finRange slot) free]
  apply List.countP_congr
  intro lower _
  rw [contains_insert]

theorem contains_erase_self (bitmap : Bitmap) (slot : Slot) :
    (bitmap.erase slot).contains slot = false := by
  simp [contains_erase]

/-- A slot taken out and put back. -/
theorem insert_erase (occupied : bitmap.contains slot = true) :
    (bitmap.erase slot).insert slot = bitmap := by
  apply ext_contains
  intro other
  by_cases same : slot = other
  · subst same
    simp [contains_insert, occupied]
  · simp [contains_insert, contains_erase, same]

theorem rank_erase (occupied : bitmap.contains slot = true) (other : Slot) :
    bitmap.rank other = (bitmap.erase slot).rank other + if slot < other then 1 else 0 := by
  rw [← rank_insert (contains_erase_self bitmap slot), insert_erase occupied]

theorem card_erase (occupied : bitmap.contains slot = true) :
    bitmap.card = (bitmap.erase slot).card + 1 := by
  rw [← card_insert (contains_erase_self bitmap slot), insert_erase occupied]

theorem rank_mono {other : Slot} (ordered : slot ≤ other) :
    bitmap.rank slot ≤ bitmap.rank other := by
  apply List.countP_mono_left
  intro lower _ counted
  simp only [Bool.and_eq_true, decide_eq_true_eq] at counted ⊢
  exact ⟨Fin.lt_of_lt_of_le counted.1 ordered, counted.2⟩

theorem rank_le_card (bitmap : Bitmap) (slot : Slot) : bitmap.rank slot ≤ bitmap.card := by
  apply List.countP_mono_left
  intro lower _ counted
  exact (Bool.and_eq_true _ _ ▸ counted : _ ∧ _).2

theorem insert_empty (slot : Slot) : (⟨0⟩ : Bitmap).insert slot = singleton slot := by
  simp [insert, union]

theorem card_singleton (slot : Slot) : (singleton slot).card = 1 := by
  rw [← insert_empty, card_insert (by simp [contains])]
  simp [card, contains]

theorem rank_singleton (slot other : Slot) :
    (singleton slot).rank other = if slot < other then 1 else 0 := by
  rw [← insert_empty, rank_insert (by simp [contains])]
  simp [rank, contains]

/-- The rank of an occupied slot is a position among the children. -/
theorem rank_lt_card (occupied : bitmap.contains slot = true) :
    bitmap.rank slot < bitmap.card := by
  have below := rank_le_card (bitmap.erase slot) slot
  rw [rank_erase occupied slot, if_neg (Fin.lt_irrefl slot), card_erase occupied]
  omega

theorem rank_lt_rank {other : Slot} (occupied : bitmap.contains slot = true)
    (less : slot < other) : bitmap.rank slot < bitmap.rank other := by
  have below : (bitmap.erase slot).rank slot ≤ (bitmap.erase slot).rank other :=
    rank_mono (Fin.le_of_lt less)
  rw [rank_erase occupied slot, rank_erase occupied other, if_neg (Fin.lt_irrefl slot),
    if_pos less]
  omega

theorem rank_inj {other : Slot} (occupied : bitmap.contains slot = true)
    (otherOccupied : bitmap.contains other = true) (same : bitmap.rank slot = bitmap.rank other) :
    slot = other := by
  by_contra different
  rcases Fin.lt_or_lt_of_ne different with less | greater
  · exact Nat.ne_of_lt (rank_lt_rank occupied less) same
  · exact Nat.ne_of_gt (rank_lt_rank otherOccupied greater) same

theorem card_le_card_union (left right : Bitmap) : left.card ≤ (left.union right).card :=
  List.countP_mono_left fun slot _ occupied => by simp [contains_union, occupied]

theorem pairwise_slots (bitmap : Bitmap) : bitmap.slots.Pairwise (· < ·) :=
  (List.pairwise_lt_finRange 32).filter _

/-- The rank of an occupied slot is its position among the occupied slots. -/
theorem getElem?_slots_rank (occupied : bitmap.contains slot = true) :
    bitmap.slots[bitmap.rank slot]? = some slot := by
  have counted : bitmap.rank slot =
      bitmap.slots.countP (fun lower => decide (lower < slot)) := by
    rw [slots, List.countP_filter]
    rfl
  rw [counted]
  exact getElem?_countP_lt (pairwise_slots bitmap) ((mem_slots bitmap slot).mpr occupied)

/-- The occupied slot at a position has that position as its rank. -/
theorem rank_of_getElem? {index : Nat} (found : bitmap.slots[index]? = some slot) :
    bitmap.contains slot = true ∧ bitmap.rank slot = index := by
  have occupied := (mem_slots bitmap slot).mp (List.mem_of_getElem? found)
  have inside : bitmap.rank slot < bitmap.slots.length := by
    rw [length_slots]
    exact rank_lt_card occupied
  have nodup : bitmap.slots.Nodup := (pairwise_slots bitmap).imp Fin.ne_of_lt
  exact ⟨occupied, (List.getElem?_inj inside nodup).mp
    ((getElem?_slots_rank occupied).trans found.symm)⟩

end Bitmap

namespace Trie

variable {κ ν : Type} {bitmap : Bitmap} {children : List (Trie κ ν)} {slot : Slot}

theorem childAt_of_free (free : bitmap.contains slot = false) :
    childAt bitmap children slot = none := by
  simp [childAt, free]

theorem childAt_of_occupied (occupied : bitmap.contains slot = true) :
    childAt bitmap children slot = children[bitmap.rank slot]? := by
  simp [childAt, occupied]

/-- An occupied slot has a child. -/
theorem exists_childAt (full : children.length = bitmap.card)
    (occupied : bitmap.contains slot = true) :
    ∃ child, childAt bitmap children slot = some child := by
  rw [childAt_of_occupied occupied]
  exact ⟨_, List.getElem?_eq_getElem (full ▸ Bitmap.rank_lt_card occupied)⟩

theorem contains_of_childAt {child : Trie κ ν} (found : childAt bitmap children slot = some child) :
    bitmap.contains slot = true := by
  by_contra free
  rw [childAt_of_free (by simpa using free)] at found
  cases found

theorem mem_of_childAt {child : Trie κ ν} (found : childAt bitmap children slot = some child) :
    child ∈ children := by
  rw [childAt_of_occupied (contains_of_childAt found)] at found
  exact List.mem_of_getElem? found

theorem childAt_map {ω : Type} (function : Trie κ ν → Trie κ ω) :
    childAt bitmap (children.map function) slot = (childAt bitmap children slot).map function := by
  unfold childAt
  split
  · exact List.getElem?_map
  · rfl

/-- The child in a slot is the child at the rank of the slot. -/
theorem getElem_rank_of_childAt (full : children.length = bitmap.card) {child : Trie κ ν}
    (found : childAt bitmap children slot = some child) :
    ∃ inside : bitmap.rank slot < children.length, children[bitmap.rank slot] = child := by
  have occupied := contains_of_childAt found
  have inside : bitmap.rank slot < children.length := full ▸ Bitmap.rank_lt_card occupied
  rw [childAt_of_occupied occupied, List.getElem?_eq_getElem inside] at found
  exact ⟨inside, Option.some.inj found⟩

theorem free_of_childAt (full : children.length = bitmap.card)
    (missing : childAt bitmap children slot = none) : bitmap.contains slot = false := by
  by_contra occupied
  obtain ⟨child, found⟩ := exists_childAt full (by simpa using occupied)
  rw [missing] at found
  cases found

/-- If there is one child after a child was replaced, there was one before. -/
theorem alone_of_set (full : children.length = bitmap.card) {child after single : Trie κ ν}
    (found : childAt bitmap children slot = some child)
    (alone : children.set (bitmap.rank slot) after = [single]) :
    children = [child] ∧ after = single := by
  obtain ⟨inside, here⟩ := getElem_rank_of_childAt full found
  have one : children.length = 1 := by simpa using congrArg List.length alone
  obtain ⟨only, rfl⟩ := List.length_eq_one_iff.mp one
  have first : bitmap.rank slot = 0 := Nat.lt_one_iff.mp inside
  simp only [first, List.getElem_cons_zero, List.set_cons_zero, List.cons.injEq,
    and_true] at here alone
  exact ⟨congrArg (· :: []) here, alone⟩

/-- The child in the slot at a position is the child at that position. -/
theorem childAt_eq_some_iff {child : Trie κ ν} : childAt bitmap children slot = some child ↔
    ∃ index : Nat, bitmap.slots[index]? = some slot ∧ children[index]? = some child := by
  constructor
  · intro found
    have occupied := contains_of_childAt found
    rw [childAt_of_occupied occupied] at found
    exact ⟨_, Bitmap.getElem?_slots_rank occupied, found⟩
  · rintro ⟨index, atSlot, atChild⟩
    obtain ⟨occupied, rfl⟩ := Bitmap.rank_of_getElem? atSlot
    rw [childAt_of_occupied occupied, atChild]

/-- Putting another child at the rank of an occupied slot. -/
theorem childAt_set (full : children.length = bitmap.card)
    (occupied : bitmap.contains slot = true) (child : Trie κ ν) (other : Slot) :
    childAt bitmap (children.set (bitmap.rank slot) child) other =
      if other = slot then some child else childAt bitmap children other := by
  by_cases same : other = slot
  · subst same
    rw [if_pos rfl, childAt_of_occupied occupied,
      List.getElem?_set_self (full ▸ Bitmap.rank_lt_card occupied)]
  · rw [if_neg same]
    by_cases occupiedOther : bitmap.contains other = true
    · rw [childAt_of_occupied occupiedOther, childAt_of_occupied occupiedOther,
        List.getElem?_set_ne]
      exact fun ranks => same (Bitmap.rank_inj occupied occupiedOther ranks).symm
    · rw [Bool.not_eq_true] at occupiedOther
      rw [childAt_of_free occupiedOther, childAt_of_free occupiedOther]

/-- Putting a child in at the rank of a free slot. -/
theorem childAt_insertIdx (full : children.length = bitmap.card)
    (free : bitmap.contains slot = false) (child : Trie κ ν) (other : Slot) :
    childAt (bitmap.insert slot) (children.insertIdx (bitmap.rank slot) child) other =
      if other = slot then some child else childAt bitmap children other := by
  by_cases same : other = slot
  · subst same
    have occupied : (bitmap.insert other).contains other = true := by
      simp [Bitmap.contains_insert]
    rw [if_pos rfl, childAt_of_occupied occupied, Bitmap.rank_insert free,
      if_neg (Fin.lt_irrefl other), Nat.add_zero, List.getElem?_insertIdx_self,
      if_pos (full ▸ Bitmap.rank_le_card bitmap other)]
  · have kept : (bitmap.insert slot).contains other = bitmap.contains other := by
      simp [Bitmap.contains_insert, Ne.symm same]
    rw [if_neg same]
    unfold childAt
    rw [kept]
    split
    · rename_i occupied
      rw [Bitmap.rank_insert free]
      rcases Fin.lt_or_lt_of_ne same with less | greater
      · have lower := Bitmap.rank_lt_rank occupied less
        rw [if_neg (Fin.not_lt.mpr (Fin.le_of_lt less)), Nat.add_zero,
          List.getElem?_insertIdx_of_lt lower]
      · have upper : bitmap.rank slot ≤ bitmap.rank other :=
          Bitmap.rank_mono (Fin.le_of_lt greater)
        rw [if_pos greater, List.getElem?_insertIdx_of_gt (Nat.lt_succ_of_le upper)]
        rfl
    · rfl

/-- Taking out the child at the rank of an occupied slot. -/
theorem childAt_eraseIdx (occupied : bitmap.contains slot = true) (other : Slot) :
    childAt (bitmap.erase slot) (children.eraseIdx (bitmap.rank slot)) other =
      if other = slot then none else childAt bitmap children other := by
  by_cases same : other = slot
  · subst same
    rw [if_pos rfl, childAt_of_free (Bitmap.contains_erase_self bitmap other)]
  · have kept : (bitmap.erase slot).contains other = bitmap.contains other := by
      simp [Bitmap.contains_erase, Ne.symm same]
    rw [if_neg same]
    unfold childAt
    rw [kept]
    split
    · rename_i occupiedOther
      have ranks := Bitmap.rank_erase occupied other
      rcases Fin.lt_or_lt_of_ne same with less | greater
      · have lower := Bitmap.rank_lt_rank occupiedOther less
        rw [if_neg (Fin.not_lt.mpr (Fin.le_of_lt less)), Nat.add_zero] at ranks
        rw [← ranks, List.getElem?_eraseIdx_of_lt lower]
      · have upper := Bitmap.rank_lt_rank occupied greater
        rw [if_pos greater] at ranks
        rw [List.getElem?_eraseIdx_of_ge (by omega), ← ranks]
    · rfl

/-- A child or none for each slot, listed without gaps, is found again by slot. -/
theorem childAt_filterMap {chosen : Slot → Option (Trie κ ν)}
    (exact : ∀ slot, (chosen slot).isSome = bitmap.contains slot) (slot : Slot) :
    childAt bitmap (bitmap.slots.filterMap chosen) slot = chosen slot := by
  by_cases occupied : bitmap.contains slot = true
  · have total : ∀ other ∈ bitmap.slots, (chosen other).isSome := by
      intro other member
      rw [exact other]
      exact (Bitmap.mem_slots bitmap other).mp member
    rw [childAt_of_occupied occupied, getElem?_filterMap total,
      Bitmap.getElem?_slots_rank occupied, Option.bind_some]
  · have free : chosen slot = none := by
      rw [← Option.not_isSome_iff_eq_none, exact slot]
      exact occupied
    rw [childAt_of_free (by simpa using occupied), free]

theorem length_filterMap_slots {chosen : Slot → Option (Trie κ ν)}
    (exact : ∀ slot, (chosen slot).isSome = bitmap.contains slot) :
    (bitmap.slots.filterMap chosen).length = bitmap.card := by
  rw [List.length_filterMap_eq_countP, Bitmap.slots, List.countP_filter, Bitmap.card]
  apply List.countP_congr
  intro slot _
  simp [exact slot]

/-- The children are those of the occupied slots in turn. -/
theorem eq_filterMap_childAt (full : children.length = bitmap.card) :
    children = bitmap.slots.filterMap (childAt bitmap children) := by
  have total : ∀ slot ∈ bitmap.slots, (childAt bitmap children slot).isSome := by
    intro slot member
    obtain ⟨child, found⟩ := exists_childAt full ((Bitmap.mem_slots bitmap slot).mp member)
    rw [found]
    rfl
  apply List.ext_getElem?
  intro index
  rw [getElem?_filterMap total]
  cases atSlot : bitmap.slots[index]? with
  | none =>
      rw [List.getElem?_eq_none_iff, Bitmap.length_slots, ← full] at atSlot
      rw [List.getElem?_eq_none atSlot]
      rfl
  | some slot =>
      obtain ⟨occupied, rfl⟩ := Bitmap.rank_of_getElem? atSlot
      rw [Option.bind_some, childAt_of_occupied occupied]

/-- A node is a child exactly if it stands in some slot. -/
theorem mem_iff_childAt (full : children.length = bitmap.card) {child : Trie κ ν} :
    child ∈ children ↔ ∃ slot, childAt bitmap children slot = some child := by
  constructor
  · intro member
    rw [eq_filterMap_childAt full] at member
    obtain ⟨slot, _, found⟩ := List.mem_filterMap.mp member
    exact ⟨slot, found⟩
  · rintro ⟨slot, found⟩
    exact mem_of_childAt found

/-- The entries in a slot of a branch. -/
def entriesAt (bitmap : Bitmap) (children : List (Trie κ ν)) (slot : Slot) : List (κ × ν) :=
  (childAt bitmap children slot).elim [] toList

theorem mem_entriesAt {slot : Slot} {entry : κ × ν} : entry ∈ entriesAt bitmap children slot ↔
    ∃ child, childAt bitmap children slot = some child ∧ entry ∈ child.toList := by
  unfold entriesAt
  cases childAt bitmap children slot <;> simp

theorem entriesAt_of_childAt {slot : Slot} {child : Trie κ ν}
    (found : childAt bitmap children slot = some child) :
    entriesAt bitmap children slot = child.toList := by
  rw [entriesAt, found]
  rfl

/-- The entries below a branch, slot by slot. -/
theorem toLists_eq_flatMap_entriesAt (full : children.length = bitmap.card) :
    toLists children = (List.finRange 32).flatMap (entriesAt bitmap children) := by
  have listed (slots : List Slot) (chosen : Slot → Option (Trie κ ν)) :
      toLists (slots.filterMap chosen) =
        slots.flatMap fun slot => (chosen slot).elim [] toList := by
    induction slots with
    | nil => rfl
    | cons slot slots ih =>
        rw [List.filterMap_cons, List.flatMap_cons]
        cases chosen slot with
        | none => exact ih
        | some child => exact congrArg (child.toList ++ ·) ih
  have all : bitmap.slots.filterMap (childAt bitmap children) =
      (List.finRange 32).filterMap (childAt bitmap children) := by
    rw [Bitmap.slots, List.filterMap_filter]
    congr 1
    funext slot
    by_cases occupied : bitmap.contains slot = true
    · rw [if_pos occupied]
    · rw [if_neg occupied, childAt_of_free (by simpa using occupied)]
  calc toLists children
      = toLists (bitmap.slots.filterMap (childAt bitmap children)) :=
        congrArg toLists (eq_filterMap_childAt full)
    _ = toLists ((List.finRange 32).filterMap (childAt bitmap children)) := by rw [all]
    _ = _ := listed _ _

theorem mem_toLists_iff (full : children.length = bitmap.card) {entry : κ × ν} :
    entry ∈ toLists children ↔ ∃ slot, entry ∈ entriesAt bitmap children slot := by
  rw [toLists_eq_flatMap_entriesAt full, List.mem_flatMap]
  exact ⟨fun ⟨slot, _, found⟩ => ⟨slot, found⟩,
    fun ⟨slot, found⟩ => ⟨slot, List.mem_finRange slot, found⟩⟩

theorem length_toLists_set {index : Nat} (inside : index < children.length)
    (child : Trie κ ν) : (toLists (children.set index child)).length +
      children[index].toList.length = (toLists children).length + child.toList.length := by
  induction children generalizing index with
  | nil => cases inside
  | cons head children ih =>
      cases index with
      | zero =>
          simp only [List.set_cons_zero, toLists, List.length_append, List.getElem_cons_zero]
          omega
      | succ index =>
          have rest := ih (Nat.lt_of_succ_lt_succ inside)
          simp only [List.set_cons_succ, toLists, List.length_append, List.getElem_cons_succ]
          omega

theorem length_toLists_insertIdx {index : Nat} (inside : index ≤ children.length)
    (child : Trie κ ν) : (toLists (children.insertIdx index child)).length =
      (toLists children).length + child.toList.length := by
  induction children generalizing index with
  | nil =>
      obtain rfl : index = 0 := Nat.le_zero.mp inside
      simp [toLists]
  | cons head children ih =>
      cases index with
      | zero =>
          simp only [List.insertIdx_zero, toLists, List.length_append]
          omega
      | succ index =>
          simp only [List.insertIdx_succ_cons, toLists, List.length_append,
            ih (Nat.le_of_succ_le_succ inside)]
          omega

theorem length_toLists_eraseIdx {index : Nat} (inside : index < children.length) :
    (toLists (children.eraseIdx index)).length + children[index].toList.length =
      (toLists children).length := by
  induction children generalizing index with
  | nil => cases inside
  | cons head children ih =>
      cases index with
      | zero =>
          simp only [List.eraseIdx_cons_zero, toLists, List.length_append,
            List.getElem_cons_zero]
          omega
      | succ index =>
          have rest := ih (Nat.lt_of_succ_lt_succ inside)
          simp only [List.eraseIdx_cons_succ, toLists, List.length_append,
            List.getElem_cons_succ]
          omega

/-- The children of a branch after those of one slot have been replaced. -/
structure Replaced (slot : Slot) (replacement : Option (Trie κ ν)) (bitmap : Bitmap)
    (children : List (Trie κ ν)) (bitmapAfter : Bitmap) (childrenAfter : List (Trie κ ν)) :
    Prop where
  full : childrenAfter.length = bitmapAfter.card
  childAt_eq : ∀ other, childAt bitmapAfter childrenAfter other =
    if other = slot then replacement else childAt bitmap children other
  length : (toLists childrenAfter).length + (entriesAt bitmap children slot).length =
    (toLists children).length + (replacement.elim [] toList).length

/-- Another child in an occupied slot. -/
theorem replaced_set (full : children.length = bitmap.card) {child : Trie κ ν}
    (found : childAt bitmap children slot = some child) (after : Trie κ ν) :
    Replaced slot (some after) bitmap children bitmap
      (children.set (bitmap.rank slot) after) := by
  refine ⟨?_, childAt_set full (contains_of_childAt found) after, ?_⟩
  · rw [List.length_set, full]
  · obtain ⟨inside, here⟩ := getElem_rank_of_childAt full found
    rw [entriesAt_of_childAt found, ← here]
    exact length_toLists_set inside after

/-- A child in a free slot. -/
theorem replaced_insertIdx (full : children.length = bitmap.card)
    (free : bitmap.contains slot = false) (after : Trie κ ν) :
    Replaced slot (some after) bitmap children (bitmap.insert slot)
      (children.insertIdx (bitmap.rank slot) after) := by
  have inside : bitmap.rank slot ≤ children.length := full ▸ Bitmap.rank_le_card bitmap slot
  refine ⟨?_, childAt_insertIdx full free after, ?_⟩
  · rw [List.length_insertIdx_of_le_length inside, full, Bitmap.card_insert free]
  · rw [entriesAt, childAt_of_free free]
    exact length_toLists_insertIdx inside after

/-- No child in a slot that was occupied. -/
theorem replaced_eraseIdx (full : children.length = bitmap.card) {child : Trie κ ν}
    (found : childAt bitmap children slot = some child) :
    Replaced slot none bitmap children (bitmap.erase slot)
      (children.eraseIdx (bitmap.rank slot)) := by
  have occupied := contains_of_childAt found
  obtain ⟨inside, here⟩ := getElem_rank_of_childAt full found
  refine ⟨?_, childAt_eraseIdx occupied, ?_⟩
  · have cards := Bitmap.card_erase occupied
    rw [List.length_eraseIdx_of_lt inside, full]
    omega
  · rw [entriesAt_of_childAt found, ← here]
    exact length_toLists_eraseIdx inside

end Trie

end HashTrie
