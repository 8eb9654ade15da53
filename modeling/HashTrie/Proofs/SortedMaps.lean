import HashTrie.Proofs.Collecting
import HashTrie.SortedMap

/-!
# Sorted maps

A sorted map that is collected from entries is iterated in ascending order of its keys
(`ascending_ofList`) and has each key with the last of its values (`get?_ofList`). The order of
the keys leaves no freedom: sorted maps with the same entries are one map
(`eq_of_perm`).
-/

namespace HashTrie.SortedMap

variable {κ ν : Type} [Ord κ] {entry : κ × ν} {entries first second : List (κ × ν)}

/-- Each key is less than those after it. -/
def Ascending (entries : List (κ × ν)) : Prop :=
  entries.Pairwise fun entry later => compare entry.1 later.1 = .lt

section Order

/-- An entry that is put into a list is in it, and the others were. -/
theorem mem_of_mem_put {member : κ × ν} (held : member ∈ put entry entries) :
    member = entry ∨ member ∈ entries := by
  induction entries with
  | nil => exact .inl (List.mem_singleton.mp held)
  | cons other rest ih =>
      rw [put] at held
      split at held
      · exact List.mem_cons.mp held
      · exact (List.mem_cons.mp held).imp_right (.tail other)
      · rcases List.mem_cons.mp held with rfl | inRest
        · exact .inr List.mem_cons_self
        · exact (ih inRest).imp_right (.tail other)

variable [Std.TransOrd κ]

/-- Putting an entry in its place keeps the keys in order. -/
theorem Ascending.put (ascending : Ascending entries) (entry : κ × ν) :
    Ascending (SortedMap.put entry entries) := by
  induction entries with
  | nil => exact List.pairwise_singleton ..
  | cons other rest ih =>
      obtain ⟨least, ordered⟩ := List.pairwise_cons.mp ascending
      rw [SortedMap.put]
      cases order : compare entry.1 other.1 with
      | lt =>
          refine .cons ?_ ascending
          intro later member
          rcases List.mem_cons.mp member with rfl | inRest
          · exact order
          · exact Std.TransCmp.lt_trans order (least later inRest)
      | eq =>
          refine .cons ?_ ordered
          intro later member
          exact (Std.TransCmp.congr_left order).trans (least later member)
      | gt =>
          refine .cons ?_ (ih ordered)
          intro later member
          rcases mem_of_mem_put member with rfl | inRest
          · exact Std.OrientedCmp.lt_of_gt order
          · exact least later inRest

theorem Ascending.foldl_insert {map : SortedMap κ ν} (ascending : Ascending map.entries)
    (part : List (κ × ν)) :
    Ascending (part.foldl (fun sorted entry => sorted.insert entry.1 entry.2) map).entries := by
  induction part generalizing map with
  | nil => exact ascending
  | cons entry part ih => exact ih (ascending.put entry)

/-- A sorted map is iterated in ascending order of its keys. -/
theorem ascending_ofList (part : List (κ × ν)) : Ascending (ofList part).entries := by
  have empty : Ascending (⟨[]⟩ : SortedMap κ ν).entries := .nil
  exact empty.foldl_insert part

/-- Entries in ascending order of their keys can stand in no other one. -/
theorem eq_of_perm {map other : SortedMap κ ν} (ascending : Ascending map.entries)
    (otherAscending : Ascending other.entries) (same : map.entries.Perm other.entries) :
    map = other := by
  refine congrArg SortedMap.mk (same.eq_of_pairwise ?_ ascending otherAscending)
  intro entry later _ _ less greater
  rw [Std.OrientedCmp.gt_of_lt less] at greater
  cases greater

end Order

section Lookup

variable [BEq κ] [Std.LawfulBEqOrd κ]

theorem get?_eq_find? [EquivBEq κ] (map : SortedMap κ ν) (key : κ) :
    map.get? key = (Run.find? map.entries key).map Prod.snd := by
  rw [get?, Run.find?]
  refine congrArg _ (congrArg (List.find? · map.entries) (funext fun entry => ?_))
  have agrees : (compare key entry.1).isEq = true ↔ (key == entry.1) = true :=
    Ordering.isEq_iff_eq_eq.trans Std.LawfulBEqCmp.compare_eq_iff_beq
  rw [BEq.comm]
  exact Bool.eq_iff_iff.mpr agrees

/-- After an entry was put in its place it is found under its key, and the others as before. -/
theorem find?_put [EquivBEq κ] (entry : κ × ν) (entries : List (κ × ν)) (key : κ) :
    Run.find? (put entry entries) key =
      if entry.1 == key then some entry else Run.find? entries key := by
  induction entries with
  | nil => exact Run.find?_cons entry [] key
  | cons other rest ih =>
      rw [put]
      cases order : compare entry.1 other.1 with
      | lt => exact Run.find?_cons entry (other :: rest) key
      | eq =>
          have equal := Std.LawfulBEqCmp.compare_eq_iff_beq.mp order
          rw [Run.find?_cons, Run.find?_cons, ← BEq.congr_left equal]
          cases entry.1 == key <;> rfl
      | gt =>
          rw [Run.find?_cons, Run.find?_cons, ih]
          cases same : other.1 == key with
          | false => rfl
          | true =>
              have apart : (entry.1 == key) = false := by
                rw [← BEq.congr_right same, Bool.eq_false_iff]
                intro equal
                have tied : compare entry.1 other.1 = .eq :=
                  Std.LawfulBEqCmp.compare_eq_iff_beq.mpr equal
                rw [order] at tied
                cases tied
              rw [apart]
              rfl

/-- After entries were inserted a key is found as in the last of them that has it. -/
theorem find?_foldl_insert [EquivBEq κ] (map : SortedMap κ ν) (part : List (κ × ν)) (key : κ) :
    Run.find? (part.foldl (fun sorted entry => sorted.insert entry.1 entry.2) map).entries key =
      (Run.findLast? part key).or (Run.find? map.entries key) := by
  induction part generalizing map with
  | nil => rfl
  | cons entry part ih =>
      rw [List.foldl_cons, ih, Run.findLast?_cons, insert, find?_put]
      cases entry.1 == key with
      | false => rw [if_neg Bool.false_ne_true, if_neg Bool.false_ne_true, Option.or_none]
      | true => cases Run.findLast? part key <;> rfl

/-- Of the values of a key the last one is kept. -/
theorem get?_ofList [EquivBEq κ] (part : List (κ × ν)) (key : κ) :
    (ofList part).get? key = (Run.findLast? part key).map Prod.snd := by
  rw [get?_eq_find?, ofList, find?_foldl_insert]
  exact congrArg _ Option.or_none

end Lookup

end HashTrie.SortedMap
