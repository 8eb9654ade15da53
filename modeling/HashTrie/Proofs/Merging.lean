import HashTrie.Proofs.Stamps
import HashTrie.Proofs.Writing

/-!
# Merging two tries

A merge works on each hash by itself: the run of a hash in the result is one of the
two runs with the other written into it (`Run.Merged`). Which one takes in the
other depends on the shapes that meet, but under either of them a key of both runs
gets the value that the resolution makes of the left and the right one
(`Run.Merged.find?_map_snd`). Merging keeps tries well-formed (`merge_wellFormed`);
the one proviso is that the stamp of the merge is new to the left trie, as the
decision to hand back a left branch compares stamps.
-/

namespace HashTrie

open Trie (Sharing)

variable {κ ν : Type} [BEq κ]

namespace Run

/-- The value of a key that is written beside the value stored under it, if any. -/
def settle (resolve : ν → ν → ν) (incoming : ν) : Option ν → ν
  | none => incoming
  | some stored => resolve stored incoming

/-- A run after an entry has been merged into it. -/
def absorbEntry (sharing : Sharing) (resolve : ν → ν → ν) (run : Run κ ν) (entry : κ × ν) :
    Run κ ν :=
  if sharing = .reuse ∧ (run.find? entry.1).isSome then run
  else (run.upsert entry.1 (settle resolve entry.2)).1

/-- A run after the entries of another have been merged into it. -/
def absorb (sharing : Sharing) (resolve : ν → ν → ν) (target source : Run κ ν) : Run κ ν :=
  source.foldl (absorbEntry sharing resolve) target

theorem absorb_cons (sharing : Sharing) (resolve : ν → ν → ν) (target : Run κ ν)
    (entry : κ × ν) (source : Run κ ν) : target.absorb sharing resolve (entry :: source) =
      (target.absorbEntry sharing resolve entry).absorb sharing resolve source := rfl

/-- What a merge may make of a left and a right run: the left one takes in the
right one, or the right one takes in the left one, or the left one stays where
shared nodes are reused. -/
def Merged (sharing : Sharing) (resolve : ν → ν → ν) (left right merged : Run κ ν) : Prop :=
  merged = left.absorb sharing resolve right ∨
    merged = right.absorb .descend (fun stored incoming => resolve incoming stored) left ∨
      (sharing = .reuse ∧ merged = left)

/-- The entry of a key in a run that took in another: where both have the key, the
stored one if nodes are reused, else the incoming key with the resolved value. -/
def settledEntry (sharing : Sharing) (resolve : ν → ν → ν) (stored incoming : κ × ν) : κ × ν :=
  if sharing = .reuse then stored else (incoming.1, resolve stored.2 incoming.2)

variable {sharing : Sharing} {resolve : ν → ν → ν} {left right merged : Run κ ν}

theorem Merged.right_nil : Merged sharing resolve left [] left := .inl rfl

theorem Merged.left_nil : Merged sharing resolve [] right right := .inr (.inl rfl)

theorem Merged.eq_nil (made : Merged sharing resolve ([] : Run κ ν) [] merged) : merged = [] := by
  rcases made with rfl | rfl | ⟨-, rfl⟩ <;> rfl

variable [EquivBEq κ]

theorem find?_congr (run : Run κ ν) {key probe : κ} (equal : (key == probe) = true) :
    run.find? key = run.find? probe := by
  induction run with
  | nil => rfl
  | cons entry run ih => rw [find?_cons, find?_cons, ih, BEq.congr_right equal]

theorem find?_absorbEntry (sharing : Sharing) (resolve : ν → ν → ν) (run : Run κ ν)
    (entry : κ × ν) (probe : κ) : (run.absorbEntry sharing resolve entry).find? probe =
      if entry.1 == probe then
        Option.merge (settledEntry sharing resolve) (run.find? probe) (some entry)
      else run.find? probe := by
  unfold absorbEntry
  cases atProbe : entry.1 == probe with
  | false =>
      split
      · rfl
      · rw [find?_upsert, atProbe]
        rfl
  | true =>
      rw [find?_congr run atProbe, if_pos rfl]
      cases found : run.find? probe with
      | none =>
          rw [if_neg (by simp), find?_upsert, atProbe, find?_congr run atProbe, found]
          rfl
      | some stored =>
          by_cases reused : sharing = .reuse
          · simp [reused, found, settledEntry]
          · rw [if_neg (by simp [reused]), find?_upsert, atProbe, find?_congr run atProbe, found]
            simp [settle, settledEntry, reused]

/-- A key is found in a run that took in another if it is found in either. -/
theorem find?_absorb {source : Run κ ν} (distinct : source.Distinct) (target : Run κ ν)
    (probe : κ) : (target.absorb sharing resolve source).find? probe =
      Option.merge (settledEntry sharing resolve) (target.find? probe) (source.find? probe) := by
  induction source generalizing target with
  | nil => cases found : find? target probe <;> simp [absorb, found]
  | cons entry source ih =>
      obtain ⟨unequal, distinct⟩ := distinct_cons.mp distinct
      rw [absorb_cons, ih distinct, find?_absorbEntry, find?_cons]
      cases atProbe : entry.1 == probe with
      | false => rfl
      | true =>
          have absent : find? source probe = none :=
            find?_eq_none_iff.mpr (unequal_of_head unequal atProbe)
          rw [absent]
          cases find? target probe <;> rfl

/-- **Either way, a merged run is a union.** A key of both runs has the value that the
resolution makes of the left and the right one; a key of one has its value there. -/
theorem Merged.find?_map_snd (made : Merged .descend resolve left right merged)
    (distinctLeft : left.Distinct) (distinctRight : right.Distinct) (key : κ) :
    (merged.find? key).map Prod.snd = Option.merge resolve ((left.find? key).map Prod.snd)
      ((right.find? key).map Prod.snd) := by
  rcases made with rfl | rfl | ⟨impossible, -⟩
  · rw [find?_absorb distinctRight]
    cases left.find? key <;> cases right.find? key <;> rfl
  · rw [find?_absorb distinctLeft]
    cases left.find? key <;> cases right.find? key <;> rfl
  · cases impossible

end Run

namespace Trie

variable {sharing : Sharing} {resolve : ν → ν → ν} {stamp : Stamp} {depth : Nat}

omit [BEq κ] in
/-- The value that a merge writes for an entry settles it with the stored one. -/
theorem settle_eq (entry : κ × ν) : (fun stored : Option ν =>
    match stored with
    | none => entry.2
    | some value => resolve value entry.2) = Run.settle resolve entry.2 := by
  funext stored
  cases stored <;> rfl

theorem absorbRun_cons (code : UInt64) (entry : κ × ν) (run : Run κ ν) (left : Trie κ ν) :
    absorbRun stamp sharing resolve depth code (entry :: run) left =
      absorbRun stamp sharing resolve depth code run
        (if sharing = .reuse ∧ (left.lookup entry.1 code depth).isSome then left
        else (left.upsert stamp entry.1 code (Run.settle resolve entry.2) depth).1) := by
  rw [absorbRun, List.foldl_cons, ← settle_eq]
  rfl

/-- Writing a left run into a right node is writing it with the roles exchanged. -/
theorem mergeRunInto_eq_absorbRun (code : UInt64) (run : Run κ ν) (right : Trie κ ν) :
    mergeRunInto stamp resolve depth code run right =
      absorbRun stamp .descend (fun stored incoming => resolve incoming stored) depth code run
        right := by
  simp only [mergeRunInto, absorbRun, reduceCtorEq, false_and, if_false]

variable [Hashable κ]

/-- What is written under a key follows the path of its hash. -/
theorem Under.of_written {key : κ} {resolve : Option ν → ν} {before after : List (κ × ν)}
    {added : Bool} (under : Under (digit (hash key)) depth before)
    (written : Written key resolve before after added) :
    Under (digit (hash key)) depth after := by
  intro entry member
  rcases written.hash_mem member with same | member
  · rw [same]
    exact .refl _ depth
  · exact under entry member

/-- A run of one hash is taken in by the run of that hash. -/
theorem absorbRun_wellFormed [EquivBEq κ] (stamp : Stamp) (sharing : Sharing)
    (resolve : ν → ν → ν) {code : UInt64} {run : Run κ ν} {left : Trie κ ν}
    (sound : WellFormed depth left) (under : Under (digit code) depth left.toList)
    (hashed : ∀ entry ∈ run, hash entry.1 = code) :
    WellFormed depth (absorbRun stamp sharing resolve depth code run left) ∧
      runOf code (absorbRun stamp sharing resolve depth code run left).toList =
        (runOf code left.toList).absorb sharing resolve run ∧
      ∀ other, other ≠ code →
        runOf other (absorbRun stamp sharing resolve depth code run left).toList =
          runOf other left.toList := by
  induction run generalizing left with
  | nil => exact ⟨sound, rfl, fun _ _ => rfl⟩
  | cons entry run ih =>
      have rest : ∀ other ∈ run, hash other.1 = code :=
        fun other member => hashed other (List.mem_cons_of_mem _ member)
      obtain rfl := hashed entry List.mem_cons_self
      rw [absorbRun_cons, sound.lookup_eq_find?, Run.absorb_cons, Run.absorbEntry]
      split
      · exact ih sound under rest
      · obtain ⟨soundAfter, written⟩ := upsert_wellFormed stamp
          (Run.settle resolve entry.2) sound under
        obtain ⟨soundLast, here, elsewhere⟩ := ih soundAfter (under.of_written written) rest
        refine ⟨soundLast, ?_, ?_⟩
        · rw [here, written.run]
        · intro other different
          rw [elsewhere other different, written.others other different]

omit [Hashable κ] in
/-- Writing a run into a branch leaves a branch. -/
theorem isLeaf_absorbRun (code : UInt64) (run : Run κ ν) {left : Trie κ ν}
    (nonempty : left.isEmpty = false) (noLeaf : left.isLeaf = false) :
    (absorbRun stamp sharing resolve depth code run left).isLeaf = false := by
  induction run generalizing left with
  | nil => exact noLeaf
  | cons entry run ih =>
      rw [absorbRun_cons]
      split
      · exact ih nonempty noLeaf
      · refine ih ?_ (isLeaf_upsert stamp entry.1 _ nonempty noLeaf)
        have built := rootStamp?_upsert stamp entry.1 code
          (Run.settle resolve entry.2) depth left
        cases shape : (left.upsert stamp entry.1 code (Run.settle resolve entry.2) depth).1 with
        | empty =>
            rw [shape] at built
            cases built
        | leaf => rfl
        | branch => rfl

omit [Hashable κ] in
/-- Merging turns no branch into a leaf. -/
theorem isLeaf_merge {left : Trie κ ν} (nonempty : left.isEmpty = false)
    (noLeaf : left.isLeaf = false) (right : Trie κ ν) :
    (merge stamp sharing resolve depth left right).isLeaf = false := by
  by_cases shared : sharing = .reuse ∧ left.same right = true
  · rw [merge_of_shared nonempty shared]
    exact noLeaf
  · cases left with
    | empty => cases nonempty
    | leaf => cases noLeaf
    | branch old bitmap size children =>
        cases right with
        | empty =>
            rw [merge_empty_right]
            rfl
        | leaf =>
            rw [merge_branch_leaf]
            exact isLeaf_absorbRun _ _ rfl rfl
        | branch =>
            rw [merge_branch_branch shared, mergedBranch]
            split <;> rfl

omit [BEq κ] [Hashable κ] in
theorem sizes_eq_length {nodes : List (Trie κ ν)}
    (counted : ∀ node ∈ nodes, node.size = node.toList.length) :
    sizes nodes = (toLists nodes).length := by
  induction nodes with
  | nil => rfl
  | cons node nodes ih =>
      rw [toLists, List.length_append, ← counted node List.mem_cons_self,
        ← ih fun other member => counted other (List.mem_cons_of_mem _ member)]
      rfl

section Branches

variable {old : Stamp} {size : Nat} {bitmap rightBitmap : Bitmap}
  {children rightChildren : List (Trie κ ν)}

/-- What a merge of two branches has in a slot: the merged child where both have
one, else the child of either. -/
def mergedAt (stamp : Stamp) (sharing : Sharing) (resolve : ν → ν → ν) (depth : Nat)
    (bitmap : Bitmap) (children : List (Trie κ ν)) (rightBitmap : Bitmap)
    (rightChildren : List (Trie κ ν)) (slot : Slot) : Option (Trie κ ν) :=
  Option.merge (merge stamp sharing resolve (depth + 1)) (childAt bitmap children slot)
    (childAt rightBitmap rightChildren slot)

omit [Hashable κ] in
/-- The left children after each has been merged with what it meets. -/
theorem childAt_mergeEach (stamp : Stamp) (sharing : Sharing) (resolve : ν → ν → ν) (depth : Nat)
    (rightBitmap : Bitmap) (rightChildren : List (Trie κ ν))
    (full : children.length = bitmap.card) (slot : Slot) :
    childAt bitmap (mergeEach stamp sharing resolve depth children
        (bitmap.slots.map (childAt rightBitmap rightChildren))) slot =
      (childAt bitmap children slot).bind fun _ =>
        mergedAt stamp sharing resolve depth bitmap children rightBitmap rightChildren slot := by
  have aligned : children.length =
      (bitmap.slots.map (childAt rightBitmap rightChildren)).length := by
    rw [List.length_map, Bitmap.length_slots, full]
  by_cases occupied : bitmap.contains slot = true
  · obtain ⟨child, found⟩ := exists_childAt full occupied
    rw [mergedAt, found, Option.bind_some]
    rw [childAt_of_occupied occupied] at found ⊢
    rw [mergeEach_eq_zipWith _ _ _ _ _ _ aligned, List.getElem?_zipWith, found,
      List.getElem?_map, Bitmap.getElem?_slots_rank occupied]
    cases meets : childAt rightBitmap rightChildren slot with
    | none => simp [meets]
    | some other => simp [meets]
  · rw [Bool.not_eq_true] at occupied
    rw [childAt_of_free occupied, childAt_of_free occupied, Option.bind_none]

omit [Hashable κ] in
/-- A left child after the merge, or else the right child. -/
theorem orElse_mergeEach (full : children.length = bitmap.card) :
    (fun slot => childAt bitmap (mergeEach stamp sharing resolve depth children
        (bitmap.slots.map (childAt rightBitmap rightChildren))) slot <|>
          childAt rightBitmap rightChildren slot) =
      mergedAt stamp sharing resolve depth bitmap children rightBitmap rightChildren := by
  funext slot
  rw [childAt_mergeEach _ _ _ _ _ _ full, mergedAt]
  cases childAt bitmap children slot <;> cases childAt rightBitmap rightChildren slot <;> rfl

omit [Hashable κ] in
theorem isSome_mergedAt (stamp : Stamp) (sharing : Sharing) (resolve : ν → ν → ν) (depth : Nat)
    (full : children.length = bitmap.card)
    (rightFull : rightChildren.length = rightBitmap.card) (slot : Slot) :
    (mergedAt stamp sharing resolve depth bitmap children rightBitmap rightChildren slot).isSome =
      (bitmap.union rightBitmap).contains slot := by
  rw [Bitmap.contains_union, mergedAt]
  cases left : childAt bitmap children slot with
  | none =>
      rw [free_of_childAt full left]
      cases right : childAt rightBitmap rightChildren slot with
      | none => simp [free_of_childAt rightFull right]
      | some => simp [contains_of_childAt right]
  | some =>
      rw [contains_of_childAt left]
      cases childAt rightBitmap rightChildren slot <;> rfl

omit [Hashable κ] in
/-- If every left child passes for its merge, it is its merge. -/
theorem childAt_eq_mergedAt (full : children.length = bitmap.card)
    (rightFull : rightChildren.length = rightBitmap.card)
    (inhabited : ∀ child ∈ children, child.toList ≠ []) (fresh : stamp ∉ stampsAll children)
    (noSlots : bitmap.union rightBitmap = bitmap)
    (passes : (List.zipWith same (mergeEach stamp sharing resolve depth children
      (bitmap.slots.map (childAt rightBitmap rightChildren))) children).all id = true)
    (slot : Slot) : childAt bitmap children slot =
      mergedAt stamp sharing resolve depth bitmap children rightBitmap rightChildren slot := by
  have merged := childAt_mergeEach stamp sharing resolve depth rightBitmap rightChildren full slot
  have occupied := isSome_mergedAt stamp sharing resolve depth full rightFull slot
  rw [noSlots] at occupied
  cases found : childAt bitmap children slot with
  | none =>
      rw [free_of_childAt full found, Option.isSome_eq_false_iff, Option.isNone_iff_eq_none]
        at occupied
      exact occupied.symm
  | some child =>
      cases meets : childAt rightBitmap rightChildren slot with
      | none => rw [mergedAt, found, meets]; rfl
      | some other =>
          -- the merged child bears a stamp of the left branch, so no operation built it anew
          have member := (mem_iff_childAt full).mpr ⟨slot, found⟩
          rw [found, mergedAt, found, meets, Option.bind_some, Option.merge_some_some,
            childAt_of_occupied (contains_of_childAt found)] at merged
          have both : (List.zipWith same (mergeEach stamp sharing resolve depth children
              (bitmap.slots.map (childAt rightBitmap rightChildren))) children)[bitmap.rank slot]? =
              some (same (merge stamp sharing resolve (depth + 1) child other) child) := by
            rw [List.getElem?_zipWith, merged, ← childAt_of_occupied (contains_of_childAt found),
              found]
          have agrees := List.all_eq_true.mp passes _ (List.mem_of_getElem? both)
          rw [mergedAt, found, meets, Option.merge_some_some,
            merge_eq_of_same (inhabited child member)
              (fun marked => fresh (mem_stamps_of_child member marked)) agrees]

omit [Hashable κ] in
/-- A merge of two branches is the left branch, if nothing came of the merge in any
slot, or a new branch with what the merge has in each slot. -/
theorem merge_branch_cases {rightOld : Stamp} {rightSize : Nat}
    (full : children.length = bitmap.card) (rightFull : rightChildren.length = rightBitmap.card)
    (inhabited : ∀ child ∈ children, child.toList ≠ []) (fresh : stamp ∉ stampsAll children)
    (unshared : ¬ (sharing = .reuse ∧ same (.branch old bitmap size children)
      (.branch rightOld rightBitmap rightSize rightChildren) = true)) :
    (merge stamp sharing resolve depth (.branch old bitmap size children)
        (.branch rightOld rightBitmap rightSize rightChildren) =
          .branch old bitmap size children ∧
      ∀ slot, childAt bitmap children slot =
        mergedAt stamp sharing resolve depth bitmap children rightBitmap rightChildren slot) ∨
    ∃ childrenAfter, merge stamp sharing resolve depth (.branch old bitmap size children)
        (.branch rightOld rightBitmap rightSize rightChildren) =
          .branch stamp (bitmap.union rightBitmap) (sizes childrenAfter) childrenAfter ∧
      childrenAfter.length = (bitmap.union rightBitmap).card ∧
      ∀ slot, childAt (bitmap.union rightBitmap) childrenAfter slot =
        mergedAt stamp sharing resolve depth bitmap children rightBitmap rightChildren slot := by
  rw [merge_branch_branch unshared, mergedBranch]
  split
  · rename_i unchanged
    exact .inl ⟨rfl, childAt_eq_mergedAt full rightFull inhabited fresh unchanged.1 unchanged.2⟩
  · have exactly := isSome_mergedAt stamp sharing resolve depth full rightFull
    rw [orElse_mergeEach full]
    exact .inr ⟨_, rfl, length_filterMap_slots exactly, childAt_filterMap exactly⟩

omit [Hashable κ] in
/-- A merge has no leaf in a slot where the left branch has a branch. -/
theorem isLeaf_mergedAt (stamp : Stamp) (sharing : Sharing) (resolve : ν → ν → ν) (depth : Nat)
    (rightBitmap : Bitmap) (rightChildren : List (Trie κ ν)) {slot : Slot} {child : Trie κ ν}
    (found : childAt bitmap children slot = some child) (nonempty : child.isEmpty = false)
    (noLeaf : child.isLeaf = false) : ∃ after,
      mergedAt stamp sharing resolve depth bitmap children rightBitmap rightChildren slot =
        some after ∧ after.isLeaf = false := by
  rw [mergedAt, found]
  cases childAt rightBitmap rightChildren slot with
  | none => exact ⟨child, rfl, noLeaf⟩
  | some other => exact ⟨_, rfl, isLeaf_merge nonempty noLeaf other⟩

/-- What is known of the merge of the children in a slot. -/
structure SlotMerged (sharing : Sharing) (resolve : ν → ν → ν) (depth : Nat)
    (left right : List (κ × ν)) (after : Option (Trie κ ν)) : Prop where
  sound : ∀ child, after = some child → WellFormed (depth + 1) child
  runs : ∀ code, Run.Merged sharing resolve (runOf code left) (runOf code right)
    (runOf code (after.elim [] toList))

theorem SlotMerged.of_childAt {slot : Slot} (placed : Placed depth bitmap children)
    (rightPlaced : Placed depth rightBitmap rightChildren)
    (meeting : ∀ child other, childAt bitmap children slot = some child →
      childAt rightBitmap rightChildren slot = some other →
        WellFormed (depth + 1) (merge stamp sharing resolve (depth + 1) child other) ∧
          ∀ code, Run.Merged sharing resolve (runOf code child.toList) (runOf code other.toList)
            (runOf code (merge stamp sharing resolve (depth + 1) child other).toList)) :
    SlotMerged sharing resolve depth (entriesAt bitmap children slot)
      (entriesAt rightBitmap rightChildren slot)
      (mergedAt stamp sharing resolve depth bitmap children rightBitmap rightChildren slot) := by
  unfold mergedAt entriesAt
  cases found : childAt bitmap children slot with
  | none =>
      cases meets : childAt rightBitmap rightChildren slot with
      | none => exact ⟨nofun, fun _ => .left_nil⟩
      | some other =>
          exact ⟨fun _ same => Option.some.inj same ▸ rightPlaced.sound slot other meets,
            fun _ => .left_nil⟩
  | some child =>
      cases meets : childAt rightBitmap rightChildren slot with
      | none =>
          exact ⟨fun _ same => Option.some.inj same ▸ placed.sound slot child found,
            fun _ => .right_nil⟩
      | some other =>
          obtain ⟨sound, runs⟩ := meeting child other found meets
          exact ⟨fun _ same => Option.some.inj same ▸ sound, runs⟩

/-- What a merge has in a slot belongs there. -/
theorem SlotMerged.routed {left right : List (κ × ν)} {after : Option (Trie κ ν)} {slot : Slot}
    (merged : SlotMerged sharing resolve depth left right after)
    (leftRouted : ∀ entry ∈ left, digit (hash entry.1) depth = slot)
    (rightRouted : ∀ entry ∈ right, digit (hash entry.1) depth = slot) :
    ∀ entry ∈ after.elim [] toList, digit (hash entry.1) depth = slot := by
  intro entry member
  by_contra elsewhere
  have noLeft : runOf (hash entry.1) left = [] :=
    runOf_eq_nil_iff.mpr fun other inLeft same => elsewhere (same ▸ leftRouted other inLeft)
  have noRight : runOf (hash entry.1) right = [] :=
    runOf_eq_nil_iff.mpr fun other inRight same => elsewhere (same ▸ rightRouted other inRight)
  have made := merged.runs (hash entry.1)
  rw [noLeft, noRight] at made
  rw [mem_iff_mem_runOf, made.eq_nil] at member
  cases member

/-- Two branches whose children have been merged slot by slot. -/
theorem merge_branches_wellFormed {rightOld : Stamp} {rightSize : Nat} (shallow : depth < levels)
    (placed : Placed depth bitmap children) (inhabited : children ≠ [])
    (collapsed : ∀ child, children = [child] → child.isLeaf = false)
    (counted : size = (toLists children).length)
    (rightPlaced : Placed depth rightBitmap rightChildren)
    (fresh : stamp ∉ stampsAll children)
    (unshared : ¬ (sharing = .reuse ∧ same (.branch old bitmap size children)
      (.branch rightOld rightBitmap rightSize rightChildren) = true))
    (slots : ∀ slot, SlotMerged sharing resolve depth (entriesAt bitmap children slot)
      (entriesAt rightBitmap rightChildren slot)
      (mergedAt stamp sharing resolve depth bitmap children rightBitmap rightChildren slot)) :
    let merged := merge stamp sharing resolve depth (.branch old bitmap size children)
      (.branch rightOld rightBitmap rightSize rightChildren)
    WellFormed depth merged ∧ ∀ code, Run.Merged sharing resolve (runOf code (toLists children))
      (runOf code (toLists rightChildren)) (runOf code merged.toList) := by
  intro merged
  have runs {bitmapAfter : Bitmap} {childrenAfter : List (Trie κ ν)}
      (placedAfter : Placed depth bitmapAfter childrenAfter)
      (chosen : ∀ slot, childAt bitmapAfter childrenAfter slot =
        mergedAt stamp sharing resolve depth bitmap children rightBitmap rightChildren slot)
      (code : UInt64) : Run.Merged sharing resolve (runOf code (toLists children))
        (runOf code (toLists rightChildren)) (runOf code (toLists childrenAfter)) := by
    rw [placed.runOf_toLists, rightPlaced.runOf_toLists, placedAfter.runOf_toLists]
    have here := (slots (digit code depth)).runs code
    rwa [← chosen] at here
  rcases merge_branch_cases placed.full rightPlaced.full placed.toList_ne_nil fresh unshared with
    ⟨unchanged, chosen⟩ | ⟨childrenAfter, built, full, chosen⟩
  · rw [show merged = _ from unchanged]
    exact ⟨placed.wellFormed shallow inhabited collapsed counted, runs placed chosen⟩
  · have placedAfter : Placed depth (bitmap.union rightBitmap) childrenAfter := by
      refine ⟨full, ?_, ?_⟩
      · intro slot child found
        exact (slots slot).sound child (chosen slot ▸ found)
      · intro slot entry member
        rw [entriesAt, chosen] at member
        exact (slots slot).routed (placed.routed slot) (rightPlaced.routed slot) entry member
    have some : 0 < children.length := List.length_pos_iff.mpr inhabited
    have grows := Bitmap.card_le_card_union bitmap rightBitmap
    rw [← full, ← placed.full] at grows
    rw [show merged = _ from built]
    refine ⟨placedAfter.wellFormed shallow ?_ ?_ ?_, runs placedAfter chosen⟩
    · exact List.ne_nil_of_length_pos (Nat.lt_of_lt_of_le some grows)
    · intro single alone
      have one : children.length = 1 := by
        rw [alone, List.length_singleton] at grows
        omega
      obtain ⟨only, rfl⟩ := List.length_eq_one_iff.mp one
      obtain ⟨slot, found⟩ := (mem_iff_childAt placed.full).mp (List.mem_singleton_self only)
      have noLeaf := isLeaf_mergedAt stamp sharing resolve depth rightBitmap rightChildren found
        (placed.sound slot only found).isEmpty_eq_false (collapsed only rfl)
      obtain ⟨after, taken, noLeaf⟩ := noLeaf
      have member := (mem_iff_childAt full).mpr ⟨slot, (chosen slot).trans taken⟩
      rw [alone, List.mem_singleton] at member
      rwa [← member]
    · exact sizes_eq_length fun child member => by
        obtain ⟨slot, found⟩ := (mem_iff_childAt full).mp member
        exact (placedAfter.sound slot child found).size_eq_length

end Branches

/-- **Induction along a merge.** A relation between the left node, the right node and what
a merge makes of them holds if it holds in each of the four cases: a node that both tries
hold, a left leaf, a right leaf against a branch, and two branches whose children are
merged slot by slot. -/
theorem merge_induction {motive : Nat → Trie κ ν → Trie κ ν → Trie κ ν → Prop}
    (shared : ∀ {depth left right}, WellFormed depth left →
      sharing = .reuse ∧ left.same right = true → motive depth left right left)
    (leftLeaf : ∀ {depth old code run right}, WellFormed depth (.leaf old code run) →
      WellFormed depth right → Under (digit code) depth right.toList →
        motive depth (.leaf old code run) right
          (absorbRun stamp .descend (fun stored incoming => resolve incoming stored) depth code
            run right))
    (rightLeaf : ∀ {depth old bitmap size children rightOld code run},
      WellFormed depth (.branch old bitmap size children) →
        WellFormed depth (.leaf rightOld code run) → Under (digit code) depth (toLists children) →
          motive depth (.branch old bitmap size children) (.leaf rightOld code run)
            (absorbRun stamp sharing resolve depth code run (.branch old bitmap size children)))
    (branches : ∀ {depth old bitmap size children rightOld rightBitmap rightSize rightChildren
      path},
      WellFormed depth (.branch old bitmap size children) →
        WellFormed depth (.branch rightOld rightBitmap rightSize rightChildren) →
        Under path depth (toLists children) → Under path depth (toLists rightChildren) →
        stamp ∉ (branch old bitmap size children).stamps →
        ¬ (sharing = .reuse ∧ same (.branch old bitmap size children)
          (.branch rightOld rightBitmap rightSize rightChildren) = true) →
        (∀ slot child other, childAt bitmap children slot = some child →
          childAt rightBitmap rightChildren slot = some other →
            motive (depth + 1) child other
              (merge stamp sharing resolve (depth + 1) child other)) →
        motive depth (.branch old bitmap size children)
          (.branch rightOld rightBitmap rightSize rightChildren)
          (merge stamp sharing resolve depth (.branch old bitmap size children)
            (.branch rightOld rightBitmap rightSize rightChildren)))
    {left right : Trie κ ν} {path : Nat → Slot}
    (sound : WellFormed depth left) (rightSound : WellFormed depth right)
    (under : Under path depth left.toList) (rightUnder : Under path depth right.toList)
    (fresh : stamp ∉ left.stamps) :
    motive depth left right (merge stamp sharing resolve depth left right) := by
  induction sound generalizing right path with
  | @leaf depth old code run inhabited distinct hashed =>
      have whole : WellFormed depth (.leaf old code run) := .leaf inhabited distinct hashed
      by_cases both : sharing = .reuse ∧ same (.leaf old code run) right = true
      · rw [merge_of_shared rfl both]
        exact shared whole both
      · obtain ⟨entry, member⟩ := List.exists_mem_of_ne_nil run inhabited
        have agree : Agree (digit code) path depth := hashed entry member ▸ under entry member
        rw [merge_leaf_left rightSound.isEmpty_eq_false both, mergeRunInto_eq_absorbRun]
        exact leftLeaf whole rightSound (rightUnder.of_agree agree)
  | @branch depth old bitmap size children shallow full inhabited childSound routed collapsed
      counted ih =>
      have placed := Placed.of_children full childSound routed
      have whole : WellFormed depth (.branch old bitmap size children) :=
        .branch shallow full inhabited childSound routed collapsed counted
      by_cases both : sharing = .reuse ∧ same (.branch old bitmap size children) right = true
      · rw [merge_of_shared rfl both]
        exact shared whole both
      · cases rightSound with
        | @leaf _ rightOld code run rightInhabited distinct hashed =>
            obtain ⟨entry, member⟩ := List.exists_mem_of_ne_nil run rightInhabited
            have agree : Agree (digit code) path depth :=
              hashed entry member ▸ rightUnder entry member
            rw [merge_branch_leaf]
            exact rightLeaf whole (.leaf rightInhabited distinct hashed) (under.of_agree agree)
        | @branch _ rightOld rightBitmap rightSize rightChildren rightShallow rightFull
            rightInhabited rightChildSound rightRouted rightCollapsed rightCounted =>
            have rightPlaced := Placed.of_children rightFull rightChildSound rightRouted
            refine branches whole (.branch rightShallow rightFull rightInhabited rightChildSound
              rightRouted rightCollapsed rightCounted) under rightUnder fresh both ?_
            intro slot child other found meets
            -- the entries of the two children also agree in the digit of their slot
            obtain ⟨next, agree, rfl⟩ := Agree.exists_next path depth slot
            have underChild := placed.under_entriesAt under agree
            have underOther := rightPlaced.under_entriesAt rightUnder agree
            rw [entriesAt_of_childAt found] at underChild
            rw [entriesAt_of_childAt meets] at underOther
            have member := (mem_iff_childAt full).mpr ⟨_, found⟩
            exact ih child member (rightPlaced.sound _ other meets) underChild underOther
              fun marked => fresh (List.mem_cons_of_mem _ (mem_stamps_of_child member marked))

/-- **Merging.** Two well-formed tries that may hold keys of the same hashes are merged
into a well-formed one, hash by hash. -/
theorem merge_wellFormed [EquivBEq κ] (sharing : Sharing) (resolve : ν → ν → ν)
    {left right : Trie κ ν} {path : Nat → Slot}
    (sound : WellFormed depth left) (rightSound : WellFormed depth right)
    (under : Under path depth left.toList) (rightUnder : Under path depth right.toList)
    (fresh : stamp ∉ left.stamps) :
    WellFormed depth (merge stamp sharing resolve depth left right) ∧
      ∀ code, Run.Merged sharing resolve (runOf code left.toList) (runOf code right.toList)
        (runOf code (merge stamp sharing resolve depth left right).toList) := by
  refine merge_induction (motive := fun depth left right merged => WellFormed depth merged ∧
    ∀ code, Run.Merged sharing resolve (runOf code left.toList) (runOf code right.toList)
      (runOf code merged.toList)) ?shared ?leftLeaf ?rightLeaf ?branches sound rightSound under
        rightUnder fresh
  case shared =>
    intro depth left right sound shared
    exact ⟨sound, fun _ => .inr (.inr ⟨shared.1, rfl⟩)⟩
  case leftLeaf =>
    intro depth old code run right sound rightSound rightUnder
    have hashed := sound.hashed
    obtain ⟨soundAfter, here, elsewhere⟩ := absorbRun_wellFormed stamp .descend
      (fun stored incoming => resolve incoming stored) rightSound rightUnder hashed
    refine ⟨soundAfter, ?_⟩
    intro other
    by_cases same : other = code
    · subst same
      rw [here, toList, runOf_eq_self hashed]
      exact .inr (.inl rfl)
    · rw [elsewhere other same, toList, runOf_of_hashed hashed, if_neg same]
      exact .left_nil
  case rightLeaf =>
    intro depth old bitmap size children rightOld code run sound rightSound under
    have hashed := rightSound.hashed
    have listed : (leaf rightOld code run).toList = run := rfl
    obtain ⟨soundAfter, here, elsewhere⟩ :=
      absorbRun_wellFormed stamp sharing resolve sound under hashed
    refine ⟨soundAfter, ?_⟩
    intro other
    by_cases same : other = code
    · subst same
      rw [here, listed, runOf_eq_self hashed]
      exact .inl rfl
    · rw [elsewhere other same, listed, runOf_of_hashed hashed, if_neg same]
      exact .right_nil
  case branches =>
    intro depth old bitmap size children rightOld rightBitmap rightSize rightChildren path sound
      rightSound _ _ fresh unshared meeting
    have placed := sound.placed
    have rightPlaced := rightSound.placed
    cases sound with
    | branch shallow _ inhabited _ _ collapsed counted =>
        exact merge_branches_wellFormed shallow placed inhabited collapsed counted rightPlaced
          (fun marked => fresh (List.mem_cons_of_mem _ marked)) unshared
          fun slot => .of_childAt placed rightPlaced (meeting slot)

end Trie

end HashTrie
