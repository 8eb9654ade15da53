import HashTrie.Proofs.Identity

/-!
# The order within merged runs

A merge makes the run of a hash from the two runs of the hash, and which of them takes in
the other depends on where their leaves meet: the leaf that comes first on the way down is
written into the other node, the left one if both end the way. So the merged run is
determined by the two runs and by one comparison, that of the numbers of branches above
the two leaves (`runOf_merge`).
-/

namespace HashTrie

open Trie (Sharing)

variable {κ ν : Type}

namespace Run

variable [BEq κ]

/-- The merge of two runs: the left run takes in the right one if its leaf stands deeper,
else the right run takes in the left one. -/
def mergeAs (sharing : Sharing) (resolve : ν → ν → ν) (leftDeeper : Bool) (left right : Run κ ν) :
    Run κ ν :=
  if leftDeeper then left.absorb sharing resolve right
  else right.absorb .descend (fun stored incoming => resolve incoming stored) left

variable {sharing : Sharing} {resolve : ν → ν → ν} {run : Run κ ν}

theorem absorbEntry_cons (stored : κ × ν) (run : Run κ ν) (entry : κ × ν) :
    absorbEntry sharing resolve (stored :: run) entry =
      if stored.1 == entry.1 then settledEntry sharing resolve stored entry :: run
      else stored :: absorbEntry sharing resolve run entry := by
  unfold absorbEntry settledEntry
  rw [find?_cons]
  cases equal : stored.1 == entry.1 with
  | true =>
      rw [upsert_cons_of_eq entry.1 _ run equal]
      by_cases reused : sharing = .reuse <;> simp [reused, settle]
  | false =>
      rw [upsert_cons_of_ne entry.1 _ run equal]
      simp only [Bool.false_eq_true, if_false]
      split <;> rfl

/-- An entry under a new key goes to the end. -/
theorem absorbEntry_of_new {entry : κ × ν} (new : ∀ stored ∈ run, (stored.1 == entry.1) = false) :
    run.absorbEntry sharing resolve entry = run ++ [entry] := by
  have absent : run.find? entry.1 = none := find?_eq_none_iff.mpr new
  rw [absorbEntry, absent, if_neg (by simp), upsert_of_new entry.1 _ new]
  rfl

theorem absorb_of_new {source : Run κ ν} (distinct : (run ++ source).Distinct) :
    run.absorb sharing resolve source = run ++ source :=
  foldl_of_new (fun _ _ => absorbEntry_of_new) distinct

/-- An entry that is there already changes nothing. -/
theorem absorbEntry_of_mem [EquivBEq κ] (idempotent : ∀ value, resolve value value = value)
    (distinct : run.Distinct) {entry : κ × ν} (member : entry ∈ run) :
    run.absorbEntry sharing resolve entry = run := by
  induction run with
  | nil => cases member
  | cons stored run ih =>
      obtain ⟨unequal, distinct⟩ := distinct_cons.mp distinct
      rw [absorbEntry_cons]
      rcases List.mem_cons.mp member with rfl | member
      · rw [if_pos BEq.rfl, settledEntry, idempotent]
        split <;> rfl
      · rw [unequal entry member, if_neg Bool.false_ne_true, ih distinct member]

theorem absorb_of_subset [EquivBEq κ] (idempotent : ∀ value, resolve value value = value)
    (distinct : run.Distinct) {source : Run κ ν} (subset : ∀ entry ∈ source, entry ∈ run) :
    run.absorb sharing resolve source = run := by
  induction source with
  | nil => rfl
  | cons entry source ih =>
      rw [absorb_cons, absorbEntry_of_mem idempotent distinct (subset entry List.mem_cons_self)]
      exact ih fun other member => subset other (.tail _ member)

theorem mergeAs_nil_right (leftDeeper : Bool) (distinct : run.Distinct) :
    mergeAs sharing resolve leftDeeper run [] = run := by
  cases leftDeeper with
  | true => rfl
  | false => exact absorb_of_new distinct

theorem mergeAs_nil_left (leftDeeper : Bool) (distinct : run.Distinct) :
    mergeAs sharing resolve leftDeeper [] run = run := by
  cases leftDeeper with
  | true => exact absorb_of_new distinct
  | false => rfl

/-- A run that is merged with itself stays as it is, if the resolution of a value with
itself is that value. -/
theorem mergeAs_self [EquivBEq κ] (idempotent : ∀ value, resolve value value = value)
    (leftDeeper : Bool) (distinct : run.Distinct) :
    mergeAs sharing resolve leftDeeper run run = run := by
  cases leftDeeper with
  | true => exact absorb_of_subset idempotent distinct fun _ member => member
  | false =>
      change run.absorb .descend (fun stored incoming => resolve incoming stored) run = run
      refine absorb_of_subset ?_ distinct fun _ member => member
      exact idempotent

theorem merged_mergeAs (leftDeeper : Bool) (left right : Run κ ν) :
    Merged sharing resolve left right (mergeAs sharing resolve leftDeeper left right) := by
  cases leftDeeper with
  | true => exact .inl rfl
  | false => exact .inr (.inl rfl)

theorem Distinct.absorb [EquivBEq κ] (distinct : run.Distinct) (source : Run κ ν) :
    (run.absorb sharing resolve source).Distinct := by
  induction source generalizing run with
  | nil => exact distinct
  | cons entry source ih =>
      refine ih ?_
      unfold absorbEntry
      split
      · exact distinct
      · exact distinct.upsert entry.1 _

theorem Distinct.mergeAs [EquivBEq κ] {left right : Run κ ν} (distinct : left.Distinct)
    (rightDistinct : right.Distinct) (leftDeeper : Bool) :
    (mergeAs sharing resolve leftDeeper left right).Distinct := by
  cases leftDeeper with
  | true => exact distinct.absorb right
  | false => exact rightDistinct.absorb left

/-- A merge that keeps what the left run has, whichever run takes in the other. -/
theorem find?_mergeAs [EquivBEq κ] {left right : Run κ ν} (distinct : left.Distinct)
    (rightDistinct : right.Distinct) (leftDeeper : Bool) (key : κ) :
    (mergeAs .reuse (fun value _ => value) leftDeeper left right).find? key =
      (left.find? key).or (right.find? key) := by
  cases leftDeeper with
  | true =>
      refine (find?_absorb rightDistinct left key).trans ?_
      cases left.find? key <;> cases right.find? key <;> rfl
  | false =>
      refine (find?_absorb distinct right key).trans ?_
      cases left.find? key <;> cases right.find? key <;> rfl

end Run

namespace Trie

mutual

/-- The number of branches on the way that the digits of a hash show, from a depth on. -/
def branchesTo (code : UInt64) (depth : Nat) : Trie κ ν → Nat
  | .empty => 0
  | .leaf .. => 0
  | .branch _ bitmap _ children =>
      if bitmap.contains (digit code depth) then
        branchesToChild code depth children (bitmap.rank (digit code depth)) + 1
      else 1

/-- The number of branches on the way below the child at a position. -/
def branchesToChild (code : UInt64) (depth : Nat) : List (Trie κ ν) → Nat → Nat
  | [], _ => 0
  | child :: _, 0 => branchesTo code (depth + 1) child
  | _ :: children, position + 1 => branchesToChild code depth children position

end

theorem branchesToChild_eq (code : UInt64) (depth : Nat) (children : List (Trie κ ν))
    (position : Nat) : branchesToChild code depth children position =
      children[position]?.elim 0 (branchesTo code (depth + 1)) := by
  induction children generalizing position with
  | nil => simp [branchesToChild]
  | cons child children ih => cases position <;> simp [branchesToChild, ih]

variable {depth size : Nat} {stamp : Stamp} {bitmap : Bitmap} {children : List (Trie κ ν)}

theorem branchesTo_branch (code : UInt64) (depth : Nat) :
    branchesTo code depth (.branch stamp bitmap size children) =
      (childAt bitmap children (digit code depth)).elim 0 (branchesTo code (depth + 1)) + 1 := by
  rw [branchesTo, childAt, branchesToChild_eq]
  split <;> rfl

section Merge

variable [BEq κ] [Hashable κ] {sharing : Sharing} {resolve : ν → ν → ν} {old rightOld : Stamp}
  {rightBitmap : Bitmap} {rightSize : Nat} {rightChildren : List (Trie κ ν)} {code : UInt64}

/-- The runs of two branches that have been merged slot by slot. -/
theorem runOf_merge_branches
    (sound : WellFormed depth (.branch old bitmap size children))
    (rightSound : WellFormed depth (.branch rightOld rightBitmap rightSize rightChildren))
    (after : WellFormed depth (merge stamp sharing resolve depth
      (.branch old bitmap size children) (.branch rightOld rightBitmap rightSize rightChildren)))
    (fresh : stamp ∉ stampsAll children)
    (unshared : ¬ (sharing = .reuse ∧ same (.branch old bitmap size children)
      (.branch rightOld rightBitmap rightSize rightChildren) = true)) :
    runOf code (merge stamp sharing resolve depth (.branch old bitmap size children)
        (.branch rightOld rightBitmap rightSize rightChildren)).toList =
      runOf code ((mergedAt stamp sharing resolve depth bitmap children rightBitmap rightChildren
        (digit code depth)).elim [] toList) := by
  rcases merge_branch_cases sound.placed.full rightSound.placed.full sound.placed.toList_ne_nil
    fresh unshared with ⟨unchanged, chosen⟩ | ⟨childrenAfter, built, _, chosen⟩
  · rw [unchanged, toList, sound.placed.runOf_toLists, entriesAt, chosen]
  · rw [built] at after ⊢
    rw [toList, after.placed.runOf_toLists, entriesAt, chosen]

/-- **The merged run.** The run of a hash is merged from the two runs, and their order
depends on whether the left leaf stands deeper than the right one. Where shared nodes are
reused, the nodes that count as the same have to be equal, and the resolution has to keep
equal values. -/
theorem runOf_merge [EquivBEq κ] {left right : Trie κ ν} {path : Nat → Slot}
    (sound : WellFormed depth left) (rightSound : WellFormed depth right)
    (under : Under path depth left.toList) (rightUnder : Under path depth right.toList)
    (fresh : stamp ∉ left.stamps)
    (reusable : sharing = .reuse → left.Coherent right ∧ ∀ value, resolve value value = value)
    (code : UInt64) :
    runOf code (merge stamp sharing resolve depth left right).toList =
      Run.mergeAs sharing resolve
        (decide (right.branchesTo code depth < left.branchesTo code depth))
        (runOf code left.toList) (runOf code right.toList) := by
  refine merge_induction (motive := fun depth left right merged => WellFormed depth right →
    (sharing = .reuse → left.Coherent right ∧ ∀ value, resolve value value = value) →
      runOf code merged.toList = Run.mergeAs sharing resolve
        (decide (right.branchesTo code depth < left.branchesTo code depth))
        (runOf code left.toList) (runOf code right.toList))
    ?shared ?leftLeaf ?rightLeaf ?branches sound rightSound under rightUnder fresh rightSound
      reusable
  case shared =>
    intro depth left right sound shared _ reusable
    obtain ⟨coherent, idempotent⟩ := reusable shared.1
    obtain rfl := coherent.eq_of_same shared.2
    exact (Run.mergeAs_self idempotent _ (sound.distinct_runOf code)).symm
  case leftLeaf =>
    intro depth old leafCode run right sound rightSound rightUnder _ _
    obtain ⟨-, here, elsewhere⟩ := absorbRun_wellFormed stamp .descend
      (fun stored incoming => resolve incoming stored) rightSound rightUnder sound.hashed
    rw [branchesTo, decide_eq_false (Nat.not_lt_zero _), toList]
    by_cases same : code = leafCode
    · subst same
      rw [here, runOf_eq_self sound.hashed]
      rfl
    · rw [elsewhere code same, runOf_of_hashed sound.hashed, if_neg same]
      rfl
  case rightLeaf =>
    intro depth old bitmap size children rightOld leafCode run sound rightSound under _ _
    obtain ⟨-, here, elsewhere⟩ :=
      absorbRun_wellFormed stamp sharing resolve sound under rightSound.hashed
    have listed : (leaf rightOld leafCode run).toList = run := rfl
    rw [branchesTo_branch, branchesTo, decide_eq_true (Nat.succ_pos _), listed]
    by_cases same : code = leafCode
    · subst same
      rw [here, runOf_eq_self rightSound.hashed]
      rfl
    · rw [elsewhere code same, runOf_of_hashed rightSound.hashed, if_neg same]
      rfl
  case branches =>
    intro depth old bitmap size children rightOld rightBitmap rightSize rightChildren path sound
      rightSound under rightUnder fresh unshared meeting _ reusable
    have after := (merge_wellFormed sharing resolve sound rightSound under rightUnder fresh).1
    rw [runOf_merge_branches sound rightSound after
      (fun marked => fresh (List.mem_cons_of_mem _ marked)) unshared, branchesTo_branch,
      branchesTo_branch, toList, toList, sound.placed.runOf_toLists,
      rightSound.placed.runOf_toLists, mergedAt, entriesAt, entriesAt]
    cases found : childAt bitmap children (digit code depth) with
    | none =>
        cases meets : childAt rightBitmap rightChildren (digit code depth) with
        | none => exact (Run.mergeAs_nil_left _ List.Pairwise.nil).symm
        | some other =>
            have distinct := (rightSound.placed.sound _ other meets).distinct_runOf code
            exact (Run.mergeAs_nil_left _ distinct).symm
    | some child =>
        cases meets : childAt rightBitmap rightChildren (digit code depth) with
        | none =>
            have distinct := (sound.placed.sound _ child found).distinct_runOf code
            exact (Run.mergeAs_nil_right _ distinct).symm
        | some other =>
            have below := meeting _ child other found meets
              (rightSound.placed.sound _ other meets)
              fun reuse => (reusable reuse).imp_left fun coherent => coherent.child found meets
            simpa [Nat.add_lt_add_iff_right] using below

end Merge

end Trie

namespace TrieMap

variable [BEq κ] [Hashable κ] [EquivBEq κ] {stamp : Stamp} {map other : TrieMap κ ν}
  {sharing : Sharing} {resolve : ν → ν → ν}

/-- The number of branches above the place of a hash in a map. -/
def leafDepth (map : TrieMap κ ν) (code : UInt64) : Nat := map.root.branchesTo code 0

theorem WellFormed.runOf_merge_root (wellFormed : map.WellFormed)
    (otherWellFormed : other.WellFormed) (fresh : stamp ∉ map.root.stamps)
    (reusable : sharing = .reuse →
      map.root.Coherent other.root ∧ ∀ value, resolve value value = value) (code : UInt64) :
    runOf code (map.root.merge stamp sharing resolve 0 other.root).toList =
      Run.mergeAs sharing resolve (decide (other.leafDepth code < map.leafDepth code))
        (runOf code map.toList) (runOf code other.toList) := by
  rcases wellFormed.root with nothing | sound
  · rw [toList, nothing, Trie.merge]
    exact (Run.mergeAs_nil_left _ (otherWellFormed.distinct_runOf code)).symm
  · rcases otherWellFormed.root with otherNothing | otherSound
    · rw [toList, toList, otherNothing, Trie.merge_empty_right]
      exact (Run.mergeAs_nil_right _ (sound.distinct_runOf code)).symm
    · exact Trie.runOf_merge sound otherSound (.root _) (.root _) fresh reusable code

omit [EquivBEq κ] in
theorem WellFormed.ofRoot_root (wellFormed : map.WellFormed) : ofRoot map.root = map := by
  have size : map.root.size = map.length :=
    (wellFormed_ofRoot wellFormed.root).length.trans wellFormed.length.symm
  rw [ofRoot, size]

omit [EquivBEq κ] in
/-- Merging into a map without entries needs no case of its own. -/
theorem WellFormed.merge_eq (wellFormed : map.WellFormed) (otherWellFormed : other.WellFormed)
    (stamp : Stamp) : map.merge stamp other =
      ofRoot (map.root.merge stamp .reuse (fun value _ => value) 0 other.root) := by
  unfold merge
  split
  · rename_i nothing
    have noEntries : map.toList = [] := by
      rw [← List.length_eq_zero_iff, ← wellFormed.length]
      exact beq_iff_eq.mp nothing
    rw [wellFormed.root_eq_empty_iff.mpr noEntries, Trie.merge, otherWellFormed.ofRoot_root]
  · rfl

theorem WellFormed.runOf_merge (wellFormed : map.WellFormed) (otherWellFormed : other.WellFormed)
    (fresh : stamp ∉ map.root.stamps) (coherent : map.root.Coherent other.root) (code : UInt64) :
    runOf code (map.merge stamp other).toList =
      Run.mergeAs .reuse (fun value _ => value)
        (decide (other.leafDepth code < map.leafDepth code)) (runOf code map.toList)
        (runOf code other.toList) := by
  rw [wellFormed.merge_eq otherWellFormed]
  exact wellFormed.runOf_merge_root otherWellFormed fresh (fun _ => ⟨coherent, fun _ => rfl⟩) code

/-- A merge of two maps has the entries of the first one, as they are stored there, and
those of the second one with other keys. -/
theorem WellFormed.getEntry?_merge (wellFormed : map.WellFormed)
    (otherWellFormed : other.WellFormed) (fresh : stamp ∉ map.root.stamps)
    (coherent : map.root.Coherent other.root) (key : κ) :
    getEntry? (map.merge stamp other) key = (map.getEntry? key).or (other.getEntry? key) := by
  have sound := wellFormed.merge otherWellFormed fresh
  rw [sound.getEntry?_eq_find?, wellFormed.getEntry?_eq_find?, otherWellFormed.getEntry?_eq_find?,
    wellFormed.runOf_merge otherWellFormed fresh coherent]
  exact Run.find?_mergeAs (wellFormed.distinct_runOf _) (otherWellFormed.distinct_runOf _) _ key

theorem WellFormed.runOf_mergeWith (wellFormed : map.WellFormed)
    (otherWellFormed : other.WellFormed) (fresh : stamp ∉ map.root.stamps) (resolve : ν → ν → ν)
    (code : UInt64) : runOf code (map.mergeWith stamp other resolve).toList =
      Run.mergeAs .descend resolve (decide (other.leafDepth code < map.leafDepth code))
        (runOf code map.toList) (runOf code other.toList) := by
  refine wellFormed.runOf_merge_root otherWellFormed fresh ?_ code
  intro impossible
  cases impossible

end TrieMap

end HashTrie
