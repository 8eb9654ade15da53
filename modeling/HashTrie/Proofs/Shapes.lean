import HashTrie.Proofs.Maps
import Mathlib.Data.List.Forall2

/-!
# The shape of a trie

Two tries are alike if they have the same bitmaps, sizes and leaf hashes at the same
places and related runs in their leaves (`Trie.Alike`); with equality as the relation
they differ in the identity of their nodes only. A well-formed trie has no freedom in
its shape: tries with related runs hash by hash are alike (`alike_of_runs`). The reason
is that a branch never stands where a leaf would do, since it has entries of two hashes
below it (`WellFormed.exists_other_hash`), and that it has a child exactly in the slots
to which a hash leads (`Placed.contains_iff_runOf`).
-/

namespace HashTrie

variable {κ ν ω : Type}

namespace Trie

/-- Tries of one shape, with related runs at the same places. -/
inductive Alike (related : Run κ ν → Run κ ω → Prop) : Trie κ ν → Trie κ ω → Prop where
  | empty : Alike related .empty .empty
  | leaf {stamp other : Stamp} {code : UInt64} {run : Run κ ν} {otherRun : Run κ ω}
      (runs : related run otherRun) :
      Alike related (.leaf stamp code run) (.leaf other code otherRun)
  | branch {stamp other : Stamp} {bitmap : Bitmap} {size : Nat} {children : List (Trie κ ν)}
      {others : List (Trie κ ω)}
      (aligned : children.length = others.length)
      (alike : ∀ (index : Nat) (child : Trie κ ν) (counterpart : Trie κ ω),
        children[index]? = some child → others[index]? = some counterpart →
          Alike related child counterpart) :
      Alike related (.branch stamp bitmap size children) (.branch other bitmap size others)

theorem forall₂_toLists {related : κ × ν → κ × ω → Prop} {children : List (Trie κ ν)}
    {others : List (Trie κ ω)} (aligned : children.length = others.length)
    (entries : ∀ (index : Nat) (child : Trie κ ν) (counterpart : Trie κ ω),
      children[index]? = some child → others[index]? = some counterpart →
        List.Forall₂ related child.toList counterpart.toList) :
    List.Forall₂ related (toLists children) (toLists others) := by
  induction children generalizing others with
  | nil =>
      obtain rfl := List.length_eq_zero_iff.mp aligned.symm
      exact .nil
  | cons child children ih =>
      cases others with
      | nil => cases aligned
      | cons counterpart others =>
          refine List.rel_append (entries 0 child counterpart rfl rfl) (ih ?_ ?_)
          · exact Nat.succ.inj aligned
          · intro index first second atFirst atSecond
            exact entries (index + 1) first second atFirst atSecond

/-- If the runs at each place have related entries, so have the iterations. -/
theorem Alike.forall₂_toList {related : κ × ν → κ × ω → Prop} {first : Trie κ ν}
    {second : Trie κ ω} (alike : Alike (List.Forall₂ related) first second) :
    List.Forall₂ related first.toList second.toList := by
  induction alike with
  | empty => exact .nil
  | leaf runs => exact runs
  | branch aligned _ ih => exact forall₂_toLists aligned ih

end Trie

variable [Hashable κ]

/-- Lists with equally long runs are equally long. -/
theorem length_eq_of_runOf {first : List (κ × ν)} {second : List (κ × ω)}
    (same : ∀ code, (runOf code first).length = (runOf code second).length) :
    first.length = second.length := by
  have counted {value : Type} (entries : List (κ × value)) (code : UInt64) :
      (entries.map fun entry => hash entry.1).count code = (runOf code entries).length := by
    rw [List.count, List.countP_map, List.countP_eq_length_filter]
    rfl
  have hashes : (first.map fun entry => hash entry.1).Perm
      (second.map fun entry => hash entry.1) := by
    refine List.perm_iff_count.mpr ?_
    intro code
    rw [counted, counted, same]
  simpa using hashes.length_eq

namespace Trie

variable [BEq κ] {depth : Nat} {bitmap : Bitmap} {children : List (Trie κ ν)}

/-- The run of a hash in a child is that in the branch, if the hash leads to the child. -/
theorem Placed.runOf_child (placed : Placed depth bitmap children) {slot : Slot}
    {child : Trie κ ν} (found : childAt bitmap children slot = some child) (code : UInt64) :
    runOf code child.toList =
      if digit code depth = slot then runOf code (toLists children) else [] := by
  split
  · rename_i leads
    rw [placed.runOf_toLists, leads, entriesAt_of_childAt found]
  · rename_i elsewhere
    refine runOf_eq_nil_iff.mpr fun entry member same => elsewhere ?_
    rw [← same]
    exact placed.routed slot entry (mem_entriesAt.mpr ⟨child, found, member⟩)

/-- The occupied slots are those to which the hash of an entry leads. -/
theorem Placed.contains_iff_runOf (placed : Placed depth bitmap children) (slot : Slot) :
    bitmap.contains slot = true ↔
      ∃ code, digit code depth = slot ∧ runOf code (toLists children) ≠ [] := by
  constructor
  · intro occupied
    obtain ⟨child, found⟩ := exists_childAt placed.full occupied
    obtain ⟨entry, member⟩ :=
      List.exists_mem_of_ne_nil _ (placed.sound slot child found).toList_ne_nil
    have leads := placed.routed slot entry (mem_entriesAt.mpr ⟨child, found, member⟩)
    refine ⟨hash entry.1, leads, ?_⟩
    have here := placed.runOf_child found (hash entry.1)
    rw [if_pos leads] at here
    rw [← here]
    exact List.ne_nil_of_mem (mem_iff_mem_runOf.mp member)
  · rintro ⟨code, rfl, inhabited⟩
    rw [placed.runOf_toLists, entriesAt] at inhabited
    cases found : childAt bitmap children (digit code depth) with
    | none =>
        rw [found] at inhabited
        exact absurd rfl inhabited
    | some child => exact contains_of_childAt found

/-- Below a branch there are entries of more than one hash. -/
theorem WellFormed.exists_other_hash {trie : Trie κ ν} (wellFormed : WellFormed depth trie)
    (noLeaf : trie.isLeaf = false) (code : UInt64) :
    ∃ entry ∈ trie.toList, hash entry.1 ≠ code := by
  induction wellFormed with
  | leaf => cases noLeaf
  | @branch depth _ bitmap _ children _ full inhabited sound routed collapsed _ ih =>
      rcases children with _ | ⟨first, _ | ⟨second, rest⟩⟩
      · exact absurd rfl inhabited
      · obtain ⟨entry, member, different⟩ := ih first List.mem_cons_self (collapsed first rfl)
        exact ⟨entry, by simpa [toList, toLists] using member, different⟩
      · -- entries of one hash would lead to one slot, but the two children have two
        by_contra alone
        push Not at alone
        have leads (index : Nat) (slot : Slot) (child : Trie κ ν)
            (atSlot : bitmap.slots[index]? = some slot)
            (atChild : (first :: second :: rest)[index]? = some child) :
            digit code depth = slot := by
          have member := List.mem_of_getElem? atChild
          obtain ⟨entry, inChild⟩ :=
            List.exists_mem_of_ne_nil _ (sound child member).toList_ne_nil
          rw [← routed index slot child atSlot atChild entry inChild, alone entry ?_]
          rw [toList, toLists_eq_flatMap]
          exact List.mem_flatMap.mpr ⟨child, member, inChild⟩
        rw [← Bitmap.length_slots] at full
        have ascending := bitmap.pairwise_slots
        rcases occupied : bitmap.slots with _ | ⟨one, _ | ⟨two, others⟩⟩
        · simp [occupied] at full
        · simp [occupied] at full
        · rw [occupied] at ascending leads
          have less := (List.pairwise_cons.mp ascending).1 two List.mem_cons_self
          rw [← leads 0 one first rfl rfl, ← leads 1 two second rfl rfl] at less
          exact Fin.lt_irrefl _ less

/-- A branch has a run that a leaf has not. -/
theorem WellFormed.exists_other_run {trie : Trie κ ν} (wellFormed : WellFormed depth trie)
    (noLeaf : trie.isLeaf = false) {code : UInt64} {run : Run κ ω}
    (hashed : ∀ entry ∈ run, hash entry.1 = code) :
    ∃ other, runOf other run = [] ∧ runOf other trie.toList ≠ [] := by
  obtain ⟨entry, member, different⟩ := wellFormed.exists_other_hash noLeaf code
  refine ⟨hash entry.1, ?_, List.ne_nil_of_mem (mem_iff_mem_runOf.mp member)⟩
  rw [runOf_of_hashed hashed, if_neg different]

section Alike

variable {related : Run κ ν → Run κ ω → Prop} {otherBitmap : Bitmap}
  {others : List (Trie κ ω)}

/-- Branches whose runs are related have the same occupied slots. -/
theorem Placed.bitmap_eq (placed : Placed depth bitmap children)
    (otherPlaced : Placed depth otherBitmap others)
    (sized : ∀ {run other}, related run other → run.length = other.length)
    (runs : ∀ code, related (runOf code (toLists children)) (runOf code (toLists others))) :
    bitmap = otherBitmap := by
  have inhabited (code : UInt64) :
      runOf code (toLists children) ≠ [] ↔ runOf code (toLists others) ≠ [] := by
    rw [← List.length_pos_iff, ← List.length_pos_iff, sized (runs code)]
  apply Bitmap.ext_contains
  intro slot
  rw [Bool.eq_iff_iff, placed.contains_iff_runOf, otherPlaced.contains_iff_runOf]
  simp only [inhabited]

/-- **A trie is determined by its runs.** Well-formed tries with related runs, hash by
hash, have the same shape. -/
theorem alike_of_runs (none : related [] [])
    (sized : ∀ {run other}, related run other → run.length = other.length)
    {first : Trie κ ν} {second : Trie κ ω} (sound : WellFormed depth first)
    (otherSound : WellFormed depth second)
    (runs : ∀ code, related (runOf code first.toList) (runOf code second.toList)) :
    Alike related first second := by
  have bothEmpty {run : Run κ ν} {other : Run κ ω} (pair : related run other) :
      run = [] ↔ other = [] := by
    rw [← List.length_eq_zero_iff, ← List.length_eq_zero_iff, sized pair]
  induction sound generalizing second with
  | @leaf depth stamp code run inhabited _ hashed =>
      have here : runOf code run = run := runOf_eq_self hashed
      cases otherSound with
      | @leaf _ other otherCode otherRun _ _ otherHashed =>
          have there : runOf code otherRun ≠ [] := fun nothing =>
            inhabited (here ▸ (bothEmpty (runs code)).mpr nothing)
          rw [runOf_of_hashed otherHashed] at there
          obtain rfl : code = otherCode := by
            by_contra different
            exact there (if_neg different)
          have pair := runs code
          simp only [toList, here, runOf_eq_self otherHashed] at pair
          exact .leaf pair
      | branch shallow full someChild childSound routed collapsed counted =>
          obtain ⟨other, absent, held⟩ := WellFormed.exists_other_run
            (.branch shallow full someChild childSound routed collapsed counted) rfl hashed
          exact absurd ((bothEmpty (runs other)).mp absent) held
  | @branch depth stamp bitmap size children shallow full someChild childSound routed collapsed
      counted ih =>
      have placed := Placed.of_children full childSound routed
      cases otherSound with
      | leaf _ _ hashed =>
          obtain ⟨other, absent, held⟩ := WellFormed.exists_other_run
            (.branch shallow full someChild childSound routed collapsed counted) rfl hashed
          exact absurd ((bothEmpty (runs other)).mpr absent) held
      | @branch _ other otherBitmap otherSize others _ otherFull _ otherChildSound otherRouted _
          otherCounted =>
          have otherPlaced := Placed.of_children otherFull otherChildSound otherRouted
          obtain rfl := placed.bitmap_eq otherPlaced sized runs
          obtain rfl : size = otherSize := by
            rw [counted, otherCounted]
            exact length_eq_of_runOf fun code => sized (runs code)
          refine .branch (full.trans otherFull.symm) ?_
          intro index child counterpart atChild atCounterpart
          have inside := (List.getElem?_eq_some_iff.mp atChild).1
          rw [full, ← Bitmap.length_slots] at inside
          have atSlot := List.getElem?_eq_getElem inside
          have found := childAt_eq_some_iff.mpr ⟨index, atSlot, atChild⟩
          have otherFound := childAt_eq_some_iff.mpr ⟨index, atSlot, atCounterpart⟩
          refine ih child (List.mem_of_getElem? atChild)
            (otherPlaced.sound _ counterpart otherFound) ?_
          intro code
          rw [placed.runOf_child found, otherPlaced.runOf_child otherFound]
          split
          · exact runs code
          · exact none

end Alike

end Trie

namespace TrieMap.WellFormed

variable [BEq κ] {map : TrieMap κ ν} {other : TrieMap κ ω}

theorem root_eq_empty_iff (wellFormed : map.WellFormed) :
    map.root = .empty ↔ map.toList = [] := by
  constructor
  · intro empty
    rw [toList, empty]
    rfl
  · intro nothing
    exact wellFormed.root.resolve_right fun sound => sound.toList_ne_nil nothing

/-- A map without entries is the empty one. -/
theorem eq_empty_iff (wellFormed : map.WellFormed) : map = .empty ↔ map.toList = [] := by
  constructor
  · rintro rfl
    rfl
  · intro nothing
    have root := wellFormed.root_eq_empty_iff.mpr nothing
    have length := wellFormed.length
    rw [nothing, List.length_nil] at length
    cases map
    exact congr (congrArg TrieMap.mk root) length

/-- Maps with related runs have tries of one shape. -/
theorem alike {related : Run κ ν → Run κ ω → Prop} (none : related [] [])
    (sized : ∀ {run other}, related run other → run.length = other.length)
    (wellFormed : map.WellFormed) (otherWellFormed : other.WellFormed)
    (runs : ∀ code, related (runOf code map.toList) (runOf code other.toList)) :
    map.root.Alike related other.root := by
  have lengths : map.toList.length = other.toList.length :=
    length_eq_of_runOf fun code => sized (runs code)
  rcases wellFormed.root with empty | sound
  · have otherEmpty : other.root = .empty := by
      rw [otherWellFormed.root_eq_empty_iff, ← List.length_eq_zero_iff, ← lengths,
        wellFormed.root_eq_empty_iff.mp empty, List.length_nil]
    rw [empty, otherEmpty]
    exact .empty
  · rcases otherWellFormed.root with otherEmpty | otherSound
    · rw [otherWellFormed.root_eq_empty_iff.mp otherEmpty, List.length_nil] at lengths
      exact absurd (List.length_eq_zero_iff.mp lengths) sound.toList_ne_nil
    · exact Trie.alike_of_runs none sized sound otherSound runs

end TrieMap.WellFormed

end HashTrie
