import HashTrie.Proofs.Equality
import HashTrie.Proofs.MergeOrder

/-!
# Set algebra

A union is a merge of the two tries, while intersections and differences are collected anew
from the elements of one operand that pass a test (`TrieSet.select`). What ties them together
is what they store for an element (`TrieSet.stored?`). Lengths are compared without looking at
the tries: sets with the same elements are equally long (`TrieSet.length_eq_of_contains`), and
a test and its opposite divide a set (`TrieSet.length_select_add`). The main result is
`set_algebra`.
-/

namespace HashTrie

variable {κ ν : Type} [BEq κ]

/-- A key is found among the entries that a test accepts if the test accepts its entry. -/
theorem Run.Distinct.find?_filter [EquivBEq κ] {run : Run κ ν} (distinct : run.Distinct)
    (accepts : κ × ν → Bool) (key : κ) :
    Run.find? (run.filter accepts) key = (run.find? key).filter accepts := by
  induction run with
  | nil => rfl
  | cons entry run ih =>
      obtain ⟨unequal, distinct⟩ := distinct_cons.mp distinct
      rw [List.filter_cons, find?_cons]
      cases equal : entry.1 == key with
      | true =>
          rw [if_pos rfl, Option.filter_some]
          split
          · rw [find?_cons, equal, if_pos rfl]
          · have others := unequal_of_head unequal equal
            refine find?_eq_none_iff.mpr fun other member => ?_
            exact others other (List.mem_of_mem_filter member)
      | false =>
          rw [if_neg Bool.false_ne_true, ← ih distinct]
          split
          · rw [find?_cons, equal, if_neg Bool.false_ne_true]
          · rfl

variable [Hashable κ]

namespace TrieSet

/-- The element of a set that is equal to a given one, as the set stores it. -/
def stored? (set : TrieSet κ) (element : κ) : Option κ :=
  (set.map.getEntry? element).map Prod.fst

/-- The elements of a set that a test accepts, collected one after another. -/
def select (stamp : Stamp) (set : TrieSet κ) (accepts : κ → Bool) : TrieSet κ :=
  ⟨.ofList stamp (set.map.toList.filter fun entry => accepts entry.1)⟩

theorem contains_eq_isSome (set : TrieSet κ) (element : κ) :
    set.contains element = (set.stored? element).isSome := by
  rw [contains, TrieMap.containsKey, stored?, Option.isSome_map]

theorem difference_eq_select (stamp : Stamp) (set other : TrieSet κ) :
    set.difference stamp other = set.select stamp fun element => !other.contains element := rfl

theorem intersection_eq_select (stamp : Stamp) (set other : TrieSet κ) :
    set.intersection stamp other =
      if set.length ≤ other.length then set.select stamp other.contains
      else other.select stamp set.contains := by
  by_cases fewer : set.length ≤ other.length
  · simp only [intersection, if_pos fewer]
    rfl
  · simp only [intersection, if_neg fewer]
    rfl

variable [EquivBEq κ] {set other : TrieSet κ} {stamp : Stamp} {accepts : κ → Bool}

/-- What is stored for an element is what the iteration meets of its hash and equal to it. -/
theorem stored?_eq_some_iff (sound : set.map.WellFormed) {element own : κ} :
    set.stored? element = some own ↔
      own ∈ set.toList ∧ hash own = hash element ∧ (own == element) = true := by
  rw [stored?, sound.getEntry?_eq_find?, Option.map_eq_some_iff]
  constructor
  · rintro ⟨entry, found, rfl⟩
    obtain ⟨member, same⟩ := mem_runOf.mp (Run.mem_of_find? found)
    exact ⟨List.mem_map_of_mem member, same, Run.key_of_find? found⟩
  · rintro ⟨listed, same, equal⟩
    obtain ⟨entry, member, rfl⟩ := List.mem_map.mp listed
    have inRun := mem_runOf.mpr ⟨member, same⟩
    exact ⟨entry, (sound.distinct_runOf _).find?_of_mem inRun equal, rfl⟩

theorem select_sound (stamp : Stamp) (set : TrieSet κ) (accepts : κ → Bool) :
    (set.select stamp accepts).map.WellFormed := TrieMap.wellFormed_ofList stamp _

theorem toList_select (sound : set.map.WellFormed) (stamp : Stamp) (accepts : κ → Bool) :
    (set.select stamp accepts).map.toList =
      set.map.toList.filter fun entry => accepts entry.1 :=
  sound.toList_ofList_sublist stamp List.filter_sublist

/-- A test that does not tell equal elements with one hash apart. -/
def Respects (accepts : κ → Bool) : Prop :=
  ∀ first second : κ, hash first = hash second → (first == second) = true →
    accepts first = accepts second

/-- Membership in a set is such a test. -/
theorem respects_contains (sound : set.map.WellFormed) : Respects set.contains := by
  intro first second same equal
  rw [contains, contains, TrieMap.containsKey_eq_isSome, TrieMap.containsKey_eq_isSome,
    sound.get?_congr same equal]

omit [EquivBEq κ] in
theorem Respects.not (respects : Respects accepts) : Respects fun element => !accepts element :=
  fun first second same equal => congrArg (!·) (respects first second same equal)

/-- Selected elements are stored as they were. -/
theorem stored?_select (sound : set.map.WellFormed) (stamp : Stamp) (respects : Respects accepts)
    (element : κ) : (set.select stamp accepts).stored? element =
      if accepts element then set.stored? element else none := by
  have distinct := sound.distinct_runOf (hash element)
  have filtered : (set.select stamp accepts).map.getEntry? element =
      (set.map.getEntry? element).filter fun entry => accepts entry.1 := by
    rw [(select_sound stamp set accepts).getEntry?_eq_find?, toList_select sound, runOf_filter,
      distinct.find?_filter, sound.getEntry?_eq_find?]
  rw [stored?, stored?, filtered]
  cases found : set.map.getEntry? element with
  | none => split <;> rfl
  | some entry =>
      have equal : (entry.1 == element) = true := by
        rw [sound.getEntry?_eq_find?] at found
        exact Run.key_of_find? found
      rw [Option.filter_some, respects _ _ (sound.hash_of_found found) equal]
      split <;> rfl

theorem contains_select (sound : set.map.WellFormed) (stamp : Stamp) (respects : Respects accepts)
    (element : κ) : (set.select stamp accepts).contains element =
      (set.contains element && accepts element) := by
  rw [contains_eq_isSome, stored?_select sound stamp respects, contains_eq_isSome]
  cases accepts element <;> simp

/-- A test and its opposite divide a set. -/
theorem length_select_add (sound : set.map.WellFormed) (stamp mark : Stamp)
    (accepts : κ → Bool) : set.length = (set.select stamp accepts).length +
      (set.select mark fun element => !accepts element).length := by
  have lengths (set : TrieSet κ) (sound : set.map.WellFormed) :
      set.length = set.map.toList.length := sound.length
  rw [lengths _ sound, lengths _ (select_sound ..), lengths _ (select_sound ..),
    toList_select sound, toList_select sound]
  exact List.length_eq_length_filter_add _

/-- Sets with the same elements are equally long, however they are stored. -/
theorem length_eq_of_contains (sound : set.map.WellFormed) (otherSound : other.map.WellFormed)
    (same : ∀ element, set.contains element = other.contains element) :
    set.length = other.length := sound.length_eq_of_keys otherSound same

/-- Sets with the same elements are equal. -/
theorem beq_of_contains (sound : set.map.WellFormed) (otherSound : other.map.WellFormed)
    (same : ∀ element, set.contains element = other.contains element) :
    (set == other) = true := by
  refine (sound.beq_iff otherSound).mpr (.inr ⟨length_eq_of_contains sound otherSound same, ?_⟩)
  intro element
  have here := same element
  rw [contains, contains, TrieMap.containsKey_eq_isSome, TrieMap.containsKey_eq_isSome] at here
  revert here
  cases set.map.get? element <;> cases other.map.get? element <;> simp

/-- An intersection stores the elements of both sets as the smaller one does. -/
theorem stored?_intersection (sound : set.map.WellFormed) (otherSound : other.map.WellFormed)
    (stamp : Stamp) (element : κ) : (set.intersection stamp other).stored? element =
      if set.contains element && other.contains element then
        (if set.length ≤ other.length then set else other).stored? element
      else none := by
  have absent {set : TrieSet κ} (missing : set.contains element = false) :
      set.stored? element = none := by
    rwa [contains_eq_isSome, Option.isSome_eq_false_iff, Option.isNone_iff_eq_none] at missing
  rw [intersection_eq_select]
  split
  · rw [stored?_select sound stamp (respects_contains otherSound)]
    cases held : set.contains element with
    | false => simp [absent held]
    | true => rw [Bool.true_and]
  · rw [stored?_select otherSound stamp (respects_contains sound)]
    cases held : other.contains element with
    | false => simp [absent held]
    | true => rw [Bool.and_true]

/-- A difference stores the elements that it keeps as the set does. -/
theorem stored?_difference (sound : set.map.WellFormed) (otherSound : other.map.WellFormed)
    (stamp : Stamp) (element : κ) : (set.difference stamp other).stored? element =
      if other.contains element then none else set.stored? element := by
  rw [difference_eq_select, stored?_select sound stamp (respects_contains otherSound).not]
  cases other.contains element <;> rfl

/-- A union stores its elements as the first set does, and those that this does not have as
the second one does. -/
theorem stored?_union (sound : set.map.WellFormed) (otherSound : other.map.WellFormed)
    (fresh : stamp ∉ set.map.root.stamps) (coherent : set.map.root.Coherent other.map.root)
    (element : κ) : (set.union stamp other).stored? element =
      (set.stored? element).or (other.stored? element) := by
  rw [stored?, union, sound.getEntry?_merge otherSound fresh coherent, Option.map_or]
  rfl

theorem contains_intersection (sound : set.map.WellFormed) (otherSound : other.map.WellFormed)
    (stamp : Stamp) (element : κ) : (set.intersection stamp other).contains element =
      (set.contains element && other.contains element) := by
  rw [intersection_eq_select]
  split
  · exact contains_select sound stamp (respects_contains otherSound) element
  · rw [contains_select otherSound stamp (respects_contains sound), Bool.and_comm]

theorem contains_difference (sound : set.map.WellFormed) (otherSound : other.map.WellFormed)
    (stamp : Stamp) (element : κ) : (set.difference stamp other).contains element =
      (set.contains element && !other.contains element) :=
  contains_select sound stamp (respects_contains otherSound).not element

theorem contains_union (sound : set.map.WellFormed) (otherSound : other.map.WellFormed)
    (fresh : stamp ∉ set.map.root.stamps) (coherent : set.map.root.Coherent other.map.root)
    (element : κ) : (set.union stamp other).contains element =
      (set.contains element || other.contains element) := by
  rw [contains_eq_isSome, stored?_union sound otherSound fresh coherent, contains_eq_isSome,
    contains_eq_isSome, Option.isSome_or]

omit [EquivBEq κ] in
theorem makes_intersection {pool : Pool κ} (stamp : Stamp) (set other : TrieSet κ) :
    Makes pool stamp (set.intersection stamp other).map := by
  rw [intersection_eq_select]
  split <;> exact .ofList _

/-- The intersection and the difference with another set divide a set. -/
theorem length_intersection_add (sound : set.map.WellFormed) (otherSound : other.map.WellFormed)
    (stamp mark : Stamp) : set.length =
      (set.intersection stamp other).length + (set.difference mark other).length := by
  have intersected : (set.intersection stamp other).map.WellFormed := by
    rw [intersection_eq_select]
    split <;> exact select_sound ..
  have common : (set.intersection stamp other).length =
      (set.select stamp other.contains).length := by
    refine length_eq_of_contains intersected (select_sound ..) fun element => ?_
    rw [contains_intersection sound otherSound,
      contains_select sound stamp (respects_contains otherSound)]
  rw [common]
  exact length_select_add sound stamp mark other.contains

/-- A set and what another set has beyond it divide the union. -/
theorem length_union (sound : set.map.WellFormed) (otherSound : other.map.WellFormed)
    (fresh : stamp ∉ set.map.root.stamps) (coherent : set.map.root.Coherent other.map.root)
    (mark : Stamp) : (set.union stamp other).length =
      set.length + (other.difference mark set).length := by
  have united : (set.union stamp other).map.WellFormed := sound.merge otherSound fresh
  have respects := respects_contains sound
  have first : ((set.union stamp other).select stamp set.contains).length = set.length := by
    refine length_eq_of_contains (select_sound ..) sound fun element => ?_
    rw [contains_select united stamp respects, contains_union sound otherSound fresh coherent]
    cases set.contains element <;> simp
  have second : ((set.union stamp other).select mark fun element => !set.contains element).length =
      (other.difference mark set).length := by
    have subtracted : (other.difference mark set).map.WellFormed := TrieMap.wellFormed_ofList mark _
    refine length_eq_of_contains (select_sound ..) subtracted fun element => ?_
    rw [contains_select united mark respects.not,
      contains_union sound otherSound fresh coherent, contains_difference otherSound sound]
    cases set.contains element <;> simp
  rw [length_select_add united stamp mark set.contains, first, second]

end TrieSet

variable [EquivBEq κ]

/-- **Set algebra.** Whatever the histories of two sets and whatever their tries share, the
union has the elements of either, the intersection those of both, and the difference those of
the first only. Of equal elements the union and the difference store the one of the first set,
and the intersection the one of the shorter set, or of the first if they are equally long. A
set is as long as its intersection and its difference with another one together, and equal to
their union; the union is as long as the first set and the difference of the second from it. -/
theorem set_algebra {pool : Pool κ} {set other : TrieSet κ} {joined common apart : Stamp}
    (reachable : Reachable pool) (held : ⟨Unit, set.map⟩ ∈ pool)
    (otherHeld : ⟨Unit, other.map⟩ ∈ pool) (freshJoined : Fresh joined pool)
    (freshCommon : Fresh common pool) (freshApart : Fresh apart pool)
    (different : joined ≠ common ∧ apart ≠ common) :
    (∀ element,
        (set.union joined other).contains element =
            (set.contains element || other.contains element) ∧
          (set.intersection common other).contains element =
            (set.contains element && other.contains element) ∧
          (set.difference apart other).contains element =
            (set.contains element && !other.contains element)) ∧
      (∀ element,
        (set.union joined other).stored? element =
            (set.stored? element).or (other.stored? element) ∧
          (set.intersection common other).stored? element =
            (if set.contains element && other.contains element then
              (if set.length ≤ other.length then set else other).stored? element
            else none) ∧
          (set.difference apart other).stored? element =
            if other.contains element then none else set.stored? element) ∧
      set.length = (set.intersection common other).length +
        (set.difference apart other).length ∧
      (set.union joined other).length = set.length + (other.difference apart set).length ∧
      ((set.intersection common other).union joined (set.difference apart other) == set) =
        true := by
  have sound : set.map.WellFormed := reachable.sound held
  have otherSound : other.map.WellFormed := reachable.sound otherHeld
  have fresh := freshJoined _ held
  have coherent := reachable.coherent held otherHeld
  refine ⟨fun element => ⟨?_, ?_, ?_⟩, fun element => ⟨?_, ?_, ?_⟩, ?_, ?_, ?_⟩
  · exact TrieSet.contains_union sound otherSound fresh coherent element
  · exact TrieSet.contains_intersection sound otherSound common element
  · exact TrieSet.contains_difference sound otherSound apart element
  · exact TrieSet.stored?_union sound otherSound fresh coherent element
  · exact TrieSet.stored?_intersection sound otherSound common element
  · exact TrieSet.stored?_difference sound otherSound apart element
  · exact TrieSet.length_intersection_add sound otherSound common apart
  · exact TrieSet.length_union sound otherSound fresh coherent apart
  · -- the parts are held beside the sets before they are united
    have makesCommon : Makes pool common (set.intersection common other).map :=
      TrieSet.makes_intersection common set other
    have firstAdded : Reachable (⟨Unit, (set.intersection common other).map⟩ :: pool) :=
      .cons reachable freshCommon makesCommon
    have nextApart := makesCommon.fresh_cons reachable freshCommon freshApart different.2
    have nextJoined := makesCommon.fresh_cons reachable freshCommon freshJoined different.1
    have bothAdded : Reachable (⟨Unit, (set.difference apart other).map⟩ ::
        ⟨Unit, (set.intersection common other).map⟩ :: pool) :=
      .cons firstAdded nextApart (.ofList _)
    have firstSound := bothAdded.sound (.tail _ List.mem_cons_self)
    have secondSound := bothAdded.sound List.mem_cons_self
    have new := nextJoined _ List.mem_cons_self
    have partsCoherent := bothAdded.coherent (.tail _ List.mem_cons_self) List.mem_cons_self
    refine TrieSet.beq_of_contains (firstSound.merge secondSound new) sound fun element => ?_
    rw [TrieSet.contains_union firstSound secondSound new partsCoherent,
      TrieSet.contains_intersection sound otherSound,
      TrieSet.contains_difference sound otherSound]
    cases other.contains element <;> simp

omit [BEq κ] [Hashable κ] [EquivBEq κ] in
/-- Two keys of one hash, and a second set made from the first: without the one key, and with
a key that is equal to the other but has a label of its own. The second set is the shorter one,
so the intersection has its label, and the union the one of the first set. -/
theorem set_algebra_of_collisions :
    let first : TrieSet Script.Key :=
      .ofList (.ofNat 0) [.custom 7 1 "a", .custom 7 2 "b", .int 0]
    let between := first.erase (.ofNat 1) (.custom 7 1 "")
    let second := between.insert (.ofNat 2) (.custom 7 2 "c")
    let union := first.union (.ofNat 3) second
    let intersection := first.intersection (.ofNat 4) second
    let difference := first.difference (.ofNat 5) second
    (union.stored? (.custom 7 2 "") = some (.custom 7 2 "b") ∧
        intersection.stored? (.custom 7 2 "") = some (.custom 7 2 "c") ∧
        difference.stored? (.custom 7 1 "") = some (.custom 7 1 "a")) ∧
      (union.length = 3 ∧ intersection.length = 2 ∧ difference.length = 1) ∧
      (intersection.union (.ofNat 3) difference == first) = true := by
  intro first between second union intersection difference
  let pool : Pool Script.Key := [⟨Unit, between.map⟩, ⟨Unit, first.map⟩]
  have one : Reachable [⟨Unit, first.map⟩] := .ofList _ _
  have erased : Makes [⟨Unit, first.map⟩] (.ofNat 1) between.map :=
    .erase List.mem_cons_self (Script.Key.custom 7 1 "")
  have two : Reachable pool := .cons one (by decide +kernel) erased
  have inserted : Makes pool (.ofNat 2) second.map :=
    .insert List.mem_cons_self (Script.Key.custom 7 2 "c") ()
  have three : Reachable (⟨Unit, second.map⟩ :: pool) := .cons two (by decide +kernel) inserted
  have freshUnion : Fresh (.ofNat 3) (⟨Unit, second.map⟩ :: pool) := by decide +kernel
  have freshIntersection : Fresh (.ofNat 4) (⟨Unit, second.map⟩ :: pool) := by decide +kernel
  have freshDifference : Fresh (.ofNat 5) (⟨Unit, second.map⟩ :: pool) := by decide +kernel
  obtain ⟨-, stored, -, -, parts⟩ := set_algebra three (.tail _ (.tail _ List.mem_cons_self))
    List.mem_cons_self freshUnion freshIntersection freshDifference (by decide)
  refine ⟨⟨?_, ?_, ?_⟩, ⟨by decide +kernel, by decide +kernel, by decide +kernel⟩, parts⟩
  · exact (stored (.custom 7 2 "")).1.trans rfl
  · exact (stored (.custom 7 2 "")).2.1.trans rfl
  · exact (stored (.custom 7 1 "")).2.2.trans rfl

end HashTrie
