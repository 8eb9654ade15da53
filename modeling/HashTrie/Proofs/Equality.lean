import HashTrie.Proofs.CanonicalForm
import HashTrie.Proofs.Identity
import HashTrie.Proofs.Union
import HashTrie.Script.Value

/-!
# Equality of maps

Two maps with one root are equal, and others are compared from one side only: they need
equal lengths, and each entry of the first has to be found in the second. That this is
enough rests on counting. The keys of a map are unequal to one another, so their partners
in the other map are different ones, and if the maps are equally long, nothing is left
over (`WellFormed.length_le_of_keys`). Equality of maps is therefore equality of
the values of each key, whatever the histories of the maps, and an equivalence if equality
of values is one (`beq_isExtensional`).
-/

namespace HashTrie

variable {κ ν ω : Type}

namespace TrieMap

section Counting

variable [BEq κ] [Hashable κ] [EquivBEq κ] {map : TrieMap κ ν} {other : TrieMap κ ω}

/-- A map has no more entries than a map that has all its keys; if it has as many, it has
all keys of that map. -/
theorem WellFormed.length_le_of_keys (wellFormed : map.WellFormed)
    (otherWellFormed : other.WellFormed)
    (keys : ∀ key, map.containsKey key = true → other.containsKey key = true) :
    map.length ≤ other.length ∧ (other.length ≤ map.length →
      ∀ key, other.containsKey key = true → map.containsKey key = true) := by
  have apart : map.toList.Pairwise fun first second => ∀ partner : κ × ω,
      hash first.1 = hash partner.1 ∧ SameKey first partner →
        ¬ (hash second.1 = hash partner.1 ∧ SameKey second partner) := by
    refine (pairwise_of_distinct_runOf wellFormed.distinct_runOf).imp ?_
    rintro first second unequal partner ⟨firstHash, firstKey⟩ ⟨secondHash, secondKey⟩
    have equal : (first.1 == second.1) = true := BEq.trans firstKey (BEq.symm secondKey)
    rw [unequal (firstHash.trans secondHash.symm)] at equal
    cases equal
  have found : ∀ entry ∈ map.toList, ∃ partner ∈ other.toList,
      hash entry.1 = hash partner.1 ∧ SameKey entry partner := by
    intro entry member
    have contained := keys entry.1 (wellFormed.containsKey_of_mem member)
    obtain ⟨partner, inRun, same⟩ := otherWellFormed.exists_of_containsKey contained
    obtain ⟨held, equal⟩ := mem_runOf.mp inRun
    exact ⟨partner, held, equal.symm, BEq.symm same⟩
  rw [wellFormed.length, otherWellFormed.length]
  refine (length_le_of_partners apart found).imp_right ?_
  intro covered short key contained
  obtain ⟨partner, inRun, same⟩ := otherWellFormed.exists_of_containsKey contained
  obtain ⟨held, equal⟩ := mem_runOf.mp inRun
  obtain ⟨entry, member, hashes, keys⟩ := covered short partner held
  rw [containsKey, wellFormed.getEntry?_eq_find?,
    (wellFormed.distinct_runOf _).find?_of_mem (mem_runOf.mpr ⟨member, hashes.trans equal⟩)
      (BEq.trans keys same)]
  rfl

/-- Maps with the same keys have the same length. -/
theorem WellFormed.length_eq_of_keys (wellFormed : map.WellFormed)
    (otherWellFormed : other.WellFormed)
    (keys : ∀ key, map.containsKey key = other.containsKey key) : map.length = other.length :=
  Nat.le_antisymm
    (wellFormed.length_le_of_keys otherWellFormed fun key => (keys key).symm.trans).1
    (otherWellFormed.length_le_of_keys wellFormed fun key => (keys key).trans).1

end Counting

section Comparing

variable [BEq κ] [Hashable κ] {map other third : TrieMap κ ν} {key : κ}

/-- Each key has values in both maps that compare equal, or a value in neither. -/
def SameValues [BEq ν] (map other : TrieMap κ ν) : Prop :=
  ∀ key, (map.get? key == other.get? key) = true

namespace SameValues

variable [BEq ν]

theorem refl [ReflBEq ν] (map : TrieMap κ ν) : SameValues map map := fun _ => BEq.rfl

theorem symm (symmetric : ∀ value other : ν, (value == other) = true → (other == value) = true)
    (same : SameValues map other) : SameValues other map := by
  intro key
  have here := same key
  revert here
  cases map.get? key <;> cases other.get? key <;> simp
  exact symmetric _ _

theorem trans [EquivBEq ν] (same : SameValues map other) (next : SameValues other third) :
    SameValues map third := by
  intro key
  have first := same key
  have second := next key
  revert first second
  cases map.get? key <;> cases other.get? key <;> cases third.get? key <;> simp
  exact BEq.trans

/-- Maps with the same values have the same keys. -/
theorem containsKey_eq (same : SameValues map other) (key : κ) :
    map.containsKey key = other.containsKey key := by
  have here := same key
  revert here
  rw [containsKey_eq_isSome, containsKey_eq_isSome]
  cases map.get? key <;> cases other.get? key <;> simp

end SameValues

theorem contains_iff [BEq ν] {entry : κ × ν} : map.contains entry = true ↔
    ∃ value, map.get? entry.1 = some value ∧ (value == entry.2) = true := by
  unfold contains
  cases map.get? entry.1 <;> simp

namespace WellFormed

variable [EquivBEq κ]

/-- A key of a map has the value of the entry that is stored under it. -/
theorem get?_eq_some_iff (wellFormed : map.WellFormed) {value : ν} :
    map.get? key = some value ↔ ∃ entry ∈ map.toList,
      hash entry.1 = hash key ∧ (entry.1 == key) = true ∧ entry.2 = value := by
  rw [get?, wellFormed.getEntry?_eq_find?, Option.map_eq_some_iff]
  constructor
  · rintro ⟨entry, found, rfl⟩
    obtain ⟨member, same⟩ := mem_runOf.mp (Run.mem_of_find? found)
    exact ⟨entry, member, same, Run.key_of_find? found, rfl⟩
  · rintro ⟨entry, member, same, equal, rfl⟩
    exact ⟨entry, (wellFormed.distinct_runOf _).find?_of_mem (mem_runOf.mpr ⟨member, same⟩) equal,
      rfl⟩

/-- Equal keys with one hash have one value. -/
theorem get?_congr (wellFormed : map.WellFormed) {probe : κ} (same : hash key = hash probe)
    (equal : (key == probe) = true) : map.get? key = map.get? probe := by
  rw [get?, get?, wellFormed.getEntry?_eq_find?, wellFormed.getEntry?_eq_find?, same,
    Run.find?_congr _ equal]

variable [BEq ν]

/-- Every entry of a map is in another one if every key of the map has an equal value there. -/
theorem all_contains_iff (wellFormed : map.WellFormed) (otherWellFormed : other.WellFormed) :
    map.toList.all other.contains = true ↔ ∀ key mine, map.get? key = some mine →
      ∃ theirs, other.get? key = some theirs ∧ (theirs == mine) = true := by
  simp only [List.all_eq_true, contains_iff]
  constructor
  · intro all key mine found
    obtain ⟨entry, member, same, equal, rfl⟩ := wellFormed.get?_eq_some_iff.mp found
    rw [← otherWellFormed.get?_congr same equal]
    exact all entry member
  · intro values entry member
    exact values entry.1 entry.2
      (wellFormed.get?_eq_some_iff.mpr ⟨entry, member, rfl, BEq.rfl, rfl⟩)

/-- Maps with the same values have the same length. -/
theorem length_eq_of_sameValues (wellFormed : map.WellFormed) (otherWellFormed : other.WellFormed)
    (same : SameValues map other) : map.length = other.length :=
  wellFormed.length_eq_of_keys otherWellFormed same.containsKey_eq

/-- **The comparison from one side.** Equal lengths make up for the keys of the second map
that are not looked at. -/
theorem beq_iff (wellFormed : map.WellFormed) (otherWellFormed : other.WellFormed) :
    (map == other) = true ↔ map.sharesRoot other = true ∨
      (map.length = other.length ∧ SameValues other map) := by
  change (map.sharesRoot other || (map.length == other.length && map.toList.all other.contains)) =
    true ↔ _
  rw [Bool.or_eq_true, Bool.and_eq_true, beq_iff_eq, wellFormed.all_contains_iff otherWellFormed]
  refine or_congr_right (and_congr_right fun long => ?_)
  constructor
  · intro values
    have keys (key : κ) (contained : map.containsKey key = true) :
        other.containsKey key = true := by
      rw [containsKey_eq_isSome] at contained ⊢
      obtain ⟨mine, found⟩ := Option.isSome_iff_exists.mp contained
      obtain ⟨theirs, found, -⟩ := values key mine found
      rw [found]
      rfl
    have covered := (wellFormed.length_le_of_keys otherWellFormed keys).2 (Nat.le_of_eq long.symm)
    intro key
    have theirs := values key
    have mine := covered key
    rw [containsKey_eq_isSome, containsKey_eq_isSome] at mine
    revert theirs mine
    cases map.get? key <;> cases other.get? key <;> simp
  · intro same key mine found
    have here := same key
    rw [found] at here
    revert here
    cases other.get? key <;> simp

/-- Maps that are looked up alike are equal if every value is equal to itself. -/
theorem beq_of_lookup [ReflBEq ν] (wellFormed : map.WellFormed)
    (otherWellFormed : other.WellFormed)
    (alike : ∀ key, map.getEntry? key = other.getEntry? key) : (map == other) = true := by
  have same : SameValues other map := by
    intro key
    rw [get?, get?, alike]
    exact BEq.rfl
  exact (wellFormed.beq_iff otherWellFormed).mpr
    (.inr ⟨(otherWellFormed.length_eq_of_sameValues wellFormed same).symm, same⟩)

end WellFormed

end Comparing

end TrieMap

section Histories

variable [BEq κ] [Hashable κ] [EquivBEq κ] {pool : Pool κ} {map other : TrieMap κ ν}

/-- Maps of a history that share their root are looked up alike. -/
theorem Reachable.get?_eq_of_sharesRoot (reachable : Reachable pool) (held : ⟨ν, map⟩ ∈ pool)
    (otherHeld : ⟨ν, other⟩ ∈ pool) (shared : map.sharesRoot other = true) (key : κ) :
    map.get? key = other.get? key := by
  have roots : map.root = other.root := (reachable.coherent held otherHeld).eq_of_same shared
  rw [TrieMap.get?, TrieMap.get?, TrieMap.getEntry?, TrieMap.getEntry?, roots]

variable [BEq ν]

/-- Maps of a history with values whose equality is an equivalence are equal if they have
the same values. -/
theorem Reachable.beq_iff_sameValues [EquivBEq ν] (reachable : Reachable pool)
    (held : ⟨ν, map⟩ ∈ pool) (otherHeld : ⟨ν, other⟩ ∈ pool) :
    (map == other) = true ↔ map.SameValues other := by
  have wellFormed := reachable.sound held
  have otherWellFormed := reachable.sound otherHeld
  rw [wellFormed.beq_iff otherWellFormed]
  constructor
  · rintro (shared | ⟨-, same⟩)
    · intro key
      rw [reachable.get?_eq_of_sharesRoot held otherHeld shared key]
      exact BEq.rfl
    · exact same.symm fun _ _ => BEq.symm
  · intro same
    exact .inr ⟨wellFormed.length_eq_of_sameValues otherWellFormed same,
      same.symm fun _ _ => BEq.symm⟩

/-- Maps of a history with values whose equality is symmetric are equal if they share their
root or have one length and the same values. -/
theorem Reachable.beq_iff_of_symm
    (symmetric : ∀ value other : ν, (value == other) = true → (other == value) = true)
    (reachable : Reachable pool) (held : ⟨ν, map⟩ ∈ pool) (otherHeld : ⟨ν, other⟩ ∈ pool) :
    (map == other) = true ↔ map.sharesRoot other = true ∨
      (map.length = other.length ∧ map.SameValues other) := by
  rw [(reachable.sound held).beq_iff (reachable.sound otherHeld)]
  refine or_congr_right (and_congr_right fun _ => ?_)
  exact ⟨TrieMap.SameValues.symm symmetric, TrieMap.SameValues.symm symmetric⟩

/-- **Equality is extensional.** If equality of values is an equivalence, two maps of a
history are equal exactly if each key has equal values in both or is in neither, and so
equality of maps is an equivalence, although only the entries of the first map are looked
up. If equality of values is only symmetric, two maps are equal exactly if they share their
root, or have one length and equal values under each key, and equality stays symmetric. -/
theorem beq_isExtensional (reachable : Reachable pool) :
    (∀ [EquivBEq ν],
        (∀ {map other : TrieMap κ ν}, ⟨ν, map⟩ ∈ pool → ⟨ν, other⟩ ∈ pool →
          ((map == other) = true ↔ map.SameValues other)) ∧
        (∀ {map : TrieMap κ ν}, ⟨ν, map⟩ ∈ pool → (map == map) = true) ∧
        (∀ {map other : TrieMap κ ν}, ⟨ν, map⟩ ∈ pool → ⟨ν, other⟩ ∈ pool →
          (map == other) = true → (other == map) = true) ∧
        ∀ {map other third : TrieMap κ ν}, ⟨ν, map⟩ ∈ pool → ⟨ν, other⟩ ∈ pool →
          ⟨ν, third⟩ ∈ pool → (map == other) = true → (other == third) = true →
            (map == third) = true) ∧
      ((∀ value other : ν, (value == other) = true → (other == value) = true) →
        ∀ {map other : TrieMap κ ν}, ⟨ν, map⟩ ∈ pool → ⟨ν, other⟩ ∈ pool →
          ((map == other) = true ↔ map.sharesRoot other = true ∨
            (map.length = other.length ∧ map.SameValues other)) ∧
          ((map == other) = true → (other == map) = true)) := by
  refine ⟨?_, ?_⟩
  · intro _
    refine ⟨fun held otherHeld => reachable.beq_iff_sameValues held otherHeld, ?_, ?_, ?_⟩
    · intro map held
      exact (reachable.beq_iff_sameValues held held).mpr (.refl map)
    · intro map other held otherHeld equal
      have same := (reachable.beq_iff_sameValues held otherHeld).mp equal
      exact (reachable.beq_iff_sameValues otherHeld held).mpr (same.symm fun _ _ => BEq.symm)
    · intro map other third held otherHeld thirdHeld equal next
      have same := (reachable.beq_iff_sameValues held otherHeld).mp equal
      exact (reachable.beq_iff_sameValues held thirdHeld).mpr
        (same.trans ((reachable.beq_iff_sameValues otherHeld thirdHeld).mp next))
  · intro symmetric map other held otherHeld
    have iff := reachable.beq_iff_of_symm symmetric held otherHeld
    refine ⟨iff, ?_⟩
    intro equal
    refine (reachable.beq_iff_of_symm symmetric otherHeld held).mpr ?_
    rcases iff.mp equal with shared | ⟨long, same⟩
    · exact .inl ((Trie.same_comm _ _).trans shared)
    · exact .inr ⟨long.symm, same.symm symmetric⟩

end Histories

section Floats

/-- The equality of values of a script is symmetric, although a value that is no number
differs from itself. -/
theorem Script.Value.beq_symm (value other : Script.Value) (equal : (value == other) = true) :
    (other == value) = true := by
  change value.beq other = true at equal
  change other.beq value = true
  cases value with
  | null =>
      cases other with
      | null => rfl
      | _ => cases equal
  | int number =>
      cases other with
      | int partner => exact BEq.symm (α := Int64) equal
      | _ => cases equal
  | text letters =>
      cases other with
      | text partner => exact BEq.symm (α := String) equal
      | _ => cases equal
  | float bits =>
      cases other with
      | float partner =>
          simp only [Script.Value.beq, Script.floatBeq, Bool.and_eq_true, Bool.or_eq_true,
            beq_iff_eq] at equal ⊢
          obtain ⟨⟨number, partnerNumber⟩, same⟩ := equal
          exact ⟨⟨partnerNumber, number⟩, same.imp Eq.symm And.symm⟩
      | _ => cases equal

/-- The keys 0 and 2^64 have one hash, and their run stands in one order in a map that was
collected and in the other in one that was merged and cut back; the two are equal all the
same. A map with a value that is no number is equal to itself and to no copy of it. -/
theorem beq_isExtensional_of_collisions :
    let twin := 0x10000000000000000
    let map : TrieMap Nat Nat := .ofList (.ofNat 0) [(0, 1), (32, 2), (twin, 3)]
    let first : TrieMap Nat Nat := .ofList (.ofNat 1) [(32, 2), (twin, 3)]
    let second : TrieMap Nat Nat := .ofList (.ofNat 2) [(1, 4), (0, 1)]
    let merged := second.merge (.ofNat 3) first
    let other := merged.erase (.ofNat 4) 1
    let numberless : TrieMap Nat Script.Value := .ofList (.ofNat 0) [(0, .float 0x7ff8000000000000)]
    let copy : TrieMap Nat Script.Value := .ofList (.ofNat 1) [(0, .float 0x7ff8000000000000)]
    (map.keys = [0, twin, 32] ∧ other.keys = [twin, 0, 32] ∧ map.SameValues other) ∧
      (numberless == numberless) = true ∧ copy.sharesRoot numberless = false ∧
      ¬ (numberless.length = copy.length ∧ numberless.SameValues copy) := by
  intro twin map first second merged other numberless copy
  have one : Reachable [⟨Nat, map⟩] := .ofList _ _
  have two : Reachable [⟨Nat, first⟩, ⟨Nat, map⟩] := .cons one (by decide) (.ofList _)
  have three : Reachable [⟨Nat, second⟩, ⟨Nat, first⟩, ⟨Nat, map⟩] :=
    .cons two (by decide) (.ofList _)
  have four : Reachable [⟨Nat, merged⟩, ⟨Nat, second⟩, ⟨Nat, first⟩, ⟨Nat, map⟩] :=
    .cons three (by decide) (.merge List.mem_cons_self (.tail _ List.mem_cons_self))
  have five : Reachable [⟨Nat, other⟩, ⟨Nat, merged⟩, ⟨Nat, second⟩, ⟨Nat, first⟩, ⟨Nat, map⟩] :=
    .cons four (by decide) (.erase List.mem_cons_self 1)
  have copies : Reachable [⟨Script.Value, copy⟩, ⟨Script.Value, numberless⟩] :=
    .cons (.ofList _ _) (by decide) (.ofList _)
  refine ⟨⟨by decide, by decide, ?_⟩, ?_, by decide, ?_⟩
  · refine ((beq_isExtensional five).1.1 ?_ List.mem_cons_self).mp (by decide)
    simp
  · exact (((beq_isExtensional copies).2 Script.Value.beq_symm (by simp) (by simp)).1).mpr
      (.inl (by decide))
  · intro same
    have equal := (((beq_isExtensional copies).2 Script.Value.beq_symm
      (.tail _ List.mem_cons_self) List.mem_cons_self).1).mpr (.inr same)
    revert equal
    decide

end Floats

end HashTrie
