import HashTrie.Proofs.Maps
import HashTrie.TrieSet

/-!
# Histories of maps

A program holds any number of maps and makes new ones from those it holds
(`Makes`). Maps made from one another share nodes, so `Reachable` describes all maps
that a program holds at a time, not one map alone. Each operation has a stamp that no
node of a held map bears, which is what keeps nodes of different operations apart.

All maps of a reachable pool are well-formed (`wellFormed_of_reachable`).
-/

namespace HashTrie

/-- Maps that are held at a time, with values of any types. -/
abbrev Pool (κ : Type) := List (Sigma (TrieMap κ))

variable {κ ν : Type}

/-- No node of a pool bears a stamp. -/
def Fresh (stamp : Stamp) (pool : Pool κ) : Prop := ∀ held ∈ pool, stamp ∉ held.2.root.stamps

instance (stamp : Stamp) (pool : Pool κ) : Decidable (Fresh stamp pool) :=
  inferInstanceAs (Decidable (∀ held ∈ pool, stamp ∉ held.2.root.stamps))

variable [BEq κ] [Hashable κ]

/-- The maps that an operation with a given stamp makes from the maps of a pool. -/
inductive Makes (pool : Pool κ) (stamp : Stamp) : {ν : Type} → TrieMap κ ν → Prop where
  | empty {ν : Type} : Makes pool stamp (.empty : TrieMap κ ν)
  | singleton {ν : Type} (key : κ) (value : ν) :
      Makes pool stamp (.singleton stamp key value)
  | ofList {ν : Type} (entries : List (κ × ν)) :
      Makes pool stamp (.ofList stamp entries)
  | insert {ν : Type} {map : TrieMap κ ν} (held : ⟨ν, map⟩ ∈ pool) (key : κ) (value : ν) :
      Makes pool stamp (map.insert stamp key value)
  | insertEntry {ν : Type} {map : TrieMap κ ν} (held : ⟨ν, map⟩ ∈ pool) (entry : κ × ν) :
      Makes pool stamp (map.insertEntry stamp entry)
  | erase {ν : Type} {map : TrieMap κ ν} (held : ⟨ν, map⟩ ∈ pool) (key : κ) :
      Makes pool stamp (map.erase stamp key)
  | eraseAll {ν : Type} {map : TrieMap κ ν} (held : ⟨ν, map⟩ ∈ pool) (keys : List κ) :
      Makes pool stamp (map.eraseAll stamp keys)
  | update {ν : Type} {map after : TrieMap κ ν} (held : ⟨ν, map⟩ ∈ pool) (key : κ)
      (function : ν → ν) (updated : map.update? stamp key function = some after) :
      Makes pool stamp after
  | alter {ν : Type} {map : TrieMap κ ν} (held : ⟨ν, map⟩ ∈ pool) (key : κ)
      (updater : Option ν → Option ν) :
      Makes pool stamp (map.alter stamp key updater)
  | replace {ν : Type} [BEq ν] {map : TrieMap κ ν} (held : ⟨ν, map⟩ ∈ pool)
      (current replacement : κ × ν) :
      Makes pool stamp (map.replace stamp current replacement)
  | merge {ν : Type} {map other : TrieMap κ ν} (held : ⟨ν, map⟩ ∈ pool)
      (otherHeld : ⟨ν, other⟩ ∈ pool) :
      Makes pool stamp (map.merge stamp other)
  | mergeWith {ν : Type} {map other : TrieMap κ ν} (held : ⟨ν, map⟩ ∈ pool)
      (otherHeld : ⟨ν, other⟩ ∈ pool) (resolve : ν → ν → ν) :
      Makes pool stamp (map.mergeWith stamp other resolve)
  | mapValues {ν ω : Type} {map : TrieMap κ ν} (held : ⟨ν, map⟩ ∈ pool) (function : ν → ω) :
      Makes pool stamp (map.mapValues stamp function)
  | keySet {ν : Type} {map : TrieMap κ ν} (held : ⟨ν, map⟩ ∈ pool) :
      Makes pool stamp (map.keySet stamp).map

/-- The pools that come about by a finite sequence of operations, each with a stamp
of its own. -/
inductive Reachable : Pool κ → Prop where
  | nil : Reachable []
  | cons {pool : Pool κ} {stamp : Stamp} {ν : Type} {map : TrieMap κ ν}
      (reachable : Reachable pool) (fresh : Fresh stamp pool) (made : Makes pool stamp map) :
      Reachable (⟨ν, map⟩ :: pool)

omit [BEq κ] [Hashable κ] in
theorem fresh_nil (stamp : Stamp) : Fresh stamp ([] : Pool κ) := by
  intro held member
  cases member

/-- A program may begin by collecting a map. -/
theorem Reachable.ofList (stamp : Stamp) (entries : List (κ × ν)) :
    Reachable [⟨ν, .ofList stamp entries⟩] :=
  .cons .nil (fresh_nil stamp) (.ofList entries)

variable [EquivBEq κ] {pool : Pool κ} {stamp : Stamp}

/-- One operation makes a well-formed map from well-formed maps. -/
theorem Makes.wellFormed {map : TrieMap κ ν} (made : Makes pool stamp map)
    (fresh : Fresh stamp pool)
    (sound : ∀ {ν : Type} {map : TrieMap κ ν}, ⟨ν, map⟩ ∈ pool → map.WellFormed) :
    map.WellFormed := by
  cases made with
  | empty => exact TrieMap.wellFormed_empty
  | singleton key value => exact TrieMap.wellFormed_empty.insert key value
  | ofList entries => exact TrieMap.wellFormed_empty.insertMany entries
  | insert held key value => exact (sound held).insert key value
  | insertEntry held entry => exact (sound held).insert entry.1 entry.2
  | erase held key => exact (sound held).erase key
  | eraseAll held keys => exact (sound held).eraseAll keys
  | update held key function updated => exact (sound held).update? updated
  | alter held key updater => exact (sound held).alter key updater
  | replace held current replacement => exact (sound held).replace current replacement
  | merge held otherHeld => exact (sound held).merge (sound otherHeld) (fresh _ held)
  | mergeWith held otherHeld resolve =>
      exact (sound held).mergeWith (sound otherHeld) (fresh _ held) resolve
  | mapValues held function => exact (sound held).mapValues function
  | keySet held => exact (sound held).mapValues fun _ => ()

/-- A sequence of operations makes well-formed maps. -/
theorem Reachable.sound (reachable : Reachable pool) {map : TrieMap κ ν}
    (held : ⟨ν, map⟩ ∈ pool) : map.WellFormed := by
  induction reachable generalizing ν with
  | nil => cases held
  | cons _ fresh made ih =>
      cases held with
      | head => exact made.wellFormed fresh ih
      | tail _ held => exact ih held

/-- **The representation invariant.** Every map that a program holds after any sequence
of operations is well-formed, whatever nodes it shares with the others. -/
theorem wellFormed_of_reachable (reachable : Reachable pool) {map : TrieMap κ ν}
    (held : ⟨ν, map⟩ ∈ pool) : map.WellFormed :=
  reachable.sound held

omit [BEq κ] [Hashable κ] [EquivBEq κ] in
/-- The keys 0 and 2^64 have one and the same hash, and 32 has the same first digit:
one map shares a run with another, and taking out 32 brings the run up to the root. -/
theorem wellFormed_of_collisions :
    let left : TrieMap Nat Nat := .ofList (.ofNat 0) [(0, 1), (32, 2)]
    let twin := 0x10000000000000000
    let right := left.insert (.ofNat 1) twin 3
    let merged := right.mergeWith (.ofNat 2) left (· + ·)
    let erased := merged.erase (.ofNat 3) 32
    Reachable [⟨Nat, erased⟩, ⟨Nat, merged⟩, ⟨Nat, right⟩, ⟨Nat, left⟩] ∧
      erased.WellFormed := by
  intro left twin right merged erased
  have first : Reachable [⟨Nat, left⟩] := .cons .nil (by decide) (.ofList _)
  have second : Reachable [⟨Nat, right⟩, ⟨Nat, left⟩] :=
    .cons first (by decide) (.insert List.mem_cons_self twin 3)
  have third : Reachable [⟨Nat, merged⟩, ⟨Nat, right⟩, ⟨Nat, left⟩] :=
    .cons second (by decide)
      (.mergeWith List.mem_cons_self (List.mem_cons_of_mem _ List.mem_cons_self) (· + ·))
  have fourth : Reachable [⟨Nat, erased⟩, ⟨Nat, merged⟩, ⟨Nat, right⟩, ⟨Nat, left⟩] :=
    .cons third (by decide) (.erase List.mem_cons_self 32)
  exact ⟨fourth, wellFormed_of_reachable fourth List.mem_cons_self⟩

end HashTrie
