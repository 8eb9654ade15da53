import Mathlib.Data.Nat.Basic
import HashTrie.Proofs.Maps

/-!
# Maps as dictionaries

A dictionary is a finite map without hashes and without nodes: a list of entries with
pairwise unequal keys. It keeps the order in which the keys were added; a key that is
written again keeps its place, and a key that is taken out and added again goes to the
end. A map to which some edits have been applied answers every question as the
dictionary does to which the same edits have been applied (`ofEdits_sameAnswers`).

The proof compares the two hash by hash (`Represents`). A trie lists the entries of
one hash next to each other, in the order of the dictionary; how it orders the hashes
does not matter here.
-/

namespace HashTrie

variable {κ ν : Type}

/-- One change of a map by a caller. -/
inductive Edit (κ ν : Type) where
  | insert (key : κ) (value : ν)
  | insertEntry (entry : κ × ν)
  | erase (key : κ)
  | eraseAll (keys : List κ)
  | update (key : κ) (function : ν → ν)
  | alter (key : κ) (updater : Option ν → Option ν)
  | replace (current replacement : κ × ν)

/-- A finite map, in the order in which its keys were added. -/
structure Dictionary (κ ν : Type) [BEq κ] where
  entries : List (κ × ν)
  distinct : Run.Distinct entries

variable [BEq κ]

namespace Dictionary

/-- The dictionary without entries. -/
def empty : Dictionary κ ν := ⟨[], List.Pairwise.nil⟩

/-- The entry of a key. -/
def getEntry? (dictionary : Dictionary κ ν) (key : κ) : Option (κ × ν) :=
  dictionary.entries.find? (·.1 == key)

/-- The value of a key. -/
def get? (dictionary : Dictionary κ ν) (key : κ) : Option ν :=
  (dictionary.getEntry? key).map Prod.snd

/-- Whether a key is there. -/
def containsKey (dictionary : Dictionary κ ν) (key : κ) : Bool :=
  dictionary.entries.any (·.1 == key)

/-- Whether an entry is there with just its value. -/
def contains [BEq ν] (dictionary : Dictionary κ ν) (entry : κ × ν) : Bool :=
  dictionary.entries.any fun other => other.1 == entry.1 && other.2 == entry.2

/-- Whether some key has a value. -/
def containsValue [BEq ν] (dictionary : Dictionary κ ν) (value : ν) : Bool :=
  dictionary.entries.any (·.2 == value)

/-- The value of a key that has to be there. -/
def apply (dictionary : Dictionary κ ν) (key : κ) : Except MapError ν :=
  (dictionary.get? key).elim (.error .keyNotFound) .ok

/-- The number of entries. -/
def length (dictionary : Dictionary κ ν) : Nat := dictionary.entries.length

/-- Whether there are no entries. -/
def isEmpty (dictionary : Dictionary κ ν) : Bool := dictionary.entries.isEmpty

section Edits

variable [EquivBEq κ]

/-- Write a value under a key: in the place of the key if it is there, else at the end. -/
def insert (dictionary : Dictionary κ ν) (key : κ) (value : ν) : Dictionary κ ν where
  entries :=
    if dictionary.containsKey key then
      dictionary.entries.map fun entry => if entry.1 == key then (key, value) else entry
    else dictionary.entries ++ [(key, value)]
  distinct := by
    have written := dictionary.distinct.upsert key fun _ => value
    rwa [Run.upsert_eq key dictionary.distinct, Run.find?, List.isSome_find?] at written

/-- Inserting is writing to the list of all entries. -/
theorem entries_insert (dictionary : Dictionary κ ν) (key : κ) (value : ν) :
    (dictionary.insert key value).entries =
      (Run.upsert key (fun _ => value) dictionary.entries).1 := by
  rw [Run.upsert_eq key dictionary.distinct, Run.find?, List.isSome_find?]
  rfl

/-- Take out a key. -/
def erase (dictionary : Dictionary κ ν) (key : κ) : Dictionary κ ν where
  entries := dictionary.entries.filter fun entry => !entry.1 == key
  distinct := dictionary.distinct.sublist List.filter_sublist

/-- Change the value of a key that is there; the stored key stays. -/
def update (dictionary : Dictionary κ ν) (key : κ) (function : ν → ν) : Dictionary κ ν :=
  match dictionary.getEntry? key with
  | some (stored, value) => dictionary.insert stored (function value)
  | none => dictionary

/-- Give a key the value made of its present one, if any, or take it out. A key that
is there stays the stored one. -/
def alter (dictionary : Dictionary κ ν) (key : κ) (updater : Option ν → Option ν) :
    Dictionary κ ν :=
  match dictionary.getEntry? key with
  | some (stored, value) =>
      match updater (some value) with
      | some changed => dictionary.insert stored changed
      | none => dictionary.erase key
  | none =>
      match updater none with
      | some added => dictionary.insert key added
      | none => dictionary

/-- Put one entry in the place of another that is there. -/
def replace [BEq ν] (dictionary : Dictionary κ ν) (current replacement : κ × ν) :
    Dictionary κ ν :=
  if dictionary.contains current then
    (dictionary.erase current.1).insert replacement.1 replacement.2
  else dictionary

/-- Apply an edit. -/
def edit [BEq ν] (dictionary : Dictionary κ ν) : Edit κ ν → Dictionary κ ν
  | .insert key value => dictionary.insert key value
  | .insertEntry entry => dictionary.insert entry.1 entry.2
  | .erase key => dictionary.erase key
  | .eraseAll keys => keys.foldl erase dictionary
  | .update key function => dictionary.update key function
  | .alter key updater => dictionary.alter key updater
  | .replace current replacement => dictionary.replace current replacement

/-- The dictionary after some edits, in their order. -/
def ofEdits [BEq ν] (edits : List (Edit κ ν)) : Dictionary κ ν := edits.foldl edit empty

end Edits

end Dictionary

namespace TrieMap

variable [Hashable κ] [BEq ν]

/-- Apply an edit. An update of a key that is not there gives no map; the caller then
goes on with the map that it has. -/
def edit (stamp : Stamp) (map : TrieMap κ ν) : Edit κ ν → TrieMap κ ν
  | .insert key value => map.insert stamp key value
  | .insertEntry entry => map.insertEntry stamp entry
  | .erase key => map.erase stamp key
  | .eraseAll keys => map.eraseAll stamp keys
  | .update key function => (map.update? stamp key function).getD map
  | .alter key updater => map.alter stamp key updater
  | .replace current replacement => map.replace stamp current replacement

/-- The map after some edits, in their order, each with its stamp. -/
def ofEdits (edits : List (Stamp × Edit κ ν)) : TrieMap κ ν :=
  edits.foldl (fun map step => map.edit step.1 step.2) empty

end TrieMap

/-- A map lists the entries of each hash as a dictionary does. -/
structure Represents [Hashable κ] (map : TrieMap κ ν) (dictionary : Dictionary κ ν) : Prop where
  wellFormed : map.WellFormed
  runs : ∀ code, runOf code map.toList = runOf code dictionary.entries

namespace Represents

variable [Hashable κ] [LawfulHashable κ] {map : TrieMap κ ν} {dictionary : Dictionary κ ν}
  {stamp : Stamp}

omit [LawfulHashable κ] in
theorem empty : Represents (.empty : TrieMap κ ν) .empty := ⟨TrieMap.wellFormed_empty, fun _ => rfl⟩

theorem getEntry?_eq (represents : Represents map dictionary) (key : κ) :
    map.getEntry? key = dictionary.getEntry? key := by
  rw [represents.wellFormed.getEntry?_eq_find?, represents.runs, find?_runOf]
  rfl

variable [EquivBEq κ]

protected theorem insert (represents : Represents map dictionary) (key : κ) (value : ν) :
    Represents (map.insert stamp key value) (dictionary.insert key value) := by
  have written := represents.wellFormed.insert_written stamp key value
  refine ⟨represents.wellFormed.insert key value, ?_⟩
  intro code
  rw [Dictionary.entries_insert, runOf_upsert]
  split
  · rename_i same
    rw [same, written.run, represents.runs]
  · rename_i different
    rw [written.others code different, represents.runs]

protected theorem erase (represents : Represents map dictionary) (key : κ) :
    Represents (map.erase stamp key) (dictionary.erase key) := by
  refine ⟨represents.wellFormed.erase key, ?_⟩
  intro code
  rw [represents.wellFormed.runOf_erase, represents.runs]
  exact (runOf_filter _ _).symm

theorem eraseAll (represents : Represents map dictionary) (keys : List κ) :
    Represents (map.eraseAll stamp keys) (keys.foldl Dictionary.erase dictionary) := by
  induction keys generalizing map dictionary with
  | nil => exact represents
  | cons key keys ih => exact ih (represents.erase key)

theorem update (represents : Represents map dictionary) (key : κ) (function : ν → ν) :
    Represents ((map.update? stamp key function).getD map) (dictionary.update key function) := by
  rw [represents.wellFormed.update?_eq, represents.getEntry?_eq, Dictionary.update]
  cases dictionary.getEntry? key with
  | none => exact represents
  | some entry => exact represents.insert entry.1 (function entry.2)

theorem alter (represents : Represents map dictionary) (key : κ)
    (updater : Option ν → Option ν) :
    Represents (map.alter stamp key updater) (dictionary.alter key updater) := by
  rw [represents.wellFormed.alter_eq, represents.getEntry?_eq, Dictionary.alter]
  cases dictionary.getEntry? key with
  | none =>
      rw [Option.map_none]
      cases updater none with
      | none => exact represents
      | some added => exact represents.insert key added
  | some entry =>
      rw [Option.map_some]
      dsimp only
      cases updater (some entry.2) with
      | none => exact represents.erase key
      | some changed => exact represents.insert entry.1 changed

omit [EquivBEq κ] in
theorem get?_eq (represents : Represents map dictionary) (key : κ) :
    map.get? key = dictionary.get? key :=
  congrArg (Option.map Prod.snd) (represents.getEntry?_eq key)

theorem contains_eq [BEq ν] (represents : Represents map dictionary) (entry : κ × ν) :
    map.contains entry = dictionary.contains entry := by
  rw [Dictionary.contains, dictionary.distinct.any_and_eq, TrieMap.contains, represents.get?_eq,
    Dictionary.get?, Dictionary.getEntry?]
  cases found : List.find? (fun other => other.1 == entry.1) dictionary.entries <;>
    simp [Run.find?, found]

theorem replace [BEq ν] (represents : Represents map dictionary) (current replacement : κ × ν) :
    Represents (map.replace stamp current replacement)
      (dictionary.replace current replacement) := by
  rw [TrieMap.replace, Dictionary.replace, represents.contains_eq]
  split
  · exact (represents.erase current.1).insert replacement.1 replacement.2
  · exact represents

/-- An edit of both keeps a map and a dictionary together. -/
theorem edit [BEq ν] (represents : Represents map dictionary) (change : Edit κ ν) :
    Represents (map.edit stamp change) (dictionary.edit change) := by
  cases change with
  | insert key value => exact represents.insert key value
  | insertEntry entry => exact represents.insert entry.1 entry.2
  | erase key => exact represents.erase key
  | eraseAll keys => exact represents.eraseAll keys
  | update key function => exact represents.update key function
  | alter key updater => exact represents.alter key updater
  | replace current replacement => exact represents.replace current replacement

/-- **Edits.** Some edits, applied to the empty map and the empty dictionary, keep the
two together. -/
theorem ofEdits [BEq ν] (edits : List (Stamp × Edit κ ν)) :
    Represents (TrieMap.ofEdits edits) (Dictionary.ofEdits (edits.map Prod.snd)) := by
  -- a run may start from any map and dictionary that are together already
  have run {map : TrieMap κ ν} {dictionary : Dictionary κ ν}
      (represents : Represents map dictionary) :
      Represents (edits.foldl (fun map step => map.edit step.1 step.2) map)
        ((edits.map Prod.snd).foldl Dictionary.edit dictionary) := by
    induction edits generalizing map dictionary with
    | nil => exact represents
    | cons step edits ih => exact ih (represents.edit step.2)
  exact run .empty

end Represents

section Answers

variable [Hashable κ] [BEq ν] {map : TrieMap κ ν} {dictionary : Dictionary κ ν}

/-- A map answers every question as a dictionary does, and it lets itself be updated
exactly where the dictionary has the key. -/
structure SameAnswers (map : TrieMap κ ν) (dictionary : Dictionary κ ν) : Prop where
  get? : ∀ key, map.get? key = dictionary.get? key
  containsKey : ∀ key, map.containsKey key = dictionary.containsKey key
  contains : ∀ entry, map.contains entry = dictionary.contains entry
  containsValue : ∀ value, map.containsValue value = dictionary.containsValue value
  apply : ∀ key, map.apply key = dictionary.apply key
  length : map.length = dictionary.length
  isEmpty : map.isEmpty = dictionary.isEmpty
  update? : ∀ stamp key function,
    (map.update? stamp key function).isSome = dictionary.containsKey key

variable [LawfulHashable κ] [EquivBEq κ]

theorem Represents.sameAnswers (represents : Represents map dictionary) :
    SameAnswers map dictionary := by
  have entries : map.toList.Perm dictionary.entries := perm_of_runOf represents.runs
  have lengths : map.length = dictionary.length :=
    represents.wellFormed.length.trans entries.length_eq
  have found (key : κ) : (dictionary.getEntry? key).isSome = dictionary.containsKey key :=
    List.isSome_find?
  refine ⟨represents.get?_eq, ?_, represents.contains_eq, ?_, ?_, lengths, ?_, ?_⟩
  · intro key
    rw [TrieMap.containsKey, represents.getEntry?_eq, found]
  · intro value
    rw [TrieMap.containsValue, TrieMap.values, List.any_map, entries.any_eq]
    rfl
  · intro key
    rw [TrieMap.apply, represents.get?_eq, Dictionary.apply]
    cases dictionary.get? key <;> rfl
  · rw [TrieMap.isEmpty, lengths, Dictionary.length, Dictionary.isEmpty]
    cases dictionary.entries <;> rfl
  · intro stamp key function
    rw [represents.wellFormed.update?_eq, Option.isSome_map, represents.getEntry?_eq, found]

/-- **Maps are dictionaries.** After any edits, applied one after another from the empty
map on, a map answers every question as the dictionary with the same edits does. -/
theorem ofEdits_sameAnswers (edits : List (Stamp × Edit κ ν)) :
    SameAnswers (TrieMap.ofEdits edits) (Dictionary.ofEdits (edits.map Prod.snd)) :=
  (Represents.ofEdits edits).sameAnswers

omit [BEq κ] [Hashable κ] [BEq ν] [LawfulHashable κ] [EquivBEq κ] in
/-- The keys 0 and 2^64 have one hash, and 32 differs from it in the second digit. The
update fails, and the replacement overwrites an entry. -/
theorem sameAnswers_of_collisions :
    let twin := 0x10000000000000000
    let edits : List (Stamp × Edit Nat Nat) :=
      [(.ofNat 0, .insert 0 1), (.ofNat 1, .insert twin 2), (.ofNat 2, .insertEntry (32, 3)),
        (.ofNat 3, .update 7 (· + 1)), (.ofNat 4, .replace (0, 1) (32, 4)),
        (.ofNat 5, .alter 64 fun _ => none), (.ofNat 6, .eraseAll [5, 6])]
    SameAnswers (TrieMap.ofEdits edits) (Dictionary.ofEdits (edits.map Prod.snd)) ∧
      (TrieMap.ofEdits edits).toList = [(twin, 2), (32, 4)] :=
  ⟨ofEdits_sameAnswers _, by decide⟩

end Answers

end HashTrie
