import HashTrie.Guarded.Trie
import HashTrie.TrieMap

/-!
# Guarded operations on maps

The operations on maps that search or rebuild a trie, with every step guarded.
-/

namespace HashTrie.TrieMap.Guarded

open HashTrie.Guarded

variable {κ ν : Type} [BEq κ] [Hashable κ]

/-- The stored entry of a key. -/
def getEntry? (map : TrieMap κ ν) (key : κ) : Guarded (Option (κ × ν)) :=
  Trie.Guarded.lookup key (hash key) 0 map.root

/-- Whether the key of an entry has a value equal to that of the entry. -/
def contains [BEq ν] (map : TrieMap κ ν) (entry : κ × ν) : Guarded Bool := do
  match ← getEntry? map entry.1 with
  | some stored => pure (stored.2 == entry.2)
  | none => pure false

/-- Write a value under a key with the given hash in the trie of a map. -/
def insertRoot (stamp : Stamp) (map : TrieMap κ ν) (key : κ) (hash : UInt64) (value : ν) :
    Guarded (Trie κ ν × Bool) :=
  Trie.Guarded.upsert stamp key hash (fun _ => value) 0 map.root

/-- Write a value under a key. -/
def insert (stamp : Stamp) (map : TrieMap κ ν) (key : κ) (value : ν) : Guarded (TrieMap κ ν) := do
  let (root, added) ← insertRoot stamp map key (hash key) value
  pure ⟨root, map.length + added.toNat⟩

/-- Write entries one after another. -/
def insertMany (stamp : Stamp) (map : TrieMap κ ν) (entries : List (κ × ν)) :
    Guarded (TrieMap κ ν) :=
  entries.foldlM (fun map entry => insert stamp map entry.1 entry.2) map

/-- Take out a key. -/
def erase (stamp : Stamp) (map : TrieMap κ ν) (key : κ) : Guarded (TrieMap κ ν) := do
  match ← Trie.Guarded.erase? stamp key (hash key) 0 map.root with
  | some root =>
      let length ← subtract map.length 1
      pure ⟨root, length⟩
  | none => pure map

/-- Take out keys one after another. -/
def eraseAll (stamp : Stamp) (map : TrieMap κ ν) (keys : List κ) : Guarded (TrieMap κ ν) :=
  keys.foldlM (erase stamp) map

/-- Change the value of a key that is there. -/
def update? (stamp : Stamp) (map : TrieMap κ ν) (key : κ) (function : ν → ν) :
    Guarded (Option (TrieMap κ ν)) := do
  match ← getEntry? map key with
  | some entry =>
      let (root, _) ← insertRoot stamp map entry.1 (hash key) (function entry.2)
      pure (some ⟨root, map.length⟩)
  | none => pure none

/-- Give a key the value that `updater` makes of its present one, or take it out. -/
def alter (stamp : Stamp) (map : TrieMap κ ν) (key : κ) (updater : Option ν → Option ν) :
    Guarded (TrieMap κ ν) := do
  let current ← getEntry? map key
  match current, updater (current.map Prod.snd) with
  | some entry, some value =>
      let (root, _) ← insertRoot stamp map entry.1 (hash key) value
      pure ⟨root, map.length⟩
  | some _, none => erase stamp map key
  | none, some value =>
      let (root, _) ← insertRoot stamp map key (hash key) value
      pure ⟨root, map.length + 1⟩
  | none, none => pure map

/-- Put one entry in the place of another. -/
def replace [BEq ν] (stamp : Stamp) (map : TrieMap κ ν) (current replacement : κ × ν) :
    Guarded (TrieMap κ ν) := do
  if ← contains map current then
    let erased ← erase stamp map current.1
    insert stamp erased replacement.1 replacement.2
  else pure map

/-- The entries of both maps; for a key of both, the value of the first. -/
def merge (stamp : Stamp) (map other : TrieMap κ ν) : Guarded (TrieMap κ ν) :=
  if map.isEmpty then pure other
  else ofRoot <$> Trie.Guarded.merge stamp .reuse (fun value _ => value) 0 map.root other.root

/-- The entries of both maps; for a key of both, the value that `resolve` makes of the
two. -/
def mergeWith (stamp : Stamp) (map other : TrieMap κ ν) (resolve : ν → ν → ν) :
    Guarded (TrieMap κ ν) :=
  ofRoot <$> Trie.Guarded.merge stamp .descend resolve 0 map.root other.root

end HashTrie.TrieMap.Guarded
