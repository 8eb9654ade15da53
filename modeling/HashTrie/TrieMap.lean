import HashTrie.Error
import HashTrie.Traversal.Basic
import HashTrie.Trie.Erase
import HashTrie.Trie.Gathered
import HashTrie.Trie.Merge

/-!
# Maps

An immutable map from keys to values. Every operation leaves its operands as they
are and shares with them what it does not change. Iteration follows the digits of
the hashes, so it does not depend on how a map came about, save for the order of
keys with one and the same hash.

An operation that may build nodes takes the stamp to put on them.
-/

namespace HashTrie

/-- An immutable map: a trie and the number of its entries. -/
structure TrieMap (κ ν : Type) where
  root : Trie κ ν
  length : Nat
deriving Inhabited

namespace TrieMap

variable {κ ν ω : Type}

/-- The map without entries. -/
def empty : TrieMap κ ν := ⟨.empty, 0⟩

/-- The map of a trie, which counts its own entries. -/
def ofRoot (root : Trie κ ν) : TrieMap κ ν := ⟨root, root.size⟩

/-- Whether the map has no entries. -/
def isEmpty (map : TrieMap κ ν) : Bool := map.length == 0

/-- The map with every entry taken out. -/
def clear (_ : TrieMap κ ν) : TrieMap κ ν := empty

/-- Whether two maps have one and the same root. Maps without entries always do, as
their roots are not told apart. -/
def sharesRoot (map other : TrieMap κ ν) : Bool := map.root.same other.root

/-- The entries in iteration order. -/
def toList (map : TrieMap κ ν) : List (κ × ν) := map.root.toList

/-- The keys in iteration order. -/
def keys (map : TrieMap κ ν) : List κ := map.toList.map Prod.fst

/-- The values in iteration order. -/
def values (map : TrieMap κ ν) : List ν := map.toList.map Prod.snd

/-- A lazy iteration over the entries. -/
def cursor (map : TrieMap κ ν) : Trie.Cursor κ ν := .start map.root

/-- An iteration over copies of the entries. -/
def gathered (map : TrieMap κ ν) : Trie.Gathered κ ν := .ofCursor map.cursor

/-- Act on every entry in iteration order. -/
def forM {m : Type → Type} [Monad m] (map : TrieMap κ ν) (action : κ → ν → m Unit) : m Unit :=
  map.toList.forM fun entry => action entry.1 entry.2

/-- What an observer makes of the first entry, beside the map itself. -/
def peek {β : Type} (map : TrieMap κ ν) (observe : κ → ν → β) : Option β × TrieMap κ ν :=
  (map.cursor.next.1.map fun entry => observe entry.1 entry.2, map)

/-- Apply a function to the whole map. -/
def transform {β : Type} (map : TrieMap κ ν) (function : TrieMap κ ν → β) : β := function map

instance : EntrySequence (TrieMap κ ν) κ ν where
  entries := toList
  entryCount := length

section Lookup

variable [BEq κ] [Hashable κ]

/-- The stored entry of a key. -/
def getEntry? (map : TrieMap κ ν) (key : κ) : Option (κ × ν) :=
  map.root.lookup key (hash key) 0

/-- The value of a key. -/
def get? (map : TrieMap κ ν) (key : κ) : Option ν := (map.getEntry? key).map Prod.snd

/-- The value of a key that has to be there. -/
def apply (map : TrieMap κ ν) (key : κ) : Except MapError ν :=
  match map.get? key with
  | some value => .ok value
  | none => .error .keyNotFound

/-- Whether a key is in the map. -/
def containsKey (map : TrieMap κ ν) (key : κ) : Bool := (map.getEntry? key).isSome

/-- Whether some key has a value equal to the given one. -/
def containsValue [BEq ν] (map : TrieMap κ ν) (value : ν) : Bool :=
  map.values.any (· == value)

/-- Whether the key of an entry has a value equal to that of the entry. -/
def contains [BEq ν] (map : TrieMap κ ν) (entry : κ × ν) : Bool :=
  match map.get? entry.1 with
  | some value => value == entry.2
  | none => false

/-- Maps that share their root are equal; others are if they have equally many
entries and every entry of the first is in the second. -/
protected def beq [BEq ν] (map other : TrieMap κ ν) : Bool :=
  map.sharesRoot other || (map.length == other.length && map.toList.all other.contains)

instance [BEq ν] : BEq (TrieMap κ ν) := ⟨TrieMap.beq⟩

end Lookup

section Update

variable [BEq κ] [Hashable κ]

/-- Write a value under a key. The key given is the one stored. -/
def insert (stamp : Stamp) (map : TrieMap κ ν) (key : κ) (value : ν) : TrieMap κ ν :=
  let (root, added) := map.root.insert stamp key (hash key) value
  ⟨root, if added then map.length + 1 else map.length⟩

/-- Write an entry. -/
def insertEntry (stamp : Stamp) (map : TrieMap κ ν) (entry : κ × ν) : TrieMap κ ν :=
  map.insert stamp entry.1 entry.2

/-- Write entries one after another. -/
def insertMany (stamp : Stamp) (map : TrieMap κ ν) (entries : List (κ × ν)) : TrieMap κ ν :=
  entries.foldl (insertEntry stamp) map

/-- The map of one entry. -/
def singleton (stamp : Stamp) (key : κ) (value : ν) : TrieMap κ ν :=
  (empty : TrieMap κ ν).insert stamp key value

/-- The map of the given entries; of entries with equal keys the last one counts. -/
def ofList (stamp : Stamp) (entries : List (κ × ν)) : TrieMap κ ν :=
  (empty : TrieMap κ ν).insertMany stamp entries

instance : Collection (TrieMap κ ν) κ ν where
  collect := ofList

/-- Take out a key. Without the key the map is the same one. -/
def erase (stamp : Stamp) (map : TrieMap κ ν) (key : κ) : TrieMap κ ν :=
  match map.root.erase? stamp key (hash key) 0 with
  | some root => ⟨root, map.length - 1⟩
  | none => map

/-- Take out keys one after another. -/
def eraseAll (stamp : Stamp) (map : TrieMap κ ν) (keys : List κ) : TrieMap κ ν :=
  keys.foldl (erase stamp) map

/-- Change the value of a key that is there; the stored key stays. -/
def update? (stamp : Stamp) (map : TrieMap κ ν) (key : κ) (function : ν → ν) :
    Option (TrieMap κ ν) :=
  (map.getEntry? key).map fun entry =>
    ⟨(map.root.insert stamp entry.1 (hash key) (function entry.2)).1, map.length⟩

/-- Give a key the value that `updater` makes of its present one, if any, or take
the key out if that is none. A key that is there stays the stored one. -/
def alter (stamp : Stamp) (map : TrieMap κ ν) (key : κ) (updater : Option ν → Option ν) :
    TrieMap κ ν :=
  let current := map.getEntry? key
  match current, updater (current.map Prod.snd) with
  | some entry, some value =>
      ⟨(map.root.insert stamp entry.1 (hash key) value).1, map.length⟩
  | some _, none => map.erase stamp key
  | none, some value => ⟨(map.root.insert stamp key (hash key) value).1, map.length + 1⟩
  | none, none => map

/-- Put one entry in the place of another, which has to be in the map with just
that value; otherwise the map is the same one. -/
def replace [BEq ν] (stamp : Stamp) (map : TrieMap κ ν) (current replacement : κ × ν) :
    TrieMap κ ν :=
  if map.contains current then
    (map.erase stamp current.1).insert stamp replacement.1 replacement.2
  else map

/-- The entries of both maps; for a key of both, the value of the first. What the
maps share is not visited. -/
def merge (stamp : Stamp) (map other : TrieMap κ ν) : TrieMap κ ν :=
  if map.isEmpty then other
  else ofRoot (map.root.merge stamp .reuse (fun value _ => value) 0 other.root)

/-- The entries of both maps; for a key of both, the value that `resolve` makes of
the two. -/
def mergeWith (stamp : Stamp) (map other : TrieMap κ ν) (resolve : ν → ν → ν) :
    TrieMap κ ν :=
  ofRoot (map.root.merge stamp .descend resolve 0 other.root)

end Update

/-- The map with every value mapped, in the same shape. -/
def mapValues (stamp : Stamp) (map : TrieMap κ ν) (function : ν → ω) : TrieMap κ ω :=
  ⟨map.root.mapValues stamp function, map.length⟩

/-- The map itself, whose keys are distinct anyway. -/
def distinct (map : TrieMap κ ν) : TrieMap κ ν := map

end TrieMap

end HashTrie
