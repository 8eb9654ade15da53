/-!
# Runs

The entries of a leaf: those whose keys have one and the same hash, in the order
in which their keys were added.
-/

namespace HashTrie

/-- Entries whose keys have one hash. -/
abbrev Run (κ ν : Type) := List (κ × ν)

namespace Run

variable {κ ν : Type} [BEq κ]

/-- The entry stored under a key. -/
def find? (run : Run κ ν) (key : κ) : Option (κ × ν) :=
  List.find? (fun entry => entry.1 == key) run

/-- Write the value that `resolve` makes of the stored one. An entry under an
equal key keeps its place and takes the new key; a new key goes to the end. The
flag tells whether the key is new. -/
def upsert (key : κ) (resolve : Option ν → ν) : Run κ ν → Run κ ν × Bool
  | [] => ([(key, resolve none)], true)
  | (stored, value) :: rest =>
      if stored == key then ((key, resolve (some value)) :: rest, false)
      else
        let (rest, added) := upsert key resolve rest
        ((stored, value) :: rest, added)

/-- Take out the entry under a key, if there is one. -/
def erase? (key : κ) : Run κ ν → Option (Run κ ν)
  | [] => none
  | (stored, value) :: rest =>
      if stored == key then some rest
      else (erase? key rest).map ((stored, value) :: ·)

end Run

end HashTrie
