import HashTrie.Run
import HashTrie.Traversal.Basic

/-!
# Grouping

The entries of a sequence sorted into classes. The classes stand in the order in
which they first occur, and each group keeps the order of the source. A group is
found by the position that its class was given when the group was opened.
-/

namespace HashTrie.Traversal

/-- Groups that are being filled, and the position of the group of each class. -/
structure Grouping (γ α : Type) where
  groups : List (γ × List α)
  positions : List (γ × Nat)

namespace Grouping

variable {γ α ε : Type}

/-- No groups. -/
def empty : Grouping γ α := ⟨[], []⟩

variable [BEq γ]

/-- The position of the group of a class. The group is opened at the end if it is
not there yet. -/
def place (grouping : Grouping γ α) (label : γ) : Nat × Grouping γ α :=
  match Run.find? grouping.positions label with
  | some (_, position) => (position, grouping)
  | none =>
      let position := grouping.groups.length
      (position,
        { groups := grouping.groups ++ [(label, [])]
          positions := (Run.upsert label (fun _ => position) grouping.positions).1 })

theorem place_of_known {grouping : Grouping γ α} {label mark : γ} {position : Nat}
    (found : Run.find? grouping.positions label = some (mark, position)) :
    grouping.place label = (position, grouping) := by
  rw [place, found]

theorem place_of_new {grouping : Grouping γ α} {label : γ}
    (missing : Run.find? grouping.positions label = none) :
    grouping.place label = (grouping.groups.length,
      ⟨grouping.groups ++ [(label, [])],
        (Run.upsert label (fun _ => grouping.groups.length) grouping.positions).1⟩) := by
  rw [place, missing]

/-- Put an element into the group of its class. -/
def add (grouping : Grouping γ α) (element : α) (label : γ) : Grouping γ α :=
  let (position, placed) := grouping.place label
  { placed with
    groups := placed.groups.modify position fun group => (group.1, group.2 ++ [element]) }

/-- Put elements into the groups of their classes until one cannot be classified. -/
def addAll (classify : α → Except ε γ) (grouping : Grouping γ α) :
    List α → Except ε (Grouping γ α)
  | [] => .ok grouping
  | element :: rest =>
      match classify element with
      | .error reason => .error reason
      | .ok label => addAll classify (grouping.add element label) rest

end Grouping

variable {σ δ κ ν γ Γ ε : Type} [EntrySequence σ κ ν] [Collection δ κ ν]

/-- The containers of the groups, collected in turn. -/
def collectGroups (stamp : Stamp) (groups : List (γ × List (κ × ν))) : List (γ × δ) :=
  groups.mapIdx fun index group => (group.1, collect (stamp.part index) group.2)

/-- The entries of each class, or the reason why the first entry without a class
has none. -/
def tryGroupBy [BEq γ] [Collection Γ γ δ] (stamp : Stamp) (source : σ)
    (classify : κ × ν → Except ε γ) : Except ε Γ :=
  (Grouping.empty.addAll classify (entries source)).map fun grouping =>
    collect stamp (collectGroups stamp grouping.groups)

/-- The entries of each class. -/
def groupBy [BEq γ] [Collection Γ γ δ] (stamp : Stamp) (source : σ) (classify : κ × ν → γ) : Γ :=
  match tryGroupBy stamp source fun entry => (.ok (classify entry) : Except Empty γ) with
  | .ok groups => groups
  | .error never => nomatch never

end HashTrie.Traversal
