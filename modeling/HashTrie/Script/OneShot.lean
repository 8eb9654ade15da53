import HashTrie.Script.Query
import HashTrie.Script.Refusal
import HashTrie.SortedMap
import HashTrie.Traversal.Grouping

/-!
# One-shot traversals

A one-shot traversal collects its source from entries, puts one query to it and shows
the result. Source and result can be containers of different kinds.
-/

namespace HashTrie.Script

/-- The kinds of container that hold entries. -/
inductive ContainerKind where
  | hashed
  | sorted
  | plain

namespace ContainerKind

/-- The containers of a kind. -/
def Carrier : ContainerKind → Type
  | .hashed => TrieMap Key Value
  | .sorted => SortedMap Key Value
  | .plain => List Entry

instance : (kind : ContainerKind) → EntrySequence kind.Carrier Key Value
  | .hashed => inferInstanceAs (EntrySequence (TrieMap Key Value) Key Value)
  | .sorted => inferInstanceAs (EntrySequence (SortedMap Key Value) Key Value)
  | .plain => inferInstanceAs (EntrySequence (List Entry) Key Value)

instance : (kind : ContainerKind) → Collection kind.Carrier Key Value
  | .hashed => inferInstanceAs (Collection (TrieMap Key Value) Key Value)
  | .sorted => inferInstanceAs (Collection (SortedMap Key Value) Key Value)
  | .plain => inferInstanceAs (Collection (List Entry) Key Value)

end ContainerKind

/-- What a one-shot traversal does with its source. -/
inductive Task where
  | entries
  | query (query : Query)
  | groupBy (classifier : Classifier)
  | tryGroupBy (classifier : Classifier)

/-- The task of the given name that a request writes. -/
def Task.ofRequest? (name : String) (request : Json) : Option Task :=
  match name with
  | "entries" => some .entries
  | "group_by" => (argument? Classifier.ofJson? "f" request).map .groupBy
  | "try_group_by" => (argument? Classifier.ofJson? "f" request).map .tryGroupBy
  | name => (Query.ofRequest? "elements" name request).map .query

/-- Groups with their classes, in JSON. -/
def groupsJson {δ : Type} [EntrySequence δ Key Value] (groups : List (Key × δ)) : Json :=
  .arr (groups.map fun group => .arr [group.1.toJson, entryListing group.2])

/-- What an outcome shows. -/
def Outcome.show {δ : Type} [EntrySequence δ Key Value] : Outcome δ → Except Refusal Json
  | .container result => .ok (entryListing result)
  | .maybe result => .ok (orNull (result.map entryListing))
  | .pair first second => .ok (.arr [entryListing first, entryListing second])
  | .parts results => .ok (.arr (results.map entryListing))
  | .answer json => .ok json
  | .refused error => .error (.map error)

variable {σ : Type} [EntrySequence σ Key Value]

/-- The result of a task, collected into containers of a kind. -/
def Task.perform (stamp : Stamp) (source : σ) (target : ContainerKind) :
    Task → Except Refusal Json
  | .entries => .ok (entryListing source)
  | .query question => (question.outcome stamp source : Outcome target.Carrier).show
  | .groupBy classifier =>
      let seen : List (Key × target.Carrier) :=
        Traversal.groupBy stamp source classifier.classOf
      let hashed : TrieMap Key target.Carrier :=
        Traversal.groupBy stamp source classifier.classOf
      .ok (.obj [("hashed", groupsJson hashed.toList), ("seen", groupsJson seen)])
  | .tryGroupBy classifier =>
      let groups : Except String (List (Key × target.Carrier)) :=
        Traversal.tryGroupBy stamp source fun entry => classifier.classify entry
      match groups with
      | .ok groups => .ok (groupsJson groups)
      | .error reason => .error (.unclassified reason)

/-- A one-shot traversal. -/
structure OneShot where
  source : ContainerKind
  target : ContainerKind
  entries : List Entry
  task : Task

namespace OneShot

/-- The traversal that a request writes, between containers of given kinds. -/
def ofRequest? (source target : ContainerKind) (request : Json) : Option OneShot := do
  let entries ← argument? (listOf? Entry.ofJson?) "entries" request
  let name ← argument? Json.str? "fn" request
  return { source, target, entries, task := ← Task.ofRequest? name request }

/-- What a traversal shows. -/
def run (traversal : OneShot) : Except Refusal Json :=
  let source : traversal.source.Carrier := collect (.ofNat 0) traversal.entries
  traversal.task.perform (.ofNat 1) source traversal.target

end OneShot

end HashTrie.Script
