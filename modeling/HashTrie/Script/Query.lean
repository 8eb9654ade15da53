import HashTrie.Script.Argument
import HashTrie.Script.Listing
import HashTrie.Script.RuleReader
import HashTrie.Traversal.Rebuild
import HashTrie.Traversal.Scans
import HashTrie.Traversal.Selection
import HashTrie.Traversal.Windows
import HashTrie.Traversal.Zips

/-!
# Queries

The traversals as a script asks for them. A query can be put to a container of any
kind and yields containers of any other kind, or a plain answer.
-/

namespace HashTrie.Script

/-- A query. -/
inductive Query where
  | filter (test : Predicate)
  | filterNot (test : Predicate)
  | takeWhile (test : Predicate)
  | dropWhile (test : Predicate)
  | takeUntil (test : Predicate)
  | dropUntil (test : Predicate)
  | take (count : Nat)
  | takeRight (count : Nat)
  | drop (count : Nat)
  | dropRight (count : Nat)
  | distinctBy (classifier : Classifier)
  | retainAll (elements : List Entry)
  | map (rule : EntryRule)
  | flatMap (rule : FanRule)
  | mapValues (rule : ValueRule)
  | scan (zero : Entry) (rule : ScanRule)
  | initOption
  | tailOption
  | init
  | tail
  | partition (test : Predicate)
  | span (test : Predicate)
  | grouped (size : Nat)
  | sliding (size : Nat)
  | slidingBy (size step : Nat)
  | headOption
  | traverse (rule : FoldRule)
  | foldLeft (initial : Value) (rule : FoldRule)
  | foldRight (initial : Value) (rule : FoldRule)
  | scanLeft (zero : Value) (rule : FoldRule)
  | scanRight (zero : Value) (rule : FoldRule)
  | unzip (rule : EntryRule)
  | unzip3 (rule : EntryRule) (third : ValueRule)
  | zip (elements : List Value)
  | zipAll (elements : List Value) (entryPad : Entry) (elementPad : Value)
  | zipWithIndex

/-- What a query yields. -/
inductive Outcome (δ : Type) where
  | container (result : δ)
  | maybe (result : Option δ)
  | pair (first second : δ)
  | parts (results : List δ)
  | answer (json : Json)
  | refused (error : MapError)

/-- The outcome of an operation that may be refused. -/
def Outcome.ofExcept {α δ : Type} (outcome : α → Outcome δ) : Except MapError α → Outcome δ
  | .ok result => outcome result
  | .error error => .refused error

/-- An entry and something paired with it, in JSON. -/
def pairedJson {α : Type} (toJson : α → Json) (pair : Entry × α) : Json :=
  .arr [pair.1.toJson, toJson pair.2]

namespace Query

variable {σ δ : Type} [EntrySequence σ Key Value] [Collection δ Key Value]

/-- What a query yields when it is put to a container. -/
def outcome (stamp : Stamp) (source : σ) : Query → Outcome δ
  | .filter test => .container (Traversal.filter stamp source test.accepts)
  | .filterNot test => .container (Traversal.filterNot stamp source test.accepts)
  | .takeWhile test => .container (Traversal.takeWhile stamp source test.accepts)
  | .dropWhile test => .container (Traversal.dropWhile stamp source test.accepts)
  | .takeUntil test => .container (Traversal.takeUntil stamp source test.accepts)
  | .dropUntil test => .container (Traversal.dropUntil stamp source test.accepts)
  | .take count => .container (Traversal.take stamp source count)
  | .takeRight count => .container (Traversal.takeRight stamp source count)
  | .drop count => .container (Traversal.drop stamp source count)
  | .dropRight count => .container (Traversal.dropRight stamp source count)
  | .distinctBy classifier => .container (Traversal.distinctBy stamp source classifier.verdict)
  | .retainAll elements => .container (Traversal.retainAll stamp source elements)
  | .map rule => .container (Traversal.map stamp source rule.apply)
  | .flatMap rule => .container (Traversal.flatMap stamp source rule.apply)
  | .mapValues rule => .container (Traversal.mapValues stamp source rule.apply)
  | .scan zero rule => .container (Traversal.scan stamp source zero rule.step)
  | .initOption => .maybe (Traversal.init? stamp source)
  | .tailOption => .maybe (Traversal.tail? stamp source)
  | .init => .ofExcept .container (Traversal.init stamp source)
  | .tail => .ofExcept .container (Traversal.tail stamp source)
  | .partition test =>
      let (accepted, rejected) := Traversal.partition stamp source test.accepts
      .pair accepted rejected
  | .span test =>
      let (front, back) := Traversal.span stamp source test.accepts
      .pair front back
  | .grouped size => .ofExcept .parts (Traversal.grouped stamp source size)
  | .sliding size => .ofExcept .parts (Traversal.sliding stamp source size)
  | .slidingBy size step => .ofExcept .parts (Traversal.slidingBy stamp source size step)
  | .headOption => .answer (orNull ((Traversal.head? source).map Entry.toJson))
  | .traverse rule =>
      .answer (listingOf Value.toJson (Traversal.traverse source (rule.step .null)))
  | .foldLeft initial rule => .answer (Traversal.foldLeft source initial rule.step).toJson
  | .foldRight initial rule => .answer (Traversal.foldRight source initial (flip rule.step)).toJson
  | .scanLeft zero rule =>
      .answer (listingOf Value.toJson (Traversal.scanLeft source zero rule.step))
  | .scanRight zero rule =>
      .answer (listingOf Value.toJson (Traversal.scanRight source zero (flip rule.step)))
  | .unzip rule =>
      let (keys, values) := Traversal.unzip source rule.apply
      .answer (.arr [listingOf Key.toJson keys, listingOf Value.toJson values])
  | .unzip3 rule third =>
      let (keys, values, others) := Traversal.unzip3 source fun entry =>
        ((rule.apply entry).1, (rule.apply entry).2, third.apply entry.2)
      .answer <| .arr [
        listingOf Key.toJson keys, listingOf Value.toJson values, listingOf Value.toJson others]
  | .zip elements =>
      .answer (listingOf (pairedJson Value.toJson) (Traversal.zip source elements))
  | .zipAll elements entryPad elementPad =>
      .answer <| listingOf (pairedJson Value.toJson) <|
        Traversal.zipAll source elements entryPad elementPad
  | .zipWithIndex =>
      .answer (listingOf (pairedJson Json.ofNat) (Traversal.zipWithIndex source))

/-- The query of the given name that a request writes. The entries to be retained
stand in a field whose name depends on the kind of request. -/
def ofRequest? (retained name : String) (request : Json) : Option Query :=
  match name with
  | "filter" => (argument? Predicate.ofJson? "p" request).map .filter
  | "filter_not" => (argument? Predicate.ofJson? "p" request).map .filterNot
  | "take_while" => (argument? Predicate.ofJson? "p" request).map .takeWhile
  | "drop_while" => (argument? Predicate.ofJson? "p" request).map .dropWhile
  | "take_until" => (argument? Predicate.ofJson? "p" request).map .takeUntil
  | "drop_until" => (argument? Predicate.ofJson? "p" request).map .dropUntil
  | "take" => (argument? count? "n" request).map .take
  | "take_right" => (argument? count? "n" request).map .takeRight
  | "drop" => (argument? count? "n" request).map .drop
  | "drop_right" => (argument? count? "n" request).map .dropRight
  | "distinct_by" => (argument? Classifier.ofJson? "f" request).map .distinctBy
  | "retain_all" => (argument? (listOf? Entry.ofJson?) retained request).map .retainAll
  | "map" => (argument? EntryRule.ofJson? "f" request).map .map
  | "flat_map" => (argument? FanRule.ofJson? "f" request).map .flatMap
  | "map_values" => (argument? ValueRule.ofJson? "f" request).map .mapValues
  | "scan" => do
      return .scan (← argument? Entry.ofJson? "zero" request)
        (← argument? ScanRule.ofJson? "f" request)
  | "init_option" => some .initOption
  | "tail_option" => some .tailOption
  | "init" => some .init
  | "tail" => some .tail
  | "partition" => (argument? Predicate.ofJson? "p" request).map .partition
  | "span" => (argument? Predicate.ofJson? "p" request).map .span
  | "grouped" => (argument? count? "n" request).map .grouped
  | "sliding" => (argument? count? "n" request).map .sliding
  | "sliding_by" => do
      return .slidingBy (← argument? count? "n" request) (← argument? count? "step" request)
  | "head_option" => some .headOption
  | "traverse" => (argument? FoldRule.ofJson? "f" request).map .traverse
  | "fold_left" => do
      return .foldLeft (← argument? Value.ofJson? "init" request)
        (← argument? FoldRule.ofJson? "f" request)
  | "fold_right" => do
      return .foldRight (← argument? Value.ofJson? "init" request)
        (← argument? FoldRule.ofJson? "f" request)
  | "scan_left" => do
      return .scanLeft (← argument? Value.ofJson? "zero" request)
        (← argument? FoldRule.ofJson? "f" request)
  | "scan_right" => do
      return .scanRight (← argument? Value.ofJson? "zero" request)
        (← argument? FoldRule.ofJson? "f" request)
  | "unzip" => (argument? EntryRule.ofJson? "f" request).map .unzip
  | "unzip3" => do
      return .unzip3 (← argument? EntryRule.ofJson? "f" request)
        (← argument? ValueRule.ofJson? "g" request)
  | "zip" => (argument? (listOf? Value.ofJson?) "that" request).map .zip
  | "zip_all" => do
      return .zipAll (← argument? (listOf? Value.ofJson?) "that" request)
        (← argument? Entry.ofJson? "this_pad" request)
        (← argument? Value.ofJson? "that_pad" request)
  | "zip_with_index" => some .zipWithIndex
  | _ => none

end Query

end HashTrie.Script
