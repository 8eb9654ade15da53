/-!
# Iterations

An iteration that is underway hands out its items one after another and reports how many
are still to come. It is a value: handing out an item gives the iteration after it.
-/

namespace HashTrie

/-- Iterations over items. -/
class Iteration (σ : Type) (α : outParam Type) where
  /-- The next item, if there is one, and the iteration after it. -/
  next : σ → Option α × σ
  /-- The number of items still to come, as the iteration reports it. -/
  remaining : σ → Nat
  /-- All items still to come, found by going on to the end. -/
  rest : σ → List α

namespace Iteration

variable {σ α : Type} [Iteration σ α]

/-- The iteration after a number of calls for the next item. -/
def skip : Nat → σ → σ
  | 0, state => state
  | count + 1, state => skip count (next state).2

/-- Up to `count` further items, and the iteration after them. -/
def take : Nat → σ → List α × σ
  | 0, state => ([], state)
  | count + 1, state =>
      match next state with
      | (some item, after) =>
          let (items, last) := take count after
          (item :: items, last)
      | (none, after) => ([], after)

end Iteration

end HashTrie
