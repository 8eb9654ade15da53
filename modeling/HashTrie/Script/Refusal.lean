import HashTrie.Error
import HashTrie.Json.Basic

/-!
# Refusals

Why a request, or a step of one, is not carried out.
-/

namespace HashTrie.Script

/-- Why something is not carried out. -/
inductive Refusal where
  /-- The request cannot be read. -/
  | badInput
  /-- A slot holds nothing. -/
  | noSuchSlot
  /-- The map refuses the operation. -/
  | map (error : MapError)
  /-- An entry has no class. -/
  | unclassified (reason : String)

namespace Refusal

/-- A refusal as an answer. -/
def toJson : Refusal → Json
  | .badInput => .obj [("error", .str "bad input")]
  | .noSuchSlot => .obj [("error", .str "no such slot")]
  | .map error => .obj [("error", .str error.kind), ("message", .str error.message)]
  | .unclassified reason => .obj [("error", .str "classifier"), ("message", .str reason)]

/-- The answer to a request, whether it is carried out or not. -/
def answer : Except Refusal Json → Json
  | .ok json => json
  | .error refusal => refusal.toJson

end Refusal

end HashTrie.Script
