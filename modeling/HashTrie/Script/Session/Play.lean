import HashTrie.Script.Session.MapStepReader

/-!
# Sessions

A session is a list of steps on slots that are empty at the start. A step that is
refused changes nothing, and the session goes on with the next one.

Every step bears its own number as a stamp, so the nodes that two steps build are
never taken for one another.
-/

namespace HashTrie.Script

/-- A step of a session. -/
inductive Step where
  | ofMap (step : MapStep)
  | ofSet (step : SetStep)

namespace Step

/-- The step that a JSON value writes. -/
def ofJson? (json : Json) : Option Step := do
  let name ← argument? Json.str? "do" json
  ((SetStep.ofRequest? name json).map .ofSet) <|> ((MapStep.ofRequest? name json).map .ofMap)

/-- Carry out a step. -/
def perform (stamp : Stamp) : Step → Act Json
  | .ofMap step => step.perform stamp
  | .ofSet step => step.perform stamp

end Step

namespace Session

/-- The answer to one step, which could not be read if it is none, and the slots after
it. -/
def playStep (stamp : Stamp) (slots : Slots) (step : Option Step) : Json × Slots :=
  match step with
  | none => (Refusal.badInput.toJson, slots)
  | some step =>
      match step.perform stamp slots with
      | .ok (answer, after) => (answer, after)
      | .error refusal => (refusal.toJson, slots)

/-- The answers to successive steps, the first of which has the given number, and the
slots after them. -/
def playFrom (number : Nat) (slots : Slots) : List (Option Step) → List Json × Slots
  | [] => ([], slots)
  | step :: rest =>
      let (answer, after) := playStep (.ofNat number) slots step
      let (answers, last) := playFrom (number + 1) after rest
      (answer :: answers, last)

/-- The answer to a whole session. -/
def play (steps : List (Option Step)) : Json :=
  let (answers, slots) := playFrom 0 .empty steps
  .obj [("end", slots.toJson), ("steps", .arr answers)]

/-- The steps that a request writes; a step that cannot be read is none. -/
def ofRequest? (request : Json) : Option (List (Option Step)) :=
  (argument? Json.items? "steps" request).map fun steps => steps.map Step.ofJson?

end Session

end HashTrie.Script
