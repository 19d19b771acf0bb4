import Tacit.Call

/-! Trains: juxtaposed functions and values, resolved from the left by arities alone. A tine before
a function of two arguments, with more to follow, is the left side of a fork; any other function is
put atop the rest; and the last tine ends the train. -/
namespace Tacit.Train

/-- One step of a train, to be completed by what the rest resolves to. -/
inductive Step where
  | fork (left center : Fn)
  | atop (outer : Fn)

def Step.complete (rest : Fn) : Step → Fn
  | fork left center => .fork left center rest
  | atop outer => .atop outer rest

structure Grouping where
  steps : List Step
  last : Fn

namespace Grouping

def cons (step : Step) (grouping : Grouping) : Grouping :=
  { grouping with steps := step :: grouping.steps }

def toFn (grouping : Grouping) : Fn :=
  grouping.steps.foldr (fun step rest => step.complete rest) grouping.last

end Grouping

/-- A function of two arguments, which can stand in the middle of a fork. -/
def center? : Value → Option Fn
  | .function fn => if fn.arity = .dyadic then some fn else none
  | _ => none

def group : List Value → Result Grouping
  | [] => .error (.invalidArgument .emptyTrain)
  | [tine] => .ok ⟨[], Fn.ofValue tine⟩
  | [tine, last] =>
    match tine with
    | .function outer => .ok ⟨[.atop outer], Fn.ofValue last⟩
    | _ => .error .niladOutsideOfFork
  | tine :: next :: following :: rest =>
    match center? next with
    | some center => do return (← group (following :: rest)).cons (.fork (Fn.ofValue tine) center)
    | none =>
      match tine with
      | .function outer => do return (← group (next :: following :: rest)).cons (.atop outer)
      | _ => .error .niladOutsideOfFork

def resolve (tines : List Value) : Result Value := do
  (← group tines).toFn.toValue

end Tacit.Train
