import Tacit.Call.Iteration
import Tacit.Call.Primitive

/-! Calling functions. A function is called with exactly as many arguments as its arity; inside a
composition of higher arity, a function of lower arity sees the last arguments only. -/
namespace Tacit.Fn

def checkCount (arity : Arity) (args : List Value) : Result Unit :=
  if args.length = arity.count then .ok () else .error (.argumentCount arity.count args.length)

def lastArguments (arity : Arity) (args : List Value) : Result (List Value) :=
  if arity.count ≤ args.length then .ok (args.drop (args.length - arity.count))
  else .error (.argumentCount arity.count args.length)

/-- The first argument, which is there for any function that takes arguments. -/
def firstOf (args : List Value) : Result Value :=
  match args with
  | x :: _ => .ok x
  | [] => .error (.argumentCount 1 0)

def call (fn : Fn) (args : List Value) : Result Value := do
  checkCount fn.arity args
  match fn with
  | primitive p => p.apply args
  | constant value => return value
  | each f => Iteration.each f.call args
  | backwards f => f.call args.reverse
  | selfApply f => do
    let x ← firstOf args
    f.call [x, x]
  | reduce f => do Iteration.reduce f.call (← firstOf args)
  | scan f => do Iteration.scan f.call (← firstOf args)
  | atop outer inner => do
    let result ← inner.call (← lastArguments inner.arity args)
    if outer.arity = .dyadic then outer.call [← firstOf args, result]
    else outer.call [result]
  | .over outer inner =>
    if outer.arity = .dyadic then do outer.call (← args.mapM fun arg => inner.call [arg])
    else do outer.call [← inner.call args]
  | fork left center right => do
    let first ← left.call (← lastArguments left.arity args)
    let second ← right.call (← lastArguments right.arity args)
    center.call [first, second]

def callWithLast (fn : Fn) (args : List Value) : Result Value := do
  fn.call (← lastArguments fn.arity args)

/-- A function that takes no arguments has nothing to wait for and is called; any other one is a
value. -/
def toValue (fn : Fn) : Result Value :=
  if fn.arity = .niladic then fn.call [] else .ok (.function fn)

end Tacit.Fn
