import Tacit.Arity

/-! The built-in functions. Each has one arity, whatever it is applied to. -/
namespace Tacit

inductive Primitive where
  | equal
  | notEqual
  | greater
  | greaterEqual
  | less
  | lessEqual
  | left
  | right
  | identity
  | add
  | subtract
  | multiply
  | divide
  | modulo
  | power
  | maximum
  | minimum
  | negate
  | complement
  | absolute
  | floor
  | round
  | ceiling
  | same
  | different
  | iota
  | length
  | shape
  | flat
  | pair
  | catenate
  | reshape
  | select
  | pick
  deriving DecidableEq

namespace Primitive

def arity : Primitive → Arity
  | identity | negate | complement | absolute | floor | round | ceiling
  | iota | length | shape | flat => .monadic
  | _ => .dyadic

end Primitive

end Tacit
