import Tacit.Value

/-! Two ways to compare whole values. `equal` is equality of descriptions, with numbers compared
numerically; `same` is what the language calls a match, where a NaN matches itself. Functions match
when their descriptions are equal. -/
namespace Tacit

mutual

def Value.equal : Value → Value → Bool
  | .number x, .number y => Number.equal x y
  | .character c, .character d => c = d
  | .array ⟨shape, data⟩, .array ⟨otherShape, otherData⟩ =>
    shape = otherShape && Value.equalAll data otherData
  | .function f, .function g => f.equal g
  | _, _ => false

def Value.equalAll : List Value → List Value → Bool
  | [], [] => true
  | x :: xs, y :: ys => x.equal y && Value.equalAll xs ys
  | _, _ => false

def Fn.equal : Fn → Fn → Bool
  | .primitive p, .primitive q => p = q
  | .constant x, .constant y => x.equal y
  | .each f, .each g => f.equal g
  | .backwards f, .backwards g => f.equal g
  | .selfApply f, .selfApply g => f.equal g
  | .reduce f, .reduce g => f.equal g
  | .scan f, .scan g => f.equal g
  | .atop f g, .atop h k => f.equal h && g.equal k
  | .over f g, .over h k => f.equal h && g.equal k
  | .fork l c r, .fork m d s => l.equal m && c.equal d && r.equal s
  | _, _ => false

end

mutual

def Value.same : Value → Value → Bool
  | .number x, .number y => Number.order x y = .eq
  | .character c, .character d => c = d
  | .array ⟨shape, data⟩, .array ⟨otherShape, otherData⟩ =>
    shape = otherShape && Value.samePairs data otherData
  | .function f, .function g => f.equal g
  | _, _ => false

/-- Compares elements as far as both lists go. -/
def Value.samePairs : List Value → List Value → Bool
  | x :: xs, y :: ys => x.same y && Value.samePairs xs ys
  | _, _ => true

end

end Tacit
