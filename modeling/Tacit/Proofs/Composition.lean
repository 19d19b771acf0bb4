import Tacit.Proofs.Juxtaposition

/-! Composition by the modifier and by juxtaposition. A function followed by anything else is the same atop whether
the two are composed or stand side by side, and it settles alike: to a function where arguments are missing, and to the
outcome of the call otherwise. A value in front of a function of two arguments is not a train of its own; composed
with the function it waits as its left argument, and gives what the train of value, function and right argument
gives. -/
namespace Tacit

namespace Fn

variable {f g : Fn}

theorem callWithLast_of_monadic (monadic : f.arity = .monadic) (v : Value) : f.callWithLast [v] = f.call [v] := by
  rw [callWithLast, monadic]
  rfl

theorem call_constant_nil (v : Value) : (constant v).call [] = .ok v := call_constant rfl

/-- A function of one argument atop a value is called with it. -/
theorem toValue_atop_of_monadic (monadic : f.arity = .monadic) (v : Value) :
    (atop f (constant v)).toValue = f.call [v] := by
  have settles : (atop f (constant v)).arity = .niladic := by simp [arity, monadic]
  have counted : ([] : List Value).length = (atop f (constant v)).arity.count := by
    rw [settles]
    rfl
  rw [toValue, if_pos settles, call_atop counted]
  simp only [lastOf, List.drop_nil, call_constant_nil, monadic]
  rfl

theorem arity_atop_of_dyadic (dyadic : f.arity = .dyadic) (v : Value) : (atop f (constant v)).arity = .monadic := by
  rw [arity, if_pos dyadic]
  rfl

/-- A function of two arguments atop a value waits for its left argument. -/
theorem toValue_atop_of_dyadic (dyadic : f.arity = .dyadic) (v : Value) :
    (atop f (constant v)).toValue = .ok (.function (atop f (constant v))) := by
  rw [toValue, arity_atop_of_dyadic dyadic]
  rfl

/-- The function that keeps a value as the left argument of another function. -/
def bindLeft (v : Value) (g : Fn) : Fn := atop (backwards g) (constant v)

theorem arity_bindLeft (dyadic : g.arity = .dyadic) (v : Value) : (bindLeft v g).arity = .monadic :=
  arity_atop_of_dyadic dyadic v

theorem call_bindLeft (dyadic : g.arity = .dyadic) (v y : Value) : (bindLeft v g).call [y] = g.call [v, y] := by
  have swaps : (backwards g).arity = .dyadic := dyadic
  have counted : [y].length = (bindLeft v g).arity.count := by
    rw [arity_bindLeft dyadic]
    rfl
  have both : [y, v].length = (backwards g).arity.count := by
    rw [swaps]
    rfl
  -- The constant takes no arguments, so the only argument goes to the left of it, and is swapped to the right.
  calc (bindLeft v g).call [y]
      = (do (backwards g).call [y, ← (constant v).call []]) := by
        rw [bindLeft, call_atop counted]
        simp only [if_pos swaps]
        rfl
    _ = (backwards g).call [y, v] := by
        rw [call_constant_nil]
        rfl
    _ = g.call [v, y] := call_backwards both

end Fn

namespace Train

theorem resolve_eq (tines : List Value) : resolve tines = composition tines >>= Fn.toValue := by
  rw [← toFn_group, resolve]
  cases group tines <;> rfl

theorem resolve_pair (f : Fn) (right : Value) :
    resolve [.function f, right] = (Fn.atop f (Fn.ofValue right)).toValue := by
  have isFunction : (Value.function f).kind = .function := rfl
  rw [resolve_eq, composition, if_neg (by simp), if_pos isFunction]
  rfl

theorem Application.resolve_tines (train : Application) : resolve train.tines = train.outcome := by
  rw [resolve_eq, train.composition_tines]
  change train.toFn.toValue = train.outcome
  rw [Fn.toValue, if_pos train.arity_toFn, train.call_toFn]

end Train

namespace Modifier

theorem composed_plain_right (f : Fn) {value : Value} (plain : value.kind ≠ .function) :
    composed (.function f) value =
      if f.arity = .dyadic then .ok (.function (.atop f (.constant value))) else f.callWithLast [value] := by
  cases value with
  | function g => exact absurd rfl plain
  | number | character | array => rfl

theorem composed_plain_left {value : Value} (plain : value.kind ≠ .function) (g : Fn) :
    composed value (.function g) =
      if g.arity = .dyadic then .ok (.function (Fn.bindLeft value g)) else g.callWithLast [value] := by
  cases value with
  | function f => exact absurd rfl plain
  | number | character | array => rfl

/-- A function that takes arguments is composed with anything as it is put in front of it. -/
theorem composed_eq_resolve {f : Fn} (takes : f.arity = .monadic ∨ f.arity = .dyadic) (right : Value) :
    composed (.function f) right = Train.resolve [.function f, right] := by
  rw [Train.resolve_pair]
  by_cases plain : right.kind ≠ .function
  · rw [Train.Application.ofValue_of_plain plain, composed_plain_right f plain]
    rcases takes with monadic | dyadic
    · have notDyadic : f.arity ≠ .dyadic := by simp [monadic]
      rw [if_neg notDyadic, Fn.callWithLast_of_monadic monadic, Fn.toValue_atop_of_monadic monadic]
    · rw [if_pos dyadic, Fn.toValue_atop_of_dyadic dyadic]
  · cases right with
    | function g => rfl
    | number | character | array => exact absurd nofun plain

/-- Composition agrees with juxtaposition. A function of one or two arguments composed with anything is the train of the
two. A value that is no function, composed with a function of two arguments, is a function of one argument that calls
the other one with the value on the left, as the train of the value, the function and the argument does; and a
function of one argument is called with the value. -/
theorem composed_agrees_with_train :
    (∀ f : Fn, f.arity = .monadic ∨ f.arity = .dyadic → ∀ right,
      composed (.function f) right = Train.resolve [.function f, right]) ∧
    ∀ (value : Value) (g : Fn), value.kind ≠ .function →
      (g.arity = .dyadic → ∃ bound, composed value (.function g) = .ok (.function bound) ∧ bound.arity = .monadic ∧
        (∀ y, bound.call [y] = g.call [value, y]) ∧
        ∀ y, y.kind ≠ .function → bound.call [y] = Train.resolve [value, .function g, y]) ∧
      (g.arity = .monadic → composed value (.function g) = g.call [value]) := by
  refine ⟨fun f takes => composed_eq_resolve takes, fun value g plain => ⟨fun dyadic => ?_, fun monadic => ?_⟩⟩
  · refine ⟨Fn.bindLeft value g, ?_, Fn.arity_bindLeft dyadic value, Fn.call_bindLeft dyadic value, ?_⟩
    · rw [composed_plain_left plain, if_pos dyadic]
    · intro y plainRight
      let train : Train.Application := .between value plain g dyadic (.operand y plainRight)
      calc (Fn.bindLeft value g).call [y]
          = g.call [value, y] := Fn.call_bindLeft dyadic value y
        _ = train.outcome := rfl
        _ = Train.resolve [value, .function g, y] := train.resolve_tines.symm
  · have notDyadic : g.arity ≠ .dyadic := by simp [monadic]
    rw [composed_plain_left plain, if_neg notDyadic, Fn.callWithLast_of_monadic monadic]

theorem composed_agrees_with_train_of_texts :
    let joins : Fn := .primitive .catenate
    let text : Value := .ofText ['a', 'b']
    composed (.function joins) text = Train.resolve [.function joins, text] ∧
      (∃ bound, composed text (.function joins) = .ok (.function bound) ∧ bound.arity = .monadic ∧
        bound.call [.character 'c'] = .ok (.ofText ['a', 'b', 'c']) ∧
        Train.resolve [text, .function joins, .character 'c'] = .ok (.ofText ['a', 'b', 'c'])) ∧
      composed text (.function (.primitive .length)) = (Fn.primitive .length).call [text] := by
  intro joins text
  obtain ⟨inFront, onTheLeft⟩ := composed_agrees_with_train
  have plain : text.kind ≠ .function := by decide
  have joined : joins.call [text, .character 'c'] = .ok (.ofText ['a', 'b', 'c']) := by rfl
  obtain ⟨bound, isBound, monadic, calls, trains⟩ := (onTheLeft text joins plain).1 rfl
  refine ⟨inFront joins (.inr rfl) text, ⟨bound, isBound, monadic, ?_, ?_⟩, (onTheLeft text _ plain).2 rfl⟩
  · rw [calls, joined]
  · rw [← trains _ (by decide), calls, joined]

end Modifier

end Tacit
