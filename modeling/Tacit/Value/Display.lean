import Tacit.Number.Shortest
import Tacit.Text.Quoted
import Tacit.Value

/-! The text of a value, written the way the language spells it. Every value has a text; a function
shows only its arity. -/
namespace Tacit

/-- The shortest numeral, with `¯` in front of a negative number; both zeros are `0`. -/
def Number.text (x : Float) : List Char :=
  if isNaN x then "NaN".toList
  else if magnitude x = 0 then ['0']
  else
    let size := if isFinite x then shortest (magnitude x) else ['∞']
    if isNegative x then '¯' :: size else size

namespace Display

structure Item where
  character : Option Char
  text : List Char

def bracketed (texts : List (List Char)) : List Char :=
  '[' :: List.intercalate " ⋄ ".toList texts ++ [']']

/-- A row is a string if it has nothing but characters. -/
def row (items : List Item) : List Char :=
  match items.mapM Item.character with
  | some (c :: rest) => Quoted.enclose '\x22' (c :: rest)
  | _ => bracketed (items.map Item.text)

/-- The text of an array with the given elements. An empty leading axis hides all other axes, and
an array without axes encloses its element. -/
def layout : Shape → List Item → List Char
  | [], items => '⊂' :: (items.head?.map Item.text).getD []
  | 0 :: _, _ => ['[', ']']
  | [_], items => row items
  | length :: axes, items =>
    bracketed ((Grid.chunks length (Shape.size axes) items).map (layout axes))

end Display

mutual

def Value.text : Value → List Char
  | .number x => Number.text x
  | .character c => Quoted.enclose '\x27' [c]
  | .array ⟨shape, data⟩ => Display.layout shape (Value.items data)
  | .function fn => fn.arity.name.toList ++ " function".toList

def Value.items : List Value → List Display.Item
  | [] => []
  | value :: rest => ⟨value.asCharacter?, value.text⟩ :: Value.items rest

end

def Value.display (value : Value) : String := String.ofList value.text

end Tacit
