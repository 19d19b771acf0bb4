import Tacit.Proofs.Matching
import Tacit.Proofs.Texts

/-! What is seen of a value: its text, its kind and its arity. Numbers at one position are written alike, and of a
function only the arity is written, on which its constants have no influence. So a value looks like its
representative, and values that match look the same. -/
namespace Tacit

/-- All NaNs are written alike, as are the two zeros. -/
theorem Number.text_representative (x : Float) : text (representative x) = text x := by
  have samePlace : position (representative x) = position x := position_representative x
  by_cases nan : isNaN x = true
  · have nan' : isNaN (representative x) = true := by
      rwa [← position_eq_none_iff, samePlace, position_eq_none_iff]
    rw [text, text, if_pos nan, if_pos nan']
  · have proper : isNaN x = false := by simpa using nan
    have proper' : isNaN (representative x) = false := by
      rwa [← Bool.not_eq_true, ← position_eq_none_iff, samePlace, position_eq_none_iff]
    exact text_of_equal (equal_iff.mpr ⟨representative_eq_iff.mpr samePlace, proper', proper⟩)

@[simp] theorem Fn.arity_representative (fn : Fn) : fn.representative.arity = fn.arity := by
  induction fn using induct_parts with
  | step fn ih => cases fn <;> simp_all [Fn.representative, Fn.arity, Fn.parts]

namespace Value

theorem representatives_eq (data : List Value) : representatives data = data.map representative := by
  induction data with
  | nil => rfl
  | cons value data ih => rw [representatives, ih, List.map_cons]

theorem asCharacter?_representative (value : Value) : value.representative.asCharacter? = value.asCharacter? := by
  cases value <;> simp [representative, asCharacter?]

theorem kind_representative (value : Value) : value.representative.kind = value.kind := by
  cases value <;> simp [representative, kind]

theorem arity_representative (value : Value) : value.representative.arity = value.arity := by
  cases value <;> simp [representative, arity]

/-- A value has the text of its representative. Of the elements of an array the layout sees only their texts and
which of them are characters. -/
theorem text_representative (value : Value) : value.representative.text = value.text := by
  induction value using induct_elements with
  | number x => simp [representative, text, Number.text_representative]
  | character c => simp [representative]
  | function fn => simp [representative, text]
  | array grid ih =>
    have alike : items (representatives grid.data) = items grid.data := by
      rw [representatives_eq, items_eq, items_eq, List.map_map]
      apply List.map_congr_left
      intro element isElement
      simp [asCharacter?_representative, ih element isElement]
    rw [representative, text, text, alike]

/-- Well-formed values that match show the same text, and are of one kind and one arity. -/
theorem appearance_of_same {x y : Value} (ofX : x.WellFormed) (ofY : y.WellFormed) (matching : x.same y = true) :
    x.display = y.display ∧ x.kind = y.kind ∧ x.arity = y.arity := by
  obtain ⟨alike, -, -⟩ := (same_iff ofX ofY).mp matching
  refine ⟨?_, ?_, ?_⟩
  · rw [display, display, ← text_representative x, ← text_representative y, alike]
  · rw [← kind_representative x, ← kind_representative y, alike]
  · rw [← arity_representative x, ← arity_representative y, alike]

theorem appearance_of_same_of_zeros :
    let rows (x y : Float) := array ⟨[2, 2],
      [number x, ofText ['a', 'b'], number (0 / 0), function (.atop (.primitive .subtract) (.constant (number y)))]⟩
    (rows 0 (-0)).same (rows (-0) 0) = true ∧ (rows 0 (-0)).display = (rows (-0) 0).display ∧
      (rows 0 (-0)).kind = (rows (-0) 0).kind ∧ (rows 0 (-0)).arity = (rows (-0) 0).arity := by
  intro rows
  have wellFormed (x y : Float) : (rows x y).WellFormed := by
    refine meets_array.mpr ⟨rfl, ?_⟩
    simp [ofText, Grid.vector, meets_array, meets_function, Fn.ConstantsMeet, Demand.wellFormed]
  have matching : (rows 0 (-0)).same (rows (-0) 0) = true := by decide +kernel
  exact ⟨matching, appearance_of_same (wellFormed 0 (-0)) (wellFormed (-0) 0) matching⟩

end Value

end Tacit
