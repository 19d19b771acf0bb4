import Tacit.Call
import Tacit.Proofs.Primitives

/-! The calls that a call makes. A function passes arguments to its parts one after the other, up to
the first failure; what a call reaches are all the calls made on its behalf, at any depth. From what
the reached calls yield follows what the call itself yields. -/
namespace Tacit

namespace Iteration

def eachArguments : List Value → List (List Value)
  | [.array ⟨_, data⟩] => data.map fun x => [x]
  | [.array ⟨shape, data⟩, .array ⟨otherShape, otherData⟩] =>
    if shape = otherShape then (pairs data otherData).map fun (x, y) => [x, y] else []
  | [.array ⟨_, data⟩, y] => data.map fun x => [x, y]
  | [x, .array ⟨_, data⟩] => data.map fun y => [x, y]
  | args => [args]

/-- The arguments of the calls in a fold, in order: an element and the fold of those behind it. -/
def foldArguments (call : Call) : List Value → List (List Value)
  | [] => []
  | [_] => []
  | x :: xs => foldArguments call xs ++ (yielded (foldFromRight call xs)).map fun y => [x, y]

def reduceArguments (call : Call) : Value → List (List Value)
  | .array grid => foldArguments call (Value.majorCells grid)
  | _ => []

def scanPrefixes (grid : Grid Value) : List (List Value) :=
  if grid.rank = 0 ∨ grid.length = 0 then []
  else
    let cells := Value.majorCells grid
    (List.range cells.length).map fun i => cells.take (i + 1)

def scanArguments (call : Call) : Value → List (List Value)
  | .array grid =>
    (untilFailure (foldFromRight call) (scanPrefixes grid)).flatMap (foldArguments call)
  | _ => []

theorem length_pairs (xs ys : List Value) : (pairs xs ys).length = xs.length := by
  induction xs generalizing ys with
  | nil => rfl
  | cons x xs ih => cases ys <;> simp [pairs, ih]

theorem filled_eq_ok {α : Type} {shape : Shape} {xs : List α} {f : α → Result Value} {v : Value}
    (yields : (do return .array ⟨shape, ← xs.mapM f⟩) = Except.ok v) :
    ∃ results, xs.mapM f = .ok results ∧ results.length = xs.length ∧
      v = .array ⟨shape, results⟩ := by
  simp only [bind_eq_ok, pure_eq_ok] at yields
  obtain ⟨results, ran, rfl⟩ := yields
  exact ⟨results, ran, (mapM_eq_ok.mp ran).length_eq.symm, rfl⟩

/-- What `each` yields: the results of its calls in the shape of an array among the arguments, or,
where no argument is an array, the result of its only call. -/
theorem each_eq_ok {call : Call} {args : List Value} {v : Value} (yields : each call args = .ok v) :
    ∃ results, (eachArguments args).mapM call = .ok results ∧
      (results = [v] ∨ ∃ shape data, .array ⟨shape, data⟩ ∈ args ∧
        results.length = data.length ∧ v = .array ⟨shape, results⟩) := by
  unfold each at yields
  split at yields
  · obtain ⟨results, ran, sameLength, rfl⟩ := filled_eq_ok yields
    exact ⟨results, by simpa [eachArguments, List.mapM_map, Function.comp_def] using ran,
      .inr ⟨_, _, List.mem_cons_self, sameLength, rfl⟩⟩
  · split at yields
    · rename_i same
      obtain ⟨results, ran, sameLength, rfl⟩ := filled_eq_ok yields
      rw [length_pairs] at sameLength
      exact ⟨results, by simpa [eachArguments, same, List.mapM_map, Function.comp_def] using ran,
        .inr ⟨_, _, List.mem_cons_self, sameLength, rfl⟩⟩
    · cases yields
  · obtain ⟨results, ran, sameLength, rfl⟩ := filled_eq_ok yields
    exact ⟨results, by simpa [eachArguments, List.mapM_map, Function.comp_def] using ran,
      .inr ⟨_, _, List.mem_cons_self, sameLength, rfl⟩⟩
  · obtain ⟨results, ran, sameLength, rfl⟩ := filled_eq_ok yields
    exact ⟨results, by simpa [eachArguments, List.mapM_map, Function.comp_def] using ran,
      .inr ⟨_, _, by simp, sameLength, rfl⟩⟩
  · refine ⟨[v], mapM_eq_ok.mpr ?_, .inl rfl⟩
    simpa [eachArguments] using yields

/-- `each` fails where arrays do not pair, or with what its calls fail with. -/
theorem each_eq_error {call : Call} {args : List Value} {e : Fault}
    (failed : each call args = .error e) :
    (∃ left right, e = .shapeMismatch (.eachPairing left right)) ∨
      (eachArguments args).mapM call = .error e := by
  unfold each at failed
  split at failed
  · right
    simpa [eachArguments, List.mapM_map, Function.comp_def, map_eq_error] using failed
  · split at failed
    · rename_i same
      right
      simpa [eachArguments, same, List.mapM_map, Function.comp_def, map_eq_error] using failed
    · cases failed
      exact .inl ⟨_, _, rfl⟩
  · right
    simpa [eachArguments, List.mapM_map, Function.comp_def, map_eq_error] using failed
  · right
    simpa [eachArguments, List.mapM_map, Function.comp_def, map_eq_error] using failed
  · right
    simp [eachArguments, failed]

theorem foldFromRight_eq_error {call : Call} {xs : List Value} {e : Fault}
    (failed : foldFromRight call xs = .error e) :
    e = .invalidArgument .reducedEmpty ∨ ∃ args ∈ foldArguments call xs, call args = .error e := by
  induction xs with
  | nil =>
    cases failed
    exact .inl rfl
  | cons x xs ih =>
    cases xs with
    | nil => cases failed
    | cons y ys =>
      simp only [foldFromRight, bind_eq_error] at failed
      simp only [foldArguments, List.mem_append]
      rcases failed with inner | ⟨folded, inner, outer⟩
      · rcases ih inner with empty | ⟨args, made, failed⟩
        · exact .inl empty
        · exact .inr ⟨args, .inl made, failed⟩
      · refine .inr ⟨[x, folded], .inr ?_, outer⟩
        simpa using inner

end Iteration

variable {demand : Demand} {allowed : Grid Value → Prop}

theorem Grid.mem_chunks {α : Type} {count size : Nat} {data piece : List α}
    (member : piece ∈ chunks count size data) :
    ∃ i < count, piece = (data.drop (i * size)).take size := by
  induction count generalizing data with
  | zero => simp [chunks] at member
  | succ count ih =>
    rcases List.mem_cons.mp member with rfl | later
    · exact ⟨0, by omega, by simp⟩
    · obtain ⟨i, bound, rfl⟩ := ih later
      refine ⟨i + 1, by omega, ?_⟩
      rw [List.drop_drop, Nat.succ_mul, Nat.add_comm]

namespace Value

/-- Above rank one the major cells are the equal pieces of the elements, as arrays. -/
theorem majorCells_of_axes (axis second : Nat) (axes : Shape) (data : List Value) :
    majorCells ⟨axis :: second :: axes, data⟩ =
      (Grid.chunks axis (Shape.size (second :: axes)) data).map fun piece =>
        array ⟨second :: axes, piece⟩ := by
  have rank : Grid.rank ⟨axis :: second :: axes, data⟩ = axes.length + 2 := rfl
  rw [majorCells, cells, rank, if_neg (by omega), if_neg (by omega), if_neg (by omega)]
  simp [Grid.cells, rank]

theorem majorCells_meet (closed : demand.Closed allowed) {grid : Grid Value}
    (held : (array grid).Meets demand) : ∀ cell ∈ majorCells grid, cell.Meets demand := by
  obtain ⟨made, elements⟩ := meets_array.mp held
  obtain ⟨shape, data⟩ := grid
  intro cell member
  match shape with
  | [] | [_] => exact elements cell (by simpa [majorCells, Grid.rank] using member)
  | axis :: second :: axes =>
    rw [majorCells_of_axes] at member
    obtain ⟨piece, isPiece, rfl⟩ := List.mem_map.mp member
    obtain ⟨i, bound, rfl⟩ := Grid.mem_chunks isPiece
    refine meets_array.mpr ⟨?_, fun x inside => ?_⟩
    · simpa using closed.cell made bound
    · exact elements x (List.mem_of_mem_drop (List.mem_of_mem_take inside))

/-- Cells without arrays make a vector, and arrays of one shape make one of the next rank; neither
is checked for its size. -/
theorem stack_meets (closed : demand.Closed allowed) {values : List Value} {grid : Grid Value}
    (held : ∀ x ∈ values, x.Meets demand) (yields : stack values = .ok grid)
    (fits : allowed grid) : (array grid).Meets demand := by
  unfold stack at yields
  split at yields
  · cases yields
    exact meets_array.mpr ⟨closed.vector fits, held⟩
  · rename_i first others arrays
    have cell {g : Grid Value} (member : g ∈ first :: others) : (array g).Meets demand := by
      rw [← arrays] at member
      obtain ⟨x, isValue, isArray⟩ := List.mem_filterMap.mp member
      cases x <;> simp only [grid?, Option.some.injEq, reduceCtorEq] at isArray
      subst g
      exact held _ isValue
    split at yields
    · cases yields
    · rename_i sameCount
      split at yields
      · cases yields
      · rename_i sameShape
        have shapes {g : Grid Value} (member : g ∈ first :: others) : g.shape = first.shape := by
          rcases List.mem_cons.mp member with rfl | member
          · rfl
          · simpa using List.find?_eq_none.mp sameShape g member
        have count : values.length = (first :: others).length := by
          simpa [eq_comm] using sameCount
        cases yields
        rw [count] at fits ⊢
        refine meets_array.mpr ⟨closed.stacked (by simp) ?_ fits, ?_⟩
        · intro g member
          exact ⟨shapes member, shapes member ▸ (meets_array.mp (cell member)).1⟩
        · intro x member
          obtain ⟨g, isCell, inside⟩ := List.mem_flatMap.mp member
          exact (meets_array.mp (cell isCell)).2 x inside

end Value

namespace Iteration

/-- Calls with these arguments yield values that meet the demand, if the arguments do. -/
def Keeps (demand : Demand) (call : Call) (calls : List (List Value)) : Prop :=
  ∀ args ∈ calls, (∀ arg ∈ args, arg.Meets demand) → ∀ v, call args = .ok v → v.Meets demand

theorem mem_pairs {xs ys : List Value} {x y : Value} (member : (x, y) ∈ pairs xs ys) :
    x ∈ xs ∧ (y ∈ xs ∨ y ∈ ys) := by
  induction xs generalizing ys with
  | nil => simp [pairs] at member
  | cons head tail ih =>
    cases ys with
    | nil =>
      rcases List.mem_cons.mp member with same | later
      · cases same
        simp
      · have := ih later
        simp_all
    | cons other others =>
      rcases List.mem_cons.mp member with same | later
      · cases same
        simp
      · have := ih later
        grind

theorem eachArguments_meet {args : List Value} (held : ∀ arg ∈ args, arg.Meets demand) :
    ∀ sub ∈ eachArguments args, ∀ arg ∈ sub, arg.Meets demand := by
  intro sub member
  unfold eachArguments at member
  split at member
  · have elements := (Value.meets_array.mp (held _ List.mem_cons_self)).2
    obtain ⟨x, inside, rfl⟩ := List.mem_map.mp member
    simpa using elements x inside
  · have left := (Value.meets_array.mp (held _ List.mem_cons_self)).2
    have right := (Value.meets_array.mp (held _ (List.mem_cons_of_mem _ List.mem_cons_self))).2
    split at member
    · obtain ⟨⟨x, y⟩, inside, rfl⟩ := List.mem_map.mp member
      obtain ⟨inLeft, inEither⟩ := mem_pairs inside
      have second : y.Meets demand := inEither.elim (left y) (right y)
      simpa using ⟨left x inLeft, second⟩
    · simp at member
  · have elements := (Value.meets_array.mp (held _ List.mem_cons_self)).2
    obtain ⟨x, inside, rfl⟩ := List.mem_map.mp member
    simpa using ⟨elements x inside, held _ (by simp)⟩
  · have elements := (Value.meets_array.mp (held _ (List.mem_cons_of_mem _ List.mem_cons_self))).2
    obtain ⟨x, inside, rfl⟩ := List.mem_map.mp member
    simpa using ⟨held _ List.mem_cons_self, elements x inside⟩
  · rw [List.mem_singleton] at member
    subst sub
    exact held

theorem each_meets {call : Call} {args : List Value} {v : Value}
    (held : ∀ arg ∈ args, arg.Meets demand) (kept : Keeps demand call (eachArguments args))
    (yields : each call args = .ok v) : v.Meets demand := by
  obtain ⟨results, mapped, made⟩ := each_eq_ok yields
  obtain ⟨-, elements⟩ := forall_of_mapM_eq_ok mapped fun sub member =>
    kept sub member (eachArguments_meet held sub member)
  rcases made with rfl | ⟨shape, data, argument, sameLength, rfl⟩
  · exact elements v (by simp)
  · exact Value.meets_refilled (held _ argument) sameLength elements

theorem foldFromRight_meets {call : Call} {xs : List Value} {v : Value}
    (held : ∀ x ∈ xs, x.Meets demand) (kept : Keeps demand call (foldArguments call xs))
    (yields : foldFromRight call xs = .ok v) : v.Meets demand := by
  induction xs generalizing v with
  | nil => cases yields
  | cons x xs ih =>
    cases xs with
    | nil =>
      cases yields
      exact held _ (by simp)
    | cons y ys =>
      simp only [foldFromRight, bind_eq_ok] at yields
      obtain ⟨folded, inner, outer⟩ := yields
      have met : folded.Meets demand := ih (fun z member => held z (List.mem_cons_of_mem x member))
        (fun args made => kept args (by simp [foldArguments, made])) inner
      refine kept [x, folded] ?_ (by simpa using ⟨held x (by simp), met⟩) v outer
      simp [foldArguments, inner]

theorem foldArguments_meet {call : Call} {xs : List Value} (held : ∀ x ∈ xs, x.Meets demand)
    (kept : Keeps demand call (foldArguments call xs)) :
    ∀ args ∈ foldArguments call xs, ∀ arg ∈ args, arg.Meets demand := by
  induction xs with
  | nil => simp [foldArguments]
  | cons x xs ih =>
    cases xs with
    | nil => simp [foldArguments]
    | cons y ys =>
      have tailHeld : ∀ z ∈ y :: ys, z.Meets demand :=
        fun z member => held z (List.mem_cons_of_mem x member)
      have tailKept : Keeps demand call (foldArguments call (y :: ys)) :=
        fun args made => kept args (by simp [foldArguments, made])
      intro args made
      simp only [foldArguments, List.mem_append, List.mem_map, mem_yielded] at made
      rcases made with made | ⟨folded, inner, rfl⟩
      · exact ih tailHeld tailKept args made
      · have met := foldFromRight_meets tailHeld tailKept inner
        simpa using ⟨held x List.mem_cons_self, met⟩

theorem reduceArguments_meet (closed : demand.Closed allowed) {call : Call} {x : Value}
    (held : x.Meets demand) (kept : Keeps demand call (reduceArguments call x)) :
    ∀ args ∈ reduceArguments call x, ∀ arg ∈ args, arg.Meets demand := by
  cases x with
  | number | character | function => simp [reduceArguments]
  | array grid => exact foldArguments_meet (Value.majorCells_meet closed held) kept

theorem reduce_meets (closed : demand.Closed allowed) {call : Call} {x v : Value}
    (held : x.Meets demand) (kept : Keeps demand call (reduceArguments call x))
    (yields : reduce call x = .ok v) : v.Meets demand := by
  simp only [reduce, bind_eq_ok] at yields
  obtain ⟨grid, isArray, yields⟩ := yields
  cases x <;> simp only [Value.expectArray, Except.ok.injEq, reduceCtorEq] at isArray
  subst grid
  exact foldFromRight_meets (Value.majorCells_meet closed held) kept yields

theorem scanPrefixes_meet (closed : demand.Closed allowed) {grid : Grid Value}
    (held : (Value.array grid).Meets demand) :
    ∀ cells ∈ scanPrefixes grid, ∀ cell ∈ cells, cell.Meets demand := by
  intro cells isPrefix cell member
  unfold scanPrefixes at isPrefix
  split at isPrefix
  · simp at isPrefix
  · obtain ⟨i, -, rfl⟩ := List.mem_map.mp isPrefix
    exact Value.majorCells_meet closed held cell (List.mem_of_mem_take member)

theorem scanArguments_meet (closed : demand.Closed allowed) {call : Call} {x : Value}
    (held : x.Meets demand) (kept : Keeps demand call (scanArguments call x)) :
    ∀ args ∈ scanArguments call x, ∀ arg ∈ args, arg.Meets demand := by
  cases x with
  | number | character | function => simp [scanArguments]
  | array grid =>
    intro args made
    obtain ⟨cells, isPrefix, made⟩ := List.mem_flatMap.mp made
    have cellsMeet := scanPrefixes_meet closed held cells (mem_of_mem_untilFailure isPrefix)
    refine foldArguments_meet cellsMeet (fun args made => kept args ?_) args made
    exact List.mem_flatMap.mpr ⟨cells, isPrefix, made⟩

theorem scanFolds_meet (closed : demand.Closed allowed) {call : Call} {grid : Grid Value}
    {folds : List Value} (held : (Value.array grid).Meets demand)
    (kept : Keeps demand call (scanArguments call (.array grid)))
    (ran : (scanPrefixes grid).mapM (foldFromRight call) = .ok folds) :
    ∀ v ∈ folds, v.Meets demand := by
  refine (forall_of_mapM_eq_ok ran fun cells isPrefix v yields => ?_).2
  refine foldFromRight_meets (scanPrefixes_meet closed held cells isPrefix) (fun args made => ?_) yields
  refine kept args (List.mem_flatMap.mpr ⟨cells, ?_, made⟩)
  rw [untilFailure_of_mapM_eq_ok ran]
  exact isPrefix

/-- A scan leaves an array without a leading axis or with an empty one alone; the folds of the
prefixes of a vector make a vector, and those of any other array are stacked. -/
theorem scan_eq_ok {call : Call} {grid : Grid Value} {v : Value}
    (yields : scan call (.array grid) = .ok v) :
    v = .array grid ∨ ∃ folds, (scanPrefixes grid).mapM (foldFromRight call) = .ok folds ∧
      (grid.rank = 1 ∧ folds.length = grid.data.length ∧ v = .array (Grid.vector folds) ∨
        ∃ stacked, Value.stack folds = .ok stacked ∧ v = .array stacked) := by
  simp only [scan, Value.expectArray, bind_eq_ok, Except.ok.injEq, exists_eq_left'] at yields
  split at yields
  · cases yields
    exact .inl rfl
  · rename_i proper
    simp only [bind_eq_ok] at yields
    obtain ⟨folds, ran, yields⟩ := yields
    refine .inr ⟨folds, by simpa [scanPrefixes, proper, List.mapM_map, Function.comp_def] using ran, ?_⟩
    split at yields
    · rename_i isVector
      cases yields
      have count := (mapM_eq_ok.mp ran).length_eq.symm
      exact .inl ⟨isVector, by simpa [Value.majorCells, isVector] using count, rfl⟩
    · simp only [bind_eq_ok, pure_eq_ok] at yields
      obtain ⟨stacked, made, rfl⟩ := yields
      exact .inr ⟨stacked, made, rfl⟩

theorem scan_meets (closed : demand.Closed allowed) {call : Call} {x v : Value}
    (held : x.Meets demand) (kept : Keeps demand call (scanArguments call x))
    (yields : scan call x = .ok v) (fits : ∀ grid, v = .array grid → allowed grid) :
    v.Meets demand := by
  cases x with
  | number | character | function => simp [scan, Value.expectArray, bind_eq_ok] at yields
  | array grid =>
    rcases scan_eq_ok yields with rfl | ⟨folds, ran, ⟨isVector, count, rfl⟩ | ⟨stacked, made, rfl⟩⟩
    · exact held
    · refine Value.meets_array.mpr ⟨?_, scanFolds_meet closed held kept ran⟩
      rw [Grid.vector, count]
      exact closed.flat (Value.meets_array.mp held).1
    · exact Value.stack_meets closed (scanFolds_meet closed held kept ran) made (fits _ rfl)

end Iteration

namespace Fn

def lastOf (arity : Arity) (args : List Value) : List Value :=
  args.drop (args.length - arity.count)

/-- The calls of its parts by a function that has got its number of arguments, in order. -/
def partCalls (args : List Value) : Fn → List (Fn × List Value)
  | primitive _ | constant _ => []
  | each f => (untilFailure f.call (Iteration.eachArguments args)).map (f, ·)
  | backwards f => [(f, args.reverse)]
  | selfApply f => [(f, args ++ args)]
  | reduce f => (args.flatMap (Iteration.reduceArguments f.call)).map (f, ·)
  | scan f => (args.flatMap (Iteration.scanArguments f.call)).map (f, ·)
  | atop outer inner =>
    let last := lastOf inner.arity args
    (inner, last) :: (yielded (inner.call last)).map fun result =>
      (outer, if outer.arity = .dyadic then args.take 1 ++ [result] else [result])
  | .over outer inner =>
    if outer.arity = .dyadic then
      let singles := args.map fun arg => [arg]
      (untilFailure inner.call singles).map (inner, ·) ++
        (yielded (singles.mapM inner.call)).map (outer, ·)
    else (inner, args) :: (yielded (inner.call args)).map fun result => (outer, [result])
  | fork left center right =>
    let first := lastOf left.arity args
    let second := lastOf right.arity args
    (left, first) :: (yielded (left.call first)).flatMap fun l =>
      (right, second) :: (yielded (right.call second)).map fun r => (center, [l, r])

section PartCalls

variable {part f outer inner left center right : Fn} {args passed : List Value}

theorem mem_partCalls_each :
    (part, passed) ∈ f.each.partCalls args ↔
      part = f ∧ passed ∈ untilFailure f.call (Iteration.eachArguments args) := by
  simp [partCalls, and_comm, eq_comm]

theorem mem_partCalls_reduce :
    (part, passed) ∈ f.reduce.partCalls args ↔
      part = f ∧ ∃ x ∈ args, passed ∈ Iteration.reduceArguments f.call x := by
  simp [partCalls, and_comm, eq_comm]

theorem mem_partCalls_scan :
    (part, passed) ∈ f.scan.partCalls args ↔
      part = f ∧ ∃ x ∈ args, passed ∈ Iteration.scanArguments f.call x := by
  simp [partCalls, and_comm, eq_comm]

theorem mem_partCalls_atop :
    (part, passed) ∈ (atop outer inner).partCalls args ↔
      (part = inner ∧ passed = lastOf inner.arity args) ∨
        ∃ result, inner.call (lastOf inner.arity args) = .ok result ∧ part = outer ∧
          passed = if outer.arity = .dyadic then args.take 1 ++ [result] else [result] := by
  simp [partCalls, eq_comm]

theorem mem_partCalls_over_of_dyadic (dyadic : outer.arity = .dyadic) :
    (part, passed) ∈ (Fn.over outer inner).partCalls args ↔
      (part = inner ∧ passed ∈ untilFailure inner.call (args.map fun arg => [arg])) ∨
        (part = outer ∧ (args.map fun arg => [arg]).mapM inner.call = .ok passed) := by
  simp [partCalls, dyadic, and_comm, eq_comm]

theorem mem_partCalls_over_of_not_dyadic (other : outer.arity ≠ .dyadic) :
    (part, passed) ∈ (Fn.over outer inner).partCalls args ↔
      (part = inner ∧ passed = args) ∨
        ∃ result, inner.call args = .ok result ∧ part = outer ∧ passed = [result] := by
  simp [partCalls, other, eq_comm]

theorem mem_partCalls_fork :
    (part, passed) ∈ (fork left center right).partCalls args ↔
      (part = left ∧ passed = lastOf left.arity args) ∨
        ∃ l, left.call (lastOf left.arity args) = .ok l ∧
          ((part = right ∧ passed = lastOf right.arity args) ∨
            ∃ r, right.call (lastOf right.arity args) = .ok r ∧ part = center ∧
              passed = [l, r]) := by
  simp [partCalls, eq_comm]

end PartCalls

/-- The calls of its parts that a function makes when it is called. Called with another number of
arguments than it takes, it refuses and makes none. -/
def passes (fn : Fn) (args : List Value) : List (Fn × List Value) :=
  if args.length = fn.arity.count then fn.partCalls args else []

/-- The calls made on behalf of a call, itself included. -/
inductive Reaches : Fn → List Value → Fn → List Value → Prop
  | self (fn : Fn) (args : List Value) : Reaches fn args fn args
  | part {fn part target : Fn} {args passed reached : List Value}
    (passing : (part, passed) ∈ fn.passes args) (later : Reaches part passed target reached) :
    Reaches fn args target reached

theorem checkCount_eq_ok {arity : Arity} {args : List Value} :
    checkCount arity args = .ok () ↔ args.length = arity.count := by
  unfold checkCount
  split <;> simp_all

theorem lastArguments_eq_ok {arity : Arity} {args : List Value} (enough : arity.count ≤ args.length) :
    lastArguments arity args = .ok (lastOf arity args) := by
  simp [lastArguments, lastOf, enough]

theorem length_lastOf {arity : Arity} {args : List Value} (enough : arity.count ≤ args.length) :
    (lastOf arity args).length = arity.count := by
  simp [lastOf]
  omega

def parts : Fn → List Fn
  | primitive _ | constant _ => []
  | each f | backwards f | selfApply f | reduce f | scan f => [f]
  | atop outer inner | .over outer inner => [outer, inner]
  | fork left center right => [left, center, right]

theorem sizeOf_lt_of_mem_parts {fn part : Fn} (isPart : part ∈ fn.parts) :
    sizeOf part < sizeOf fn := by
  cases fn <;> simp only [parts, List.mem_cons, List.not_mem_nil, or_false] at isPart
  case fork =>
    rcases isPart with rfl | rfl | rfl
    all_goals
      rw [fork.sizeOf_spec]
      omega
  case atop =>
    rcases isPart with rfl | rfl
    all_goals
      rw [atop.sizeOf_spec]
      omega
  case «over» =>
    rcases isPart with rfl | rfl
    all_goals
      rw [Fn.over.sizeOf_spec]
      omega
  all_goals
    subst part
    simp

/-- Induction on the parts of a function; what its constants hold is left aside. -/
theorem induct_parts {P : Fn → Prop} (step : ∀ fn : Fn, (∀ part ∈ fn.parts, P part) → P fn)
    (fn : Fn) : P fn :=
  step fn fun part _ => induct_parts step part
termination_by sizeOf fn
decreasing_by exact sizeOf_lt_of_mem_parts ‹_›

theorem constantsMeet_of_mem_parts {fn part : Fn} (constants : fn.ConstantsMeet demand)
    (isPart : part ∈ fn.parts) : part.ConstantsMeet demand := by
  cases fn <;> simp only [parts, List.mem_cons, List.not_mem_nil, or_false] at isPart
  case fork =>
    obtain ⟨left, center, right⟩ := constants
    rcases isPart with rfl | rfl | rfl <;> assumption
  case atop | «over» =>
    obtain ⟨outer, inner⟩ := constants
    rcases isPart with rfl | rfl <;> assumption
  all_goals
    subst part
    exact constants

theorem mem_parts_of_mem_partCalls {fn part : Fn} {args passed : List Value}
    (made : (part, passed) ∈ fn.partCalls args) : part ∈ fn.parts := by
  cases fn <;> simp only [partCalls] at made <;> grind [parts]

theorem length_of_call_eq_ok {fn : Fn} {args : List Value} {v : Value}
    (yields : fn.call args = .ok v) : args.length = fn.arity.count := by
  unfold call at yields
  obtain ⟨_, checked, _⟩ := bind_eq_ok.mp yields
  exact checkCount_eq_ok.mp checked

/-! With the right number of arguments the check passes, and what is left of a call is what it does
with its parts. -/

section Exact

variable {args : List Value}

-- This makes the equations of `call` once, for all the lemmas below.
attribute [local simp] call

theorem call_primitive {p : Primitive} (counted : args.length = (primitive p).arity.count) :
    (primitive p).call args = p.apply args := by
  rw [call, checkCount_eq_ok.mpr counted]
  rfl

theorem call_constant {value : Value} (counted : args.length = (constant value).arity.count) :
    (constant value).call args = .ok value := by
  rw [call, checkCount_eq_ok.mpr counted]
  rfl

theorem call_each {f : Fn} (counted : args.length = f.each.arity.count) :
    f.each.call args = Iteration.each f.call args := by
  rw [call, checkCount_eq_ok.mpr counted]
  rfl

theorem call_backwards {f : Fn} (counted : args.length = f.backwards.arity.count) :
    f.backwards.call args = f.call args.reverse := by
  rw [call, checkCount_eq_ok.mpr counted]
  rfl

theorem call_selfApply {f : Fn} (x : Value) : f.selfApply.call [x] = f.call [x, x] := by
  rw [call]
  rfl

theorem call_reduce {f : Fn} (x : Value) : f.reduce.call [x] = Iteration.reduce f.call x := by
  rw [call]
  rfl

theorem call_scan {f : Fn} (x : Value) : f.scan.call [x] = Iteration.scan f.call x := by
  rw [call]
  rfl

theorem count_inner_le_atop (outer inner : Fn) :
    inner.arity.count ≤ (atop outer inner).arity.count := by
  simp only [arity]
  split
  · rw [Arity.count_sup]
    exact Nat.le_max_left _ _
  · exact Nat.le_refl _

theorem count_sides_le_fork (left center right : Fn) :
    left.arity.count ≤ (fork left center right).arity.count ∧
      right.arity.count ≤ (fork left center right).arity.count := by
  simp only [arity, Arity.count_sup]
  exact ⟨Nat.le_max_left _ _, Nat.le_max_right _ _⟩

/-- A function of two arguments put atop another one takes at least one. -/
theorem one_le_count_atop {outer : Fn} (inner : Fn) (dyadic : outer.arity = .dyadic) :
    1 ≤ (atop outer inner).arity.count := by
  simp only [arity, dyadic, if_true, Arity.count_sup]
  exact Nat.le_max_right _ _

theorem call_atop {outer inner : Fn} (counted : args.length = (atop outer inner).arity.count) :
    (atop outer inner).call args = (do
      let result ← inner.call (lastOf inner.arity args)
      outer.call (if outer.arity = .dyadic then args.take 1 ++ [result] else [result])) := by
  have enough : inner.arity.count ≤ args.length := counted ▸ count_inner_le_atop outer inner
  rw [call, checkCount_eq_ok.mpr counted]
  simp only [lastArguments_eq_ok enough]
  by_cases dyadic : outer.arity = .dyadic
  · have nonempty := counted ▸ one_le_count_atop inner dyadic
    match args, nonempty with
    | x :: rest, _ =>
      simp only [dyadic, if_true]
      rfl
  · simp only [if_neg dyadic]
    rfl

theorem call_over_of_dyadic {outer inner : Fn} (dyadic : outer.arity = .dyadic)
    (counted : args.length = (.over outer inner : Fn).arity.count) :
    (.over outer inner : Fn).call args = (args.map fun arg => [arg]).mapM inner.call >>= outer.call := by
  rw [call, checkCount_eq_ok.mpr counted]
  simp only [dyadic, if_true, List.mapM_map]
  rfl

theorem call_over_of_not_dyadic {outer inner : Fn} (other : outer.arity ≠ .dyadic)
    (counted : args.length = (.over outer inner : Fn).arity.count) :
    (.over outer inner : Fn).call args = (do outer.call [← inner.call args]) := by
  rw [call, checkCount_eq_ok.mpr counted]
  simp only [if_neg other]
  rfl

theorem call_fork {left center right : Fn}
    (counted : args.length = (fork left center right).arity.count) :
    (fork left center right).call args = (do
      let first ← left.call (lastOf left.arity args)
      let second ← right.call (lastOf right.arity args)
      center.call [first, second]) := by
  obtain ⟨enoughLeft, enoughRight⟩ := count_sides_le_fork left center right
  rw [call, checkCount_eq_ok.mpr counted]
  simp only [lastArguments_eq_ok (counted ▸ enoughLeft), lastArguments_eq_ok (counted ▸ enoughRight)]
  rfl

end Exact

/-- The values of a call that no check bounds: those of `shape` and of scans. -/
def Unchecked : Fn → Prop
  | primitive .shape | scan _ => True
  | _ => False

/-- Every array that an unchecked call yields on behalf of a call is allowed. -/
def YieldsOnly (allowed : Grid Value → Prop) (fn : Fn) (args : List Value) : Prop :=
  ∀ target reached, Reaches fn args target reached → target.Unchecked →
    ∀ grid, target.call reached = .ok (.array grid) → allowed grid

theorem yieldsOnly_anything (fn : Fn) (args : List Value) : fn.YieldsOnly (fun _ => True) args :=
  fun _ _ _ _ _ _ => trivial

theorem YieldsOnly.part {fn part : Fn} {args passed : List Value} (only : YieldsOnly allowed fn args)
    (counted : args.length = fn.arity.count) (passing : (part, passed) ∈ fn.partCalls args) :
    YieldsOnly allowed part passed :=
  fun target reached later =>
    only target reached (.part (by simpa [passes, counted] using passing) later)

/-- The calls of its parts yield values that meet the demand, if their arguments do. -/
def KeepsParts (demand : Demand) (fn : Fn) (args : List Value) : Prop :=
  ∀ part passed, (part, passed) ∈ fn.partCalls args → (∀ arg ∈ passed, arg.Meets demand) →
    ∀ v, part.call passed = .ok v → v.Meets demand

/-- What a function passes to its parts are its arguments, what they hold, and what earlier calls
yielded. -/
theorem partCalls_meet (closed : demand.Closed allowed) {fn : Fn} {args : List Value}
    (held : ∀ arg ∈ args, arg.Meets demand) (kept : fn.KeepsParts demand args) :
    ∀ part passed, (part, passed) ∈ fn.partCalls args → ∀ arg ∈ passed, arg.Meets demand := by
  intro part passed made
  have trailing {arity : Arity} : ∀ arg ∈ lastOf arity args, arg.Meets demand :=
    fun arg member => held arg (List.mem_of_mem_drop member)
  cases fn with
  | primitive | constant => simp [partCalls] at made
  | each f =>
    obtain ⟨rfl, made⟩ := mem_partCalls_each.mp made
    exact Iteration.eachArguments_meet held _ (mem_of_mem_untilFailure made)
  | backwards f =>
    simp only [partCalls, List.mem_singleton, Prod.mk.injEq] at made
    obtain ⟨rfl, rfl⟩ := made
    simpa using held
  | selfApply f =>
    simp only [partCalls, List.mem_singleton, Prod.mk.injEq] at made
    obtain ⟨rfl, rfl⟩ := made
    simpa using held
  | reduce f =>
    obtain ⟨rfl, x, given, made⟩ := mem_partCalls_reduce.mp made
    refine Iteration.reduceArguments_meet closed (held x given) (fun sub made => ?_) _ made
    exact kept part sub (mem_partCalls_reduce.mpr ⟨rfl, x, given, made⟩)
  | scan f =>
    obtain ⟨rfl, x, given, made⟩ := mem_partCalls_scan.mp made
    refine Iteration.scanArguments_meet closed (held x given) (fun sub made => ?_) _ made
    exact kept part sub (mem_partCalls_scan.mpr ⟨rfl, x, given, made⟩)
  | atop outer inner =>
    rcases mem_partCalls_atop.mp made with ⟨rfl, rfl⟩ | ⟨result, first, rfl, rfl⟩
    · exact trailing
    · have met := kept inner _ (by simp [partCalls]) trailing result first
      intro arg member
      split at member
      · rcases List.mem_append.mp member with given | made
        · exact held arg (List.mem_of_mem_take given)
        · simpa [List.mem_singleton.mp made] using met
      · simpa [List.mem_singleton.mp member] using met
  | «over» outer inner =>
    by_cases dyadic : outer.arity = .dyadic
    · have single : ∀ sub ∈ args.map fun arg => [arg], ∀ arg ∈ sub, arg.Meets demand := by
        intro sub member
        obtain ⟨arg, given, rfl⟩ := List.mem_map.mp member
        simpa using held arg given
      rcases (mem_partCalls_over_of_dyadic dyadic).mp made with ⟨rfl, made⟩ | ⟨rfl, ran⟩
      · exact single _ (mem_of_mem_untilFailure made)
      · refine (forall_of_mapM_eq_ok ran fun sub member => kept inner sub ?_ (single sub member)).2
        rw [← untilFailure_of_mapM_eq_ok ran] at member
        exact (mem_partCalls_over_of_dyadic dyadic).mpr (.inl ⟨rfl, member⟩)
    · rcases (mem_partCalls_over_of_not_dyadic dyadic).mp made with
        ⟨rfl, rfl⟩ | ⟨result, first, rfl, rfl⟩
      · exact held
      · have met := kept inner args (by simp [partCalls, dyadic]) held result first
        simpa using met
  | fork left center right =>
    rcases mem_partCalls_fork.mp made with
      ⟨rfl, rfl⟩ | ⟨l, first, ⟨rfl, rfl⟩ | ⟨r, second, rfl, rfl⟩⟩
    · exact trailing
    · exact trailing
    · have leftMet := kept left _ (by simp [partCalls]) trailing l first
      have rightMet := kept right _ (by simp [partCalls, first]) trailing r second
      simpa using ⟨leftMet, rightMet⟩

/-- A call yields a value that meets the demand, if its arguments, the constants in the function and
what the calls of the parts yield do. -/
theorem call_meets_of_kept (closed : demand.Closed allowed) {fn : Fn} {args : List Value} {v : Value}
    (constants : fn.ConstantsMeet demand) (held : ∀ arg ∈ args, arg.Meets demand)
    (kept : fn.KeepsParts demand args) (yields : fn.call args = .ok v)
    (fits : fn.Unchecked → ∀ grid, v = .array grid → allowed grid) : v.Meets demand := by
  have counted := length_of_call_eq_ok yields
  have result {part : Fn} {passed : List Value} {w : Value}
      (made : (part, passed) ∈ fn.partCalls args) (given : part.call passed = .ok w) :
      w.Meets demand :=
    kept part passed made (partCalls_meet closed held kept part passed made) w given
  cases fn with
  | primitive p =>
    refine Primitive.apply_meets closed held (call_primitive counted ▸ yields) fun isShape => ?_
    subst p
    exact fits trivial
  | constant value =>
    rw [call_constant counted] at yields
    cases yields
    exact constants
  | each f =>
    rw [call_each counted] at yields
    obtain ⟨results, ran, -⟩ := Iteration.each_eq_ok yields
    refine Iteration.each_meets held (fun sub made _ w given => ?_) yields
    rw [← untilFailure_of_mapM_eq_ok ran] at made
    exact result (List.mem_map_of_mem made) given
  | backwards f =>
    rw [call_backwards counted] at yields
    exact result (by simp [partCalls]) yields
  | selfApply f =>
    obtain ⟨x, rfl⟩ := List.length_eq_one_iff.mp counted
    rw [call_selfApply] at yields
    exact result (by simp [partCalls]) yields
  | reduce f =>
    obtain ⟨x, rfl⟩ := List.length_eq_one_iff.mp counted
    rw [call_reduce] at yields
    refine Iteration.reduce_meets closed (held x (by simp)) (fun sub made _ w given => ?_) yields
    exact result (by simpa [partCalls] using made) given
  | scan f =>
    obtain ⟨x, rfl⟩ := List.length_eq_one_iff.mp counted
    rw [call_scan] at yields
    refine Iteration.scan_meets closed (held x (by simp)) (fun sub made _ w given => ?_) yields
      (fits trivial)
    exact result (by simpa [partCalls] using made) given
  | atop outer inner =>
    rw [call_atop counted] at yields
    obtain ⟨inside, first, second⟩ := bind_eq_ok.mp yields
    exact result (by simp [partCalls, first]) second
  | «over» outer inner =>
    by_cases dyadic : outer.arity = .dyadic
    · rw [call_over_of_dyadic dyadic counted] at yields
      obtain ⟨results, ran, second⟩ := bind_eq_ok.mp yields
      exact result (by simp [partCalls, dyadic, ran]) second
    · rw [call_over_of_not_dyadic dyadic counted] at yields
      obtain ⟨inside, first, second⟩ := bind_eq_ok.mp yields
      exact result (by simp [partCalls, dyadic, first]) second
  | fork left center right =>
    rw [call_fork counted] at yields
    obtain ⟨l, first, yields⟩ := bind_eq_ok.mp yields
    obtain ⟨r, second, third⟩ := bind_eq_ok.mp yields
    exact result (by simp [partCalls, first, second]) third

/-- A call yields a value that meets the demand, if its arguments and the constants in the function
do and the unchecked arrays made on the way are allowed. -/
theorem call_meets (closed : demand.Closed allowed) {fn : Fn} {args : List Value} {v : Value}
    (constants : fn.ConstantsMeet demand) (held : ∀ arg ∈ args, arg.Meets demand)
    (only : fn.YieldsOnly allowed args) (yields : fn.call args = .ok v) : v.Meets demand := by
  induction fn using induct_parts generalizing args v with
  | step fn ih =>
    have counted := length_of_call_eq_ok yields
    have kept : fn.KeepsParts demand args := by
      intro part passed made met w given
      have isPart := mem_parts_of_mem_partCalls made
      exact ih part isPart (constantsMeet_of_mem_parts constants isPart) met (only.part counted made)
        given
    refine call_meets_of_kept closed constants held kept yields fun unchecked grid same => ?_
    exact only fn args (.self fn args) unchecked grid (same ▸ yields)

/-- Whatever a call reaches, it reaches with arguments that meet the demand. -/
theorem Reaches.meets (closed : demand.Closed allowed) {fn target : Fn} {args reached : List Value}
    (reaches : Reaches fn args target reached) (constants : fn.ConstantsMeet demand)
    (held : ∀ arg ∈ args, arg.Meets demand) (only : fn.YieldsOnly allowed args) :
    target.ConstantsMeet demand ∧ (∀ arg ∈ reached, arg.Meets demand) ∧
      target.YieldsOnly allowed reached := by
  induction reaches with
  | self => exact ⟨constants, held, only⟩
  | @part fn part target args passed reached passing later ih =>
    unfold passes at passing
    split at passing
    · rename_i counted
      have isPart := mem_parts_of_mem_partCalls passing
      have partConstants {part : Fn} (isPart : part ∈ fn.parts) : part.ConstantsMeet demand :=
        constantsMeet_of_mem_parts constants isPart
      have kept : fn.KeepsParts demand args := by
        intro part passed made met w given
        exact call_meets closed (partConstants (mem_parts_of_mem_partCalls made)) met
          (only.part counted made) given
      exact ih (partConstants isPart) (partCalls_meet closed held kept part passed passing)
        (only.part counted passing)
    · simp at passing

end Fn

end Tacit
