import CallByNeed.Builtin.Attributes
import CallByNeed.Builtin.Numeric
import CallByNeed.Proofs.Positions.Matching

/-!
# Answers by position

The eager builtins that compute with the values of their arguments only.  They
read names of length one, extents, recycled vectors, the cells of a matrix and
the values that matching gave to their formals, all of them by position.  Each
answers as the builtin that it spells out.
-/

namespace CallByNeed.Positional

/-! ## Names and classes -/

def nameText? : Value → Option (Option String)
  | .symbol name => some (if name.isMissing then none else some name.name)
  | value => singleString? value

def implicitClass : Value → Option (List String)
  | .vector ⟨_, .double _, attributes⟩ => do
    return if (← extents? attributes).isSome then ["matrix", "array", "double", "numeric"]
      else ["double", "numeric"]
  | value => some value.implicitClass

def classes (value : Value) : Option (List String) :=
  match value.attribute? .classAttribute with
  | some (.vector ⟨_, .character names, _⟩) => some names.toList
  | _ => implicitClass value

theorem nameText?_eq (value : Value) : nameText? value = some value.nameText? := by
  cases value with
  | vector v => exact singleString?_eq (.vector v)
  | _ => rfl

theorem implicitClass_eq (value : Value) : implicitClass value = some value.implicitClass := by
  match value with
  | .vector ⟨_, .double _, attributes⟩ =>
    simp only [implicitClass, extents?_eq]
    rfl
  | .vector ⟨_, .logical _, _⟩ | .vector ⟨_, .character _, _⟩ => rfl
  | .null | .symbol _ | .call _ | .list _ | .dots _ | .closure _ | .builtin _ _ | .promise _
  | .environment _ => rfl

theorem classes_eq (value : Value) : classes value = some value.classes := by
  unfold classes Value.classes
  split <;> simp only [*, implicitClass_eq]

/-! ## Arguments -/

def argsByName (args : ArgList) (formals : List String) : ReadM EvalError (List Value) := do
  let formals := formals.map fun name => Arg.tagged ⟨name⟩ Value.missingArg
  return (← matchFormals formals args true).map (·.value)

def nameArg (value : Value) (what : String) : ReadM EvalError String := do
  match ← there (nameText? value) with
  | some text => return text
  | none =>
    throw (.invalidArgument ("'" ++ what ++ "' must be a single string, not " ++ value.typeName))

theorem argsByName_eq (args : ArgList) (formals : List String) :
    argsByName args formals = ends (CallByNeed.argsByName args formals) := by
  simp only [argsByName, matchFormals_eq, CallByNeed.argsByName, ends_bind]
  rfl

theorem nameArg_eq (value : Value) (what : String) :
    nameArg value what = ends (CallByNeed.nameArg value what) := by
  simp only [nameArg, nameText?_eq, there_some, pure_bind, CallByNeed.nameArg]
  cases value.nameText? <;> rfl

/-- Every formal of a builtin gets a value. -/
theorem length_argsByName {args : ArgList} {formals : List String} {values : List Value}
    (h : CallByNeed.argsByName args formals = .ok values) : values.length = formals.length := by
  obtain ⟨matched, hmatched, h⟩ := bind_eq_ok_iff.1 h
  obtain ⟨pairs, hpair, -⟩ := bind_eq_ok_iff.1 hmatched
  cases h
  rw [List.length_map, Matching.length_of_matchFormals hpair hmatched, List.length_map]

/-! ## Arithmetic and matrices -/

def binary (op : BinaryOp) (x y : Value) : ReadM EvalError Answer := do
  let xs ← ends (numbersOf x "binary operator")
  let ys ← ends (numbersOf y "binary operator")
  let values ← there (zipRecycled op.apply xs ys)
  return .fresh (.double values)
    ((Builtin.carriedAttributes x values.size).merged (Builtin.carriedAttributes y values.size))

def arithmetic (op : BinaryOp) : ArgList → ReadM EvalError Answer
  | [x, y] => binary op x.value y.value
  | args => ends (Builtin.arithmetic op args)

def compare (op : Comparison) : ArgList → ReadM EvalError Answer
  | [x, y] => do
    let xs ← ends (numbersOf x.value "comparison")
    let ys ← ends (numbersOf y.value "comparison")
    return .fresh (.logical (← there (zipRecycled op.test xs ys))) .empty
  | _ => throw (.invalidArgument "comparison needs two arguments")

/-- The cells of the matrix that the first argument is, with its extents. -/
def matrixArg (op : Margin) (args : ArgList) : ReadM EvalError (Array Float × Nat × Nat) := do
  let notMatrix := EvalError.invalidArgument
    ("'x' must be an array of at least two dimensions in '" ++ op.name ++ "'")
  match (args.head?.map (·.value) : Option Value) with
  | some (.vector ⟨_, .double cells, attributes⟩) =>
    match ← there (extents? attributes) with
    | some (rows, cols) =>
      if rows * cols = cells.size then return (cells, rows, cols) else throw notMatrix
    | none => throw notMatrix
  | _ => throw (.invalidArgument ("'x' must be numeric in '" ++ op.name ++ "'"))

def margin (op : Margin) (args : ArgList) : ReadM EvalError Answer := do
  let (cells, rows, cols) ← matrixArg op args
  return .doubles (← there (marginOf op cells rows cols))

theorem binary_eq (op : BinaryOp) (x y : Value) :
    binary op x y = ends (Builtin.binary op x y) := by
  simp only [binary, zipRecycled_eq, there_some, pure_bind, Builtin.binary, ends_bind]
  rfl

theorem arithmetic_eq (op : BinaryOp) (args : ArgList) :
    arithmetic op args = ends (Builtin.arithmetic op args) := by
  unfold arithmetic
  split
  · exact binary_eq op _ _
  · rfl

theorem compare_eq (op : Comparison) (args : ArgList) :
    compare op args = ends (Builtin.compare op args) := by
  match args with
  | [x, y] =>
    simp only [compare, zipRecycled_eq, there_some, pure_bind, Builtin.compare, ends_bind]
    rfl
  | [] | [_] | _ :: _ :: _ :: _ => rfl

theorem matrixArg_eq (op : Margin) (args : ArgList) :
    matrixArg op args =
      ends ((Builtin.matrixArg op args).map fun m => (m.cells, m.rows, m.cols)) := by
  cases args with
  | nil => rfl
  | cons arg rest =>
    obtain ⟨tag, value⟩ := arg
    cases value with
    | vector v =>
      obtain ⟨identity, elements, attributes⟩ := v
      cases elements with
      | double cells =>
        simp only [matrixArg, Builtin.matrixArg, List.head?_cons, Option.map_some, extents?_eq,
          there_some, pure_bind]
        cases attributes.extents? with
        | none => rfl
        | some extents =>
          by_cases h : extents.1 * extents.2 = cells.size <;>
            simp [Matrix.ofCells?, h] <;> rfl
      | logical | character => rfl
    | null | symbol | call | list | dots | closure | builtin | promise | environment => rfl

theorem margin_eq (op : Margin) (args : ArgList) :
    margin op args = ends (Builtin.margin op args) := by
  simp only [margin, matrixArg_eq, Builtin.margin, ends_bind]
  cases Builtin.matrixArg op args with
  | error e => rfl
  | ok m =>
    simp only [Except.map, ends_ok, pure_bind, marginOf_eq, there_some]
    rfl

/-! ## Attributes and classes -/

def withAttributes (args : ArgList) : ReadM EvalError Answer :=
  match args.find? (·.tag.isNone) with
  | none => throw (.invalidArgument "argument \".Data\" is missing")
  | some data =>
    match data.value with
    | .vector v => do
      let given := args.filterMap fun arg => arg.tag.map fun tag => (tag, arg.value)
      let attributes ← there <| given.foldlM
        (fun attributes (name, value) => setAttribute attributes name value) v.attributes
      return .fresh v.elements attributes
    | other => throw (.invalidArgument ("attributes are not supported on " ++ other.typeName))

def attributeOf (args : ArgList) : ReadM EvalError Answer := do
  let values ← argsByName args ["x", "which"]
  let x ← ends (requireArg "attr" values 0)
  let which ← nameArg (← ends (requireArg "attr" values 1)) "which"
  return .existing ((x.attribute? ⟨which⟩).getD .null)

def shownClass (x : Value) : Option (List String) :=
  match x with
  | .vector ⟨_, .double _, attributes⟩ => do
    return if (← extents? attributes).isSome then ["matrix", "array"] else ["numeric"]
  | _ => classes x

def classOf (args : ArgList) : ReadM EvalError Answer := do
  let values ← argsByName args ["x"]
  let x ← ends (requireArg "class" values 0)
  match x.attribute? .classAttribute with
  | some declared => return .existing declared
  | none => return .strings (← there (shownClass x))

def environmentOf (args : ArgList) (env : EnvId) : ReadM EvalError Answer := do
  let values ← argsByName args ["fun"]
  match ← there values[0]? with
  | .closure closure => return .existing (.environment closure.env)
  | .null => return .existing (.environment env)
  | value => return .existing (if value.isMissingArg then .environment env else .null)

theorem foldlM_setAttribute (given : List (Symbol × Value)) (attributes : Attributes) :
    given.foldlM (fun attributes (name, value) => setAttribute attributes name value) attributes =
      some (given.foldl (fun attributes (name, value) => attributes.set name value)
        attributes) := by
  simp only [setAttribute_eq]
  exact List.foldlM_pure

theorem withAttributes_eq (args : ArgList) :
    withAttributes args = ends (Builtin.withAttributes args) := by
  unfold withAttributes Builtin.withAttributes
  cases args.find? (·.tag.isNone) with
  | none => rfl
  | some data =>
    obtain ⟨tag, value⟩ := data
    cases value with
    | vector v =>
      simp only [foldlM_setAttribute, there_some, pure_bind]
      rfl
    | _ => rfl

theorem attributeOf_eq (args : ArgList) :
    attributeOf args = ends (Builtin.attributeOf args) := by
  simp only [attributeOf, argsByName_eq, nameArg_eq, Builtin.attributeOf, ends_bind]
  rfl

theorem shownClass_eq (x : Value) : shownClass x = some (Builtin.shownClass x) := by
  cases x with
  | vector v =>
    obtain ⟨identity, elements, attributes⟩ := v
    cases elements with
    | double xs =>
      simp only [shownClass, extents?_eq]
      rfl
    | logical xs => exact classes_eq (.vector ⟨identity, .logical xs, attributes⟩)
    | character xs => exact classes_eq (.vector ⟨identity, .character xs, attributes⟩)
  | null | symbol | call | list | dots | closure | builtin | promise | environment => rfl

theorem classOf_eq (args : ArgList) : classOf args = ends (Builtin.classOf args) := by
  simp only [classOf, argsByName_eq, shownClass_eq, there_some, pure_bind, Builtin.classOf,
    ends_bind]
  refine bind_congr fun values => bind_congr fun x => ?_
  cases x.attribute? .classAttribute <;> rfl

theorem environmentOf_eq (args : ArgList) (env : EnvId) :
    environmentOf args env = ends (Builtin.environmentOf args env) := by
  simp only [environmentOf, argsByName_eq, Builtin.environmentOf, ends_bind]
  cases hvalues : CallByNeed.argsByName args ["fun"] with
  | error e => rfl
  | ok values =>
    obtain ⟨value, rfl⟩ := List.length_eq_one_iff.1 (length_argsByName hvalues)
    simp only [ends_ok, pure_bind, List.getElem?_cons_zero, there_some]
    cases value <;> rfl

end CallByNeed.Positional
