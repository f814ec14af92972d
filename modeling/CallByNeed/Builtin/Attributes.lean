import CallByNeed.Builtin.Answer

/-!
# Builtins on attributes and classes
-/

namespace CallByNeed.Builtin

/-- The first argument without tag as a vector, with the tagged arguments as further attributes. -/
def withAttributes (args : ArgList) : Except EvalError Answer :=
  match args.find? (·.tag.isNone) with
  | none => .error (.invalidArgument "argument \".Data\" is missing")
  | some data =>
    match data.value with
    | .vector v =>
      let given := args.filterMap fun arg => arg.tag.map fun tag => (tag, arg.value)
      .ok (.fresh v.elements
        (given.foldl (fun attributes (name, value) => attributes.set name value) v.attributes))
    | other =>
      .error (.invalidArgument ("attributes are not supported on " ++ other.typeName))

def attributeOf (args : ArgList) : Except EvalError Answer := do
  let values ← argsByName args ["x", "which"]
  let x ← requireArg "attr" values 0
  let which ← nameArg (← requireArg "attr" values 1) "which"
  return .existing ((x.attribute? ⟨which⟩).getD .null)

/-- The class that a value shows: numbers are just numeric, and matrices are matrices and arrays. -/
def shownClass (x : Value) : List String :=
  match x with
  | .vector ⟨_, .double _, attributes⟩ =>
    if attributes.extents?.isSome then ["matrix", "array"] else ["numeric"]
  | _ => x.classes

/-- The class of a value: the declared one as it is, or the one that it shows. -/
def classOf (args : ArgList) : Except EvalError Answer := do
  let values ← argsByName args ["x"]
  let x ← requireArg "class" values 0
  match x.attribute? .classAttribute with
  | some declared => return .existing declared
  | none => return .strings (shownClass x)

/-- The environment of a closure, or the calling environment if no function is given. -/
def environmentOf (args : ArgList) (env : EnvId) : Except EvalError Answer := do
  match ← argsByName args ["fun"] with
  | [.closure closure] => return .existing (.environment closure.env)
  | [.null] => return .existing (.environment env)
  | [value] => return .existing (if value.isMissingArg then .environment env else .null)
  | _ => return .existing .null

end CallByNeed.Builtin
