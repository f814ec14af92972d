import CallByNeed.Arithmetic.Matrix
import CallByNeed.Builtin.Answer
import CallByNeed.Value.Combine

/-!
# Numeric builtins

Arithmetic, comparison, sequences, combination and reduction of vectors.  A
binary operation keeps the attributes of the operands that are as long as the
result, those of the left one first; a function of one vector keeps all of
them; comparisons and reductions keep none.
-/

namespace CallByNeed.Builtin

/-! ## Arithmetic -/

/-- The attributes that an operand gives to a result of this size. -/
def carriedAttributes (operand : Value) (size : Nat) : Attributes :=
  match operand.attributes? with
  | some attributes => if operand.length = size then attributes else .empty
  | none => .empty

def binary (op : BinaryOp) (x y : Value) : Except EvalError Answer := do
  let xs ← numbersOf x "binary operator"
  let ys ← numbersOf y "binary operator"
  let values := op.map xs ys
  return .fresh (.double values)
    ((carriedAttributes x values.size).merged (carriedAttributes y values.size))

def elementwise (change : Array Float → Array Float) (x : Value) : Except EvalError Answer := do
  let xs ← numbersOf x "mathematical function"
  return .fresh (.double (change xs)) (x.attributes?.getD .empty)

/-- An arithmetic operator on one operand: only plus and minus have a meaning. -/
def prefixed (op : BinaryOp) (x : Value) : Except EvalError Answer :=
  match op with
  | .add => elementwise id x
  | .sub => elementwise UnaryOp.neg.map x
  | _ => .error (.invalidArgument ("invalid unary operator '" ++ op.spelling ++ "'"))

/-- An arithmetic operator on operands without methods. -/
def arithmetic (op : BinaryOp) (args : ArgList) : Except EvalError Answer :=
  match args with
  | [x] => prefixed op x.value
  | [x, y] => binary op x.value y.value
  | _ =>
    .error (.invalidArgument
      ("operator '" ++ op.spelling ++ "' needs one or two arguments"))

def math (f : MathFunction) (args : ArgList) : Except EvalError Answer :=
  match args with
  | [x] => elementwise (UnaryOp.math f).map x.value
  | _ =>
    .error (.invalidArgument
      (toString args.length ++ " arguments passed to a math function which requires 1"))

def compare (op : Comparison) (args : ArgList) : Except EvalError Answer :=
  match args with
  | [x, y] => do
    let xs ← numbersOf x.value "comparison"
    let ys ← numbersOf y.value "comparison"
    return .fresh (.logical (op.map xs ys)) .empty
  | _ => .error (.invalidArgument "comparison needs two arguments")

/-! ## Sequences and vectors -/

/-- No sequence is longer than this. -/
def longestSequence : Float := 4503599627370496

/-- The numbers from `first` towards `last` in steps of one. -/
def stepsOfOne (first last : Float) : Except EvalError (Array Float) :=
  let span := (last - first).abs.floor
  if span < longestSequence then
    let step : Float := if last >= first then 1 else -1
    .ok (Array.ofFn fun i : Fin (span.toUInt64.toNat + 1) => first + step * i.val.toFloat)
  else .error (.invalidArgument "result would be too long a vector")

/-- The operator `:`. -/
def sequence (args : ArgList) : Except EvalError Answer :=
  match args with
  | [x, y] =>
    match x.value.number?, y.value.number? with
    | some first, some last =>
      if first.isFinite && last.isFinite then .doubles <$> stepsOfOne first last
      else .error (.invalidArgument "NA/NaN argument")
    | _, _ => .error (.typeError "argument of length 0")
  | _ => .error (.invalidArgument "':' needs two arguments")

def elementsToCombine (v : Value) : Except EvalError Elements :=
  match v with
  | .vector v => .ok v.elements
  | _ => .error (.typeError ("cannot combine a value of type " ++ v.typeName))

def combine (args : ArgList) : Except EvalError Answer := do
  let values := (args.map (·.value)).filter fun v => !v.isNull
  if values.isEmpty then return .existing .null
  else return .fresh (.combine (← values.mapM elementsToCombine)) .empty

def length (args : ArgList) : Except EvalError Answer :=
  match args with
  | [x] => .ok (.double x.value.length.toFloat)
  | _ => .error (.invalidArgument "'length' needs one argument")

/-! ## Reductions -/

/-- The tag of an argument of `sum` that is accepted and ignored. -/
def naRemove : Symbol := ⟨"na.rm"⟩

def sumOf (args : ArgList) : Except EvalError Answer := do
  let summands := args.filter fun arg => arg.tag != some naRemove
  let parts ← summands.mapM fun arg => numbersOf arg.value "sum"
  return .double (sum (parts.map Array.toList).flatten.toArray)

def meanOf (args : ArgList) : Except EvalError Answer :=
  match args with
  | [] => .error (.invalidArgument "argument \"x\" is missing")
  | x :: _ => do return .double (mean (← numbersOf x.value "mean"))

def reduce : Reduction → ArgList → Except EvalError Answer
  | .sum, args => sumOf args
  | .mean, args => meanOf args

/-- The matrix that the first argument is. -/
def matrixArg (op : Margin) (args : ArgList) : Except EvalError Matrix :=
  match (args.head?.map (·.value) : Option Value) with
  | some (.vector ⟨_, .double xs, attributes⟩) =>
    match attributes.extents?.bind (Matrix.ofCells? xs) with
    | some m => .ok m
    | none =>
      .error (.invalidArgument
        ("'x' must be an array of at least two dimensions in '" ++ op.name ++ "'"))
  | _ => .error (.invalidArgument ("'x' must be numeric in '" ++ op.name ++ "'"))

def marginOf : Margin → Matrix → Array Float
  | .rowMeans, m => m.rowMeans
  | .colSums, m => m.colSums

def margin (op : Margin) (args : ArgList) : Except EvalError Answer := do
  return .doubles (marginOf op (← matrixArg op args))

end CallByNeed.Builtin
