import CallByNeed.Kernel.Table
import CallByNeed.Value.Inspect

/-!
# Loop expressions

What a loop adds in each iteration, as an expression over the loop variable, constants,
variables that the loop does not change (`LoopExpr.invariant`), elementwise
operations and named computations.  Evaluating it over all values of the
loop variable at once gives a lane: either one number for each iteration, or a
vector that is the same in every iteration.  Where the result could differ from
that of the single iterations, evaluation gives up with a `Bailout`.
-/

namespace CallByNeed

/-- Why a loop is not run on whole vectors. -/
inductive Bailout where
  /-- A function of the body is no longer the builtin it was. -/
  | guardFailed (name : Symbol)
  | unforcedOperand (name : Symbol)
  /-- A variable could not be read or written. -/
  | lookup (name : Symbol)
  | sequenceType
  | accumulatorShape
  | invariantType (name : Symbol)
  /-- Attributes of an operand would show in the result. -/
  | attributeFlow
  | nonScalarIteration
  | kernelUnavailable (computation : String)
  | kernelRejected (computation : String)
  /-- An operation has the wrong number of operands. -/
  | shape
  deriving DecidableEq, Repr

def Bailout.message : Bailout → String
  | guardFailed name => "binding of '" ++ name.name ++ "' changed since the loop was analyzed"
  | unforcedOperand name => "'" ++ name.name ++ "' is an unforced promise"
  | lookup name => "'" ++ name.name ++ "' could not be read"
  | sequenceType => "loop sequence is not a plain double vector"
  | accumulatorShape => "accumulator is not an unclassed length-1 double"
  | invariantType name => "'" ++ name.name ++ "' is not an unclassed double"
  | attributeFlow => "operand attributes would reach the result"
  | nonScalarIteration => "per-iteration value is not a scalar"
  | kernelUnavailable computation => "no kernel for '" ++ computation ++ "'"
  | kernelRejected computation => "kernel for '" ++ computation ++ "' rejected its input"
  | shape => "operand count does not fit the operation"

inductive ElementwiseOp where
  | unary (op : UnaryOp)
  | binary (op : BinaryOp)
  deriving DecidableEq, Repr

/-- An expression that is evaluated in all iterations at once. -/
inductive LoopExpr where
  | index
  | constant (x : Float)
  /-- A variable that the loop does not assign. -/
  | invariant (name : Symbol)
  | map (op : ElementwiseOp) (operands : List LoopExpr)
  /-- A computation that has a kernel. -/
  | computation (name : String) (operand : LoopExpr)

instance : Inhabited LoopExpr := ⟨.index⟩

/-- The value of an expression in all iterations. -/
structure Lane where
  /-- One number for each iteration if the lane varies, and else the whole vector. -/
  values : Array Float
  varying : Bool
  /-- The extents of a matrix that is the same in every iteration. -/
  extents : Option (Nat × Nat)
  /-- Whether there are no attributes beside the extents. -/
  plain : Bool

/-- A vector without attributes that is the same in every iteration. -/
def Lane.constant (values : Array Float) : Lane := ⟨values, false, none, true⟩

/-- The numbers of a variable together with its attributes. -/
structure DoubleVector where
  values : Array Float
  attributes : Attributes

namespace LoopExpr

mutual

def readsIndex : LoopExpr → Bool
  | index => true
  | constant _ => false
  | invariant _ => false
  | map _ operands => anyReadsIndex operands
  | computation _ operand => operand.readsIndex

def anyReadsIndex : List LoopExpr → Bool
  | [] => false
  | e :: rest => e.readsIndex || anyReadsIndex rest

end

mutual

def computations : LoopExpr → List String
  | map _ operands => computationsOfAll operands
  | computation name operand => operand.computations ++ [name]
  | _ => []

def computationsOfAll : List LoopExpr → List String
  | [] => []
  | e :: rest => e.computations ++ computationsOfAll rest

end

mutual

/-- The occurrences of variables that the loop does not assign, from left to right. -/
def variableUses : LoopExpr → List Symbol
  | invariant name => [name]
  | map _ operands => variableUsesOfAll operands
  | computation _ operand => operand.variableUses
  | _ => []

def variableUsesOfAll : List LoopExpr → List Symbol
  | [] => []
  | e :: rest => e.variableUses ++ variableUsesOfAll rest

end

/-- The variables that the loop does not assign, each once, in the order of their first use. -/
def invariants (e : LoopExpr) : List Symbol :=
  e.variableUses.foldl (fun seen name => if seen.contains name then seen else seen ++ [name]) []

end LoopExpr

namespace Lane

/-- The lane of a variable that the loop does not assign. -/
def ofVector (v : DoubleVector) : Lane :=
  let extents := v.attributes.extents?
  { values := v.values
    varying := false
    extents := extents
    plain := v.attributes.entries.length == if extents.isSome then 1 else 0 }

/-- Whether attributes of the lane would show in a result. -/
def carriesAttributes (lane : Lane) : Bool := !lane.plain || lane.extents.isSome

/-- Whether the lane can be an operand beside one that varies: it varies itself, or is a single
    number. -/
def fitsVarying (lane : Lane) : Bool := lane.varying || lane.values.size == 1

def map : ElementwiseOp → List Lane → Except Bailout Lane
  | .unary op, [x] => .ok { x with values := op.map x.values }
  | .binary op, [x, y] =>
    if (x.varying && !y.fitsVarying) || (y.varying && !x.fitsVarying) then
      .error .nonScalarIteration
    else .ok ⟨op.map x.values y.values, x.varying || y.varying, none, true⟩
  | _, _ => .error .shape

/-- The result of a named computation on a lane that does not vary. -/
def compute (kernels : KernelTable) (name : String) (lane : Lane) : Except Bailout Lane :=
  if lane.varying then .error .nonScalarIteration
  else
    match kernels.get? name with
    | none => .error (.kernelUnavailable name)
    | some kernel =>
      match kernel.compute name ⟨lane.values, lane.extents⟩ with
      | none => .error (.kernelRejected name)
      | some values => .ok (.constant values)

end Lane

namespace LoopExpr

mutual

/-- The lane of an expression, where the loop variable takes the values `sequence`. -/
def evaluate (sequence : Array Float) (given : List (Symbol × DoubleVector))
    (kernels : KernelTable) : LoopExpr → Except Bailout Lane
  | index => .ok ⟨sequence, true, none, true⟩
  | constant x => .ok (.constant #[x])
  | invariant name =>
    match given.lookup name with
    | some v => .ok (.ofVector v)
    | none => .error (.lookup name)
  | map op operands => do
    let lanes ← evaluateAll sequence given kernels operands
    if lanes.any Lane.carriesAttributes then .error .attributeFlow else Lane.map op lanes
  | computation name operand => do
    (← operand.evaluate sequence given kernels).compute kernels name

def evaluateAll (sequence : Array Float) (given : List (Symbol × DoubleVector))
    (kernels : KernelTable) : List LoopExpr → Except Bailout (List Lane)
  | [] => .ok []
  | e :: rest => do
    let lane ← e.evaluate sequence given kernels
    return lane :: (← evaluateAll sequence given kernels rest)

end

end LoopExpr

end CallByNeed
