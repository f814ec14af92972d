import CallByNeed.Evaluator.Basic

/-!
# Loop analysis

A loop can run on whole vectors if its body is `total <- total + increment`,
possibly as the only statement of a block, and the increment is made of numbers,
variables, elementwise operations and computations that have a kernel.  Function
names are read as what they stand for in the environment of the loop, and each
of them is recorded in the guard.  A name that cannot be resolved makes the loop
unfit; the error that resolving it raised is dropped.
-/

namespace CallByNeed

/-- The computation by which a loop accumulates. -/
def accumulatingComputation : String := "sum"

/-- An analysis: it may find the loop unfit, and it records the function names it relies on. -/
abbrev AnalysisM := StateT (List GuardedName) (OptionT SessionM)

/-- The function name and the arguments of a call of a named function. -/
def Value.namedCall? : Value → Option (Symbol × ArgList)
  | .call ⟨_, .symbol name, args⟩ => some (name, args)
  | _ => none

/-- Whether an argument is supplied, has no tag and is not `...`. -/
def Arg.isPlain (arg : Arg Value) : Bool :=
  arg.tag.isNone && !arg.value.isMissingArg && !arg.value.isEllipsis

def plainValues? (args : ArgList) : Option (List Value) :=
  if args.all Arg.isPlain then some (args.map (·.value)) else none

/-- The expression that an operation makes of its operands, if it has as many as it needs; a
    computation must not depend on the loop variable. -/
def LoopOp.expr? : LoopOp → List LoopExpr → Option LoopExpr
  | .unary op, [x] => some (.map (.unary op) [x])
  | .binary op, [x, y] => some (.map (.binary op) [x, y])
  | .binary .sub, [x] => some (.map (.unary .neg) [x])
  | .binary .add, [x] => some x
  | .computation name, [x] => if x.readsIndex then none else some (.computation name x)
  | _, _ => none

namespace Evaluator

variable (ev : Evaluator)

/-- What may stand in the place of the function called `name`. -/
def loopOp (env : EnvId) (name : Symbol) : AnalysisM LoopOp := do
  let found ← (SessionM.attempt (ev.function? env name) : SessionM _)
  match found with
  | some (some (.builtin identity builtin)) =>
    match builtin.loopOp? with
    | some op =>
      modify fun guard =>
        if guard.any (·.name == name) then guard else guard ++ [⟨name, identity, builtin⟩]
      return op
    | none => failure
  | _ => failure

mutual

/-- The increment of a loop over `var` that accumulates into `accumulator`, as a loop expression. -/
def loopExprOf (env : EnvId) (var accumulator : Symbol) : Value → AnalysisM LoopExpr
  | .symbol name =>
    if name = var then return .index
    else if name = accumulator || name.isMissing || name.isEllipsis then failure
    else return .invariant name
  | .vector ⟨_, .double xs, attributes⟩ =>
    match xs.toList with
    | [x] => if attributes.isEmpty then return .constant x else failure
    | _ => failure
  | .call ⟨_, .symbol name, args⟩ =>
    if args.all Arg.isPlain then do
      let op ← ev.loopOp env name
      let operands ← loopExprsOf env var accumulator args
      StateT.lift (OptionT.mk (pure (op.expr? operands)))
    else failure
  | _ => failure

def loopExprsOf (env : EnvId) (var accumulator : Symbol) :
    List (Arg Value) → AnalysisM (List LoopExpr)
  | [] => return []
  | ⟨_, value⟩ :: rest => do
    let operand ← loopExprOf env var accumulator value
    return operand :: (← loopExprsOf env var accumulator rest)

end

/-- The only statement of a block, or the body itself if it is no block. -/
def statementOf (env : EnvId) (body : Value) : AnalysisM Value := do
  match body.namedCall? with
  | some (⟨"\x7b"⟩, args) =>
    match plainValues? args with
    | some [statement] =>
      if (← ev.loopOp env ⟨"\x7b"⟩) = .block then return statement else failure
    | _ => failure
  | _ => return body

/-- The accumulator and the increment of the loop body `accumulator <- accumulator + increment`. -/
def accumulationOf (env : EnvId) (var : Symbol) (statement : Value) :
    AnalysisM (Symbol × Value) := do
  let some (assign, args) := statement.namedCall? | failure
  let some [target, value] := plainValues? args | failure
  unless (← ev.loopOp env assign) = .assign do failure
  let .symbol accumulator := target | failure
  if accumulator = var || accumulator.isMissing || accumulator.isEllipsis then failure
  let some (plus, operands) := value.namedCall? | failure
  let some [.symbol left, increment] := plainValues? operands | failure
  unless left = accumulator do failure
  unless (← ev.loopOp env plus) = .binary .add do failure
  return (accumulator, increment)

def accumulationBody (env : EnvId) (var : Symbol) (body : Value) :
    AnalysisM (Symbol × LoopExpr) := do
  let statement ← ev.statementOf env body
  let (accumulator, increment) ← ev.accumulationOf env var statement
  return (accumulator, ← ev.loopExprOf env var accumulator increment)

/-- The loop over `var` with this body, to be run on whole vectors; none if it is unfit or needs a
    computation that has no kernel. -/
def analyze (env : EnvId) (var : Symbol) (body : Value) : SessionM (Option Accumulation) := do
  match ← (ev.accumulationBody env var body).run [] with
  | none => return none
  | some ((accumulator, increment), guard) =>
    let kernels := (← get).kernels
    if (accumulatingComputation :: increment.computations).all kernels.contains then
      return some ⟨accumulator, increment, increment.invariants, guard⟩
    else return none

end Evaluator

end CallByNeed
