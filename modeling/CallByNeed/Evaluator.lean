import CallByNeed.Builtin.Attributes
import CallByNeed.Builtin.Introspection
import CallByNeed.Builtin.Namespaces
import CallByNeed.Builtin.Numeric
import CallByNeed.Builtin.Special
import CallByNeed.Evaluator.Invocation
import CallByNeed.Loop.Run

/-!
# Evaluation

Symbols stand for the values of variables, calls are applied, promises are
forced, and everything else evaluates to itself.  `Evaluator.step` carries out
one task and hands the tasks inside it to a given evaluator; `evaluator fuel` is
the evaluator that can do so `fuel` times inside each other.
-/

namespace CallByNeed

namespace Evaluator

variable (ev : Evaluator)

/-! ## Builtins -/

/-- An arithmetic operator: a method for one of the operands, or else the operator itself. -/
def runArithmetic (op : BinaryOp) (args : ArgList) (env : EnvId) : SessionM Value := do
  match ← ev.dispatchOperator op.spelling env args with
  | some value => return value
  | none => SessionM.deliver (Builtin.arithmetic op args)

def runEager (builtin : EagerBuiltin) (args : ArgList) (env : EnvId) : SessionM Value :=
  match builtin with
  | .arithmetic op => ev.runArithmetic op args env
  | .compare op => SessionM.deliver (Builtin.compare op args)
  | .sequence => SessionM.deliver (Builtin.sequence args)
  | .combine => SessionM.deliver (Builtin.combine args)
  | .length => SessionM.deliver (Builtin.length args)
  | .math f => SessionM.deliver (Builtin.math f args)
  | .reduce op => SessionM.deliver (Builtin.reduce op args)
  | .margin op => SessionM.deliver (Builtin.margin op args)
  | .withAttributes => SessionM.deliver (Builtin.withAttributes args)
  | .attributeOf => SessionM.deliver (Builtin.attributeOf args)
  | .classOf => SessionM.deliver (Builtin.classOf args)
  | .environmentOf => SessionM.deliver (Builtin.environmentOf args env)
  | .namespaces query => ev.runNamespaceQuery query args env
  | .introspect query => SessionM.introspect query args env

/-! ## Expressions -/

def evaluateSymbol (name : Symbol) (env : EnvId) : SessionM Value := do
  if name.isMissing then SessionM.fail (.argumentMissing name)
  else if name.isEllipsis then SessionM.fail misplacedEllipsis
  else
    match ← SessionM.askHeap fun h => h.lookup env name with
    | .dots _ => SessionM.fail misplacedEllipsis
    | value =>
      let value ← ev.force value
      if value.isMissingArg then SessionM.fail (.argumentMissing name) else return value

def functionOf (call : Call) (env : EnvId) : SessionM Value :=
  match call.function with
  | .symbol name => ev.requireFunction env name
  | expr => ev.evaluate expr env

def evaluateCall (call : Call) (env : EnvId) : SessionM Value := do
  match ← ev.functionOf call env with
  | .closure closure =>
    let args ← SessionM.suspendArgs call.args env
    ev.invoke closure env call args []
  | .builtin _ (.special form) => ev.runSpecial form call env
  | .builtin _ (.eager builtin) =>
    let args ← ev.argValues call.args env
    ev.runEager builtin args env
  | other => SessionM.fail (.notAFunction other.typeName)

def evaluateExpr (expr : Value) (env : EnvId) : SessionM Value :=
  match expr with
  | .symbol name => ev.evaluateSymbol name env
  | .call call => ev.evaluateCall call env
  | .promise id => ev.demand id
  | .dots _ => SessionM.fail misplacedEllipsis
  | _ => pure expr

/-- Apply a function to promised arguments. -/
def applyValue (function : Value) (call : Call) (args : ArgList) (env : EnvId)
    (extra : List (Symbol × Value)) : SessionM Value :=
  match function with
  | .closure closure => ev.invoke closure env call args extra
  | .builtin _ (.special form) => ev.runSpecial form call env
  | .builtin _ (.eager builtin) => do
    let args ← args.mapM ev.forceArg
    ev.runEager builtin args env
  | other => SessionM.fail (.notAFunction other.typeName)

def step : Task → SessionM Value
  | .evaluate expr env => ev.evaluateExpr expr env
  | .apply function call args env extra => ev.applyValue function call args env extra
  | .loop call env var sequence body => ev.runLoop call env var sequence body

end Evaluator

/-- The evaluator that hands on tasks at most `fuel` times inside each other. -/
def evaluator : (fuel : Nat) → Evaluator
  | 0, _ => throw .exhausted
  | fuel + 1, task => (evaluator fuel).step task

end CallByNeed
