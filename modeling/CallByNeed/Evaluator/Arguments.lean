import CallByNeed.Evaluator.Basic

/-!
# Arguments of a call

A closure gets its arguments as promises, an eager builtin gets their values.
On both ways `...` stands for the arguments that the calling function collected
under that name, with their tags, and an omitted argument stays omitted.
-/

namespace CallByNeed

def misplacedEllipsis : EvalError := .invalidArgument "'...' used in an incorrect context"

namespace SessionM

/-- A promise of an argument expression.  Only symbols and calls have to be evaluated, and nothing
    is promised twice. -/
def promiseOf (expr : Value) (env : EnvId) : SessionM Value :=
  match expr with
  | .symbol _ => newWaiting expr env
  | .call _ => newWaiting expr env
  | _ => newKept expr expr

def suspend (expr : Value) (env : EnvId) : SessionM Value :=
  match expr with
  | .promise _ => return expr
  | _ => if expr.isMissingArg then return expr else promiseOf expr env

/-- The arguments collected under `...` as seen from `env`; none if it is not bound. -/
def ellipsisArgs (env : EnvId) : SessionM ArgList := do
  match ← askHeap fun h => h.find env .ellipsis with
  | none => return []
  | some (_, .dots args) => return args
  | some (_, value) => if value.isMissingArg then return [] else fail misplacedEllipsis

/-- The arguments of a call, with each `...` replaced by what it stands for. -/
def suspendArgs : ArgList → EnvId → SessionM ArgList
  | [], _ => return []
  | arg :: rest, env => do
    let promised ←
      if arg.value.isEllipsis then
        (← ellipsisArgs env).mapM fun dot => return Arg.new dot.tag (← suspend dot.value env)
      else pure [Arg.new arg.tag (← suspend arg.value env)]
    return promised ++ (← suspendArgs rest env)

end SessionM

namespace Evaluator

variable (ev : Evaluator)

/-- The value of an argument that was promised before; an omitted one stays omitted. -/
def forceArg (arg : Arg Value) : SessionM (Arg Value) := do
  if arg.value.isMissingArg then return .new arg.tag arg.value
  else return .new arg.tag (← ev.force arg.value)

/-- The values of the arguments of a call, from left to right. -/
def argValues : ArgList → EnvId → SessionM ArgList
  | [], _ => return []
  | arg :: rest, env => do
    let evaluated ←
      if arg.value.isEllipsis then (← SessionM.ellipsisArgs env).mapM ev.forceArg
      else if arg.value.isMissingArg then pure [arg]
      else pure [Arg.new arg.tag (← ev.evaluate arg.value env)]
    return evaluated ++ (← argValues rest env)

end Evaluator

end CallByNeed
