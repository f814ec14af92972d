import CallByNeed.Builtin.Answer
import CallByNeed.Dispatch.Selection

/-!
# Special forms

The forms that receive their arguments unevaluated: quoting, functions,
assignment, blocks, conditions, loops, `return`, `missing` and `UseMethod`.
Each checks the number of its arguments first.
-/

namespace CallByNeed

/-- The numbers of arguments that a form accepts, in words. -/
def arityText (least most : Nat) : String :=
  if least = most then toString least else toString least ++ " to " ++ toString most

def arityError (name : String) (given least most : Nat) : EvalError :=
  .invalidArgument (toString given ++ " arguments passed to '" ++ name ++ "' which requires "
    ++ arityText least most)

namespace SessionM

def requireArity (call : Call) (form : SpecialForm) (least most : Nat) : SessionM Unit :=
  if call.args.length < least || most < call.args.length then
    fail (arityError form.name call.args.length least most)
  else pure ()

def oneArg (call : Call) (form : SpecialForm) : SessionM Value := do
  match call.args with
  | [x] => return x.value
  | args => fail (arityError form.name args.length 1 1)

def twoArgs (call : Call) (form : SpecialForm) : SessionM (Value × Value) := do
  match call.args with
  | [x, y] => return (x.value, y.value)
  | args => fail (arityError form.name args.length 2 2)

/-- The name that an assignment writes to: a symbol or a string. -/
def assignmentTarget (target : Value) : SessionM Symbol :=
  let invalid :=
    EvalError.invalidArgument ("invalid assignment target (got " ++ target.typeName ++ ")")
  match target with
  | .symbol name => if name.isMissing || name.isEllipsis then fail invalid else pure name
  | _ =>
    match target.singleString? with
    | some text => pure ⟨text⟩
    | none => fail invalid

def makeFunction (call : Call) (env : EnvId) : SessionM Value := do
  let (formals, body) ← twoArgs call .function
  let formals ←
    match formals with
    | .list formals => pure formals
    | .null => pure []
    | other =>
      fail (.invalidArgument ("invalid formal argument list (got " ++ other.typeName ++ ")"))
  return .closure ⟨← newIdentity, formals, body, env⟩

/-- Whether a binding is of an argument that was not supplied, judged by the binding alone. -/
def bindingIsMissing (binding : Binding) : Bool :=
  binding.defaultArg || binding.value.isMissingArg ||
    match binding.value with
    | .dots [] => true
    | _ => false

/-- Whether the variable that a promise stands for is an argument that was not supplied.  Only a
    promise that is still waiting, and whose expression is just a name, stands for one. -/
def promiseIsMissing (p : Promise) : SessionM Bool := do
  match p.expr, p.env? with
  | .symbol inner, some origin =>
    if inner.isMissing then return false
    else
      let frame ← askHeap fun h => h.frame origin
      return (frame.get? inner).any bindingIsMissing
  | _, _ => return false

/-- Whether `name` is an argument of the invocation in `env` that was not supplied.  An argument
    that only passes on an argument of its caller counts as not supplied if that one was not. -/
def isMissing (env : EnvId) (name : Symbol) : SessionM Bool := do
  let frame ← askHeap fun h => h.frame env
  match frame.get? name with
  | none =>
    fail (.invalidArgument ("'missing' can only be used for arguments (got '" ++ name.name ++ "')"))
  | some binding =>
    if bindingIsMissing binding then return true
    else
      match binding.value with
      | .promise id =>
        match (← get).promises.get? id with
        | some p => promiseIsMissing p
        | none => return false
      | _ => return false

def missingForm (call : Call) (env : EnvId) : SessionM Value := do
  let arg ← oneArg call .missing
  match arg.nameText? with
  | some name => newLogical (← isMissing env ⟨name⟩)
  | none => fail (.invalidArgument "invalid use of 'missing'")

end SessionM

namespace Evaluator

variable (ev : Evaluator)

/-- The value of the last of several expressions. -/
def evaluateBlock (env : EnvId) : ArgList → Value → SessionM Value
  | [], last => return last
  | arg :: rest, _ => do evaluateBlock env rest (← ev.evaluate arg.value env)

/-- Assign a value in `env` itself. -/
def assign (call : Call) (env : EnvId) : SessionM Value := do
  let (target, expr) ← SessionM.twoArgs call .assign
  let name ← SessionM.assignmentTarget target
  let value ← ev.evaluate expr env
  SessionM.bindIn env name value
  return value

/-- Assign a value in an environment around `env`. -/
def assignOuter (call : Call) (env : EnvId) : SessionM Value := do
  let (target, expr) ← SessionM.twoArgs call .assignOuter
  let name ← SessionM.assignmentTarget target
  let value ← ev.evaluate expr env
  let global := (← get).globalEnv
  let _ ← SessionM.onHeap (HeapM.assignNonLocal env name value global)
  return value

def ifElse (call : Call) (env : EnvId) : SessionM Value := do
  SessionM.requireArity call .ifElse 2 3
  match call.args with
  | condition :: consequence :: alternative =>
    let value ← ev.evaluate condition.value env
    match value.condition? with
    | none =>
      SessionM.fail
        (.typeError ("argument is not interpretable as logical (got " ++ value.typeName ++ ")"))
    | some true => ev.evaluate consequence.value env
    | some false =>
      match alternative with
      | [] => return .null
      | alternative :: _ => ev.evaluate alternative.value env
  | _ => return .null

def forLoop (call : Call) (env : EnvId) : SessionM Value := do
  match call.args with
  | [counter, sequence, body] =>
    match counter.value with
    | .symbol name =>
      let sequence ← ev.evaluate sequence.value env
      ev (.loop call env name sequence body.value)
    | _ => SessionM.fail (.invalidArgument "invalid for() loop variable")
  | args => SessionM.fail (arityError SpecialForm.forLoop.name args.length 3 3)

/-- The value of the first argument, or NULL. -/
def evaluateFirst (args : ArgList) (env : EnvId) : SessionM Value :=
  match args with
  | [] => pure .null
  | arg :: _ => ev.evaluate arg.value env

/-- Return from the invocation whose frame is `env`, unless it is over. -/
def returnValue (call : Call) (env : EnvId) : SessionM Value := do
  SessionM.requireArity call .returnValue 0 1
  let value ← ev.evaluateFirst call.args env
  if ((← get).invocationOf? env).isSome then throw (.returning env value)
  else SessionM.fail .deadFrameReturn

def useMethodForm (call : Call) (env : EnvId) : SessionM Value := do
  SessionM.requireArity call .useMethod 1 2
  let generic ← ev.evaluateFirst call.args env
  let generic ← SessionM.ofExcept (nameArg generic "generic")
  match call.args with
  | [_, object] => ev.useMethod generic (some (← ev.evaluate object.value env)) env
  | _ => ev.useMethod generic none env

def runSpecial (form : SpecialForm) (call : Call) (env : EnvId) : SessionM Value :=
  match form with
  | .quote => SessionM.oneArg call .quote
  | .function => SessionM.makeFunction call env
  | .assign => ev.assign call env
  | .assignEquals => ev.assign call env
  | .assignOuter => ev.assignOuter call env
  | .block => ev.evaluateBlock env call.args .null
  | .ifElse => ev.ifElse call env
  | .forLoop => ev.forLoop call env
  | .returnValue => ev.returnValue call env
  | .missing => SessionM.missingForm call env
  | .useMethod => ev.useMethodForm call env
  | .receivedCall => return .list [.untagged (.call call), .untagged (.environment env)]

end Evaluator

end CallByNeed
