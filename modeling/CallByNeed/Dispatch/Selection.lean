import CallByNeed.Dispatch.Methods
import CallByNeed.Evaluator.Arguments
import CallByNeed.Value.Inspect

/-!
# Method selection

The classes of an object are tried in order.  For each one a visible function of
the method's name is preferred to a registered one.  If no class has a method,
the method for `default` is taken.

`useMethod` selects by the class of an object and goes on with the arguments of
the call that is under way.  `dispatchOperator` selects for an arithmetic
operator: each operand with an explicit class is tried, and each of its classes,
first for the operator itself and then for the group `Ops`.
-/

namespace CallByNeed

/-- A method together with the name it was found under and the classes from the one it was found for
    onward. -/
structure SelectedMethod where
  method : Value
  name : Symbol
  classes : List String

namespace Evaluator

variable (ev : Evaluator)

/-- The method of this name: a function visible from `env`, or else one registered in `table`. -/
def method? (name : Symbol) (env : EnvId) (table : Option EnvId) : SessionM (Option Value) := do
  match ← ev.function? env name, table with
  | some method, _ => return some method
  | none, none => return none
  | none, some table =>
    match ← SessionM.askHeap fun h => h.getLocal table name with
    | none => return none
    | some value =>
      let value ← ev.force value
      return if value.isFunction then some value else none

def methodForClasses (generic : String) (env : EnvId) (table : Option EnvId) :
    List String → SessionM (Option SelectedMethod)
  | [] => return none
  | className :: rest => do
    let name := methodName generic className
    match ← ev.method? name env table with
    | some method => return some ⟨method, name, className :: rest⟩
    | none => methodForClasses generic env table rest

/-- The method for the first class that has one, or the default method. -/
def methodOrDefault (generic : String) (classes : List String) (env : EnvId)
    (table : Option EnvId) : SessionM (Option SelectedMethod) := do
  match ← ev.methodForClasses generic env table classes with
  | some selected => return some selected
  | none =>
    let name := methodName generic "default"
    return (← ev.method? name env table).map fun method => ⟨method, name, []⟩

def selectMethod (generic : String) (classes : List String) (env : EnvId)
    (definitionEnv : Option EnvId) : SessionM (Option SelectedMethod) := do
  match definitionEnv with
  | some definitionEnv =>
    ev.methodOrDefault generic classes env (← SessionM.methodsTable definitionEnv)
  | none => ev.methodOrDefault generic classes env none

/-- The object that dispatch looks at by default: the first argument of the invocation in `env`. -/
def receiver (formals : ArgList) (env : EnvId) : SessionM Value := do
  match formals.head?.bind (·.tag) with
  | none => return .null
  | some first =>
    match ← SessionM.askHeap fun h => h.getLocal env first with
    | none => return .null
    | some value =>
      if first.isEllipsis then
        match value with
        | .dots (arg :: _) => ev.force arg.value
        | _ => return .null
      else if value.isMissingArg then SessionM.fail (.argumentMissing first)
      else ev.force value

def classesValue (classes : List String) : SessionM Value :=
  if classes.isEmpty then pure .null else SessionM.newStrings classes

/-- Select a method of a generic for an object, apply it to the promised arguments of the
    invocation whose frame is `env`, and return its value from there. -/
def applyMethod (generic : String) (object : Value) (invocation : Invocation) (env : EnvId) :
    SessionM Value := do
  let classes := object.classes
  -- looked up where it was called; if it is not seen from there, the running closure stands in
  let definitionEnv := (← ev.genericEnv generic invocation.callerEnv).getD invocation.closure.env
  match ← ev.selectMethod generic classes invocation.callerEnv (some definitionEnv) with
  | none => SessionM.fail (.noApplicableMethod generic (classes.head?.getD ""))
  | some selected =>
    let extra :=
      [(⟨".Generic"⟩, ← SessionM.newString generic),
        (⟨".Class"⟩, ← classesValue selected.classes)]
    let value ←
      ev (.apply selected.method invocation.call invocation.args invocation.callerEnv extra)
    throw (.returning env value)

/-- Go on with a method of a generic inside the invocation whose frame is `env`: the method for an
    object, which is the receiver of the invocation unless it is given. -/
def useMethod (generic : String) (object : Option Value) (env : EnvId) : SessionM Value := do
  match (← get).invocationOf? env with
  | none => SessionM.fail (.invalidArgument "UseMethod called from outside a function")
  | some invocation =>
    match object with
    | some object => ev.applyMethod generic object invocation env
    | none =>
      ev.applyMethod generic (← ev.receiver invocation.closure.formals env) invocation env

/-- The names of the methods that an operator could have for these operands, in the order in which
    they are tried. -/
def operatorMethodNames (op : String) (args : ArgList) : List Symbol :=
  args.flatMap fun arg =>
    if arg.value.hasClassAttribute then
      arg.value.classes.flatMap fun className =>
        [methodName op className, methodName "Ops" className]
    else []

def firstMethod (env : EnvId) (table : Option EnvId) : List Symbol → SessionM (Option Value)
  | [] => return none
  | name :: rest => do
    match ← ev.method? name env table with
    | some method => return some method
    | none => firstMethod env table rest

/-- The value of an operator by a method for one of its operands; none if there is no method. -/
def dispatchOperator (op : String) (env : EnvId) (args : ArgList) : SessionM (Option Value) := do
  let table ← SessionM.methodsTable (← get).namespaces.baseEnv
  match ← ev.firstMethod env table (operatorMethodNames op args) with
  | none => return none
  | some method =>
    -- the operands are values already, so each is promised as itself
    let promised ← args.mapM fun arg =>
      return Arg.new arg.tag (← SessionM.newKept arg.value arg.value)
    let call ← SessionM.newCall (.symbol ⟨op⟩) args
    let extra := [(⟨".Generic"⟩, ← SessionM.newString op)]
    return some (← ev (.apply method call promised env extra))

end Evaluator

end CallByNeed
